import Mathlib.Data.List.Nodup
import Mathlib.Tactic.IntervalCases
import Sbuos.Frames
import Sbuos.Lib.Radix
/-!
# Page tables (sys/memory_helpers.c)

Physical memory is read and written in 64-bit words, 512 to a frame. An address is translated by the
four-level walk from `cr3`, which every PRESENT entry continues; the kernel's own accesses ignore the
other flags. An access that does not translate has no result.

The kernel edits its tables through the self-referencing PML4 slot 510. `recAddr q` is the address at
which the table behind the path `q` appears (`Vm.Sees.recAddr`): an access there is an access to the
frame that the path leads to.
-/
namespace Sbuos
open Lib

abbrev Frame := BitVec 40
abbrev Index := BitVec 9

/-- Physical memory: the words of each frame. -/
abbrev PMem := Frame → Index → Word

/-! ## The MMU -/

/-- The flags of an entry (memory_helpers.h:10-13). -/
def present : Word := 1
def readWrite : Word := 2
def userAccessible : Word := 4
def cow : Word := 0x200

/-- Bits 12 to 51: the frame an entry, or `cr3`, names. -/
def frameOf (e : Word) : Frame := e.extractLsb' 12 40

/-- The frame a PRESENT entry leads to. -/
def child (e : Word) : Option Frame := if e &&& present = 0 then none else some (frameOf e)

def walk : PMem → Frame → List Index → Option Frame := Radix.walk child

/-- The four table indices of an address. -/
def pathOf (a : Word) : List Index :=
  [a.extractLsb' 39 9, a.extractLsb' 30 9, a.extractLsb' 21 9, a.extractLsb' 12 9]

/-- Which word of its page an address names. -/
def wordOf (a : Word) : Index := a.extractLsb' 3 9

/-- Bits 47 to 63 agree. -/
def Canonical (a : Word) : Prop := a.extractLsb' 47 17 = 0 ∨ a.extractLsb' 47 17 = BitVec.allOnes 17

instance (a : Word) : Decidable (Canonical a) := inferInstanceAs (Decidable (_ ∨ _))

/-- The word that an address of one, in the address space of `cr3`, names. -/
def translate (m : PMem) (cr3 a : Word) : Option (Frame × Index) :=
  if Canonical a ∧ a.extractLsb' 0 3 = 0 then
    (walk m (frameOf cr3) (pathOf a)).map fun f => (f, wordOf a)
  else none

/-- `for (int i = 0; i < 512; ++i)`. -/
def indices : List Index := (List.range 512).map (BitVec.ofNat 9)

/-- Memory, the address space in force, and the frame allocator. -/
structure Vm where
  mem : PMem
  cr3 : Word
  frames : Frames

namespace Vm

def root (s : Vm) : Frame := frameOf s.cr3

def read (s : Vm) (a : Word) : Option Word := do
  let (f, i) ← translate s.mem s.cr3 a
  some (s.mem f i)

def write (s : Vm) (a x : Word) : Option Vm := do
  let (f, i) ← translate s.mem s.cr3 a
  some { s with mem := Radix.set s.mem f i x }

/-- `get_free_page`, as the `base` of the page it returns. -/
def getFreePage (s : Vm) : Word × Vm :=
  let (page, frames) := s.frames.getFreePage
  (frames.base page, { s with frames := frames })

/-! ## The kernel's functions -/

/-- `&table[index]`: eight bytes an entry. -/
def slot (table index : Word) : Word := table + index <<< 3

/-- `zero_out` (memory_helpers.c:50-54), a word at a time. -/
def zeroOut (address : Word) (s : Vm) : Option Vm :=
  indices.foldlM (fun s i => s.write (slot address (i.setWidth 64)) 0) s

/-- Where the table behind `table[index]` appears (memory_helpers.c:99). -/
def nextTable (table index : Word) : Word := (table ||| 0xffffff8000000000 ||| (index <<< 3)) <<< 9

/-- The PML4's own address, through slot 510 four times. -/
def pml4Addr : Word := 0xffffff7fbfdfe000

/-- An entry for a new table (memory_helpers.c:96). -/
def tableEntry (base : Word) : Word := base ||| present ||| readWrite ||| userAccessible

/-- The loop of `map_page` with `k` levels to go, `lvl = k + 1` (memory_helpers.c:88-100): the last table's
address. A new table is cleared on the iteration after the one that created it. -/
def mapPageLoop (virt : Word) : Nat → Word → Bool → Vm → Option (Word × Vm)
  | 0, table, _, s => some (table, s)
  | k + 1, table, newPage, s => do
    let index := (virt >>> (12 + (k + 1) * 9)) &&& 0x1ff
    let s ← if newPage then s.zeroOut table else some s
    let e ← s.read (slot table index)
    if e = 0 then
      let (base, s) := s.getFreePage
      let s ← s.write (slot table index) (tableEntry base)
      mapPageLoop virt k (nextTable table index) true s
    else mapPageLoop virt k (nextTable table index) false s

/-- `map_page` (memory_helpers.c:84-105). -/
def mapPage (phys virt flags : Word) (s : Vm) : Option (Vm × Word) := do
  let (table, s) ← mapPageLoop virt 3 pml4Addr false s
  let index := (virt >>> 12) &&& 0x1ff
  let s ← s.write (slot table index) ((phys &&& 0xffffffffff000) ||| flags)
  some (s, virt + BitVec.ofNat 64 pageSize)

end Vm

/-! ## Addresses -/

/-- The page with the given four indices, in the upper half. -/
def pageAddr (a b c d : Index) : Word :=
  0xffff000000000000 ||| a.setWidth 64 <<< 39 ||| b.setWidth 64 <<< 30 ||| c.setWidth 64 <<< 21 |||
    d.setWidth 64 <<< 12

/-- Where the table behind a path of at most four indices appears. -/
def recAddr : List Index → Word
  | [] => pageAddr 510 510 510 510
  | [a] => pageAddr 510 510 510 a
  | [a, b] => pageAddr 510 510 a b
  | [a, b, c] => pageAddr 510 a b c
  | a :: b :: c :: d :: _ => pageAddr a b c d

def Aligned (v : Word) : Prop := v.extractLsb' 0 12 = 0

theorem Aligned.getLsbD {v : Word} (h : Aligned v) {k : Nat} (hk : k < 12) : v.getLsbD k = false := by
  have hbit := congrArg (fun x : BitVec 12 => x.getLsbD k) h
  simpa [BitVec.getLsbD_extractLsb', hk] using hbit

section slot
open Vm
variable {v : Word} (h : Aligned v) (i : Index)
include h

theorem slot_eq_or : slot v (i.setWidth 64) = v ||| i.setWidth 64 <<< 3 := by
  rw [slot, BitVec.add_eq_or_of_and_eq_zero]
  apply BitVec.eq_of_getLsbD_eq
  intro k _
  by_cases hk : k < 12
  · simp [h.getLsbD hk]
  · simp [BitVec.getLsbD_of_ge i (k - 3) (by omega)]

/-- A word's address has the indices of its page. -/
theorem extractLsb'_slot {n len : Nat} (hn : 12 ≤ n) :
    (slot v (i.setWidth 64)).extractLsb' n len = v.extractLsb' n len := by
  rw [slot_eq_or h]
  apply BitVec.eq_of_getLsbD_eq
  intro k _
  simp [BitVec.getLsbD_of_ge i (n + k - 3) (by omega)]

theorem pathOf_slot : pathOf (slot v (i.setWidth 64)) = pathOf v := by
  simp only [pathOf, extractLsb'_slot h i (by decide : 12 ≤ 39), extractLsb'_slot h i (by decide : 12 ≤ 30),
    extractLsb'_slot h i (by decide : 12 ≤ 21), extractLsb'_slot h i (by decide : 12 ≤ 12)]

theorem wordOf_slot : wordOf (slot v (i.setWidth 64)) = i := by
  rw [wordOf, slot_eq_or h]
  apply BitVec.eq_of_getLsbD_eq
  intro k hk
  have hlow := h.getLsbD (show 3 + k < 12 by omega)
  rw [BitVec.getLsbD_extractLsb', BitVec.getLsbD_or, hlow, BitVec.getLsbD_shiftLeft]
  simp [hk, show 3 + k < 64 by omega, show k < 64 by omega]

theorem slot_low : (slot v (i.setWidth 64)).extractLsb' 0 3 = 0 := by
  rw [slot_eq_or h]
  apply BitVec.eq_of_getLsbD_eq
  intro k hk
  have hlow := h.getLsbD (show k < 12 by omega)
  simp [hlow, hk]

end slot

theorem pageAddr_aligned (a b c d : Index) : Aligned (pageAddr a b c d) := by
  apply BitVec.eq_of_getLsbD_eq
  intro k hk
  interval_cases k <;> simp [pageAddr]

theorem pathOf_pageAddr (a b c d : Index) : pathOf (pageAddr a b c d) = [a, b, c, d] := by
  simp only [pathOf, List.cons.injEq, and_true]
  refine ⟨?_, ?_, ?_, ?_⟩ <;> apply BitVec.eq_of_getLsbD_eq <;> intro k hk <;>
    interval_cases k <;> simp [pageAddr]

theorem nextTable_pageAddr (a b c d i : Index) :
    Vm.nextTable (pageAddr a b c d) (i.setWidth 64) = pageAddr b c d i := by
  apply BitVec.eq_of_getLsbD_eq
  intro k hk
  interval_cases k <;> simp [Vm.nextTable, pageAddr]

theorem canonical_pageAddr {a : Index} (ha : a.msb = true) (b c d : Index) : Canonical (pageAddr a b c d) := by
  right
  apply BitVec.eq_of_getLsbD_eq
  intro k hk
  rw [BitVec.msb_eq_getLsbD_last] at ha
  interval_cases k <;> simp_all [pageAddr]

theorem shift_and_index (v : Word) (n : Nat) : (v >>> n) &&& 0x1ff = (v.extractLsb' n 9).setWidth 64 := by
  apply BitVec.eq_of_toNat_eq
  have h := Nat.and_two_pow_sub_one_eq_mod (v.toNat >>> n) 9
  simp at h ⊢
  omega

/-- The paths whose tables the kernel edits: its own, and through slot 509 those of its fork partner. -/
def Reachable (q : List Index) : Prop := q.length ≤ 3 ∨ ∃ p, q = 509 :: p ∧ p.length ≤ 3

theorem Reachable.length_le {q : List Index} (h : Reachable q) : q.length ≤ 4 := by
  rcases h with h | ⟨p, rfl, hp⟩
  · omega
  · rw [List.length_cons]
    omega

theorem recAddr_aligned (q : List Index) : Aligned (recAddr q) := by
  unfold recAddr; split <;> exact pageAddr_aligned _ _ _ _

theorem recAddr_canonical {q : List Index} (hq : Reachable q) : Canonical (recAddr q) := by
  unfold recAddr
  split
  case h_5 a b c d _ =>
    rcases hq with hq | ⟨p, hp, -⟩
    · simp only [List.length_cons] at hq
      omega
    · rw [(List.cons.inj hp).1]
      exact canonical_pageAddr (by decide) _ _ _
  all_goals exact canonical_pageAddr (by decide) _ _ _

theorem nextTable_recAddr {q : List Index} (hq : q.length ≤ 3) (i : Index) :
    Vm.nextTable (recAddr q) (i.setWidth 64) = recAddr (q ++ [i]) := by
  match q, hq with
  | [], _ => exact nextTable_pageAddr ..
  | [a], _ => exact nextTable_pageAddr ..
  | [a, b], _ => exact nextTable_pageAddr ..
  | [a, b, c], _ => exact nextTable_pageAddr ..
  | _ :: _ :: _ :: _ :: _, h =>
    simp only [List.length_cons] at h
    omega

theorem pml4Addr_eq : Vm.pml4Addr = recAddr [] := by decide

/-- Slot 510 leads back to the table it is in. -/
def SelfMapped (m : PMem) (r : Frame) : Prop := child (m r 510) = some r

theorem pathOf_recAddr {q : List Index} (hq : q.length ≤ 4) :
    pathOf (recAddr q) = List.replicate (4 - q.length) 510 ++ q := by
  match q, hq with
  | [], _ | [_], _ | [_, _], _ | [_, _, _], _ | [_, _, _, _], _ => exact pathOf_pageAddr ..
  | _ :: _ :: _ :: _ :: _ :: _, h =>
    simp only [List.length_cons] at h
    omega

/-- Leading 510s of a path make no difference. -/
theorem SelfMapped.walk_replicate {m : PMem} {r : Frame} (h : SelfMapped m r) (n : Nat) (q : List Index) :
    walk m r (List.replicate n 510 ++ q) = walk m r q := by
  induction n with
  | zero => rfl
  | succ n ih => rw [List.replicate_succ, List.cons_append, walk, Radix.walk_cons, h, Option.bind_some, ← walk, ih]

/-! ## Pages of the address space in force -/

theorem mem_take_indices {n : Nat} (hn : n ≤ 512) (i : Index) : i ∈ indices.take n ↔ i.toNat < n := by
  rw [indices, ← List.map_take, List.take_range, Nat.min_eq_left hn, List.mem_map]
  constructor
  · rintro ⟨k, hk, rfl⟩
    rw [List.mem_range] at hk
    rw [BitVec.toNat_ofNat]
    omega
  · exact fun hi => ⟨i.toNat, List.mem_range.2 hi, by simp⟩

theorem mem_indices (i : Index) : i ∈ indices := by
  have h := (mem_take_indices (n := 512) le_rfl i).2 i.isLt
  exact List.mem_of_mem_take h

theorem indices_nodup : indices.Nodup := by
  refine List.Nodup.map_on (fun a ha b hb e => ?_) List.nodup_range
  rw [List.mem_range] at ha hb
  have h := congrArg BitVec.toNat e
  rw [BitVec.toNat_ofNat, BitVec.toNat_ofNat] at h
  omega

theorem child_eq_some {e : Word} {g : Frame} (h : child e = some g) : e ≠ 0 ∧ frameOf e = g := by
  rw [child] at h
  split at h
  · cases h
  · rename_i hp
    exact ⟨by rintro rfl; exact hp rfl, Option.some.inj h⟩

namespace Vm

variable {s : Vm} {v : Word} {f g : Frame} {i : Index} {x : Word}

/-- The page at `v` is the frame `f`. -/
structure Sees (s : Vm) (v : Word) (f : Frame) : Prop where
  aligned : Aligned v
  canonical : Canonical v
  walks : walk s.mem s.root (pathOf v) = some f

/-- The walk to the page at `v` takes no link out of `f`. -/
def Avoids (s : Vm) (v : Word) (f : Frame) : Prop :=
  ∀ q i, q ++ [i] <+: pathOf v → walk s.mem s.root q ≠ some f

theorem Sees.translate (h : s.Sees v f) (i : Index) :
    translate s.mem s.cr3 (slot v (i.setWidth 64)) = some (f, i) := by
  have hc : Canonical (slot v (i.setWidth 64)) := by
    rw [Canonical, extractLsb'_slot h.aligned i (by decide)]
    exact h.canonical
  rw [Sbuos.translate, if_pos ⟨hc, slot_low h.aligned i⟩, pathOf_slot h.aligned, wordOf_slot h.aligned,
    ← Vm.root, h.walks, Option.map_some]

theorem Sees.read (h : s.Sees v f) (i : Index) : s.read (slot v (i.setWidth 64)) = some (s.mem f i) := by
  rw [Vm.read, h.translate]
  rfl

theorem Sees.write (h : s.Sees v f) (i : Index) (x : Word) :
    s.write (slot v (i.setWidth 64)) x = some { s with mem := Radix.set s.mem f i x } := by
  rw [Vm.write, h.translate]
  rfl

theorem Sees.update (h : s.Sees v f) (hg : s.Avoids v g) (t : Index → Word) :
    Sees { s with mem := Function.update s.mem g t } v f :=
  ⟨h.aligned, h.canonical, (Radix.walk_update_of_avoids hg).trans h.walks⟩

/-- A loop that stores `val` at every index of a frame. -/
theorem foldlM_indices {body : Vm → Index → Option Vm} (val : Index → Word)
    (hbody : ∀ t i, body { s with mem := Function.update s.mem f t } i =
      some { s with mem := Function.update s.mem f (Function.update t i (val i)) }) :
    indices.foldlM body s = some { s with mem := Function.update s.mem f val } := by
  have key : ∀ (L : List Index) (t : Index → Word),
      L.foldlM body { s with mem := Function.update s.mem f t } =
        some { s with mem := Function.update s.mem f fun i => if i ∈ L then val i else t i } := by
    intro L
    induction L with
    | nil => intro t; simp
    | cons i L ih =>
      intro t
      rw [List.foldlM_cons, hbody]
      simp only [Option.bind_eq_bind, Option.bind_some]
      rw [ih]
      congr 3
      funext j
      by_cases hj : j = i
      · subst hj; simp
      · simp [hj]
  have hall := key indices (s.mem f)
  simpa [mem_indices] using hall

theorem Sees.storePage (h : s.Sees v f) (hf : s.Avoids v f) {body : Vm → Index → Option Vm} (val : Index → Word)
    (hbody : ∀ t i, body { s with mem := Function.update s.mem f t } i =
      Vm.write { s with mem := Function.update s.mem f t } (slot v (i.setWidth 64)) (val i)) :
    indices.foldlM body s = some { s with mem := Function.update s.mem f val } :=
  foldlM_indices val fun t i => by
    rw [hbody, (h.update hf t).write]
    simp only [Radix.set, Function.update_self, Function.update_idem]

theorem Sees.zeroOut (h : s.Sees v f) (hf : s.Avoids v f) :
    Vm.zeroOut v s = some { s with mem := Radix.fill s.mem f 0 } :=
  h.storePage hf _ fun _ _ => rfl

/-- The table behind a path, at its address. -/
theorem Sees.recAddr (hs : SelfMapped s.mem s.root) {q : List Index} (hq : Reachable q)
    (hw : walk s.mem s.root q = some f) : s.Sees (recAddr q) f := by
  refine ⟨recAddr_aligned q, recAddr_canonical hq, ?_⟩
  rwa [pathOf_recAddr hq.length_le, hs.walk_replicate]

/-- What the walk to such an address passes through. -/
theorem Avoids.recAddr (hs : SelfMapped s.mem s.root) {q : List Index} (hq : Reachable q) (hr : g ≠ s.root)
    (hg : ∀ p i, p ++ [i] <+: q → walk s.mem s.root p ≠ some g) : s.Avoids (recAddr q) g := by
  intro p i hp
  rw [pathOf_recAddr hq.length_le] at hp
  obtain ⟨u, hu⟩ := hp
  -- either the walk is still in slot 510, at the root, or it has reached a prefix of `q`
  have hroot : ∀ n w, List.replicate n 510 = p ++ w → walk s.mem s.root p ≠ some g := by
    intro n w hn hw
    rw [(List.append_eq_replicate_iff.1 hn.symm).2.1, ← List.append_nil (List.replicate _ _),
      hs.walk_replicate, walk, Radix.walk_nil] at hw
    exact hr (Option.some.inj hw).symm
  rcases List.append_eq_append_iff.1 hu with ⟨v, hv, -⟩ | ⟨v, hv, rfl⟩
  · exact hroot _ ([i] ++ v) (by rw [hv, List.append_assoc])
  · rcases List.eq_nil_or_concat v with rfl | ⟨v, j, rfl⟩
    · exact hroot _ [i] (by rw [hv, List.append_nil])
    · rw [List.concat_eq_append, ← List.append_assoc] at hv
      obtain ⟨rfl, -⟩ := List.append_inj' hv rfl
      rw [hs.walk_replicate]
      exact hg v j (by simp)

end Vm

end Sbuos
