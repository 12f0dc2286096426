import Sbuos.Lib.Absent
import Sbuos.MapPage
/-!
# Mapping before paging is on (sys/memory_helpers.c:50-54, 162-188, 283-299)

`setup_paging` fills in the kernel's tables through the loader's identity mapping, so `k_map_v` finds a table at its
physical address. It clears a table before it links it, and needs no slot that leads back: mapping a page changes no
other (`OneMore`), and the frames that `k_mem_map_v` takes for a range are as many as its tables are missing
(`Radix.absent`).
-/
namespace Sbuos
open Lib

/-- `KERNEL_MAPPING` (memory_helpers.h:8). -/
def kernelMapping : Word := 0xffffffff80000000

/-- The word at a physical address. -/
def physWord (a : Word) : Option (Frame × Index) :=
  if a.extractLsb' 52 12 = 0 ∧ a.extractLsb' 0 3 = 0 then some (frameOf a, wordOf a) else none

namespace Vm

def physRead (s : Vm) (a : Word) : Option Word := do
  let (f, i) ← physWord a
  some (s.mem f i)

def physWrite (s : Vm) (a x : Word) : Option Vm := do
  let (f, i) ← physWord a
  some { s with mem := Radix.set s.mem f i x }

/-- `zero_out` at a physical address, a word at a time. -/
def physZeroOut (address : Word) (s : Vm) : Option Vm :=
  indices.foldlM (fun s i => s.physWrite (slot address (i.setWidth 64)) 0) s

/-- `k_map_v` (memory_helpers.c:162-179). The levels are 1 to 4. -/
def kMapV (phys virt : Word) : Nat → Word → Vm → Option Vm
  | 0, _, _ => none
  | lvl + 1, table, s => do
    let index := 0x1ff &&& (virt >>> (12 + lvl * 9))
    if lvl = 0 then s.physWrite (slot table index) ((phys &&& 0xffffffffff000) ||| present ||| readWrite)
    else
      let e ← s.physRead (slot table index)
      let s ← if e = 0 then
          let (base, s) := s.getFreePage
          let s ← s.physZeroOut base
          s.physWrite (slot table index) (tableEntry base)
        else some s
      let e ← s.physRead (slot table index)
      kMapV phys virt lvl (e &&& 0xffffffffff000) s

/-- `k_mem_map_v` (memory_helpers.c:181-188), with the turns its loop has left. -/
def kMemMapV : Nat → Word → Word → Word → Word → Vm → Option (Word × Vm)
  | 0, _, _, _, _, _ => none
  | turns + 1, base, stop, res, table, s =>
    if base < stop then do
      let s ← s.kMapV base res 4 table
      kMemMapV turns (base + BitVec.ofNat 64 pageSize) stop (res + BitVec.ofNat 64 pageSize) table s
    else some (res, s)

end Vm

/-! ## The tree -/

/-- The paths of tables outside slot 510. -/
def Direct (p : List Index) : Prop := p.length ≤ 3 ∧ p.head? ≠ some 510

instance (p : List Index) : Decidable (Direct p) := inferInstanceAs (Decidable (_ ∧ _))

/-- The paths of the tree at `r`. -/
def DirectPath (r r' : Frame) (p : List Index) : Prop := r' = r ∧ Direct p

/-- A tree of tables: an entry above the pages is zero or leads to a table, and no two paths lead to one table. -/
structure Tables (m : PMem) (r : Frame) : Prop where
  present : ∀ p i f, Direct (p ++ [i]) → walk m r p = some f → m f i ≠ 0 → child (m f i) ≠ none
  distinct : Radix.Forest child m (DirectPath r)

/-- `m'` is `m` with the entry `e` for the page `d` of the table behind `t`, and with the tables on the way there. -/
structure OneMore (r : Frame) (t : List Index) (d : Index) (e : Word) (m m' : PMem) : Prop where
  page : pageEntry m' r t d = some e
  others : ∀ p d', p.length = 3 → Direct p → (p, d') ≠ (t, d) → leaf m' r p d' = leaf m r p d'
  missing : ∀ p, Direct p → (walk m' r p = none ↔ walk m r p = none ∧ ¬ p <+: t)

section tables
variable {m m' : PMem} {r f g : Frame} {p q t : List Index} {i d : Index} {e : Word}

theorem Direct.of_append (h : Direct (p ++ q)) : Direct p := by
  obtain ⟨h1, h2⟩ := h
  rw [List.length_append] at h1
  exact ⟨by omega, head?_ne_of_append h2⟩

theorem DirectPath.closed (r : Frame) : ∀ r' p q, DirectPath r r' (p ++ q) → DirectPath r r' p :=
  fun _ _ _ h => ⟨h.1, h.2.of_append⟩

/-- A new table, cleared and linked. -/
theorem grafted_link (hq : Direct (q ++ [i])) (hw : walk m r q = some f) (hc : child (m f i) = none)
    (hg : Radix.Fresh child m (DirectPath r) g) :
    Radix.Grafted child (DirectPath r) m r q f i g (Radix.set (Radix.fill m g 0) f i (link g)) := by
  have hfg : g ≠ f := by
    rintro rfl
    exact hg r q ⟨rfl, hq.of_append⟩ hw
  refine ⟨⟨rfl, hq⟩, hw, hc, hg, ?_, fun h j hhg hfi => ?_, fun j _ => ?_⟩
  · rw [Radix.set_self, child_link]
  · rw [Radix.set_apply, if_neg hfi, Radix.fill_of_ne hhg]
  · rw [Radix.set_of_ne hfg, Radix.fill_self, child_zero]

section graft
variable (hm : Tables m r) (hG : Radix.Grafted child (DirectPath r) m r q f i g m') (hzero : ∀ j, m' g j = 0)
include hm hG

/-- Below a link that was missing there was nothing. -/
theorem walk_graft (hp : Direct p) : walk m' r p = none ↔ walk m r p = none ∧ p ≠ q ++ [i] := by
  by_cases heq : p = q ++ [i]
  · subst heq
    have hnew : walk m' r (q ++ [i]) = some g := hG.walk_new (DirectPath.closed r) hm.distinct
    simp [hnew]
  · have hsame : walk m' r p = walk m r p :=
      hG.walk_eq (DirectPath.closed r) hm.distinct ⟨rfl, hp⟩ fun h => heq h.2
    rw [hsame]
    exact ⟨fun h => ⟨h, heq⟩, fun h => h.1⟩

include hzero

theorem Tables.graft : Tables m' r := by
  refine ⟨fun p j h hp hw hne => ?_, hG.forest (DirectPath.closed r) hm.distinct⟩
  by_cases hhg : h = g
  · rw [hhg, hzero] at hne
    exact absurd rfl hne
  · by_cases hfi : h = f ∧ j = i
    · rw [hfi.1, hfi.2, hG.linked]
      exact Option.some_ne_none g
    · have hsame : walk m r p = some h := by
        rw [← hw]
        refine (hG.walk_eq (DirectPath.closed r) hm.distinct ⟨rfl, hp.of_append⟩ ?_).symm
        rintro ⟨-, rfl⟩
        have hnew : walk m' r (q ++ [i]) = some g := hG.walk_new (DirectPath.closed r) hm.distinct
        exact hhg (Option.some.inj (hw.symm.trans hnew))
      rw [hG.frame h j hhg hfi] at hne ⊢
      exact hm.present p j h hp hsame hne

/-- No page changes. -/
theorem leaf_graft (hp : p.length = 3) (hk : Direct p) (d : Index) : leaf m' r p d = leaf m r p d := by
  rw [leaf, leaf, pageEntry, pageEntry]
  by_cases heq : p = q ++ [i]
  · subst heq
    have hnew : walk m' r (q ++ [i]) = some g := hG.walk_new (DirectPath.closed r) hm.distinct
    have hold : walk m r (q ++ [i]) = none := by
      rw [walk, Radix.walk_snoc, hG.arrives, Option.bind_some, hG.unlinked]
    rw [hnew, hold, Option.map_some, hzero]
    rfl
  · have hsame : walk m' r p = walk m r p :=
      hG.walk_eq (DirectPath.closed r) hm.distinct ⟨rfl, hk⟩ fun h => heq h.2
    rw [hsame]
    cases hw : walk m r p with
    | none => rfl
    | some h =>
      have hhg : h ≠ g := by
        rintro rfl
        exact hG.fresh r p ⟨rfl, hk⟩ hw
      have hfi : ¬(h = f ∧ d = i) := by
        rintro ⟨rfl, -⟩
        obtain ⟨-, rfl⟩ := hm.distinct r p r q h ⟨rfl, hk⟩ ⟨rfl, hG.used.2.of_append⟩ hw hG.arrives
        have hlen := hG.used.2.1
        rw [List.length_append, List.length_singleton] at hlen
        omega
      rw [Option.map_some, Option.map_some, hG.frame h d hhg hfi]

end graft

/-- Storing the page's entry in its table. -/
theorem oneMore_set (hm : Tables m r) (ht : Direct t) (hlen : t.length = 3) (hw : walk m r t = some f) :
    OneMore r t d e m (Radix.set m f d e) ∧ Tables (Radix.set m f d e) r ∧
      ∀ g, Radix.Fresh child m (DirectPath r) g → Radix.Fresh child (Radix.set m f d e) (DirectPath r) g := by
  -- no walk passes through a page table
  have hwalk : ∀ p, Direct p → walk (Radix.set m f d e) r p = walk m r p := by
    refine fun p hp => Radix.walk_set_of_avoids fun q i hq hf => ?_
    have hlt := hq.length_le
    rw [List.length_append, List.length_singleton] at hlt
    obtain ⟨u, rfl⟩ := hq
    obtain ⟨-, rfl⟩ := hm.distinct r q r t f ⟨rfl, hp.of_append.of_append⟩ ⟨rfl, ht⟩ hf hw
    have hle := hp.1
    omega
  refine ⟨⟨?_, fun p d' hp hk hne => ?_, fun p hk => ?_⟩, ⟨fun p i h hp hh hne => ?_, ?_⟩, fun g hg r' p hp hh => ?_⟩
  · rw [pageEntry, hwalk t ht, hw, Option.map_some, Radix.set_self]
  · rw [leaf, leaf, pageEntry, pageEntry, hwalk p hk]
    cases hh : walk m r p with
    | none => rfl
    | some h =>
      have hfd : ¬(h = f ∧ d' = d) := by
        rintro ⟨rfl, rfl⟩
        obtain ⟨-, rfl⟩ := hm.distinct r p r t h ⟨rfl, hk⟩ ⟨rfl, ht⟩ hh hw
        exact hne rfl
      rw [Option.map_some, Option.map_some, Radix.set_apply, if_neg hfd]
  · rw [hwalk p hk]
    refine ⟨fun h => ⟨h, ?_⟩, fun h => h.1⟩
    rintro ⟨u, rfl⟩
    rw [walk, Radix.walk_append, ← walk, h, Option.bind_none] at hw
    cases hw
  · rw [hwalk p hp.of_append] at hh
    have hhf : ¬(h = f ∧ i = d) := by
      rintro ⟨rfl, -⟩
      obtain ⟨-, rfl⟩ := hm.distinct r p r t h ⟨rfl, hp.of_append⟩ ⟨rfl, ht⟩ hh hw
      have hle := hp.1
      rw [List.length_append, List.length_singleton] at hle
      omega
    rw [Radix.set_apply, if_neg hhf] at hne ⊢
    exact hm.present p i h hp hh hne
  · rintro r₁ p r₂ p' h ⟨rfl, hp⟩ ⟨rfl, hp'⟩ hh hh'
    exact hm.distinct _ p _ p' h ⟨rfl, hp⟩ ⟨rfl, hp'⟩ ((hwalk p hp).symm.trans hh) ((hwalk p' hp').symm.trans hh')
  · obtain ⟨rfl, hk⟩ := hp
    exact hg r' p ⟨rfl, hk⟩ ((hwalk p hk).symm.trans hh)

/-- A table linked on the way to the page, and the rest of the way. -/
theorem OneMore.of_graft {m₁ : PMem} (hm : Tables m r) (hG : Radix.Grafted child (DirectPath r) m r q f i g m₁)
    (hzero : ∀ j, m₁ g j = 0) (ht : q ++ [i] <+: t) (h : OneMore r t d e m₁ m') : OneMore r t d e m m' := by
  refine ⟨h.page, fun p d' hp hk hne => ?_, fun p hk => ?_⟩
  · rw [h.others p d' hp hk hne, leaf_graft hm hG hzero hp hk]
  · rw [h.missing p hk, walk_graft hm hG hk, and_assoc]
    refine and_congr_right fun _ => ⟨fun h => h.2, fun h => ⟨?_, h⟩⟩
    rintro rfl
    exact h ht

end tables

/-! ## One page -/

theorem aligned_baseOf (g : Frame) : Aligned (baseOf g) := by
  apply BitVec.eq_of_getLsbD_eq
  intro k hk
  rw [BitVec.getLsbD_extractLsb', getLsbD_baseOf g (by omega)]
  simp
  omega

/-- The entries of a table at its physical address. -/
theorem physWord_slot (g : Frame) (i : Index) : physWord (Vm.slot (baseOf g) (i.setWidth 64)) = some (g, i) := by
  have hhigh : (baseOf g).extractLsb' 52 12 = 0 := by
    apply BitVec.eq_of_getLsbD_eq
    intro k hk
    rw [BitVec.getLsbD_extractLsb', getLsbD_baseOf g (by omega), BitVec.getLsbD_of_ge g _ (by omega)]
    simp
  rw [physWord, extractLsb'_slot (aligned_baseOf g) i (by decide : 12 ≤ 52),
    if_pos ⟨hhigh, slot_low (aligned_baseOf g) i⟩, frameOf, extractLsb'_slot (aligned_baseOf g) i (Nat.le_refl 12),
    wordOf_slot (aligned_baseOf g)]
  exact congrArg (fun f => some (f, i)) (frameOf_baseOf g)

/-- The address of the table that an entry leads to. -/
theorem and_mask (e : Word) : e &&& 0xffffffffff000 = baseOf (frameOf e) := by
  apply BitVec.eq_of_getLsbD_eq
  intro k hk
  simp only [baseOf, frameOf]
  interval_cases k <;> simp

namespace Vm
variable {s : Vm} {f g : Frame} {i : Index} {x : Word}

theorem physRead_slot : s.physRead (slot (baseOf f) (i.setWidth 64)) = some (s.mem f i) := by
  rw [physRead, physWord_slot]
  rfl

theorem physWrite_slot : s.physWrite (slot (baseOf f) (i.setWidth 64)) x =
    some { s with mem := Radix.set s.mem f i x } := by
  rw [physWrite, physWord_slot]
  rfl

theorem physZeroOut_eq : physZeroOut (baseOf g) s = some { s with mem := Radix.fill s.mem g 0 } :=
  foldlM_indices (fun _ => 0) fun t i => by
    rw [physWrite_slot]
    simp only [Radix.set, Function.update_self, Function.update_idem]

/-- **One page**, from the table behind `q` on: the missing tables are taken from the free frames, and the page is
mapped. -/
theorem kMapV_oneMore (phys virt : Word) {r : Frame} (ht : Direct (tablePath virt)) (k : Nat) :
    ∀ (q : List Index) (f : Frame) (gs : List Frame) (s : Vm), Tables s.mem r → walk s.mem r q = some f →
    q ++ upper virt k = tablePath virt → s.frames.Free gs → gs.Nodup →
    (∀ g ∈ gs, Radix.Fresh child s.mem (DirectPath r) g) → missing s.mem f (upper virt k) ≤ gs.length →
    ∃ s', kMapV phys virt (k + 1) (baseOf f) s = some s' ∧
      OneMore r (tablePath virt) (pageIndex virt) (leafEntry phys (present ||| readWrite)) s.mem s'.mem ∧
      Tables s'.mem r ∧ s'.frames.Free (gs.drop (missing s.mem f (upper virt k))) ∧
      ∀ g ∈ gs.drop (missing s.mem f (upper virt k)), Radix.Fresh child s'.mem (DirectPath r) g := by
  have hindex : ∀ n, (0x1ff : Word) &&& (virt >>> n) = (virt.extractLsb' n 9).setWidth 64 := fun n => by
    rw [BitVec.and_comm, shift_and_index]
  induction k with
  | zero =>
    intro q f gs s hm hw hq hfree _ hfresh _
    rw [upper, List.append_nil] at hq
    obtain ⟨hone, htables, hstays⟩ := oneMore_set (d := pageIndex virt) (e := leafEntry phys (present ||| readWrite))
      hm (hq ▸ ht) (by rw [hq]; rfl) hw
    rw [kMapV]
    simp only [hindex, physWrite_slot, if_true]
    rw [BitVec.or_assoc]
    subst hq
    exact ⟨_, rfl, hone, htables, hfree, fun g hg => hstays g (hfresh g hg)⟩
  | succ k ih =>
    intro q f gs s hm hw hq hfree hnd hfresh hlen
    rw [upper] at hq hlen ⊢
    generalize hi : virt.extractLsb' (12 + (k + 1) * 9) 9 = i at hq hlen ⊢
    have hsplit : q ++ [i] ++ upper virt k = tablePath virt := by rw [← hq]; simp
    have hpre : q ++ [i] <+: tablePath virt := ⟨_, hsplit⟩
    have hdirect : Direct (q ++ [i]) := by
      rw [← hsplit] at ht
      exact ht.of_append
    rw [kMapV]
    simp only [hindex, hi, Nat.succ_ne_zero, if_false, physRead_slot, Option.bind_eq_bind, Option.bind_some]
    cases hc : child (s.mem f i) with
    | some g =>
      obtain ⟨hne, hframe⟩ := child_eq_some hc
      have hg : walk s.mem r (q ++ [i]) = some g := by
        rw [walk, Radix.walk_snoc, ← walk, hw, Option.bind_some, hc]
      simp only [missing, Radix.missing, hc] at hlen ⊢
      rw [if_neg hne, and_mask, hframe]
      exact ih (q ++ [i]) g gs s hm hg hsplit hfree hnd hfresh hlen
    | none =>
      have h0 : s.mem f i = 0 := by
        by_contra hne
        exact hm.present q i f hdirect hw hne hc
      simp only [missing, Radix.missing, hc] at hlen ⊢
      obtain ⟨g, gs, rfl⟩ := List.exists_cons_of_ne_nil (l := gs) (by rintro rfl; simp at hlen)
      obtain ⟨fr, hget, hfree'⟩ := getFreePage_free hfree
      obtain ⟨hgs, hnd'⟩ := List.nodup_cons.1 hnd
      have hG := grafted_link hdirect hw hc (hfresh g List.mem_cons_self)
      have hfg : g ≠ f := by
        rintro rfl
        exact hfresh g List.mem_cons_self r q ⟨rfl, hdirect.of_append⟩ hw
      have hzero : ∀ j, Radix.set (Radix.fill s.mem g 0) f i (link g) g j = 0 := fun j => by
        rw [Radix.set_of_ne hfg, Radix.fill_self]
      have hnew := hG.walk_new (DirectPath.closed r) hm.distinct
      have hmiss : missing (Radix.set (Radix.fill s.mem g 0) f i (link g)) g (upper virt k) = (upper virt k).length :=
        Radix.missing_of_blank fun j => by rw [hzero, child_zero]
      rw [if_pos h0, hget]
      simp only [physZeroOut_eq, Option.bind_some, physWrite_slot, Radix.set_self, and_mask,
        show tableEntry (baseOf g) = link g from rfl, (child_eq_some (child_link g)).2]
      obtain ⟨s', hrun, hone, hm', hfree'', hfresh'⟩ := ih (q ++ [i]) g gs
        ⟨Radix.set (Radix.fill s.mem g 0) f i (link g), s.cr3, fr⟩ (hm.graft hG hzero) hnew hsplit hfree' hnd'
        (fun g' hg' => hG.fresh_of_ne (DirectPath.closed r) hm.distinct (hfresh g' (List.mem_cons_of_mem g hg'))
          (by rintro rfl; exact hgs hg')) (by rw [hmiss]; simpa using hlen)
      rw [hmiss] at hfree'' hfresh'
      exact ⟨s', hrun, hone.of_graft hm hG hzero hpre, hm', hfree'', hfresh'⟩

end Vm

/-! ## The pages of a range -/

/-- How many pages there are from `base` to `stop`. -/
def pagesTo (base stop : Word) : Nat := (stop.toNat - base.toNat + (pageSize - 1)) / pageSize

/-- The `i`-th page from `v` on. -/
def pageAt (v : Word) (i : Nat) : Word := v + BitVec.ofNat 64 (pageSize * i)

/-- The `n` pages from `v` on are outside PML4 slot 510. -/
def DirectRange (v : Word) (n : Nat) : Prop := ∀ i < n, Direct (tablePath (pageAt v i))

/-- The number of a page: bits 12 to 47 of its addresses. -/
def pageNo (v : Word) : Nat := v.toNat / 4096 % 2 ^ 36

section pages
variable {v w : Word} {i j n : Nat}

theorem toNat_indices (v : Word) : (v.extractLsb' 39 9).toNat = pageNo v / 2 ^ 27 ∧
    (v.extractLsb' 30 9).toNat = pageNo v / 2 ^ 18 % 512 ∧ (v.extractLsb' 21 9).toNat = pageNo v / 2 ^ 9 % 512 ∧
    (v.extractLsb' 12 9).toNat = pageNo v % 512 := by
  simp only [BitVec.extractLsb'_toNat, Nat.shiftRight_eq_div_pow, pageNo]
  omega

theorem pathOf_eq_iff : pathOf v = pathOf w ↔ pageNo v = pageNo w := by
  obtain ⟨h1, h2, h3, h4⟩ := toNat_indices v
  obtain ⟨h1', h2', h3', h4'⟩ := toNat_indices w
  simp only [pathOf, List.cons.injEq, ← BitVec.toNat_inj, h1, h2, h3, h4, h1', h2', h3', h4', and_true]
  constructor
  · rintro ⟨e1, e2, e3, e4⟩
    omega
  · rintro e
    rw [e]
    exact ⟨rfl, rfl, rfl, rfl⟩

theorem pageNo_pageAt : pageNo (pageAt v i) = (pageNo v + i) % 2 ^ 36 := by
  rw [pageNo, pageNo, pageAt, BitVec.toNat_add, BitVec.toNat_ofNat, pageSize]
  omega

theorem pageAt_succ : pageAt (v + BitVec.ofNat 64 pageSize) i = pageAt v (i + 1) := by
  apply BitVec.eq_of_toNat_eq
  simp only [pageAt, BitVec.toNat_add, BitVec.toNat_ofNat, pageSize]
  omega

theorem pageAt_zero : pageAt v 0 = v := by simp [pageAt]

/-- Outside slot 510 the pages of a range differ: a range that comes back to one of its pages goes through all slots. -/
theorem DirectRange.distinct (h : DirectRange v n) (hij : i < j) (hj : j < n) :
    pathOf (pageAt v i) ≠ pathOf (pageAt v j) := by
  intro e
  rw [pathOf_eq_iff, pageNo_pageAt, pageNo_pageAt] at e
  have hlt : pageNo v < 2 ^ 36 := Nat.mod_lt _ (by decide)
  obtain ⟨k, hk, hno⟩ : ∃ k < 2 ^ 36, (pageNo v + k) % 2 ^ 36 = 510 * 2 ^ 27 :=
    ⟨(510 * 2 ^ 27 + 2 ^ 36 - pageNo v) % 2 ^ 36, Nat.mod_lt _ (by decide), by omega⟩
  refine (h k (by omega)).2 ?_
  have hindex : (pageAt v k).extractLsb' 39 9 = 510 := by
    apply BitVec.eq_of_toNat_eq
    rw [(toNat_indices _).1, pageNo_pageAt, hno]
    rfl
  show some _ = _
  rw [hindex]

end pages

/-- `m'` is `m` with the `n` pages from `v` on mapped to the frames from `base` on. -/
structure RangeMapped (r : Frame) (base v : Word) (n : Nat) (m m' : PMem) : Prop where
  page : ∀ i < n, pageEntry m' r (tablePath (pageAt v i)) (pageIndex (pageAt v i)) =
    some (leafEntry (pageAt base i) (present ||| readWrite))
  others : ∀ p d, p.length = 3 → Direct p → (∀ i < n, (p, d) ≠ (tablePath (pageAt v i), pageIndex (pageAt v i))) →
    leaf m' r p d = leaf m r p d

/-- One page and then the others. -/
theorem RangeMapped.cons {r : Frame} {base v : Word} {n : Nat} {m m₁ m' : PMem} (hw : DirectRange v (n + 1))
    (h : OneMore r (tablePath v) (pageIndex v) (leafEntry base (present ||| readWrite)) m m₁)
    (h' : RangeMapped r (base + BitVec.ofNat 64 pageSize) (v + BitVec.ofNat 64 pageSize) n m₁ m') :
    RangeMapped r base v (n + 1) m m' := by
  have hne : ∀ i < n, (tablePath v, pageIndex v) ≠ (tablePath (pageAt v (i + 1)), pageIndex (pageAt v (i + 1))) := by
    intro i hi e
    refine hw.distinct (Nat.succ_pos i) (Nat.succ_lt_succ hi) ?_
    obtain ⟨ht, hd⟩ := Prod.mk.inj e
    rw [pathOf_eq, pathOf_eq, pageAt_zero, ht, hd]
  refine ⟨fun i hi => ?_, fun p d hp hk hoff => ?_⟩
  · rcases i with _ | i
    · have hleaf : leaf m' r (tablePath v) (pageIndex v) = leafEntry base (present ||| readWrite) := by
        have hdirect : Direct (tablePath v) := pageAt_zero (v := v) ▸ hw 0 (Nat.succ_pos n)
        rw [h'.others _ _ rfl hdirect fun i hi => by rw [pageAt_succ]; exact hne i hi, leaf, h.page]
        rfl
      rw [pageAt_zero, pageAt_zero]
      cases hentry : pageEntry m' r (tablePath v) (pageIndex v) with
      | none =>
        rw [leaf, hentry] at hleaf
        exact absurd hleaf.symm (child_eq_some (child_leafEntry base (.inl rfl))).1
      | some e =>
        rw [leaf, hentry] at hleaf
        exact congrArg some hleaf
    · have hpage := h'.page i (Nat.lt_of_succ_lt_succ hi)
      rwa [pageAt_succ, pageAt_succ] at hpage
  · have h0 : (p, d) ≠ (tablePath v, pageIndex v) := by
      have hoff0 := hoff 0 (Nat.succ_pos n)
      rwa [pageAt_zero] at hoff0
    rw [h'.others p d hp hk fun i hi => by rw [pageAt_succ]; exact hoff (i + 1) (Nat.succ_lt_succ hi),
      h.others p d hp hk h0]

/-- The paths of the page tables of a range. -/
def pageTables (v : Word) (n : Nat) : List (List Index) := (List.range n).map fun i => tablePath (pageAt v i)

theorem pageTables_succ (v : Word) (n : Nat) :
    pageTables v (n + 1) = tablePath v :: pageTables (v + BitVec.ofNat 64 pageSize) n := by
  simp only [pageTables, List.range_succ_eq_map, List.map_cons, List.map_map, pageAt_zero, pageAt_succ]
  rfl

/-- **The loop of `k_mem_map_v`.** -/
theorem Vm.kMemMapV_mapped {r : Frame} {stop : Word} (hstop : stop.toNat ≤ 2 ^ 52) (n : Nat) :
    ∀ (base v : Word) (gs : List Frame) (s : Vm), pagesTo base stop = n → DirectRange v n → Tables s.mem r →
    s.frames.Free gs → gs.Nodup → (∀ g ∈ gs, Radix.Fresh child s.mem (DirectPath r) g) →
    (Radix.absent child s.mem r (pageTables v n)).card ≤ gs.length →
    ∃ s', kMemMapV (n + 1) base stop v (baseOf r) s = some (pageAt v n, s') ∧ RangeMapped r base v n s.mem s'.mem := by
  induction n with
  | zero =>
    intro base v gs s hn _ _ _ _ _ _
    have hge : ¬ base < stop := by
      intro h
      have hlt : base.toNat < stop.toNat := h
      rw [pagesTo, pageSize] at hn
      omega
    rw [kMemMapV, if_neg hge, pageAt_zero]
    exact ⟨s, rfl, ⟨fun i hi => absurd hi (Nat.not_lt_zero i), fun _ _ _ _ _ => rfl⟩⟩
  | succ n ih =>
    intro base v gs s hn hw hm hfree hnd hfresh hlen
    have hlt : base < stop := by
      rw [BitVec.lt_def]
      rw [pagesTo, pageSize] at hn
      omega
    have hrest : pagesTo (base + BitVec.ofNat 64 pageSize) stop = n := by
      have hlt' : base.toNat < stop.toNat := hlt
      rw [pagesTo] at hn ⊢
      rw [BitVec.toNat_add, BitVec.toNat_ofNat, pageSize] at *
      omega
    have hdirect : Direct (tablePath v) := pageAt_zero (v := v) ▸ hw 0 (Nat.succ_pos n)
    rw [pageTables_succ] at hlen
    obtain ⟨s₁, hrun, hone, hm₁, hfree₁, hfresh₁⟩ := kMapV_oneMore base v hdirect 3 [] r gs s hm rfl rfl hfree hnd
      hfresh (Nat.le_trans Radix.missing_le_card_absent hlen)
    have hw₁ : DirectRange (v + BitVec.ofNat 64 pageSize) n := fun i hi => by
      rw [pageAt_succ]
      exact hw (i + 1) (Nat.succ_lt_succ hi)
    -- the frames that are left are enough for the tables that are still missing
    have hmissing : ∀ p ∈ pageTables (v + BitVec.ofNat 64 pageSize) n, ∀ q, q <+: p →
        (walk s₁.mem r q = none ↔ walk s.mem r q = none ∧ ¬ q <+: tablePath v) := by
      rintro p hp q ⟨u, hu⟩
      obtain ⟨i, hi, rfl⟩ := List.mem_map.1 hp
      exact hone.missing q (Direct.of_append (hu ▸ hw₁ i (List.mem_range.1 hi)))
    have hcount := Radix.card_absent_cons hmissing
    have hlen₁ : (Radix.absent child s₁.mem r (pageTables (v + BitVec.ofNat 64 pageSize) n)).card ≤
        (gs.drop (missing s.mem r (tablePath v))).length := by
      rw [List.length_drop, missing]
      omega
    obtain ⟨s', hrun', hrange⟩ := ih (base + BitVec.ofNat 64 pageSize) (v + BitVec.ofNat 64 pageSize) _ s₁ hrest hw₁ hm₁
      hfree₁ (hnd.sublist (List.drop_sublist _ gs)) hfresh₁ hlen₁
    rw [kMemMapV, if_pos hlt, hrun]
    refine ⟨s', ?_, hrange.cons hw hone⟩
    rw [pageAt_succ] at hrun'
    exact hrun'

/-! ## The kernel's own mapping -/

/-- The address of a byte translates to the physical address `p`. -/
def Reaches (m : PMem) (r : Frame) (a p : Word) : Prop :=
  Canonical a ∧ walk m r (pathOf a) = some (frameOf p) ∧ a.extractLsb' 0 12 = p.extractLsb' 0 12

section kernel
variable {base p a : Word}

/-- Below 2^31 there is nothing to carry. -/
theorem or_kernelMapping (h : p.toNat < 2 ^ 31) : (p ||| kernelMapping).toNat = p.toNat + kernelMapping.toNat := by
  have hand : p &&& kernelMapping = 0 := by
    apply BitVec.eq_of_getLsbD_eq
    intro k hk
    rw [BitVec.getLsbD_and]
    by_cases hlow : k < 31
    · have hbit : kernelMapping.getLsbD k = false := by
        interval_cases k <;> rfl
      rw [hbit, Bool.and_false]
      exact BitVec.getLsbD_zero.symm
    · have hbit : p.getLsbD k = false :=
        Nat.testBit_lt_two_pow (Nat.lt_of_lt_of_le h (Nat.pow_le_pow_right (by decide) (Nat.le_of_not_lt hlow)))
      rw [hbit, Bool.false_and]
      exact BitVec.getLsbD_zero.symm
  rw [← BitVec.add_eq_or_of_and_eq_zero _ _ hand, BitVec.toNat_add]
  refine Nat.mod_eq_of_lt ?_
  have hk : kernelMapping.toNat = 2 ^ 64 - 2 ^ 31 := rfl
  omega

/-- What the range that starts at the kernel's image is mapped to. -/
theorem RangeMapped.reaches {r : Frame} {n : Nat} {m m' : PMem} (h : RangeMapped r base (base ||| kernelMapping) n m m')
    (hbase : Aligned base) (hle : base ≤ p) (hp : p.toNat < 2 ^ 31) (hn : (p.toNat - base.toNat) / pageSize < n) :
    Reaches m' r (p ||| kernelMapping) p := by
  have hle' : base.toNat ≤ p.toNat := hle
  have ha := or_kernelMapping hp
  have hv := or_kernelMapping (p := base) (by omega)
  have hk : kernelMapping.toNat = 2 ^ 64 - 2 ^ 31 := rfl
  have hlow : base.toNat % 4096 = 0 := by
    have hbits := congrArg BitVec.toNat (show base.extractLsb' 0 12 = 0 from hbase)
    simpa [BitVec.extractLsb'_toNat] using hbits
  rw [pageSize] at hn
  have hpage := h.page _ hn
  generalize hi : (p.toNat - base.toNat) / 4096 = i at hn hpage
  have hpath : pathOf (p ||| kernelMapping) = pathOf (pageAt (base ||| kernelMapping) i) := by
    rw [pathOf_eq_iff, pageNo_pageAt, pageNo, pageNo, ha, hv]
    omega
  have hframe : frameOf (pageAt base i) = frameOf p := by
    apply BitVec.eq_of_toNat_eq
    rw [frameOf, frameOf, BitVec.extractLsb'_toNat, BitVec.extractLsb'_toNat, pageAt, BitVec.toNat_add,
      BitVec.toNat_ofNat, pageSize, Nat.shiftRight_eq_div_pow, Nat.shiftRight_eq_div_pow]
    omega
  refine ⟨?_, ?_, ?_⟩
  · right
    apply BitVec.eq_of_toNat_eq
    rw [BitVec.extractLsb'_toNat, Nat.shiftRight_eq_div_pow, BitVec.toNat_allOnes, ha]
    omega
  · obtain ⟨f, hw, hentry⟩ := Option.map_eq_some_iff.1 hpage
    rw [hpath, pathOf_eq, walk, Radix.walk_snoc, ← walk, hw, Option.bind_some, hentry,
      child_leafEntry _ (.inl rfl), hframe]
  · apply BitVec.eq_of_toNat_eq
    rw [BitVec.extractLsb'_toNat, BitVec.extractLsb'_toNat, Nat.shiftRight_zero, Nat.shiftRight_zero, ha]
    omega

end kernel

/-- **The boot mapping is linear.** On a tree of tables, with as many free frames outside it as tables are missing on
the way to the pages, `k_mem_map_v` maps the pages of the range one after the other to the frames, and no other page
changes. So the kernel's image is found again at its physical addresses with `KERNEL_MAPPING`. -/
theorem k_mem_map_v_linear {s : Vm} {r : Frame} {gs : List Frame} {base stop v : Word} (hstop : stop.toNat ≤ 2 ^ 52)
    (hw : DirectRange v (pagesTo base stop)) (hm : Tables s.mem r) (hfree : s.frames.Free gs) (hnd : gs.Nodup)
    (hdisj : ∀ g ∈ gs, ∀ p, Direct p → walk s.mem r p ≠ some g)
    (hlen : (Radix.absent child s.mem r (pageTables v (pagesTo base stop))).card ≤ gs.length) :
    ∃ s', (∃ turns, Vm.kMemMapV turns base stop v (baseOf r) s = some (pageAt v (pagesTo base stop), s')) ∧
      RangeMapped r base v (pagesTo base stop) s.mem s'.mem ∧
      (Aligned base → v = base ||| kernelMapping → ∀ p, base ≤ p → p < stop → p.toNat < 2 ^ 31 →
        Reaches s'.mem r (p ||| kernelMapping) p) := by
  have hfresh : ∀ g ∈ gs, Radix.Fresh child s.mem (DirectPath r) g := by
    rintro g hg r' p ⟨rfl, hp⟩
    exact hdisj g hg p hp
  obtain ⟨s', hrun, hrange⟩ := Vm.kMemMapV_mapped hstop _ base v gs s rfl hw hm hfree hnd hfresh hlen
  refine ⟨s', ⟨_, hrun⟩, hrange, ?_⟩
  rintro hbase rfl p hle hlt hp
  refine hrange.reaches hbase hle hp ?_
  have hle' : base.toNat ≤ p.toNat := hle
  have hlt' : p.toNat < stop.toNat := hlt
  rw [pagesTo, pageSize]
  omega

theorem Vm.threeFree_tables (stale : Word) : Tables (threeFree stale).mem (threeFree stale).root where
  present := by
    intro p i f hp hw hne
    obtain ⟨rfl, rfl⟩ := threeFree_walk stale hp.of_append.2 hw
    have hi : i ≠ 510 := fun e => hp.2 (by rw [e]; rfl)
    refine absurd ?_ hne
    simpa [threeFree] using hi
  distinct := by
    rintro r p r' q f ⟨rfl, hp⟩ ⟨rfl, hq⟩ hw hw'
    exact ⟨rfl, (threeFree_walk stale hp.2 hw).1.trans (threeFree_walk stale hq.2 hw').1.symm⟩

/-- The same PML4, and four frames. -/
def Vm.fourFree : Vm :=
  { threeFree 0x9003 with
    frames := ⟨fun i => ⟨BitVec.ofNat 64 ((i + 1) * 4096), if i < 4 then i + 1 else 0⟩, 1, 4, 0, 0⟩ }

theorem Vm.fourFree_free : fourFree.frames.Free [2, 3, 4, 5] :=
  ⟨[1, 2, 3, 4], [], ⟨⟨rfl, by decide, rfl, by decide, rfl, by decide, rfl, by decide, rfl⟩, rfl, by decide, rfl⟩, rfl⟩

/-- A kernel of three pages, on both sides of the end of a page table. -/
theorem k_mem_map_v_linear_three : ∃ s' turns, Vm.kMemMapV turns 0x1ff000 0x202000 (0x1ff000 ||| kernelMapping)
      (baseOf Vm.fourFree.root) Vm.fourFree = some (0x202000 ||| kernelMapping, s') ∧
    Reaches s'.mem Vm.fourFree.root (0x1ff008 ||| kernelMapping) 0x1ff008 ∧
    Reaches s'.mem Vm.fourFree.root (0x201ff8 ||| kernelMapping) 0x201ff8 := by
  have hw : DirectRange (0x1ff000 ||| kernelMapping) (pagesTo 0x1ff000 0x202000) := by
    intro i hi
    have hi3 : i < 3 := hi
    interval_cases i <;> decide
  have hstop : (0x202000 : Word).toNat ≤ 2 ^ 52 := by decide
  have htables : Tables Vm.fourFree.mem Vm.fourFree.root := Vm.threeFree_tables 0x9003
  have hroot : Vm.fourFree.root = 1 := Vm.threeFree_root 0x9003
  obtain ⟨s', ⟨turns, hrun⟩, -, hkernel⟩ := k_mem_map_v_linear hstop hw htables Vm.fourFree_free (by decide)
    (fun g hg p hp hwalk => by
      obtain ⟨-, rfl⟩ := Vm.threeFree_walk 0x9003 hp.2 hwalk
      revert hg
      decide) (by rw [hroot]; decide +kernel)
  have haligned : Aligned 0x1ff000 := show (0x1ff000 : Word).extractLsb' 0 12 = 0 by decide
  exact ⟨s', turns, hrun, hkernel haligned rfl 0x1ff008 (by decide) (by decide) (by decide),
    hkernel haligned rfl 0x201ff8 (by decide) (by decide) (by decide)⟩

end Sbuos
