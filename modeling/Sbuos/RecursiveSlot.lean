import Sbuos.CowFault
/-!
# The recursive slot (sys/memory_helpers.c:84-105, 337-380)

The kernel computes the addresses of its tables: `map_page` by or-ing and shifting left by nine at each level, the
two copy-on-write helpers by shifting the page's address right by nine under one cleared bit. Slot 510 of the PML4
names the PML4 itself, so a walk through it stays at the root, and slot 509 that of the fork partner.

**`recursive_slot_addresses`**: the four-level walk takes each of these addresses to the table, or the entry, that
it is meant for.
-/
namespace Sbuos
open Lib

namespace Vm

/-- The values of `table` in `map_page`, from the given one on. -/
def tableValues (virt : Word) : Nat → Word → List Word
  | 0, table => [table]
  | k + 1, table =>
    let index := (virt >>> (12 + (k + 1) * 9)) &&& 0x1ff
    table :: tableValues virt k (nextTable table index)

/-- `ptr` in `map_page_COW` (memory_helpers.c:360-369). -/
def mapPageCowPtr (vAddr : Word) : Word :=
  let virt := vAddr &&& 0xfffffffffffff000
  let virt := virt ||| 0xffff000000000000
  let virt := virt &&& 0xfffeffffffffffff
  (virt >>> 9) ||| 0xffff000000000000

/-- `ptr` in `cross_off_COW`, once it is set (memory_helpers.c:345-349). -/
def crossOffCowPtr (virt : Word) : Word :=
  let virt := virt &&& 0xfffffffffffff000
  let virt := virt ||| 0xffff000000000000
  let virt := virt &&& 0xfffdffffffffffff
  (virt >>> 9) ||| 0xffff000000000000

end Vm

namespace Vm

/-- The access at `a` is one to this word. -/
def Names (s : Vm) (a : Word) (f : Frame) (i : Index) : Prop := translate s.mem s.cr3 a = some (f, i)

/-- The table at `a`: each of its words. -/
def PointsTo (s : Vm) (a : Word) (f : Frame) : Prop := ∀ i : Index, s.Names (slot a (i.setWidth 64)) f i

end Vm

/-! ## The code's pointers -/

section code
variable {s : Vm} {virt : Word}

/-- The loop of `map_page` leaves `table` at the last of its values. -/
theorem mapPageLoop_table {k : Nat} {table t : Word} {newPage : Bool} {s' : Vm}
    (h : Vm.mapPageLoop virt k table newPage s = some (t, s')) : (Vm.tableValues virt k table)[k]? = some t := by
  induction k generalizing table newPage s with
  | zero =>
    cases h
    rfl
  | succ k ih =>
    have hturn : ∀ s, Vm.mapPageLoop virt (k + 1) table false s = some (t, s') →
        (Vm.tableValues virt (k + 1) table)[k + 1]? = some t := by
      intro s h
      rw [Vm.mapPageLoop] at h
      simp only [Bool.false_eq_true, if_false, Option.bind_eq_bind, Option.bind_some] at h
      obtain ⟨e, -, h⟩ := Option.bind_eq_some_iff.1 h
      rw [Vm.tableValues, List.getElem?_cons_succ]
      -- a new table or one that was there: the next address is computed in the same way
      split at h
      · obtain ⟨s2, -, h⟩ := Option.bind_eq_some_iff.1 h
        exact ih h
      · exact ih h
    cases newPage with
    | false => exact hturn s h
    | true =>
      rw [Vm.mapPageLoop_new] at h
      obtain ⟨s1, -, h⟩ := Option.bind_eq_some_iff.1 h
      exact hturn s1 h

/-- `cross_off_COW` edits the entry at its pointer. -/
theorem crossOffCow_ptr (virt : Word) (s : Vm) : s.crossOffCow virt = (s.read (Vm.slot Vm.pml4Addr 509)).bind fun e =>
    if e = 0 then some s
    else (s.read (Vm.crossOffCowPtr virt)).bind fun temp =>
      s.write (Vm.crossOffCowPtr virt) ((temp &&& ~~~cow) ||| readWrite) := rfl

/-- `map_page_COW` stores the new entry at its pointer, between the two copies of the page. -/
theorem mapPageCow_ptr (phys vAddr flags currentTable : Word) (s : Vm) :
    s.mapPageCow phys vAddr flags currentTable = (indices.foldlM (fun (t : Index → Word) i =>
      (s.read (Vm.slot (vAddr &&& 0xfffffffffffff000) (i.setWidth 64))).bind fun x => some (Function.update t i x))
        fun _ => 0).bind fun tempPage => (s.write (Vm.mapPageCowPtr vAddr) (phys ||| flags)).bind fun s =>
      indices.foldlM (fun (s : Vm) i => s.write (Vm.slot (vAddr &&& 0xfffffffffffff000) (i.setWidth 64)) (tempPage i))
        { s with cr3 := currentTable } := rfl

end code

/-! ## The addresses -/

/-- **The values of `table`** are the recursive addresses of the prefixes of the path. -/
theorem tableValues_getElem? (virt : Word) (k : Nat) (q : List Index) (hq : q.length + k = 3) {n : Nat} (hn : n ≤ k) :
    (Vm.tableValues virt k (recAddr q))[n]? = some (recAddr (q ++ (upper virt k).take n)) := by
  induction k generalizing q n with
  | zero =>
    obtain rfl := Nat.le_zero.1 hn
    rw [List.take_zero, List.append_nil]
    rfl
  | succ k ih =>
    rw [Vm.tableValues]
    cases n with
    | zero =>
      rw [List.take_zero, List.append_nil]
      rfl
    | succ n =>
      have hlen : q.length ≤ 3 := by omega
      rw [List.getElem?_cons_succ, shift_and_index, nextTable_recAddr hlen, upper, List.take_succ_cons,
        List.append_cons q _ ((upper virt k).take n)]
      refine ih _ ?_ (Nat.le_of_succ_le_succ hn)
      rw [List.length_append, List.length_singleton]
      omega

theorem length_upper (virt : Word) (k : Nat) : (upper virt k).length = k := by
  induction k with
  | zero => rfl
  | succ k ih => rw [upper, List.length_cons, ih]

section addresses
variable {s : Vm} {r' : Frame}

/-- **The addresses are right**: the values of `table` in `map_page` point to the tables on the way to `v`, the
pointer of `map_page_COW` names the entry of `v`, and that of `cross_off_COW` the partner's. -/
theorem recursive_slot_addresses (hself : child (s.mem s.root 510) = some s.root)
    (hpartner : child (s.mem s.root 509) = some r') (v : Word) :
    (∀ n table f, (Vm.tableValues v 3 Vm.pml4Addr)[n]? = some table →
      walk s.mem s.root ((tablePath v).take n) = some f → s.PointsTo table f) ∧
    (∀ f, walk s.mem s.root (tablePath v) = some f → s.Names (Vm.mapPageCowPtr v) f (pageIndex v)) ∧
      ∀ f, walk s.mem r' (tablePath v) = some f → s.Names (Vm.crossOffCowPtr v) f (pageIndex v) := by
  have hlen : (tablePath v).length ≤ 3 := (length_upper v 3).le
  refine ⟨fun n table f htable hw => ?_, fun f hw => ?_, fun f hw => ?_⟩
  · have hn : n ≤ 3 := by
      obtain ⟨hlt, -⟩ := List.getElem?_eq_some_iff.1 htable
      exact Nat.le_of_lt_succ hlt
    rw [pml4Addr_eq, tableValues_getElem? v 3 [] rfl hn] at htable
    cases htable
    have hq : Reachable ((tablePath v).take n) := .inl ((List.length_take_le _ _).trans hn)
    exact (Vm.Sees.recAddr hself hq hw).translate
  · have hptr : Vm.mapPageCowPtr v = _ := ownEntry_eq v
    rw [hptr]
    exact (Vm.Sees.recAddr hself (.inl hlen) hw).translate _
  · have hptr : Vm.crossOffCowPtr v = _ := partnerEntry_eq v
    rw [hptr]
    have hwalk : walk s.mem s.root (509 :: tablePath v) = some f := by
      rwa [walk, Radix.walk_cons, hpartner]
    exact (Vm.Sees.recAddr hself (.inr ⟨_, rfl, hlen⟩) hwalk).translate _

/-- Two address spaces with a page table each, the second behind slot 509 of the first. -/
def Vm.twoSpaces : Vm where
  mem f i :=
    if i = 0 then
      if f = 1 then 0x2007
      else if f = 2 then 0x3007
      else if f = 3 then 0x4007
      else if f = 5 then 0x6007
      else if f = 6 then 0x7007
      else if f = 7 then 0x8007
      else 0
    else if f = 1 ∧ i = 510 then 0x1007
    else if f = 1 ∧ i = 509 then 0x5007
    else 0
  cr3 := 0x1000
  frames := ⟨fun _ => ⟨0, 0⟩, 0, 0, 0, 0⟩

theorem recursive_slot_addresses_two : Vm.twoSpaces.PointsTo Vm.pml4Addr 1 ∧
    Vm.twoSpaces.Names (Vm.mapPageCowPtr 0x5abc) 4 5 ∧ Vm.twoSpaces.Names (Vm.crossOffCowPtr 0x5abc) 8 5 := by
  have hself : child (Vm.twoSpaces.mem Vm.twoSpaces.root 510) = some Vm.twoSpaces.root := by decide
  have hpartner : child (Vm.twoSpaces.mem Vm.twoSpaces.root 509) = some 5 := by decide
  obtain ⟨htables, hown, hcross⟩ := recursive_slot_addresses hself hpartner 0x5abc
  exact ⟨htables 0 _ 1 rfl (by decide), hown 4 (by decide), hcross 8 (by decide)⟩

end addresses

end Sbuos
