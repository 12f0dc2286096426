import Mathlib.Algebra.GroupWithZero.Nat
import Sbuos.MapPage
/-!
# Sharing an address space (sys/memory_helpers.c:305-335, :412-417)

`_do_mark_COW` walks the parent's tables through slot 510 and the child's through slot 509. `Marking` is its
invariant: `D` says which entries of the parent have been copied, and `τ p` is the child's table for the
parent's table behind `p`. The child's PML4 starts as a copy of the parent's, so a path that is not done yet
may lead from it into the parent's tables; only paths that are done are followed.
-/
namespace Sbuos
open Lib

/-- A shared page's entry: READ_WRITE cleared, COW set. -/
def cowEntry (e : Word) : Word := (e &&& ~~~readWrite) ||| cow

namespace Vm

/-- The child's PML4, through slot 509 of the parent's. -/
def childPml4Addr : Word := 0xffffff7fbfdfd000

/-- `mark_fork_cross_entry` (memory_helpers.c:412-417). `store` is the store through the child's tables. -/
def markForkCrossEntry (store : Vm → Word → Word → Option Vm) (parentPml4 childPml4 : Word) (s : Vm) : Option Vm := do
  let s ← s.write (slot pml4Addr 509) (childPml4 ||| readWrite ||| present ||| userAccessible)
  store s (slot childPml4Addr 509) (parentPml4 ||| readWrite ||| present ||| userAccessible)

/-- `count` of `_do_mark_COW`: at level 4 the slots 509 to 511 are left out (memory_helpers.c:316). -/
def entries (lvl : Nat) : List Index := indices.take (if lvl = 4 then 509 else 512)

/-- The loop's body at level 1: the parent's entry is marked, and copied to the child (memory_helpers.c:309-312). -/
def markEntry (store : Vm → Word → Word → Option Vm) (tableP tableC : Word) (s : Vm) (i : Index) : Option Vm := do
  let e ← s.read (slot tableP (i.setWidth 64))
  if e = 0 then some s else
    let s ← s.write (slot tableP (i.setWidth 64)) (e &&& ~~~readWrite)
    let e ← s.read (slot tableP (i.setWidth 64))
    let s ← s.write (slot tableP (i.setWidth 64)) (e ||| cow)
    let e ← s.read (slot tableP (i.setWidth 64))
    store s (slot tableC (i.setWidth 64)) e

/-- The loop's body above: the child gets a table of its own, and `next` goes down (memory_helpers.c:320-328). -/
def linkEntry (store : Vm → Word → Word → Option Vm) (tableP tableC : Word) (next : Index → Vm → Option Vm) (s : Vm)
    (i : Index) : Option Vm := do
  let e ← s.read (slot tableP (i.setWidth 64))
  if e = 0 then some s else
    let (base, s) := s.getFreePage
    let s ← store s (slot tableC (i.setWidth 64)) (tableEntry base)
    next i s

/-- `_do_mark_COW` at level `k + 1` (memory_helpers.c:305-330). -/
def doMarkCow (store : Vm → Word → Word → Option Vm) : Nat → Word → Word → Vm → Option Vm
  | 0, tableP, tableC, s => indices.foldlM (markEntry store tableP tableC) s
  | k + 1, tableP, tableC, s =>
    (entries (k + 2)).foldlM (linkEntry store tableP tableC fun i =>
      doMarkCow store k (nextTable tableP (i.setWidth 64)) (nextTable tableC (i.setWidth 64))) s

/-- `mark_COW` (memory_helpers.c:332-335). -/
def markCow (store : Vm → Word → Word → Option Vm) (s : Vm) : Option Vm :=
  doMarkCow store 3 pml4Addr childPml4Addr s

/-- What `get_forked_pcb` does to the tables (process_helpers.c:177-178). -/
def forkTables (store : Vm → Word → Word → Option Vm) (parentPml4 childPml4 : Word) (s : Vm) : Option Vm := do
  let s ← s.markForkCrossEntry store parentPml4 childPml4
  s.markCow store

/-- A store that is refused in some frames. -/
def writeOutside (tables : Frame → Bool) (s : Vm) (a x : Word) : Option Vm := do
  let (f, _) ← translate s.mem s.cr3 a
  if tables f then none else s.write a x

end Vm

/-! ## The entries to copy -/

/-- The path stays below the PML4 slot 509. -/
def Low (p : List Index) : Prop := ∀ i, p.head? = some i → i < 509

/-- The parent has a nonzero entry `i` in its table behind `p`. -/
def Mapped (m : PMem) (r : Frame) (p : List Index) (i : Index) : Prop :=
  p.length ≤ 3 ∧ Low (p ++ [i]) ∧ ∃ f, walk m r p = some f ∧ m f i ≠ 0

/-- How many tables there are below a table at level `k + 1`. -/
def tablesBelow (m : PMem) : Nat → Frame → Nat
  | 0, _ => 0
  | k + 1, f => ((Vm.entries (k + 2)).map fun i => if m f i = 0 then 0 else tablesBelow m k (frameOf (m f i)) + 1).sum

/-- The paths of these tables, in the order in which a fork comes to them. -/
def tablePaths (m : PMem) : Nat → List Index → Frame → List (List Index)
  | 0, _, _ => []
  | k + 1, q, f => (Vm.entries (k + 2)).flatMap fun i =>
    if m f i = 0 then [] else (q ++ [i]) :: tablePaths m k (q ++ [i]) (frameOf (m f i))

/-- The child has a table for the path: it is the PML4's, or the entry for it is done. -/
def Reached (D : List Index → Index → Prop) (p : List Index) : Prop :=
  p = [] ∨ ∃ q i, p = q ++ [i] ∧ q.length < 3 ∧ D q i

/-- Up to the entries in `D`, the parent's tree of `m₀` has been shared with the child's tables `τ`; the free
frames are `gs`. -/
structure Marking (m₀ : PMem) (r c : Frame) (D : List Index → Index → Prop) (τ : List Index → Frame) (gs : List Frame)
    (m : PMem) (fr : Frames) : Prop where
  done : ∀ p i, D p i → Mapped m₀ r p i ∧ Reached D p
  /-- The parent's leaf entries are marked as far as done; nothing else of it has changed. -/
  parent : ∀ p f i, Plain p → walk m₀ r p = some f → ¬(p = [] ∧ i = 509) →
    (¬(p.length = 3 ∧ D p i) → m f i = m₀ f i) ∧ (p.length = 3 → D p i → m f i = cowEntry (m₀ f i))
  cross : child (m r 509) = some c
  top : τ [] = c
  link : ∀ p i, D p i → p.length < 3 → m (τ p) i = link (τ (p ++ [i]))
  mark : ∀ p i f, D p i → p.length = 3 → walk m₀ r p = some f → m (τ p) i = cowEntry (m₀ f i)
  /-- What is not done holds what the child's frame held. -/
  rest : ∀ p i, Reached D p → ¬D p i → ¬(p = [] ∧ i = 509) → m (τ p) i = m₀ (τ p) i
  inj : ∀ p q, Reached D p → Reached D q → τ p = τ q → p = q
  apart : ∀ p q, Reached D p → Plain q → walk m₀ r q ≠ some (τ p)
  free : fr.Free gs
  nodup : gs.Nodup
  supply : ∀ g ∈ gs, (∀ p, Reached D p → τ p ≠ g) ∧ ∀ q, Plain q → walk m₀ r q ≠ some g
  /-- Frames that hold no table of either. -/
  same : ∀ f, (∀ p, Reached D p → τ p ≠ f) → (∀ q, Plain q → walk m₀ r q ≠ some f) → m f = m₀ f

section paths
variable {m : PMem} {r f : Frame} {p q : List Index} {i j : Index} {D : List Index → Index → Prop}

theorem length_tablePaths (m : PMem) (k : Nat) : ∀ (q : List Index) (f : Frame),
    (tablePaths m k q f).length = tablesBelow m k f := by
  induction k with
  | zero => exact fun _ _ => rfl
  | succ k ih =>
    intro q f
    rw [tablePaths, tablesBelow, List.length_flatMap]
    congr 1
    refine List.map_congr_left fun i _ => ?_
    split
    · rfl
    · rw [List.length_cons, ih]

theorem prefix_of_mem_tablePaths {k : Nat} (h : p ∈ tablePaths m k q f) : q <+: p ∧ q.length < p.length := by
  induction k generalizing q f with
  | zero => cases h
  | succ k ih =>
    obtain ⟨i, -, hi⟩ := List.mem_flatMap.1 h
    split at hi
    · cases hi
    · rcases List.mem_cons.1 hi with rfl | hi
      · exact ⟨List.prefix_append q [i], by simp⟩
      · obtain ⟨hp, hlt⟩ := ih hi
        rw [List.length_append] at hlt
        exact ⟨(List.prefix_append q [i]).trans hp, by omega⟩

theorem Low.ne (h : Low (p ++ [i])) : ¬(p = [] ∧ i = 509) := by
  rintro ⟨rfl, rfl⟩
  exact absurd (h 509 rfl) (by decide)

theorem Low.of_append (h : Low (p ++ q)) : Low p := by
  intro i hi
  refine h i ?_
  rw [List.head?_append, hi]
  rfl

theorem Low.concat (h : Low p) (hp : p ≠ []) (i : Index) : Low (p ++ [i]) := by
  obtain ⟨j, p, rfl⟩ := List.exists_cons_of_ne_nil hp
  exact h

theorem Low.plain (h : Low p) (hp : p.length ≤ 3) : Plain p := by
  refine ⟨hp, fun e => ?_, fun e => ?_⟩
  · exact absurd (h _ e) (by decide)
  · exact absurd (h _ e) (by decide)

theorem Mapped.plain (h : Mapped m r p i) : Plain p := h.2.1.of_append.plain h.1

theorem Mapped.ne_zero (h : Mapped m r p i) (hf : Sbuos.walk m r p = some f) : m f i ≠ 0 := by
  obtain ⟨-, -, f', hf', hne⟩ := h
  rwa [Option.some.inj (hf'.symm.trans hf)] at hne

/-- The table behind a nonzero entry above the pages. -/
theorem Mapped.walk (ht : Tree m r) (h : Mapped m r p i) (hp : p.length < 3) (hf : walk m r p = some f) :
    Plain (p ++ [i]) ∧ ∃ g, child (m f i) = some g ∧ walk m r (p ++ [i]) = some g := by
  have hplain : Plain (p ++ [i]) := h.2.1.plain (by simp; omega)
  obtain ⟨g, hg⟩ := Option.ne_none_iff_exists'.1 (ht.present p i f hplain hf (h.ne_zero hf))
  refine ⟨hplain, g, hg, ?_⟩
  rw [Sbuos.walk, Radix.walk_snoc, ← Sbuos.walk, hf, Option.bind_some, hg]

end paths

namespace Marking

variable {m₀ : PMem} {r c f g : Frame} {D : List Index → Index → Prop} {τ : List Index → Frame} {gs : List Frame}
  {m : PMem} {fr fr' : Frames} {cr3 : Word} {p q : List Index} {i : Index}

theorem reached_low (h : Marking m₀ r c D τ gs m fr) (hp : Reached D p) : p.length ≤ 3 ∧ Low p := by
  rcases hp with rfl | ⟨q, i, rfl, hq, hd⟩
  · exact ⟨Nat.zero_le _, fun i hi => by cases hi⟩
  · exact ⟨by simp; omega, (h.done q i hd).1.2.1⟩

theorem congr {D' : List Index → Index → Prop} (h : Marking m₀ r c D τ gs m fr) (hD : ∀ p i, D p i ↔ D' p i) :
    Marking m₀ r c D' τ gs m fr := by
  obtain rfl : D = D' := funext₂ fun p i => propext (hD p i)
  exact h

/-- The parent's own walks are those of before. -/
theorem walk_parent (h : Marking m₀ r c D τ gs m fr) (hp : Plain p) : walk m r p = walk m₀ r p := by
  refine Radix.walk_congr fun q i f hq hf => ?_
  have hlen := hq.length_le
  rw [List.length_append, List.length_singleton] at hlen
  obtain ⟨u, rfl⟩ := hq
  have hqi : Plain (q ++ [i]) := hp.of_append
  have hne : ¬(q = [] ∧ i = 509) := by
    rintro ⟨rfl, rfl⟩
    exact hqi.2.1 rfl
  rw [(h.parent q f i hqi.of_append hf hne).1 fun hd => by have := hp.1; omega]

theorem selfMapped (ht : Tree m₀ r) (h : Marking m₀ r c D τ gs m fr) : SelfMapped m r := by
  rw [SelfMapped, (h.parent [] r 510 ⟨by simp, by simp, by simp⟩ rfl (by simp)).1 (by simp)]
  exact ht.self

theorem walk_child (h : Marking m₀ r c D τ gs m fr) (hp : Reached D p) : walk m c p = some (τ p) := by
  induction p using List.reverseRecOn with
  | nil => rw [h.top]; rfl
  | append_singleton p i ih =>
    rcases hp with hp | ⟨q, j, hqj, hq, hd⟩
    · simp at hp
    · obtain ⟨rfl, hij⟩ := List.append_inj' hqj rfl
      obtain rfl := List.singleton_inj.1 hij
      rw [walk, Radix.walk_snoc, ← walk, ih (h.done p i hd).2, Option.bind_some, h.link p i hd hq, child_link]

theorem walk_cross (h : Marking m₀ r c D τ gs m fr) (hp : Reached D p) : walk m r (509 :: p) = some (τ p) := by
  rw [walk, Radix.walk_cons, h.cross, Option.bind_some, ← walk, h.walk_child hp]

theorem reached_prefix (h : Marking m₀ r c D τ gs m fr) (hpq : p <+: q) (hq : Reached D q) : Reached D p := by
  induction q using List.reverseRecOn with
  | nil => exact (List.prefix_nil.1 hpq) ▸ hq
  | append_singleton q i ih =>
    rcases List.prefix_concat_iff.1 hpq with rfl | hpq
    · exact hq
    · rcases hq with hq | ⟨q', j, hqj, -, hd⟩
      · simp at hq
      · obtain ⟨rfl, -⟩ := List.append_inj' hqj rfl
        exact ih hpq (h.done q j hd).2

theorem sees_parent (ht : Tree m₀ r) (h : Marking m₀ r c D τ gs m fr) (hr : frameOf cr3 = r) (hp : Plain p)
    (hf : walk m₀ r p = some f) : Vm.Sees ⟨m, cr3, fr⟩ (recAddr p) f := by
  have hroot : Vm.root ⟨m, cr3, fr⟩ = r := hr
  refine Vm.Sees.recAddr (s := ⟨m, cr3, fr⟩) ?_ (.inl hp.1) ?_
  · rw [hroot]
    exact h.selfMapped ht
  · rw [hroot]
    exact (h.walk_parent hp).trans hf

theorem sees_child (ht : Tree m₀ r) (h : Marking m₀ r c D τ gs m fr) (hr : frameOf cr3 = r) (hp : Reached D p) :
    Vm.Sees ⟨m, cr3, fr⟩ (recAddr (509 :: p)) (τ p) := by
  have hroot : Vm.root ⟨m, cr3, fr⟩ = r := hr
  refine Vm.Sees.recAddr (s := ⟨m, cr3, fr⟩) ?_ (.inr ⟨p, rfl, (h.reached_low hp).1⟩) ?_
  · rw [hroot]
    exact h.selfMapped ht
  · rw [hroot]
    exact h.walk_cross hp

theorem reached_of {D' : List Index → Index → Prop} (hD : ∀ p i, D p i → D' p i) (hp : Reached D p) : Reached D' p := by
  rcases hp with rfl | ⟨q, i, rfl, hq, hd⟩
  · exact .inl rfl
  · exact .inr ⟨q, i, rfl, hq, hD q i hd⟩

/-! ### One step -/

/-- The entries done, and one more. -/
def Add (D : List Index → Index → Prop) (q : List Index) (i : Index) (p : List Index) (j : Index) : Prop :=
  D p j ∨ (p = q ∧ j = i)

theorem reached_add : Reached (Add D q i) p ↔ Reached D p ∨ (q.length < 3 ∧ p = q ++ [i]) := by
  constructor
  · rintro (rfl | ⟨p, j, rfl, hp, hd | ⟨rfl, rfl⟩⟩)
    · exact .inl (.inl rfl)
    · exact .inl (.inr ⟨p, j, rfl, hp, hd⟩)
    · exact .inr ⟨hp, rfl⟩
  · rintro ((rfl | ⟨p, j, rfl, hp, hd⟩) | ⟨hq, rfl⟩)
    · exact .inl rfl
    · exact .inr ⟨p, j, rfl, hp, .inl hd⟩
    · exact .inr ⟨q, i, rfl, hq, .inr ⟨rfl, rfl⟩⟩

theorem not_reached (hd : ¬D q i) : ¬Reached D (q ++ [i]) := by
  rintro (h | ⟨q', i', h, -, hd'⟩)
  · simp at h
  · obtain ⟨rfl, hi⟩ := List.append_inj' h rfl
    rw [← List.singleton_inj.1 hi] at hd'
    exact hd hd'

/-- A free frame is linked in as the child's next table. -/
theorem link_step (h : Marking m₀ r c D τ (g :: gs) m fr) (hfr : fr'.Free gs) (hr : Reached D q) (hq : q.length < 3)
    (hm : Mapped m₀ r q i) (hd : ¬D q i) :
    Marking m₀ r c (Add D q i) (Function.update τ (q ++ [i]) g) gs
      (Radix.set m (τ q) i (Sbuos.link g)) fr' := by
  obtain ⟨hgτ, hgp⟩ := h.supply g (by simp)
  have hnr := not_reached hd
  have hτ : ∀ p, Reached D p → Function.update τ (q ++ [i]) g p = τ p := fun p hp =>
    Function.update_of_ne (by rintro rfl; exact hnr hp) _ _
  have hτg : Function.update τ (q ++ [i]) g (q ++ [i]) = g := Function.update_self _ _ _
  have hpar : ∀ p f j, Plain p → walk m₀ r p = some f → Radix.set m (τ q) i (Sbuos.link g) f j = m f j :=
    fun p f j hp hf => by
      rw [Radix.set_of_ne]
      rintro rfl
      exact h.apart q p hr hp hf
  refine
    { done := ?_
      parent := ?_
      cross := ?_
      top := ?_
      link := ?_
      mark := ?_
      rest := ?_
      inj := ?_
      apart := ?_
      free := hfr
      nodup := (List.nodup_cons.1 h.nodup).2
      supply := ?_
      same := ?_ }
  · rintro p j (hd | ⟨rfl, rfl⟩)
    · exact ⟨(h.done p j hd).1, reached_add.2 (.inl (h.done p j hd).2)⟩
    · exact ⟨hm, reached_add.2 (.inl hr)⟩
  · intro p f j hp hf hne
    rw [hpar p f j hp hf]
    refine ⟨fun hd' => (h.parent p f j hp hf hne).1 fun hd'' => hd' ⟨hd''.1, .inl hd''.2⟩, ?_⟩
    rintro hp3 (hd' | ⟨rfl, rfl⟩)
    · exact (h.parent p f j hp hf hne).2 hp3 hd'
    · omega
  · rw [hpar [] r 509 ⟨by simp, by simp, by simp⟩ rfl]
    exact h.cross
  · rw [hτ [] (.inl rfl)]
    exact h.top
  · rintro p j (hd' | ⟨rfl, rfl⟩) hp
    · have hpr := (h.done p j hd').2
      have hpj : Reached D (p ++ [j]) := .inr ⟨p, j, rfl, hp, hd'⟩
      rw [hτ p hpr, hτ _ hpj, Radix.set_apply, if_neg, h.link p j hd' hp]
      rintro ⟨e, rfl⟩
      exact hd (h.inj p q hpr hr e ▸ hd')
    · rw [hτ p hr, hτg, Radix.set_self]
  · rintro p j f (hd' | ⟨rfl, rfl⟩) hp hf
    · have hpr := (h.done p j hd').2
      rw [hτ p hpr, Radix.set_apply, if_neg, h.mark p j f hd' hp hf]
      rintro ⟨e, rfl⟩
      exact hd (h.inj p q hpr hr e ▸ hd')
    · omega
  · intro p j hp hd' hne
    rcases reached_add.1 hp with hpr | ⟨-, rfl⟩
    · rw [hτ p hpr, Radix.set_apply, if_neg, h.rest p j hpr (fun e => hd' (.inl e)) hne]
      rintro ⟨e, rfl⟩
      exact hd' (.inr ⟨h.inj p q hpr hr e, rfl⟩)
    · -- a frame just taken still holds what it held
      rw [hτg, Radix.set_of_ne (hgτ q hr).symm, h.same g hgτ hgp]
  · intro p p' hp hp' e
    rcases reached_add.1 hp with hp | ⟨-, rfl⟩ <;> rcases reached_add.1 hp' with hp' | ⟨-, rfl⟩
    · rw [hτ p hp, hτ p' hp'] at e
      exact h.inj p p' hp hp' e
    · rw [hτ p hp, hτg] at e
      exact absurd e (hgτ p hp)
    · rw [hτ p' hp', hτg] at e
      exact absurd e.symm (hgτ p' hp')
    · rfl
  · intro p p' hp hp'
    rcases reached_add.1 hp with hp | ⟨-, rfl⟩
    · rw [hτ p hp]
      exact h.apart p p' hp hp'
    · rw [hτg]
      exact hgp p' hp'
  · intro g' hg'
    obtain ⟨h1, h2⟩ := h.supply g' (List.mem_cons_of_mem g hg')
    refine ⟨fun p hp => ?_, h2⟩
    rcases reached_add.1 hp with hp | ⟨-, rfl⟩
    · rw [hτ p hp]
      exact h1 p hp
    · rw [hτg]
      rintro rfl
      exact (List.nodup_cons.1 h.nodup).1 hg'
  · intro f hf hfp
    have hf' : ∀ p, Reached D p → τ p ≠ f := fun p hp => by
      rw [← hτ p hp]
      exact hf p (reached_add.2 (.inl hp))
    rw [Radix.set_of_ne (hf' q hr).symm]
    exact h.same f hf' hfp

/-- A page's entry is marked in the parent and copied to the child. -/
theorem mark_step (ht : Tree m₀ r) (h : Marking m₀ r c D τ gs m fr) (hr : Reached D q) (hq : q.length = 3)
    (hm : Mapped m₀ r q i) (hd : ¬D q i) (hf : walk m₀ r q = some f) :
    Marking m₀ r c (Add D q i) τ gs
      (Radix.set (Radix.set m f i (cowEntry (m₀ f i))) (τ q) i (cowEntry (m₀ f i))) fr := by
  have hreach : ∀ {p}, Reached (Add D q i) p ↔ Reached D p := fun {p} => by
    rw [reached_add]
    exact or_iff_left fun e => by omega
  have hqp : Plain q := hm.plain
  -- a table of the parent, and a table of the child
  have hpar : ∀ p f' j, Plain p → walk m₀ r p = some f' → ¬(p = q ∧ j = i) →
      Radix.set (Radix.set m f i (cowEntry (m₀ f i))) (τ q) i (cowEntry (m₀ f i)) f' j = m f' j :=
    fun p f' j hp hf' hne => by
      rw [Radix.set_of_ne (by rintro rfl; exact h.apart q p hr hp hf'), Radix.set_apply, if_neg]
      rintro ⟨rfl, rfl⟩
      exact hne ⟨(ht.distinct r p r q f' ⟨rfl, hp⟩ ⟨rfl, hqp⟩ hf' hf).2, rfl⟩
  have hchild : ∀ p j, Reached D p → ¬(p = q ∧ j = i) →
      Radix.set (Radix.set m f i (cowEntry (m₀ f i))) (τ q) i (cowEntry (m₀ f i)) (τ p) j = m (τ p) j :=
    fun p j hp hne => by
      rw [Radix.set_apply, if_neg, Radix.set_of_ne]
      · rintro rfl
        exact h.apart p q hp hqp hf
      · rintro ⟨e, rfl⟩
        exact hne ⟨h.inj p q hp hr e, rfl⟩
  refine
    { done := ?_
      parent := ?_
      cross := ?_
      top := h.top
      link := ?_
      mark := ?_
      rest := ?_
      inj := fun p p' hp hp' => h.inj p p' (hreach.1 hp) (hreach.1 hp')
      apart := fun p p' hp hp' => h.apart p p' (hreach.1 hp) hp'
      free := h.free
      nodup := h.nodup
      supply := fun g hg => ⟨fun p hp => (h.supply g hg).1 p (hreach.1 hp), (h.supply g hg).2⟩
      same := ?_ }
  · rintro p j (hd' | ⟨rfl, rfl⟩)
    · exact ⟨(h.done p j hd').1, hreach.2 (h.done p j hd').2⟩
    · exact ⟨hm, hreach.2 hr⟩
  · intro p f' j hp hf' hne
    by_cases hpq : p = q ∧ j = i
    · obtain ⟨rfl, rfl⟩ := hpq
      obtain rfl := Option.some.inj (hf'.symm.trans hf)
      refine ⟨fun hd' => absurd ⟨hq, .inr ⟨rfl, rfl⟩⟩ hd', fun _ _ => ?_⟩
      rw [Radix.set_of_ne (by rintro e; exact h.apart p p hr hqp (e ▸ hf)), Radix.set_self]
    · rw [hpar p f' j hp hf' hpq]
      refine ⟨fun hd' => (h.parent p f' j hp hf' hne).1 fun hd'' => hd' ⟨hd''.1, .inl hd''.2⟩, ?_⟩
      rintro hp3 (hd' | hd')
      · exact (h.parent p f' j hp hf' hne).2 hp3 hd'
      · exact absurd hd' hpq
  · rw [hpar [] r 509 ⟨by simp, by simp, by simp⟩ rfl (by rintro ⟨rfl, -⟩; simp at hq)]
    exact h.cross
  · rintro p j (hd' | ⟨rfl, rfl⟩) hp
    · rw [hchild p j (h.done p j hd').2 (by rintro ⟨rfl, -⟩; omega), h.link p j hd' hp]
    · omega
  · rintro p j f' (hd' | ⟨rfl, rfl⟩) hp hf'
    · rw [hchild p j (h.done p j hd').2 (by rintro ⟨rfl, rfl⟩; exact hd hd'), h.mark p j f' hd' hp hf']
    · obtain rfl := Option.some.inj (hf'.symm.trans hf)
      exact Radix.set_self
  · intro p j hp hd' hne
    rw [hchild p j (hreach.1 hp) (fun e => hd' (.inr e)), h.rest p j (hreach.1 hp) (fun e => hd' (.inl e)) hne]
  · intro f' hf' hfp
    rw [Radix.set_of_ne (hf' q (hreach.2 hr)).symm, Radix.set_of_ne (by rintro rfl; exact hfp q hqp hf)]
    exact h.same f' (fun p hp => hf' p (hreach.2 hp)) hfp

/-! ### The loops -/

/-- What a loop adds to the child: a table for each of these paths, taken from `gs` in this order. Its slot 509
stays. -/
structure Grows (c : Frame) (gs : List Frame) (us : List (List Index)) (τ : List Index → Frame) (m : PMem)
    (τ' : List Index → Frame) (m' : PMem) : Prop where
  taken : us.map τ' = gs.take us.length
  old : ∀ p, p ∉ us → τ' p = τ p
  slot : m' c 509 = m c 509

theorem Grows.append {τ₁ τ₂ : List Index → Frame} {m₁ m₂ : PMem} {us us' : List (List Index)}
    (h : Grows c gs us τ m τ₁ m₁) (h' : Grows c (gs.drop us.length) us' τ₁ m₁ τ₂ m₂) (hdis : ∀ p ∈ us, p ∉ us') :
    Grows c gs (us ++ us') τ m τ₂ m₂ where
  taken := by
    have hus : us.map τ₂ = us.map τ₁ := List.map_congr_left fun p hp => h'.old p (hdis p hp)
    rw [List.map_append, hus, h.taken, h'.taken, List.length_append, List.take_add]
  old p hp := by
    rw [List.mem_append, not_or] at hp
    rw [h'.old p hp.2, h.old p hp.1]
  slot := h'.slot.trans h.slot

theorem Grows.mem {τ' : List Index → Frame} {m' : PMem} {us : List (List Index)} (h : Grows c gs us τ m τ' m')
    (p : List Index) : τ' p = τ p ∨ τ' p ∈ gs := by
  by_cases hp : p ∈ us
  · have hin := List.mem_map_of_mem (f := τ') hp
    rw [h.taken] at hin
    exact .inr (List.mem_of_mem_take hin)
  · exact .inl (h.old p hp)

/-- A store to the entry `i` behind `q`. -/
theorem slot_of_set (h : Marking m₀ r c D τ gs m fr) (hr : Reached D q) (hlow : Low (q ++ [i])) (e : Word) :
    Radix.set m (τ q) i e c 509 = m c 509 := by
  rw [Radix.set_apply, if_neg]
  rintro ⟨hc, rfl⟩
  exact hlow.ne ⟨h.inj q [] hr (.inl rfl) (hc.symm.trans h.top.symm), rfl⟩

/-- A store that is `write` wherever the parent has no table. -/
def StoresOutside (m₀ : PMem) (r : Frame) (store : Vm → Word → Word → Option Vm) : Prop :=
  ∀ (t : Vm) (v : Word) (f : Frame) (i : Index) (x : Word), t.Sees v f → (∀ q, Plain q → walk m₀ r q ≠ some f) →
    store t (Vm.slot v (i.setWidth 64)) x = t.write (Vm.slot v (i.setWidth 64)) x

variable {store : Vm → Word → Word → Option Vm}

/-- No page table of the parent is on the way to a table's address. -/
theorem avoids_page (ht : Tree m₀ r) (h : Marking m₀ r c D τ gs m fr) (hroot : frameOf cr3 = r) (hr : Reached D q)
    (hq : q.length = 3) (hf : walk m₀ r q = some f) :
    Vm.Avoids ⟨m, cr3, fr⟩ (recAddr q) f ∧ Vm.Avoids ⟨m, cr3, fr⟩ (recAddr (509 :: q)) f := by
  have hqp : Plain q := (h.reached_low hr).2.plain hq.le
  have hshort : ∀ p, Plain p → p.length < 3 → walk m r p ≠ some f := by
    intro p hp hlt hw
    rw [h.walk_parent hp] at hw
    have := (ht.distinct r p r q f ⟨rfl, hp⟩ ⟨rfl, hqp⟩ hw hf).2
    rw [this] at hlt
    omega
  have hr0 : f ≠ r := by
    rintro rfl
    exact hshort [] ⟨by simp, by simp, by simp⟩ (by simp) rfl
  have hself : SelfMapped m (Vm.root ⟨m, cr3, fr⟩) := by
    rw [show Vm.root ⟨m, cr3, fr⟩ = r from hroot]
    exact h.selfMapped ht
  have hr0' : f ≠ Vm.root ⟨m, cr3, fr⟩ := by rwa [show Vm.root ⟨m, cr3, fr⟩ = r from hroot]
  constructor
  · refine Vm.Avoids.recAddr hself (.inl hq.le) hr0' fun p i hp => ?_
    rw [show Vm.root ⟨m, cr3, fr⟩ = r from hroot]
    have hlen := hp.length_le
    rw [List.length_append, List.length_singleton] at hlen
    obtain ⟨u, rfl⟩ := hp
    exact hshort p hqp.of_append.of_append (by omega)
  · refine Vm.Avoids.recAddr hself (.inr ⟨q, rfl, hq.le⟩) hr0' fun p i hp => ?_
    rw [show Vm.root ⟨m, cr3, fr⟩ = r from hroot]
    rcases p with _ | ⟨j, p⟩
    · exact fun e => hr0 (Option.some.inj e).symm
    · rw [List.cons_append, List.cons_prefix_cons] at hp
      obtain ⟨rfl, hp⟩ := hp
      have hpr : Reached D p := h.reached_prefix ((List.prefix_append p [i]).trans hp) hr
      rw [h.walk_cross hpr]
      exact fun e => h.apart p q hpr hqp (hf.trans e.symm)

theorem markEntry_eq (ht : Tree m₀ r) (hstore : StoresOutside m₀ r store) (h : Marking m₀ r c D τ gs m fr)
    (hroot : frameOf cr3 = r) (hr : Reached D q) (hq : q.length = 3) (hf : walk m₀ r q = some f) (hd : ¬D q i) :
    Vm.markEntry store (recAddr q) (recAddr (509 :: q)) ⟨m, cr3, fr⟩ i = some ⟨if m₀ f i = 0 then m else
      Radix.set (Radix.set m f i (cowEntry (m₀ f i))) (τ q) i (cowEntry (m₀ f i)), cr3, fr⟩ := by
  have hqp : Plain q := (h.reached_low hr).2.plain hq.le
  have hp := h.sees_parent ht hroot hqp hf
  have hc := h.sees_child ht hroot hr
  obtain ⟨hav, hav'⟩ := h.avoids_page ht hroot hr hq hf
  have he : m f i = m₀ f i := (h.parent q f i hqp hf (by rintro ⟨rfl, -⟩; simp at hq)).1 fun e => hd e.2
  -- the page at `q` is still the parent's table after each store, and the one behind 509 the child's
  have hp' : ∀ x, Vm.Sees ⟨Radix.set m f i x, cr3, fr⟩ (recAddr q) f := fun x => hp.update hav _
  have hc' : ∀ x, Vm.Sees ⟨Radix.set m f i x, cr3, fr⟩ (recAddr (509 :: q)) (τ q) := fun x => hc.update hav' _
  rw [Vm.markEntry]
  simp only [hp.read, Option.bind_eq_bind, Option.bind_some, he]
  split
  · rfl
  · simp only [hp.write, Option.bind_some, (hp' _).read, (hp' _).write, Radix.set_self, Radix.set_set]
    rw [hstore _ _ _ _ _ (hc' _) fun p hp => h.apart q p hr hp, (hc' _).write]
    rfl

/-- **Level 1**: the entries of one page table. -/
theorem mark_loop (ht : Tree m₀ r) (hroot : frameOf cr3 = r) (hq : q.length = 3) (hf : walk m₀ r q = some f)
    (L : List Index) : ∀ (D : List Index → Index → Prop) (m : PMem), L.Nodup → Marking m₀ r c D τ gs m fr →
      Reached D q → (∀ i ∈ L, ¬D q i) →
    ∃ m', (∀ store, StoresOutside m₀ r store →
        L.foldlM (Vm.markEntry store (recAddr q) (recAddr (509 :: q))) ⟨m, cr3, fr⟩ = some ⟨m', cr3, fr⟩) ∧
      Marking m₀ r c (fun p j => D p j ∨ (p = q ∧ j ∈ L ∧ Mapped m₀ r p j)) τ gs m' fr ∧ m' c 509 = m c 509 := by
  induction L with
  | nil =>
    intro D m _ h _ _
    exact ⟨m, fun _ _ => rfl, by simpa using h, rfl⟩
  | cons i L ih =>
    intro D m hnd h hr hD
    obtain ⟨hi, hnd⟩ := List.nodup_cons.1 hnd
    have hd : ¬D q i := hD i (by simp)
    have hentry := fun store (hstore : StoresOutside m₀ r store) => h.markEntry_eq ht hstore hroot hr hq hf hd
    have hlow : Low (q ++ [i]) := (h.reached_low hr).2.concat (by rintro rfl; simp at hq) i
    by_cases h0 : m₀ f i = 0
    · obtain ⟨m', hrun, h', hslot⟩ := ih D m hnd h hr fun j hj => hD j (List.mem_cons_of_mem i hj)
      refine ⟨m', fun store hstore => ?_, h'.congr fun p j => or_congr_right ⟨?_, ?_⟩, hslot⟩
      · rw [List.foldlM_cons, hentry store hstore, if_pos h0]
        exact hrun store hstore
      · exact fun ⟨hp, hj, hm⟩ => ⟨hp, List.mem_cons_of_mem i hj, hm⟩
      · rintro ⟨rfl, hj, hm⟩
        rcases List.mem_cons.1 hj with rfl | hj
        · exact absurd h0 (hm.ne_zero hf)
        · exact ⟨rfl, hj, hm⟩
    · have hm : Mapped m₀ r q i := ⟨hq.le, hlow, f, hf, h0⟩
      obtain ⟨m', hrun, h', hslot⟩ := ih (Add D q i) _ hnd (h.mark_step ht hr hq hm hd hf) (reached_add.2 (.inl hr)) (by
        rintro j hj (hd' | ⟨-, rfl⟩)
        · exact hD j (List.mem_cons_of_mem i hj) hd'
        · exact hi hj)
      have hfc : c ≠ f := by
        rintro rfl
        exact h.apart [] q (.inl rfl) hm.plain (by rw [hf, h.top])
      have hτc : c ≠ τ q := fun e => by
        have hq0 := h.inj q [] hr (.inl rfl) (e.symm.trans h.top.symm)
        rw [hq0] at hq
        cases hq
      rw [Radix.set_of_ne hτc, Radix.set_of_ne hfc] at hslot
      refine ⟨m', fun store hstore => ?_, h'.congr fun p j => ?_, hslot⟩
      · rw [List.foldlM_cons, hentry store hstore, if_neg h0]
        exact hrun store hstore
      · rw [Add, or_assoc, List.mem_cons]
        refine or_congr_right ⟨?_, ?_⟩
        · rintro (⟨rfl, rfl⟩ | ⟨rfl, hj, hm'⟩)
          · exact ⟨rfl, .inl rfl, hm⟩
          · exact ⟨rfl, .inr hj, hm'⟩
        · rintro ⟨rfl, rfl | hj, hm'⟩
          · exact .inl ⟨rfl, rfl⟩
          · exact .inr ⟨rfl, hj, hm'⟩

theorem linkEntry_zero (ht : Tree m₀ r) (h : Marking m₀ r c D τ gs m fr) (hroot : frameOf cr3 = r) (hr : Reached D q)
    (hq : q.length < 3) (hlow : Low (q ++ [i])) (hf : walk m₀ r q = some f) (h0 : m₀ f i = 0)
    (next : Index → Vm → Option Vm) :
    Vm.linkEntry store (recAddr q) (recAddr (509 :: q)) next ⟨m, cr3, fr⟩ i = some ⟨m, cr3, fr⟩ := by
  have hqp : Plain q := (h.reached_low hr).2.plain hq.le
  have he : m f i = m₀ f i := (h.parent q f i hqp hf hlow.ne).1 fun e => by omega
  rw [Vm.linkEntry]
  simp only [(h.sees_parent ht hroot hqp hf).read, Option.bind_eq_bind, Option.bind_some, he, h0, if_true]

theorem linkEntry_eq (ht : Tree m₀ r) (h : Marking m₀ r c D τ (g :: gs) m fr)
    (hroot : frameOf cr3 = r) (hr : Reached D q) (hq : q.length < 3) (hf : walk m₀ r q = some f)
    (hm : Mapped m₀ r q i) : ∃ fr', fr'.Free gs ∧ ∀ store next, StoresOutside m₀ r store →
      Vm.linkEntry store (recAddr q) (recAddr (509 :: q)) next ⟨m, cr3, fr⟩ i =
        next i ⟨Radix.set m (τ q) i (Sbuos.link g), cr3, fr'⟩ := by
  have he : m f i = m₀ f i := (h.parent q f i hm.plain hf hm.2.1.ne).1 fun e => by omega
  obtain ⟨fr', hget, hfr'⟩ := Vm.getFreePage_free (s := ⟨m, cr3, fr⟩) h.free
  have hc : Vm.Sees ⟨m, cr3, fr'⟩ (recAddr (509 :: q)) (τ q) := by
    obtain ⟨h1, h2, h3⟩ := h.sees_child ht hroot hr
    exact ⟨h1, h2, h3⟩
  refine ⟨fr', hfr', fun store next hstore => ?_⟩
  rw [Vm.linkEntry]
  simp only [(h.sees_parent ht hroot hm.plain hf).read, Option.bind_eq_bind, Option.bind_some, he,
    if_neg (hm.ne_zero hf), hget]
  rw [hstore _ _ _ _ _ hc fun p hp => h.apart q p hr hp, hc.write]
  rfl

/-- What `next` does below each entry of the table at `q`. -/
def LinksBelow (m₀ : PMem) (r c : Frame) (cr3 : Word) (k : Nat) (q : List Index)
    (next : (Vm → Word → Word → Option Vm) → Index → Vm → Option Vm) : Prop :=
  ∀ i g D τ gs m fr, Marking m₀ r c D τ gs m fr → walk m₀ r (q ++ [i]) = some g → Reached D (q ++ [i]) →
    (∀ p j, q ++ [i] <+: p → ¬D p j) → tablesBelow m₀ k g ≤ gs.length →
    ∃ m' fr' τ', (∀ store, StoresOutside m₀ r store → next store i ⟨m, cr3, fr⟩ = some ⟨m', cr3, fr'⟩) ∧
      Marking m₀ r c (fun p j => D p j ∨ (q ++ [i] <+: p ∧ Mapped m₀ r p j)) τ'
        (gs.drop (tablesBelow m₀ k g)) m' fr' ∧
      Grows c gs (tablePaths m₀ k (q ++ [i]) g) τ m τ' m'

theorem not_prefix_concat {j : Index} {p : List Index} (hij : i ≠ j) (hp : q ++ [i] <+: p) : ¬q ++ [j] <+: p := by
  intro hp'
  have heq := (List.prefix_of_prefix_length_le hp hp' (by simp)).eq_of_length (by simp)
  exact hij (List.cons.inj (List.append_cancel_left heq)).1

/-- Nothing is mapped below a zero entry. -/
theorem not_mapped_of_zero {p : List Index} {j : Index} (hf : walk m₀ r q = some f) (h0 : m₀ f i = 0)
    (hp : (p = q ∧ j = i) ∨ q ++ [i] <+: p) : ¬Mapped m₀ r p j := by
  intro hm
  rcases hp with ⟨rfl, rfl⟩ | ⟨u, rfl⟩
  · exact hm.ne_zero hf h0
  · obtain ⟨-, -, f', hf', -⟩ := hm
    rw [walk, Radix.walk_append, Radix.walk_snoc, ← walk, hf, Option.bind_some, h0, child_zero] at hf'
    cases hf'

/-- **One entry**: behind one that is not zero a table is linked, and `next` does what is below. -/
theorem link_entry {k : Nat} {next : (Vm → Word → Word → Option Vm) → Index → Vm → Option Vm} (ht : Tree m₀ r)
    (hroot : frameOf cr3 = r) (hq : q.length < 3) (hf : walk m₀ r q = some f) (hnext : LinksBelow m₀ r c cr3 k q next)
    (h : Marking m₀ r c D τ gs m fr) (hr : Reached D q) (hlow : Low (q ++ [i])) (hd : ¬D q i)
    (hbelow : ∀ p j, q ++ [i] <+: p → ¬D p j)
    (hlen : (if m₀ f i = 0 then 0 else tablesBelow m₀ k (frameOf (m₀ f i)) + 1) ≤ gs.length) :
    ∃ m' fr' τ', (∀ store, StoresOutside m₀ r store →
        Vm.linkEntry store (recAddr q) (recAddr (509 :: q)) (next store) ⟨m, cr3, fr⟩ i = some ⟨m', cr3, fr'⟩) ∧
      Marking m₀ r c (fun p j => D p j ∨ ((p = q ∧ j = i) ∨ q ++ [i] <+: p) ∧ Mapped m₀ r p j) τ'
        (gs.drop (if m₀ f i = 0 then 0 else tablesBelow m₀ k (frameOf (m₀ f i)) + 1)) m' fr' ∧
      Grows c gs (if m₀ f i = 0 then [] else (q ++ [i]) :: tablePaths m₀ k (q ++ [i]) (frameOf (m₀ f i)))
        τ m τ' m' := by
  by_cases h0 : m₀ f i = 0
  · rw [if_pos h0, if_pos h0]
    refine ⟨m, fr, τ, fun store _ => h.linkEntry_zero ht hroot hr hq hlow hf h0 (next store), h.congr fun p j => ?_,
      ⟨rfl, fun _ _ => rfl, rfl⟩⟩
    exact (or_iff_left fun hp => not_mapped_of_zero hf h0 hp.1 hp.2).symm
  · rw [if_neg h0] at hlen ⊢
    rw [if_neg h0]
    have hm : Mapped m₀ r q i := ⟨hq.le, hlow, f, hf, h0⟩
    obtain ⟨g, gs, rfl⟩ := List.exists_cons_of_ne_nil (l := gs) (by rintro rfl; simp at hlen)
    obtain ⟨-, g', hg', hwg'⟩ := hm.walk ht hq hf
    obtain ⟨-, hfg'⟩ := child_eq_some hg'
    rw [hfg'] at hlen ⊢
    rw [List.length_cons] at hlen
    obtain ⟨fr₁, hfr₁, hlink⟩ := h.linkEntry_eq ht hroot hr hq hf hm
    have h₁ := h.link_step hfr₁ hr hq hm hd
    have hgrow₁ : Grows c (g :: gs) [q ++ [i]] τ m (Function.update τ (q ++ [i]) g)
        (Radix.set m (τ q) i (Sbuos.link g)) :=
      { taken := by simp
        old := fun p hp => Function.update_of_ne (by simpa using hp) _ _
        slot := h.slot_of_set hr hlow _ }
    obtain ⟨m₂, fr₂, τ₂, hrun₂, h₂, hgrow₂⟩ := hnext i g' _ _ _ _ _ h₁ hwg' (reached_add.2 (.inr ⟨hq, rfl⟩)) (by
      rintro p j hp (hd | ⟨rfl, rfl⟩)
      · exact hbelow p j hp hd
      · simpa using hp.length_le) (by omega)
    refine ⟨m₂, fr₂, τ₂, fun store hstore => ?_, h₂.congr fun p j => ?_, hgrow₁.append hgrow₂ fun p hp hp' => ?_⟩
    · rw [hlink store (next store) hstore, hrun₂ store hstore]
    · rw [Add]
      constructor
      · rintro ((hd | ⟨rfl, rfl⟩) | ⟨hp, hm'⟩)
        · exact .inl hd
        · exact .inr ⟨.inl ⟨rfl, rfl⟩, hm⟩
        · exact .inr ⟨.inr hp, hm'⟩
      · rintro (hd | ⟨⟨rfl, rfl⟩ | hp, hm'⟩)
        · exact .inl (.inl hd)
        · exact .inl (.inr ⟨rfl, rfl⟩)
        · exact .inr ⟨hp, hm'⟩
    · have hlt := (prefix_of_mem_tablePaths hp').2
      rw [List.mem_singleton.1 hp] at hlt
      exact Nat.lt_irrefl _ hlt

/-- **Levels 2 to 4**: the entries of one table, when `next` does what is below an entry. -/
theorem link_loop {k : Nat} (ht : Tree m₀ r) (hroot : frameOf cr3 = r) (hq : q.length < 3)
    (hf : walk m₀ r q = some f) {next : (Vm → Word → Word → Option Vm) → Index → Vm → Option Vm}
    (hnext : LinksBelow m₀ r c cr3 k q next)
    (L : List Index) : ∀ (D : List Index → Index → Prop) (τ : List Index → Frame) (gs : List Frame) (m : PMem)
      (fr : Frames), L.Nodup → (∀ i ∈ L, Low (q ++ [i])) → Marking m₀ r c D τ gs m fr → Reached D q →
    (∀ i ∈ L, ¬D q i ∧ ∀ p j, q ++ [i] <+: p → ¬D p j) →
    (L.map fun i => if m₀ f i = 0 then 0 else tablesBelow m₀ k (frameOf (m₀ f i)) + 1).sum ≤ gs.length →
    ∃ m' fr' τ', (∀ store, StoresOutside m₀ r store →
        L.foldlM (Vm.linkEntry store (recAddr q) (recAddr (509 :: q)) (next store)) ⟨m, cr3, fr⟩ =
          some ⟨m', cr3, fr'⟩) ∧
      Marking m₀ r c (fun p j => D p j ∨ ∃ i ∈ L, ((p = q ∧ j = i) ∨ q ++ [i] <+: p) ∧ Mapped m₀ r p j) τ'
        (gs.drop (L.map fun i => if m₀ f i = 0 then 0 else tablesBelow m₀ k (frameOf (m₀ f i)) + 1).sum) m' fr' ∧
      Grows c gs (L.flatMap fun i =>
        if m₀ f i = 0 then [] else (q ++ [i]) :: tablePaths m₀ k (q ++ [i]) (frameOf (m₀ f i))) τ m τ' m' := by
  -- the paths of an entry are behind it, and as many as its frames
  have hpaths : ∀ i p, (p ∈ if m₀ f i = 0 then [] else
      (q ++ [i]) :: tablePaths m₀ k (q ++ [i]) (frameOf (m₀ f i))) → q ++ [i] <+: p := by
    intro i p hp
    split at hp
    · cases hp
    · rcases List.mem_cons.1 hp with rfl | hp
      · exact List.prefix_rfl
      · exact (prefix_of_mem_tablePaths hp).1
  have hcount : ∀ i, (if m₀ f i = 0 then [] else
      (q ++ [i]) :: tablePaths m₀ k (q ++ [i]) (frameOf (m₀ f i))).length =
        if m₀ f i = 0 then 0 else tablesBelow m₀ k (frameOf (m₀ f i)) + 1 := by
    intro i
    split
    · rfl
    · rw [List.length_cons, length_tablePaths]
  induction L with
  | nil =>
    intro D τ gs m fr _ _ h _ _ _
    exact ⟨m, fr, τ, fun _ _ => rfl, h.congr (by simp), ⟨rfl, fun _ _ => rfl, rfl⟩⟩
  | cons i L ih =>
    intro D τ gs m fr hnd hlow h hr hD hlen
    obtain ⟨hi, hnd⟩ := List.nodup_cons.1 hnd
    have hlow' := fun j hj => hlow j (List.mem_cons_of_mem i hj)
    have hD' := fun j hj => hD j (List.mem_cons_of_mem i hj)
    have hne : ∀ j ∈ L, j ≠ i := fun j hj he => hi (he ▸ hj)
    rw [List.map_cons, List.sum_cons] at hlen ⊢
    rw [List.flatMap_cons]
    obtain ⟨m₁, fr₁, τ₁, hrun₁, h₁, hgrow₁⟩ := h.link_entry ht hroot hq hf hnext hr (hlow i List.mem_cons_self)
      (hD i List.mem_cons_self).1 (hD i List.mem_cons_self).2 (by omega)
    obtain ⟨m', fr', τ', hrun, h', hgrow'⟩ := ih _ τ₁ _ m₁ fr₁ hnd hlow' h₁ (reached_of (fun p j hd => .inl hd) hr) (by
      intro j hj
      refine ⟨?_, ?_⟩
      · rintro (hd | ⟨⟨-, rfl⟩ | hp, -⟩)
        · exact (hD' j hj).1 hd
        · exact hi hj
        · simpa using hp.length_le
      · rintro p j' hp (hd | ⟨⟨rfl, -⟩ | hp', -⟩)
        · exact (hD' j hj).2 p j' hp hd
        · simpa using hp.length_le
        · exact not_prefix_concat (hne j hj) hp hp') (by rw [List.length_drop]; omega)
    refine ⟨m', fr', τ', fun store hstore => ?_, ?_, hgrow₁.append ?_ fun p hp hp' => ?_⟩
    · rw [List.foldlM_cons, hrun₁ store hstore]
      exact hrun store hstore
    · rw [List.drop_drop] at h'
      refine h'.congr fun p j => ?_
      rw [List.exists_mem_cons_iff, or_assoc]
    · rw [hcount]
      exact hgrow'
    · obtain ⟨j, hj, hpj⟩ := List.mem_flatMap.1 hp'
      exact not_prefix_concat (hne j hj) (hpaths j p hpj) (hpaths i p hp)

theorem mem_entries {lvl : Nat} : i ∈ Vm.entries lvl ↔ (lvl = 4 → i < 509) := by
  rw [Vm.entries, mem_take_indices (by split <;> omega)]
  split
  case isTrue h => simp [h, BitVec.lt_def]
  case isFalse h => simp [h, i.isLt]

/-- **`_do_mark_COW`**: everything below one table. -/
theorem doMarkCow_eq (ht : Tree m₀ r) (hroot : frameOf cr3 = r) (k : Nat) :
    ∀ (q : List Index) (f : Frame) (D : List Index → Index → Prop) (τ : List Index → Frame) (gs : List Frame)
      (m : PMem) (fr : Frames), Marking m₀ r c D τ gs m fr → q.length + k = 3 → Reached D q → walk m₀ r q = some f →
    (∀ p j, q <+: p → ¬D p j) → tablesBelow m₀ k f ≤ gs.length →
    ∃ m' fr' τ', (∀ store, StoresOutside m₀ r store →
        Vm.doMarkCow store k (recAddr q) (recAddr (509 :: q)) ⟨m, cr3, fr⟩ = some ⟨m', cr3, fr'⟩) ∧
      Marking m₀ r c (fun p j => D p j ∨ (q <+: p ∧ Mapped m₀ r p j)) τ' (gs.drop (tablesBelow m₀ k f)) m' fr' ∧
      Grows c gs (tablePaths m₀ k q f) τ m τ' m' := by
  induction k with
  | zero =>
    intro q f D τ gs m fr h hq hr hf hD hlen
    obtain ⟨m', hrun, h', hslot⟩ := mark_loop ht hroot hq hf indices D m indices_nodup h hr
      fun i _ => hD q i List.prefix_rfl
    refine ⟨m', fr, τ, hrun, h'.congr fun p j => or_congr_right ⟨?_, ?_⟩, ⟨rfl, fun _ _ => rfl, hslot⟩⟩
    · rintro ⟨rfl, -, hm⟩
      exact ⟨List.prefix_rfl, hm⟩
    · rintro ⟨hp, hm⟩
      have hle := hm.1
      exact ⟨(hp.eq_of_length_le (by omega)).symm, mem_indices j, hm⟩
  | succ k ih =>
    intro q f D τ gs m fr h hq hr hf hD hlen
    have hlow : ∀ i ∈ Vm.entries (k + 2), Low (q ++ [i]) := by
      intro i hi
      rcases q with _ | ⟨j, q⟩
      · intro i' hi'
        obtain rfl := Option.some.inj hi'
        exact mem_entries.1 hi (by simpa using hq)
      · exact (h.reached_low hr).2.concat (by simp) i
    have hnext : LinksBelow m₀ r c cr3 k q fun store i => Vm.doMarkCow store k
        (Vm.nextTable (recAddr q) (i.setWidth 64)) (Vm.nextTable (recAddr (509 :: q)) (i.setWidth 64)) := by
      intro i g D τ gs m fr h hg hr hD hlen
      dsimp only
      rw [nextTable_recAddr (by omega), nextTable_recAddr (by simp; omega), List.cons_append]
      exact ih (q ++ [i]) g D τ gs m fr h (by simp; omega) hr hg hD hlen
    obtain ⟨m', fr', τ', hrun, h', hgrows⟩ := link_loop ht hroot (by omega) hf hnext
      (Vm.entries (k + 2)) D τ gs m fr (indices_nodup.sublist (List.take_sublist _ _)) hlow h hr
      (fun i _ => ⟨hD q i List.prefix_rfl, fun p j hp => hD p j ((List.prefix_append q [i]).trans hp)⟩) hlen
    refine ⟨m', fr', τ', hrun, h'.congr fun p j => or_congr_right ⟨?_, ?_⟩, hgrows⟩
    · rintro ⟨i, -, ⟨rfl, -⟩ | hp, hm⟩
      · exact ⟨List.prefix_rfl, hm⟩
      · exact ⟨(List.prefix_append q [i]).trans hp, hm⟩
    · rintro ⟨⟨u, rfl⟩, hm⟩
      rcases u with _ | ⟨i, u⟩
      · rw [List.append_nil] at hm ⊢
        refine ⟨j, mem_entries.2 fun hk => ?_, .inl ⟨rfl, rfl⟩, hm⟩
        obtain rfl := List.length_eq_zero_iff.1 (show q.length = 0 by omega)
        exact hm.2.1 j rfl
      · refine ⟨i, mem_entries.2 fun hk => ?_, .inr ⟨u, by simp⟩, hm⟩
        obtain rfl := List.length_eq_zero_iff.1 (show q.length = 0 by omega)
        exact hm.2.1 i rfl

end Marking

/-! ## A fork -/

theorem childPml4Addr_eq : Vm.childPml4Addr = recAddr [509] := by decide

theorem crossEntry_eq (c : Frame) : baseOf c ||| readWrite ||| present ||| userAccessible = link c := by
  rw [link, Vm.tableEntry, BitVec.or_assoc (baseOf c) readWrite, BitVec.or_comm readWrite,
    BitVec.or_assoc (baseOf c) present]

section fork
variable {s : Vm} {c : Frame} {gs : List Frame} {store : Vm → Word → Word → Option Vm}

/-- Nothing is done yet; each PML4 has the other in its slot 509. -/
theorem Marking.start (ht : Tree s.mem s.root) (hc : ∀ p, Plain p → walk s.mem s.root p ≠ some c)
    (hfree : s.frames.Free gs) (hnd : gs.Nodup)
    (hdisj : ∀ g ∈ gs, g ≠ c ∧ ∀ p, Plain p → walk s.mem s.root p ≠ some g) (x : Word) :
    Marking s.mem s.root c (fun _ _ => False) (fun _ => c) gs
      (Radix.set (Radix.set s.mem s.root 509 (Sbuos.link c)) c 509 x) s.frames := by
  have hempty : Plain [] := ⟨by simp, by simp, by simp⟩
  have hrc : s.root ≠ c := fun e => hc [] hempty (by rw [e]; rfl)
  have hreach : ∀ {p}, Reached (fun _ _ => False) p → p = [] := by
    rintro p (hp | ⟨_, _, _, _, hd⟩)
    · exact hp
    · exact hd.elim
  refine
    { done := fun p i hd => hd.elim
      parent := ?_
      cross := ?_
      top := rfl
      link := fun p i hd => hd.elim
      mark := fun p i f hd => hd.elim
      rest := ?_
      inj := fun p q hp hq _ => (hreach hp).trans (hreach hq).symm
      apart := fun p q _ hq => hc q hq
      free := hfree
      nodup := hnd
      supply := fun g hg => ⟨fun _ _ e => (hdisj g hg).1 e.symm, (hdisj g hg).2⟩
      same := ?_ }
  · intro p f i hp hf hne
    refine ⟨fun _ => ?_, fun _ hd => hd.elim⟩
    rw [Radix.set_of_ne (by rintro rfl; exact hc p hp hf), Radix.set_apply, if_neg]
    rintro ⟨rfl, rfl⟩
    exact hne ⟨(ht.distinct _ p _ [] _ ⟨rfl, hp⟩ ⟨rfl, hempty⟩ hf rfl).2, rfl⟩
  · rw [Radix.set_of_ne hrc, Radix.set_self, child_link]
  · intro p i hp _ hne
    have hi : i ≠ 509 := fun e => hne ⟨hreach hp, e⟩
    rw [Radix.set_of_ne_index hi, Radix.set_of_ne hrc.symm]
  · intro f hf hfp
    rw [Radix.set_of_ne (hf [] (.inl rfl)).symm, Radix.set_of_ne]
    rintro rfl
    exact hfp [] hempty rfl

theorem markForkCrossEntry_eq (ht : Tree s.mem s.root) (hstore : Marking.StoresOutside s.mem s.root store)
    (hc : ∀ p, Plain p → walk s.mem s.root p ≠ some c) (parentPml4 : Word) :
    s.markForkCrossEntry store parentPml4 (baseOf c) = some { s with
      mem := Radix.set (Radix.set s.mem s.root 509 (Sbuos.link c)) c 509
        (parentPml4 ||| readWrite ||| present ||| userAccessible) } := by
  have hp : s.Sees (recAddr []) s.root := Vm.Sees.recAddr ht.self (.inl (by simp)) rfl
  have hself : SelfMapped (Radix.set s.mem s.root 509 (Sbuos.link c)) s.root := by
    rw [SelfMapped, Radix.set_of_ne_index (by decide)]
    exact ht.self
  have hchild : Vm.Sees { s with mem := Radix.set s.mem s.root 509 (Sbuos.link c) } (recAddr [509]) c := by
    refine Vm.Sees.recAddr hself (.inl (by simp)) ?_
    change (child (Radix.set s.mem s.root 509 (Sbuos.link c) s.root 509)).bind _ = some c
    rw [Radix.set_self, child_link]
    rfl
  rw [Vm.markForkCrossEntry, pml4Addr_eq, childPml4Addr_eq, crossEntry_eq]
  simp only [show (509 : Word) = (509 : Index).setWidth 64 by decide, hp.write, Option.bind_eq_bind, Option.bind_some]
  rw [hstore _ _ _ _ _ hchild hc, hchild.write]

/-- After a fork every entry of the parent below slot 509 is done. -/
theorem forkTables_eq (ht : Tree s.mem s.root)
    (hc : ∀ p, Plain p → walk s.mem s.root p ≠ some c) (hfree : s.frames.Free gs) (hnd : gs.Nodup)
    (hdisj : ∀ g ∈ gs, g ≠ c ∧ ∀ p, Plain p → walk s.mem s.root p ≠ some g)
    (hlen : tablesBelow s.mem 3 s.root ≤ gs.length) (parentPml4 : Word) :
    ∃ m' fr' τ', (∀ store, Marking.StoresOutside s.mem s.root store →
        s.forkTables store parentPml4 (baseOf c) = some ⟨m', s.cr3, fr'⟩) ∧
      Marking s.mem s.root c (Mapped s.mem s.root) τ' (gs.drop (tablesBelow s.mem 3 s.root)) m' fr' ∧
      (tablePaths s.mem 3 [] s.root).map τ' = gs.take (tablesBelow s.mem 3 s.root) ∧
      (∀ p, τ' p = c ∨ τ' p ∈ gs) ∧ m' c 509 = parentPml4 ||| readWrite ||| present ||| userAccessible := by
  obtain ⟨m', fr', τ', hrun, h, hgrows⟩ := Marking.doMarkCow_eq ht (show frameOf s.cr3 = s.root from rfl)
    3 [] s.root _ _ gs _ s.frames
    (Marking.start ht hc hfree hnd hdisj (parentPml4 ||| readWrite ||| present ||| userAccessible)) rfl (.inl rfl) rfl
    (fun _ _ _ hd => hd) hlen
  have htaken := hgrows.taken
  rw [length_tablePaths] at htaken
  refine ⟨m', fr', τ', fun store hstore => ?_, h.congr fun p i => by simp, htaken, hgrows.mem,
    hgrows.slot.trans Radix.set_self⟩
  rw [Vm.forkTables, markForkCrossEntry_eq ht hstore hc]
  simp only [Option.bind_eq_bind, Option.bind_some, Vm.markCow, pml4Addr_eq, childPml4Addr_eq]
  exact hrun store hstore

theorem storesOutside_write (m : PMem) (r : Frame) : Marking.StoresOutside m r Vm.write := fun _ _ _ _ _ _ _ => rfl

theorem storesOutside_writeOutside {m : PMem} {r : Frame} {tables : Frame → Bool}
    (htables : ∀ f, tables f = true → ∃ p, Plain p ∧ walk m r p = some f) :
    Marking.StoresOutside m r (Vm.writeOutside tables) := by
  intro t v f i x hv hf
  have hno : tables f = false := by
    by_contra hyes
    obtain ⟨p, hp, hw⟩ := htables f (by simpa using hyes)
    exact hf p hp hw
  rw [Vm.writeOutside, hv.translate]
  simp only [Option.bind_eq_bind, Option.bind_some, hno, Bool.false_eq_true, if_false]

variable {m m' : PMem} {r : Frame} {τ : List Index → Frame} {fr : Frames} {p : List Index} {i : Index} {e : Word}

/-- A page shared. -/
theorem Marking.leaf_shared (h : Marking m r c (Mapped m r) τ gs m' fr) (hp : p.length = 3) (hlow : Low p)
    (he : pageEntry m r p i = some e) (he0 : e ≠ 0) :
    pageEntry m' r p i = some (cowEntry e) ∧ pageEntry m' c p i = some (cowEntry e) := by
  obtain ⟨f, hf, rfl⟩ := Option.map_eq_some_iff.1 he
  have hplain : Plain p := hlow.plain hp.le
  have hm : Mapped m r p i := ⟨hp.le, hlow.concat (by rintro rfl; simp at hp) i, f, hf, he0⟩
  constructor
  · rw [pageEntry, h.walk_parent hplain, hf, Option.map_some,
      (h.parent p f i hplain hf hm.2.1.ne).2 hp hm]
  · rw [pageEntry, h.walk_child (h.done p i hm).2, Option.map_some, h.mark p i f hm hp hf]

/-- A page not mapped. -/
theorem Marking.leaf_unmapped (h : Marking m r c (Mapped m r) τ gs m' fr) (hp : p.length = 3) (hplain : Plain p)
    (h0 : leaf m r p i = 0) : pageEntry m' r p i = pageEntry m r p i := by
  rw [pageEntry, h.walk_parent hplain, pageEntry]
  cases hf : walk m r p with
  | none => rfl
  | some f =>
    have hf0 : m f i = 0 := by rwa [leaf, pageEntry, hf] at h0
    rw [Option.map_some, Option.map_some,
      (h.parent p f i hplain hf (by rintro ⟨rfl, -⟩; simp at hp)).1 fun hd => hd.2.ne_zero hf hf0]

/-- **A fork shares every page.** From a tree of tables, a PML4 for the child outside of it, whatever it holds (the
kernel copies the parent's into it), and enough free frames, the fork returns, and it returns the same when every
store through the child's tables is refused that would reach a table of the parent. Every page mapped below
slot 509 then has the marked entry in both trees; the rest of the parent is as it was. -/
theorem fork_shares_pages (parentPml4 : Word) (htree : Tree s.mem s.root)
    (hchild : ∀ p, Plain p → walk s.mem s.root p ≠ some c) (hfree : s.frames.Free gs) (hnd : gs.Nodup)
    (hdisj : ∀ g ∈ gs, g ≠ c ∧ ∀ p, Plain p → walk s.mem s.root p ≠ some g)
    (hlen : tablesBelow s.mem 3 s.root ≤ gs.length) (tables : Frame → Bool)
    (htables : ∀ f, tables f = true → ∃ p, Plain p ∧ walk s.mem s.root p = some f) :
    ∃ s', s.forkTables Vm.write parentPml4 (baseOf c) = some s' ∧
      s.forkTables (Vm.writeOutside tables) parentPml4 (baseOf c) = some s' ∧
      (∀ p i e, p.length = 3 → Low p → pageEntry s.mem s.root p i = some e → e ≠ 0 →
        pageEntry s'.mem s.root p i = some (cowEntry e) ∧ pageEntry s'.mem c p i = some (cowEntry e)) ∧
      (∀ p i, p.length = 3 → Plain p → leaf s.mem s.root p i = 0 →
        pageEntry s'.mem s.root p i = pageEntry s.mem s.root p i) ∧
      ∀ p f i, Plain p → p.length < 3 → walk s.mem s.root p = some f → ¬(p = [] ∧ i = 509) →
        s'.mem f i = s.mem f i := by
  obtain ⟨m', fr', τ, hrun, h, -⟩ := forkTables_eq htree hchild hfree hnd hdisj hlen parentPml4
  refine ⟨⟨m', s.cr3, fr'⟩, hrun _ (storesOutside_write _ _), hrun _ (storesOutside_writeOutside htables), ?_, ?_, ?_⟩
  · exact fun p i e hp hlow he he0 => h.leaf_shared hp hlow he he0
  · exact fun p i hp hplain h0 => h.leaf_unmapped hp hplain h0
  · exact fun p f i hplain hp hf hne => (h.parent p f i hplain hf hne).1 fun hd => by omega

end fork

/-- A tree with the one page 0, in frame 9; frame 5 is a copy of its PML4 with an entry 510 of its own, and the
frames 6, 7 and 8 are free. -/
def Vm.onePage : Vm where
  mem f i :=
    if i = 0 then
      if f = 1 ∨ f = 5 then 0x2007
      else if f = 2 then 0x3007
      else if f = 3 then 0x4007
      else if f = 4 then 0x9007
      else 0
    else if i = 510 then
      if f = 1 then 0x1007
      else if f = 5 then 0x5007
      else 0
    else 0
  cr3 := 0x1000
  frames := ⟨fun i => ⟨BitVec.ofNat 64 ((i + 5) * 4096), if i < 3 then i + 1 else 0⟩, 1, 3, 0, 0⟩

namespace Vm

theorem onePage_zero {f : Frame} {i : Index} (hi : i ≠ 0) (hi' : i ≠ 510) : onePage.mem f i = 0 := by
  rw [onePage]
  dsimp only
  rw [if_neg hi, if_neg hi']

/-- The only walk goes down slot 0. -/
theorem onePage_walk {p : List Index} {f : Frame} (hp : Plain p) (hw : walk onePage.mem onePage.root p = some f) :
    (p = [] ∧ f = 1) ∨ (p = [0] ∧ f = 2) ∨ (p = [0, 0] ∧ f = 3) ∨ (p = [0, 0, 0] ∧ f = 4) := by
  have hroot : onePage.root = 1 := by decide
  have hstep : ∀ {g : Frame} {i : Index} {q : List Index}, g = 1 ∨ g = 2 ∨ g = 3 → (g = 1 → i ≠ 510) →
      walk onePage.mem g (i :: q) = some f → i = 0 ∧ walk onePage.mem (g + 1) q = some f := by
    intro g i q hg hi hw
    rw [walk, Radix.walk_cons, ← walk] at hw
    by_cases h0 : i = 0
    · subst h0
      refine ⟨rfl, ?_⟩
      rcases hg with rfl | rfl | rfl <;> exact hw
    · have hz : child (onePage.mem g i) = none := by
        by_cases h5 : i = 510
        · subst h5
          rcases hg with rfl | rfl | rfl
          · exact absurd rfl (hi rfl)
          · rfl
          · rfl
        · rw [onePage_zero h0 h5]
          rfl
      rw [hz] at hw
      cases hw
  rw [hroot] at hw
  obtain ⟨hlen, -, h510⟩ := hp
  rcases p with _ | ⟨a, _ | ⟨b, _ | ⟨c, _ | ⟨d, p⟩⟩⟩⟩
  · obtain rfl := Option.some.inj hw
    decide
  · obtain ⟨rfl, hw⟩ := hstep (.inl rfl) (fun _ e => h510 (by rw [e]; rfl)) hw
    obtain rfl := Option.some.inj hw
    decide
  · obtain ⟨rfl, hw⟩ := hstep (.inl rfl) (fun _ e => h510 (by rw [e]; rfl)) hw
    obtain ⟨rfl, hw⟩ := hstep (.inr (.inl rfl)) (fun e => absurd e (by decide)) hw
    obtain rfl := Option.some.inj hw
    decide
  · obtain ⟨rfl, hw⟩ := hstep (.inl rfl) (fun _ e => h510 (by rw [e]; rfl)) hw
    obtain ⟨rfl, hw⟩ := hstep (.inr (.inl rfl)) (fun e => absurd e (by decide)) hw
    obtain ⟨rfl, hw⟩ := hstep (.inr (.inr rfl)) (fun e => absurd e (by decide)) hw
    obtain rfl := Option.some.inj hw
    decide
  · simp only [List.length_cons] at hlen
    omega

theorem onePage_tree : Tree onePage.mem onePage.root where
  self := show child (onePage.mem onePage.root 510) = some onePage.root by decide
  present := by
    intro p i f hp hw hne
    have hlen := hp.1
    by_cases h0 : i = 0
    · subst h0
      rcases onePage_walk hp.of_append hw with ⟨rfl, rfl⟩ | ⟨rfl, rfl⟩ | ⟨rfl, rfl⟩ | ⟨rfl, rfl⟩
      · decide
      · decide
      · decide
      · simp at hlen
    · by_cases h5 : i = 510
      · subst h5
        rcases onePage_walk hp.of_append hw with ⟨rfl, rfl⟩ | ⟨rfl, rfl⟩ | ⟨rfl, rfl⟩ | ⟨rfl, rfl⟩
        · exact absurd rfl hp.2.2
        · exact absurd rfl hne
        · exact absurd rfl hne
        · simp at hlen
      · exact absurd (onePage_zero h0 h5) hne
  distinct := by
    rintro r p r' q f ⟨rfl, hp⟩ ⟨rfl, hq⟩ hw hw'
    refine ⟨rfl, ?_⟩
    rcases onePage_walk hp hw with ⟨rfl, rfl⟩ | ⟨rfl, rfl⟩ | ⟨rfl, rfl⟩ | ⟨rfl, rfl⟩ <;>
      rcases onePage_walk hq hw' with ⟨rfl, h⟩ | ⟨rfl, h⟩ | ⟨rfl, h⟩ | ⟨rfl, h⟩ <;>
      first | rfl | exact absurd h (by decide)

theorem onePage_free : onePage.frames.Free [6, 7, 8] :=
  ⟨[1, 2, 3], [], ⟨⟨rfl, by decide, rfl, by decide, rfl, by decide, rfl⟩, rfl, by decide, rfl⟩, by decide⟩

theorem onePage_disjoint {g : Frame} (hg : g ∈ [5, 6, 7, 8]) {p : List Index} (hp : Plain p) :
    walk onePage.mem onePage.root p ≠ some g := by
  intro hw
  have hle : g = 1 ∨ g = 2 ∨ g = 3 ∨ g = 4 := by
    rcases onePage_walk hp hw with ⟨-, h⟩ | ⟨-, h⟩ | ⟨-, h⟩ | ⟨-, h⟩ <;> simp [h]
  revert hg
  rcases hle with rfl | rfl | rfl | rfl <;> decide

end Vm

/-- The page 0 after a fork: read-only and COW in both trees. -/
theorem fork_shares_pages_one : ∃ s', Vm.onePage.forkTables Vm.write 0x1000 (baseOf 5) = some s' ∧
    pageEntry s'.mem 1 [0, 0, 0] 0 = some 0x9205 ∧ pageEntry s'.mem 5 [0, 0, 0] 0 = some 0x9205 := by
  obtain ⟨s', hrun, -, hshared, -⟩ := fork_shares_pages 0x1000 Vm.onePage_tree
    (fun p hp => Vm.onePage_disjoint (g := 5) (by decide) hp) Vm.onePage_free (by decide)
    (fun g hg => ⟨by rintro rfl; exact absurd hg (by decide),
      fun p hp => Vm.onePage_disjoint (List.mem_cons_of_mem 5 hg) hp⟩)
    (by decide +kernel) (fun _ => false) (fun f h => absurd h (by decide))
  exact ⟨s', hrun, hshared [0, 0, 0] 0 0x9007 rfl (by intro i hi; obtain rfl := Option.some.inj hi; decide) (by decide)
    (by decide)⟩

end Sbuos
