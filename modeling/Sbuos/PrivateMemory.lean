import Sbuos.BootMap
import Sbuos.DemandPaging
/-!
# Private memories (sys/memory_helpers.c:84-114, 305-417, sys/process_helpers.c:83-101)

What frames that are shared, copied and added on demand are for: every process has a memory of its own. `Memories`
says what each of them reads, and knows no frames. A fork gives the child the memory of its parent, a store changes
one word of one process, an access to a page that is not there adds one, with what its frame held before, and nothing
else is seen.

**`private_memories`**: in every run in which a fault makes no page writable that a third process has (`NoThird`),
that is what the live processes read.
-/
namespace Sbuos
open Lib Lib.CopyOnWrite

/-! ## The specification -/

/-- What each process reads at each address; nothing where it has no page. -/
abbrev Memories := Nat → Word → Option Word

/-- The addresses of one word, and of one page. -/
def SameWord (a b : Word) : Prop := b.toNat / 8 = a.toNat / 8
def SamePage (a b : Word) : Prop := b.toNat / pageSize = a.toNat / pageSize

instance (a b : Word) : Decidable (SameWord a b) := inferInstanceAs (Decidable (_ = _))
instance (a b : Word) : Decidable (SamePage a b) := inferInstanceAs (Decidable (_ = _))

inductive MemOp
  | idle
  | fork (parent child : Nat)
  | store (p : Nat) (a x : Word)
  | page (p : Nat) (a : Word) (t : Index → Word)

def MemOp.apply (V : Memories) : MemOp → Memories
  | .idle => V
  | .fork parent child => Function.update V child (V parent)
  | .store p a x => Function.update V p fun b => if SameWord a b then some x else V p b
  | .page p a t => Function.update V p fun b => if SamePage a b then some (t (wordOf b)) else V p b

section addresses
variable {a b : Word}

end addresses

/-! ## Entries that are shared or copied -/

namespace Machine
variable {K f g : Frame} {gs gs' : List Frame} {M₀ M M' : Machine} {a b : Word} {p q : Nat} {x y : Page}

/-- What the process finds behind a page, where the MMU lets it. -/
def view (M : Machine) (p : Nat) (x : Page) : Option (Index → Word) :=
  if x.leaf M.vm.mem (M.root p) &&& userAccessible ≠ 0 then CopyOnWrite.reads M.maps M.vm.mem p x else none

namespace Inv

end Inv

/-! ## Runs -/

/-- The event finds what it needs, and a fault makes no page writable that a third process has. -/
def PagedIsolating (M : Machine) : Happening → Prop
  | .event e => Isolating M e
  | e => PagedFits M e

theorem PagedIsolating.fits {e : Happening} (h : PagedIsolating M e) : PagedFits M e := by
  cases e with
  | event e => exact h.1
  | missing write user a => exact h

/-- A page on demand is in a frame that nobody has. -/
theorem Isolated.missing {write user : Bool} (hi : Isolated M) (h : Inv whole K gs M)
    (hg : PagedFits M (.missing write user a)) (hs : PagedStep M (.missing write user a) M') : Isolated M' := by
  obtain ⟨ha, g, gs₁, rfl, -, hk, h', hadded⟩ := h.pageMissing hg hs
  have hroot : ∀ q, M'.root q = M.root q := fun q => by rw [root, pcb, hk, root, pcb]
  have hcreated : M'.Created = M.Created := by
    funext q
    rw [Created, Created, hk]
  have hlive : M'.Live = M.Live := by
    funext q
    rw [Live, Live, hcreated, pcb, pcb, hk]
  have hact := h.active_created
  generalize hp : M.kernel.sched.active = p at hact
  have hrootp : M.vm.root = M.root p := by rw [h.root_active, hp]
  have hnew : ∀ q y w, M.Created q → M.maps q y ≠ some (g, w) := fun q y w hq hy =>
    (h.spaces.fresh_of_mapping ⟨q, hq, rfl⟩ (Paths.all_page y) hy).2 List.mem_cons_self
  have hx : M'.maps p (Page.of a ha) = some (g, true) := by
    rw [maps, Page.mapping, hroot, ← hrootp, hadded.own, mappingOf_addedEntry]
  have hother : ∀ q y, M.Created q → ¬(q = p ∧ y = Page.of a ha) → M'.maps q y = M.maps q y := by
    intro q y hq hne
    rw [maps, maps, Page.mapping, Page.mapping, hroot, hadded.other _ y ⟨q, hq, rfl⟩]
    rintro ⟨hr, rfl⟩
    exact hne ⟨h.roots q p hq hact (hr.trans hrootp), rfl⟩
  have hy : ∀ y, y ≠ Page.of a ha → M'.maps p y = M.maps p y := fun y hy => hother p y hact fun e => hy e.2
  have hq : ∀ q, M.Created q → q ≠ p → M'.maps q = M.maps q := fun q hq hne =>
    funext fun y => hother q y hq fun e => hne e.1
  constructor
  · rw [hlive]
    refine hi.exclusive.grant hx hy (fun q hq' => hq q hq'.1) ?_
    rintro - q hq' - ⟨y, w, hy⟩
    exact hnew q y w hq'.1 hy
  · rw [hcreated]
    exact hi.onePage.grant hx hy hq fun q y w hq' hy => absurd hy (hnew q y w hq')

/-- One event keeps the processes apart. -/
theorem Isolated.pagedStep (hi : Isolated M) (h : Inv whole K gs M) {e : Happening} (hg : PagedIsolating M e)
    (hs : PagedStep M e M') : Isolated M' := by
  cases e with
  | event e => exact hi.step h hg hs
  | missing write user a => exact hi.missing h hg hs

/-- Process 1 has forked process 2, got the first page of the heap and written to it. -/
theorem LoneForked.writes {c : Frame} (hl : LoneForked Vm.lone.mem whole .all M gs c) : ∃ M₁ M',
    Guarded PagedIsolating PagedStep M (.missing true true 0x700000000000) M₁ ∧
    Guarded PagedIsolating PagedStep M₁ (.event (.store 0x700000000000 42)) M' ∧
    M₁.kernel = M.kernel ∧ M'.kernel = M.kernel := by
  obtain ⟨g, gs, rfl⟩ := List.exists_cons_of_length_pos (lt_of_lt_of_le (by decide) hl.enough)
  have hheap : UserAddr 0x700000000000 := by decide
  have htables : missing M.vm.mem M.vm.root (tablePath 0x700000000000) ≤ gs.length := by
    have hle : missing M.vm.mem M.vm.root (tablePath 0x700000000000) ≤ 3 := Radix.missing_le_length _ _
    have henough := hl.enough
    rw [List.length_cons] at henough
    omega
  have hblank : sharedEntry ((Page.of 0x700000000000 (by decide)).leaf Vm.lone.mem 1) = 0 := by decide +kernel
  have hx : walk M.vm.mem M.vm.root (pathOf 0x700000000000) = none := by
    rw [walk_pathOf _ _ hheap, hl.root_active, hl.forked.parent, hblank, child_zero]
  have hclean : CleanTable M.vm.mem M.vm.root 0x700000000000 (g :: gs) := fun _ t ht i =>
    hl.blank (List.mem_of_getElem? ht) i
  obtain ⟨M₁, hmissing, hk, h₁, hadded⟩ := hl.inv.adds hheap (by decide) htables hclean true true
  have hroot : M₁.vm.root = M.vm.root := by rw [h₁.root_active, hl.inv.root_active, root, pcb, hk, root, pcb]
  have hleaf : (Page.of 0x700000000000 hheap).leaf M₁.vm.mem M₁.vm.root = addedEntry g := by rw [hroot, hadded.own]
  have hmapping : (Page.of 0x700000000000 hheap).mapping M₁.vm.mem M₁.vm.root = some (g, true) := by
    rw [Page.mapping, hleaf, mappingOf_addedEntry]
  have huser : (Page.of 0x700000000000 hheap).leaf M₁.vm.mem M₁.vm.root &&& userAccessible ≠ 0 := by
    rw [hleaf]
    exact addedEntry_user g
  obtain ⟨M', hstore⟩ := h₁.stores hheap (by decide) (fun _ => Paths.all_page _) hmapping huser 42
  obtain ⟨-, -, -, hk', -⟩ := h₁.store Within.whole hstore
  have hfits : PagedFits M (.missing true true 0x700000000000) := ⟨_, hl.inv.free, Nat.lt_succ_of_le htables, hclean⟩
  have hisolating : Isolating M₁ (.store 0x700000000000 42) := ⟨trivial, fun a e => by cases e⟩
  refine ⟨M₁, M', ⟨hfits, 0, 0, ?_⟩, ⟨hisolating, hstore⟩, hk, hk'.trans hk⟩
  rw [handlePaged, if_pos ⟨hheap, hx⟩, hmissing]

end Machine
end Sbuos
