import Sbuos.CowFault
import Sbuos.ForkMemory
import Sbuos.Switching
/-!
# The kernel with its memory

`Machine` puts the scheduler and the page tables together: a fork allocates and shares, a context switch loads
`cr3`, a user store goes through the MMU, and one that a read-only page refuses goes to `int_pgflt_srv`
(idt.h:112-152). `Inv` holds in every run from processes that share nothing (`Started`): each process has a tree of
tables of its own, and slot 509 of a PML4 leads to that of a child or of the parent. The last section has such a
process, with one page.
-/
namespace Sbuos
open Lib

structure Machine where
  kernel : Kernel
  memory : KernelMem

/-- Every entry on the way has the flag. -/
def allows (flag : Word) (m : PMem) : Frame → List Index → Bool
  | _, [] => true
  | f, i :: p => decide (m f i &&& flag ≠ 0) && allows flag m (frameOf (m f i)) p

/-- In the trees of the processes only the last entry can refuse. -/
theorem Spaces.allows_iff {m : PMem} {R : Frame → Prop} {P : Frame → Paths} {K r : Frame} {gs : List Frame}
    (h : Spaces m R P K gs) (hr : R r) {x : Page} (hpage : (P r).page x) (hx : child (x.leaf m r) ≠ none) {flag : Word}
    (hflag : flag = readWrite ∨ flag = userAccessible) :
    allows flag m r (x.path ++ [x.index]) = true ↔ x.leaf m r &&& flag ≠ 0 := by
  have key : ∀ (p q : List Index) (f g : Frame), Owned R P K r (q ++ p) → walk m r q = some f → walk m f p = some g →
      (allows flag m f (p ++ [x.index]) = true ↔ m g x.index &&& flag ≠ 0) := by
    intro p
    induction p with
    | nil =>
      intro q f g _ _ hg
      obtain rfl := Option.some.inj hg
      simp [allows]
    | cons i p ih =>
      intro q f g hq hf hg
      rw [walk, Radix.walk_cons] at hg
      obtain ⟨f', hf', hg⟩ := Option.bind_eq_some_iff.1 hg
      obtain ⟨hne, hframe⟩ := child_eq_some hf'
      rw [show q ++ i :: p = q ++ [i] ++ p by simp] at hq
      have hwalk : walk m r (q ++ [i]) = some f' := by
        rw [walk, Radix.walk_snoc, ← walk, hf, Option.bind_some, hf']
      obtain ⟨-, hpasses⟩ := h.present r q i f (Owned.closed r _ p hq) hf hne
      have hthis : m f i &&& flag ≠ 0 := by
        rcases hflag with rfl | rfl
        · exact (hpasses hr).1
        · exact (hpasses hr).2
      rw [List.cons_append, allows, hframe, decide_eq_true hthis, Bool.true_and]
      exact ih (q ++ [i]) f' g hq hwalk hg
  obtain ⟨g, hg⟩ := Option.ne_none_iff_exists'.1 hx
  obtain ⟨t, ht, hleaf⟩ := Page.exists_table (child_eq_some hg).1
  rw [hleaf]
  exact key x.path [] r t (.page hr hpage) rfl ht

/-- Where an access to a mapped page goes. -/
theorem Page.translate_eq {m : PMem} {cr3 a : Word} {ha : UserAddr a} {f f' : Frame} {w : Bool} {i : Index}
    (hx : (Page.of a ha).mapping m (frameOf cr3) = some (f, w)) (h : translate m cr3 a = some (f', i)) :
    f' = f ∧ i = wordOf a := by
  obtain ⟨hchild, -⟩ := Page.mapping_eq_some.1 hx
  obtain ⟨t, ht, hleaf⟩ := Page.exists_table (Page.leaf_ne_zero hx)
  have hwalk : walk m (frameOf cr3) (pathOf a) = some f := by
    rw [pathOf_eq, walk, Radix.walk_snoc]
    refine (congrArg (fun o : Option Frame => o.bind fun f => child (m f (pageIndex a))) ht).trans ?_
    exact (congrArg child hleaf.symm).trans hchild
  rw [translate] at h
  split at h
  · rw [hwalk] at h
    obtain ⟨rfl, rfl⟩ := Prod.mk.inj (Option.some.inj h)
    exact ⟨rfl, rfl⟩
  · cases h

namespace Machine

def vm (M : Machine) : Vm := M.memory.vm

def withVm (M : Machine) (vm : Vm) : Machine := { M with memory := { M.memory with vm := vm } }

/-- `_set_cr3`. -/
def setCr3 (cr3 : Word) (M : Machine) : Machine := M.withVm { M.vm with cr3 := cr3 }

/-- `do_fork` with what it does to memory (systemcall.c:60-90). -/
def doFork (rsp : Word) (M : Machine) : Option Machine := do
  let ((kernelStack, pml4, pml4'), memory) ← M.memory.forkMemory M.kernel.activePcb.pml4
  let (k, _) ← M.kernel.doFork kernelStack pml4 pml4' rsp
  some ((Machine.mk k memory).setCr3 k.sched.cr3)

/-- `int_pgflt_srv` with the error code 7 (idt.h:120-139); a fault at the address 0 loops. -/
def pageFault (address : Word) (M : Machine) : Option Machine :=
  if address = 0 then none
  else do
    let vm ← M.vm.handleCow address M.kernel.sched
    some ((M.withVm vm).setCr3 M.kernel.activePcb.pml4)

/-- The active process may read at the address. -/
def mayRead (M : Machine) (a : Word) : Bool :=
  UserAddr a ∧ (walk M.vm.mem M.vm.root (pathOf a)).isSome ∧ allows userAccessible M.vm.mem M.vm.root (pathOf a)

/-- The active process may write at the address. -/
def mayWrite (M : Machine) (a : Word) : Bool := M.mayRead a ∧ allows readWrite M.vm.mem M.vm.root (pathOf a)

/-- What happens next: a fork, an event of the kernel that leaves memory alone, or an access of the active process to
its memory. A write to a present page that refuses it is a fault. -/
inductive Event
  | fork
  | kernel (e : Kernel.Event)
  | load (a : Word)
  | fault (a : Word)
  | store (a x : Word)

def handle (fuel : Nat) (rsp : Word) : Event → Machine → Option Machine
  | .fork, M => M.doFork rsp
  | .kernel e, M =>
    if Kernel.Quiet e then (M.kernel.handle fuel rsp e).map fun k => { M with kernel := k }.setCr3 k.sched.cr3 else none
  | .load a, M => if M.mayRead a then some M else none
  | .fault a, M => if M.mayRead a ∧ ¬M.mayWrite a then M.pageFault a else none
  | .store a x, M => if M.mayWrite a then (M.vm.write a x).map M.withVm else none

def Step (M : Machine) (e : Event) (M' : Machine) : Prop := ∃ fuel rsp, M.handle fuel rsp e = some M'

/-! ## The invariant -/

def Created (M : Machine) (p : Nat) : Prop := 0 < p ∧ p ≤ M.kernel.sched.created

def pcb (M : Machine) (p : Nat) : Pcb := M.kernel.sched.pcbs p

/-- The process's PML4. -/
def root (M : Machine) (p : Nat) : Frame := frameOf (M.pcb p).pml4

def IsRoot (M : Machine) (r : Frame) : Prop := ∃ p, M.Created p ∧ M.root p = r

/-! The processes after a fork. -/

section forks
variable {M M' : Machine} {pml4 : Word} (h : Kernel.Forks M.kernel pml4 M'.kernel) {p : Nat}
include h

theorem created_iff_of_forks : M'.Created p ↔ M.Created p ∨ p = M.kernel.sched.created + 1 := by
  rw [Created, Created, h.created]
  omega

theorem pcb_of_forks (hp : M.Created p) : M'.pcb p = M.pcb p := h.old p hp.2

theorem root_of_forks (hp : M.Created p) : M'.root p = M.root p := by rw [root, pcb_of_forks h hp, root]

theorem root_new : M'.root (M.kernel.sched.created + 1) = frameOf pml4 := by
  have hpml4 : (M'.pcb (M.kernel.sched.created + 1)).pml4 = pml4 := congrArg (fun i => i.2.2) h.child
  rw [root, hpml4]

theorem ppid_new : (M'.pcb (M.kernel.sched.created + 1)).ppid = (M.pcb M.kernel.sched.active).pid :=
  congrArg (fun i => i.2.1) h.child

end forks

/-- One is the other's parent. -/
def Related (M : Machine) (p q : Nat) : Prop := (M.pcb p).ppid = (M.pcb q).pid ∨ (M.pcb q).ppid = (M.pcb p).pid

/-- The trees have the paths `P`; where all count, all is in order, and in a tree with stale entries what is not
stale. -/
structure Inv (P : Frame → Paths) (K : Frame) (gs : List Frame) (M : Machine) : Prop where
  kernel : Kernel.Sound M.kernel
  loaded : M.kernel.sched.Loaded
  cr3 : M.vm.cr3 = M.kernel.sched.cr3
  roots : ∀ p q, M.Created p → M.Created q → M.root p = M.root q → p = q
  spaces : Spaces M.vm.mem M.IsRoot P K gs
  free : M.vm.frames.Free gs
  cursor : KernelPage M.memory.availableVirtMem
  partner : ∀ p r, M.Created p → child (M.vm.mem (M.root p) 509) = some r →
    ∃ q, M.Created q ∧ M.root q = r ∧ M.Related p q
  ppid_lt : ∀ p, M.Created p → (M.pcb p).ppid < p
  others : ∀ r, ¬M.IsRoot r → P r = .all

/-- An event finds what it needs: a fork room in the ring, frames for its pages and tables, and addresses for its
pages; a fault that copies, a frame. -/
def Enough (M : Machine) : Event → Prop
  | .fork => M.kernel.sched.queue.length ≤ processQueueSize - 2 ∧
      M.memory.availableVirtMem.toNat + 4 * pageSize < 2 ^ 64 ∧
      ∃ gs, M.vm.frames.Free gs ∧ 12 + tablesBelow M.vm.mem 3 M.vm.root ≤ gs.length
  | .fault _ => M.kernel.sched.relative ≠ 0 → ∃ g gs, M.vm.frames.Free (g :: gs)
  | _ => True

/-- And a fork finds the frames for the child's tables zero where the parent's tables have no entry. -/
def Fits (M : Machine) : Event → Prop
  | .fork => Enough M .fork ∧ M.memory.CleanFork
  | e => Enough M e

theorem Fits.enough {M : Machine} {e : Event} (h : Fits M e) : Enough M e := by
  cases e with
  | fork => exact h.1
  | _ => exact h

/-- A process forks only if all its paths count, and faults and stores only at pages that do. -/
def Within (P : Frame → Paths) (M : Machine) : Event → Prop
  | .fork => P M.vm.root = .all
  | .fault a | .store a _ => ∀ ha, (P M.vm.root).page (Page.of a ha)
  | _ => True

theorem Within.whole {M : Machine} {e : Event} : Within whole M e := by
  cases e with
  | fork => rfl
  | fault a => exact fun ha => Paths.all_page (Page.of a ha)
  | store a x => exact fun ha => Paths.all_page (Page.of a ha)
  | _ => trivial

section step
variable {P : Frame → Paths} {K g f : Frame} {gs : List Frame} {M M' : Machine} {a x rsp : Word} {fuel p q : Nat}

/-- A read. -/
theorem Step.eq_of_load (hs : Step M (.load a) M') : M = M' := by
  obtain ⟨fuel, rsp, hs⟩ := hs
  simp only [handle] at hs
  split at hs
  · exact Option.some.inj hs
  · cases hs

/-- A quiet event of the kernel. -/
theorem Step.of_quiet {e : Kernel.Event} {k : Kernel} (he : Kernel.Quiet e = true)
    (hk : M.kernel.handle fuel rsp e = some k) : Step M (.kernel e) ({ M with kernel := k }.setCr3 k.sched.cr3) := by
  refine ⟨fuel, rsp, ?_⟩
  simp only [handle]
  rw [if_pos he, hk, Option.map_some]

namespace Inv

theorem active_created (h : Inv P K gs M) : M.Created M.kernel.sched.active :=
  ⟨h.kernel.sched.active_pos, h.kernel.sched.queue.active_le⟩

/-- The tables in force are those of the active process. -/
theorem root_active (h : Inv P K gs M) : M.vm.root = M.root M.kernel.sched.active := by
  rw [Vm.root, h.cr3, h.loaded]
  rfl

theorem pid_eq (h : Inv P K gs M) (hp : M.Created p) : (M.pcb p).pid = p := h.kernel.sched.tidy.pid_eq p hp.1 hp.2

theorem isRoot (h : Inv P K gs M) : M.IsRoot M.vm.root := ⟨_, h.active_created, h.root_active.symm⟩

/-- The same processes and tables. -/
theorem congr (h : Inv P K gs M) {gs' : List Frame} (hk : Kernel.Sound M'.kernel)
    (hsame : M.kernel.sched.SameProcesses M'.kernel.sched) (hl : M'.kernel.sched.Loaded)
    (hcr3 : M'.vm.cr3 = M'.kernel.sched.cr3) (hspaces : Spaces M'.vm.mem M.IsRoot P K gs')
    (hfree : M'.vm.frames.Free gs') (hcursor : M'.memory.availableVirtMem = M.memory.availableVirtMem)
    (hpartners : ∀ r, M.IsRoot r → M'.vm.mem r 509 = M.vm.mem r 509) : Inv P K gs' M' := by
  have hcreated : ∀ p, M'.Created p ↔ M.Created p := fun p => by rw [Created, Created, hsame.created]
  have hroot : ∀ p, M'.root p = M.root p := fun p => congrArg frameOf (hsame.pml4 p)
  have hroots : M'.IsRoot = M.IsRoot := by
    funext r
    simp only [IsRoot, hcreated, hroot]
  refine ⟨hk, hl, hcr3, fun p q hp hq => ?_, hroots ▸ hspaces, hfree, hcursor ▸ h.cursor, fun p r hp hr => ?_,
    fun p hp => ?_, hroots ▸ h.others⟩
  · rw [hroot, hroot]
    exact h.roots p q ((hcreated p).1 hp) ((hcreated q).1 hq)
  · rw [hroot p, hpartners _ ⟨p, (hcreated p).1 hp, rfl⟩] at hr
    obtain ⟨q, hq, hqr, hrel⟩ := h.partner p r ((hcreated p).1 hp) hr
    refine ⟨q, (hcreated q).2 hq, (hroot q).trans hqr, ?_⟩
    have hpp := hsame.ppid
    have hpid := hsame.pid
    simp only [Related, pcb] at hrel ⊢
    rwa [hpp p, hpp q, hpid p, hpid q]
  · have hpp := hsame.ppid p
    rw [pcb, hpp]
    exact h.ppid_lt p ((hcreated p).1 hp)

/-- A quiet event of the kernel. -/
theorem quiet (h : Inv P K gs M) {e : Kernel.Event} (hs : Step M (.kernel e) M') :
    Inv P K gs M' ∧ M'.vm.mem = M.vm.mem ∧ M.kernel.sched.SameProcesses M'.kernel.sched ∧
      ∀ p, M.Created p → (M.pcb p).status = .finished → (M'.pcb p).status = .finished := by
  obtain ⟨fuel, rsp, hs⟩ := hs
  simp only [handle] at hs
  split at hs
  case isTrue he =>
    obtain ⟨k, hk, rfl⟩ := Option.map_eq_some_iff.1 hs
    obtain ⟨hsame, hl⟩ := Kernel.quiet_loads he h.loaded hk
    have hroom : Kernel.HasRoom M.kernel e := by
      cases e with
      | fork => cases he
      | _ => trivial
    have heff := h.kernel.step hroom ⟨fuel, rsp, hk⟩
    refine ⟨h.congr heff.sound hsame hl rfl h.spaces h.free rfl fun _ _ => rfl, rfl, hsame, fun p hp hf => ?_⟩
    refine (heff.others p hp.1 hp.2 ?_).finished hf
    rintro rfl
    exact h.kernel.live hf
  case isFalse => cases hs

theorem active_pml4 (h : Inv P K gs M) : frameOf M.kernel.activePcb.pml4 = M.vm.root := h.root_active.symm

/-- One process more, which shares the active one's pages. -/
theorem of_forked (h : Inv P K gs M) {gs' : List Frame} {c : Frame} {Q : Paths} {pml4 : Word}
    (hpml4 : frameOf pml4 = c) (hforked : Spaces.Forked M.vm.mem M.IsRoot P K gs M.vm.root M'.vm.mem gs' c Q)
    (hforks : Kernel.Forks M.kernel pml4 M'.kernel) (hk : Kernel.Sound M'.kernel)
    (hcr3 : M'.vm.cr3 = M'.kernel.sched.cr3) (hfree : M'.vm.frames.Free gs')
    (hcursor : KernelPage M'.memory.availableVirtMem) :
    Inv (Function.update P c Q) K gs' M' := by
  have hcreated := fun p => created_iff_of_forks hforks (p := p)
  have hpcb := fun p hp => pcb_of_forks hforks (p := p) hp
  have hroot := fun p hp => root_of_forks hforks (p := p) hp
  have hnewroot : M'.root (M.kernel.sched.created + 1) = c := (root_new hforks).trans hpml4
  have hisRoot : ∀ r, M'.IsRoot r ↔ M.IsRoot r ∨ r = c := by
    intro r
    constructor
    · rintro ⟨p, hp, rfl⟩
      rcases (hcreated p).1 hp with hp | rfl
      · exact .inl ⟨p, hp, (hroot p hp).symm⟩
      · exact .inr hnewroot
    · rintro (⟨p, hp, rfl⟩ | rfl)
      · exact ⟨p, (hcreated p).2 (.inl hp), hroot p hp⟩
      · exact ⟨_, (hcreated _).2 (.inr rfl), hnewroot⟩
  have hroots : M'.IsRoot = Spaces.rootsWith M.IsRoot c := funext fun r => propext (hisRoot r)
  refine
    { kernel := hk
      loaded := ?_
      cr3 := hcr3
      roots := ?_
      spaces := by rw [hroots]; exact hforked.spaces
      free := hfree
      cursor := hcursor
      partner := ?_
      ppid_lt := ?_
      others := fun r hr => ?_ }
  · rw [Sched.Loaded, hforks.active, hforks.cr3, hforks.old _ h.active_created.2]
    rfl
  · intro p q hp hq e
    rcases (hcreated p).1 hp with hp | rfl <;> rcases (hcreated q).1 hq with hq | rfl
    · rw [hroot p hp, hroot q hq] at e
      exact h.roots p q hp hq e
    · rw [hroot p hp, hnewroot] at e
      exact absurd ⟨p, hp, e⟩ hforked.new
    · rw [hroot q hq, hnewroot] at e
      exact absurd ⟨q, hq, e.symm⟩ hforked.new
    · rfl
  · intro p r hp hr
    have hact := h.active_created
    have hppid : (M'.pcb (M.kernel.sched.created + 1)).ppid = (M'.pcb M.kernel.sched.active).pid := by
      rw [hpcb _ hact, ppid_new hforks]
    rcases (hcreated p).1 hp with hp | rfl
    · rw [hroot p hp] at hr
      by_cases hpa : M.root p = M.vm.root
      · -- the parent's slot 509 leads to the child
        rw [hpa, hforked.cross] at hr
        obtain rfl := h.roots p _ hp hact (hpa.trans h.root_active)
        exact ⟨M.kernel.sched.created + 1, (hcreated _).2 (.inr rfl), hnewroot.trans (Option.some.inj hr), .inr hppid⟩
      · rw [hforked.partners _ ⟨p, hp, rfl⟩ hpa] at hr
        obtain ⟨q, hq, hqr, hrel⟩ := h.partner p r hp hr
        refine ⟨q, (hcreated q).2 (.inl hq), (hroot q hq).trans hqr, ?_⟩
        rwa [Related, hpcb p hp, hpcb q hq]
    · rw [hnewroot, hforked.back] at hr
      have hactr : M'.root M.kernel.sched.active = r := by
        rw [hroot _ hact, ← h.root_active]
        exact Option.some.inj hr
      exact ⟨M.kernel.sched.active, (hcreated _).2 (.inl hact), hactr, .inl hppid⟩
  · intro p hp
    rcases (hcreated p).1 hp with hp | rfl
    · rw [hpcb p hp]
      exact h.ppid_lt p hp
    · have hact := h.active_created
      have hle := hact.2
      rw [ppid_new hforks, h.pid_eq hact]
      omega
  · rw [hisRoot, not_or] at hr
    rw [Function.update_of_ne hr.2]
    exact h.others r hr.1

/-- The memory of a fork, and the kernel's part of it. What is left over is enough for what it was enough for. -/
theorem doFork_eq (h : Inv P K gs M) (hall : P M.vm.root = .all) {Q : Paths} (hQ : M.memory.Offers Q) {k n : Nat}
    (hroom : M.kernel.sched.queue.length ≤ processQueueSize - 2)
    (hpages : M.memory.availableVirtMem.toNat + (k + 4) * pageSize < 2 ^ 64)
    (henough : 3 * (k + 4) + (tablesBelow M.vm.mem 3 M.vm.root + n) ≤ gs.length) :
    ∃ kernelStack pml4 c gs' memory,
      (∀ rsp, M.doFork rsp = (M.kernel.doFork kernelStack pml4 (baseOf c) rsp).map fun r =>
        (Machine.mk r.1 memory).setCr3 r.1.sched.cr3) ∧
      Spaces.Forked M.vm.mem M.IsRoot P K gs M.vm.root memory.vm.mem gs' c Q ∧
      memory.availableVirtMem.toNat + k * pageSize < 2 ^ 64 ∧ 3 * k + n ≤ gs'.length ∧
      ∀ rsp k' r, M.kernel.doFork kernelStack pml4 (baseOf c) rsp = some (k', r) →
        Inv (Function.update P c Q) K gs' ((Machine.mk k' memory).setCr3 k'.sched.cr3) ∧
          Kernel.Forks M.kernel (baseOf c) k' := by
  obtain ⟨kernelStack, pml4, c, gs', memory, hmem, -, hfree, hcursor, hforked, hpages', henough'⟩ :=
    KernelMem.forkMemory_eq ⟨h.spaces, h.free, h.isRoot, hall, h.cursor, hpages, henough⟩ hQ h.active_pml4
  refine ⟨kernelStack, pml4, c, gs', memory, fun rsp => ?_, hforked, hpages', henough', fun rsp k' r hk => ?_⟩
  · simp only [doFork, hmem, Option.bind_eq_bind, Option.bind_some]
    cases M.kernel.doFork kernelStack pml4 (baseOf c) rsp <;> rfl
  · have hforks := Kernel.doFork_forks h.active_created.2 hk
    have hstep : Kernel.Step M.kernel (.fork kernelStack pml4 (baseOf c)) k' :=
      ⟨0, rsp, by rw [Kernel.handle, hk, Option.map_some]⟩
    have heff := h.kernel.step (e := .fork kernelStack pml4 (baseOf c)) hroom hstep
    exact ⟨h.of_forked (frameOf_baseOf c) hforked hforks heff.sound rfl hfree hcursor, hforks⟩

/-- Frames that hold only zeros are clean. -/
theorem cleanFork (h : Inv P K gs M) (hall : P M.vm.root = .all)
    (hpages : M.memory.availableVirtMem.toNat + 4 * pageSize < 2 ^ 64) (henough : 12 ≤ gs.length)
    (hblank : ∀ g ∈ gs, ∀ j, M.vm.mem g j = 0) : M.memory.CleanFork :=
  KernelMem.cleanFork_of_blank (k := 0) (n := 0)
    ⟨h.spaces, h.free, h.isRoot, hall, h.cursor, by omega, by omega⟩ hblank

/-- A fork, into frames of any contents. -/
theorem fork (h : Inv P K gs M) (hall : P M.vm.root = .all) (hg : Enough M .fork) {Q : Paths}
    (hQ : M.memory.Offers Q) (hs : Step M .fork M') : ∃ gs' c pml4, Inv (Function.update P c Q) K gs' M' ∧
      Spaces.Forked M.vm.mem M.IsRoot P K gs M.vm.root M'.vm.mem gs' c Q ∧ Kernel.Forks M.kernel pml4 M'.kernel ∧
        frameOf pml4 = c := by
  obtain ⟨fuel, rsp, hs⟩ := hs
  obtain ⟨hroom, hpages, gs₀, hfree, henough⟩ := hg
  obtain rfl := hfree.unique h.free
  have hpages' : M.memory.availableVirtMem.toNat + (0 + 4) * pageSize < 2 ^ 64 := by omega
  have henough' : 3 * (0 + 4) + (tablesBelow M.vm.mem 3 M.vm.root + 0) ≤ gs₀.length := by omega
  obtain ⟨kernelStack, pml4, c, gs', memory, hrun, hforked, -, -, hinv⟩ := h.doFork_eq hall hQ hroom hpages' henough'
  rw [handle, hrun] at hs
  obtain ⟨⟨k', r⟩, hk, rfl⟩ := Option.map_eq_some_iff.1 hs
  obtain ⟨h', hforks⟩ := hinv rsp k' r hk
  exact ⟨gs', c, baseOf c, h', hforked, hforks, frameOf_baseOf c⟩

/-- The child of a fork into clean frames has all paths. -/
theorem update_all (h : Inv P K gs M) {c : Frame} (hc : ¬M.IsRoot c) : Function.update P c .all = P := by
  rw [← h.others c hc, Function.update_eq_self]

theorem forkClean (h : Inv P K gs M) (hall : P M.vm.root = .all) (hg : Fits M .fork) (hs : Step M .fork M') :
    ∃ gs' c pml4, Inv P K gs' M' ∧ Spaces.Forked M.vm.mem M.IsRoot P K gs M.vm.root M'.vm.mem gs' c .all ∧
      Kernel.Forks M.kernel pml4 M'.kernel ∧ frameOf pml4 = c := by
  obtain ⟨gs', c, pml4, h', hforked, hforks, hpml4⟩ := h.fork hall hg.1 (.inl ⟨rfl, hg.2⟩) hs
  exact ⟨gs', c, pml4, h.update_all hforked.new ▸ h', hforked, hforks, hpml4⟩

/-- A fork that finds what it needs, and a pid, goes through. -/
theorem forks (h : Inv P K gs M) (hall : P M.vm.root = .all) {Q : Paths} (hQ : M.memory.Offers Q) {k n : Nat}
    (hroom : M.kernel.sched.queue.length ≤ processQueueSize - 2)
    (hpages : M.memory.availableVirtMem.toNat + (k + 4) * pageSize < 2 ^ 64)
    (henough : 3 * (k + 4) + (tablesBelow M.vm.mem 3 M.vm.root + n) ≤ gs.length)
    (hpid : M.kernel.sched.prevPid + 1 < 2 ^ 31) :
    ∃ M' gs' c, Guarded Enough Step M .fork M' ∧ Inv (Function.update P c Q) K gs' M' ∧
      Spaces.Forked M.vm.mem M.IsRoot P K gs M.vm.root M'.vm.mem gs' c Q ∧
      Kernel.Forks M.kernel (baseOf c) M'.kernel ∧
      (M'.kernel.sched.queue = M.kernel.sched.queue ++ [M.kernel.sched.created + 1] ∧
        (M'.pcb (M.kernel.sched.created + 1)).status = .running) ∧
      M'.memory.availableVirtMem.toNat + k * pageSize < 2 ^ 64 ∧ 3 * k + n ≤ gs'.length := by
  obtain ⟨kernelStack, pml4, c, gs', memory, hrun, hforked, hpages', henough', hinv⟩ :=
    h.doFork_eq hall hQ hroom hpages henough
  obtain ⟨⟨k', r⟩, hk⟩ : ∃ r, M.kernel.doFork kernelStack pml4 (baseOf c) 0 = some r := by
    rw [Kernel.doFork, if_pos hpid]
    exact ⟨_, rfl⟩
  obtain ⟨h', hforks⟩ := hinv 0 k' r hk
  have hfits : M.memory.availableVirtMem.toNat + 4 * pageSize < 2 ^ 64 := by
    rw [Nat.add_mul] at hpages
    omega
  refine ⟨(Machine.mk k' memory).setCr3 k'.sched.cr3, gs', c, ⟨⟨hroom, hfits, gs, h.free, by omega⟩, 0, 0, ?_⟩, h',
    hforked, hforks, Kernel.doFork_queues_child h.kernel.sched.queue hroom hk, hpages', henough'⟩
  rw [handle, hrun, hk, Option.map_some]

/-- `yield` switches to the first process of the ring if that is running. -/
theorem yields (h : Inv P K gs M) {post : List Nat} (hq : M.kernel.sched.queue = p :: post)
    (hp : (M.pcb p).status = .running) : ∃ M', Step M (.kernel .yield) M' ∧
      M'.kernel.sched.active = p ∧ M'.kernel.sched.queue = post ++ [M.kernel.sched.active] ∧
      ∀ q, (M'.pcb q).status = (M.pcb q).status := by
  obtain ⟨t, ht, hact, hqueue, hstatus⟩ := Sched.schedule_next h.kernel.sched.queue hq hp
  have hlive : (M.kernel.sched.pcbs M.kernel.sched.active).status ≠ .finished := h.kernel.live
  rw [if_neg hlive] at hqueue
  have hrun : M.kernel.handle 1 0 .yield = some (M.kernel.withSched t) := by rw [Kernel.handle, Kernel.doYield, ht]; rfl
  exact ⟨_, .of_quiet rfl hrun, hact, hqueue, fun q => hstatus q⟩

/-- The exit of the active process does so too. -/
theorem exits (h : Inv P K gs M) {post : List Nat} (hq : M.kernel.sched.queue = p :: post)
    (hp : (M.pcb p).status = .running) : ∃ M', Step M (.kernel (.exit 0)) M' ∧
      M'.kernel.sched.active = p ∧ M'.kernel.sched.queue = post := by
  have hne : p ≠ M.kernel.sched.active := by
    have hnd := h.kernel.sched.queue.nodup
    rw [hq] at hnd
    rintro rfl
    exact (List.nodup_cons.1 hnd).1 List.mem_cons_self
  generalize hs : (M.kernel.sched.modify M.kernel.sched.active Pcb.exits).notifyExitPid M.kernel.activePcb.pid 0 = s
  have hqueue : s.queue = p :: post := by
    rw [← hs, ← hq]
    rfl
  have hinv : Sched.QueueInv s := by
    rw [← hs]
    exact (h.kernel.sched.queue_exits _).notify _ _
  have hrunning : (s.pcbs p).status = .running := by
    rw [← hs, Sched.notifyExitPid, Sched.notify_pcbs_apply, Sched.modify_pcbs_of_ne _ _ _ hne]
    rw [pcb] at hp
    rw [if_neg (by rw [hp]; simp), hp]
  have hfinished : (s.pcbs s.active).status = .finished := by
    rw [← hs, Sched.notifyExitPid, Sched.notify_pcbs_apply, Sched.notify_active, Sched.modify_active,
      Sched.modify_pcbs_self]
    rw [if_neg (by simp [Pcb.exits])]
    rfl
  obtain ⟨t, ht, hact, hqueue', -⟩ := Sched.schedule_next hinv hqueue hrunning
  rw [if_pos hfinished, List.append_nil] at hqueue'
  have hrun : M.kernel.handle 1 0 (.exit 0) = some (M.kernel.withSched t) := by
    rw [Kernel.handle, Kernel.doExit]
    simp only [hs, ht]
    rfl
  exact ⟨_, .of_quiet rfl hrun, hact, hqueue'⟩

/-- A read that the MMU lets pass. -/
theorem mapping_of_mayRead (h : Inv P K gs M) (hpage : ∀ ha, (P M.vm.root).page (Page.of a ha))
    (hm : M.mayRead a = true) : ∃ ha f,
    (Page.of a ha).mapping M.vm.mem M.vm.root = some (f, M.mayWrite a) := by
  simp only [mayRead, Bool.decide_and, Bool.and_eq_true, decide_eq_true_eq] at hm
  obtain ⟨ha, hsome, huser⟩ := hm
  obtain ⟨f, hf⟩ := Option.isSome_iff_exists.1 hsome
  rw [pathOf_eq, walk, Radix.walk_snoc] at hf
  obtain ⟨t, ht, hf⟩ := Option.bind_eq_some_iff.1 hf
  have hleaf : (Page.of a ha).leaf M.vm.mem M.vm.root = M.vm.mem t (pageIndex a) := Page.leaf_of_walk ht
  have hchild : child ((Page.of a ha).leaf M.vm.mem M.vm.root) = some f := by rw [hleaf, hf]
  refine ⟨ha, f, Page.mapping_eq_some.2 ⟨hchild, ?_⟩⟩
  have hiff := h.spaces.allows_iff h.isRoot (hpage ha) (by rw [hchild]; exact Option.some_ne_none f) (.inl rfl)
  have hread : M.mayRead a = true := by
    simp only [mayRead, Bool.decide_and, Bool.and_eq_true, decide_eq_true_eq]
    exact ⟨ha, hsome, huser⟩
  rw [mayWrite, hread, pathOf_eq]
  simp only [true_and]
  exact decide_eq_decide.2 hiff

/-- The MMU lets a user read a page that is his. -/
theorem mayRead_of_mapping (h : Inv P K gs M) (ha : UserAddr a) (hpage : ∀ ha, (P M.vm.root).page (Page.of a ha))
    {w : Bool} (hx : (Page.of a ha).mapping M.vm.mem M.vm.root = some (f, w))
    (huser : (Page.of a ha).leaf M.vm.mem M.vm.root &&& userAccessible ≠ 0) :
    M.mayRead a = true ∧ M.mayWrite a = w := by
  have hchild := (Page.mapping_eq_some.1 hx).1
  have hread : M.mayRead a = true := by
    have hwalk : walk M.vm.mem M.vm.root (pathOf a) = some f := by
      rw [pathOf_eq, walk, Radix.walk_snoc]
      obtain ⟨t, ht, hleaf⟩ := Page.exists_table (Page.leaf_ne_zero hx)
      refine (congrArg (fun o : Option Frame => o.bind fun f => child (M.vm.mem f (pageIndex a))) ht).trans ?_
      exact (congrArg child hleaf.symm).trans hchild
    have hpresent : child ((Page.of a ha).leaf M.vm.mem M.vm.root) ≠ none := hchild ▸ Option.some_ne_none f
    have hallows := (h.spaces.allows_iff h.isRoot (hpage ha) hpresent (.inr rfl)).2 huser
    simp only [mayRead, Bool.decide_and, Bool.and_eq_true, decide_eq_true_eq]
    exact ⟨ha, by rw [hwalk, Option.isSome_some], hallows⟩
  obtain ⟨_, f', hf'⟩ := h.mapping_of_mayRead hpage hread
  exact ⟨hread, (Prod.mk.inj (Option.some.inj (hf'.symm.trans hx))).2⟩

/-- What `handle_COW` did for the process: no relative was found, and it has the frame it had, or it has a copy. -/
def Handled (m : PMem) (k : Sched) (e : Word) (f : Frame) (gs : List Frame) (own : Word) (m' : PMem)
    (gs' : List Frame) : Prop :=
  (k.relative = 0 ∧ gs' = gs ∧ own = e ∧ m' f = m f) ∨
  (k.relative ≠ 0 ∧ ∃ g, gs = g :: gs' ∧ own = copiedEntry g ∧ m' g = m f)

/-- `handle_COW` at a page that may not be written. -/
theorem handleCow (h : Inv P K gs M) (ha : UserAddr a) (hpage : (P M.vm.root).page (Page.of a ha))
    (hx : (Page.of a ha).mapping M.vm.mem M.vm.root = some (f, false)) (hg : Enough M (.fault a)) :
    ∃ vm gs' own, M.vm.handleCow a M.kernel.sched = some vm ∧ vm.cr3 = M.vm.cr3 ∧ vm.frames.Free gs' ∧
      Spaces.Faulted M.vm.mem M.IsRoot P K gs M.vm.root (Page.of a ha) own vm.mem gs' ∧
      Handled M.vm.mem M.kernel.sched ((Page.of a ha).leaf M.vm.mem M.vm.root) f gs own vm.mem gs' := by
  by_cases hk : M.kernel.sched.relative = 0
  · obtain ⟨m', hrun, hm, hkeep⟩ := Vm.handleCow_crossed h.spaces h.isRoot ha hk hpage hx
    exact ⟨_, gs, _, hrun, rfl, h.free, hm, .inl ⟨hk, rfl, rfl, hkeep⟩⟩
  · obtain ⟨g, gs', hfree⟩ := hg hk
    obtain rfl := hfree.unique h.free
    obtain ⟨m', fr, hrun, hfr, hm, hcopy⟩ := Vm.handleCow_copied h.spaces h.isRoot hfree ha hk h.active_pml4 hpage hx
    refine ⟨_, gs', _, hrun, ?_, hfr, hm, .inr ⟨hk, g, rfl, rfl, hcopy⟩⟩
    rw [h.cr3, h.loaded]

/-- A fault. -/
theorem fault (h : Inv P K gs M) (hg : Enough M (.fault a)) (hpage : Within P M (.fault a))
    (hs : Step M (.fault a) M') : ∃ ha f gs' own,
    (Page.of a ha).mapping M.vm.mem M.vm.root = some (f, false) ∧ M'.kernel = M.kernel ∧ Inv P K gs' M' ∧
      Spaces.Faulted M.vm.mem M.IsRoot P K gs M.vm.root (Page.of a ha) own M'.vm.mem gs' ∧
      Handled M.vm.mem M.kernel.sched ((Page.of a ha).leaf M.vm.mem M.vm.root) f gs own M'.vm.mem gs' := by
  obtain ⟨fuel, rsp, hs⟩ := hs
  simp only [handle] at hs
  split at hs
  case isFalse => cases hs
  case isTrue hmay =>
    obtain ⟨ha, f, hx⟩ := h.mapping_of_mayRead hpage hmay.1
    rw [Bool.eq_false_iff.2 hmay.2] at hx
    obtain ⟨vm, gs', own, hrun, hcr3, hfree, hm, hhandled⟩ := h.handleCow ha (hpage ha) hx hg
    unfold pageFault at hs
    split at hs
    · cases hs
    · rw [hrun] at hs
      obtain rfl := Option.some.inj hs
      refine ⟨ha, f, gs', own, hx, rfl, ?_, hm, hhandled⟩
      exact h.congr h.kernel (.refl _) h.loaded h.loaded.symm hm.spaces hfree rfl hm.partners

/-- A write to a page that refuses it is a fault. -/
theorem faults (h : Inv P K gs M) (ha : UserAddr a) (ha0 : a ≠ 0) (hpage : Within P M (.fault a))
    (hx : (Page.of a ha).mapping M.vm.mem M.vm.root = some (f, false))
    (huser : (Page.of a ha).leaf M.vm.mem M.vm.root &&& userAccessible ≠ 0) (hg : Enough M (.fault a)) :
    ∃ M', Step M (.fault a) M' := by
  obtain ⟨hread, hwrite⟩ := h.mayRead_of_mapping ha hpage hx huser
  obtain ⟨vm, -, -, hrun, -⟩ := h.handleCow ha (hpage ha) hx hg
  refine ⟨(M.withVm vm).setCr3 M.kernel.activePcb.pml4, 0, 0, ?_⟩
  have hmay : M.mayRead a = true ∧ ¬M.mayWrite a = true := ⟨hread, by rw [hwrite]; exact Bool.false_ne_true⟩
  rw [handle, if_pos hmay, pageFault, if_neg ha0, hrun]
  rfl

/-- A write to a page that allows it is a store. -/
theorem stores (h : Inv P K gs M) (ha : UserAddr a) (halign : a.extractLsb' 0 3 = 0)
    (hpage : ∀ ha, (P M.vm.root).page (Page.of a ha))
    (hx : (Page.of a ha).mapping M.vm.mem M.vm.root = some (f, true))
    (huser : (Page.of a ha).leaf M.vm.mem M.vm.root &&& userAccessible ≠ 0) (x : Word) :
    ∃ M', Step M (.store a x) M' := by
  obtain ⟨-, hwrite⟩ := h.mayRead_of_mapping ha hpage hx huser
  obtain ⟨g, hg⟩ : ∃ g, walk M.vm.mem M.vm.root (pathOf a) = some g := by
    obtain ⟨hread, -⟩ := h.mayRead_of_mapping ha hpage hx huser
    simp only [mayRead, Bool.decide_and, Bool.and_eq_true, decide_eq_true_eq] at hread
    exact Option.isSome_iff_exists.1 hread.2.1
  have htranslate : translate M.vm.mem M.vm.cr3 a = some (g, wordOf a) := by
    rw [translate, if_pos ⟨.inl ha, halign⟩]
    refine (congrArg (Option.map fun f => (f, wordOf a)) hg).trans ?_
    rfl
  refine ⟨M.withVm { M.vm with mem := Radix.set M.vm.mem g (wordOf a) x }, 0, 0, ?_⟩
  rw [handle, if_pos hwrite, Vm.write, htranslate]
  rfl

/-- A store. -/
theorem store (h : Inv P K gs M) (hpage : Within P M (.store a x)) (hs : Step M (.store a x) M') : ∃ ha f,
    (Page.of a ha).mapping M.vm.mem M.vm.root = some (f, true) ∧ M'.kernel = M.kernel ∧ Inv P K gs M' ∧
      M'.vm.mem = Radix.set M.vm.mem f (wordOf a) x ∧
      (∀ r y, M.IsRoot r → (P r).page y → Page.leaf M'.vm.mem r y = y.leaf M.vm.mem r) ∧
      ∀ r, M.IsRoot r → M'.vm.mem r 509 = M.vm.mem r 509 := by
  obtain ⟨fuel, rsp, hs⟩ := hs
  simp only [handle] at hs
  split at hs
  case isFalse => cases hs
  case isTrue hmay =>
    obtain ⟨ha, f, hx⟩ := h.mapping_of_mayRead hpage (by
      simp only [mayWrite, Bool.decide_and, Bool.and_eq_true, decide_eq_true_eq] at hmay
      exact hmay.1)
    rw [hmay] at hx
    obtain ⟨vm, hvm, rfl⟩ := Option.map_eq_some_iff.1 hs
    obtain ⟨⟨f', i⟩, htr, hvm⟩ := Option.bind_eq_some_iff.1 hvm
    obtain rfl := Option.some.inj hvm
    obtain ⟨rfl, rfl⟩ := Page.translate_eq hx htr
    obtain ⟨hfresh, -⟩ := h.spaces.fresh_of_mapping h.isRoot (hpage ha) hx
    obtain ⟨hspaces, hleaf, -, hroots⟩ := h.spaces.setData hfresh (Function.update (M.vm.mem f') (wordOf a) x)
    have hpartners : ∀ r, M.IsRoot r → Radix.set M.vm.mem f' (wordOf a) x r 509 = M.vm.mem r 509 :=
      fun r hr => congrFun (hroots r hr) 509
    refine ⟨ha, f', hx, rfl, ?_, rfl, fun r y hr hy => hleaf r y hr hy, hpartners⟩
    exact h.congr h.kernel (.refl _) h.loaded h.cr3 hspaces h.free rfl hpartners

/-- One event. -/
theorem step (h : Inv P K gs M) {e : Event} (hg : Fits M e) (hw : Within P M e) (hs : Step M e M') :
    ∃ gs', Inv P K gs' M' := by
  cases e with
  | fork =>
    obtain ⟨gs', c, pml4, h', -⟩ := h.forkClean hw hg hs
    exact ⟨gs', h'⟩
  | kernel e => exact ⟨gs, (h.quiet hs).1⟩
  | load a => exact ⟨gs, hs.eq_of_load ▸ h⟩
  | fault a =>
    obtain ⟨-, -, gs', -, -, -, h', -⟩ := h.fault hg hw hs
    exact ⟨gs', h'⟩
  | store a x =>
    obtain ⟨-, -, -, -, h', -⟩ := h.store hw hs
    exact ⟨gs, h'⟩

end Inv

/-- Processes that were not forked and share nothing: for each a tree of tables of its own, with pages in frames of
their own. The frames that are free may hold anything. -/
structure Started (K : Frame) (gs : List Frame) (M : Machine) : Prop where
  kernel : Kernel.Sound M.kernel
  loaded : M.kernel.sched.Loaded
  cr3 : M.vm.cr3 = M.kernel.sched.cr3
  roots : ∀ p q, M.Created p → M.Created q → M.root p = M.root q → p = q
  spaces : Spaces M.vm.mem M.IsRoot whole K gs
  free : M.vm.frames.Free gs
  cursor : KernelPage M.memory.availableVirtMem
  no_parent : ∀ p, M.Created p → (M.pcb p).ppid = 0
  unlinked : ∀ p, M.Created p → M.vm.mem (M.root p) 509 = 0
  distinct : ∀ p q x y f w w', M.Created p → M.Created q → Page.mapping M.vm.mem (M.root p) x = some (f, w) →
    Page.mapping M.vm.mem (M.root q) y = some (f, w') → p = q ∧ x = y

theorem Started.inv (h : Started K gs M) : Inv whole K gs M where
  kernel := h.kernel
  loaded := h.loaded
  cr3 := h.cr3
  roots := h.roots
  spaces := h.spaces
  free := h.free
  cursor := h.cursor
  partner p r hp hr := by
    rw [h.unlinked p hp, child_zero] at hr
    cases hr
  ppid_lt p hp := by
    rw [h.no_parent p hp]
    exact Int.natCast_pos.2 hp.1
  others _ _ := rfl

/-- The invariant holds in every run. -/
theorem Started.run {es : List Event} (h : Started K gs M) (hrun : Run (Guarded Fits Step) M es M') :
    ∃ gs', Inv whole K gs' M' :=
  hrun.invariant (fun M => ∃ gs, Inv whole K gs M) ⟨gs, h.inv⟩ fun _ _ _ ⟨_, hi⟩ hs => hi.step hs.1 .whole hs.2

end step

end Machine

/-! ## A process with one page -/

/-- A tree with the one page 0x400000, in frame 9; frame 5 is the kernel's, and the frames from 16 on are free. -/
def Vm.lone : Vm where
  mem f i :=
    if f = 1 ∧ i = 0 then 0x2007
    else if f = 2 ∧ i = 0 then 0x3007
    else if f = 3 ∧ i = 2 then 0x4007
    else if f = 4 ∧ i = 0 then 0x9007
    else if f = 1 ∧ i = 510 then 0x1007
    else if f = 1 ∧ i = 511 then 0x5007
    else 0
  cr3 := 0x1000
  frames := ⟨fun i => ⟨BitVec.ofNat 64 ((i + 15) * 4096), if i < 32 then i + 1 else 0⟩, 1, 32, 0, 0⟩

/-- Process 1, which has that page. -/
def Machine.lone : Machine where
  kernel :=
    { sched := { (default : Sched) with
        pcbs := fun p => { (default : Pcb) with pid := p, pml4 := 0x1000, status := .running }
        created := 1
        prevPid := 1
        active := 1
        cr3 := 0x1000 }
      stdin := ⟨fun _ => 0, 0, 0, 0⟩
      ticks := 0
      archive := default }
  memory := ⟨Vm.lone, 0xffffff8000000000, 0, 0, []⟩

section lone
variable {f g s : Frame} {i : Index} {p : List Index}

theorem Vm.lone_entry (h : Vm.lone.mem f i ≠ 0) : (f = 1 ∧ i = 0) ∨ (f = 2 ∧ i = 0) ∨ (f = 3 ∧ i = 2) ∨
    (f = 4 ∧ i = 0) ∨ (f = 1 ∧ (i = 510 ∨ i = 511)) := by
  unfold Vm.lone at h
  grind

/-- The only walk goes down to the page's table. -/
theorem Vm.lone_walk (hp : Owned (· = 1) whole 5 s p) (hw : walk Vm.lone.mem s p = some f) :
    (s = 1 ∧ ((p = [] ∧ f = 1) ∨ (p = [0] ∧ f = 2) ∨ (p = [0, 0] ∧ f = 3) ∨ (p = [0, 0, 2] ∧ f = 4))) ∨
      (s = 5 ∧ p = [] ∧ f = 5) := by
  induction p using List.reverseRecOn generalizing f with
  | nil =>
    obtain rfl := Option.some.inj hw
    rcases hp with ⟨rfl, -⟩ | ⟨rfl, -⟩ <;> simp
  | append_singleton p i ih =>
    rw [walk, Radix.walk_snoc, ← walk] at hw
    obtain ⟨g, hg, hw⟩ := Option.bind_eq_some_iff.1 hw
    obtain ⟨hne, rfl⟩ := child_eq_some hw
    have hentry := Vm.lone_entry hne
    rcases ih (Owned.closed s p [i] hp) hg with
      ⟨rfl, ⟨rfl, rfl⟩ | ⟨rfl, rfl⟩ | ⟨rfl, rfl⟩ | ⟨rfl, rfl⟩⟩ | ⟨rfl, rfl, rfl⟩
    · have hi := Owned.low_of_root (by decide) rfl hp i rfl
      rcases hentry with ⟨-, rfl⟩ | ⟨h, -⟩ | ⟨h, -⟩ | ⟨h, -⟩ | ⟨-, rfl | rfl⟩
      · exact .inl ⟨rfl, .inr (.inl ⟨rfl, by decide⟩)⟩
      all_goals first | exact absurd h (by decide) | exact absurd hi (by decide)
    · rcases hentry with ⟨h, -⟩ | ⟨-, rfl⟩ | ⟨h, -⟩ | ⟨h, -⟩ | ⟨h, -⟩
      case inr.inl => exact .inl ⟨rfl, .inr (.inr (.inl ⟨rfl, by decide⟩))⟩
      all_goals exact absurd h (by decide)
    · rcases hentry with ⟨h, -⟩ | ⟨h, -⟩ | ⟨-, rfl⟩ | ⟨h, -⟩ | ⟨h, -⟩
      case inr.inr.inl => exact .inl ⟨rfl, .inr (.inr (.inr ⟨rfl, by decide⟩))⟩
      all_goals exact absurd h (by decide)
    · have hlen := (Owned.of_root (by decide) rfl hp).2
      simp at hlen
    · rcases hentry with ⟨h, -⟩ | ⟨h, -⟩ | ⟨h, -⟩ | ⟨h, -⟩ | ⟨h, -⟩ <;> exact absurd h (by decide)

theorem Vm.lone_fresh (hg : 5 < g) : Radix.Fresh child Vm.lone.mem (Owned (· = 1) whole 5) g := by
  intro s p hp hw
  rcases Vm.lone_walk hp hw with ⟨-, ⟨-, rfl⟩ | ⟨-, rfl⟩ | ⟨-, rfl⟩ | ⟨-, rfl⟩⟩ | ⟨-, -, rfl⟩ <;>
    exact absurd hg (by decide)

/-- The only page. -/
theorem Vm.lone_leaf {x : Page} (hx : x.leaf Vm.lone.mem 1 ≠ 0) :
    x.path = [0, 0, 2] ∧ x.index = 0 ∧ x.leaf Vm.lone.mem 1 = 0x9007 := by
  obtain ⟨t, ht, hleaf⟩ := Page.exists_table hx
  have hlen := x.length_eq
  have hpath : Owned (· = 1) whole 5 1 x.path := .page rfl (Paths.all_page x)
  rcases Vm.lone_walk hpath ht with ⟨-, ⟨h, -⟩ | ⟨h, -⟩ | ⟨h, -⟩ | ⟨h, rfl⟩⟩ | ⟨h, -⟩
  case inl.inr.inr.inr =>
    rw [hleaf] at hx ⊢
    rcases Vm.lone_entry hx with ⟨h', -⟩ | ⟨h', -⟩ | ⟨h', -⟩ | ⟨-, hi⟩ | ⟨h', -⟩
    case inr.inr.inr.inl =>
      rw [hi]
      exact ⟨h, rfl, by decide⟩
    all_goals exact absurd h' (by decide)
  all_goals first | exact absurd h (by decide) | simp [h] at hlen

/-- The free frames. -/
def Vm.loneFree : List Frame := (List.range' 16 32).map (BitVec.ofNat 40)

theorem Vm.lone_free : Vm.lone.frames.Free Vm.loneFree :=
  ⟨List.range' 1 32, [], ⟨by decide, rfl, by decide, rfl⟩, by decide⟩

theorem Vm.lone_not_used (hg : g ∈ Vm.loneFree) : 5 < g ∧ g ≠ 9 := by
  have hrange : ∀ n ∈ List.range' 16 32, 5 < BitVec.ofNat 40 n ∧ BitVec.ofNat 40 n ≠ 9 := by decide
  obtain ⟨n, hn, rfl⟩ := List.mem_map.1 hg
  exact hrange n hn

/-- They hold only zeros. -/
theorem Vm.lone_blank (hg : g ∈ Vm.loneFree) (i : Index) : Vm.lone.mem g i = 0 := by
  by_contra hne
  have hg5 := (Vm.lone_not_used hg).1
  rcases Vm.lone_entry hne with ⟨rfl, -⟩ | ⟨rfl, -⟩ | ⟨rfl, -⟩ | ⟨rfl, -⟩ | ⟨rfl, -⟩ <;>
    exact absurd hg5 (by decide)

theorem Vm.lone_spaces : Spaces Vm.lone.mem (· = 1) whole 5 Vm.loneFree := by
  have hfree := fun g hg => Vm.lone_not_used (g := g) hg
  exact
    { self := by
        rintro r rfl
        exact show child (Vm.lone.mem 1 510) = some 1 by decide
      kernel := by
        rintro r rfl
        decide
      apart := by decide
      present := fun r p i f _ _ hne => by
        rcases Vm.lone_entry hne with ⟨rfl, rfl⟩ | ⟨rfl, rfl⟩ | ⟨rfl, rfl⟩ | ⟨rfl, rfl⟩ | ⟨rfl, rfl | rfl⟩ <;>
          exact ⟨by decide, fun _ => ⟨by decide, by decide⟩⟩
      distinct := by
        intro r p r' q f hp hq hw hw'
        rcases Vm.lone_walk hp hw with ⟨rfl, ⟨rfl, rfl⟩ | ⟨rfl, rfl⟩ | ⟨rfl, rfl⟩ | ⟨rfl, rfl⟩⟩ | ⟨rfl, rfl, rfl⟩ <;>
          rcases Vm.lone_walk hq hw' with ⟨rfl, ⟨rfl, h⟩ | ⟨rfl, h⟩ | ⟨rfl, h⟩ | ⟨rfl, h⟩⟩ | ⟨rfl, rfl, h⟩ <;>
          first | exact ⟨rfl, rfl⟩ | exact absurd h (by decide)
      pages := by
        rintro r x rfl - hx
        obtain ⟨-, -, hleaf⟩ := Vm.lone_leaf hx
        rw [hleaf]
        exact ⟨9, by decide, Vm.lone_fresh (by decide), fun h => (hfree 9 h).2 rfl⟩
      partner := by
        rintro r rfl
        exact .inl (by decide)
      nodup := by decide
      fresh := fun g hg => Vm.lone_fresh (hfree g hg).1 }

theorem Machine.lone_created {p : Nat} : Machine.lone.Created p ↔ p = 1 := by
  change 0 < p ∧ p ≤ 1 ↔ p = 1
  omega

theorem Machine.lone_isRoot : Machine.lone.IsRoot = (· = 1) := by
  funext r
  refine propext ⟨?_, ?_⟩
  · rintro ⟨p, -, rfl⟩
    exact show frameOf 0x1000 = 1 by decide
  · rintro rfl
    exact ⟨1, lone_created.2 rfl, show frameOf 0x1000 = 1 by decide⟩

theorem Machine.lone_started : Started 5 Vm.loneFree Machine.lone where
  kernel := by
    have hidle : ∀ p, (Machine.lone.kernel.sched.pcbs p).Idle := fun p => ⟨rfl, rfl, rfl⟩
    refine ⟨⟨⟨by decide, by decide, fun i => Nat.zero_le 1, by decide, by decide, by decide, ?_⟩,
      ⟨fun p _ _ => rfl, rfl, by decide, fun p _ _ => (hidle p).sane⟩⟩, by decide⟩
    intro p hp hle _
    obtain rfl := lone_created.1 ⟨hp, hle⟩
    exact List.mem_cons_self
  loaded := rfl
  cr3 := rfl
  roots p q hp hq _ := (lone_created.1 hp).trans (lone_created.1 hq).symm
  spaces := by
    rw [lone_isRoot]
    exact Vm.lone_spaces
  free := Vm.lone_free
  cursor := ⟨by unfold Aligned; decide, by decide⟩
  no_parent p _ := rfl
  unlinked p _ := show Vm.lone.mem (frameOf 0x1000) 509 = 0 by decide
  distinct p q x y f w w' hp hq hx hy := by
    have hroot : ∀ p, Machine.lone.root p = 1 := fun p => show frameOf 0x1000 = 1 by decide
    rw [hroot] at hx hy
    obtain ⟨hxp, hxi, -⟩ := Vm.lone_leaf (Page.leaf_ne_zero hx)
    obtain ⟨hyp, hyi, -⟩ := Vm.lone_leaf (Page.leaf_ne_zero hy)
    exact ⟨(lone_created.1 hp).trans (lone_created.1 hq).symm,
      Page.ext_iff'.2 ⟨hxp.trans hyp.symm, hxi.trans hyi.symm⟩⟩

def lonePage : Page := Page.of 0x400000 (by decide)

namespace Machine

/-- The machine `lone` where the free frames hold something else. -/
def loneWith (m : PMem) : Machine := lone.withVm { Vm.lone with mem := m }

section contents
variable {m : PMem} (hm : ∀ f ∉ Vm.loneFree, m f = Vm.lone.mem f)
include hm

theorem loneWith_leaf (x : Page) : x.leaf m 1 = x.leaf Vm.lone.mem 1 :=
  (Vm.lone_spaces.of_free hm).2.1 1 x rfl (Paths.all_page x)

theorem loneWith_started : Started 5 Vm.loneFree (loneWith m) where
  kernel := lone_started.kernel
  loaded := rfl
  cr3 := rfl
  roots := lone_started.roots
  spaces := by
    rw [show (loneWith m).IsRoot = (· = 1) from lone_isRoot]
    exact (Vm.lone_spaces.of_free hm).1
  free := Vm.lone_free
  cursor := lone_started.cursor
  no_parent := lone_started.no_parent
  unlinked p _ := by
    change m (frameOf 0x1000) 509 = 0
    rw [hm _ (by decide)]
    decide
  distinct p q x y f w w' hp hq hx hy := by
    have hsame : ∀ p (x : Page), x.mapping (loneWith m).vm.mem ((loneWith m).root p) =
        x.mapping lone.vm.mem (lone.root p) := fun p x => by
      have hroot : (loneWith m).root p = 1 := show frameOf 0x1000 = 1 by decide
      have hroot' : lone.root p = 1 := show frameOf 0x1000 = 1 by decide
      rw [hroot, hroot']
      exact congrArg mappingOf (loneWith_leaf hm x)
    rw [hsame] at hx hy
    exact lone_started.distinct p q x y f w w' hp hq hx hy

theorem loneWith_tables : tablesBelow m 3 1 = 3 := by
  rw [Vm.lone_spaces.tablesBelow_eq rfl rfl fun p f i hlow hp hw => ?_]
  · decide +kernel
  · refine congrFun (hm f fun hf => ?_) i
    exact Vm.lone_spaces.fresh f hf 1 p (.low rfl rfl hlow.of_append hp.le) hw

end contents

/-- Memory where the free frames, except the `clean` ones, are full of old entries. -/
def staleMem (clean : List Frame) : PMem := fun f i =>
  if f ∈ Vm.loneFree ∧ f ∉ clean then 0xa007 else Vm.lone.mem f i

theorem staleMem_of_not_free (clean : List Frame) : ∀ f ∉ Vm.loneFree, staleMem clean f = Vm.lone.mem f :=
  fun _ hf => funext fun _ => if_neg fun e => hf e.1

theorem staleMem_of_clean {clean : List Frame} {f : Frame} (hf : f ∈ clean) (hfree : f ∈ Vm.loneFree) (i : Index) :
    staleMem clean f i = 0 :=
  (if_neg fun e => e.2 hf).trans (Vm.lone_blank hfree i)

/-- Process 1 and these frames. -/
def aged (clean : List Frame) : Machine := loneWith (staleMem clean)

theorem aged_started (clean : List Frame) : Started 5 Vm.loneFree (aged clean) :=
  loneWith_started (staleMem_of_not_free clean)

/-- Process 1 has forked process 2, whose paths are `Q`, and may fork again. -/
structure LoneForked (m : PMem) (P : Frame → Paths) (Q : Paths) (M : Machine) (gs : List Frame) (c : Frame) : Prop where
  inv : Inv P 5 gs M
  forked : Spaces.Forked m (· = 1) whole 5 Vm.loneFree 1 M.vm.mem gs c Q
  active : M.kernel.sched.active = 1
  created : M.kernel.sched.created = 2
  queue : M.kernel.sched.queue = [2]
  running : ∀ p, M.Created p → (M.pcb p).status = .running
  ppid_one : (M.pcb 1).ppid = 0
  ppid_two : (M.pcb 2).ppid = 1
  root_one : M.root 1 = 1
  root_two : M.root 2 = c
  pages : M.memory.availableVirtMem.toNat + 4 * pageSize < 2 ^ 64
  enough : 16 ≤ gs.length
  leaf_page : lonePage.leaf M.vm.mem 1 = 0x9205 ∧ lonePage.leaf M.vm.mem c = 0x9205

/-- Process 1 forks. -/
theorem loneWith_forks {m : PMem} (hm : ∀ f ∉ Vm.loneFree, m f = Vm.lone.mem f) {Q : Paths}
    (hQ : (loneWith m).memory.Offers Q) :
    ∃ M gs c, Guarded Enough Step (loneWith m) .fork M ∧ LoneForked m (Function.update whole c Q) Q M gs c := by
  have hroot : (loneWith m).vm.root = 1 := show frameOf 0x1000 = 1 by decide
  have hpages : (loneWith m).memory.availableVirtMem.toNat + (4 + 4) * pageSize < 2 ^ 64 := by
    change (0xffffff8000000000 : Word).toNat + (4 + 4) * pageSize < 2 ^ 64
    decide
  have henough : 3 * (4 + 4) + (tablesBelow (loneWith m).vm.mem 3 (loneWith m).vm.root + 4) ≤ Vm.loneFree.length := by
    have htables : tablesBelow (loneWith m).vm.mem 3 (loneWith m).vm.root = 3 := by
      rw [hroot]
      exact loneWith_tables hm
    have hlength : Vm.loneFree.length = 32 := by decide
    omega
  have hroom : lone.kernel.sched.queue.length ≤ processQueueSize - 2 := by decide
  have hpid : lone.kernel.sched.prevPid + 1 < 2 ^ 31 := by decide
  obtain ⟨M, gs, c, hs, h, hforked, hforks, ⟨hqueue, hstatus⟩, hpages', henough'⟩ :=
    (loneWith_started hm).inv.forks rfl hQ hroom hpages henough hpid
  rw [show (loneWith m).IsRoot = (· = 1) from lone_isRoot, hroot] at hforked
  have hone : (loneWith m).Created 1 := lone_created.2 rfl
  have hnone : lone.kernel.sched.queue = [] := by decide
  have hleaf : sharedEntry (lonePage.leaf m 1) = 0x9205 := by
    rw [loneWith_leaf hm]
    decide +kernel
  have hpage : Q.page lonePage := hQ.page fun e => by
    have hzero : sharedEntry (lonePage.leaf m 1) = sharedEntry 0 := by
      rw [← e]
      exact congrArg (fun r => sharedEntry (lonePage.leaf m r)) hroot.symm
    rw [hleaf] at hzero
    exact absurd hzero (by decide)
  refine ⟨M, gs, c, hs, h, hforked, hforks.active, hforks.created, ?_, fun p hp => ?_, ?_, ?_, ?_, ?_, hpages',
    henough', (hforked.parent _).trans hleaf, (hforked.child _ hpage).trans hleaf⟩
  · rw [hqueue, show (loneWith m).kernel = lone.kernel from rfl, hnone]
    rfl
  · rcases (created_iff_of_forks hforks).1 hp with hp | rfl
    · rw [pcb_of_forks hforks hp]
      rfl
    · exact hstatus
  · rw [pcb_of_forks hforks hone]
    rfl
  · exact ppid_new hforks
  · rw [root_of_forks hforks hone]
    exact show frameOf 0x1000 = 1 by decide
  · exact (root_new hforks).trans (frameOf_baseOf c)

theorem lone_forks : ∃ M gs c, Guarded Fits Step lone .fork M ∧ LoneForked Vm.lone.mem whole .all M gs c := by
  have hclean : lone.memory.CleanFork :=
    lone_started.inv.cleanFork rfl (by decide +kernel) (by decide) fun g hg i => Vm.lone_blank hg i
  obtain ⟨M, gs, c, hs, hl⟩ := loneWith_forks (m := Vm.lone.mem) (fun _ _ => rfl) (.inl ⟨rfl, hclean⟩)
  rw [Function.update_eq_self c whole] at hl
  exact ⟨M, gs, c, ⟨⟨hs.1, hclean⟩, hs.2⟩, hl⟩

namespace LoneForked
variable {m : PMem} {P : Frame → Paths} {Q : Paths} {M : Machine} {gs : List Frame} {c : Frame}
  (h : LoneForked m P Q M gs c)
include h

theorem root_active : M.vm.root = 1 := by rw [h.inv.root_active, h.active, h.root_one]

theorem mapping_page : lonePage.mapping M.vm.mem M.vm.root = some (9, false) := by
  rw [Page.mapping, h.root_active, h.leaf_page.1]
  decide

theorem user : lonePage.leaf M.vm.mem M.vm.root &&& userAccessible ≠ 0 := by
  rw [h.root_active, h.leaf_page.1]
  decide

theorem relative : M.kernel.sched.relative = 2 := by
  have h1 : (M.kernel.sched.pcbs 1).ppid = 0 := h.ppid_one
  have h2 : (M.kernel.sched.pcbs 2).ppid = 1 := h.ppid_two
  have hpid : (M.kernel.sched.pcbs 1).pid = 1 := h.inv.pid_eq ⟨Nat.one_pos, by rw [h.created]; decide⟩
  rw [Sched.relative, h.active, if_pos h1, Sched.findPcbByPpid, h.queue, List.find?_cons_of_pos]
  · rfl
  · rw [h2, hpid]
    decide

end LoneForked

/-- The frames that are left after a fork from `lone` hold only zeros. -/
theorem LoneForked.blank {P : Frame → Paths} {Q : Paths} {M : Machine} {gs : List Frame} {c g : Frame}
    (h : LoneForked Vm.lone.mem P Q M gs c) (hg : g ∈ gs) (i : Index) : M.vm.mem g i = 0 := by
  rw [h.forked.rest g hg]
  exact Vm.lone_blank (h.forked.suffix.subset hg) i

end Machine
end lone
end Sbuos
