import Sbuos.Machine
/-!
# What faults do in a run (sys/memory_helpers.c:337-417)

**`cow_fault_progress`**: a fault lets the process write on exactly when `handle_COW` finds the process's child or
parent in the ready queue; otherwise it faults for ever.

**`forked_pair_copies_once`**: a process and its only child copy each page they share once. Whichever faults first at a
page has it copied and the other's entry made writable, and neither faults there again.
-/
namespace Sbuos
open Lib

namespace Machine
variable {P : Frame → Paths} {K f : Frame} {gs : List Frame} {M₀ M M' : Machine} {es : List Event} {a : Word}
  {fuel p q : Nat}

/-- The active process may write to its page, which holds what it held. -/
structure Progress (s : Vm) (x : Page) (s' : Vm) : Prop where
  present : child (x.leaf s'.mem s'.root) ≠ none
  user : x.leaf s'.mem s'.root &&& userAccessible ≠ 0
  writable : x.leaf s'.mem s'.root &&& readWrite ≠ 0
  not_cow : x.leaf s'.mem s'.root &&& cow = 0
  contents : (child (x.leaf s'.mem s'.root)).map s'.mem = (child (x.leaf s.mem s.root)).map s.mem

/-- **Progress**: in every run from processes that share nothing, at every page that the active process has present and
read-only, `handle_COW` returns, given a free frame if it copies; and the process may then write to the page, with
its contents unchanged, exactly if `handle_COW` found its relative in the queue. -/
theorem cow_fault_progress (h₀ : Started K gs M₀) (hrun : Run (Guarded Fits Step) M₀ es M) (ha : UserAddr a)
    (hx : (Page.of a ha).mapping M.vm.mem M.vm.root = some (f, false)) (hg : Fits M (.fault a)) :
    ∃ vm, M.vm.handleCow a M.kernel.sched = some vm ∧
      (Progress M.vm (Page.of a ha) vm ↔ M.kernel.sched.relative ≠ 0) := by
  obtain ⟨gs, h⟩ := h₀.run hrun
  obtain ⟨vm, gs', own, hcow, hcr3, -, hm, hhandled⟩ := h.handleCow ha (Paths.all_page _) hx hg
  have hroot : vm.root = M.vm.root := congrArg frameOf hcr3
  refine ⟨vm, hcow, fun hp => ?_, fun hk => ?_⟩
  · have hw := hp.writable
    rw [hroot, hm.own] at hw
    rcases hhandled with ⟨-, -, rfl, -⟩ | ⟨hk, -⟩
    · -- the entry is the one that refused the write
      have hro := (Page.mapping_eq_some.1 hx).2
      exact absurd hw (of_decide_eq_false hro.symm)
    · exact hk
  · obtain ⟨hk', -⟩ | ⟨-, g, -, rfl, hcopy⟩ := hhandled
    · exact absurd hk' hk
    · have hleaf : (Page.of a ha).leaf vm.mem vm.root = copiedEntry g := by rw [hroot, hm.own]
      refine ⟨?_, ?_, ?_, ?_, ?_⟩ <;> rw [hleaf]
      · rw [child_copiedEntry]
        exact Option.some_ne_none g
      · exact copiedEntry_user g
      · exact copiedEntry_writable g
      · exact copiedEntry_not_cow g
      · rw [child_copiedEntry, (Page.mapping_eq_some.1 hx).1, Option.map_some, Option.map_some, hcopy]

/-- Process 1 forks and writes to its page. -/
theorem cow_fault_progress_forked : ∃ M vm, Run (Guarded Fits Step) lone [.fork] M ∧
    M.vm.handleCow 0x400000 M.kernel.sched = some vm ∧ Progress M.vm lonePage vm := by
  obtain ⟨M, gs, c, hs, hl⟩ := lone_forks
  have hrun : Run (Guarded Fits Step) lone [.fork] M := .single hs
  obtain ⟨g, gs, rfl⟩ := List.exists_cons_of_length_pos (lt_of_lt_of_le (by decide) hl.enough)
  obtain ⟨vm, hcow, hiff⟩ := cow_fault_progress lone_started hrun (a := 0x400000) (by decide) hl.mapping_page
    fun _ => ⟨g, gs, hl.inv.free⟩
  refine ⟨M, vm, hrun, hcow, hiff.2 ?_⟩
  rw [hl.relative]
  decide

/-- Once process 1 has exited, the write of its child leaves the child's entry read-only. -/
theorem cow_fault_stuck : ∃ M vm, Run (Guarded Fits Step) lone [.fork, .kernel (.exit 0)] M ∧
    M.kernel.sched.active = 2 ∧ lonePage.leaf M.vm.mem M.vm.root = baseOf 9 ||| userAccessible ||| present ||| cow ∧
    M.vm.handleCow 0x400000 M.kernel.sched = some vm ∧
    lonePage.leaf vm.mem vm.root &&& readWrite = 0 ∧ ¬Progress M.vm lonePage vm := by
  obtain ⟨M₁, gs, c, hs₁, hl⟩ := lone_forks
  obtain ⟨M, hs, hact, hqueue⟩ := hl.inv.exits hl.queue (hl.running 2 ⟨by decide, hl.created.ge⟩)
  obtain ⟨h, hmem, hsame, -⟩ := hl.inv.quiet hs
  have hroot : M.vm.root = c := by
    rw [h.root_active, hact, ← hl.root_two]
    exact congrArg frameOf (hsame.pml4 2)
  have hleaf : lonePage.leaf M.vm.mem M.vm.root = 0x9205 := by rw [hroot, hmem, hl.leaf_page.2]
  have hmapping : lonePage.mapping M.vm.mem M.vm.root = some (9, false) := by
    rw [Page.mapping, hleaf]
    decide
  -- its parent is not in the queue
  have hrel : M.kernel.sched.relative = 0 := by
    have hppid : (M.kernel.sched.pcbs 2).ppid = 1 := (hsame.ppid 2).trans hl.ppid_two
    rw [Sched.relative, hact, hppid, if_neg (by decide), Sched.findPcbByPid, hqueue]
    rfl
  obtain ⟨vm, gs', own, hcow, hcr3, -, hm, hhandled⟩ := h.handleCow (by decide) (Paths.all_page _) hmapping
    fun hne => absurd hrel hne
  have hown : lonePage.leaf vm.mem vm.root = 0x9205 := by
    obtain ⟨-, -, rfl, -⟩ | ⟨hne, -⟩ := hhandled
    · rw [Vm.root, hcr3]
      exact hm.own.trans hleaf
    · exact absurd hrel hne
  have hreadOnly : lonePage.leaf vm.mem vm.root &&& readWrite = 0 := by
    rw [hown]
    decide
  have hfork : Run (Guarded Fits Step) lone [.fork] M₁ := .single hs₁
  exact ⟨M, vm, hfork.snoc ⟨trivial, hs⟩, hact, hleaf, hcow, hreadOnly, fun hp => hp.writable hreadOnly⟩

/-! ## A process and its only child -/

/-- Both have the page in one frame, read-only and COW. -/
def Shared (m : PMem) (r r' : Frame) (x : Page) : Prop :=
  ∃ f, child (x.leaf m r) = some f ∧ child (x.leaf m r') = some f ∧
    (x.leaf m r &&& readWrite = 0 ∧ x.leaf m r &&& cow ≠ 0) ∧ x.leaf m r' &&& readWrite = 0 ∧ x.leaf m r' &&& cow ≠ 0

/-- Each has the page in a frame of its own, writable and without COW. -/
def Split (m : PMem) (r r' : Frame) (x : Page) : Prop :=
  ∃ f f', child (x.leaf m r) = some f ∧ child (x.leaf m r') = some f' ∧ f ≠ f' ∧
    (x.leaf m r &&& readWrite ≠ 0 ∧ x.leaf m r &&& cow = 0) ∧ x.leaf m r' &&& readWrite ≠ 0 ∧ x.leaf m r' &&& cow = 0

/-- The event is a fault of `p` or `q` at the page. -/
def FaultAt (p q : Nat) (x : Page) (i : Machine × Event) : Bool :=
  match i.2 with
  | .fault a => tablePath a = x.path ∧ pageIndex a = x.index ∧
      (i.1.kernel.sched.active = p ∨ i.1.kernel.sched.active = q)
  | _ => false

/-- `c` is the only child of `p`, which has no parent, and has no child itself; each has the other behind slot 509. -/
structure Pair (p c : Nat) (M : Machine) : Prop where
  parent : M.Created p
  child : M.Created c
  ppid : (M.pcb p).ppid = 0
  child_ppid : (M.pcb c).ppid = (M.pcb p).pid
  only : ∀ q, M.Created q → (M.pcb q).ppid = (M.pcb p).pid → q = c
  childless : ∀ q, M.Created q → (M.pcb q).ppid ≠ (M.pcb c).pid
  cross : Sbuos.child (M.vm.mem (M.root p) 509) = some (M.root c)
  back : Sbuos.child (M.vm.mem (M.root c) 509) = some (M.root p)

namespace Pair
variable {c : Nat}

theorem ne (hp : Pair p c M) (h : Inv P K gs M) : p ≠ c := by
  rintro rfl
  have h0 := hp.child_ppid
  rw [hp.ppid, h.pid_eq hp.parent] at h0
  have := hp.parent.1
  omega

/-- No other process has one of them behind its slot 509. -/
theorem not_partner (hp : Pair p c M) (h : Inv P K gs M) (hq : M.Created q) (hqp : q ≠ p) (hqc : q ≠ c) {t : Nat}
    (ht : t = p ∨ t = c) : Sbuos.child (M.vm.mem (M.root q) 509) ≠ some (M.root t) := by
  intro hroot
  have htc : M.Created t := by
    rcases ht with rfl | rfl
    · exact hp.parent
    · exact hp.child
  obtain ⟨t', ht', hrt, hrel⟩ := h.partner q (M.root t) hq hroot
  obtain rfl := h.roots t' t ht' htc hrt
  rcases ht with rfl | rfl
  · rcases hrel with hrel | hrel
    · exact hqc (hp.only q hq hrel)
    · rw [hp.ppid, h.pid_eq hq] at hrel
      have := hq.1
      omega
  · rcases hrel with hrel | hrel
    · exact hp.childless q hq hrel
    · rw [hp.child_ppid, h.pid_eq hp.parent, h.pid_eq hq] at hrel
      omega

end Pair

section pages
variable {m m' : PMem} {R : Frame → Prop} {r r' : Frame} {x y : Page} {n : Nat}

/-- The page after `n` faults at it. -/
def PageState (m : PMem) (r r' : Frame) (x : Page) (n : Nat) : Prop :=
  (Shared m r r' x ∧ n = 0) ∨ (Split m r r' x ∧ n ≤ 1)

theorem PageState.symm (h : PageState m r r' x n) : PageState m r' r x n := by
  rcases h with ⟨⟨f, h1, h2, h3, h4⟩, hn⟩ | ⟨⟨f, f', h1, h2, hne, h3, h4⟩, hn⟩
  · exact .inl ⟨⟨f, h2, h1, h4, h3⟩, hn⟩
  · exact .inr ⟨⟨f', f, h2, h1, hne.symm, h4, h3⟩, hn⟩

theorem PageState.congr (h : PageState m r r' x n) (hr : x.leaf m' r = x.leaf m r) (hr' : x.leaf m' r' = x.leaf m r') :
    PageState m' r r' x n := by
  simp only [PageState, Shared, Split, hr, hr']
  exact h

/-- A fault of the process at `r`, whose partner is at `r'`. -/
theorem PageState.faulted (h : PageState m r r' x n) (hs : Spaces m R P K gs) (hr : R r) (hr' : R r')
    (hxr : (P r).page x) (hxr' : (P r').page x) {gs' : List Frame} {own : Word} {k : Sched}
    (hcross : child (m r 509) = some r')
    (hy : y.mapping m r = some (f, false)) (hm : Spaces.Faulted m R P K gs r y own m' gs')
    (hhandled : Inv.Handled m k (y.leaf m r) f gs own m' gs') (hk : k.relative ≠ 0) :
    (x ≠ y → PageState m' r r' x n) ∧ (x = y → n = 0 ∧ PageState m' r r' x (n + 1)) := by
  constructor
  · intro hxy
    refine h.congr (hm.other r x hr hxr (fun e => hxy e.2) fun e => hxy e.2) ?_
    exact hm.other r' x hr' hxr' (fun e => hxy e.2) fun e => hxy e.2
  · rintro rfl
    have hro := of_decide_eq_false (Page.mapping_eq_some.1 hy).2.symm
    rcases h with ⟨⟨f', h1, h2, h3, h4, h5⟩, rfl⟩ | ⟨⟨-, -, -, -, -, h3, -⟩, -⟩
    · obtain ⟨hk', -⟩ | ⟨-, g, rfl, rfl, -⟩ := hhandled
      · exact absurd hk' hk
      · obtain ⟨-, hfree⟩ := hs.fresh_of_mapping hr hxr hy
        obtain rfl := Option.some.inj (h1.symm.trans (Page.mapping_eq_some.1 hy).1)
        have hgf : g ≠ f' := by
          rintro rfl
          exact hfree List.mem_cons_self
        refine ⟨rfl, .inr ⟨⟨g, f', ?_, ?_, hgf, ?_, ?_⟩, le_rfl⟩⟩
        · rw [hm.own, child_copiedEntry]
        · rw [hm.partner r' hcross, child_crossedEntry, h2]
        · rw [hm.own]
          exact ⟨copiedEntry_writable g, copiedEntry_not_cow g⟩
        · rw [hm.partner r' hcross]
          exact ⟨crossedEntry_writable _, crossedEntry_not_cow _⟩
    · exact absurd h3.1 hro

end pages

namespace Pair
variable {c : Nat} {e : Event} {x : Page} {n : Nat}

theorem of_same (hp : Pair p c M) (hsame : M.kernel.sched.SameProcesses M'.kernel.sched)
    (hpartners : ∀ r, M.IsRoot r → M'.vm.mem r 509 = M.vm.mem r 509) :
    Pair p c M' ∧ M'.root p = M.root p ∧ M'.root c = M.root c := by
  have hcreated : ∀ q, M'.Created q ↔ M.Created q := fun q => by rw [Created, Created, hsame.created]
  have hroot : ∀ q, M'.root q = M.root q := fun q => congrArg frameOf (hsame.pml4 q)
  have hppid : ∀ q, (M'.pcb q).ppid = (M.pcb q).ppid := hsame.ppid
  have hpid : ∀ q, (M'.pcb q).pid = (M.pcb q).pid := hsame.pid
  refine ⟨⟨(hcreated p).2 hp.parent, (hcreated c).2 hp.child, ?_, ?_, ?_, ?_, ?_, ?_⟩, hroot p, hroot c⟩
  · rw [hppid, hp.ppid]
  · rw [hppid, hpid, hp.child_ppid]
  · intro q hq
    rw [hppid, hpid]
    exact hp.only q ((hcreated q).1 hq)
  · intro q hq
    rw [hppid, hpid]
    exact hp.childless q ((hcreated q).1 hq)
  · rw [hroot p, hroot c, hpartners _ ⟨p, hp.parent, rfl⟩, hp.cross]
  · rw [hroot p, hroot c, hpartners _ ⟨c, hp.child, rfl⟩, hp.back]

/-- A fork of another process. -/
theorem of_forked (hp : Pair p c M) (h : Inv P K gs M) {gs' : List Frame} {d : Frame} {Q : Paths} {pml4 : Word}
    (hforked : Spaces.Forked M.vm.mem M.IsRoot P K gs M.vm.root M'.vm.mem gs' d Q)
    (hforks : Kernel.Forks M.kernel pml4 M'.kernel)
    (hnp : M.kernel.sched.active ≠ p) (hnc : M.kernel.sched.active ≠ c) :
    Pair p c M' ∧ M'.root p = M.root p ∧ M'.root c = M.root c ∧
      (M.root p ≠ M.vm.root ∧ M.root c ≠ M.vm.root) := by
  have hpcb := fun q hq => pcb_of_forks hforks (p := q) hq
  have hroot := fun q hq => root_of_forks hforks (p := q) hq
  have hcreated := fun q => (created_iff_of_forks hforks (p := q)).1
  have hmono := fun q hq => (created_iff_of_forks hforks (p := q)).2 (.inl hq)
  have hnew := ppid_new hforks
  have hne : ∀ q, M.Created q → M.kernel.sched.active ≠ q → M.root q ≠ M.vm.root := fun q hq hact e =>
    hact (h.roots q _ hq h.active_created (e.trans h.root_active)).symm
  have hact := h.pid_eq h.active_created
  refine ⟨⟨hmono p hp.parent, hmono c hp.child, ?_, ?_, ?_, ?_, ?_, ?_⟩, hroot p hp.parent, hroot c hp.child,
    hne p hp.parent hnp, hne c hp.child hnc⟩
  · rw [hpcb p hp.parent, hp.ppid]
  · rw [hpcb p hp.parent, hpcb c hp.child, hp.child_ppid]
  · intro q hq e
    rw [hpcb p hp.parent] at e
    rcases hcreated q hq with hq | rfl
    · rw [hpcb q hq] at e
      exact hp.only q hq e
    · rw [hnew, hact, h.pid_eq hp.parent] at e
      omega
  · intro q hq e
    rw [hpcb c hp.child] at e
    rcases hcreated q hq with hq | rfl
    · rw [hpcb q hq] at e
      exact hp.childless q hq e
    · rw [hnew, hact, h.pid_eq hp.child] at e
      omega
  · rw [hroot p hp.parent, hroot c hp.child, hforked.partners _ ⟨p, hp.parent, rfl⟩ (hne p hp.parent hnp), hp.cross]
  · rw [hroot p hp.parent, hroot c hp.child, hforked.partners _ ⟨c, hp.child, rfl⟩ (hne c hp.child hnc), hp.back]

/-- `handle_COW` finds the other one, as long as that is alive. -/
theorem relative_ne_zero (hp : Pair p c M) (h : Inv P K gs M)
    (hact : M.kernel.sched.active = p ∨ M.kernel.sched.active = c)
    (hlp : (M.pcb p).status ≠ .finished) (hlc : (M.pcb c).status ≠ .finished) : M.kernel.sched.relative ≠ 0 := by
  have hfound : ∀ (t : Nat → Bool) q, q ∈ M.kernel.sched.queue → t q = true →
      (M.kernel.sched.queue.find? t).getD 0 ≠ 0 := by
    intro t q hq ht h0
    obtain ⟨r, hr⟩ := Option.isSome_iff_exists.1 (List.find?_isSome.2 ⟨q, hq, ht⟩)
    rw [hr, Option.getD_some] at h0
    have hpos := h.kernel.sched.queue.pos r (List.mem_cons_of_mem _ (List.mem_of_find?_eq_some hr))
    omega
  have hqueued : ∀ q, M.Created q → (M.pcb q).status ≠ .finished → q ≠ M.kernel.sched.active →
      q ∈ M.kernel.sched.queue := fun q hq hl hne => h.kernel.sched.queue.live_mem_queue hq.1 hq.2 hl hne
  have hne := hp.ne h
  rw [Sched.relative]
  rcases hact with hact | hact
  · have h0 : (M.kernel.sched.pcbs M.kernel.sched.active).ppid = 0 := hact ▸ hp.ppid
    rw [if_pos h0]
    refine hfound _ c (hqueued c hp.child hlc (hact ▸ hne.symm)) (decide_eq_true ?_)
    rw [hact]
    exact hp.child_ppid
  · have h0 : (M.kernel.sched.pcbs M.kernel.sched.active).ppid ≠ 0 := by
      rw [hact]
      intro e
      have hpid := hp.child_ppid.symm.trans e
      rw [h.pid_eq hp.parent] at hpid
      have := hp.parent.1
      omega
    rw [if_neg h0]
    refine hfound _ p (hqueued p hp.parent hlp (hact ▸ hne)) (decide_eq_true ?_)
    rw [hact]
    exact hp.child_ppid.symm

theorem faultAt_iff (ha : UserAddr a) : FaultAt p c x (M, .fault a) = true ↔
    x = Page.of a ha ∧ (M.kernel.sched.active = p ∨ M.kernel.sched.active = c) := by
  rw [FaultAt, decide_eq_true_eq, Page.ext_iff', and_assoc]
  exact and_congr ⟨Eq.symm, Eq.symm⟩ (and_congr ⟨Eq.symm, Eq.symm⟩ Iff.rfl)

section step
variable (hp : Pair p c M) (h : Inv P K gs M) (hlp : (M.pcb p).status ≠ .finished) (hlc : (M.pcb c).status ≠ .finished)
  (hxp : (P (M.root p)).page x) (hxc : (P (M.root c)).page x) (hx : PageState M.vm.mem (M.root p) (M.root c) x n)
include hp h hxp hxc hx

/-- A fault of either, or of another process. -/
theorem fault (hlp : (M.pcb p).status ≠ .finished) (hlc : (M.pcb c).status ≠ .finished) (hg : Enough M (.fault a))
    (hw : Within P M (.fault a)) (hs : Step M (.fault a) M') :
    Pair p c M' ∧ (M'.root p = M.root p ∧ M'.root c = M.root c) ∧
      PageState M'.vm.mem (M'.root p) (M'.root c) x (n + (FaultAt p c x (M, .fault a)).toNat) ∧
      (FaultAt p c x (M, .fault a) = true → ∃ g gs', M.vm.frames.Free (g :: gs') ∧ M'.vm.frames.Free gs') := by
  obtain ⟨ha, f, gs', own, hy, hk, h', hm, hhandled⟩ := h.fault hg hw hs
  have hsame : M.kernel.sched.SameProcesses M'.kernel.sched := hk ▸ .refl _
  obtain ⟨hp', hrp, hrc⟩ := hp.of_same hsame hm.partners
  have hRp : M.IsRoot (M.root p) := ⟨p, hp.parent, rfl⟩
  have hRc : M.IsRoot (M.root c) := ⟨c, hp.child, rfl⟩
  rw [hrp, hrc]
  refine ⟨hp', ⟨rfl, rfl⟩, ?_, fun hat => ?_⟩
  · by_cases hact : M.kernel.sched.active = p ∨ M.kernel.sched.active = c
    · have hrel := hp.relative_ne_zero h hact hlp hlc
      have hstate : (x ≠ Page.of a ha → PageState M'.vm.mem (M.root p) (M.root c) x n) ∧
          (x = Page.of a ha → PageState M'.vm.mem (M.root p) (M.root c) x (n + 1)) := by
        have hroot := h.root_active
        rcases hact with hact | hact <;> rw [hact] at hroot <;> rw [hroot] at hy hm hhandled
        · obtain ⟨h1, h2⟩ := hx.faulted h.spaces hRp hRc hxp hxc hp.cross hy hm hhandled hrel
          exact ⟨h1, fun e => (h2 e).2⟩
        · obtain ⟨h1, h2⟩ := hx.symm.faulted h.spaces hRc hRp hxc hxp hp.back hy hm hhandled hrel
          exact ⟨fun e => (h1 e).symm, fun e => (h2 e).2.symm⟩
      by_cases hxy : x = Page.of a ha
      · rw [(faultAt_iff ha).2 ⟨hxy, hact⟩]
        exact hstate.2 hxy
      · rw [Bool.eq_false_iff.2 fun hat => hxy ((faultAt_iff ha).1 hat).1]
        exact hstate.1 hxy
    · rw [Bool.eq_false_iff.2 fun hat => hact ((faultAt_iff ha).1 hat).2]
      rw [not_or] at hact
      have hcreated := h.active_created
      have hkeep : ∀ t, M.Created t → (P (M.root t)).page x → t ≠ M.kernel.sched.active → t = p ∨ t = c →
          x.leaf M'.vm.mem (M.root t) = x.leaf M.vm.mem (M.root t) := by
        intro t ht hxt hne htpc
        refine hm.other _ x ⟨t, ht, rfl⟩ hxt (fun e => hne ?_) fun e => ?_
        · exact h.roots t _ ht hcreated (e.1.trans h.root_active)
        · rw [h.root_active] at e
          exact hp.not_partner h hcreated hact.1 hact.2 htpc e.1
      exact hx.congr (hkeep p hp.parent hxp (Ne.symm hact.1) (.inl rfl))
        (hkeep c hp.child hxc (Ne.symm hact.2) (.inr rfl))
  · have hrel := hp.relative_ne_zero h ((faultAt_iff ha).1 hat).2 hlp hlc
    obtain ⟨hk', -⟩ | ⟨-, g, rfl, -, -⟩ := hhandled
    · exact absurd hk' hrel
    · exact ⟨g, gs', h.free, h'.free⟩

/-- One event, if neither forks. -/
theorem step {e : Event} (hlp : (M.pcb p).status ≠ .finished) (hlc : (M.pcb c).status ≠ .finished) (hg : Fits M e)
    (hw : Within P M e) (hs : Step M e M')
    (hfork : e = .fork → M.kernel.sched.active ≠ p ∧ M.kernel.sched.active ≠ c) :
    Pair p c M' ∧ (M'.root p = M.root p ∧ M'.root c = M.root c) ∧
      PageState M'.vm.mem (M'.root p) (M'.root c) x (n + (FaultAt p c x (M, e)).toNat) ∧
      (FaultAt p c x (M, e) = true → ∃ g gs', M.vm.frames.Free (g :: gs') ∧ M'.vm.frames.Free gs') := by
  cases e with
  | fork =>
    obtain ⟨hnp, hnc⟩ := hfork rfl
    obtain ⟨gs', d, pml4, -, hforked, hforks, -⟩ := h.forkClean hw hg hs
    obtain ⟨hp', hrp, hrc, hpr, hcr⟩ := hp.of_forked h hforked hforks hnp hnc
    rw [hrp, hrc]
    refine ⟨hp', ⟨rfl, rfl⟩, hx.congr (hforked.other _ x ⟨p, hp.parent, rfl⟩ hxp hpr)
      (hforked.other _ x ⟨c, hp.child, rfl⟩ hxc hcr), ?_⟩
    intro hat
    cases hat
  | kernel e =>
    obtain ⟨-, hmem, hsame, -⟩ := h.quiet hs
    obtain ⟨hp', hrp, hrc⟩ := hp.of_same hsame fun r _ => by rw [hmem]
    rw [hrp, hrc, hmem]
    refine ⟨hp', ⟨rfl, rfl⟩, hx, fun hat => ?_⟩
    cases hat
  | load a =>
    obtain rfl := hs.eq_of_load
    refine ⟨hp, ⟨rfl, rfl⟩, hx, fun hat => ?_⟩
    cases hat
  | fault a => exact hp.fault h hxp hxc hx hlp hlc hg hw hs
  | store a v =>
    obtain ⟨ha, f, -, hk, -, -, hleaf, hpartners⟩ := h.store hw hs
    have hsame : M.kernel.sched.SameProcesses M'.kernel.sched := hk ▸ .refl _
    obtain ⟨hp', hrp, hrc⟩ := hp.of_same hsame hpartners
    rw [hrp, hrc]
    refine ⟨hp', ⟨rfl, rfl⟩,
      hx.congr (hleaf _ x ⟨p, hp.parent, rfl⟩ hxp) (hleaf _ x ⟨c, hp.child, rfl⟩ hxc), fun hat => ?_⟩
    cases hat

end step

/-- What the child may do, and whatever others do, stays within the paths that count. -/
theorem within {e : Event} {Q : Paths} (hp : Pair p c M) (h : Inv P K gs M)
    (hP : P = Function.update whole (M.root c) Q) (hfork : e = .fork → M.kernel.sched.active ≠ c)
    (hc : M.kernel.sched.active = c → ∀ a, (e = .fault a ∨ ∃ v, e = .store a v) → ∀ ha, Q.page (Page.of a ha)) :
    Within P M e := by
  by_cases hact : M.kernel.sched.active = c
  · have hroot : P M.vm.root = Q := by rw [hP, h.root_active, hact, Function.update_self]
    cases e with
    | fork => exact absurd hact (hfork rfl)
    | kernel e => trivial
    | load a => trivial
    | fault a => exact fun ha => hroot ▸ hc hact a (.inl rfl) ha
    | store a v => exact fun ha => hroot ▸ hc hact a (.inr ⟨v, rfl⟩) ha
  · have hroot : P M.vm.root = .all := by
      rw [hP, Function.update_of_ne]
      exact fun e => hact (h.roots _ c h.active_created hp.child (h.root_active.symm.trans e))
    have hwhole := Within.whole (M := M) (e := e)
    cases e with
    | fork => exact hroot
    | kernel e => trivial
    | load a => trivial
    | fault a => exact fun ha => hroot ▸ hwhole ha
    | store a v => exact fun ha => hroot ▸ hwhole ha

end Pair

/-- The first fork of a process without a parent makes a pair. -/
theorem Pair.forked (h : Inv P K gs M) (hall : P M.vm.root = .all) (hg : Enough M .fork) {Q : Paths}
    (hQ : M.memory.Offers Q) (hs : Step M .fork M')
    (hppid : (M.pcb M.kernel.sched.active).ppid = 0)
    (hfirst : ∀ q, M.Created q → (M.pcb q).ppid ≠ (M.pcb M.kernel.sched.active).pid) {x : Page}
    (hx : x.leaf M.vm.mem M.vm.root ≠ 0) :
    (∃ gs', Inv (Function.update P (M'.root M'.kernel.sched.created) Q) K gs' M') ∧
      M'.root M.kernel.sched.active ≠ M'.root M'.kernel.sched.created ∧
      Pair M.kernel.sched.active M'.kernel.sched.created M' ∧
      PageState M'.vm.mem (M'.root M.kernel.sched.active) (M'.root M'.kernel.sched.created) x 0 := by
  obtain ⟨gs', d, pml4, h', hforked, hforks, hpml4⟩ := h.fork hall hg hQ hs
  have hact := h.active_created
  have hpcb := fun q hq => pcb_of_forks hforks (p := q) hq
  have hcreated := fun q => (created_iff_of_forks hforks (p := q)).1
  have hmono := fun q hq => (created_iff_of_forks hforks (p := q)).2 (.inl hq)
  have hcnew := (created_iff_of_forks hforks).2 (.inr rfl)
  have hcppid := ppid_new hforks
  have hrootp : M'.root M.kernel.sched.active = M.vm.root := by rw [root_of_forks hforks hact, h.root_active]
  have hrootc := (root_new hforks).trans hpml4
  rw [← hforks.created] at hcnew hcppid hrootc
  simp only [← hforks.created] at hcreated
  have hpid := h.pid_eq hact
  have hlt : ∀ q, M.Created q → q < M'.kernel.sched.created := fun q hq => by
    rw [hforks.created]
    exact Nat.lt_succ_of_le hq.2
  rw [hrootp, hrootc]
  refine ⟨⟨gs', h'⟩, fun e => hforked.new (e ▸ h.isRoot), ⟨hmono _ hact, hcnew, ?_, ?_, ?_, ?_, ?_, ?_⟩, .inl ⟨?_, rfl⟩⟩
  · rw [hpcb _ hact, hppid]
  · rw [hcppid, hpcb _ hact]
  · intro q hq e
    rw [hpcb _ hact] at e
    rcases hcreated q hq with hq | rfl
    · rw [hpcb q hq] at e
      exact absurd e (hfirst q hq)
    · rfl
  · intro q hq e
    rw [h'.pid_eq hcnew] at e
    have hc := hlt _ hact
    rcases hcreated q hq with hq | rfl
    · -- nobody is the child of a process that did not exist
      have hlt' := h.ppid_lt q hq
      have hq' := hlt q hq
      rw [hpcb q hq] at e
      omega
    · rw [hcppid, hpid] at e
      omega
  · rw [hrootp, hrootc]
    exact hforked.cross
  · rw [hrootp, hrootc]
    exact hforked.back
  · obtain ⟨f, hf, -, -⟩ := h.spaces.pages _ x h.isRoot (hall ▸ Paths.all_page x) hx
    have hcow : sharedEntry (x.leaf M.vm.mem M.vm.root) = cowEntry (x.leaf M.vm.mem M.vm.root) := if_neg hx
    refine ⟨f, ?_, ?_, ?_, ?_⟩
    · rw [hforked.parent, hcow, child_cowEntry, hf]
    · rw [hforked.child x (hQ.page hx), hcow, child_cowEntry, hf]
    · rw [hforked.parent, hcow]
      exact ⟨cowEntry_readOnly _, cowEntry_cow _⟩
    · rw [hforked.child x (hQ.page hx), hcow]
      exact ⟨cowEntry_readOnly _, cowEntry_cow _⟩

/-- The event takes one frame off the free list. -/
def TakesOneFrame (i : Machine × Event) : Prop :=
  ∀ M', Step i.1 i.2 M' → ∃ g gs, i.1.vm.frames.Free (g :: gs) ∧ M'.vm.frames.Free gs

/-- **A pair copies each page once**: a process without a parent forks its only child, in frames of any contents, and
in a run after that neither forks or finishes and the child writes to pages shared at the fork. Such a page is then
in one frame, read-only and COW, for both, or in two frames, writable and without COW; and the two have faulted at it
at most once, for one frame. -/
theorem forked_pair_copies_once {M₁ M₂ : Machine} {log : List (Machine × Event)} (h₀ : Started K gs M₀)
    (hbefore : Run (Guarded Fits Step) M₀ es M₁) (hppid : (M₁.pcb M₁.kernel.sched.active).ppid = 0)
    (hfirst : ∀ q, M₁.Created q → (M₁.pcb q).ppid ≠ (M₁.pcb M₁.kernel.sched.active).pid)
    (hfork : Guarded Enough Step M₁ .fork M₂) (hafter : Run (Traced (Guarded Fits Step)) M₂ log M)
    (halone : ∀ i ∈ log, i.2 = .fork →
      i.1.kernel.sched.active ≠ M₁.kernel.sched.active ∧ i.1.kernel.sched.active ≠ M₂.kernel.sched.created)
    (halive : ∀ i ∈ log, (i.1.pcb M₁.kernel.sched.active).status ≠ .finished ∧
      (i.1.pcb M₂.kernel.sched.created).status ≠ .finished)
    (hshared : ∀ i ∈ log, i.1.kernel.sched.active = M₂.kernel.sched.created →
      ∀ a, (i.2 = .fault a ∨ ∃ v, i.2 = .store a v) → ∀ ha, (Page.of a ha).leaf M₁.vm.mem M₁.vm.root ≠ 0)
    {x : Page} (hx : x.leaf M₁.vm.mem M₁.vm.root ≠ 0) :
    (Shared M.vm.mem (M.root M₁.kernel.sched.active) (M.root M₂.kernel.sched.created) x ∨
      Split M.vm.mem (M.root M₁.kernel.sched.active) (M.root M₂.kernel.sched.created) x) ∧
    log.countP (FaultAt M₁.kernel.sched.active M₂.kernel.sched.created x) ≤ 1 ∧
    ∀ i ∈ log, FaultAt M₁.kernel.sched.active M₂.kernel.sched.created x i = true → TakesOneFrame i := by
  obtain ⟨gs₁, h₁⟩ := h₀.run hbefore
  have hQ : M₁.memory.Offers (.mapped M₁.vm.mem M₁.vm.root) := .inr rfl
  obtain ⟨hinv₂, hroots₂, hpair₂, hstate₂⟩ := Pair.forked h₁ rfl hfork.1 hQ hfork.2 hppid hfirst hx
  replace hshared := fun i hi hact a he ha => hQ.page (hshared i hi hact a he ha)
  have hxQ := hQ.page hx
  generalize M₁.kernel.sched.active = p at *
  generalize M₂.kernel.sched.created = c at *
  generalize Paths.mapped M₁.vm.mem M₁.vm.root = Q at *
  generalize hr : M₂.root c = r at *
  have hinv := hafter.history (fun log M =>
      (∀ i ∈ log, i.2 = .fork → i.1.kernel.sched.active ≠ p ∧ i.1.kernel.sched.active ≠ c) →
      (∀ i ∈ log, (i.1.pcb p).status ≠ .finished ∧ (i.1.pcb c).status ≠ .finished) →
      (∀ i ∈ log, i.1.kernel.sched.active = c → ∀ a, (i.2 = .fault a ∨ ∃ v, i.2 = .store a v) →
        ∀ ha, Q.page (Page.of a ha)) →
      (∃ gs, Inv (Function.update whole r Q) K gs M) ∧ (M.root p ≠ r ∧ M.root c = r) ∧ Pair p c M ∧
        PageState M.vm.mem (M.root p) (M.root c) x (log.countP (FaultAt p c x)) ∧
        ∀ i ∈ log, FaultAt p c x i = true → TakesOneFrame i)
    (fun _ _ _ => ⟨hinv₂, ⟨hroots₂, hr⟩, hpair₂, hr.symm ▸ hstate₂, fun i hi => absurd hi List.not_mem_nil⟩) ?_
    halone halive hshared
  · obtain ⟨-, -, -, hstate, hframes⟩ := hinv
    rcases hstate with ⟨hshared, hn⟩ | ⟨hsplit, hn⟩
    · exact ⟨.inl hshared, by omega, hframes⟩
    · exact ⟨.inr hsplit, hn, hframes⟩
  · rintro log M ⟨M', e⟩ M'' ih ⟨rfl, hg, hs⟩ halone halive hshared
    obtain ⟨⟨gs, h⟩, ⟨hrp, hrc⟩, hpair, hstate, hframes⟩ := ih (fun i hi => halone i (List.mem_append_left _ hi))
      (fun i hi => halive i (List.mem_append_left _ hi)) fun i hi => hshared i (List.mem_append_left _ hi)
    have hlast := List.mem_append_right log (List.mem_singleton_self (M', e))
    have hwithin : Within (Function.update whole r Q) M' e :=
      hpair.within h (by rw [hrc]) (fun he => (halone _ hlast he).2) (hshared _ hlast)
    have hxp : (Function.update whole r Q (M'.root p)).page x := by
      rw [Function.update_of_ne hrp]
      exact Paths.all_page x
    have hxc : (Function.update whole r Q (M'.root c)).page x := by
      rw [hrc, Function.update_self]
      exact hxQ
    have hone := fun M'' (hs : Step M' e M'') =>
      hpair.step h hxp hxc hstate (halive _ hlast).1 (halive _ hlast).2 hg hwithin hs (halone _ hlast)
    obtain ⟨hpair', ⟨hrp', hrc'⟩, hstate', -⟩ := hone M'' hs
    refine ⟨h.step hg hwithin hs, ⟨fun e => hrp (hrp'.symm.trans e), hrc'.trans hrc⟩, hpair', ?_, fun i hi hat => ?_⟩
    · rw [List.countP_append, List.countP_singleton]
      cases hat : FaultAt p c x (M', e) <;> rw [hat] at hstate' <;> exact hstate'
    · rcases List.mem_append.1 hi with hi | hi
      · exact hframes i hi hat
      · obtain rfl := List.mem_singleton.1 hi
        exact fun M₃ hs₃ => (hone M₃ hs₃).2.2.2 hat

/-- Process 1 forks with frames full of old entries, and writes to its page. -/
theorem forked_pair_copies_once_fault : ∃ M₂ M, Guarded Enough Step (aged []) .fork M₂ ∧
    Guarded Fits Step M₂ (.fault 0x400000) M ∧
    (Shared M.vm.mem (M.root 1) (M.root 2) lonePage ∨ Split M.vm.mem (M.root 1) (M.root 2) lonePage) ∧
    [(M₂, Event.fault 0x400000)].countP (FaultAt 1 2 lonePage) ≤ 1 ∧ TakesOneFrame (M₂, .fault 0x400000) := by
  have hroot : (aged []).vm.root = 1 := show frameOf 0x1000 = 1 by decide
  have hx : lonePage.leaf (aged []).vm.mem (aged []).vm.root ≠ 0 := by
    rw [hroot]
    exact ne_of_eq_of_ne (loneWith_leaf (staleMem_of_not_free []) lonePage) (by decide +kernel)
  have hQ : (aged []).memory.Offers (.mapped (aged []).vm.mem (aged []).vm.root) := .inr rfl
  obtain ⟨M₂, gs, c, hfork, hl⟩ := loneWith_forks (staleMem_of_not_free []) hQ
  obtain ⟨g, gs, rfl⟩ := List.exists_cons_of_length_pos (lt_of_lt_of_le (by decide) hl.enough)
  have hfits : Fits M₂ (.fault 0x400000) := fun _ => ⟨g, gs, hl.inv.free⟩
  have hpage : (Function.update whole c (.mapped (aged []).vm.mem (aged []).vm.root) M₂.vm.root).page lonePage := by
    rw [Function.update_apply]
    split
    · exact hQ.page hx
    · exact Paths.all_page lonePage
  obtain ⟨M, hs⟩ := hl.inv.faults (a := 0x400000) (by decide) (by decide) (fun _ => hpage) hl.mapping_page hl.user hfits
  have hafter : Run (Traced (Guarded Fits Step)) M₂ [(M₂, .fault 0x400000)] M := .single ⟨rfl, hfits, hs⟩
  have hlog : ∀ {P : Machine × Event → Prop}, P (M₂, .fault 0x400000) → ∀ i ∈ [(M₂, Event.fault 0x400000)], P i := by
    intro P hP i hi
    rw [List.mem_singleton.1 hi]
    exact hP
  have hone : (M₂.pcb 1).status ≠ .finished :=
    ne_of_eq_of_ne (hl.running 1 ⟨by decide, by rw [hl.created]; decide⟩) (by decide)
  have htwo : (M₂.pcb M₂.kernel.sched.created).status ≠ .finished := by
    rw [hl.created]
    exact ne_of_eq_of_ne (hl.running 2 ⟨by decide, hl.created.ge⟩) (by decide)
  have hact : M₂.kernel.sched.active ≠ M₂.kernel.sched.created := by
    rw [hl.active, hl.created]
    decide
  obtain ⟨hstate, hcount, hframes⟩ := forked_pair_copies_once (aged_started []) .nil rfl
    (fun q _ => show (0 : Int) ≠ 1 by decide) hfork hafter (hlog fun hf => by cases hf) (hlog ⟨hone, htwo⟩)
    (hlog fun h => absurd h hact) hx
  rw [hl.created] at hstate hcount hframes
  exact ⟨M₂, M, hfork, ⟨hfits, hs⟩, hstate, hcount, hframes _ (List.mem_singleton_self _)
    (decide_eq_true ⟨rfl, rfl, .inl hl.active⟩)⟩

end Machine
end Sbuos
