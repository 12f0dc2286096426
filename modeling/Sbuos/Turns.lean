import Sbuos.Status
import Sbuos.Lib.Run
import Mathlib.Order.Lattice
/-!
# Turns at the processor (sys/process_helpers.c:114-141, :275-277)

What `getNextContext_rotates` says of one call, for the ring as a whole: **`ring_rotation`** is the law of one
call, **`fork_keeps_processes`** says when `process_run` has room for one more process, and **`no_overtaking`**
follows a process that waits in the queue over a whole run: whoever is selected was ahead of it, and joins
again behind it.
-/
namespace Sbuos
open Lib

namespace Sched
variable {s t : Sched} {p q r x y : Nat} {pre post : List Nat}

/-- **`get_next_context` rotates the ring.** Let `r` be the first process that can run in the queue followed by
the active process, unless that is FINISHED. The call ends and makes `r` active; the queue is then what was
behind `r`, and after it what was in front without its FINISHED members. -/
theorem ring_rotation (hh : s.head < processQueueSize) (ht : s.tail < processQueueSize)
    (h0 : ∀ p ∈ s.active :: s.queue, p ≠ 0)
    (hq : s.queue ++ (if (s.pcbs s.active).status = .finished then [] else [s.active]) = pre ++ r :: post)
    (hpre : ∀ p ∈ pre, ¬((s.pcbs p).status = .ready ∨ (s.pcbs p).status = .running))
    (hr : (s.pcbs r).status = .ready ∨ (s.pcbs r).status = .running) :
    ∃ t, Returns (fun fuel => s.getNextContext fuel) t ∧ t.active = r ∧
      t.queue = post ++ pre.filter (fun p => (s.pcbs p).status ≠ .finished) ∧ t.pcbs = s.pcbs := by
  have hrunnable : ∀ p, (s.pcbs p).runnable = true ↔ (s.pcbs p).status = .ready ∨ (s.pcbs p).status = .running :=
    fun p => by rw [Pcb.runnable, decide_eq_true_eq, Or.comm]
  have hpos : ∀ p ∈ s.requeued, 0 < p := fun p hp => Nat.pos_of_ne_zero (h0 p (mem_of_mem_requeued hp))
  have hpre' : ∀ p ∈ pre, (s.pcbs p).runnable = false := fun p hp =>
    Bool.eq_false_iff.2 fun h => hpre p hp ((hrunnable p).1 h)
  obtain ⟨t, hrun, hrot⟩ := getNextContext_rotates hh ht hq hpos hpre' ((hrunnable r).2 hr) (Nat.lt_succ_self _)
  exact ⟨t, .of_le _ fun fuel hf => getNextContext_mono hrun hf, hrot.active_eq, hrot.queue_eq, hrot.pcbs_eq⟩

/-- Two processes, the second WAITING, and the idle one active: the queue wraps at slot 99. -/
def wrapped : Sched := { (default : Sched) with
  list := fun i => if i = 99 then 2 else 3
  head := 99
  tail := 1
  active := 1
  created := 3
  pcbs := fun p => { (default : Pcb) with status := if p = 2 then .waiting else .running } }

theorem ring_rotation_wrapped : ∃ t, Returns (fun fuel => wrapped.getNextContext fuel) t ∧ t.active = 3 ∧
    t.queue = [1, 2] := by
  obtain ⟨t, hrun, hactive, hqueue, -⟩ := @ring_rotation wrapped 3 [2] [1] (by decide) (by decide) (by decide) rfl
    (by decide) (by decide)
  exact ⟨t, hrun, hactive, hqueue⟩

/-! ## Room for one more -/

/-- From `s` to `s'` the queue takes `child` in and keeps everyone, or stays as it is; and the next call of
`get_next_context` leaves everyone live active or queued. -/
def LosesNobody (child : Nat) (s s' : Sched) : Prop :=
  ((child ∈ s'.queue ∧ ∀ p ∈ s.queue, p ∈ s'.queue) ∨ s'.queue = s.queue) ∧
    ∀ fuel t, s'.getNextContext fuel = some t →
      ∀ p ∈ s'.active :: s'.queue, (s'.pcbs p).status ≠ .finished → p ∈ t.active :: t.queue

/-- The ring when a process is queued in its last free slot: empty. -/
theorem queue_processRun_full (hh : s.head < processQueueSize) (ht : s.tail < processQueueSize)
    (hfull : s.queue.length + 1 = processQueueSize) {c : Nat} (hnew : (s.pcbs c).status ≠ .finished) :
    (s.processRun c).queue = [] := by
  rw [queue, Ring.length_window] at hfull
  rw [Sched.processRun, enqueueProcess, if_neg hnew]
  exact Ring.window_push_full _ hh ht hfull

theorem getForkedPcb_status (s : Sched) (kernelStack pml4 pml4' : Word) (parent : Nat) :
    ((s.getForkedPcb kernelStack pml4 pml4' parent).pcbs (s.created + 1)).status = .running := by
  have hself := Sched.modify_pcbs_self (s.getNewPcb kernelStack pml4) (s.created + 1)
    (Pcb.forked ((s.getNewPcb kernelStack pml4).pcbs parent) pml4')
  exact congrArg Pcb.status hself

end Sched

namespace Kernel
variable {k k' : Kernel} {kernelStack pml4 pml4' rsp ret : Word}

/-- A fork, as far as the queue is concerned. -/
theorem doFork_queue (h : k.doFork kernelStack pml4 pml4' rsp = some (k', ret)) :
    ∃ s : Sched, s.list = k.sched.list ∧ s.head = k.sched.head ∧ s.tail = k.sched.tail ∧ s.active = k.sched.active ∧
      (s.pcbs (k.sched.created + 1)).status = .running ∧
      k'.sched = { s.processRun (k.sched.created + 1) with cr3 := k'.sched.cr3 } := by
  unfold doFork at h
  split at h
  · cases h
    refine ⟨(k.sched.getForkedPcb kernelStack pml4 pml4' k.sched.active).modify (k.sched.created + 1) fun c =>
      { c with kernelSp := c.kernelStack + rsp -
          ((k.sched.getForkedPcb kernelStack pml4 pml4' k.sched.active).pcbs k.sched.active).kernelStack + 48 },
      rfl, rfl, rfl, rfl, ?_, rfl⟩
    rw [Sched.modify_pcbs_self]
    exact k.sched.getForkedPcb_status kernelStack pml4 pml4' k.sched.active
  · cases h

/-- **Creating a process never loses one** iff at most 98 are queued: a ring of 100 slots with 99 in use is empty
when one more is queued. -/
theorem fork_keeps_processes (hh : k.sched.head < processQueueSize) (ht : k.sched.tail < processQueueSize)
    (hpos : ∀ p ∈ k.sched.active :: k.sched.queue, 0 < p)
    (h : k.doFork kernelStack pml4 pml4' rsp = some (k', ret)) :
    Sched.LosesNobody (k.sched.created + 1) k.sched k'.sched ↔ k.sched.queue.length + 1 < processQueueSize := by
  obtain ⟨s, hlist, hhead, htail, hactive, hrun, hk'⟩ := doFork_queue h
  have hqueue : s.queue = k.sched.queue := by rw [Sched.queue, Sched.queue, hlist, hhead, htail]
  have hlive : (s.pcbs (k.sched.created + 1)).status ≠ .finished := by rw [hrun]; decide
  rw [← hhead] at hh
  rw [← htail] at ht
  rw [← hqueue]
  constructor
  · rintro ⟨hkept, -⟩
    have hlt : s.queue.length < processQueueSize := by
      rw [Sched.queue, Ring.length_window]
      exact Ring.size_lt hh ht
    by_contra hfull
    have hempty := Sched.queue_processRun_full hh ht (by omega) hlive
    have hk : k'.sched.queue = [] := by rw [hk']; exact hempty
    have hne : k.sched.queue ≠ [] := by
      rw [← hqueue]
      rintro hnil
      rw [hnil] at hfull
      exact hfull (by decide)
    rcases hkept with ⟨hchild, -⟩ | hsame
    · rw [hk] at hchild
      cases hchild
    · exact hne (hsame.symm.trans hk)
  · intro hroom
    have hq := Sched.queue_processRun hh ht hroom hlive
    have hk : k'.sched.queue = k.sched.queue ++ [k.sched.created + 1] := by
      rw [← hqueue, ← hq, hk']
      rfl
    have hact : k'.sched.active = k.sched.active := by rw [hk']; simp [Sched.processRun, hactive]
    have hpcbs : k'.sched.pcbs = s.pcbs := by rw [hk']; simp [Sched.processRun]
    have hpos' : ∀ p ∈ k'.sched.active :: k'.sched.queue, 0 < p := by
      intro p hp
      rw [hact, hk, ← List.cons_append, List.mem_append] at hp
      rcases hp with hp | hp
      · exact hpos p hp
      · rw [List.mem_singleton.1 hp]
        exact Nat.succ_pos _
    have hchild : k.sched.created + 1 ∈ k'.sched.active :: k'.sched.queue := by
      rw [hk]
      simp
    refine ⟨.inl ⟨by rw [hk]; simp, fun p hp => by rw [hk]; exact List.mem_append_left _ hp⟩, ?_⟩
    intro fuel t ht' p hp hl
    have hrun' : (k'.sched.pcbs (k.sched.created + 1)).runnable = true := by
      rw [hpcbs, Pcb.runnable, hrun]
      rfl
    obtain ⟨pre, r, post, hreq, -, -, hrot⟩ := Sched.getNextContext_rotated
      (by rw [hk']; simpa [Sched.processRun] using hh)
      (by rw [hk']; exact Sched.enqueueProcess_tail_lt _ ht) hpos' hchild hrun' ht'
    exact hrot.mem_of_live hreq hp hl

/-- The first fork. -/
theorem fork_keeps_processes_boot :
    ∃ k' ret, (boot default 0 0 0 0 Stdin.init 0 default).doFork 0 0 0 0 = some (k', ret) ∧
      Sched.LosesNobody 3 (boot default 0 0 0 0 Stdin.init 0 default).sched k'.sched := by
  obtain ⟨⟨k', ret⟩, h⟩ := Option.isSome_iff_exists.1
    (show ((boot default 0 0 0 0 Stdin.init 0 default).doFork 0 0 0 0).isSome = true by decide)
  exact ⟨k', ret, h, (fork_keeps_processes (by decide) (by decide) (by decide) h).2 (by decide)⟩

/-- A hundred processes that can run, 99 of them queued. -/
def crowded : Kernel where
  sched := { (default : Sched) with
    list := fun i => i + 2
    tail := 99
    active := 1
    created := 100
    prevPid := 100
    pcbs := fun p => { (default : Pcb) with pid := p, status := .running } }
  stdin := Stdin.init
  ticks := 0
  archive := default

/-- One more fork, and nobody is queued. -/
theorem fork_empties_queue :
    ∃ k' ret, crowded.doFork 0 0 0 0 = some (k', ret) ∧ crowded.sched.queue.length = 99 ∧
      (∀ p ∈ crowded.sched.queue, (crowded.sched.pcbs p).status = .running) ∧
      ¬Sched.LosesNobody 101 crowded.sched k'.sched := by
  have hempty : (crowded.doFork 0 0 0 0).any (fun r => r.1.sched.queue = []) = true := by decide
  obtain ⟨⟨k', ret⟩, h, hnil⟩ := (Option.any_eq_true _ _).1 hempty
  rw [decide_eq_true_eq] at hnil
  refine ⟨k', ret, h, by decide, fun _ _ => rfl, ?_⟩
  rintro ⟨⟨hchild, -⟩ | hsame, -⟩
  · rw [hnil] at hchild
    cases hchild
  · have hlen := congrArg List.length (hnil.symm.trans hsame)
    exact absurd hlen (by decide)

end Kernel

namespace Sched
variable {s t : Sched} {x : Nat}
/-! ## No overtaking -/

/-- What may happen at the ring: a call that selects `r`, a new process, a status stored anywhere. -/
inductive Turn
  | getNextContext (r : Nat)
  | processRun (kernelStack pml4 pml4' : Word)
  | setStatus (p : Nat) (status : ProcessStatus)
deriving DecidableEq

def Takes (s : Sched) : Turn → Sched → Prop
  | .getNextContext r, t => (∃ fuel, s.getNextContext fuel = some t) ∧ t.active = r
  | .processRun kernelStack pml4 pml4', t =>
    t = (s.getForkedPcb kernelStack pml4 pml4' s.active).processRun (s.created + 1)
  | .setStatus p status, t => t = s.modify p fun c => { c with status := status }

/-- The ring never overflows, and holds or has active some process that can run. -/
def Fits (s : Sched) : Turn → Prop
  | .processRun .. => s.queue.length ≤ processQueueSize - 2
  | _ => ∃ p ∈ s.active :: s.queue, (s.pcbs p).runnable = true

/-- `x` is queued and can run. -/
def Waits (x : Nat) (s : Sched) : Prop := x ∈ s.queue ∧ (s.pcbs x).runnable = true

instance : Decidable (Waits x s) := inferInstanceAs (Decidable (_ ∧ _))

variable {turn : Turn} {ahead behind : List Nat}

theorem processRun_queue (h : RingInv s) (hroom : s.queue.length ≤ processQueueSize - 2)
    (kernelStack pml4 pml4' : Word) :
    ((s.getForkedPcb kernelStack pml4 pml4' s.active).processRun (s.created + 1)).queue =
      s.queue ++ [s.created + 1] := by
  have hlive : ((s.getForkedPcb kernelStack pml4 pml4' s.active).pcbs (s.created + 1)).status ≠ .finished := by
    rw [getForkedPcb_status]; decide
  refine queue_processRun (s := s.getForkedPcb kernelStack pml4 pml4' s.active) h.head_lt h.tail_lt ?_ hlive
  rw [show (s.getForkedPcb kernelStack pml4 pml4' s.active).queue = s.queue from rfl]
  simp only [processQueueSize] at hroom ⊢
  omega

theorem RingInv.takes (h : RingInv s) (hfit : Fits s turn) (hs : Takes s turn t) : RingInv t := by
  cases turn with
  | getNextContext r =>
    obtain ⟨p, hp, hr⟩ := hfit
    obtain ⟨⟨fuel, hs⟩, -⟩ := hs
    obtain ⟨pre, r, post, hq, -, -, hrot⟩ := getNextContext_rotated h.head_lt h.tail_lt h.pos hp hr hs
    exact h.rotated hq hrot
  | processRun kernelStack pml4 pml4' =>
    cases hs
    rw [getForkedPcb_eq s kernelStack pml4 pml4' h.active_le]
    have hroom : s.queue.length + 2 ≤ processQueueSize := by
      have hlen : s.queue.length ≤ processQueueSize - 2 := hfit
      simp only [processQueueSize] at *
      omega
    refine h.processRun hroom ?_ _
    rw [Function.update_self]
    simp [Pcb.forked, Pcb.copyPname, Pcb.copyWd]
  | setStatus p status =>
    cases hs
    exact ⟨h.head_lt, h.tail_lt, h.slots, h.pos, h.active_le, h.nodup⟩

/-- One step, while `x` waits with `ahead` in front of it: nobody gets in front of `x`, and whoever is selected
leaves from there. -/
theorem Takes.ahead_shrinks (h : RingInv s) (hfit : Fits s turn) (hs : Takes s turn t)
    (hq : s.queue = ahead ++ x :: behind) (hx : (s.pcbs x).runnable = true) (hx' : x ∈ t.queue) :
    ∃ ahead' behind', t.queue = ahead' ++ x :: behind' ∧ ahead'.Sublist ahead ∧
      ∀ r, turn = .getNextContext r → r ∈ ahead ∧ r ∉ ahead' := by
  cases turn with
  | getNextContext r =>
    obtain ⟨⟨fuel, hs⟩, hr⟩ := hs
    have hmem : x ∈ s.active :: s.queue := List.mem_cons_of_mem _ (by rw [hq]; simp)
    obtain ⟨pre, r', post, hreq, hpre, -, hrot⟩ := getNextContext_rotated h.head_lt h.tail_lt h.pos hmem hx hs
    obtain rfl : r' = r := hrot.active_eq.symm.trans hr
    have hinv := h.rotated hreq hrot
    have hne : r' ≠ x := by
      rintro rfl
      have hactive := (List.nodup_cons.1 hinv.nodup).1
      rw [hrot.active_eq] at hactive
      exact hactive hx'
    have hxpre : x ∉ pre := fun hm => by rw [hpre x hm] at hx; cases hx
    -- `r` is the first that can run, so it is no further back than `x`
    have hsplit : ∃ mid, ahead = pre ++ r' :: mid ∧ ∃ l, post = mid ++ x :: l := by
      rw [requeued, hq, List.append_assoc, List.cons_append] at hreq
      rcases List.append_eq_append_iff.1 hreq with ⟨mid, hp, hm⟩ | ⟨mid, hp, hm⟩
      · cases mid with
        | nil =>
          rw [List.nil_append] at hm
          exact absurd (List.cons.inj hm).1.symm hne
        | cons a mid =>
          rw [List.cons_append] at hm
          exact absurd (by rw [hp, (List.cons.inj hm).1]; simp) hxpre
      · cases mid with
        | nil =>
          rw [List.nil_append] at hm
          exact absurd (List.cons.inj hm).1 hne
        | cons a mid =>
          rw [List.cons_append] at hm
          obtain ⟨rfl, hpost⟩ := List.cons.inj hm
          exact ⟨mid, hp, _, hpost⟩
    obtain ⟨mid, rfl, l, rfl⟩ := hsplit
    refine ⟨mid, l ++ pre.filter fun p => (s.pcbs p).status ≠ .finished, ?_, ?_, ?_⟩
    · rw [hrot.queue_eq, List.append_assoc, List.cons_append]
    · exact ((List.sublist_cons_self _ _).trans (List.sublist_append_right _ _))
    · intro r hr
      cases hr
      have hnd := h.requeued_nodup
      rw [hreq] at hnd
      have hr' := (List.nodup_cons.1 (List.nodup_append.1 hnd).2.1).1
      exact ⟨by simp, fun hm => hr' (List.mem_append_left _ hm)⟩
  | processRun kernelStack pml4 pml4' =>
    cases hs
    refine ⟨ahead, behind ++ [s.created + 1], ?_, List.Sublist.refl _, fun r hr => ?_⟩
    · rw [processRun_queue h hfit, hq, List.append_assoc, List.cons_append]
    · cases hr
  | setStatus p status =>
    cases hs
    refine ⟨ahead, behind, hq, List.Sublist.refl _, fun r hr => ?_⟩
    cases hr

/-- **No overtaking**: in a run at every state of which `x` is queued and can run, `get_next_context` selects no
process twice. The run may start anywhere a run from a sound ring leads to. -/
theorem no_overtaking {s₀ : Sched} (h₀ : RingInv s₀) {before turns : List Turn}
    (hbefore : Run (Guarded Fits Takes) s₀ before s) (hx : Waits x s)
    (hrun : Run (fun u turn v => Guarded Fits Takes u turn v ∧ Waits x v) s turns t) (y : Nat) :
    turns.count (.getNextContext y) ≤ 1 := by
  have hs : RingInv s := hbefore.invariant RingInv h₀ fun _ _ _ hi hstep => hi.takes hstep.1 hstep.2
  -- nobody selected so far is in front of `x`
  have hinv := hrun.history (fun turns u => RingInv u ∧ (u.pcbs x).runnable = true ∧
    ∃ ahead behind, u.queue = ahead ++ x :: behind ∧
      ∀ y, turns.count (.getNextContext y) ≤ 1 ∧ (y ∈ ahead → turns.count (.getNextContext y) = 0))
    ?_ ?_
  · obtain ⟨_, _, _, _, _, hcount⟩ := hinv
    exact (hcount y).1
  · obtain ⟨ahead, behind, hq⟩ := List.append_of_mem hx.1
    exact ⟨hs, hx.2, ahead, behind, hq, fun y => by simp⟩
  · rintro turns u turn v ⟨hu, hxu, ahead, behind, hq, hcount⟩ ⟨⟨hfit, hstep⟩, hxv, hrv⟩
    obtain ⟨ahead', behind', hq', hsub, hsel⟩ := hstep.ahead_shrinks hu hfit hq hxu hxv
    refine ⟨hu.takes hfit hstep, hrv, ahead', behind', hq', fun y => ?_⟩
    rw [List.count_append]
    by_cases hy : turn = .getNextContext y
    · obtain ⟨hin, hout⟩ := hsel y hy
      rw [(hcount y).2 hin, hy, List.count_singleton_self]
      exact ⟨by omega, fun hm => absurd hm hout⟩
    · rw [List.count_singleton, beq_false_of_ne hy]
      exact ⟨(hcount y).1, fun hm => (hcount y).2 (hsub.subset hm)⟩

theorem wrapped_ringInv : RingInv wrapped where
  head_lt := by decide
  tail_lt := by decide
  slots i := by
    unfold wrapped
    dsimp only
    split <;> omega
  pos := by decide
  active_le := by decide
  nodup := by decide

/-- The second process made ready. -/
def readied : Sched := wrapped.modify 2 fun c => { c with status := .ready }

/-- The third process waits while the second becomes ready and is selected. -/
theorem no_overtaking_wrapped :
    ∃ t, Takes readied (.getNextContext 2) t ∧ Waits 3 t ∧
      [Turn.setStatus 2 .ready, .getNextContext 2].count (.getNextContext 2) ≤ 1 := by
  have hsome : (readied.getNextContext 1).any (fun t => t.active = 2 ∧ Waits 3 t) = true := by decide
  obtain ⟨t, ht, hok⟩ := (Option.any_eq_true _ _).1 hsome
  rw [decide_eq_true_eq] at hok
  obtain ⟨hactive, hwaits⟩ := hok
  have hready : Takes wrapped (.setStatus 2 .ready) readied := rfl
  have hnext : Takes readied (.getNextContext 2) t := ⟨⟨1, ht⟩, hactive⟩
  refine ⟨t, hnext, hwaits, no_overtaking wrapped_ringInv .nil (x := 3) (by decide) (t := t) ?_ 2⟩
  exact .cons ⟨⟨⟨3, by decide, by decide⟩, hready⟩, by decide⟩
    (.single ⟨⟨⟨2, by decide, by decide⟩, hnext⟩, hwaits⟩)

end Sched
end Sbuos
