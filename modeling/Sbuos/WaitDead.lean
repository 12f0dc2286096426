import Sbuos.Status
/-!
# Waiting on a dead process

An exit wakes the processes that wait for it at that moment, and nobody else: `do_waitpid` blocks without
looking whether its child is still alive. So a process waits on a dead one exactly through a `waitpid`
that comes too late.

**`no_wait_on_dead`**: while no `waitpid` names a finished process (and no fork finds the ring full), no
reachable state has a process waiting on a finished one.
-/
namespace Sbuos
open Lib

namespace Sched

/-- No process waits on a finished one. -/
def NoneWaitsOnDead (s : Sched) : Prop :=
  ∀ p q, 0 < p → p ≤ s.created → 0 < q → q ≤ s.created → (s.pcbs p).status = .waiting →
    (s.pcbs p).waitingOnPid = (s.pcbs q).pid → (s.pcbs q).status ≠ .finished

structure WaitInv (s : Sched) : Prop where
  queue : QueueInv s
  tidy : Tidy s
  alive : NoneWaitsOnDead s

end Sched

namespace Kernel
variable {k k' : Kernel} {e : Event}

/-- The process that makes the next call can run, and no process waits on a dead one. -/
structure Inv (k : Kernel) : Prop where
  wait : k.sched.WaitInv
  active_runs : k.activePcb.runnable = true

theorem Inv.sound (h : Inv k) : Sound k := ⟨⟨h.wait.queue, h.wait.tidy⟩, h.active_runs⟩

theorem Sound.inv (h : Sound k) (halive : k.sched.NoneWaitsOnDead) : Inv k :=
  ⟨⟨h.sched.queue, h.sched.tidy, halive⟩, h.active_runs⟩

/-- Who is FINISHED after a step was so before, or the step announces it. -/
theorem Effect.finished (h : Effect k e k') {q : Nat} (hq : 0 < q) (hle : q ≤ k'.sched.created)
    (hfin : (k'.sched.pcbs q).status = .finished) :
    q ≤ k.sched.created ∧ ((k.sched.pcbs q).status = .finished ∨
      ∃ status, k.Announces e (k.sched.pcbs q).pid status) := by
  by_cases hnew : k.sched.created < q
  · rw [h.child q hnew hle] at hfin
    cases hfin
  · refine ⟨Nat.not_lt.1 hnew, ?_⟩
    by_cases hqa : q = k.sched.active
    · subst hqa
      obtain ⟨status, rfl⟩ := h.self.finished hfin
      exact .inr ⟨status, rfl, rfl⟩
    · have ht := h.others q hq (Nat.not_lt.1 hnew) hqa
      generalize k'.sched.pcbs q = a at ht hfin
      cases ht with
      | kept => exact .inl hfin
      | killed ha => exact .inr ⟨_, ha⟩
      | told | stdin | alarm => cases hfin

/-- The condition: a `waitpid` names no process that is finished, and a fork finds room in the ring. -/
def InTime (k : Kernel) : Event → Prop
  | .waitpid pid _ => ∀ q, 0 < q → q ≤ k.sched.created →
      (k.sched.pcbs q).pid = (pid.setWidth 32).toInt → (k.sched.pcbs q).status ≠ .finished
  | .fork .. => k.sched.queue.length ≤ processQueueSize - 2
  | _ => True

/-- Who waits on a process after a step did so before, and the step does not announce its end; or it is
the active process, in `waitpid`. -/
theorem Effect.waits (h : Effect k e k') {p : Nat} (hp : 0 < p) (hle : p ≤ k'.sched.created)
    (hst : (k'.sched.pcbs p).status = .waiting) (hne : (k'.sched.pcbs p).waitingOnPid ≠ 0) :
    (p ≤ k.sched.created ∧ (k.sched.pcbs p).status = .waiting ∧
      (k'.sched.pcbs p).waitingOnPid = (k.sched.pcbs p).waitingOnPid ∧
      ∀ pid status, k.Announces e pid status → (k'.sched.pcbs p).waitingOnPid ≠ pid) ∨
    ∃ pid ret, e = .waitpid pid ret ∧ (k'.sched.pcbs p).waitingOnPid = (pid.setWidth 32).toInt := by
  by_cases hnew : k.sched.created < p
  · rw [h.child p hnew hle] at hst
    cases hst
  · by_cases hpa : p = k.sched.active
    · subst hpa
      exact .inr (h.self.waiting hst hne)
    · have ht := h.others p hp (Nat.not_lt.1 hnew) hpa
      generalize k'.sched.pcbs p = a at ht hst
      cases ht with
      | kept hno => exact .inl ⟨Nat.not_lt.1 hnew, hst, rfl, fun pid status ha => hno pid status ha hst⟩
      | killed | told | stdin | alarm => cases hst

theorem Inv.hasRoom (hg : InTime k e) : HasRoom k e := by
  cases e with
  | fork => exact hg
  | _ => trivial

/-- One step keeps the invariant. -/
theorem Inv.step (h : Inv k) (hg : InTime k e) (hs : Step k e k') : Inv k' := by
  have heff := h.sound.step (Inv.hasRoom hg) hs
  refine heff.sound.inv fun p q hp hple hq hqle hst hpq hfin => ?_
  have htidy := heff.sound.sched.tidy
  have hne : (k'.sched.pcbs p).waitingOnPid ≠ 0 := by rw [hpq, htidy.pid_eq q hq hqle]; omega
  obtain ⟨hqle', hdead⟩ := heff.finished hq hqle hfin
  have hpid : (k'.sched.pcbs q).pid = (k.sched.pcbs q).pid := by
    rw [htidy.pid_eq q hq hqle, h.wait.tidy.pid_eq q hq hqle']
  obtain ⟨hple', hst', hwait, hno⟩ | ⟨pid, ret, rfl, hwait⟩ := heff.waits hp hple hst hne
  · rcases hdead with hdead | ⟨status, ha⟩
    · exact h.wait.alive p q hp hple' hq hqle' hst' (hwait.symm.trans (hpq.trans hpid)) hdead
    · exact hno _ status ha (hpq.trans hpid)
  · -- the process named is not finished, so there is still an exit to come
    rcases hdead with hdead | ⟨status, ha⟩
    · exact hg q hq hqle' (hpid.symm.trans (hpq.symm.trans hwait)) hdead
    · exact ha

theorem Inv.boot {s : Sched} (h0 : s.created = 0) (idleStack idlePml4 shellStack shellPml4 : Word)
    (stdin : Stdin) (ticks : Word) (archive : Tarfs) :
    Inv (boot s idleStack idlePml4 shellStack shellPml4 stdin ticks archive) := by
  have hb := Sched.init_booted h0 idleStack idlePml4 shellStack shellPml4
  refine (Sound.boot h0 ..).inv fun p q _ _ hq hle _ _ => ?_
  exact Pcb.runnable_ne_finished (hb.runnable q hq (hb.created_eq ▸ hle))

/-- **No wait on the dead**: as long as no `waitpid` names a finished process and no fork finds the ring
full, no reachable state has a process WAITING on one that is FINISHED. -/
theorem no_wait_on_dead {s : Sched} (h0 : s.created = 0) {idleStack idlePml4 shellStack shellPml4 : Word}
    {stdin : Stdin} {ticks : Word} {archive : Tarfs} {events : List Event}
    (hrun : Run (Guarded InTime Step) (boot s idleStack idlePml4 shellStack shellPml4 stdin ticks archive)
      events k) :
    ∀ p q, 0 < p → p ≤ k.sched.created → 0 < q → q ≤ k.sched.created →
      (k.sched.pcbs p).status = .waiting → (k.sched.pcbs p).waitingOnPid = (k.sched.pcbs q).pid →
      (k.sched.pcbs q).status ≠ .finished :=
  (hrun.invariant Inv (Inv.boot h0 ..) fun _ _ _ hi hs => hi.step hs.1 hs.2).wait.alive

instance (k : Kernel) : (e : Event) → Decidable (InTime k e)
  | .waitpid pid _ => decidable_of_iff (∀ q < k.sched.created + 1, 0 < q →
      (k.sched.pcbs q).pid = (pid.setWidth 32).toInt → (k.sched.pcbs q).status ≠ .finished)
      ⟨fun h q h0 hle => h q (Nat.lt_succ_of_le hle) h0, fun h q hlt h0 => h q h0 (Nat.le_of_lt_succ hlt)⟩
  | .fork .. => inferInstanceAs (Decidable (k.sched.queue.length ≤ processQueueSize - 2))
  | .exit _ | .kill .. | .alarm _ | .read .. | .yield | .exec .. | .start _ | .key _ | .tick => .isTrue trivial

/-- The shell forks and waits at once: its child is alive. -/
theorem no_wait_on_dead_shell :
    ∃ k, Run (Guarded InTime Step) (boot default 0 0 0 0 Stdin.init 0 default)
        [.yield, .start 0, .fork 0 0 0, .waitpid 3 0] k ∧
      (k.sched.pcbs 2).status = .waiting ∧ (k.sched.pcbs 2).waitingOnPid = (k.sched.pcbs 3).pid ∧
      (k.sched.pcbs 3).status ≠ .finished := by
  have hexec : ((runAll (fun e k => if InTime k e then handle 3 0 e k else none)
      [.yield, .start 0, .fork 0 0 0, .waitpid 3 0] (boot default 0 0 0 0 Stdin.init 0 default)).any fun k =>
        k.sched.created = 3 ∧ (k.sched.pcbs 2).status = .waiting ∧
          (k.sched.pcbs 2).waitingOnPid = (k.sched.pcbs 3).pid) = true := by decide +kernel
  obtain ⟨k, hk, hst⟩ := (Option.any_eq_true _ _).1 hexec
  simp only [decide_eq_true_eq] at hst
  have hrun : Run (Guarded InTime Step) (boot default 0 0 0 0 Stdin.init 0 default)
      [.yield, .start 0, .fork 0 0 0, .waitpid 3 0] k := .of_runAll_guarded (fun _ _ _ h => ⟨3, 0, h⟩) hk
  obtain ⟨hc, hw, hpid⟩ := hst
  exact ⟨k, hrun, hw, hpid, no_wait_on_dead rfl hrun 2 3 (by decide) (by omega) (by decide) (by omega) hw hpid⟩

/-- The child runs to its exit before the shell reaches `waitpid`, and the shell waits forever. -/
theorem no_wait_on_dead_late :
    ∃ k, Run Step (boot default 0 0 0 0 Stdin.init 0 default)
        [.yield, .start 0, .fork 0 0 0, .yield, .yield, .exit 0, .waitpid 3 0] k ∧ k.sched.created = 3 ∧
      (k.sched.pcbs 2).status = .waiting ∧ (k.sched.pcbs 2).waitingOnPid = (k.sched.pcbs 3).pid ∧
      (k.sched.pcbs 3).status = .finished := by
  have hexec : ((runAll (handle 3 0) [.yield, .start 0, .fork 0 0 0, .yield, .yield, .exit 0, .waitpid 3 0]
      (boot default 0 0 0 0 Stdin.init 0 default)).any fun k =>
        k.sched.created = 3 ∧ (k.sched.pcbs 2).status = .waiting ∧
          (k.sched.pcbs 2).waitingOnPid = (k.sched.pcbs 3).pid ∧ (k.sched.pcbs 3).status = .finished) =
      true := by decide +kernel
  obtain ⟨k, hk, hst⟩ := (Option.any_eq_true _ _).1 hexec
  exact ⟨k, .of_runAll (fun _ _ _ h => ⟨3, 0, h⟩) hk, by simpa using hst⟩

end Kernel
end Sbuos
