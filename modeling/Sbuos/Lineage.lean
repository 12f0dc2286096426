import Sbuos.RingOverflow
import Sbuos.TimeSlice
import Sbuos.Switching
/-!
# What a process keeps (sys/process_helpers.c:123-187, :240-277, sys/systemcall.c:141-148, :193-199)

A fork gives its child a pid that no one had, and the caller for a parent. Nothing takes a pid, a parent or a PML4
back, nor brings a process back that finished. So the processes of a run are one family, with the idle process and the
shell at its root: **`lineage`**.
-/
namespace Sbuos
open Lib

namespace Sched
variable {s t u : Sched} {p : Nat}

/-- The same processes, and none of them is back that finished. -/
structure Keeps (s t : Sched) : Prop extends SameProcesses s t where
  finished : ∀ p, (s.pcbs p).status = .finished → (t.pcbs p).status = .finished

namespace Keeps

theorem refl (s : Sched) : Keeps s s := ⟨.refl s, fun _ => id⟩

theorem trans (h : Keeps s t) (h' : Keeps t u) : Keeps s u :=
  ⟨h.toSameProcesses.trans h'.toSameProcesses, fun p hf => h'.finished p (h.finished p hf)⟩

theorem modify {f : Pcb → Pcb} (hident : (f (s.pcbs p)).ident = (s.pcbs p).ident)
    (hfin : (s.pcbs p).status = .finished → (f (s.pcbs p)).status = .finished) : Keeps s (s.modify p f) := by
  refine ⟨.modify p hident, fun q hf => ?_⟩
  rw [modify_pcbs_apply]
  split
  case isTrue h =>
    subst h
    exact hfin hf
  case isFalse => exact hf

/-- Those a notifier makes RUNNING were WAITING. -/
theorem notify {waits : Pcb → Bool} {clear : Pcb → Pcb} (hclear : ∀ q, (clear q).ident = q.ident) :
    Keeps s (s.notify waits clear) := by
  refine ⟨.notify hclear, fun q hf => ?_⟩
  rw [notify_pcbs_apply, if_neg (by simp [hf])]
  exact hf

theorem schedule {fuel : Nat} {rsp : Word} (h : s.schedule fuel rsp = some t) : Keeps s t := by
  have hstored : Keeps s (s.modify s.active fun p => { p with kernelSp := rsp }) := .modify rfl id
  refine ⟨(schedule_loads h).1, fun q hf => ?_⟩
  rw [getNextContext_pcbs h]
  exact hstored.finished q hf

theorem timeSlice (n : Int) : Keeps s { s with timeSlice := n } := ⟨⟨fun _ => rfl, rfl⟩, fun _ => id⟩

theorem preempt {fuel : Nat} {rsp : Word} (h : s.preempt fuel rsp = some t) : Keeps s t := by
  unfold Sched.preempt at h
  dsimp only at h
  split at h
  · exact (timeSlice 0).trans (.schedule h)
  · cases h
    exact timeSlice _

theorem exits (pid : Int) (status : Word) (v : Nat) : Keeps s ((s.modify v Pcb.exits).notifyExitPid pid status) := by
  have hexit : Keeps s (s.modify v Pcb.exits) := .modify rfl fun _ => rfl
  exact hexit.trans (.notify fun _ => rfl)

end Keeps

/-- Whoever there was has kept pid, parent and PML4, and is finished if he was. -/
structure Later (s t : Sched) : Prop where
  created : s.created ≤ t.created
  ident : ∀ p, p ≤ s.created → (t.pcbs p).ident = (s.pcbs p).ident
  finished : ∀ p, p ≤ s.created → (s.pcbs p).status = .finished → (t.pcbs p).status = .finished

namespace Later

theorem refl (s : Sched) : Later s s := ⟨Nat.le_refl _, fun _ _ => rfl, fun _ _ => id⟩

theorem trans (h : Later s t) (h' : Later t u) : Later s u where
  created := Nat.le_trans h.created h'.created
  ident p hp := (h'.ident p (Nat.le_trans hp h.created)).trans (h.ident p hp)
  finished p hp hf := h'.finished p (Nat.le_trans hp h.created) (h.finished p hp hf)

end Later

theorem Keeps.later (h : Keeps s t) : Later s t :=
  ⟨Nat.le_of_eq h.created.symm, fun p _ => h.ident p, fun p _ => h.finished p⟩

/-- The two first processes have no parent, and that of another is one from before it. -/
structure Family (s : Sched) : Prop where
  two : 2 ≤ s.created
  roots : (s.pcbs 1).ppid = 0 ∧ (s.pcbs 2).ppid = 0
  parent : ∀ p, 2 < p → p ≤ s.created → 0 < (s.pcbs p).ppid ∧ (s.pcbs p).ppid < p

namespace Family

theorem init (h0 : s.created = 0) (idleStack idlePml4 shellStack shellPml4 : Word) :
    Family (s.processInit.init idleStack idlePml4 shellStack shellPml4) := by
  have hcreated := (init_booted h0 idleStack idlePml4 shellStack shellPml4).created_eq
  refine ⟨Nat.le_of_eq hcreated.symm, ?_, fun p hp hle => by omega⟩
  constructor <;>
    simp [Sched.init, processInit, getNewPcb, enqueueProcess, Sched.modify, h0, Pcb.fresh, Pcb.copyPname, Pcb.copyWd]

theorem keeps (h : Family s) (hk : Keeps s t) : Family t where
  two := hk.created ▸ h.two
  roots := ⟨(hk.ppid 1).trans h.roots.1, (hk.ppid 2).trans h.roots.2⟩
  parent p hp hle := by
    rw [hk.ppid p]
    exact h.parent p hp (hk.created ▸ hle)

/-- A parent is no process of its own making. -/
theorem ppid_lt (h : Family s) (hp : 0 < p) (hle : p ≤ s.created) : 0 ≤ (s.pcbs p).ppid ∧ (s.pcbs p).ppid < p := by
  obtain rfl | rfl | hlt : p = 1 ∨ p = 2 ∨ 2 < p := by omega
  · rw [h.roots.1]
    decide
  · rw [h.roots.2]
    decide
  · obtain ⟨hpos, hlt⟩ := h.parent p hlt hle
    exact ⟨Int.le_of_lt hpos, hlt⟩

end Family
end Sched

namespace Kernel
variable {k k' : Kernel} {e : Event} {es later : List Event} {p : Nat} {fuel : Nat} {rsp : Word}

open Sched (Keeps Later Family)

theorem keeps_of_schedule {s : Sched} (h : Keeps k.sched s) (hs : (s.schedule fuel rsp).map k.withSched = some k') :
    Keeps k.sched k'.sched := by
  obtain ⟨t, ht, rfl⟩ := Option.map_eq_some_iff.1 hs
  exact h.trans (.schedule ht)

namespace Scattered

/-- The active process has not finished, so a call that stores in its pcb brings no one back. -/
theorem keeps_modify (h : Scattered k) {f : Pcb → Pcb} (hf : (f k.activePcb).ident = k.activePcb.ident) :
    Keeps k.sched (k.sched.modify k.sched.active f) :=
  .modify hf fun hfin => absurd hfin (Pcb.runnable_ne_finished h.active_runs)

theorem keeps_blockWith (h : Scattered k) {f : Pcb → Pcb} (hf : (f k.activePcb).ident = k.activePcb.ident)
    (hs : k.blockWith f fuel rsp = some k') : Keeps k.sched k'.sched :=
  keeps_of_schedule (h.keeps_modify hf) hs

/-- A step is a fork, or it keeps the processes. -/
theorem step_cases (h : Scattered k) (hs : Step k e k') : Keeps k.sched k'.sched ∨ ∃ pml4, Forks k pml4 k' := by
  obtain ⟨fuel, rsp, hs⟩ := hs
  cases e with
  | fork =>
    obtain ⟨⟨_, r⟩, hfork, rfl⟩ := Option.map_eq_some_iff.1 hs
    exact .inr ⟨_, doFork_forks h.sched.active_le hfork⟩
  | exit status => exact .inl (keeps_of_schedule (.exits ..) hs)
  | kill pid sig =>
    cases hs
    left
    obtain hnone | ⟨v, -, -, -, hsome⟩ := doKill_cases h.tidy h.queue_created pid sig
    · rw [hnone]
      exact .refl _
    · rw [hsome]
      exact .exits ..
  | waitpid | alarm | exec => exact .inl (h.keeps_blockWith rfl hs)
  | read fd size buffer =>
    left
    obtain ⟨-, -, c, -, rfl⟩ | ⟨-, -, hblock⟩ | ⟨-, i, r, -, rfl⟩ := doRead_cases hs
    · exact .refl _
    · exact h.keeps_blockWith rfl hblock
    · exact h.keeps_modify rfl
  | yield => exact .inl (keeps_of_schedule (.refl _) hs)
  | start ip =>
    obtain ⟨-, rfl⟩ := kThreadKernel_eq_some hs
    exact .inl (h.keeps_modify rfl)
  | key c =>
    obtain ⟨r, -, hs⟩ := Option.bind_eq_some_iff.1 hs
    cases hs
    left
    have hnotify : Keeps k.sched k.sched.notifyStdin := .notify fun _ => rfl
    split
    · exact hnotify
    · exact .refl _
  | tick =>
    obtain ⟨t, ht, rfl⟩ := Option.map_eq_some_iff.1 hs
    left
    split at ht
    · have hnotify : Keeps k.sched (k.sched.notifyAlarm (k.ticks + 1)) := .notify fun _ => rfl
      exact hnotify.trans (.preempt ht)
    · exact .preempt ht

theorem later_step (h : Scattered k) (hs : Step k e k') : Later k.sched k'.sched := by
  obtain hkeeps | ⟨pml4, hforks⟩ := h.step_cases hs
  · exact hkeeps.later
  · exact ⟨hforks.created ▸ Nat.le_succ _, fun p hp => by rw [hforks.old p hp],
      fun p hp hf => by rw [hforks.old p hp, hf]⟩

theorem later_run (h : Scattered k) (hrun : Run Step k later k') : Scattered k' ∧ Later k.sched k'.sched := by
  refine hrun.invariant (fun t => Scattered t ∧ Later k.sched t.sched) ⟨h, .refl _⟩ ?_
  rintro t e u ⟨ht, hlater⟩ hs
  exact ⟨ht.step hs, hlater.trans (ht.later_step hs)⟩

/-- The child's parent is the caller, who has a smaller pid. -/
theorem family_step (h : Scattered k) (hf : k.sched.Family) (hs : Step k e k') : k'.sched.Family := by
  obtain hkeeps | ⟨pml4, hforks⟩ := h.step_cases hs
  · exact hf.keeps hkeeps
  · have hold : ∀ p, p ≤ k.sched.created → (k'.sched.pcbs p).ppid = (k.sched.pcbs p).ppid := fun p hp => by
      rw [hforks.old p hp]
    have hppid : (k'.sched.pcbs (k.sched.created + 1)).ppid = k.activePcb.pid :=
      congrArg (fun i => i.2.1) hforks.child
    have htwo := hf.two
    refine ⟨by rw [hforks.created]; omega, ?_, fun p hp hle => ?_⟩
    · rw [hold 1 (by omega), hold 2 htwo]
      exact hf.roots
    · rw [hforks.created] at hle
      by_cases hnew : p = k.sched.created + 1
      · subst hnew
        have hpid : k.activePcb.pid = k.sched.active := h.tidy.pid_eq _ h.active_pos h.sched.active_le
        have hpos := h.active_pos
        have hle := h.sched.active_le
        rw [hppid, hpid]
        omega
      · rw [hold p (by omega)]
        exact hf.parent p hp (by omega)

end Scattered

theorem family_boot {s : Sched} (h0 : s.created = 0) {idleStack idlePml4 shellStack shellPml4 : Word}
    {stdin : Stdin} {ticks : Word} {archive : Tarfs}
    (hrun : Run Step (boot s idleStack idlePml4 shellStack shellPml4 stdin ticks archive) es k) : k.sched.Family := by
  have hinv := hrun.invariant (fun t => Scattered t ∧ t.sched.Family)
    ⟨scattered_boot h0 .nil, .init h0 idleStack idlePml4 shellStack shellPml4⟩ ?_
  · exact hinv.2
  · rintro t e u ⟨ht, hf⟩ hs
    exact ⟨ht.step hs, ht.family_step hf hs⟩

/-- **The family**: in every state of every run from `init`, the parents of the processes are processes from before
them, up to the first two, which have none. From then on, whatever comes, each keeps its pid, its parent and its PML4,
and one that has finished stays so and does not run again. -/
theorem lineage {s : Sched} (h0 : s.created = 0) {idleStack idlePml4 shellStack shellPml4 : Word}
    {stdin : Stdin} {ticks : Word} {archive : Tarfs}
    (hrun : Run Step (boot s idleStack idlePml4 shellStack shellPml4 stdin ticks archive) es k)
    (hlater : Run Step k later k') (hp : 0 < p) (hle : p ≤ k.sched.created) :
    (k'.sched.pcbs p).pid = p ∧ (k'.sched.pcbs p).ppid = (k.sched.pcbs p).ppid ∧
      (k'.sched.pcbs p).pml4 = (k.sched.pcbs p).pml4 ∧ ((k.sched.pcbs p).ppid = 0 ↔ p = 1 ∨ p = 2) ∧
      0 ≤ (k.sched.pcbs p).ppid ∧ (k.sched.pcbs p).ppid < p ∧
      ((k.sched.pcbs p).status = .finished → (k'.sched.pcbs p).status = .finished ∧ k'.sched.active ≠ p) := by
  have h := scattered_boot h0 hrun
  have hf := family_boot h0 hrun
  obtain ⟨h', hkept⟩ := h.later_run hlater
  obtain ⟨hnonneg, hlt⟩ := hf.ppid_lt hp hle
  have hident := hkept.ident p hle
  refine ⟨?_, congrArg (fun i => i.2.1) hident, congrArg (fun i => i.2.2) hident, ⟨fun hnone => ?_, ?_⟩, hnonneg, hlt,
    fun hfin => ?_⟩
  · exact (congrArg Prod.fst hident).trans (h.tidy.pid_eq p hp hle)
  · by_contra hother
    have hpos := (hf.parent p (by omega) hle).1
    omega
  · rintro (rfl | rfl)
    · exact hf.roots.1
    · exact hf.roots.2
  · have hfin' := hkept.finished p hle hfin
    refine ⟨hfin', ?_⟩
    rintro rfl
    exact Pcb.runnable_ne_finished h'.active_runs hfin'

/-- The shell's child exits, and then the shell forks again. -/
theorem lineage_shell : ∃ k₁ k₂,
    Run Step (boot default 0 0 0 0 Stdin.init 0 default) [.yield, .start 0, .fork 0 0 0, .waitpid 3 0, .yield, .exit 7]
      k₁ ∧
      Run Step k₁ [.yield, .yield, .fork 0 0 0, .yield] k₂ ∧ (k₁.sched.pcbs 3).ppid = 2 ∧
      (k₁.sched.pcbs 3).status = .finished ∧ k₂.sched.created = 4 ∧ (k₂.sched.pcbs 3).pid = 3 ∧
      (k₂.sched.pcbs 3).ppid = 2 ∧ (k₂.sched.pcbs 3).status = .finished ∧ k₂.sched.active ≠ 3 := by
  have hexec : ((runAll (handle 3 0) [.yield, .start 0, .fork 0 0 0, .waitpid 3 0, .yield, .exit 7]
      (boot default 0 0 0 0 Stdin.init 0 default)).any fun k =>
        k.sched.created = 3 ∧ (k.sched.pcbs 3).ppid = 2 ∧ (k.sched.pcbs 3).status = .finished ∧
          (runAll (handle 3 0) [.yield, .yield, .fork 0 0 0, .yield] k).any fun k' => k'.sched.created = 4) = true := by
    decide +kernel
  obtain ⟨k₁, hk₁, hst⟩ := (Option.any_eq_true _ _).1 hexec
  simp only [decide_eq_true_eq] at hst
  obtain ⟨hcreated, hppid, hfin, hlater⟩ := hst
  obtain ⟨k₂, hk₂, hfour⟩ := (Option.any_eq_true _ _).1 hlater
  have hrun : Run Step (boot default 0 0 0 0 Stdin.init 0 default)
      [.yield, .start 0, .fork 0 0 0, .waitpid 3 0, .yield, .exit 7] k₁ := .of_runAll (fun _ _ _ h => ⟨3, 0, h⟩) hk₁
  have hrun₂ : Run Step k₁ [.yield, .yield, .fork 0 0 0, .yield] k₂ := .of_runAll (fun _ _ _ h => ⟨3, 0, h⟩) hk₂
  obtain ⟨hpid, hsame, -, -, -, -, hstays⟩ := lineage rfl hrun hrun₂ (show 0 < 3 by decide) (Nat.le_of_eq hcreated.symm)
  exact ⟨k₁, k₂, hrun, hrun₂, hppid, hfin, of_decide_eq_true hfour, hpid, hsame.trans hppid, hstays hfin⟩

end Kernel
end Sbuos
