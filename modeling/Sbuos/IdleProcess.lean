import Sbuos.Status
/-!
# The system idle process (sys/process_helpers.c:201-205, 240-266)

`get_next_context` ends because `init` leaves a process that never blocks: pcb 1, whose only code is a loop
around `schedule()`. No call of another process changes its status, except a `kill` of pid 1 and a fork that
finds the ring full, which loses every queued entry.

**`idle_process_runs`**: in a run without these two, the idle process is RUNNING, and active or queued, and
every call that reaches `get_next_context` gets a process that can run.
-/
namespace Sbuos
open Lib

namespace Kernel
variable {k k' : Kernel} {e : Event} {fuel : Nat} {rsp : Word}

/-- The idle process makes no system call: while it is active it calls `schedule` or is interrupted. -/
def ByUser (k : Kernel) (e : Event) : Prop := k.sched.active = 1 → Idles e

/-- The event is no kill of the idle process, and no fork that finds the ring full. -/
def SparesIdle (k : Kernel) : Event → Prop
  | .kill pid _ => pid ≠ 1
  | .fork .. => k.sched.queue.length ≤ processQueueSize - 2
  | _ => True

/-- The event reaches `get_next_context`. -/
def Schedules (k : Kernel) : Event → Prop
  | .exit _ | .waitpid .. | .alarm _ | .yield | .exec .. => True
  | .read fd _ _ => ReadsStdin k.activePcb fd ∧ k.stdin.bufferIsReady = false
  | .tick => k.sched.timeSlice + 1 > 16
  | .fork .. | .kill .. | .start _ | .key _ => False

/-- The idle process can run. -/
structure IdleRuns (k : Kernel) : Prop where
  sound : Sound k
  created_pos : 1 ≤ k.sched.created
  running : (k.sched.pcbs 1).status = .running

theorem SparesIdle.hasRoom (h : SparesIdle k e) : HasRoom k e := by
  cases e with
  | fork => exact h
  | _ => trivial

namespace IdleRuns

theorem boot {s : Sched} (h0 : s.created = 0) (idleStack idlePml4 shellStack shellPml4 : Word)
    (stdin : Stdin) (ticks : Word) (archive : Tarfs) :
    IdleRuns (boot s idleStack idlePml4 shellStack shellPml4 stdin ticks archive) where
  sound := .boot h0 ..
  created_pos := by
    have hb := Sched.init_booted h0 idleStack idlePml4 shellStack shellPml4
    rw [Kernel.boot, hb.created_eq]
    decide
  running := by
    simp [Kernel.boot, Sched.processInit, Sched.init, Sched.getNewPcb, Sched.modify, h0]

theorem runnable (h : IdleRuns k) : (k.sched.pcbs 1).runnable = true := by
  rw [Pcb.runnable, h.running]
  rfl

/-- One step leaves the idle process running. -/
theorem step (h : IdleRuns k) (hu : ByUser k e) (hg : SparesIdle k e) (hs : Step k e k') : IdleRuns k' := by
  have heff := h.sound.step hg.hasRoom hs
  refine ⟨heff.sound, Nat.le_trans h.created_pos heff.created_le, ?_⟩
  by_cases hact : k.sched.active = 1
  · have hself := heff.self.idles (hu hact)
    rw [hact] at hself
    rw [hself, activePcb, hact, h.running]
  · have hidle := heff.others 1 (by decide) h.created_pos (Ne.symm hact)
    generalize k'.sched.pcbs 1 = a at hidle
    cases hidle with
    | kept => exact h.running
    | killed =>
      -- its pid is 1, and the event is no kill of it
      refine absurd ?_ hg
      rw [h.sound.sched.tidy.pid_eq 1 (by decide) h.created_pos]
      rfl
    | told | stdin | alarm => rfl

/-- A call that blocks the active process leaves the idle one to run. -/
theorem blockWith_returns (h : IdleRuns k) (hne : k.sched.active ≠ 1) {f : Pcb → Pcb}
    (hpid : (f k.activePcb).pid = k.activePcb.pid) (hsane : (f k.activePcb).Sane) (rsp : Word) :
    ∃ fuel k', k.blockWith f fuel rsp = some k' := by
  have hstored : (k.sched.modify k.sched.active f).Sound := h.sound.sched.modify_active hpid hsane
  obtain ⟨fuel, t, ht⟩ := hstored.schedule_returns (p := 1) (by decide) h.created_pos
    (by rw [Sched.modify_pcbs_of_ne _ _ _ (Ne.symm hne)]; exact h.runnable) rsp
  exact ⟨fuel, k.withSched t, by rw [blockWith, ht]; rfl⟩

/-- Whatever reaches `get_next_context` returns from it. -/
theorem returns (h : IdleRuns k) (hu : ByUser k e) (hs : k.Schedules e) (rsp : Word) :
    ∃ fuel k', k.handle fuel rsp e = some k' := by
  have hidle := h.sound.idle
  cases e with
  | fork | kill | start | key => exact hs.elim
  | exit status =>
    have hne : k.sched.active ≠ 1 := fun ha => hu ha
    have hfin := h.sound.sched.finish h.sound.sched.active_pos h.sound.sched.queue.active_le status
    have hrun : (((k.sched.modify k.sched.active Pcb.exits).notifyExitPid k.activePcb.pid status).pcbs 1).runnable =
        true := by
      rw [Sched.notifyExitPid, Sched.notify_pcbs_apply, Sched.modify_pcbs_of_ne _ _ _ (Ne.symm hne)]
      split
      · rfl
      · exact h.runnable
    obtain ⟨fuel, t, ht⟩ := hfin.schedule_returns (p := 1) (by decide) h.created_pos hrun rsp
    exact ⟨fuel, k.withSched t, congrArg (Option.map k.withSched) ht⟩
  | waitpid pid ret => exact h.blockWith_returns (fun ha => hu ha) rfl (hidle.blocksOnPid_sane ..) rsp
  | alarm seconds => exact h.blockWith_returns (fun ha => hu ha) rfl (hidle.blocksOnClock_sane _) rsp
  | exec abspath userSp => exact h.blockWith_returns (fun ha => hu ha) rfl (hidle.execs_sane ..) rsp
  | read fd size buffer =>
    obtain ⟨⟨hfd, hstart⟩, hready⟩ := hs
    obtain ⟨fuel, k', hk⟩ := h.blockWith_returns (fun ha => hu ha) rfl hidle.blocksOnStdin_sane rsp
    refine ⟨fuel, k', ?_⟩
    simp [handle, doRead, hfd, hstart, hready, hk]
  | yield =>
    obtain ⟨fuel, t, ht⟩ := h.sound.sched.schedule_returns (p := 1) (by decide) h.created_pos h.runnable rsp
    exact ⟨fuel, k.withSched t, congrArg (Option.map k.withSched) ht⟩
  | tick =>
    -- the notifier leaves the idle process as it is, and the slice is over
    obtain ⟨s, hsound, hc, hslice, hrun, htimer⟩ : ∃ s : Sched, s.Sound ∧ s.created = k.sched.created ∧
        s.timeSlice = k.sched.timeSlice ∧ (s.pcbs 1).runnable = true ∧
        ∀ fuel, k.timer fuel rsp = (s.preempt fuel rsp).map (withSched { k with ticks := k.ticks + 1 }) := by
      by_cases hdue : (k.ticks + 1) % alarmTickDivide = 1
      · refine ⟨_, h.sound.sched.notify (h.sound.sched.tidy.notifyAlarm (k.ticks + 1)), rfl, rfl, ?_, fun fuel => ?_⟩
        · rw [Sched.notify_pcbs_apply]
          split
          · rfl
          · exact h.runnable
        · simp only [timer, if_pos hdue]
          rfl
      · refine ⟨_, h.sound.sched, rfl, rfl, h.runnable, fun fuel => ?_⟩
        simp only [timer, if_neg hdue]
    obtain ⟨fuel, t, ht⟩ := (hsound.withTimeSlice 0).schedule_returns (p := 1) (by decide)
      (show 1 ≤ s.created by rw [hc]; exact h.created_pos) hrun rsp
    refine ⟨fuel, withSched { k with ticks := k.ticks + 1 } t, ?_⟩
    change k.timer fuel rsp = _
    have hover : s.timeSlice + 1 > 16 := by rw [hslice]; exact hs
    rw [htimer, Sched.preempt]
    dsimp only
    rw [if_pos hover, ht]
    rfl

end IdleRuns

/-- **Someone can always run**: in every state of a run whose user processes neither kill pid 1 nor fork
while the ring is full, the idle process is RUNNING and is active or queued, and whatever next reaches
`get_next_context` returns from it with a process that can run. -/
theorem idle_process_runs {s : Sched} (h0 : s.created = 0) {idleStack idlePml4 shellStack shellPml4 : Word}
    {stdin : Stdin} {ticks : Word} {archive : Tarfs} {events : List Event}
    (hrun : Run (Guarded SparesIdle (Guarded ByUser Step))
      (boot s idleStack idlePml4 shellStack shellPml4 stdin ticks archive) events k) :
    (k.sched.pcbs 1).status = .running ∧ (k.sched.active = 1 ∨ 1 ∈ k.sched.queue) ∧
      ∀ e, k.ByUser e → k.Schedules e → ∀ rsp, ∃ fuel k', k.handle fuel rsp e = some k' ∧
        k'.activePcb.runnable = true := by
  have hidle : IdleRuns k := hrun.invariant IdleRuns (.boot h0 ..) fun _ _ _ hi hs => hi.step hs.2.1 hs.1 hs.2.2
  refine ⟨hidle.running, ?_, fun e hu hs rsp => ?_⟩
  · by_cases hact : k.sched.active = 1
    · exact .inl hact
    · refine .inr (hidle.sound.sched.queue.live_mem_queue (by decide) hidle.created_pos ?_ (Ne.symm hact))
      rw [hidle.running]
      decide
  · obtain ⟨fuel, k', hk⟩ := hidle.returns hu hs rsp
    have hroom : HasRoom k e := by
      cases e with
      | fork => exact hs.elim
      | _ => trivial
    exact ⟨fuel, k', hk, (hidle.sound.step hroom ⟨fuel, rsp, hk⟩).sound.active_runs⟩

instance (k : Kernel) : (e : Event) → Decidable (SparesIdle k e)
  | .kill pid _ => inferInstanceAs (Decidable (pid ≠ 1))
  | .fork .. => inferInstanceAs (Decidable (k.sched.queue.length ≤ processQueueSize - 2))
  | .exit _ | .waitpid .. | .alarm _ | .read .. | .yield | .exec .. | .start _ | .key _ | .tick => .isTrue trivial

instance : (e : Event) → Decidable (Idles e)
  | .yield | .key _ | .tick => .isTrue trivial
  | .exit _ | .waitpid .. | .alarm _ | .read .. | .fork .. | .exec .. | .start _ | .kill .. => .isFalse id

instance (k : Kernel) : (e : Event) → Decidable (HasRoom k e)
  | .fork .. => inferInstanceAs (Decidable (k.sched.queue.length ≤ processQueueSize - 2))
  | .kill .. | .exit _ | .waitpid .. | .alarm _ | .read .. | .yield | .exec .. | .start _ | .key _ | .tick =>
    .isTrue trivial

instance (k : Kernel) (e : Event) : Decidable (ByUser k e) :=
  inferInstanceAs (Decidable (k.sched.active = 1 → Idles e))

/-- The shell kills its child and waits for a process that never was: the idle process takes over. -/
theorem idle_process_runs_shell :
    ∃ k, Run (Guarded SparesIdle (Guarded ByUser Step)) (boot default 0 0 0 0 Stdin.init 0 default)
        [.yield, .start 0, .fork 0 0 0, .kill 3 9, .waitpid 7 0] k ∧ k.sched.active = 1 ∧
      (k.sched.pcbs 1).status = .running := by
  have hexec : ((runAll (fun e k => if SparesIdle k e ∧ ByUser k e then handle 3 0 e k else none)
      [.yield, .start 0, .fork 0 0 0, .kill 3 9, .waitpid 7 0]
      (boot default 0 0 0 0 Stdin.init 0 default)).any fun k => k.sched.active = 1) = true := by decide +kernel
  obtain ⟨k, hk, hact⟩ := (Option.any_eq_true _ _).1 hexec
  have hrun : Run (Guarded SparesIdle (Guarded ByUser Step)) (boot default 0 0 0 0 Stdin.init 0 default)
      [.yield, .start 0, .fork 0 0 0, .kill 3 9, .waitpid 7 0] k :=
    (Run.of_runAll_guarded (fun _ _ _ h => ⟨3, 0, h⟩) hk).mono fun _ _ _ ⟨hg, hs⟩ => ⟨hg.1, hg.2, hs⟩
  obtain ⟨hst, -⟩ := idle_process_runs rfl hrun
  exact ⟨k, hrun, of_decide_eq_true hact, hst⟩

/-- The shell kills pid 1 and waits: no amount of scanning finds a process to run. -/
theorem idle_process_killed :
    ∃ k, Run (Guarded ByUser Step) (boot default 0 0 0 0 Stdin.init 0 default)
        [.yield, .start 0, .kill 1 9] k ∧ k.sched.active = 2 ∧ (k.sched.pcbs 1).status = .finished ∧
      ∀ fuel rsp, k.handle fuel rsp (.waitpid 7 0) = none := by
  have hexec : ((runAll (fun e k => if ByUser k e ∧ HasRoom k e then handle 3 0 e k else none)
      [.yield, .start 0, .kill 1 9] (boot default 0 0 0 0 Stdin.init 0 default)).any fun k =>
        k.sched.created = 2 ∧ k.sched.active = 2 ∧ (k.sched.pcbs 1).status = .finished) = true := by
    decide +kernel
  obtain ⟨k, hk, hst⟩ := (Option.any_eq_true _ _).1 hexec
  simp only [decide_eq_true_eq] at hst
  obtain ⟨hcreated, hact, hfin⟩ := hst
  have hrun : Run (Guarded HasRoom (Guarded ByUser Step)) (boot default 0 0 0 0 Stdin.init 0 default)
      [.yield, .start 0, .kill 1 9] k :=
    (Run.of_runAll_guarded (fun _ _ _ h => ⟨3, 0, h⟩) hk).mono fun _ _ _ ⟨hg, hs⟩ => ⟨hg.2, hg.1, hs⟩
  have hsound : Sound k :=
    hrun.invariant Sound (.boot rfl ..) fun _ _ _ hi hs => (hi.step hs.1 hs.2.2).sound
  refine ⟨k, hrun.mono fun _ _ _ hs => hs.2, hact, hfin, fun fuel rsp => ?_⟩
  cases hnext : k.handle fuel rsp (.waitpid 7 0) with
  | none => rfl
  | some k' =>
    -- whoever were switched to would be one of the two, and able to run
    have hstored := hsound.sched.modify_active (f := Pcb.blocksOnPid 7 0) rfl (hsound.idle.blocksOnPid_sane 7 0)
    obtain ⟨hsound', hothers, hself, hcreated'⟩ := Sound.of_schedule hstored hnext
    have hr := hsound'.active_runs
    have hpos := hsound'.sched.active_pos
    have hle := hsound'.sched.queue.active_le
    rw [hcreated', Sched.modify_created, hcreated] at hle
    obtain h1 | h2 : k'.sched.active = 1 ∨ k'.sched.active = 2 := by omega
    · rw [activePcb, h1, hothers 1 (by simp [hact]), Sched.modify_pcbs_of_ne _ _ _ (by simp [hact]), Pcb.runnable,
        hfin] at hr
      cases hr
    · rw [Sched.modify_active, Sched.modify_pcbs_self, hact] at hself
      rw [activePcb, h2, hself] at hr
      cases hr

end Kernel
end Sbuos
