import Sbuos.RingOverflow
/-!
# Alarms (sys/timer_helpers.c, sys/systemcall.c:104-111)

A process that has called `do_alarm` sleeps until its deadline, ten ticks a second. The deadline is looked at on
every third tick only, and the other notifiers scan the same ring; but none of them touches a process that waits
for neither input nor a pid.

**`alarm_on_time`**: whatever else happens meanwhile, it wakes exactly at the first tick that counts.
-/
namespace Sbuos
open Lib

namespace Kernel
variable {k k' k₁ k₂ : Kernel} {fuel : Nat} {rsp : Word} {p deadline : Nat}

/-- `tick_count` (timer_helpers.c:22-38), without the time it prints. -/
def tickCount (k : Kernel) : Kernel :=
  let k := { k with ticks := k.ticks + 1 }
  if k.ticks % alarmTickDivide = 1 then k.withSched (k.sched.notifyAlarm k.ticks) else k

/-- The timer interrupt counts the tick and then looks at the time slice. -/
theorem timer_eq (fuel : Nat) (rsp : Word) (k : Kernel) :
    k.timer fuel rsp = (k.tickCount.sched.preempt fuel rsp).map k.tickCount.withSched := by
  unfold timer tickCount
  dsimp only
  split <;> rfl

theorem ticks_succ (hfit : k.ticks.toNat + 1 < 2 ^ 64) : (k.ticks + 1).toNat = k.ticks.toNat + 1 := by
  exact BitVec.toNat_add_of_lt hfit

theorem looks_iff (hfit : k.ticks.toNat + 1 < 2 ^ 64) :
    (k.ticks + 1) % alarmTickDivide = 1 ↔ (k.ticks.toNat + 1) % 3 = 1 := by
  rw [← BitVec.toNat_inj, BitVec.toNat_umod, ticks_succ hfit]
  rfl

theorem tickCount_ticks (hfit : k.ticks.toNat + 1 < 2 ^ 64) : k.tickCount.ticks.toNat = k.ticks.toNat + 1 := by
  rw [← ticks_succ hfit]
  unfold tickCount
  dsimp only
  split <;> rfl

/-- What may happen while a process sleeps. -/
inductive Meanwhile
  | tickCount
  | notifyStdin
  | notifyExitPid (pid : Int) (status : Word)
  | doExit (status : Word)
  | schedule
  | preempt

def meanwhile (fuel : Nat) (rsp : Word) : Meanwhile → Kernel → Option Kernel
  | .tickCount, k => some k.tickCount
  | .notifyStdin, k => some (k.withSched k.sched.notifyStdin)
  | .notifyExitPid pid status, k => some (k.withSched (k.sched.notifyExitPid pid status))
  | .doExit status, k => k.doExit status fuel rsp
  | .schedule, k => (k.sched.schedule fuel rsp).map k.withSched
  | .preempt, k => (k.sched.preempt fuel rsp).map k.withSched

def MeanwhileStep (k : Kernel) (m : Meanwhile) (k' : Kernel) : Prop := ∃ fuel rsp, meanwhile fuel rsp m k = some k'

/-- Pids are positive, and the tick count does not overflow. -/
def MeanwhileFits (k : Kernel) : Meanwhile → Prop
  | .notifyExitPid pid _ => 1 ≤ pid
  | .tickCount => k.ticks.toNat + 1 < 2 ^ 64
  | _ => True

/-- `T` is the first tick after `t` that looks at the alarms and finds one set at `t` due. -/
structure FirstDue (t seconds T : Nat) : Prop where
  later : t < T
  looked : T % 3 = 1
  due : t + 10 * seconds ≤ T
  first : ∀ T', t < T' → T' % 3 = 1 → t + 10 * seconds ≤ T' → T ≤ T'

theorem exists_firstDue (t seconds : Nat) : ∃ T, FirstDue t seconds T := by
  -- the first number from `m` on that is 1 modulo 3
  let m := t + max 1 (10 * seconds)
  exact ⟨m + (4 - m % 3) % 3, by omega, by omega, by omega, fun T' h1 h2 h3 => by omega⟩

/-- `p` sleeps until the deadline and waits for nothing else. -/
structure Sleeps (p deadline : Nat) (k : Kernel) : Prop where
  scattered : k.Scattered
  queued : p ∈ k.sched.queue
  waiting : (k.sched.pcbs p).status = .waiting
  stdin : (k.sched.pcbs p).waitingOnStdin = 0
  pid : (k.sched.pcbs p).waitingOnPid = 0
  clock : (k.sched.pcbs p).waitingOnClock.toNat = deadline
  pos : 0 < deadline

namespace Sleeps

theorem ne_active (h : Sleeps p deadline k) : p ≠ k.sched.active := by
  rintro rfl
  have hrun := h.scattered.active_runs
  rw [Pcb.runnable, activePcb, h.waiting] at hrun
  cases hrun

theorem alive (h : Sleeps p deadline k) : k.sched.Alive p := by
  obtain ⟨hpos, hle⟩ := h.scattered.queue_created p h.queued
  refine ⟨hpos, hle, ?_⟩
  rw [h.waiting]
  decide

/-- Only the sleeper's own pcb and its place in the ring matter. -/
theorem of_pcb (h : Sleeps p deadline k) (hk : k'.Scattered) (hq : p ∈ k'.sched.queue)
    (hpcb : k'.sched.pcbs p = k.sched.pcbs p) : Sleeps p deadline k' := by
  refine ⟨hk, hq, ?_, ?_, ?_, ?_, h.pos⟩ <;> rw [hpcb]
  · exact h.waiting
  · exact h.stdin
  · exact h.pid
  · exact h.clock

/-- A notifier whose event it does not wait for. -/
theorem notify (h : Sleeps p deadline k) {waits : Pcb → Bool} {clear : Pcb → Pcb}
    (hw : waits (k.sched.pcbs p) = false) (hk : (k.withSched (k.sched.notify waits clear)).Scattered) :
    Sleeps p deadline (k.withSched (k.sched.notify waits clear)) := by
  refine h.of_pcb hk h.queued ?_
  rw [withSched, Sched.notify_pcbs_apply, if_neg]
  rintro ⟨-, -, hw'⟩
  rw [hw] at hw'
  cases hw'

theorem notifyStdin (h : Sleeps p deadline k) : Sleeps p deadline (k.withSched k.sched.notifyStdin) :=
  h.notify (by simp [h.stdin]) (h.scattered.notify h.scattered.tidy.notifyStdin)

theorem notifyExitPid (h : Sleeps p deadline k) {pid : Int} (hpid : 1 ≤ pid) (status : Word) :
    Sleeps p deadline (k.withSched (k.sched.notifyExitPid pid status)) := by
  refine h.notify ?_ (h.scattered.notifyExitPid hpid status)
  rw [h.pid, decide_eq_false_iff_not]
  omega

/-- A switch keeps it in the ring: it has not finished, and whoever runs then can run. -/
theorem of_schedule (h : Sleeps p deadline k) {s : Sched} (hs : s.Scattered) (ht : s.Tidy) (hpos : 0 < s.active)
    (hne : p ≠ s.active) (hq : p ∈ s.queue) (hcreated : s.created = k.sched.created)
    (hpcb : s.pcbs p = k.sched.pcbs p) (hk : (s.schedule fuel rsp).map k.withSched = some k') :
    Sleeps p deadline k' := by
  have hk' := Scattered.of_schedule hs ht hpos hk
  obtain ⟨t, hs', rfl⟩ := Option.map_eq_some_iff.1 hk
  have hsw := hs.schedule hs'
  have hpcb' : t.pcbs p = k.sched.pcbs p := by rw [hsw.pcbs_eq, Sched.modify_pcbs_of_ne _ _ _ hne, hpcb]
  have hin : p ∈ t.active :: t.queue := by
    refine hsw.keeps p ?_ (List.mem_cons_of_mem _ hq)
    have halive := h.alive
    rw [Sched.Alive, Sched.modify_pcbs_of_ne _ _ _ hne, Sched.modify_created, hcreated, hpcb]
    exact halive
  have hrun : (t.pcbs t.active).runnable = true := hk'.active_runs
  have hact : p ≠ t.active := by
    rintro rfl
    rw [Pcb.runnable, hpcb', h.waiting] at hrun
    cases hrun
  exact h.of_pcb hk' ((List.mem_cons.1 hin).resolve_left hact) hpcb'

theorem schedule (h : Sleeps p deadline k) (hk : (k.sched.schedule fuel rsp).map k.withSched = some k') :
    Sleeps p deadline k' :=
  h.of_schedule h.scattered.sched h.scattered.tidy h.scattered.active_pos h.ne_active h.queued rfl rfl hk

theorem withTimeSlice (h : Sleeps p deadline k) (n : Int) :
    Sleeps p deadline (k.withSched { k.sched with timeSlice := n }) :=
  h.of_pcb (h.scattered.withTimeSlice n) h.queued rfl

theorem preempt (h : Sleeps p deadline k) (hk : (k.sched.preempt fuel rsp).map k.withSched = some k') :
    Sleeps p deadline k' := by
  unfold Sched.preempt at hk
  dsimp only at hk
  split at hk
  · exact (h.withTimeSlice 0).schedule hk
  · cases hk
    exact h.withTimeSlice _

/-- The one that exits is active, so it is another, and the pid it announces is positive. -/
theorem doExit (h : Sleeps p deadline k) {status : Word} (hk : k.doExit status fuel rsp = some k') :
    Sleeps p deadline k' := by
  have hpid := h.scattered.active_pid
  refine h.of_schedule (h.scattered.exits status).1 (h.scattered.exits status).2 h.scattered.active_pos h.ne_active
    h.queued rfl ?_ hk
  rw [Sched.notifyExitPid, Sched.notify_pcbs_apply, Sched.modify_pcbs_of_ne _ _ _ h.ne_active, if_neg]
  rintro ⟨-, -, hw⟩
  rw [h.pid, decide_eq_true_eq] at hw
  omega

/-- A tick that does not look, or comes too early. -/
theorem tickCount_early (h : Sleeps p deadline k) (hfit : k.ticks.toNat + 1 < 2 ^ 64)
    (hearly : (k.ticks.toNat + 1) % 3 = 1 → k.ticks.toNat + 1 < deadline) : Sleeps p deadline k.tickCount := by
  have hcounted : Sleeps p deadline { k with ticks := k.ticks + 1 } :=
    h.of_pcb (h.scattered.of_sched rfl) h.queued rfl
  unfold tickCount
  dsimp only
  split
  · rename_i hlook
    have hlt := hearly ((looks_iff hfit).1 hlook)
    refine hcounted.notify ?_ (hcounted.scattered.notify (hcounted.scattered.tidy.notifyAlarm _))
    rw [decide_eq_false_iff_not]
    rintro ⟨-, hle⟩
    have hle := BitVec.le_def.1 hle
    rw [h.clock, ticks_succ hfit] at hle
    omega
  · exact hcounted

/-- The first that looks in time. -/
theorem tickCount_due (h : Sleeps p deadline k) (hfit : k.ticks.toNat + 1 < 2 ^ 64)
    (hlook : (k.ticks.toNat + 1) % 3 = 1) (hdue : deadline ≤ k.ticks.toNat + 1) :
    (k.tickCount.sched.pcbs p).status = .running := by
  have hclock : (k.sched.pcbs p).waitingOnClock ≠ 0 ∧ (k.sched.pcbs p).waitingOnClock ≤ k.ticks + 1 := by
    refine ⟨fun h0 => ?_, ?_⟩
    · have hpos := h.pos
      rw [← h.clock, h0] at hpos
      exact absurd hpos (Nat.lt_irrefl 0)
    · rw [BitVec.le_def, h.clock, ticks_succ hfit]
      exact hdue
  unfold tickCount
  dsimp only
  rw [if_pos ((looks_iff hfit).2 hlook), withSched, Sched.notifyAlarm, Sched.notify_pcbs_apply,
    if_pos ⟨h.queued, h.waiting, decide_eq_true hclock⟩]

/-- One step of what happens meanwhile. -/
theorem step {m : Meanwhile} (h : Sleeps p deadline k) (hfit : MeanwhileFits k m) (hs : MeanwhileStep k m k')
    (hearly : k'.ticks.toNat = k.ticks.toNat + 1 → k'.ticks.toNat % 3 = 1 → k'.ticks.toNat < deadline) :
    Sleeps p deadline k' := by
  obtain ⟨fuel, rsp, hs⟩ := hs
  cases m with
  | tickCount =>
    cases hs
    rw [tickCount_ticks hfit] at hearly
    exact h.tickCount_early hfit (hearly rfl)
  | notifyStdin =>
    cases hs
    exact h.notifyStdin
  | notifyExitPid pid status =>
    cases hs
    exact h.notifyExitPid hfit status
  | doExit status => exact h.doExit hs
  | schedule => exact h.schedule hs
  | preempt => exact h.preempt hs

end Sleeps

/-- Only a tick moves the count. -/
theorem MeanwhileStep.ticks {m : Meanwhile} (hfit : MeanwhileFits k m) (hs : MeanwhileStep k m k') :
    k'.ticks.toNat = k.ticks.toNat ∨ k'.ticks.toNat = k.ticks.toNat + 1 := by
  obtain ⟨fuel, rsp, hs⟩ := hs
  cases m with
  | tickCount =>
    cases hs
    exact .inr (tickCount_ticks hfit)
  | notifyStdin | notifyExitPid =>
    cases hs
    exact .inl rfl
  | doExit | schedule | preempt =>
    obtain ⟨t, -, rfl⟩ := Option.map_eq_some_iff.1 hs
    exact .inl rfl

/-- The caller of `do_alarm` falls asleep. -/
theorem doAlarm_sleeps (h : Scattered k) {seconds : Word} (hpos : 0 < k.ticks.toNat + 10 * seconds.toNat)
    (hfit : k.ticks.toNat + 10 * seconds.toNat < 2 ^ 64) (hs : k.doAlarm seconds fuel rsp = some k') :
    Sleeps k.sched.active (k.ticks.toNat + 10 * seconds.toNat) k' ∧ k'.ticks = k.ticks := by
  have hmul : (printTickDivide * seconds).toNat = 10 * seconds.toNat :=
    BitVec.toNat_mul_of_lt (show 10 * seconds.toNat < 2 ^ 64 by omega)
  have hclock : (k.ticks + printTickDivide * seconds).toNat = k.ticks.toNat + 10 * seconds.toNat := by
    rw [BitVec.toNat_add_of_lt] <;> rw [hmul]
    exact hfit
  have hblocked := h.modify_active (Pcb.blocksOnClock (k.ticks + printTickDivide * seconds))
  have hk' := h.blockWith rfl (h.idle.blocksOnClock_sane _) hs
  have hidle := h.idle
  obtain ⟨t, ht, rfl⟩ := Option.map_eq_some_iff.1 hs
  have hsw := hblocked.schedule ht
  have hpcb : t.pcbs k.sched.active =
      { k.activePcb.blocksOnClock (k.ticks + printTickDivide * seconds) with kernelSp := rsp } := by
    rw [hsw.pcbs_eq, Sched.modify_active, Sched.modify_pcbs_self, Sched.modify_pcbs_self]
    rfl
  have hin : k.sched.active ∈ t.active :: t.queue := by
    refine hsw.keeps _ ⟨h.active_pos, h.sched.active_le, ?_⟩ List.mem_cons_self
    rw [← hsw.pcbs_eq, hpcb]
    exact nofun
  have hrun : (t.pcbs t.active).runnable = true := hk'.active_runs
  have hact : k.sched.active ≠ t.active := by
    intro he
    rw [← he, hpcb] at hrun
    cases hrun
  refine ⟨⟨hk', (List.mem_cons.1 hin).resolve_left hact, ?_, ?_, ?_, ?_, hpos⟩, rfl⟩ <;> rw [withSched, hpcb]
  · rfl
  · exact hidle.stdin
  · exact hidle.pid
  · exact hclock

/-- **Alarms are on time**: a process that calls `do_alarm` in any run sleeps up to the first tick after the call that
looks at the alarms and has reached its deadline, whatever is notified, exits or is scheduled meanwhile, and that
tick wakes it. -/
theorem alarm_on_time {s : Sched} (h0 : s.created = 0) {idleStack idlePml4 shellStack shellPml4 : Word}
    {stdin : Stdin} {ticks : Word} {archive : Tarfs} {es : List Event}
    (hrun : Run Step (boot s idleStack idlePml4 shellStack shellPml4 stdin ticks archive) es k)
    {seconds : Word} (hpos : 0 < k.ticks.toNat + 10 * seconds.toNat)
    (hfit : k.ticks.toNat + 10 * seconds.toNat < 2 ^ 64) (hcall : k.doAlarm seconds fuel rsp = some k₁) :
    ∃ T, FirstDue k.ticks.toNat seconds.toNat T ∧ ∀ ms k₂, Run (Guarded MeanwhileFits MeanwhileStep) k₁ ms k₂ →
      (k₂.ticks.toNat < T → (k₂.sched.pcbs k.sched.active).status = .waiting) ∧
      (k₂.ticks.toNat + 1 = T → MeanwhileFits k₂ .tickCount →
        (k₂.tickCount.sched.pcbs k.sched.active).status = .running) := by
  obtain ⟨T, hT⟩ := exists_firstDue k.ticks.toNat seconds.toNat
  obtain ⟨hsleeps, hticks⟩ := doAlarm_sleeps (scattered_boot h0 hrun) hpos hfit hcall
  refine ⟨T, hT, fun ms k₂ hlater => ?_⟩
  have hinv : k.ticks.toNat ≤ k₂.ticks.toNat ∧ (k₂.ticks.toNat < T →
      Sleeps k.sched.active (k.ticks.toNat + 10 * seconds.toNat) k₂) := by
    refine hlater.invariant (fun k₂ => k.ticks.toNat ≤ k₂.ticks.toNat ∧ (k₂.ticks.toNat < T →
      Sleeps k.sched.active (k.ticks.toNat + 10 * seconds.toNat) k₂)) ⟨by rw [hticks], fun _ => hsleeps⟩ ?_
    rintro a m b ⟨hle, ha⟩ ⟨hm, hs⟩
    have hab := hs.ticks hm
    refine ⟨by omega, fun hlt => (ha (by omega)).step hm hs fun hsucc hlook => ?_⟩
    -- a tick before `T` that looks is too early
    by_contra hdue
    have := hT.first b.ticks.toNat (by omega) hlook (by omega)
    omega
  refine ⟨fun hlt => (hinv.2 hlt).waiting, fun hlast hlt => ?_⟩
  have hlook := hT.looked
  have hdue := hT.due
  exact (hinv.2 (by omega)).tickCount_due hlt (by omega) (by omega)

/-- The shell sleeps for a second from boot on: up to tick 9, and awake at tick 10. -/
theorem alarm_on_time_shell : ∃ k₁, shellRuns.doAlarm 1 1 0 = some k₁ ∧
    ∃ T, FirstDue 0 1 T ∧ ∀ ms k₂, Run (Guarded MeanwhileFits MeanwhileStep) k₁ ms k₂ →
      (k₂.ticks.toNat < T → (k₂.sched.pcbs 2).status = .waiting) ∧
      (k₂.ticks.toNat + 1 = T → MeanwhileFits k₂ .tickCount → (k₂.tickCount.sched.pcbs 2).status = .running) := by
  obtain ⟨k₁, hcall⟩ := Option.isSome_iff_exists.1 (show (shellRuns.doAlarm 1 1 0).isSome = true by decide)
  exact ⟨k₁, hcall, alarm_on_time rfl shellRuns_reached (by decide) (by decide) hcall⟩

end Kernel
end Sbuos
