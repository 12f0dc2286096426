import Sbuos.IdleProcess
import Sbuos.WaitDead
/-!
# Interrupts inside a system call (sys/idt.s:70-100)

`syscall_interrupt_handler` runs its call with interrupts enabled, so a key or a tick may come between any two
stores of it. Here `do_read` on descriptor 0 and `do_exit` are taken apart into these stores; every other call
is one step.

A notifier wakes those it finds WAITING in the queue, at that moment. **`no_lost_wakeup`**: no reader sleeps
while a line is there, as long as no line is completed between a reader's test and its `schedule`.
**`exit_notifies`**: who waited when a process entered `do_exit` is woken, as long as no tick ends the time slice
between the store of FINISHED and `notify_exit_pid`.
-/
namespace Sbuos
open Lib

namespace Sched
variable {s t : Sched} {p fuel : Nat} {rsp : Word} {P : Pcb → Prop}

/-- A property of sleepers, which the saved stack pointer is no part of. -/
structure OfSleepers (P : Pcb → Prop) : Prop where
  waiting : ∀ a, P a → a.status = .waiting
  kernelSp : ∀ a rsp, P { a with kernelSp := rsp } → P a

/-- Notifiers only wake. -/
theorem OfSleepers.of_notify (hP : OfSleepers P) {waits : Pcb → Bool} {clear : Pcb → Pcb}
    (h : P ((s.notify waits clear).pcbs p)) : P (s.pcbs p) := by
  rw [notify_pcbs_apply] at h
  split at h
  · cases hP.waiting _ h
  · exact h

theorem OfSleepers.of_schedule (hP : OfSleepers P) (hs : s.Sound) (ht : s.schedule fuel rsp = some t)
    (h : P (t.pcbs p)) : P (s.pcbs p) := by
  obtain ⟨-, -, hpcbs, -⟩ := hs.schedule ht
  rw [hpcbs, modify_pcbs_apply] at h
  split at h
  · exact hP.kernelSp _ _ h
  · exact h

end Sched

/-- `_add_char` notifies only for the two characters that complete a line, and counts only these. -/
theorem Stdin.addChar_notifies {c : Byte} {s : Stdin} {a : Added} (h : addChar c s = some a) :
    (a.notifies = true → c = newline ∨ c = ctrlD) ∧ (a.notifies = false → a.st.inputCount = s.inputCount) := by
  unfold addChar at h
  split at h
  · cases h
    exact ⟨nofun, fun _ => rfl⟩
  split at h
  · cases h
    exact ⟨nofun, fun _ => rfl⟩
  split at h
  · cases h
    exact ⟨nofun, fun _ => rfl⟩
  obtain ⟨s', hput, h⟩ := Option.bind_eq_some_iff.1 h
  have hcount : s'.inputCount = s.inputCount := by
    unfold Stdin.put at hput
    split at hput <;> cases hput
    rfl
  dsimp only at h
  split at h
  · cases h
    exact ⟨fun _ => ‹_›, nofun⟩
  · cases h
    exact ⟨nofun, fun _ => hcount⟩

namespace Stdin

theorem copyLoop_inputCount_le {size : Int} : ∀ {fuel i : Nat} {buffer : Nat → Byte} {s : Stdin} {r : Copied},
    copyLoop fuel buffer size i s = some r → r.st.inputCount ≤ s.inputCount
  | 0, _, _, _, _, h => by cases h
  | fuel + 1, i, buffer, s, r, h => by
    obtain ⟨c, -, h⟩ := Option.bind_eq_some_iff.1 h
    dsimp only at h
    split at h
    · cases h
      exact Int.sub_le_self _ (by decide)
    split at h
    · cases h
      exact Int.le_refl _
    · have ih := copyLoop_inputCount_le h
      exact ih

theorem copyInput_inputCount_le {fuel : Nat} {buffer : Nat → Byte} {size : Int} {s : Stdin} {r : Copied}
    (h : copyInput fuel buffer size s = some r) : r.st.inputCount ≤ s.inputCount := by
  obtain ⟨c, -, h⟩ := Option.bind_eq_some_iff.1 h
  split at h
  · cases h
    exact Int.sub_le_self _ (by decide)
  · exact copyLoop_inputCount_le h

end Stdin

namespace Kernel
variable {k k' : Kernel} {e : Event} {p fuel : Nat} {rsp : Word} {P : Pcb → Prop}

/-- A timer interrupt, whatever the active process is doing: at the end of its time slice it gives way, else it
goes on. -/
theorem timer_sound (h : k.sched.Sound) (ht : k.timer fuel rsp = some k') :
    k'.sched.Sound ∧ k'.sched.created = k.sched.created ∧
      (∀ {P : Pcb → Prop} {p : Nat}, Sched.OfSleepers P → P (k'.sched.pcbs p) → P (k.sched.pcbs p)) ∧
      ((k.sched.timeSlice + 1 > 16 ∧ k'.activePcb.runnable = true) ∨
        (¬k.sched.timeSlice + 1 > 16 ∧ k'.sched.active = k.sched.active ∧ k'.sched.queue = k.sched.queue ∧
          k'.activePcb = k.activePcb)) := by
  obtain ⟨t, hpre, rfl⟩ := Option.map_eq_some_iff.1 ht
  -- first the notifier
  obtain ⟨s, hs, hwoken, hactive, hact, hcreated, hqueue, hslice, ht⟩ : ∃ s : Sched, s.Sound ∧
      (∀ {P : Pcb → Prop} {p : Nat}, Sched.OfSleepers P → P (s.pcbs p) → P (k.sched.pcbs p)) ∧
      s.pcbs k.sched.active = k.activePcb ∧ s.active = k.sched.active ∧ s.created = k.sched.created ∧
      s.queue = k.sched.queue ∧ s.timeSlice = k.sched.timeSlice ∧ s.preempt fuel rsp = some t := by
    split at hpre
    · exact ⟨_, h.notify (h.tidy.notifyAlarm _), fun hP hp => hP.of_notify hp, h.queue.notify_active_pcb, rfl, rfl,
        rfl, rfl, hpre⟩
    · exact ⟨_, h, fun _ hp => hp, rfl, rfl, rfl, rfl, rfl, hpre⟩
  -- then the time slice
  unfold Sched.preempt at ht
  dsimp only at ht
  rw [hslice] at ht
  split at ht
  · obtain ⟨hsound, hrun, -, hc⟩ := (hs.withTimeSlice 0).schedule ht
    refine ⟨hsound, hc.trans hcreated, fun hP hp => ?_, .inl ⟨‹_›, hrun⟩⟩
    have hbefore := hP.of_schedule (hs.withTimeSlice 0) ht hp
    exact hwoken hP hbefore
  · cases ht
    refine ⟨hs.withTimeSlice _, hcreated, hwoken, .inr ⟨‹_›, hact, hqueue, ?_⟩⟩
    exact (congrArg s.pcbs hact).trans hactive

/-- A key, whatever the active process is doing. -/
theorem keyboard_sound (h : k.sched.Sound) {c : Byte} (hk : k.keyboard c = some k') :
    k'.sched.Sound ∧ k'.sched.created = k.sched.created ∧ k'.sched.active = k.sched.active ∧
      k'.sched.queue = k.sched.queue ∧ k'.activePcb = k.activePcb ∧
      ∀ {P : Pcb → Prop} {p : Nat}, Sched.OfSleepers P → P (k'.sched.pcbs p) → P (k.sched.pcbs p) := by
  obtain ⟨r, -, hr⟩ := Option.bind_eq_some_iff.1 hk
  cases hr
  split
  · have hact : k.sched.notifyStdin.pcbs k.sched.active = k.activePcb := h.queue.notify_active_pcb
    refine ⟨h.notify h.tidy.notifyStdin, rfl, rfl, rfl, hact, fun {P p} hP hp => ?_⟩
    replace hp : P (k.sched.notifyStdin.pcbs p) := hp
    exact hP.of_notify hp
  · exact ⟨h, rfl, rfl, rfl, rfl, fun _ hp => hp⟩

/-! ## `do_read` -/

/-- A process WAITING for the keyboard. -/
def SleepsOnStdin (a : Pcb) : Prop := a.status = .waiting ∧ a.waitingOnStdin ≠ 0

instance (a : Pcb) : Decidable (SleepsOnStdin a) := inferInstanceAs (Decidable (_ ∧ _))

theorem sleepsOnStdin_ofSleepers : Sched.OfSleepers SleepsOnStdin := ⟨fun _ h => h.1, fun _ _ h => h⟩

/-- Where the active process is in `do_read` on descriptor 0 (systemcall.c:41-47). -/
inductive ReadPlace
  | outside | tested | waiting | flagged | ready
deriving DecidableEq

structure Reader where
  kernel : Kernel
  place : ReadPlace

inductive ReadMove
  | call (e : Event)
  | test
  | setWaiting
  | setFlag
  | schedule
  | copy (size : Word) (buffer : Nat → Byte)
  | key (c : Byte)

instance (proc : Pcb) (fd : Word) : Decidable (ReadsStdin proc fd) := inferInstanceAs (Decidable (_ ∧ _))

/-- Events that are one step: neither a key nor a read from the keyboard. -/
def WholeForRead (k : Kernel) : Event → Bool
  | .read fd _ _ => ¬ReadsStdin k.activePcb fd
  | .key _ => false
  | _ => true

/-- What happens next. A resumed reader is back at the loop's test, so `schedule` leads outside again. -/
def Reader.handle (fuel : Nat) (rsp : Word) : ReadMove → Reader → Option Reader
  | .call e, ⟨k, .outside⟩ => if WholeForRead k e then (k.handle fuel rsp e).map (⟨·, .outside⟩) else none
  | .test, ⟨k, .outside⟩ =>
    if ReadsStdin k.activePcb 0 then
      some ⟨k, if k.stdin.bufferIsReady then .ready else .tested⟩
    else none
  | .setWaiting, ⟨k, .tested⟩ =>
    some ⟨k.withSched (k.sched.modify k.sched.active fun p => { p with status := .waiting }), .waiting⟩
  | .setFlag, ⟨k, .waiting⟩ =>
    some ⟨k.withSched (k.sched.modify k.sched.active (Pcb.setWaitingOnStdin (-1))), .flagged⟩
  | .schedule, ⟨k, .flagged⟩ => (k.sched.schedule fuel rsp).map fun s => ⟨k.withSched s, .outside⟩
  | .copy size buffer, ⟨k, .ready⟩ =>
    (k.stdin.copyInput fuel buffer (size.setWidth 32).toInt).map fun c => ⟨{ k with stdin := c.st }, .outside⟩
  | .key c, ⟨k, place⟩ => (k.keyboard c).map (⟨·, place⟩)
  | _, _ => none

def Reader.Step (r : Reader) (m : ReadMove) (r' : Reader) : Prop := ∃ fuel rsp, r.handle fuel rsp m = some r'

/-- Between the test that failed and `schedule`. -/
def Reader.Blocking (r : Reader) : Prop := r.place = .tested ∨ r.place = .waiting ∨ r.place = .flagged

/-- No key completes a line while the active process is about to block, and a fork finds room in the ring. -/
def Reader.Undisturbed (r : Reader) : ReadMove → Prop
  | .key c => r.Blocking → c ≠ Stdin.newline ∧ c ≠ Stdin.ctrlD
  | .call e => HasRoom r.kernel e
  | _ => True

/-- Only a read from the keyboard puts the active process to sleep on it. -/
theorem Sound.not_sleepsOnStdin (h : Sound k) (hg : HasRoom k e) (he : WholeForRead k e = true) (hs : Step k e k') :
    ¬SleepsOnStdin (k'.sched.pcbs k.sched.active) := by
  have heff := h.step hg hs
  -- an active process that stays active can run
  have hstays : k'.sched.active = k.sched.active → ¬SleepsOnStdin (k'.sched.pcbs k.sched.active) := by
    rintro hact ⟨hw, -⟩
    exact heff.sound.not_waiting (by rw [activePcb, hact]; exact hw)
  have hblocks : ∀ {f : Pcb → Pcb} {fuel : Nat} {rsp : Word}, (f k.activePcb).pid = k.activePcb.pid →
      (f k.activePcb).Sane → k.blockWith f fuel rsp = some k' →
      k'.sched.pcbs k.sched.active = { f k.activePcb with kernelSp := rsp } := by
    intro f fuel rsp hpid hsane hb
    obtain ⟨-, -, hactive, -⟩ := of_schedule (h.sched.modify_active hpid hsane) hb
    rwa [Sched.modify_active, Sched.modify_pcbs_self] at hactive
  obtain ⟨fuel, rsp, hs⟩ := hs
  cases e with
  | fork kernelStack pml4 pml4' =>
    obtain ⟨⟨k1, r⟩, hfork, rfl⟩ := Option.map_eq_some_iff.1 hs
    unfold Kernel.doFork at hfork
    split at hfork
    · cases hfork
      exact hstays (by simp [withSched, Sched.processRun, Sched.getForkedPcb, Sched.getNewPcb])
    · cases hfork
  | exit status =>
    obtain ⟨t, ht, rfl⟩ := Option.map_eq_some_iff.1 hs
    intro hsleeps
    have hfin := h.sched.finish h.sched.active_pos h.sched.queue.active_le status
    have hsleeps := sleepsOnStdin_ofSleepers.of_notify (sleepsOnStdin_ofSleepers.of_schedule hfin ht hsleeps)
    rw [Sched.modify_pcbs_self] at hsleeps
    cases hsleeps.1
  | kill pid sig =>
    cases hs
    refine hstays ?_
    obtain hnone | ⟨v, -, -, -, hsome⟩ := doKill_cases h.sched.tidy h.queue_created pid sig
    · rw [hnone]
    · rw [hsome]
      rfl
  | waitpid pid ret =>
    rw [hblocks rfl (h.idle.blocksOnPid_sane ..) hs]
    exact fun hsleeps => hsleeps.2 h.idle.stdin
  | alarm seconds =>
    rw [hblocks rfl (h.idle.blocksOnClock_sane _) hs]
    exact fun hsleeps => hsleeps.2 h.idle.stdin
  | read fd size buffer =>
    have hfd : ¬ReadsStdin k.activePcb fd := of_decide_eq_true he
    obtain ⟨hstdin, -⟩ | ⟨hstdin, -⟩ | ⟨-, i, r, -, rfl⟩ := doRead_cases hs
    · exact absurd hstdin hfd
    · exact absurd hstdin hfd
    · exact hstays rfl
  | exec abspath userSp =>
    rw [hblocks rfl (h.idle.execs_sane ..) hs]
    exact fun hsleeps => by cases hsleeps.1
  | start ip =>
    obtain ⟨-, rfl⟩ := kThreadKernel_eq_some hs
    exact hstays rfl
  | yield | tick =>
    intro hsleeps
    exact h.not_waiting ((heff.self.idles trivial).symm.trans hsleeps.1)
  | key c => cases he

/-- Only keys and reads from the keyboard touch the input. -/
theorem Step.stdin_eq (he : WholeForRead k e = true) (hs : Step k e k') : k'.stdin = k.stdin := by
  obtain ⟨fuel, rsp, hs⟩ := hs
  cases e with
  | fork kernelStack pml4 pml4' =>
    obtain ⟨⟨k1, r⟩, hfork, rfl⟩ := Option.map_eq_some_iff.1 hs
    unfold Kernel.doFork at hfork
    split at hfork <;> cases hfork
    rfl
  | kill pid sig =>
    cases hs
    unfold doKill
    dsimp only
    split <;> rfl
  | read fd size buffer =>
    have hfd : ¬ReadsStdin k.activePcb fd := of_decide_eq_true he
    obtain ⟨hstdin, -⟩ | ⟨hstdin, -⟩ | ⟨-, i, r, -, rfl⟩ := doRead_cases hs
    · exact absurd hstdin hfd
    · exact absurd hstdin hfd
    · rfl
  | start ip =>
    obtain ⟨-, rfl⟩ := kThreadKernel_eq_some hs
    rfl
  | exit | waitpid | alarm | yield | exec | tick =>
    obtain ⟨t, -, rfl⟩ := Option.map_eq_some_iff.1 hs
    rfl
  | key c => cases he

/-- What the active process holds at each place. -/
def Reader.Stage (r : Reader) : Prop :=
  match r.place with
  | .outside | .tested | .ready => r.kernel.activePcb.runnable = true
  | .waiting => r.kernel.activePcb.status = .waiting ∧ r.kernel.activePcb.waitingOnPid = 0 ∧
      r.kernel.activePcb.waitingOnClock = 0
  | .flagged => True

/-- With a line there, nobody but the active process sleeps; and there is none while that is about to. -/
structure Reader.Inv (r : Reader) : Prop where
  sound : r.kernel.sched.Sound
  stage : r.Stage
  nobody : 0 < r.kernel.stdin.inputCount → ∀ p, 0 < p → p ≤ r.kernel.sched.created → p ≠ r.kernel.sched.active →
    ¬SleepsOnStdin (r.kernel.sched.pcbs p)
  blocking : r.Blocking → r.kernel.stdin.inputCount ≤ 0

namespace Reader.Inv
variable {r r' : Reader} {m : ReadMove}

theorem outside (h : Sound k) (hnobody : 0 < k.stdin.inputCount → ∀ p, 0 < p → p ≤ k.sched.created →
    p ≠ k.sched.active → ¬SleepsOnStdin (k.sched.pcbs p)) : Reader.Inv ⟨k, .outside⟩ where
  sound := h.sched
  stage := h.active_runs
  nobody := hnobody
  blocking := by rintro (h | h | h) <;> cases h

/-- A call in one piece. -/
theorem call (h : Reader.Inv ⟨k, .outside⟩) (hg : HasRoom k e) (he : WholeForRead k e = true)
    (hs : Kernel.Step k e k') : Reader.Inv ⟨k', .outside⟩ := by
  have hk : Sound k := ⟨h.sound, h.stage⟩
  have heff := hk.step hg hs
  refine .outside heff.sound fun hcount p hp hle hne hsleeps => ?_
  rw [hs.stdin_eq he] at hcount
  by_cases hnew : k.sched.created < p
  · have hrun := heff.child p hnew hle
    rw [hsleeps.1] at hrun
    cases hrun
  by_cases hact : p = k.sched.active
  · subst hact
    exact hk.not_sleepsOnStdin hg he hs hsleeps
  · have hlp := Nat.not_lt.1 hnew
    have ht := heff.others p hp hlp hact
    generalize k'.sched.pcbs p = a at ht hsleeps
    cases ht with
    | kept => exact h.nobody hcount p hp hlp hact hsleeps
    | killed | told | stdin | alarm => cases hsleeps.1

/-- A key. When it completes a line, `notify_stdin` wakes everyone who sleeps. -/
theorem key {place : ReadPlace} {c : Byte} (h : Reader.Inv ⟨k, place⟩)
    (hg : (⟨k, place⟩ : Reader).Blocking → c ≠ Stdin.newline ∧ c ≠ Stdin.ctrlD) (hk : k.keyboard c = some k') :
    Reader.Inv ⟨k', place⟩ := by
  obtain ⟨hsound, hcreated, hactive, -, hpcb, hwoken⟩ := keyboard_sound h.sound hk
  have hnobody : 0 < k'.stdin.inputCount → ∀ p, 0 < p → p ≤ k'.sched.created → p ≠ k'.sched.active →
      ¬SleepsOnStdin (k'.sched.pcbs p) := by
    intro hcount p hp hle hne hsleeps
    rw [hcreated] at hle
    rw [hactive] at hne
    have hbefore := hwoken sleepsOnStdin_ofSleepers hsleeps
    obtain ⟨a, ha, hk'⟩ := Option.bind_eq_some_iff.1 hk
    cases hk'
    split at hsleeps
    · have hq := h.sound.queue.live_mem_queue hp hle (by rw [hbefore.1]; decide) hne
      replace hsleeps : SleepsOnStdin (k.sched.notifyStdin.pcbs p) := hsleeps
      rw [Sched.notifyStdin, Sched.notify_pcbs_apply, if_pos ⟨hq, hbefore.1, by simpa using hbefore.2⟩] at hsleeps
      cases hsleeps.1
    · rename_i hquiet
      rw [if_neg hquiet] at hcount
      refine h.nobody ?_ p hp hle hne hbefore
      rwa [(Stdin.addChar_notifies ha).2 (by simpa using hquiet)] at hcount
  refine ⟨hsound, ?_, hnobody, fun hb => ?_⟩
  · have hstage := h.stage
    unfold Reader.Stage at hstage ⊢
    rwa [hpcb]
  · obtain ⟨hn, hd⟩ := hg hb
    obtain ⟨a, ha, hk'⟩ := Option.bind_eq_some_iff.1 hk
    cases hk'
    have hquiet : ¬a.notifies = true := fun hnot => ((Stdin.addChar_notifies ha).1 hnot).elim hn hd
    rw [if_neg hquiet]
    have hcount := (Stdin.addChar_notifies ha).2 (by simpa using hquiet)
    exact Int.le_trans (Int.le_of_eq hcount) (h.blocking hb)

/-- A store to the active pcb on the way to `schedule`. -/
theorem store {place place' : ReadPlace} {f : Pcb → Pcb} (h : Reader.Inv ⟨k, place⟩)
    (hb : (⟨k, place⟩ : Reader).Blocking) (hpid : (f k.activePcb).pid = k.activePcb.pid) (hsane : (f k.activePcb).Sane)
    (hstage : (⟨k.withSched (k.sched.modify k.sched.active f), place'⟩ : Reader).Stage) :
    Reader.Inv ⟨k.withSched (k.sched.modify k.sched.active f), place'⟩ where
  sound := h.sound.modify_active hpid hsane
  stage := hstage
  nobody hcount := absurd hcount (Int.not_lt.2 (h.blocking hb))
  blocking _ := h.blocking hb

theorem step (h : Reader.Inv r) (hg : r.Undisturbed m) (hs : r.Step m r') : Reader.Inv r' := by
  obtain ⟨fuel, rsp, hs⟩ := hs
  obtain ⟨k, place⟩ := r
  cases m with
  | call e =>
    cases place <;> first | cases hs | skip
    simp only [Reader.handle] at hs
    split at hs
    · obtain ⟨k', hk', rfl⟩ := Option.map_eq_some_iff.1 hs
      exact h.call hg ‹_› ⟨fuel, rsp, hk'⟩
    · cases hs
  | test =>
    cases place <;> first | cases hs | skip
    simp only [Reader.handle] at hs
    split at hs
    · cases hs
      by_cases hready : k.stdin.bufferIsReady = true
      · rw [if_pos hready]
        exact ⟨h.sound, h.stage, h.nobody, by rintro (h | h | h) <;> cases h⟩
      · rw [if_neg hready]
        refine ⟨h.sound, h.stage, h.nobody, fun _ => ?_⟩
        simpa [Stdin.bufferIsReady] using hready
    · cases hs
  | setWaiting =>
    cases place <;> cases hs
    have hidle : k.activePcb.Idle := h.sound.active_sane.idle h.stage
    refine h.store (.inl rfl) rfl ⟨nofun, fun _ => .inl ⟨hidle.stdin, hidle.pid⟩⟩ ?_
    simp only [Reader.Stage, activePcb, withSched, Sched.modify_active, Sched.modify_pcbs_self]
    exact ⟨trivial, hidle.pid, hidle.clock⟩
  | setFlag =>
    cases place <;> cases hs
    obtain ⟨hst, hpid, hclock⟩ : k.activePcb.status = .waiting ∧ k.activePcb.waitingOnPid = 0 ∧
      k.activePcb.waitingOnClock = 0 := h.stage
    refine h.store (.inr (.inl rfl)) rfl ⟨fun hr => ?_, fun _ => .inr (.inr ⟨hpid, hclock⟩)⟩ trivial
    have hblocked : ¬k.activePcb.runnable = true := by simp [Pcb.runnable, hst]
    exact absurd hr hblocked
  | schedule =>
    cases place <;> first | cases hs | skip
    obtain ⟨t, ht, rfl⟩ := Option.map_eq_some_iff.1 hs
    obtain ⟨hsound, hrun, -, -⟩ := h.sound.schedule ht
    refine .outside ⟨hsound, hrun⟩ fun hcount => ?_
    exact absurd hcount (Int.not_lt.2 (h.blocking (.inr (.inr rfl))))
  | copy size buffer =>
    cases place <;> first | cases hs | skip
    obtain ⟨c, hc, rfl⟩ := Option.map_eq_some_iff.1 hs
    refine .outside ⟨h.sound, h.stage⟩ fun hcount => h.nobody ?_
    exact Int.lt_of_lt_of_le hcount (Stdin.copyInput_inputCount_le hc)
  | key c =>
    obtain ⟨k', hk', rfl⟩ := Option.map_eq_some_iff.1 hs
    exact h.key hg hk'

end Reader.Inv

/-- The kernel as `init` leaves it, its idle process in no system call. -/
def bootReader (s : Sched) (idleStack idlePml4 shellStack shellPml4 : Word) (stdin : Stdin) (ticks : Word)
    (archive : Tarfs) : Reader :=
  ⟨boot s idleStack idlePml4 shellStack shellPml4 stdin ticks archive, .outside⟩

/-- **No lost wake-up**: in a run in which no newline or `^D` arrives while the active process is between its test
and its `schedule` (and no fork finds the ring full), no queued process sleeps on the keyboard while a line is
there. -/
theorem no_lost_wakeup {s : Sched} (h0 : s.created = 0) {idleStack idlePml4 shellStack shellPml4 : Word}
    {stdin : Stdin} {ticks : Word} {archive : Tarfs} {moves : List ReadMove} {r : Reader}
    (hrun : Run (Guarded Reader.Undisturbed Reader.Step)
      (bootReader s idleStack idlePml4 shellStack shellPml4 stdin ticks archive) moves r)
    (hcount : 0 < r.kernel.stdin.inputCount) :
    ∀ p ∈ r.kernel.sched.queue, ¬SleepsOnStdin (r.kernel.sched.pcbs p) := by
  have hinv : Reader.Inv r := hrun.invariant Reader.Inv ?_ fun _ _ _ hi hs => hi.step hs.1 hs.2
  · intro p hp
    have hne : p ≠ r.kernel.sched.active := fun he => (List.nodup_cons.1 hinv.sound.queue.nodup).1 (he ▸ hp)
    exact hinv.nobody hcount p (hinv.sound.queue.pos p (List.mem_cons_of_mem _ hp))
      (hinv.sound.queue.mem_queue_le hp) hne
  · have hb := Sched.init_booted h0 idleStack idlePml4 shellStack shellPml4
    refine .outside (Sound.boot h0 ..) fun _ p hp hle _ hsleeps => ?_
    have hrun := hb.runnable p hp (hb.created_eq ▸ hle)
    rw [Pcb.runnable, show ((s.processInit.init idleStack idlePml4 shellStack shellPml4).pcbs p).status = .waiting
      from hsleeps.1] at hrun
    cases hrun

instance (r : Reader) : (m : ReadMove) → Decidable (r.Undisturbed m)
  | .key _ => inferInstanceAs (Decidable ((_ ∨ _ ∨ _) → _ ∧ _))
  | .call e => inferInstanceAs (Decidable (HasRoom r.kernel e))
  | .test | .setWaiting | .setFlag | .schedule | .copy .. => .isTrue trivial

/-- The shell blocks on an empty ring, and a newline wakes it. -/
theorem no_lost_wakeup_shell :
    ∃ r, Run (Guarded Reader.Undisturbed Reader.Step) (bootReader default 0 0 0 0 Stdin.init 0 default)
        [.call .yield, .call (.start 0), .test, .setWaiting, .setFlag, .schedule, .key Stdin.newline] r ∧
      0 < r.kernel.stdin.inputCount ∧ ∀ p ∈ r.kernel.sched.queue, ¬SleepsOnStdin (r.kernel.sched.pcbs p) := by
  have hexec : ((runAll (fun m r => if r.Undisturbed m then r.handle 3 0 m else none)
      [.call .yield, .call (.start 0), .test, .setWaiting, .setFlag, .schedule, .key Stdin.newline]
      (bootReader default 0 0 0 0 Stdin.init 0 default)).any fun r => 0 < r.kernel.stdin.inputCount) = true := by
    decide +kernel
  obtain ⟨r, hr, hcount⟩ := (Option.any_eq_true _ _).1 hexec
  rw [decide_eq_true_eq] at hcount
  have hrun : Run (Guarded Reader.Undisturbed Reader.Step) (bootReader default 0 0 0 0 Stdin.init 0 default)
      [.call .yield, .call (.start 0), .test, .setWaiting, .setFlag, .schedule, .key Stdin.newline] r :=
    .of_runAll_guarded (fun _ _ _ h => ⟨3, 0, h⟩) hr
  exact ⟨r, hrun, hcount, no_lost_wakeup rfl hrun hcount⟩

/-- The newline comes after the test, and the shell sleeps with a line there. -/
theorem no_lost_wakeup_late :
    ∃ r, Run Reader.Step (bootReader default 0 0 0 0 Stdin.init 0 default)
        [.call .yield, .call (.start 0), .test, .key Stdin.newline, .setWaiting, .setFlag, .schedule] r ∧
      0 < r.kernel.stdin.inputCount ∧ ∃ p ∈ r.kernel.sched.queue, SleepsOnStdin (r.kernel.sched.pcbs p) := by
  have hexec : ((runAll (Reader.handle 3 0)
      [.call .yield, .call (.start 0), .test, .key Stdin.newline, .setWaiting, .setFlag, .schedule]
      (bootReader default 0 0 0 0 Stdin.init 0 default)).any fun r =>
        0 < r.kernel.stdin.inputCount ∧ ∃ p ∈ r.kernel.sched.queue, SleepsOnStdin (r.kernel.sched.pcbs p)) =
      true := by decide +kernel
  obtain ⟨r, hr, hlost⟩ := (Option.any_eq_true _ _).1 hexec
  exact ⟨r, .of_runAll (fun _ _ _ h => ⟨3, 0, h⟩) hr, by simpa using hlost⟩

/-! ## `do_exit` -/

/-- A process WAITING on pid `n`. -/
def SleepsOnPid (n : Int) (a : Pcb) : Prop := a.status = .waiting ∧ a.waitingOnPid = n

instance (n : Int) (a : Pcb) : Decidable (SleepsOnPid n a) := inferInstanceAs (Decidable (_ ∧ _))

theorem sleepsOnPid_ofSleepers (n : Int) : Sched.OfSleepers (SleepsOnPid n) := ⟨fun _ h => h.1, fun _ _ h => h⟩

/-- Where the active process is in `do_exit` (systemcall.c:141-148). -/
inductive ExitPlace
  | outside
  | finished (status : Word)
  | notified
  | freed

/-- FINISHED, and nobody told yet. -/
def ExitPlace.unannounced : ExitPlace → Bool
  | .finished _ => true
  | _ => false

structure Exiting where
  kernel : Kernel
  place : ExitPlace

inductive ExitMove
  | call (e : Event)
  | exit (status : Word)
  | notify
  | free
  | schedule
  | key (c : Byte)
  | tick

/-- Events that are one step: neither an interrupt nor an exit. -/
def WholeForExit : Event → Bool
  | .exit _ | .key _ | .tick => false
  | _ => true

/-- What happens next. `vma_free_pages` is empty; a tick that ends the time slice leaves the rest of the call
to whoever resumes the process. -/
def Exiting.handle (fuel : Nat) (rsp : Word) : ExitMove → Exiting → Option Exiting
  | .call e, ⟨k, .outside⟩ => if WholeForExit e then (k.handle fuel rsp e).map (⟨·, .outside⟩) else none
  | .exit status, ⟨k, .outside⟩ => some ⟨k.withSched (k.sched.modify k.sched.active Pcb.exits), .finished status⟩
  | .notify, ⟨k, .finished status⟩ =>
    some ⟨k.withSched (k.sched.notifyExitPid k.activePcb.pid status), .notified⟩
  | .free, ⟨k, .notified⟩ => some ⟨k, .freed⟩
  | .schedule, ⟨k, .freed⟩ => (k.sched.schedule fuel rsp).map fun s => ⟨k.withSched s, .outside⟩
  | .key c, ⟨k, place⟩ => (k.keyboard c).map (⟨·, place⟩)
  | .tick, ⟨k, place⟩ =>
    (k.timer fuel rsp).map (⟨·, if k.sched.timeSlice + 1 > 16 then .outside else place⟩)
  | _, _ => none

def Exiting.Step (r : Exiting) (m : ExitMove) (r' : Exiting) : Prop := ∃ fuel rsp, r.handle fuel rsp m = some r'

/-- A fork finds room in the ring. -/
def Exiting.Roomy (r : Exiting) : ExitMove → Prop
  | .call e => HasRoom r.kernel e
  | _ => True

/-- While `x` is FINISHED and has told nobody, no tick ends its time slice; and `p` does not call `waitpid` on `n`. -/
def Exiting.InTime (x p : Nat) (n : Int) (r : Exiting) : ExitMove → Prop
  | .tick => r.place.unannounced = true → r.kernel.sched.active = x → r.kernel.sched.timeSlice < 16
  | .call (.waitpid pid _) => r.kernel.sched.active = p → (pid.setWidth 32).toInt ≠ n
  | m => r.Roomy m

/-- The processes and the queue are sound; outside `do_exit` the active process can run. -/
structure Exiting.Inv (r : Exiting) : Prop where
  sound : r.kernel.sched.Sound
  runs : r.place = .outside → r.kernel.activePcb.runnable = true

/-- `p`, there already, is still to be told of the exit of `x`, or does not wait for it. -/
structure Exiting.Tells (x p : Nat) (r : Exiting) : Prop where
  pos : 0 < p
  le : p ≤ r.kernel.sched.created
  told : (r.place.unannounced = true ∧ r.kernel.sched.active = x ∧ p ∈ r.kernel.sched.queue) ∨
    ¬SleepsOnPid x (r.kernel.sched.pcbs p)

namespace Exiting
variable {r r' : Exiting} {m : ExitMove} {x : Nat} {n : Int}

theorem Inv.kernelSound (h : Inv ⟨k, .outside⟩) : Sound k := ⟨h.sound, h.runs rfl⟩

theorem Inv.active_pid (h : Inv r) : r.kernel.activePcb.pid = r.kernel.sched.active :=
  h.sound.tidy.pid_eq _ h.sound.active_pos h.sound.queue.active_le

theorem InTime.roomy {p : Nat} (h : r.InTime x p n m) : r.Roomy m := by
  cases m with
  | call e =>
    cases e with
    | waitpid => trivial
    | _ => exact h
  | _ => trivial

theorem Inv.step (h : Inv r) (hg : r.Roomy m) (hs : r.Step m r') :
    Inv r' ∧ r.kernel.sched.created ≤ r'.kernel.sched.created := by
  obtain ⟨fuel, rsp, hs⟩ := hs
  obtain ⟨k, place⟩ := r
  cases m with
  | call e =>
    cases place <;> first | cases hs | skip
    simp only [handle] at hs
    split at hs
    · obtain ⟨k', hk', rfl⟩ := Option.map_eq_some_iff.1 hs
      have heff := h.kernelSound.step hg ⟨fuel, rsp, hk'⟩
      exact ⟨⟨heff.sound.sched, fun _ => heff.sound.active_runs⟩, heff.created_le⟩
    · cases hs
  | exit status =>
    cases place <;> cases hs
    exact ⟨⟨h.sound.modify_active rfl Pcb.exits_sane, nofun⟩, Nat.le_refl _⟩
  | notify =>
    cases place <;> cases hs
    have hpid : k.activePcb.pid ≠ 0 := by
      rw [h.active_pid]
      exact Int.natCast_ne_zero.2 (Nat.ne_of_gt h.sound.active_pos)
    exact ⟨⟨h.sound.notify (h.sound.tidy.notifyExitPid hpid _), nofun⟩, Nat.le_refl _⟩
  | free =>
    cases place <;> cases hs
    exact ⟨⟨h.sound, nofun⟩, Nat.le_refl _⟩
  | schedule =>
    cases place <;> first | cases hs | skip
    obtain ⟨t, ht, rfl⟩ := Option.map_eq_some_iff.1 hs
    obtain ⟨hsound, hrun, -, hcreated⟩ := h.sound.schedule ht
    exact ⟨⟨hsound, fun _ => hrun⟩, Nat.le_of_eq hcreated.symm⟩
  | key c =>
    obtain ⟨k', hk', rfl⟩ := Option.map_eq_some_iff.1 hs
    obtain ⟨hsound, hcreated, -, -, hpcb, -⟩ := keyboard_sound h.sound hk'
    exact ⟨⟨hsound, fun hplace => (congrArg Pcb.runnable hpcb).trans (h.runs hplace)⟩, Nat.le_of_eq hcreated.symm⟩
  | tick =>
    obtain ⟨k', hk', rfl⟩ := Option.map_eq_some_iff.1 hs
    obtain ⟨hsound, hcreated, -, hslice⟩ := timer_sound h.sound hk'
    refine ⟨⟨hsound, fun hplace => ?_⟩, Nat.le_of_eq hcreated.symm⟩
    obtain ⟨-, hrun⟩ | ⟨hgoes, -, -, hpcb⟩ := hslice
    · exact hrun
    · rw [if_neg hgoes] at hplace
      exact (congrArg Pcb.runnable hpcb).trans (h.runs hplace)

/-- Only its own `waitpid` puts a process to sleep on a pid. -/
theorem Inv.sleepsOnPid (h : Inv r) {p : Nat} (hp : 0 < p) (hle : p ≤ r.kernel.sched.created) (hn : n ≠ 0)
    (hg : r.InTime x p n m) (hs : r.Step m r') (hsleeps : SleepsOnPid n (r'.kernel.sched.pcbs p)) :
    SleepsOnPid n (r.kernel.sched.pcbs p) := by
  obtain ⟨fuel, rsp, hs⟩ := hs
  obtain ⟨k, place⟩ := r
  cases m with
  | call e =>
    cases place <;> first | cases hs | skip
    simp only [handle] at hs
    split at hs
    · obtain ⟨k', hk', rfl⟩ := Option.map_eq_some_iff.1 hs
      have heff := h.kernelSound.step hg.roomy ⟨fuel, rsp, hk'⟩
      by_cases hact : p = k.sched.active
      · subst hact
        obtain ⟨pid, ret, rfl, hwait⟩ := heff.self.waiting hsleeps.1 (by rw [hsleeps.2]; exact hn)
        exact absurd (hwait.symm.trans hsleeps.2) (hg rfl)
      · have ht := heff.others p hp hle hact
        replace hsleeps : SleepsOnPid n (k'.sched.pcbs p) := hsleeps
        generalize k'.sched.pcbs p = a at ht hsleeps
        cases ht with
        | kept => exact hsleeps
        | killed | told | stdin | alarm => cases hsleeps.1
    · cases hs
  | exit status =>
    cases place <;> cases hs
    rw [withSched, Sched.modify_pcbs_apply] at hsleeps
    split at hsleeps
    · cases hsleeps.1
    · exact hsleeps
  | notify =>
    cases place <;> cases hs
    rename_i status
    replace hsleeps : SleepsOnPid n ((k.sched.notifyExitPid k.activePcb.pid status).pcbs p) := hsleeps
    exact (sleepsOnPid_ofSleepers n).of_notify hsleeps
  | free =>
    cases place <;> cases hs
    exact hsleeps
  | schedule =>
    cases place <;> first | cases hs | skip
    obtain ⟨t, ht, rfl⟩ := Option.map_eq_some_iff.1 hs
    exact (sleepsOnPid_ofSleepers n).of_schedule h.sound ht hsleeps
  | key c =>
    obtain ⟨k', hk', rfl⟩ := Option.map_eq_some_iff.1 hs
    obtain ⟨-, -, -, -, -, hwoken⟩ := keyboard_sound h.sound hk'
    exact hwoken (sleepsOnPid_ofSleepers n) hsleeps
  | tick =>
    obtain ⟨k', hk', rfl⟩ := Option.map_eq_some_iff.1 hs
    obtain ⟨-, -, hwoken, -⟩ := timer_sound h.sound hk'
    exact hwoken (sleepsOnPid_ofSleepers n) hsleeps

theorem Tells.step {p : Nat} (h : Inv r) (ht : Tells x p r) (hx : 0 < x) (hg : r.InTime x p x m) (hs : r.Step m r') :
    Tells x p r' := by
  have hcreated := (h.step hg.roomy hs).2
  refine ⟨ht.pos, Nat.le_trans ht.le hcreated, ?_⟩
  rcases ht.told with ⟨hplace, hact, hq⟩ | hno
  · -- nobody is told yet: only `notify`, an interrupt or nothing at all can come
    obtain ⟨fuel, rsp, hs⟩ := hs
    obtain ⟨k, place⟩ := r
    obtain ⟨status, rfl⟩ : ∃ status, place = .finished status := by
      cases place with
      | finished status => exact ⟨status, rfl⟩
      | _ => cases hplace
    cases m with
    | call | exit | free | schedule => cases hs
    | notify =>
      cases hs
      right
      intro hsleeps
      replace hsleeps : SleepsOnPid x ((k.sched.notifyExitPid k.activePcb.pid status).pcbs p) := hsleeps
      have hbefore := (sleepsOnPid_ofSleepers x).of_notify hsleeps
      have hpid : k.activePcb.pid = x := by rw [h.active_pid, hact]
      rw [Sched.notifyExitPid, Sched.notify_pcbs_apply,
        if_pos ⟨hq, hbefore.1, by rw [hpid]; exact decide_eq_true hbefore.2⟩] at hsleeps
      cases hsleeps.1
    | key c =>
      obtain ⟨k', hk', rfl⟩ := Option.map_eq_some_iff.1 hs
      obtain ⟨-, -, hactive, hqueue, -, -⟩ := keyboard_sound h.sound hk'
      exact .inl ⟨rfl, hactive.trans hact, hqueue ▸ hq⟩
    | tick =>
      obtain ⟨k', hk', rfl⟩ := Option.map_eq_some_iff.1 hs
      have hslice : ¬k.sched.timeSlice + 1 > 16 := by
        have hlt : k.sched.timeSlice < 16 := hg rfl hact
        omega
      obtain ⟨-, -, -, ⟨hends, -⟩ | ⟨-, hactive, hqueue, -⟩⟩ := timer_sound h.sound hk'
      · exact absurd hends hslice
      · rw [if_neg hslice]
        exact .inl ⟨rfl, hactive.trans hact, hqueue ▸ hq⟩
  · exact .inr fun hsleeps => hno (h.sleepsOnPid ht.pos ht.le (by omega) hg hs hsleeps)

end Exiting

/-- The kernel as `init` leaves it, its idle process in no system call. -/
def bootExiting (s : Sched) (idleStack idlePml4 shellStack shellPml4 : Word) (stdin : Stdin) (ticks : Word)
    (archive : Tarfs) : Exiting :=
  ⟨boot s idleStack idlePml4 shellStack shellPml4 stdin ticks archive, .outside⟩

theorem Exiting.Inv.boot {s : Sched} (h0 : s.created = 0) (idleStack idlePml4 shellStack shellPml4 : Word)
    (stdin : Stdin) (ticks : Word) (archive : Tarfs) :
    Exiting.Inv (bootExiting s idleStack idlePml4 shellStack shellPml4 stdin ticks archive) := by
  have hsound := Sound.boot h0 idleStack idlePml4 shellStack shellPml4 stdin ticks archive
  exact ⟨hsound.sched, fun _ => hsound.active_runs⟩

/-- **An exit notifies**: if `p` is queued WAITING on the active process when that enters `do_exit`, then in every
later state in which another process is active `p` does not wait on it any more, as long as no tick ends the time
slice between the store of FINISHED and `notify_exit_pid`, `p` itself does not wait on that pid again, and no fork
finds the ring full. -/
theorem exit_notifies {s : Sched} (h0 : s.created = 0) {idleStack idlePml4 shellStack shellPml4 : Word}
    {stdin : Stdin} {ticks : Word} {archive : Tarfs} {before moves : List ExitMove} {status : Word} {p : Nat}
    {r₀ r₁ r : Exiting}
    (hbefore : Run (Guarded Exiting.Roomy Exiting.Step)
      (bootExiting s idleStack idlePml4 shellStack shellPml4 stdin ticks archive) before r₀)
    (hp : p ∈ r₀.kernel.sched.queue) (hexit : r₀.Step (.exit status) r₁)
    (hrun : Run (Guarded (Exiting.InTime r₀.kernel.sched.active p r₀.kernel.activePcb.pid) Exiting.Step) r₁ moves r)
    (hactive : r.kernel.sched.active ≠ r₀.kernel.sched.active) :
    ¬SleepsOnPid r₀.kernel.activePcb.pid (r.kernel.sched.pcbs p) := by
  have hinv : Exiting.Inv r₀ := hbefore.invariant Exiting.Inv (.boot h0 ..) fun _ _ _ hi hs =>
    (hi.step hs.1 hs.2).1
  have htells : Exiting.Tells r₀.kernel.sched.active p r₁ := by
    obtain ⟨fuel, rsp, hexit⟩ := hexit
    obtain ⟨k, place⟩ := r₀
    cases place <;> cases hexit
    exact ⟨hinv.sound.queue.pos p (List.mem_cons_of_mem _ hp), hinv.sound.queue.mem_queue_le hp,
      .inl ⟨rfl, rfl, hp⟩⟩
  rw [hinv.active_pid] at hrun ⊢
  have hend := hrun.invariant (fun r => Exiting.Inv r ∧ Exiting.Tells r₀.kernel.sched.active p r)
    ⟨(hinv.step (m := .exit status) trivial hexit).1, htells⟩ fun _ _ _ hi hs =>
      ⟨(hi.1.step hs.1.roomy hs.2).1, hi.2.step hi.1 hinv.sound.active_pos hs.1 hs.2⟩
  rcases hend.2.told with ⟨-, hact, -⟩ | hno
  · exact absurd hact hactive
  · exact hno

instance (r : Exiting) : (m : ExitMove) → Decidable (r.Roomy m)
  | .call (.fork ..) => inferInstanceAs (Decidable (r.kernel.sched.queue.length ≤ processQueueSize - 2))
  | .call (.exit _) | .call (.kill ..) | .call (.waitpid ..) | .call (.alarm _) | .call (.read ..) | .call .yield
  | .call (.exec ..) | .call (.start _) | .call (.key _) | .call .tick | .exit _ | .notify | .free | .schedule
  | .key _ | .tick => .isTrue trivial

/-- The shell forks and waits for its child, which runs. -/
def waitedFor : List ExitMove :=
  [.call .yield, .call (.start 0), .call (.fork 0 0 0), .call (.waitpid 3 0), .call .yield]

/-- The child's exit wakes the shell. -/
theorem exit_notifies_shell :
    ∃ r₀ r₁ r, Run (Guarded Exiting.Roomy Exiting.Step) (bootExiting default 0 0 0 0 Stdin.init 0 default)
        waitedFor r₀ ∧ 2 ∈ r₀.kernel.sched.queue ∧
      SleepsOnPid r₀.kernel.activePcb.pid (r₀.kernel.sched.pcbs 2) ∧ r₀.Step (.exit 0) r₁ ∧
      Run Exiting.Step r₁ [.notify, .free, .schedule] r ∧
      ¬SleepsOnPid r₀.kernel.activePcb.pid (r.kernel.sched.pcbs 2) := by
  have hexec : ((runAll (fun m r => if r.Roomy m then r.handle 3 0 m else none) waitedFor
      (bootExiting default 0 0 0 0 Stdin.init 0 default)).any fun r₀ => 2 ∈ r₀.kernel.sched.queue ∧
        SleepsOnPid r₀.kernel.activePcb.pid (r₀.kernel.sched.pcbs 2) ∧
        (r₀.handle 3 0 (.exit 0)).any fun r₁ =>
          (runAll (Exiting.handle 3 0) [.notify, .free, .schedule] r₁).any fun r =>
            r.kernel.sched.active ≠ r₀.kernel.sched.active) = true := by decide +kernel
  simp only [Option.any_eq_true, decide_eq_true_eq] at hexec
  obtain ⟨r₀, hr₀, hq, hsleeps, r₁, hr₁, r, hr, hactive⟩ := hexec
  have hbefore : Run (Guarded Exiting.Roomy Exiting.Step) (bootExiting default 0 0 0 0 Stdin.init 0 default)
      waitedFor r₀ := .of_runAll_guarded (fun _ _ _ h => ⟨3, 0, h⟩) hr₀
  have hrun : Run Exiting.Step r₁ [.notify, .free, .schedule] r := .of_runAll (fun _ _ _ h => ⟨3, 0, h⟩) hr
  refine ⟨r₀, r₁, r, hbefore, hq, hsleeps, ⟨3, 0, hr₁⟩, hrun, ?_⟩
  refine exit_notifies rfl hbefore hq ⟨3, 0, hr₁⟩ (hrun.guard fun m hm _ => ?_) hactive
  rcases List.mem_cons.1 hm with rfl | hm
  · trivial
  rcases List.mem_cons.1 hm with rfl | hm
  · trivial
  · rw [List.mem_singleton.1 hm]
    trivial

/-- The child is FINISHED at the last tick of its time slice, and nobody tells the shell. -/
theorem exit_notifies_preempted :
    ∃ r₀ r₁ r, Run (Guarded Exiting.Roomy Exiting.Step) (bootExiting default 0 0 0 0 Stdin.init 0 default)
        (waitedFor ++ List.replicate 16 .tick) r₀ ∧ 2 ∈ r₀.kernel.sched.queue ∧
      SleepsOnPid r₀.kernel.activePcb.pid (r₀.kernel.sched.pcbs 2) ∧ r₀.Step (.exit 0) r₁ ∧
      Run Exiting.Step r₁ [.tick] r ∧ r.kernel.sched.active ≠ r₀.kernel.sched.active ∧
      SleepsOnPid r₀.kernel.activePcb.pid (r.kernel.sched.pcbs 2) := by
  have hexec : ((runAll (fun m r => if r.Roomy m then r.handle 3 0 m else none)
      (waitedFor ++ List.replicate 16 .tick) (bootExiting default 0 0 0 0 Stdin.init 0 default)).any fun r₀ =>
        2 ∈ r₀.kernel.sched.queue ∧ SleepsOnPid r₀.kernel.activePcb.pid (r₀.kernel.sched.pcbs 2) ∧
        (r₀.handle 3 0 (.exit 0)).any fun r₁ => (runAll (Exiting.handle 3 0) [.tick] r₁).any fun r =>
          r.kernel.sched.active ≠ r₀.kernel.sched.active ∧
            SleepsOnPid r₀.kernel.activePcb.pid (r.kernel.sched.pcbs 2)) = true := by decide +kernel
  simp only [Option.any_eq_true, decide_eq_true_eq] at hexec
  obtain ⟨r₀, hr₀, hq, hsleeps, r₁, hr₁, r, hr, hlost⟩ := hexec
  exact ⟨r₀, r₁, r, .of_runAll_guarded (fun _ _ _ h => ⟨3, 0, h⟩) hr₀, hq, hsleeps, ⟨3, 0, hr₁⟩,
    .of_runAll (fun _ _ _ h => ⟨3, 0, h⟩) hr, hlost⟩

end Kernel
end Sbuos
