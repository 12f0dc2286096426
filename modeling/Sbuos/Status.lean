import Sbuos.Syscall
import Sbuos.ReadyQueue
/-!
# Process states (sys/process_helpers.c, sys/systemcall.c)

Every event keeps three facts together: the ready queue and the processes belong together (`QueueInv`),
pids are the numbers of creation and the waiting fields agree with the status (`Tidy`), and the active
process can run. `Kernel.Sound` joins them; it holds in every state of every run in which no fork finds the
ring full.
-/
namespace Sbuos
open Lib

/-- At most one of the three events is waited for. -/
def Pcb.OneEvent (p : Pcb) : Prop :=
  (p.waitingOnStdin = 0 ∧ p.waitingOnPid = 0) ∨ (p.waitingOnStdin = 0 ∧ p.waitingOnClock = 0) ∨
    (p.waitingOnPid = 0 ∧ p.waitingOnClock = 0)

/-- The waiting fields agree with the status. -/
structure Pcb.Sane (p : Pcb) : Prop where
  idle : p.runnable = true → p.Idle
  oneEvent : p.status = .waiting → p.OneEvent

namespace Pcb
variable {p : Pcb}

theorem Idle.sane (h : p.Idle) : p.Sane := ⟨fun _ => h, fun _ => .inl ⟨h.stdin, h.pid⟩⟩

/-- Only the status and the waiting fields matter. -/
theorem Sane.congr {q : Pcb} (h : p.Sane) (hst : q.status = p.status) (htext : q.text = p.text)
    (hpid : q.waitingOnPid = p.waitingOnPid) (hclock : q.waitingOnClock = p.waitingOnClock) : q.Sane := by
  have hstdin : q.waitingOnStdin = p.waitingOnStdin := congrFun htext 100
  refine ⟨fun hr => ?_, fun hw => ?_⟩
  · rw [runnable, hst] at hr
    have hi := h.idle hr
    exact ⟨hstdin.trans hi.stdin, hpid.trans hi.pid, hclock.trans hi.clock⟩
  · rw [hst] at hw
    have ho := h.oneEvent hw
    unfold OneEvent at ho ⊢
    rwa [hstdin, hpid, hclock]

theorem exits_sane : p.exits.Sane := ⟨nofun, nofun⟩

theorem Idle.blocksOnStdin_sane (h : p.Idle) : p.blocksOnStdin.Sane :=
  ⟨nofun, fun _ => .inr (.inr ⟨h.pid, h.clock⟩)⟩

theorem Idle.blocksOnPid_sane (h : p.Idle) (pid ret : Word) : (p.blocksOnPid pid ret).Sane :=
  ⟨nofun, fun _ => .inr (.inl ⟨h.stdin, h.clock⟩)⟩

theorem Idle.blocksOnClock_sane (h : p.Idle) (clock : Word) : (p.blocksOnClock clock).Sane :=
  ⟨nofun, fun _ => .inl ⟨h.stdin, h.pid⟩⟩

theorem Idle.execs_sane (h : p.Idle) (abspath : Nat → Byte) (userSp : Word) : (p.execs abspath userSp).Sane := by
  have hstdin : (p.execs abspath userSp).waitingOnStdin = 0 := copyPname_waitingOnStdin.trans h.stdin
  exact Idle.sane ⟨hstdin, h.pid, h.clock⟩

theorem Idle.forked {parent : Pcb} (h : parent.Idle) (pid : Int) (kernelStack pml4 pml4' : Word) :
    (forked parent pml4' (p.fresh pid kernelStack pml4)).Idle :=
  ⟨forked_waitingOnStdin (fresh_waitingOnStdin ..) h.stdin _, rfl, rfl⟩

end Pcb

namespace Sched
variable {s t : Sched} {p q v : Nat}

/-- Pids are numbered as the pcbs are created, and the pcbs are sane. -/
structure Tidy (s : Sched) : Prop where
  pid_eq : ∀ p, 0 < p → p ≤ s.created → (s.pcbs p).pid = p
  prevPid_eq : s.prevPid = s.created
  created_lt : s.created < 2 ^ 31
  sane : ∀ p, 0 < p → p ≤ s.created → (s.pcbs p).Sane

namespace Tidy

theorem modify (h : Tidy s) (f : Pcb → Pcb) (hpid : (f (s.pcbs v)).pid = (s.pcbs v).pid)
    (hf : (f (s.pcbs v)).Sane) : Tidy (s.modify v f) where
  pid_eq p hp hle := by
    rw [modify_pcbs_apply]
    split
    · subst p; exact hpid.trans (h.pid_eq v hp hle)
    · exact h.pid_eq p hp hle
  prevPid_eq := h.prevPid_eq
  created_lt := h.created_lt
  sane p hp hle := by
    rw [modify_pcbs_apply]
    split
    · subst p; exact hf
    · exact h.sane p hp hle

/-- Waking leaves a sane pcb when the event cleared is the one waited for. -/
theorem notify (h : Tidy s) {waits : Pcb → Bool} {clear : Pcb → Pcb} (hpid : ∀ p, (clear p).pid = p.pid)
    (hw : ∀ p : Pcb, p.OneEvent → waits p = true → { clear p with status := .running : Pcb }.Idle) :
    Tidy (s.notify waits clear) where
  pid_eq p hp hle := by
    rw [notify_pcbs_apply]
    split
    · exact (hpid _).trans (h.pid_eq p hp hle)
    · exact h.pid_eq p hp hle
  prevPid_eq := h.prevPid_eq
  created_lt := h.created_lt
  sane p hp hle := by
    rw [notify_pcbs_apply]
    split
    · rename_i hwake
      exact (hw _ ((h.sane p hp hle).oneEvent hwake.2.1) hwake.2.2).sane
    · exact h.sane p hp hle

theorem notifyStdin (h : Tidy s) : Tidy s.notifyStdin :=
  h.notify (fun _ => rfl) fun p hone hw => by
    have hstdin : p.waitingOnStdin ≠ 0 := by simpa using hw
    obtain ⟨h0, -⟩ | ⟨h0, -⟩ | ⟨hpid, hclock⟩ := hone
    · exact absurd h0 hstdin
    · exact absurd h0 hstdin
    · exact ⟨Pcb.setWaitingOnStdin_waitingOnStdin (p := p) 0, hpid, hclock⟩

theorem notifyAlarm (h : Tidy s) (clock : Word) : Tidy (s.notifyAlarm clock) :=
  h.notify (fun _ => rfl) fun p hone hw => by
    have hclock : p.waitingOnClock ≠ 0 := by simp at hw; exact hw.1
    obtain ⟨hstdin, hpid⟩ | ⟨-, h0⟩ | ⟨-, h0⟩ := hone
    · exact ⟨hstdin, hpid, rfl⟩
    · exact absurd h0 hclock
    · exact absurd h0 hclock

theorem notifyExitPid (h : Tidy s) {pid : Int} (hpid : pid ≠ 0) (status : Word) :
    Tidy (s.notifyExitPid pid status) :=
  h.notify (fun _ => rfl) fun p hone hw => by
    have hwait : p.waitingOnPid = pid := by simpa using hw
    obtain ⟨-, h0⟩ | ⟨hstdin, hclock⟩ | ⟨h0, -⟩ := hone
    · exact absurd (hwait.symm.trans h0) hpid
    · exact ⟨hstdin, rfl, hclock⟩
    · exact absurd (hwait.symm.trans h0) hpid

/-- `process_run` of a new process `c`. -/
theorem processRun (h : Tidy s) (hlt : s.prevPid + 1 < 2 ^ 31) {c : Pcb} (hidle : c.Idle)
    (hpid : c.pid = s.prevPid + 1) :
    Tidy (Sched.processRun (s.created + 1)
      { s with
        pcbs := Function.update s.pcbs (s.created + 1) c
        created := s.created + 1
        prevPid := s.prevPid + 1 }) := by
  have hold : ∀ p, p ≤ s.created → Function.update s.pcbs (s.created + 1) c p = s.pcbs p := fun p hp =>
    Function.update_of_ne (by omega) _ _
  have hprev := h.prevPid_eq
  refine ⟨fun p hp hle => ?_, ?_, ?_, fun p hp hle => ?_⟩
  · simp only [Sched.processRun, enqueueProcess_pcbs, enqueueProcess_created] at hle ⊢
    rcases Nat.lt_or_eq_of_le hle with hlt' | rfl
    · rw [hold p (by omega)]; exact h.pid_eq p hp (by omega)
    · rw [Function.update_self, hpid, hprev]; rfl
  · simp only [Sched.processRun, enqueueProcess_prevPid, enqueueProcess_created, hprev]; rfl
  · simp only [Sched.processRun, enqueueProcess_created]; omega
  · simp only [Sched.processRun, enqueueProcess_pcbs, enqueueProcess_created] at hle ⊢
    rcases Nat.lt_or_eq_of_le hle with hlt' | rfl
    · rw [hold p (by omega)]; exact h.sane p hp (by omega)
    · rw [Function.update_self]; exact hidle.sane

end Tidy

/-- The active process is not queued, so no notifier reaches it. -/
theorem QueueInv.notify_active_pcb (h : QueueInv s) {waits : Pcb → Bool} {clear : Pcb → Pcb} :
    (s.notify waits clear).pcbs s.active = s.pcbs s.active := by
  rw [notify_pcbs_apply, if_neg fun hw => (List.nodup_cons.1 h.nodup).1 hw.1]

/-- The ready queue and the processes. -/
structure Sound (s : Sched) : Prop where
  queue : QueueInv s
  tidy : Tidy s

namespace Sound

theorem init (h : Booted s) : Sound s where
  queue := .init h
  tidy :=
    { pid_eq := fun p hp hle => h.pid_eq p hp (h.created_eq ▸ hle)
      prevPid_eq := by rw [h.prevPid_eq, h.created_eq]; rfl
      created_lt := by rw [h.created_eq]; decide
      sane := fun p hp hle => (h.idle p hp (h.created_eq ▸ hle)).sane }

theorem active_pos (h : Sound s) : 0 < s.active := h.queue.pos _ List.mem_cons_self

theorem active_sane (h : Sound s) : (s.pcbs s.active).Sane := h.tidy.sane _ h.active_pos h.queue.active_le

/-- A store to the active pcb. -/
theorem modify_active (h : Sound s) {f : Pcb → Pcb} (hpid : (f (s.pcbs s.active)).pid = (s.pcbs s.active).pid)
    (hsane : (f (s.pcbs s.active)).Sane) : Sound (s.modify s.active f) :=
  ⟨h.queue.modify_active f, h.tidy.modify f hpid hsane⟩

theorem notify (h : Sound s) {waits : Pcb → Bool} {clear : Pcb → Pcb} (ht : Tidy (s.notify waits clear)) :
    Sound (s.notify waits clear) := ⟨h.queue.notify _ _, ht⟩

theorem queue_exits (h : Sound s) (v : Nat) : QueueInv (s.modify v Pcb.exits) := by
  refine h.queue.of_pcbs _ fun q _ hf => ?_
  by_cases hqv : q = v
  · subst hqv; simp [Pcb.exits]
  · simpa [hqv] using hf

/-- A process that finishes, and the announcement of it. -/
theorem finish (h : Sound s) (hv : 0 < v) (hvle : v ≤ s.created) (status : Word) :
    Sound ((s.modify v Pcb.exits).notifyExitPid (s.pcbs v).pid status) :=
  ⟨(h.queue_exits v).notify _ _,
    (h.tidy.modify _ rfl Pcb.exits_sane).notifyExitPid (by rw [h.tidy.pid_eq v hv hvle]; omega) _⟩

theorem getNextContext (h : Sound s) {fuel : Nat} (ht : s.getNextContext fuel = some t) :
    Sound t ∧ (t.pcbs t.active).runnable = true := by
  obtain ⟨hq, hpcbs, hcreated, hprev, hrun⟩ := h.queue.getNextContext ht
  refine ⟨⟨hq, ?_⟩, hrun⟩
  exact
    { pid_eq := by rw [hpcbs, hcreated]; exact h.tidy.pid_eq
      prevPid_eq := by rw [hprev, hcreated]; exact h.tidy.prevPid_eq
      created_lt := by rw [hcreated]; exact h.tidy.created_lt
      sane := by rw [hpcbs, hcreated]; exact h.tidy.sane }

theorem schedule (h : Sound s) {fuel : Nat} {rsp : Word} (ht : s.schedule fuel rsp = some t) :
    Sound t ∧ (t.pcbs t.active).runnable = true ∧
      t.pcbs = (s.modify s.active fun p => { p with kernelSp := rsp }).pcbs ∧ t.created = s.created := by
  have hstored : Sound (s.modify s.active fun p => { p with kernelSp := rsp }) :=
    h.modify_active rfl (h.active_sane.congr rfl rfl rfl rfl)
  obtain ⟨ht', hrun⟩ := hstored.getNextContext ht
  obtain ⟨-, hpcbs, hcreated, -⟩ := hstored.queue.getNextContext ht
  exact ⟨ht', hrun, hpcbs, hcreated⟩

/-- `schedule` returns as long as some process can run. -/
theorem schedule_returns (h : Sound s) (hp : 0 < p) (hle : p ≤ s.created) (hr : (s.pcbs p).runnable = true)
    (rsp : Word) : ∃ fuel t, s.schedule fuel rsp = some t := by
  have hstored : Sound (s.modify s.active fun p => { p with kernelSp := rsp }) :=
    h.modify_active rfl (h.active_sane.congr rfl rfl rfl rfl)
  refine hstored.queue.getNextContext_returns hp hle ?_
  rw [modify_pcbs_apply]
  split
  · exact hr
  · exact hr

theorem withCr3 (h : Sound s) (cr3 : Word) : Sound { s with cr3 := cr3 } where
  queue := ⟨h.queue.head_lt, h.queue.tail_lt, h.queue.slots, h.queue.pos, h.queue.active_le, h.queue.nodup,
    h.queue.live⟩
  tidy := ⟨h.tidy.pid_eq, h.tidy.prevPid_eq, h.tidy.created_lt, h.tidy.sane⟩

theorem withTimeSlice (h : Sound s) (n : Int) : Sound { s with timeSlice := n } where
  queue := ⟨h.queue.head_lt, h.queue.tail_lt, h.queue.slots, h.queue.pos, h.queue.active_le, h.queue.nodup,
    h.queue.live⟩
  tidy := ⟨h.tidy.pid_eq, h.tidy.prevPid_eq, h.tidy.created_lt, h.tidy.sane⟩

/-- `process_run` of a new process `c`, with room in the ring. -/
theorem processRun (h : Sound s) (hroom : s.queue.length ≤ processQueueSize - 2)
    (hlt : s.prevPid + 1 < 2 ^ 31) {c : Pcb} (hidle : c.Idle) (hpid : c.pid = s.prevPid + 1)
    (hrun : c.status = .running) :
    Sound (Sched.processRun (s.created + 1)
      { s with
        pcbs := Function.update s.pcbs (s.created + 1) c
        created := s.created + 1
        prevPid := s.prevPid + 1 }) := by
  have hold : ∀ p, p ≤ s.created → Function.update s.pcbs (s.created + 1) c p = s.pcbs p := fun p hp =>
    Function.update_of_ne (by omega) _ _
  refine ⟨h.queue.processRun ?_ (fun p hp => by rw [hold p hp]) ?_ _, h.tidy.processRun hlt hidle hpid⟩
  · simp only [processQueueSize] at *; omega
  · rw [Function.update_self, hrun]; decide

end Sound

end Sched

namespace Kernel
variable {k k' : Kernel} {e : Event} {p : Nat} {fuel : Nat} {rsp : Word}

/-- The processes and the queue are sound, and the process that makes the next call can run. -/
structure Sound (k : Kernel) : Prop where
  sched : k.sched.Sound
  active_runs : k.activePcb.runnable = true

/-- A fork finds room in the ring. -/
def HasRoom (k : Kernel) : Event → Prop
  | .fork .. => k.sched.queue.length ≤ processQueueSize - 2
  | _ => True

/-- The event finishes the process of this pid with this status: its exit, or a kill that succeeds. -/
def Announces (k : Kernel) : Event → Int → Word → Prop
  | .exit status, pid, status' => pid = k.activePcb.pid ∧ status' = status
  | .kill pid sig, pid', status' => (k.doKill pid sig).2 = 0 ∧ pid' = (pid.setWidth 32).toInt ∧ status' = sig
  | _, _, _ => False

/-- What an event makes of the pcb of a process that did not cause it. -/
inductive Touches (k : Kernel) (p : Nat) : Event → Pcb → Prop
  | kept {e : Event} :
      (∀ pid status, k.Announces e pid status → (k.sched.pcbs p).status = .waiting →
        (k.sched.pcbs p).waitingOnPid ≠ pid) →
      Touches k p e (k.sched.pcbs p)
  | killed {sig : Word} : k.Announces (.kill (BitVec.ofInt 64 (k.sched.pcbs p).pid) sig) (k.sched.pcbs p).pid sig →
      Touches k p (.kill (BitVec.ofInt 64 (k.sched.pcbs p).pid) sig) { k.sched.pcbs p with status := .finished }
  | told {e : Event} {pid : Int} {status : Word} : k.Announces e pid status →
      (k.sched.pcbs p).status = .waiting → (k.sched.pcbs p).waitingOnPid = pid →
      Touches k p e { k.sched.pcbs p with waitingOnPid := 0, exitNotifyStatus := status, status := .running }
  | stdin {c : Byte} : (k.sched.pcbs p).status = .waiting → (k.sched.pcbs p).waitingOnStdin ≠ 0 →
      Touches k p (.key c) { (k.sched.pcbs p).setWaitingOnStdin 0 with status := .running }
  | alarm : (k.sched.pcbs p).status = .waiting → (k.sched.pcbs p).waitingOnClock ≠ 0 →
      Touches k p .tick { k.sched.pcbs p with waitingOnClock := 0, status := .running }

/-- Nothing but a kill finishes another process, and nothing revives one. -/
theorem Touches.finished {a : Pcb} (h : Touches k p e a) (hf : (k.sched.pcbs p).status = .finished) :
    a.status = .finished := by
  cases h with
  | kept => exact hf
  | killed => rfl
  | told _ hw | stdin hw | alarm hw =>
    rw [hf] at hw
    cases hw

/-- The events that leave the active process as it is. -/
def Idles : Event → Prop
  | .yield | .key _ | .tick => True
  | _ => False

/-- What an event makes of the pcb of the active process. -/
structure Acts (k : Kernel) (e : Event) (a : Pcb) : Prop where
  finished : a.status = .finished → ∃ status, e = .exit status
  waiting : a.status = .waiting → a.waitingOnPid ≠ 0 →
    ∃ pid ret, e = .waitpid pid ret ∧ a.waitingOnPid = (pid.setWidth 32).toInt
  idles : Idles e → a.status = k.activePcb.status

/-- What a step does. -/
structure Effect (k : Kernel) (e : Event) (k' : Kernel) : Prop where
  sound : Sound k'
  created_le : k.sched.created ≤ k'.sched.created
  others : ∀ p, 0 < p → p ≤ k.sched.created → p ≠ k.sched.active → k.Touches p e (k'.sched.pcbs p)
  self : k.Acts e (k'.sched.pcbs k.sched.active)
  child : ∀ p, k.sched.created < p → p ≤ k'.sched.created → (k'.sched.pcbs p).status = .running

/-- The pid that `do_kill` announces is the one `kill_pid` found. -/
theorem pid_roundtrip {n : Nat} (hn : n < 2 ^ 31) :
    ((BitVec.ofInt 64 (n : Int)).setWidth 32).toInt = n := by
  rw [BitVec.ofInt_natCast, BitVec.setWidth_ofNat_of_le (by decide), BitVec.toInt_eq_toNat_of_lt] <;>
    rw [BitVec.toNat_ofNat] <;> omega

/-- `do_kill` finds nobody, or it finishes one queued process and announces its pid. -/
theorem doKill_cases (ht : k.sched.Tidy) (hq : ∀ v ∈ k.sched.queue, 0 < v ∧ v ≤ k.sched.created)
    (pid sig : Word) : k.doKill pid sig = (k, -1) ∨ ∃ v ∈ k.sched.queue, BitVec.ofInt 64 (k.sched.pcbs v).pid = pid ∧
      (pid.setWidth 32).toInt = (k.sched.pcbs v).pid ∧ k.doKill pid sig =
        (k.withSched ((k.sched.modify v Pcb.exits).notifyExitPid (k.sched.pcbs v).pid sig), 0) := by
  rcases hfind : k.sched.queue.find? fun p => BitVec.ofInt 64 (k.sched.pcbs p).pid = pid with _ | v
  · left
    simp [Kernel.doKill, Sched.killPid, hfind, withSched]
  · right
    have hv : v ∈ k.sched.queue := List.mem_of_find?_eq_some hfind
    have hpid : BitVec.ofInt 64 (k.sched.pcbs v).pid = pid := by simpa using List.find?_some hfind
    obtain ⟨hpos, hle⟩ := hq v hv
    have hannounced : (pid.setWidth 32).toInt = (k.sched.pcbs v).pid := by
      rw [← hpid, ht.pid_eq v hpos hle]
      exact pid_roundtrip (Nat.lt_of_le_of_lt hle ht.created_lt)
    refine ⟨v, hv, hpid, hannounced, ?_⟩
    simp only [Kernel.doKill, Sched.killPid, hfind, hannounced]
    rfl

/-- `do_fork` creates a process that is ready to run and waits for nothing. -/
theorem doFork_creates {kernelStack pml4 pml4' ret : Word} (hle : k.sched.active ≤ k.sched.created)
    (hidle : k.activePcb.Idle) (h : k.doFork kernelStack pml4 pml4' rsp = some (k', ret)) :
    ∃ (c : Pcb) (cr3 : Word), c.Idle ∧ c.pid = k.sched.prevPid + 1 ∧ c.status = .running ∧
      k.sched.prevPid + 1 < 2 ^ 31 ∧ k' = k.withSched { Sched.processRun (k.sched.created + 1)
        { k.sched with
          pcbs := Function.update k.sched.pcbs (k.sched.created + 1) c
          created := k.sched.created + 1
          prevPid := k.sched.prevPid + 1 } with cr3 := cr3 } := by
  unfold Kernel.doFork at h
  split at h
  · rename_i hlt
    cases h
    rw [Sched.getForkedPcb_eq k.sched kernelStack pml4 pml4' hle]
    have hchild := hidle.forked (p := k.sched.pcbs (k.sched.created + 1)) (k.sched.prevPid + 1) kernelStack pml4 pml4'
    have hpid : (Pcb.forked k.activePcb pml4' (Pcb.fresh (k.sched.prevPid + 1) kernelStack pml4
        (k.sched.pcbs (k.sched.created + 1)))).pid = k.sched.prevPid + 1 := rfl
    have hrun : (Pcb.forked k.activePcb pml4' (Pcb.fresh (k.sched.prevPid + 1) kernelStack pml4
        (k.sched.pcbs (k.sched.created + 1)))).status = .running := rfl
    unfold activePcb at hchild hpid hrun
    generalize Pcb.forked (k.sched.pcbs k.sched.active) pml4' (Pcb.fresh (k.sched.prevPid + 1) kernelStack pml4
      (k.sched.pcbs (k.sched.created + 1))) = c at *
    simp only [Sched.modify, Function.update_self, Function.update_idem]
    let sp := c.kernelStack + rsp -
      (Function.update k.sched.pcbs (k.sched.created + 1) c k.sched.active).kernelStack + 48
    exact ⟨{ c with kernelSp := sp }, _, ⟨hchild.stdin, hchild.pid, hchild.clock⟩, hpid, hrun, hlt, rfl⟩
  · cases h

namespace Sound

theorem queue_created (h : Sound k) (v : Nat) (hv : v ∈ k.sched.queue) : 0 < v ∧ v ≤ k.sched.created :=
  ⟨h.sched.queue.pos v (List.mem_cons_of_mem _ hv), h.sched.queue.mem_queue_le hv⟩

theorem idle (h : Sound k) : k.activePcb.Idle := h.sched.active_sane.idle h.active_runs

theorem live (h : Sound k) : k.activePcb.status ≠ .finished := Pcb.runnable_ne_finished h.active_runs

theorem not_waiting (h : Sound k) : k.activePcb.status ≠ .waiting := by
  intro hw
  have hr := h.active_runs
  rw [Pcb.runnable, hw] at hr
  cases hr

/-- An active process that goes on with nothing to wait for. -/
theorem acts (h : Sound k) {a : Pcb} (hst : a.status = k.activePcb.status) : k.Acts e a where
  finished hf := absurd (hst.symm.trans hf) h.live
  waiting hw := absurd (hst.symm.trans hw) h.not_waiting
  idles _ := hst

theorem acts_of_runnable {a : Pcb} (hr : a.runnable = true) (he : ¬Idles e) : k.Acts e a where
  finished hf := absurd hf (Pcb.runnable_ne_finished hr)
  waiting hw := by
    rw [Pcb.runnable, hw] at hr
    cases hr
  idles hi := absurd hi he

theorem acts_of_waiting {a : Pcb} (hst : a.status = .waiting)
    (hwait : a.waitingOnPid ≠ 0 → ∃ pid ret, e = .waitpid pid ret ∧ a.waitingOnPid = (pid.setWidth 32).toInt)
    (he : ¬Idles e) : k.Acts e a where
  finished hf := by
    rw [hst] at hf
    cases hf
  waiting _ := hwait
  idles hi := absurd hi he

/-- What `schedule` leaves is a state like the one before. -/
theorem of_schedule {s : Sched} (h : s.Sound) (hs : (s.schedule fuel rsp).map k.withSched = some k') :
    Sound k' ∧ (∀ p ≠ s.active, k'.sched.pcbs p = s.pcbs p) ∧
      k'.sched.pcbs s.active = { s.pcbs s.active with kernelSp := rsp } ∧ k'.sched.created = s.created := by
  obtain ⟨t, ht, rfl⟩ := Option.map_eq_some_iff.1 hs
  obtain ⟨hsound, hrun, hpcbs, hcreated⟩ := h.schedule ht
  refine ⟨⟨hsound, hrun⟩, fun p hne => ?_, ?_, hcreated⟩
  · exact (congrFun hpcbs p).trans (Sched.modify_pcbs_of_ne _ _ _ hne)
  · exact (congrFun hpcbs _).trans (Sched.modify_pcbs_self ..)

/-- A call that changes the active pcb alone and blocks, or gives way. -/
theorem blockWith (h : Sound k) {f : Pcb → Pcb} (hpid : (f k.activePcb).pid = k.activePcb.pid)
    (hsane : (f k.activePcb).Sane) (hquiet : ∀ pid status, ¬k.Announces e pid status)
    (hself : k.Acts e { f k.activePcb with kernelSp := rsp }) (hs : k.blockWith f fuel rsp = some k') :
    Effect k e k' := by
  have hstored : (k.sched.modify k.sched.active f).Sound := h.sched.modify_active hpid hsane
  obtain ⟨hsound, hothers, hactive, hcreated⟩ := of_schedule hstored hs
  simp only [Sched.modify_active, Sched.modify_pcbs_self, Sched.modify_created] at hothers hactive hcreated
  refine ⟨hsound, Nat.le_of_eq hcreated.symm, fun p _ _ hne => ?_, ?_, fun p hlt hle => ?_⟩
  · rw [hothers p hne, Sched.modify_pcbs_of_ne _ _ _ hne]
    exact .kept fun pid status ha => absurd ha (hquiet pid status)
  · rw [hactive]
    exact hself
  · rw [hcreated] at hle
    exact absurd hlt (Nat.not_lt.2 hle)

/-- A step after which every pcb is the one before, but for what `f` stores in the active one. -/
theorem keeps (h : Sound k) {f : Pcb → Pcb} (hpid : (f k.activePcb).pid = k.activePcb.pid)
    (hsane : (f k.activePcb).Sane) (hrun : (f k.activePcb).runnable = true)
    (hquiet : ∀ pid status, ¬k.Announces e pid status) (hself : k.Acts e (f k.activePcb))
    (hs : k'.sched = k.sched.modify k.sched.active f) : Effect k e k' := by
  refine ⟨⟨?_, ?_⟩, ?_, fun p _ _ hne => ?_, ?_, fun p hlt hle => ?_⟩
  · rw [hs]; exact h.sched.modify_active hpid hsane
  · rw [activePcb, hs]
    exact (congrArg Pcb.runnable (Sched.modify_pcbs_self ..)).trans hrun
  · rw [hs]; exact Nat.le_refl _
  · rw [hs, Sched.modify_pcbs_of_ne _ _ _ hne]
    exact .kept fun pid status ha => absurd ha (hquiet pid status)
  · rw [hs, Sched.modify_pcbs_self]
    exact hself
  · rw [hs] at hle
    exact absurd hlt (Nat.not_lt.2 hle)

/-- Who waits for the process that finishes is queued, and so is told. -/
theorem told_or_kept (h : Sound k) {pid : Int} {status : Word} (ha : k.Announces e pid status)
    (hpid : ∀ pid' status', k.Announces e pid' status' → pid' = pid) {s : Sched}
    (hq : s.queue = k.sched.queue) (hs : s.pcbs p = k.sched.pcbs p) (hp : 0 < p) (hle : p ≤ k.sched.created)
    (hne : p ≠ k.sched.active) : k.Touches p e ((s.notifyExitPid pid status).pcbs p) := by
  rw [Sched.notifyExitPid, Sched.notify_pcbs_apply, hq, hs]
  split
  · rename_i hw
    exact .told ha hw.2.1 (by simpa using hw.2.2)
  · rename_i hno
    refine .kept fun pid' status' ha' hst hwait => hno ⟨?_, hst, ?_⟩
    · exact h.sched.queue.live_mem_queue hp hle (by rw [hst]; decide) hne
    · simpa [hpid _ _ ha'] using hwait

theorem doExit (h : Sound k) {status : Word} (hs : k.doExit status fuel rsp = some k') :
    Effect k (.exit status) k' := by
  have hfin := h.sched.finish h.sched.active_pos h.sched.queue.active_le status
  obtain ⟨hsound, hothers, hactive, hcreated⟩ := of_schedule hfin hs
  refine ⟨hsound, Nat.le_of_eq hcreated.symm, fun p hp hle hne => ?_, ?_, fun p hlt hle => ?_⟩
  · rw [hothers p hne]
    exact h.told_or_kept (e := .exit status) ⟨rfl, rfl⟩ (fun _ _ ha => ha.1) rfl
      (Sched.modify_pcbs_of_ne _ _ _ hne) hp hle hne
  · have hexited : ((k.sched.modify k.sched.active Pcb.exits).notifyExitPid k.activePcb.pid status).pcbs
        k.sched.active = k.activePcb.exits := by
      have hq := h.sched.queue.modify_active Pcb.exits
      exact hq.notify_active_pcb.trans (Sched.modify_pcbs_self ..)
    have hself : k'.sched.pcbs k.sched.active = { k.activePcb.exits with kernelSp := rsp } :=
      hactive.trans (by rw [← hexited]; rfl)
    rw [hself]
    exact ⟨fun _ => ⟨status, rfl⟩, nofun, nofun⟩
  · exact absurd hlt (Nat.not_lt.2 (Nat.le_trans hle (Nat.le_of_eq hcreated)))

/-- Only pids of processes are announced. -/
theorem announced_pos (h : Sound k) {pid : Int} {status : Word} (ha : k.Announces e pid status) : 0 < pid := by
  cases e with
  | exit status' =>
    have hpid : pid = k.activePcb.pid := ha.1
    have hpos := h.sched.active_pos
    rw [hpid, activePcb, h.sched.tidy.pid_eq _ hpos h.sched.queue.active_le]
    omega
  | kill pid' sig =>
    obtain ⟨h0, hpid, -⟩ := ha
    obtain hnone | ⟨v, hv, -, hannounced, -⟩ := doKill_cases h.sched.tidy h.queue_created pid' sig
    · rw [hnone] at h0
      cases h0
    · have hpos := h.sched.queue.pos v (List.mem_cons_of_mem _ hv)
      rw [hpid, hannounced, h.sched.tidy.pid_eq v hpos (h.sched.queue.mem_queue_le hv)]
      omega
  | fork | waitpid | alarm | read | yield | exec | start | key | tick => exact ha.elim

theorem doKill (h : Sound k) (pid sig : Word) : Effect k (.kill pid sig) (k.doKill pid sig).1 := by
  obtain hnone | ⟨v, hv, hpid, hannounced, hsome⟩ := doKill_cases h.sched.tidy h.queue_created pid sig
  · have hquiet : ∀ pid' status', ¬k.Announces (.kill pid sig) pid' status' := by
      rintro _ _ ⟨h0, -⟩
      rw [hnone] at h0
      cases h0
    refine h.keeps (f := id) rfl h.sched.active_sane h.active_runs hquiet (h.acts rfl) ?_
    rw [hnone]
    simp [Sched.modify]
  · have hpos : 0 < v := h.sched.queue.pos v (List.mem_cons_of_mem _ hv)
    have hva : k.sched.active ≠ v := fun he => (List.nodup_cons.1 h.sched.queue.nodup).1 (he ▸ hv)
    have ha : k.Announces (.kill pid sig) (k.sched.pcbs v).pid sig := ⟨by rw [hsome], hannounced.symm, rfl⟩
    have hfin := h.sched.finish hpos (h.sched.queue.mem_queue_le hv) sig
    have hact : ((k.sched.modify v Pcb.exits).notifyExitPid (k.sched.pcbs v).pid sig).pcbs k.sched.active =
        k.activePcb := by
      have hq := h.sched.queue_exits v
      exact hq.notify_active_pcb.trans (Sched.modify_pcbs_of_ne _ _ _ hva)
    rw [hsome]
    refine ⟨⟨hfin, ?_⟩, Nat.le_refl _, fun p hp hple hne => ?_, ?_, fun p hlt hle => ?_⟩
    · exact (congrArg Pcb.runnable hact).trans h.active_runs
    · by_cases hpv : p = v
      · subst hpv
        have hkilled : ((k.sched.modify p Pcb.exits).notifyExitPid (k.sched.pcbs p).pid sig).pcbs p =
            (k.sched.pcbs p).exits := by
          rw [Sched.notifyExitPid, Sched.notify_pcbs_apply, Sched.modify_pcbs_self, if_neg]
          rintro ⟨-, hst, -⟩
          cases hst
        rw [withSched, hkilled]
        subst hpid
        exact .killed ha
      · exact h.told_or_kept ha (fun _ _ ha' => ha'.2.1.trans hannounced) rfl
          (Sched.modify_pcbs_of_ne _ _ _ hpv) hp hple hne
    · rw [withSched, hact]
      exact h.acts rfl
    · exact absurd hlt (Nat.not_lt.2 hle)

theorem doFork (h : Sound k) {kernelStack pml4 pml4' : Word}
    (hroom : k.sched.queue.length ≤ processQueueSize - 2)
    (hs : (k.doFork kernelStack pml4 pml4' rsp).map Prod.fst = some k') :
    Effect k (.fork kernelStack pml4 pml4') k' := by
  obtain ⟨⟨k1, r⟩, hfork, rfl⟩ := Option.map_eq_some_iff.1 hs
  have hne : k.sched.active ≠ k.sched.created + 1 := by have := h.sched.queue.active_le; omega
  obtain ⟨c, cr3, hidle, hpid, hrun, hlt, rfl⟩ := doFork_creates h.sched.queue.active_le h.idle hfork
  have hnew := h.sched.processRun hroom hlt hidle hpid hrun
  refine ⟨⟨hnew.withCr3 _, ?_⟩, ?_, fun p _ hle _ => ?_, ?_, fun p hlt hle => ?_⟩ <;>
    simp only [activePcb, withSched, Sched.processRun, Sched.enqueueProcess_active, Sched.enqueueProcess_pcbs,
      Sched.enqueueProcess_created] at *
  · rw [Function.update_of_ne hne]
    exact h.active_runs
  · omega
  · rw [Function.update_of_ne (by omega)]
    exact .kept fun _ _ ha => ha.elim
  · rw [Function.update_of_ne hne]
    exact h.acts rfl
  · obtain rfl : p = k.sched.created + 1 := by omega
    rw [Function.update_self, hrun]

theorem doRead (h : Sound k) {fd size : Word} {buffer : Nat → Byte}
    (hs : (k.doRead fd size buffer fuel rsp).map Prod.fst = some k') : Effect k (.read fd size buffer) k' := by
  obtain ⟨-, -, c, -, rfl⟩ | ⟨-, -, hblock⟩ | ⟨-, i, r, -, rfl⟩ := doRead_cases hs
  · refine h.keeps (f := id) rfl h.sched.active_sane h.active_runs (fun _ _ => id) (h.acts rfl) ?_
    simp [Sched.modify]
  · exact h.blockWith rfl h.idle.blocksOnStdin_sane (fun _ _ => id)
      (acts_of_waiting rfl (fun hw => absurd h.idle.pid hw) id) hblock
  · exact h.keeps rfl (h.sched.active_sane.congr rfl rfl rfl rfl) h.active_runs (fun _ _ => id)
      (h.acts rfl) rfl

/-- Those an interrupt wakes are the ones that wait for it. -/
theorem notified {waits : Pcb → Bool} {clear : Pcb → Pcb} (hquiet : ∀ pid status, ¬k.Announces e pid status)
    (hwoken : (k.sched.pcbs p).status = .waiting → waits (k.sched.pcbs p) = true →
      k.Touches p e { clear (k.sched.pcbs p) with status := .running }) :
    k.Touches p e ((k.sched.notify waits clear).pcbs p) := by
  rw [Sched.notify_pcbs_apply]
  split
  · rename_i hw
    exact hwoken hw.2.1 hw.2.2
  · exact .kept fun pid status ha => absurd ha (hquiet pid status)

theorem keyboard (h : Sound k) {c : Byte} (hs : k.keyboard c = some k') : Effect k (.key c) k' := by
  obtain ⟨r, -, hr⟩ := Option.bind_eq_some_iff.1 hs
  cases hr
  split
  · have hact : k.sched.notifyStdin.pcbs k.sched.active = k.activePcb := h.sched.queue.notify_active_pcb
    refine ⟨⟨h.sched.notify h.sched.tidy.notifyStdin, ?_⟩, Nat.le_refl _, fun p _ _ _ => ?_, ?_,
      fun p hlt hle => absurd hlt (Nat.not_lt.2 hle)⟩
    · exact (congrArg Pcb.runnable hact).trans h.active_runs
    · change k.Touches p (.key c)
        ((k.sched.notify (fun p => p.waitingOnStdin ≠ 0) (Pcb.setWaitingOnStdin 0)).pcbs p)
      exact notified (fun _ _ => id) fun hst hw => .stdin hst (of_decide_eq_true hw)
    · rw [withSched, hact]
      exact h.acts rfl
  · refine h.keeps (f := id) rfl h.sched.active_sane h.active_runs (fun _ _ => id) (h.acts rfl) ?_
    simp [Sched.modify]

theorem timer (h : Sound k) (hs : k.timer fuel rsp = some k') : Effect k .tick k' := by
  obtain ⟨t, ht, rfl⟩ := Option.map_eq_some_iff.1 hs
  -- first the notifier
  obtain ⟨s, hsound, hothers, hactive, hact, hcreated, ht⟩ : ∃ s : Sched, s.Sound ∧
      (∀ p, k.Touches p .tick (s.pcbs p)) ∧ s.pcbs k.sched.active = k.activePcb ∧
      s.active = k.sched.active ∧ s.created = k.sched.created ∧ s.preempt fuel rsp = some t := by
    split at ht
    · refine ⟨_, h.sched.notify (h.sched.tidy.notifyAlarm _), fun p => ?_, h.sched.queue.notify_active_pcb,
        rfl, rfl, ht⟩
      exact notified (fun _ _ => id) fun hst hw => .alarm hst (of_decide_eq_true hw).1
    · exact ⟨_, h.sched, fun p => .kept fun _ _ => False.elim, rfl, rfl, rfl, ht⟩
  -- then the time slice
  unfold Sched.preempt at ht
  dsimp only at ht
  split at ht
  · obtain ⟨ht', hrun, hpcbs, hc⟩ := (hsound.withTimeSlice 0).schedule ht
    refine ⟨⟨ht', hrun⟩, ?_, fun p _ _ hne => ?_, ?_, fun p hlt hle => ?_⟩
    · exact Nat.le_of_eq (hcreated.symm.trans hc.symm)
    · rw [withSched, hpcbs, Sched.modify_pcbs_of_ne _ _ _ (by rwa [show _ = s.active from rfl, hact])]
      exact hothers p
    · rw [withSched, hpcbs, ← hact]
      refine h.acts ?_
      refine Eq.trans ?_ (congrArg Pcb.status hactive)
      rw [Sched.modify_pcbs_apply, ← hact]
      split <;> rfl
    · have : t.created = k.sched.created := hc.trans hcreated
      exact absurd hlt (Nat.not_lt.2 (this ▸ hle))
  · cases ht
    refine ⟨⟨hsound.withTimeSlice _, ?_⟩, Nat.le_of_eq hcreated.symm, fun p _ _ _ => hothers p, ?_,
      fun p hlt hle => absurd hlt (Nat.not_lt.2 (hcreated ▸ hle))⟩
    · rw [activePcb, withSched, show ({ s with timeSlice := _ } : Sched).active = k.sched.active from hact]
      exact (congrArg Pcb.runnable hactive).trans h.active_runs
    · exact h.acts (congrArg Pcb.status hactive)

/-- One step keeps the state sound and does to the processes no more than `Effect` says. -/
theorem step (h : Sound k) (hg : HasRoom k e) (hs : Step k e k') : Effect k e k' := by
  obtain ⟨fuel, rsp, hs⟩ := hs
  cases e with
  | fork kernelStack pml4 pml4' => exact h.doFork hg hs
  | exit status => exact h.doExit hs
  | kill pid sig =>
    cases hs
    exact h.doKill pid sig
  | waitpid pid ret =>
    exact h.blockWith rfl (h.idle.blocksOnPid_sane ..) (fun _ _ => id)
      (acts_of_waiting rfl (fun _ => ⟨pid, ret, rfl, rfl⟩) id) hs
  | alarm seconds =>
    exact h.blockWith rfl (h.idle.blocksOnClock_sane _) (fun _ _ => id)
      (acts_of_waiting rfl (fun hw => absurd h.idle.pid hw) id) hs
  | read fd size buffer => exact h.doRead hs
  | yield =>
    have hsame : k.sched.modify k.sched.active id = k.sched := by simp [Sched.modify]
    replace hs : k.blockWith id fuel rsp = some k' := by rw [Kernel.blockWith, hsame]; exact hs
    exact h.blockWith rfl h.sched.active_sane (fun _ _ => id) (h.acts rfl) hs
  | exec abspath userSp =>
    exact h.blockWith rfl (h.idle.execs_sane ..) (fun _ _ => id) (acts_of_runnable rfl id) hs
  | start ip =>
    obtain ⟨-, rfl⟩ := kThreadKernel_eq_some hs
    have hidle := h.idle
    exact h.keeps rfl (Pcb.Idle.sane ⟨hidle.stdin, hidle.pid, hidle.clock⟩) rfl (fun _ _ => id)
      (acts_of_runnable rfl id) rfl
  | key c => exact h.keyboard hs
  | tick => exact h.timer hs

end Sound

/-- The kernel as `init` leaves it, with any archive, clock and input. -/
def boot (s : Sched) (idleStack idlePml4 shellStack shellPml4 : Word) (stdin : Stdin) (ticks : Word)
    (archive : Tarfs) : Kernel :=
  ⟨s.processInit.init idleStack idlePml4 shellStack shellPml4, stdin, ticks, archive⟩

theorem Sound.boot {s : Sched} (h0 : s.created = 0) (idleStack idlePml4 shellStack shellPml4 : Word)
    (stdin : Stdin) (ticks : Word) (archive : Tarfs) :
    Sound (boot s idleStack idlePml4 shellStack shellPml4 stdin ticks archive) := by
  have hb := Sched.init_booted h0 idleStack idlePml4 shellStack shellPml4
  refine ⟨.init hb, ?_⟩
  rw [activePcb, Kernel.boot, hb.active_eq]
  exact hb.runnable 1 (by decide) (by decide)

end Kernel
end Sbuos
