import Sbuos.Process
import Sbuos.Stdin
import Sbuos.Tarfs
/-!
# System calls and interrupts (sys/systemcall.c, sys/stdin.c, sys/timer_helpers.c)

A system call is made by the active process and modelled up to its `schedule()`, or to its end when it
makes none. `rsp` is the stack pointer at that point and `fuel` bounds the scan of `get_next_context`; a
call whose scan never ends has no result. What a call writes to the user's buffer is part of its result.
-/
namespace Sbuos

structure Kernel where
  sched : Sched
  stdin : Stdin
  ticks : Word
  archive : Tarfs

namespace Kernel

def withSched (k : Kernel) (s : Sched) : Kernel := { k with sched := s }

def activePcb (k : Kernel) : Pcb := k.sched.pcbs k.sched.active

/-- `get_active_pcb()` changed by `f`, then `schedule()`. -/
def blockWith (f : Pcb → Pcb) (fuel : Nat) (rsp : Word) (k : Kernel) : Option Kernel :=
  ((k.sched.modify k.sched.active f).schedule fuel rsp).map k.withSched

/-- `do_read` (systemcall.c:39-50). When it blocks there is no result yet: the call starts over at the
test once the process is resumed. -/
def doRead (fd size : Word) (buffer : Nat → Byte) (fuel : Nat) (rsp : Word) (k : Kernel) :
    Option (Kernel × Option ((Nat → Byte) × Word)) :=
  if fd = 0 ∧ (k.activePcb.fdTable 0).fileStartAddress = 0 then
    if k.stdin.bufferIsReady then do
      let c ← k.stdin.copyInput fuel buffer (size.setWidth 32).toInt
      some ({ k with stdin := c.st }, some (c.buffer, BitVec.ofInt 64 c.ret))
    else do
      let k ← k.blockWith Pcb.blocksOnStdin fuel rsp
      some (k, none)
  -- `fd_table` has 15 entries
  else if h : fd.toNat < 15 then do
    let (f, buffer, ret) ← k.archive.readToBuffer fuel (k.activePcb.fdTable ⟨fd.toNat, h⟩) buffer size
    some (k.withSched (k.sched.modify k.sched.active (Pcb.setFd ⟨fd.toNat, h⟩ f)), some (buffer, ret))
  else none

/-- `fd == 0 && proc->fd_table[0].file_start_address == 0`: the read is from the keyboard. -/
def ReadsStdin (proc : Pcb) (fd : Word) : Prop := fd = 0 ∧ (proc.fdTable 0).fileStartAddress = 0

/-- `do_fork` (systemcall.c:60-90), with the pages the allocator supplies. The child's stack pointer is
the caller's, moved to the child's stack and past the frame that `fork_return_from_child` replaces; an
overflow of the `int` `_prev_pid` is undefined behaviour. -/
def doFork (kernelStack pml4 pml4' rsp : Word) (k : Kernel) : Option (Kernel × Word) :=
  if k.sched.prevPid + 1 < 2 ^ 31 then
    let proc := k.sched.active
    let s := k.sched.getForkedPcb kernelStack pml4 pml4' proc
    let child := s.created
    let s := s.modify child fun c =>
      { c with kernelSp := c.kernelStack + rsp - (s.pcbs proc).kernelStack + 48 }
    let s := s.processRun child
    some (k.withSched { s with cr3 := (s.pcbs proc).pml4 }, BitVec.ofInt 64 (s.pcbs child).pid)
  else none

/-- `do_waitpid` up to its `schedule()` (systemcall.c:94-99). -/
def doWaitpid (pid statusReturn : Word) : Nat → Word → Kernel → Option Kernel :=
  blockWith (Pcb.blocksOnPid pid statusReturn)

/-- `PRINT_TICK_DIVIDE` and `ALARM_TICK_DIVIDE` (timer_helpers.h:6-7). -/
def printTickDivide : Word := 10
def alarmTickDivide : Word := 3

/-- `do_alarm` up to its `schedule()` (systemcall.c:104-109). -/
def doAlarm (seconds : Word) (fuel : Nat) (rsp : Word) (k : Kernel) : Option Kernel :=
  k.blockWith (Pcb.blocksOnClock (k.ticks + printTickDivide * seconds)) fuel rsp

/-- `process_exec`, as `do_execve` calls it for a file it found (process_helpers.c:279-310). -/
def processExec (abspath : Nat → Byte) (userSp : Word) : Nat → Word → Kernel → Option Kernel :=
  blockWith (Pcb.execs abspath userSp)

/-- `do_exit` (systemcall.c:141-148). `vma_free_pages` is empty. -/
def doExit (status : Word) (fuel : Nat) (rsp : Word) (k : Kernel) : Option Kernel :=
  let s := k.sched.modify k.sched.active Pcb.exits
  ((s.notifyExitPid k.activePcb.pid status).schedule fuel rsp).map k.withSched

/-- `do_kill` (systemcall.c:193-199). -/
def doKill (pid sig : Word) (k : Kernel) : Kernel × Word :=
  let r := k.sched.killPid pid
  if r.2 ≠ 0 then (k.withSched r.1, -1)
  else (k.withSched (r.1.notifyExitPid (pid.setWidth 32).toInt sig), 0)

/-- `do_yield` (systemcall.c:201-204). -/
def doYield (fuel : Nat) (rsp : Word) (k : Kernel) : Option Kernel :=
  (k.sched.schedule fuel rsp).map k.withSched

/-- The first run of a process made READY (process_helpers.c:227-238), with the entry point `map_file`
finds. -/
def kThreadKernel (ip : Word) (k : Kernel) : Option Kernel :=
  if k.activePcb.status = .ready then
    some (k.withSched (k.sched.modify k.sched.active (Pcb.prepares ip)))
  else none

/-- A key the keyboard driver delivers to `_add_char` (stdin.c:16-33, 122-128). -/
def keyboard (c : Byte) (k : Kernel) : Option Kernel := do
  let r ← k.stdin.addChar c
  let k := { k with stdin := r.st }
  some (if r.notifies then k.withSched k.sched.notifyStdin else k)

/-- The timer interrupt: `tick_count` and then `preempt` (timer_helpers.c:22-38, idt.h:57-65). -/
def timer (fuel : Nat) (rsp : Word) (k : Kernel) : Option Kernel :=
  let k := { k with ticks := k.ticks + 1 }
  let s := if k.ticks % alarmTickDivide = 1 then k.sched.notifyAlarm k.ticks else k.sched
  (s.preempt fuel rsp).map k.withSched

/-- What happens next: a system call of the active process, or an interrupt. -/
inductive Event
  | fork (kernelStack pml4 pml4' : Word)
  | exit (status : Word)
  | kill (pid sig : Word)
  | waitpid (pid statusReturn : Word)
  | alarm (seconds : Word)
  | read (fd size : Word) (buffer : Nat → Byte)
  | yield
  | exec (abspath : Nat → Byte) (userSp : Word)
  | start (ip : Word)
  | key (c : Byte)
  | tick

def handle (fuel : Nat) (rsp : Word) : Event → Kernel → Option Kernel
  | .fork kernelStack pml4 pml4', k => (k.doFork kernelStack pml4 pml4' rsp).map Prod.fst
  | .exit status, k => k.doExit status fuel rsp
  | .kill pid sig, k => some (k.doKill pid sig).1
  | .waitpid pid statusReturn, k => k.doWaitpid pid statusReturn fuel rsp
  | .alarm seconds, k => k.doAlarm seconds fuel rsp
  | .read fd size buffer, k => (k.doRead fd size buffer fuel rsp).map Prod.fst
  | .yield, k => k.doYield fuel rsp
  | .exec abspath userSp, k => k.processExec abspath userSp fuel rsp
  | .start ip, k => k.kThreadKernel ip
  | .key c, k => k.keyboard c
  | .tick, k => k.timer fuel rsp

def Step (k : Kernel) (e : Event) (k' : Kernel) : Prop := ∃ fuel rsp, k.handle fuel rsp e = some k'

/-! ## What a call does -/

section cases
variable {k k' : Kernel} {fuel : Nat} {rsp : Word}

/-- A read takes a line, blocks, or moves the offset of a file. -/
theorem doRead_cases {fd size : Word} {buffer : Nat → Byte}
    (h : (k.doRead fd size buffer fuel rsp).map Prod.fst = some k') :
    (ReadsStdin k.activePcb fd ∧ k.stdin.bufferIsReady ∧
        ∃ c, k.stdin.copyInput fuel buffer (size.setWidth 32).toInt = some c ∧ k' = { k with stdin := c.st }) ∨
      (ReadsStdin k.activePcb fd ∧ ¬k.stdin.bufferIsReady ∧ k.blockWith Pcb.blocksOnStdin fuel rsp = some k') ∨
      (¬ReadsStdin k.activePcb fd ∧ ∃ (i : Fin 15) (r : Fd × (Nat → Byte) × Word),
        k.archive.readToBuffer fuel (k.activePcb.fdTable i) buffer size = some r ∧
          k' = k.withSched (k.sched.modify k.sched.active (Pcb.setFd i r.1))) := by
  obtain ⟨⟨k1, r⟩, hread, rfl⟩ := Option.map_eq_some_iff.1 h
  unfold doRead at hread
  split at hread
  · rename_i hstdin
    split at hread
    · rename_i hready
      obtain ⟨c, hcopy, hc⟩ := Option.bind_eq_some_iff.1 hread
      cases hc
      exact .inl ⟨hstdin, hready, c, hcopy, rfl⟩
    · rename_i hready
      obtain ⟨k2, hk2, hc⟩ := Option.bind_eq_some_iff.1 hread
      cases hc
      exact .inr (.inl ⟨hstdin, hready, hk2⟩)
  · rename_i hstdin
    split at hread
    · rename_i hfd
      obtain ⟨⟨f, b, ret⟩, hfile, hc⟩ := Option.bind_eq_some_iff.1 hread
      cases hc
      exact .inr (.inr ⟨hstdin, ⟨fd.toNat, hfd⟩, (f, b, ret), hfile, rfl⟩)
    · cases hread

theorem kThreadKernel_eq_some {ip : Word} (h : k.kThreadKernel ip = some k') : k.activePcb.status = .ready ∧
    k' = k.withSched (k.sched.modify k.sched.active (Pcb.prepares ip)) := by
  unfold kThreadKernel at h
  split at h
  · rename_i hready
    exact ⟨hready, (Option.some.inj h).symm⟩
  · cases h

end cases

end Kernel
end Sbuos
