import Sbuos.Sysutil
import Sbuos.Lib.Ring
/-!
# Processes and the ready queue (sys/process_helpers.c)

A `pcb*` is a handle: 0 is `NULL`, and `kmalloc` hands out 1, 2, … (`created` counts them). The pcb
behind a handle keeps what was in its memory until something is stored, so a field that
`_get_new_pcb` leaves alone holds arbitrary data.

Kernel stacks and page tables are memory; here they are addresses that the allocator supplies. A scan
of the ring, `for (ptr = head; ptr != tail; ptr = (ptr+1) % PROCESS_QUEUE_SIZE)`, visits
`Sched.queue`, in order.
-/
namespace Sbuos
open Lib

/-- `enum process_status` (process_helpers.h:13). -/
inductive ProcessStatus
  | ready
  | running
  | waiting
  | finished
deriving DecidableEq, Inhabited

/-- `fd_t` (process_helpers.h:16-21). -/
structure Fd where
  fileStartAddress : Word
  fileSize : Word
  fileOffset : Word
deriving Inhabited

/-- `pcb` (process_helpers.h:24-47). `text` is the memory from `pname` on: `pname` takes bytes 0 to 49,
`wd` bytes 50 to 99 and `waiting_on_stdin` byte 100, which an overlong string runs into. -/
structure Pcb where
  pid : Int
  ppid : Int
  pml4 : Word
  userSp : Word
  userBrkPoint : Word
  kernelSp : Word
  kernelStack : Word
  ip : Word
  text : Nat → Byte
  waitingOnPid : Int
  waitingOnClock : Word
  exitNotifyStatus : Word
  statusReturn : Word
  status : ProcessStatus
  fdTable : Fin 15 → Fd
  nextFd : Int
deriving Inhabited

namespace Pcb

def pname (p : Pcb) (i : Nat) : Byte := p.text i
def wd (p : Pcb) (i : Nat) : Byte := p.text (50 + i)
def waitingOnStdin (p : Pcb) : Byte := p.text 100

def setWaitingOnStdin (b : Byte) (p : Pcb) : Pcb := { p with text := Function.update p.text 100 b }

def setFd (i : Fin 15) (f : Fd) (p : Pcb) : Pcb := { p with fdTable := Function.update p.fdTable i f }

/-- `kstrcpy(p->pname, src, 50)`. -/
def copyPname (src : Nat → Byte) (p : Pcb) : Pcb := { p with text := (kstrcpy p.pname src 50).1 }

/-- `kstrcpy(p->wd, src, 50)`. -/
def copyWd (src : Nat → Byte) (p : Pcb) : Pcb :=
  { p with text := fun i => if i < 50 then p.text i else (kstrcpy p.wd src 50).1 (i - 50) }

/-- `res->status!=RUNNING && res->status!=READY` fails. -/
def runnable (p : Pcb) : Bool := p.status = .running ∨ p.status = .ready

theorem runnable_ne_finished {p : Pcb} (h : p.runnable = true) : p.status ≠ .finished := by
  intro hf
  rw [runnable, hf] at h
  cases h

/-- What `_get_new_pcb` stores in a block that `kmalloc` returned (process_helpers.c:146-169). -/
def fresh (pid : Int) (kernelStack pml4 : Word) (p : Pcb) : Pcb :=
  { p.setWaitingOnStdin 0 with
    pid := pid
    kernelStack := kernelStack
    kernelSp := kernelStack + BitVec.ofNat 64 pageSize - 8
    ppid := 0
    waitingOnPid := 0
    waitingOnClock := 0
    pml4 := pml4
    userBrkPoint := 0x0000700000000000
    userSp := 0x00006FFFFFFFFFF0
    fdTable := fun _ => ⟨0, 0, 0⟩
    nextFd := 3 }

/-- What `get_forked_pcb` stores in the new child (process_helpers.c:176-184). -/
def forked (parent : Pcb) (pml4 : Word) (child : Pcb) : Pcb :=
  let child := { child with
    pml4 := pml4
    ppid := parent.pid
    status := .running
    userBrkPoint := parent.userBrkPoint
    userSp := parent.userSp }
  (child.copyPname parent.pname).copyWd parent.wd

/-- `do_exit`'s store (systemcall.c:143). -/
def exits (p : Pcb) : Pcb := { p with status := .finished }

/-- `do_read`'s stores before it blocks (systemcall.c:43-44); the `char` -1. -/
def blocksOnStdin (p : Pcb) : Pcb := { p.setWaitingOnStdin (-1) with status := .waiting }

/-- `do_waitpid`'s stores (systemcall.c:96-98); the `uint64_t` pid becomes an `int`. -/
def blocksOnPid (pid statusReturn : Word) (p : Pcb) : Pcb :=
  { p with waitingOnPid := (pid.setWidth 32).toInt, status := .waiting, statusReturn := statusReturn }

/-- `do_alarm`'s stores (systemcall.c:107-108). -/
def blocksOnClock (clock : Word) (p : Pcb) : Pcb := { p with waitingOnClock := clock, status := .waiting }

/-- `process_exec`'s stores (process_helpers.c:280-306), with the user stack pointer it computes. -/
def execs (abspath : Nat → Byte) (userSp : Word) (p : Pcb) : Pcb :=
  { p.copyPname abspath with status := .ready, kernelSp := p.kernelSp - 16, userSp := userSp }

/-- `prepare_user_memory`'s stores (process_helpers.c:194-198), with the entry point `map_file` found. -/
def prepares (ip : Word) (p : Pcb) : Pcb := { p with ip := ip, status := .running }

end Pcb

/-- `PROCESS_QUEUE_SIZE` (process_helpers.h:8). -/
def processQueueSize : Nat := 100

/-- The scheduler's globals, the pcb heap, and the two registers a context switch loads. -/
structure Sched where
  pcbs : Nat → Pcb
  created : Nat
  prevPid : Int
  list : Nat → Nat
  head : Nat
  tail : Nat
  active : Nat
  timeSlice : Int
  cr3 : Word
  rsp0 : Word
deriving Inhabited

namespace Sched

/-- The entries of the ring from `head` up to `tail`. -/
def queue (s : Sched) : List Nat := Ring.window processQueueSize s.list s.head s.tail

def modify (p : Nat) (f : Pcb → Pcb) (s : Sched) : Sched :=
  { s with pcbs := Function.update s.pcbs p (f (s.pcbs p)) }

/-- The two stores that all notifiers share: every queued pcb that is WAITING and meets `waits` is
passed to `clear` and made RUNNING. -/
def notify (waits : Pcb → Bool) (clear : Pcb → Pcb) (s : Sched) : Sched :=
  { s with pcbs := s.queue.foldl (fun pcbs p =>
      if (pcbs p).status = .waiting ∧ waits (pcbs p) then
        Function.update pcbs p { clear (pcbs p) with status := .running }
      else pcbs) s.pcbs }

/-- `notify_stdin` (process_helpers.c:25-34). -/
def notifyStdin : Sched → Sched :=
  notify (fun p => p.waitingOnStdin ≠ 0) (Pcb.setWaitingOnStdin 0)

/-- `notify_exit_pid` (process_helpers.c:35-44). -/
def notifyExitPid (pid : Int) (status : Word) : Sched → Sched :=
  notify (fun p => p.waitingOnPid = pid) fun p => { p with waitingOnPid := 0, exitNotifyStatus := status }

/-- `notify_alarm` (process_helpers.c:46-54). -/
def notifyAlarm (clock : Word) : Sched → Sched :=
  notify (fun p => p.waitingOnClock ≠ 0 ∧ p.waitingOnClock ≤ clock) fun p => { p with waitingOnClock := 0 }

/-- `kill_pid` (process_helpers.c:56-65). An `int` pid is compared with a `uint64_t`. -/
def killPid (pid : Word) (s : Sched) : Sched × Int :=
  match s.queue.find? fun p => BitVec.ofInt 64 (s.pcbs p).pid = pid with
  | some p => (s.modify p fun q => { q with status := .finished }, 0)
  | none => (s, 1)

/-- `find_pcb_by_ppid` (process_helpers.c:83-91). -/
def findPcbByPpid (ppid : Int) (s : Sched) : Nat :=
  (s.queue.find? fun p => (s.pcbs p).ppid = ppid).getD 0

/-- `find_pcb_by_pid` (process_helpers.c:93-101). -/
def findPcbByPid (pid : Int) (s : Sched) : Nat :=
  (s.queue.find? fun p => (s.pcbs p).pid = pid).getD 0

/-- `process_init` (process_helpers.c:104-112). -/
def processInit (s : Sched) : Sched :=
  { s with prevPid := 0, head := 0, tail := 0, list := fun _ => 0 }

/-- `enqueue_process` (process_helpers.c:114-119). -/
def enqueueProcess (process : Nat) (s : Sched) : Sched :=
  if (s.pcbs process).status = .finished then s
  else { s with
    list := Function.update s.list s.tail process
    tail := (s.tail + 1) % processQueueSize }

/-- The registers and the time slice of the process switched to (process_helpers.c:134-137). -/
def switchTo (s : Sched) : Sched :=
  { s with
    cr3 := (s.pcbs s.active).pml4
    rsp0 := (s.pcbs s.active).kernelStack + BitVec.ofNat 64 pageSize
    timeSlice := 0 }

/-- The entry at `head` is taken out and made active (process_helpers.c:126-130). -/
def takeHead (s : Sched) : Sched :=
  { s with head := (s.head + 1) % processQueueSize, active := s.list s.head }

/-- `get_next_context` (process_helpers.c:123-141); the pcb it returns is the active one. Reading
`res->status` through `NULL` is undefined behaviour. -/
def getNextContext : Nat → Sched → Option Sched
  | 0, _ => none
  | fuel + 1, s =>
    let s := (s.enqueueProcess s.active).takeHead
    if s.active = 0 then none
    else if (s.pcbs s.active).runnable then some s.switchTo
    else (getNextContext fuel s).map switchTo

/-- `schedule` (process_helpers.c:268-273), entered with stack pointer `rsp`. -/
def schedule (fuel : Nat) (rsp : Word) (s : Sched) : Option Sched :=
  (s.modify s.active fun p => { p with kernelSp := rsp }).getNextContext fuel

/-- `_get_new_pcb` (process_helpers.c:143-172); the new pcb is the one last created. -/
def getNewPcb (kernelStack pml4 : Word) (s : Sched) : Sched :=
  let s := { s with created := s.created + 1, prevPid := s.prevPid + 1 }
  s.modify s.created (Pcb.fresh s.prevPid kernelStack pml4)

/-- `get_forked_pcb` (process_helpers.c:174-187). `pml4` is the table `_get_new_pcb` allocates and
`pml4'` the one that replaces it. -/
def getForkedPcb (kernelStack pml4 pml4' : Word) (parent : Nat) (s : Sched) : Sched :=
  let s := s.getNewPcb kernelStack pml4
  s.modify s.created (Pcb.forked (s.pcbs parent) pml4')

/-- `process_run` (process_helpers.c:275-277). -/
def processRun (proc : Nat) (s : Sched) : Sched := s.enqueueProcess proc

/-- `preempt` (process_helpers.c:312-318). -/
def preempt (fuel : Nat) (rsp : Word) (s : Sched) : Option Sched :=
  let s := { s with timeSlice := s.timeSlice + 1 }
  if s.timeSlice > 16 then { s with timeSlice := 0 }.schedule fuel rsp else some s

/-- `init` (process_helpers.c:240-266) after `process_init`, up to its switch to the idle process. The
words are the stacks and tables the allocator hands out. -/
def init (s : Sched) (idleStack idlePml4 shellStack shellPml4 : Word) : Sched :=
  let s := s.getNewPcb idleStack idlePml4
  let sysIdle := s.created
  let s := s.modify sysIdle fun p => { p.copyPname (cString "system_idle_process") with
    status := .running, kernelSp := p.kernelSp - 8 }
  let s := s.getNewPcb shellStack shellPml4
  let shell := s.created
  let s := s.modify shell fun p =>
    { (p.copyPname (cString "/bin/sbush")).copyWd (cString "/") with
      status := .ready, kernelSp := p.kernelSp - 16 }
  let s := (s.enqueueProcess sysIdle).enqueueProcess shell
  { s with active := sysIdle, head := s.head + 1 }

end Sched

/-! ## The byte of `waiting_on_stdin`

It lies right behind `wd`, so the copies of names have to be looked at. -/

namespace Pcb
variable {p : Pcb} {src : Nat → Byte}

@[simp] theorem setWaitingOnStdin_waitingOnStdin (b : Byte) :
    (p.setWaitingOnStdin b).waitingOnStdin = b := by simp [setWaitingOnStdin, waitingOnStdin]

@[simp] theorem copyPname_waitingOnStdin : (p.copyPname src).waitingOnStdin = p.waitingOnStdin :=
  kstrcpy_of_lt p.pname src 50 (by decide)

/-- A `wd` of 50 characters runs into the flag, but what is copied there is the source's flag. -/
theorem copyWd_waitingOnStdin (hp : p.waitingOnStdin = 0) (hs : src 50 = 0) :
    (p.copyWd src).waitingOnStdin = 0 := by
  change (kstrcpy p.wd src 50).1 50 = 0
  rcases kstrcpy_apply p.wd src 50 50 with h | h | h
  · exact h.trans hp
  · exact h.trans hs
  · exact h

theorem copyWd_wd : (p.copyWd src).wd = (kstrcpy p.wd src 50).1 := by
  funext i
  change (if 50 + i < 50 then p.text (50 + i) else (kstrcpy p.wd src 50).1 (50 + i - 50)) = _
  rw [if_neg (by omega), Nat.add_sub_cancel_left]

theorem fresh_waitingOnStdin (pid : Int) (kernelStack pml4 : Word) :
    (p.fresh pid kernelStack pml4).waitingOnStdin = 0 := by
  simp [fresh, setWaitingOnStdin, waitingOnStdin]

theorem forked_waitingOnStdin {parent : Pcb} (hp : p.waitingOnStdin = 0)
    (hs : parent.waitingOnStdin = 0) (pml4 : Word) : (forked parent pml4 p).waitingOnStdin = 0 :=
  copyWd_waitingOnStdin (copyPname_waitingOnStdin.trans hp) hs

end Pcb

/-- A process that can run or has just been created waits for nothing. -/
structure Pcb.Idle (p : Pcb) : Prop where
  stdin : p.waitingOnStdin = 0
  pid : p.waitingOnPid = 0
  clock : p.waitingOnClock = 0

namespace Sched

/-! ## What each operation leaves alone -/

section frame
variable (s : Sched) (p : Nat) (f : Pcb → Pcb)

@[simp] theorem modify_pcbs_self : (s.modify p f).pcbs p = f (s.pcbs p) := by simp [modify]

theorem modify_pcbs_of_ne {q : Nat} (h : q ≠ p) : (s.modify p f).pcbs q = s.pcbs q := by
  simp [modify, h]

theorem modify_pcbs_apply (q : Nat) :
    (s.modify p f).pcbs q = if q = p then f (s.pcbs q) else s.pcbs q := by
  by_cases h : q = p
  · subst h; simp
  · rw [modify_pcbs_of_ne s p f h, if_neg h]

@[simp] theorem modify_queue : (s.modify p f).queue = s.queue := rfl
@[simp] theorem modify_list : (s.modify p f).list = s.list := rfl
@[simp] theorem modify_head : (s.modify p f).head = s.head := rfl
@[simp] theorem modify_tail : (s.modify p f).tail = s.tail := rfl
@[simp] theorem modify_active : (s.modify p f).active = s.active := rfl
@[simp] theorem modify_created : (s.modify p f).created = s.created := rfl
@[simp] theorem modify_prevPid : (s.modify p f).prevPid = s.prevPid := rfl

variable (waits : Pcb → Bool) (clear : Pcb → Pcb)

@[simp] theorem notify_queue : (s.notify waits clear).queue = s.queue := rfl
@[simp] theorem notify_list : (s.notify waits clear).list = s.list := rfl
@[simp] theorem notify_head : (s.notify waits clear).head = s.head := rfl
@[simp] theorem notify_tail : (s.notify waits clear).tail = s.tail := rfl
@[simp] theorem notify_active : (s.notify waits clear).active = s.active := rfl
@[simp] theorem notify_created : (s.notify waits clear).created = s.created := rfl
@[simp] theorem notify_prevPid : (s.notify waits clear).prevPid = s.prevPid := rfl

/-- A notifier wakes exactly the queued pcbs that are WAITING for its event. -/
theorem notify_pcbs_apply : (s.notify waits clear).pcbs p =
    if p ∈ s.queue ∧ (s.pcbs p).status = .waiting ∧ waits (s.pcbs p) then
      { clear (s.pcbs p) with status := .running } else s.pcbs p := by
  simp only [notify]
  generalize s.queue = l
  generalize s.pcbs = pcbs
  induction l generalizing pcbs with
  | nil => simp
  | cons q l ih =>
    rw [List.foldl_cons, ih]
    by_cases hw : (pcbs q).status = .waiting ∧ waits (pcbs q) = true
    · rw [if_pos hw]
      by_cases hp : p = q
      · subst hp; simp [hw]
      · simp [hp]
    · rw [if_neg hw]
      by_cases hp : p = q
      · subst hp; simp [hw]
      · simp [hp]

@[simp] theorem enqueueProcess_pcbs : (s.enqueueProcess p).pcbs = s.pcbs := by
  unfold enqueueProcess; split <;> rfl
@[simp] theorem enqueueProcess_head : (s.enqueueProcess p).head = s.head := by
  unfold enqueueProcess; split <;> rfl
@[simp] theorem enqueueProcess_active : (s.enqueueProcess p).active = s.active := by
  unfold enqueueProcess; split <;> rfl
@[simp] theorem enqueueProcess_created : (s.enqueueProcess p).created = s.created := by
  unfold enqueueProcess; split <;> rfl
@[simp] theorem enqueueProcess_prevPid : (s.enqueueProcess p).prevPid = s.prevPid := by
  unfold enqueueProcess; split <;> rfl

theorem getForkedPcb_eq (kernelStack pml4 pml4' : Word) {parent : Nat} (hp : parent ≤ s.created) :
    s.getForkedPcb kernelStack pml4 pml4' parent =
      { s with
        created := s.created + 1
        prevPid := s.prevPid + 1
        pcbs := Function.update s.pcbs (s.created + 1) (Pcb.forked (s.pcbs parent) pml4'
          (Pcb.fresh (s.prevPid + 1) kernelStack pml4 (s.pcbs (s.created + 1)))) } := by
  have hne : parent ≠ s.created + 1 := by omega
  simp [getForkedPcb, getNewPcb, modify, hne]

@[simp] theorem takeHead_pcbs : s.takeHead.pcbs = s.pcbs := rfl
@[simp] theorem takeHead_active : s.takeHead.active = s.list s.head := rfl
@[simp] theorem takeHead_list : s.takeHead.list = s.list := rfl
@[simp] theorem switchTo_queue : s.switchTo.queue = s.queue := rfl
@[simp] theorem switchTo_active : s.switchTo.active = s.active := rfl

end frame

/-- The state `init` leaves: the idle process active, the shell queued. -/
structure Booted (s : Sched) : Prop where
  created_eq : s.created = 2
  prevPid_eq : s.prevPid = 2
  active_eq : s.active = 1
  head_eq : s.head = 1
  tail_eq : s.tail = 2
  list_eq : s.list = Function.update (Function.update (fun _ => 0) 0 1) 1 2
  pid_eq : ∀ p, 0 < p → p ≤ 2 → (s.pcbs p).pid = p
  runnable : ∀ p, 0 < p → p ≤ 2 → (s.pcbs p).runnable = true
  idle : ∀ p, 0 < p → p ≤ 2 → (s.pcbs p).Idle

theorem init_booted {s : Sched} (h0 : s.created = 0) (idleStack idlePml4 shellStack shellPml4 : Word) :
    Booted (s.processInit.init idleStack idlePml4 shellStack shellPml4) := by
  have h12 : ∀ p, 0 < p → p ≤ 2 → p = 1 ∨ p = 2 := by omega
  constructor
  case pid_eq | runnable =>
    intro p hp hle
    rcases h12 p hp hle with rfl | rfl <;>
      simp [init, processInit, getNewPcb, enqueueProcess, modify, h0, Pcb.runnable, Pcb.fresh,
        Pcb.copyPname, Pcb.copyWd]
  case idle =>
    have hlit : ∀ text : String, text.toList.length ≤ 50 → cString text 50 = 0 := by
      intro text hlen
      simp [cString, List.getElem?_eq_none hlen]
    intro p hp hle
    rcases h12 p hp hle with rfl | rfl
    · refine ⟨?_, ?_, ?_⟩
      · have hf : (Pcb.copyPname (cString "system_idle_process")
            (Pcb.fresh 1 idleStack idlePml4 (s.pcbs 1))).waitingOnStdin = 0 :=
          Pcb.copyPname_waitingOnStdin.trans (Pcb.fresh_waitingOnStdin ..)
        simpa [init, processInit, getNewPcb, modify, h0, Pcb.waitingOnStdin] using hf
      all_goals simp [init, processInit, getNewPcb, enqueueProcess, modify, h0, Pcb.fresh, Pcb.copyPname]
    · refine ⟨?_, ?_, ?_⟩
      · have hf : ((Pcb.copyPname (cString "/bin/sbush")
            (Pcb.fresh 2 shellStack shellPml4 (s.pcbs 2))).copyWd (cString "/")).waitingOnStdin = 0 :=
          Pcb.copyWd_waitingOnStdin (Pcb.copyPname_waitingOnStdin.trans (Pcb.fresh_waitingOnStdin ..))
            (hlit "/" (by decide))
        simpa [init, processInit, getNewPcb, modify, h0, Pcb.waitingOnStdin] using hf
      all_goals
        simp [init, processInit, getNewPcb, enqueueProcess, modify, h0, Pcb.fresh, Pcb.copyPname, Pcb.copyWd]
  all_goals simp [init, processInit, getNewPcb, enqueueProcess, modify, h0, processQueueSize]

end Sched
end Sbuos
