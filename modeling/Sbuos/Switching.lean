import Sbuos.Turns
/-!
# What switches and forks keep of the processes (sys/process_helpers.c:123-141, :174-187, :268-277)

Each process keeps its pid, its parent and its PML4 for good (`SameProcesses`), and `cr3` holds the PML4 of the
active one (`Loaded`). The events that leave memory alone keep both (`quiet_loads`); a fork adds one process
(`Forks`), as the last of the ring.
-/
namespace Sbuos
open Lib

/-- What a pcb keeps for good. -/
def Pcb.ident (p : Pcb) : Int × Int × Word := (p.pid, p.ppid, p.pml4)

namespace Sched
variable {s t : Sched} {p : Nat}

/-- The same processes. -/
structure SameProcesses (s t : Sched) : Prop where
  ident : ∀ p, (t.pcbs p).ident = (s.pcbs p).ident
  created : t.created = s.created

namespace SameProcesses

theorem refl (s : Sched) : SameProcesses s s := ⟨fun _ => rfl, rfl⟩

theorem trans {u : Sched} (h : SameProcesses s t) (h' : SameProcesses t u) : SameProcesses s u :=
  ⟨fun p => (h'.ident p).trans (h.ident p), h'.created.trans h.created⟩

theorem modify (v : Nat) {f : Pcb → Pcb} (hf : (f (s.pcbs v)).ident = (s.pcbs v).ident) :
    SameProcesses s (s.modify v f) := by
  refine ⟨fun p => ?_, rfl⟩
  rw [modify_pcbs_apply]
  split
  case isTrue h =>
    subst h
    exact hf
  case isFalse => rfl

theorem notify {waits : Pcb → Bool} {clear : Pcb → Pcb} (hclear : ∀ q, (clear q).ident = q.ident) :
    SameProcesses s (s.notify waits clear) := by
  refine ⟨fun p => ?_, rfl⟩
  rw [notify_pcbs_apply]
  split
  · exact hclear _
  · rfl

theorem pml4 (h : SameProcesses s t) (p : Nat) : (t.pcbs p).pml4 = (s.pcbs p).pml4 :=
  congrArg (fun i => i.2.2) (h.ident p)

theorem ppid (h : SameProcesses s t) (p : Nat) : (t.pcbs p).ppid = (s.pcbs p).ppid :=
  congrArg (fun i => i.2.1) (h.ident p)

theorem pid (h : SameProcesses s t) (p : Nat) : (t.pcbs p).pid = (s.pcbs p).pid := congrArg Prod.fst (h.ident p)

end SameProcesses

/-- `cr3` holds the active process's PML4. -/
def Loaded (s : Sched) : Prop := s.cr3 = (s.pcbs s.active).pml4

theorem Loaded.of_same (hl : Loaded s) (h : SameProcesses s t) (hcr3 : t.cr3 = s.cr3) (hact : t.active = s.active) :
    Loaded t := by
  rw [Loaded, hcr3, hact, h.pml4]
  exact hl

theorem getNextContext_loads {fuel : Nat} (h : s.getNextContext fuel = some t) : SameProcesses s t ∧ Loaded t := by
  induction fuel generalizing s t with
  | zero => cases h
  | succ fuel ih =>
    have hsame : SameProcesses s (s.enqueueProcess s.active).takeHead :=
      ⟨fun p => by rw [takeHead_pcbs, enqueueProcess_pcbs], enqueueProcess_created s s.active⟩
    simp only [getNextContext] at h
    split at h
    · cases h
    · split at h
      · cases h
        exact ⟨⟨hsame.ident, hsame.created⟩, rfl⟩
      · obtain ⟨u, hu, rfl⟩ := Option.map_eq_some_iff.1 h
        have hsame' := hsame.trans (ih hu).1
        exact ⟨⟨hsame'.ident, hsame'.created⟩, rfl⟩

theorem schedule_loads {fuel : Nat} {rsp : Word} (h : s.schedule fuel rsp = some t) : SameProcesses s t ∧ Loaded t := by
  obtain ⟨ht, hl⟩ := getNextContext_loads h
  have hstored : SameProcesses s (s.modify s.active fun p => { p with kernelSp := rsp }) := .modify _ rfl
  exact ⟨hstored.trans ht, hl⟩

/-- A switch to the first entry of the ring, which can run. -/
theorem schedule_next (h : QueueInv s) {post : List Nat} (hq : s.queue = p :: post)
    (hp : (s.pcbs p).status = .running) : ∃ t, s.schedule 1 0 = some t ∧ t.active = p ∧
      t.queue = post ++ (if (s.pcbs s.active).status = .finished then [] else [s.active]) ∧
      ∀ q, (t.pcbs q).status = (s.pcbs q).status := by
  have h₁ : QueueInv (s.modify s.active fun p => { p with kernelSp := 0 }) := h.modify_active _
  have hstatus : ∀ q, ((s.modify s.active fun p => { p with kernelSp := 0 }).pcbs q).status = (s.pcbs q).status := by
    intro q
    rw [modify_pcbs_apply]
    split <;> rfl
  have hreq : (s.modify s.active fun p => { p with kernelSp := 0 }).requeued =
      [] ++ p :: (post ++ if (s.pcbs s.active).status = .finished then [] else [s.active]) := by
    rw [requeued, modify_queue, modify_active, hstatus, hq]
    rfl
  have hrun : ((s.modify s.active fun p => { p with kernelSp := 0 }).pcbs p).runnable = true := by
    rw [Pcb.runnable, hstatus, hp]
    rfl
  obtain ⟨t, ht, hrot⟩ := getNextContext_rotates h₁.head_lt h₁.tail_lt hreq (fun q => h₁.requeued_pos)
    (fun q hq => absurd hq List.not_mem_nil) hrun (Nat.lt_succ_self 0)
  refine ⟨t, ht, hrot.active_eq, ?_, fun q => ?_⟩
  · rw [hrot.queue_eq, List.filter_nil, List.append_nil]
  · rw [hrot.pcbs_eq, hstatus]

end Sched

namespace Kernel
variable {k k' : Kernel} {e : Event} {fuel : Nat} {rsp : Word}

/-- The events that leave memory alone: exits, context switches, and what puts processes to sleep or wakes them. -/
def Quiet : Event → Bool
  | .exit _ | .kill _ _ | .waitpid _ _ | .alarm _ | .yield | .key _ | .tick => true
  | .fork _ _ _ | .read _ _ _ | .exec _ _ | .start _ => false

/-- A quiet event keeps the processes, and `cr3` is the active one's. -/
theorem quiet_loads (he : Quiet e = true) (hl : k.sched.Loaded) (hs : k.handle fuel rsp e = some k') :
    k.sched.SameProcesses k'.sched ∧ k'.sched.Loaded := by
  have hsched : ∀ {s : Sched}, k.sched.SameProcesses s → (s.schedule fuel rsp).map k.withSched = some k' →
      k.sched.SameProcesses k'.sched ∧ k'.sched.Loaded := by
    intro s hsame hs
    obtain ⟨t, ht, rfl⟩ := Option.map_eq_some_iff.1 hs
    obtain ⟨ht, hl⟩ := Sched.schedule_loads ht
    exact ⟨hsame.trans ht, hl⟩
  have hnotify : ∀ {s : Sched} {pid : Int} {status : Word}, k.sched.SameProcesses s →
      k.sched.SameProcesses (s.notifyExitPid pid status) := fun hsame => hsame.trans (.notify fun _ => rfl)
  cases e with
  | exit status => exact hsched (hnotify (.modify _ rfl)) hs
  | kill pid sig =>
    cases hs
    have hkill : k.sched.SameProcesses (k.sched.killPid pid).1 := by
      unfold Sched.killPid
      split
      case h_1 v _ => exact .modify v (f := fun q => { q with status := .finished }) rfl
      case h_2 => exact .refl _
    have hregs : (k.sched.killPid pid).1.cr3 = k.sched.cr3 ∧ (k.sched.killPid pid).1.active = k.sched.active := by
      unfold Sched.killPid
      split <;> exact ⟨rfl, rfl⟩
    by_cases hr : (k.sched.killPid pid).2 = 0
    · rw [doKill, if_neg (not_not_intro hr)]
      exact ⟨hnotify hkill, hl.of_same (hnotify hkill) hregs.1 hregs.2⟩
    · rw [doKill, if_pos hr]
      exact ⟨hkill, hl.of_same hkill hregs.1 hregs.2⟩
  | waitpid pid ret => exact hsched (.modify _ rfl) hs
  | alarm seconds => exact hsched (.modify _ rfl) hs
  | yield => exact hsched (.refl _) hs
  | key c =>
    obtain ⟨r, -, hs⟩ := Option.bind_eq_some_iff.1 hs
    cases hs
    split
    · have hsame : k.sched.SameProcesses k.sched.notifyStdin := .notify fun _ => rfl
      exact ⟨hsame, hl.of_same hsame rfl rfl⟩
    · exact ⟨.refl _, hl⟩
  | tick =>
    obtain ⟨t, ht, rfl⟩ := Option.map_eq_some_iff.1 hs
    generalize hs₁ :
      (if (k.ticks + 1) % alarmTickDivide = 1 then k.sched.notifyAlarm (k.ticks + 1) else k.sched) = s₁ at ht
    have hsame : k.sched.SameProcesses s₁ ∧ s₁.cr3 = k.sched.cr3 ∧ s₁.active = k.sched.active := by
      rw [← hs₁]
      split
      · exact ⟨.notify fun _ => rfl, rfl, rfl⟩
      · exact ⟨.refl _, rfl, rfl⟩
    simp only [Sched.preempt] at ht
    have hslice : ∀ n, k.sched.SameProcesses { s₁ with timeSlice := n } := fun n => ⟨hsame.1.ident, hsame.1.created⟩
    split at ht
    · obtain ⟨ht, hl'⟩ := Sched.schedule_loads ht
      exact ⟨(hslice 0).trans ht, hl'⟩
    · cases ht
      exact ⟨hslice _, hl.of_same (hslice _) hsame.2.1 hsame.2.2⟩
  | fork | read | exec | start => cases he

/-- `do_fork` adds one process. -/
structure Forks (k : Kernel) (pml4 : Word) (k' : Kernel) : Prop where
  created : k'.sched.created = k.sched.created + 1
  old : ∀ p, p ≤ k.sched.created → k'.sched.pcbs p = k.sched.pcbs p
  child : (k'.sched.pcbs (k.sched.created + 1)).ident = (k.sched.prevPid + 1, k.activePcb.pid, pml4)
  active : k'.sched.active = k.sched.active
  cr3 : k'.sched.cr3 = k.activePcb.pml4

theorem doFork_forks {kernelStack pml4 pml4' r : Word} (hle : k.sched.active ≤ k.sched.created)
    (hs : k.doFork kernelStack pml4 pml4' rsp = some (k', r)) : Forks k pml4' k' := by
  unfold doFork at hs
  split at hs
  · cases hs
    rw [Sched.getForkedPcb_eq k.sched kernelStack pml4 pml4' hle]
    have hne : k.sched.active ≠ k.sched.created + 1 := by omega
    refine ⟨?_, fun p hp => ?_, ?_, ?_, ?_⟩ <;>
      simp only [withSched, Sched.processRun, Sched.enqueueProcess_created, Sched.enqueueProcess_pcbs,
        Sched.enqueueProcess_active, Sched.modify]
    · rw [Function.update_of_ne (by omega), Function.update_of_ne (by omega)]
    · rw [Function.update_self, Function.update_self]
      rfl
    · rw [Function.update_of_ne hne, Function.update_of_ne hne]
      rfl
  · cases hs

/-- The new process is the last of the ring. -/
theorem doFork_queues_child {kernelStack pml4 pml4' r : Word} (h : k.sched.QueueInv)
    (hroom : k.sched.queue.length ≤ processQueueSize - 2) (hs : k.doFork kernelStack pml4 pml4' rsp = some (k', r)) :
    k'.sched.queue = k.sched.queue ++ [k.sched.created + 1] ∧
      (k'.sched.pcbs (k.sched.created + 1)).status = .running := by
  obtain ⟨s, hlist, hhead, htail, -, hrun, hk'⟩ := doFork_queue hs
  have hqueue : s.queue = k.sched.queue := by rw [Sched.queue, hlist, hhead, htail, Sched.queue]
  have hroom' : s.queue.length + 1 < processQueueSize := by
    rw [hqueue]
    simp only [processQueueSize] at *
    omega
  rw [hk']
  constructor
  · rw [← hqueue]
    refine Sched.queue_processRun (hhead ▸ h.head_lt) (htail ▸ h.tail_lt) hroom' ?_
    rw [hrun]
    decide
  · rw [Sched.processRun, Sched.enqueueProcess_pcbs, hrun]

end Kernel

end Sbuos
