import Sbuos.Process
import Sbuos.Lib.Run
import Mathlib.Data.List.Nodup
/-!
# The ready queue over whole runs

`QueueInv` ties the ring to the processes: the active process and the queued ones are distinct, and
every live process is among them. The one operation that moves entries around is `getNextContext`;
`getNextContext_rotates` says what it does to the queue, whatever the positions of the indices, and
everything else follows from that.

**`ready_queue_integrity`**: the invariant holds in every state of every run.
-/
namespace Sbuos
open Lib

namespace Sched
variable {s t : Sched} {p r : Nat} {pre post rest : List Nat}

/-- The ring, the active process and the processes created. -/
structure QueueInv (s : Sched) : Prop where
  head_lt : s.head < processQueueSize
  tail_lt : s.tail < processQueueSize
  slots : ∀ i, s.list i ≤ s.created
  pos : ∀ p ∈ s.active :: s.queue, 0 < p
  active_le : s.active ≤ s.created
  nodup : (s.active :: s.queue).Nodup
  live : ∀ p, 0 < p → p ≤ s.created → (s.pcbs p).status ≠ .finished → p ∈ s.active :: s.queue

/-- The part of it that does not depend on who is live: the ring holds each process once, the active one aside. -/
structure RingInv (s : Sched) : Prop where
  head_lt : s.head < processQueueSize
  tail_lt : s.tail < processQueueSize
  slots : ∀ i, s.list i ≤ s.created
  pos : ∀ p ∈ s.active :: s.queue, 0 < p
  active_le : s.active ≤ s.created
  nodup : (s.active :: s.queue).Nodup

theorem QueueInv.ring (h : QueueInv s) : RingInv s :=
  ⟨h.head_lt, h.tail_lt, h.slots, h.pos, h.active_le, h.nodup⟩

/-! ## One call of `get_next_context` -/

/-- The queue once `get_next_context` has enqueued the active process. -/
def requeued (s : Sched) : List Nat :=
  s.queue ++ if (s.pcbs s.active).status = .finished then [] else [s.active]

theorem mem_requeued_of_live (hp : p ∈ s.active :: s.queue) (hl : (s.pcbs p).status ≠ .finished) :
    p ∈ s.requeued := by
  rw [requeued, List.mem_append]
  rcases List.mem_cons.1 hp with rfl | hp
  · exact .inr (by simp [hl])
  · exact .inl hp

theorem requeued_sublist_perm (s : Sched) : ∃ l, s.requeued.Sublist l ∧ l.Perm (s.active :: s.queue) := by
  refine ⟨s.queue ++ [s.active], ?_, List.perm_append_singleton _ _⟩
  unfold requeued
  split <;> simp

/-- Enqueuing the active process and taking the head moves the front of the queue out. -/
theorem takeHead_enqueueProcess (hh : s.head < processQueueSize) (ht : s.tail < processQueueSize)
    (hq : s.requeued = r :: rest) :
    (s.enqueueProcess s.active).takeHead.active = r ∧
      (s.enqueueProcess s.active).takeHead.queue = rest ∧
      (s.enqueueProcess s.active).takeHead.tail < processQueueSize := by
  unfold requeued at hq
  unfold enqueueProcess
  by_cases hf : (s.pcbs s.active).status = .finished
  · rw [if_pos hf, List.append_nil, queue] at hq
    rw [if_pos hf]
    have hne : s.head ≠ s.tail := by
      intro h
      rw [h, Ring.window_self _ _ ht] at hq
      cases hq
    rw [Ring.window_cons _ hh ht hne] at hq
    obtain ⟨h1, h2⟩ := List.cons.inj hq
    exact ⟨h1, h2, ht⟩
  · rw [if_neg hf, queue] at hq
    rw [if_neg hf]
    have hrot := Ring.window_rotate s.list s.active hh ht
    rw [hq] at hrot
    obtain ⟨h1, h2⟩ := List.cons.inj hrot
    exact ⟨h1, h2, Nat.mod_lt _ (by decide)⟩

theorem enqueueProcess_slots {n : Nat} (hp : p ≤ n) (hl : ∀ i, s.list i ≤ n) (i : Nat) :
    (s.enqueueProcess p).list i ≤ n := by
  unfold enqueueProcess
  split
  · exact hl i
  · by_cases hi : i = s.tail
    · subst hi; simpa using hp
    · simpa [hi] using hl i

theorem enqueueProcess_tail_lt (p : Nat) (ht : s.tail < processQueueSize) :
    (s.enqueueProcess p).tail < processQueueSize := by
  unfold enqueueProcess
  split
  · exact ht
  · exact Nat.mod_lt _ (by decide)

/-- What `get_next_context` makes of the queue `pre ++ r :: post` whose first runnable entry is `r`. -/
structure Rotated (s : Sched) (pre : List Nat) (r : Nat) (post : List Nat) (t : Sched) : Prop where
  active_eq : t.active = r
  queue_eq : t.queue = post ++ pre.filter fun p => (s.pcbs p).status ≠ .finished
  head_lt : t.head < processQueueSize
  tail_lt : t.tail < processQueueSize
  pcbs_eq : t.pcbs = s.pcbs
  created_eq : t.created = s.created
  prevPid_eq : t.prevPid = s.prevPid
  slots : ∀ n, s.active ≤ n → (∀ i, s.list i ≤ n) → ∀ i, t.list i ≤ n

/-- The scan passes over the entries that cannot run, dropping the finished ones and queueing the
blocked ones again, and ends at the first that can. -/
theorem getNextContext_rotates (hh : s.head < processQueueSize) (ht : s.tail < processQueueSize)
    (hq : s.requeued = pre ++ r :: post) (h0 : ∀ p ∈ s.requeued, 0 < p)
    (hpre : ∀ p ∈ pre, (s.pcbs p).runnable = false) (hr : (s.pcbs r).runnable = true)
    {fuel : Nat} (hf : pre.length < fuel) :
    ∃ t, s.getNextContext fuel = some t ∧ Rotated s pre r post t := by
  induction pre generalizing s post fuel with
  | nil =>
    obtain ⟨fuel, rfl⟩ : ∃ f, fuel = f + 1 := ⟨fuel - 1, by omega⟩
    obtain ⟨h1, h2, h3⟩ := takeHead_enqueueProcess hh ht hq
    have hr0 : r ≠ 0 := Nat.ne_of_gt (h0 r (by rw [hq]; simp))
    have hpcbs : (s.enqueueProcess s.active).takeHead.pcbs = s.pcbs := enqueueProcess_pcbs ..
    refine ⟨(s.enqueueProcess s.active).takeHead.switchTo, ?_, ?_⟩
    · rw [getNextContext, if_neg (by rw [h1]; exact hr0), if_pos (by rw [hpcbs, h1]; exact hr)]
    · exact
        { active_eq := h1
          queue_eq := by simpa using h2
          head_lt := Nat.mod_lt _ (by decide)
          tail_lt := h3
          pcbs_eq := hpcbs
          created_eq := enqueueProcess_created ..
          prevPid_eq := enqueueProcess_prevPid ..
          slots := fun n ha hl => enqueueProcess_slots ha hl }
  | cons p pre ih =>
    obtain ⟨fuel, rfl⟩ : ∃ f, fuel = f + 1 := ⟨fuel - 1, by omega⟩
    obtain ⟨h1, h2, h3⟩ := takeHead_enqueueProcess hh ht hq
    have hp0 : p ≠ 0 := Nat.ne_of_gt (h0 p (by rw [hq]; simp))
    have hp : (s.pcbs p).runnable = false := hpre p (by simp)
    have hpcbs : (s.enqueueProcess s.active).takeHead.pcbs = s.pcbs := enqueueProcess_pcbs ..
    -- what the recursive call enqueues is the entry just passed over, unless it is finished
    have huq : (s.enqueueProcess s.active).takeHead.requeued =
        pre ++ r :: (post ++ if (s.pcbs p).status = .finished then [] else [p]) := by
      rw [requeued, hpcbs, h1, h2]
      simp
    have hmem : ∀ q ∈ (s.enqueueProcess s.active).takeHead.requeued, q ∈ s.requeued := by
      intro q hqm
      rw [huq] at hqm
      rw [hq]
      split at hqm <;> simp at hqm ⊢ <;> tauto
    obtain ⟨t, htu, hrot⟩ := ih (Nat.mod_lt _ (by decide)) h3 huq
      (fun q hqm => h0 q (hmem q hqm)) (fun q hqm => by rw [hpcbs]; exact hpre q (by simp [hqm]))
      (by rw [hpcbs]; exact hr) (show pre.length < fuel by simp at hf; omega)
    refine ⟨t.switchTo, ?_, ?_⟩
    · rw [getNextContext, if_neg (by rw [h1]; exact hp0), if_neg (by rw [hpcbs, h1, hp]; simp), htu]
      rfl
    · refine
        { active_eq := hrot.active_eq
          queue_eq := ?_
          head_lt := hrot.head_lt
          tail_lt := hrot.tail_lt
          pcbs_eq := hrot.pcbs_eq.trans hpcbs
          created_eq := hrot.created_eq.trans (enqueueProcess_created ..)
          prevPid_eq := hrot.prevPid_eq.trans (enqueueProcess_prevPid ..)
          slots := fun n ha hl => ?_ }
      · have hqe := hrot.queue_eq
        rw [hpcbs] at hqe
        rw [show t.switchTo.queue = t.queue from rfl, hqe, List.filter_cons]
        split <;> simp_all
      · refine hrot.slots n ?_ (enqueueProcess_slots ha hl)
        simpa using enqueueProcess_slots ha hl s.head

/-- More fuel gives the same answer. -/
theorem getNextContext_mono {fuel fuel' : Nat} (h : s.getNextContext fuel = some t) (hle : fuel ≤ fuel') :
    s.getNextContext fuel' = some t := by
  induction fuel generalizing s t fuel' with
  | zero => cases h
  | succ fuel ih =>
    obtain ⟨fuel', rfl⟩ : ∃ f, fuel' = f + 1 := ⟨fuel' - 1, by omega⟩
    simp only [getNextContext] at h ⊢
    split at h
    · cases h
    · split at h
      · rw [if_neg ‹_›, if_pos ‹_›]; exact h
      · rw [if_neg ‹_›, if_neg ‹_›]
        obtain ⟨u, hu, rfl⟩ := Option.map_eq_some_iff.1 h
        rw [ih hu (by omega)]
        rfl

/-- Whoever is switched to was active or sits in a slot of the ring, and can run. -/
theorem getNextContext_active {fuel : Nat} (h : s.getNextContext fuel = some t) :
    (t.active = s.active ∨ ∃ i, t.active = s.list i) ∧ t.active ≠ 0 ∧
      (s.pcbs t.active).runnable = true := by
  induction fuel generalizing s t with
  | zero => cases h
  | succ fuel ih =>
    have hback : ∀ i, (s.enqueueProcess s.active).list i = s.active ∨
        ∃ j, (s.enqueueProcess s.active).list i = s.list j := by
      intro i
      unfold enqueueProcess
      split
      · exact .inr ⟨i, rfl⟩
      · by_cases hi : i = s.tail
        · subst hi; exact .inl (by simp)
        · exact .inr ⟨i, by simp [hi]⟩
    simp only [getNextContext] at h
    split at h
    · cases h
    · split at h
      · cases h
        refine ⟨by simpa using hback s.head, ‹_›, ?_⟩
        simp_all
      · obtain ⟨u, hu, rfl⟩ := Option.map_eq_some_iff.1 h
        obtain ⟨hfrom, hne, hrun⟩ := ih hu
        refine ⟨?_, hne, by simpa using hrun⟩
        rcases hfrom with hfrom | ⟨i, hfrom⟩
        · simpa [hfrom] using hback s.head
        · simpa [hfrom] using hback i

/-! ## The invariant is kept -/

/-- A process that can run gives the scan a first one to stop at. -/
theorem exists_first (hp : p ∈ s.active :: s.queue) (hr : (s.pcbs p).runnable = true) :
    ∃ pre r post, s.requeued = pre ++ r :: post ∧ (∀ q ∈ pre, (s.pcbs q).runnable = false) ∧
      (s.pcbs r).runnable = true := by
  have hmem := mem_requeued_of_live hp (Pcb.runnable_ne_finished hr)
  have hsome : (s.requeued.find? fun q => (s.pcbs q).runnable).isSome := by
    rw [List.find?_isSome]; exact ⟨p, hmem, hr⟩
  obtain ⟨r, hfind⟩ := Option.isSome_iff_exists.1 hsome
  obtain ⟨hrr, pre, post, hq, hpre⟩ := List.find?_eq_some_iff_append.1 hfind
  exact ⟨pre, r, post, hq, fun q hqm => by simpa using hpre q hqm, hrr⟩

/-- The queue with one process more, when there is room for it. -/
theorem queue_processRun (hh : s.head < processQueueSize) (ht : s.tail < processQueueSize)
    (hroom : s.queue.length + 1 < processQueueSize) {c : Nat} (hnew : (s.pcbs c).status ≠ .finished) :
    (s.processRun c).queue = s.queue ++ [c] := by
  rw [queue, Ring.length_window] at hroom
  rw [Sched.processRun, enqueueProcess, if_neg hnew]
  exact Ring.window_push s.list c hh ht hroom

theorem mem_of_mem_requeued (hp : p ∈ s.requeued) : p ∈ s.active :: s.queue := by
  obtain ⟨l, hsub, hperm⟩ := requeued_sublist_perm s
  exact hperm.mem_iff.1 (hsub.subset hp)

/-- A call that returns, when some process can run, rotates the queue. -/
theorem getNextContext_rotated (hh : s.head < processQueueSize) (ht : s.tail < processQueueSize)
    (hpos : ∀ p ∈ s.active :: s.queue, 0 < p) (hp : p ∈ s.active :: s.queue) (hr : (s.pcbs p).runnable = true)
    {fuel : Nat} (hs : s.getNextContext fuel = some t) :
    ∃ pre r post, s.requeued = pre ++ r :: post ∧ (∀ q ∈ pre, (s.pcbs q).runnable = false) ∧
      (s.pcbs r).runnable = true ∧ Rotated s pre r post t := by
  obtain ⟨pre, r, post, hq, hpre, hrr⟩ := exists_first hp hr
  obtain ⟨u, hu, hrot⟩ := getNextContext_rotates hh ht hq (fun q hq => hpos q (mem_of_mem_requeued hq))
    hpre hrr (Nat.lt_succ_of_le (Nat.le_max_left pre.length fuel))
  have hmono := getNextContext_mono hs (Nat.le_succ_of_le (Nat.le_max_right pre.length fuel))
  obtain rfl : t = u := Option.some.inj (hmono.symm.trans hu)
  exact ⟨pre, r, post, hq, hpre, hrr, hrot⟩

/-- Nobody live gets lost in it. -/
theorem Rotated.mem_of_live (h : Rotated s pre r post t) (hq : s.requeued = pre ++ r :: post)
    (hp : p ∈ s.active :: s.queue) (hl : (s.pcbs p).status ≠ .finished) : p ∈ t.active :: t.queue := by
  have hin := mem_requeued_of_live hp hl
  rw [hq] at hin
  rw [h.active_eq, h.queue_eq]
  simp only [List.mem_cons, List.mem_append, List.mem_filter] at hin ⊢
  simp only [hl, ne_eq, not_false_eq_true, decide_true, and_true]
  tauto

namespace RingInv

theorem mem_queue_le (h : RingInv s) (hp : p ∈ s.queue) : p ≤ s.created := by
  obtain ⟨k, -, rfl⟩ := List.mem_map.1 hp
  exact h.slots _

theorem mem_le (h : RingInv s) (hp : p ∈ s.active :: s.queue) : p ≤ s.created := by
  rcases List.mem_cons.1 hp with rfl | hp
  · exact h.active_le
  · exact h.mem_queue_le hp

theorem requeued_nodup (h : RingInv s) : s.requeued.Nodup := by
  obtain ⟨l, hsub, hperm⟩ := requeued_sublist_perm s
  exact hsub.nodup (hperm.nodup_iff.2 h.nodup)

theorem requeued_pos (h : RingInv s) (hp : p ∈ s.requeued) : 0 < p := h.pos p (mem_of_mem_requeued hp)

/-- `process_run` of a process just created, with room in the ring. -/
theorem processRun (h : RingInv s) (hroom : s.queue.length + 2 ≤ processQueueSize) {pcbs : Nat → Pcb}
    (hnew : (pcbs (s.created + 1)).status ≠ .finished) (prevPid : Int) :
    RingInv (Sched.processRun (s.created + 1)
      { s with pcbs := pcbs, created := s.created + 1, prevPid := prevPid }) := by
  have hq := @queue_processRun { s with pcbs := pcbs, created := s.created + 1, prevPid := prevPid } h.head_lt h.tail_lt
    hroom (s.created + 1) hnew
  have hfresh : s.created + 1 ∉ s.active :: s.queue := fun hm => by have := h.mem_le hm; omega
  unfold Sched.processRun enqueueProcess at hq ⊢
  rw [if_neg hnew] at hq ⊢
  refine
    { head_lt := h.head_lt
      tail_lt := Nat.mod_lt _ (by decide)
      slots := fun i => ?_
      pos := fun p hp => ?_
      active_le := Nat.le_succ_of_le h.active_le
      nodup := ?_ }
  · by_cases hi : i = s.tail
    · subst hi; simp
    · simpa [hi] using Nat.le_succ_of_le (h.slots i)
  · rw [hq, ← List.cons_append, List.mem_append] at hp
    rcases hp with hp | hp
    · exact h.pos p hp
    · rw [List.mem_singleton.1 hp]; omega
  · rw [hq, ← List.cons_append]
    exact List.nodup_append_comm.1 (List.nodup_cons.2 ⟨hfresh, h.nodup⟩)

theorem rotated (h : RingInv s) (hq : s.requeued = pre ++ r :: post) (ht : Rotated s pre r post t) :
    RingInv t := by
  have hnd : (pre ++ r :: post).Nodup := hq ▸ h.requeued_nodup
  have hmem : ∀ q ∈ t.active :: t.queue, q ∈ s.requeued := by
    intro q hqm
    rw [ht.active_eq, ht.queue_eq] at hqm
    rw [hq]
    simp only [List.mem_cons, List.mem_append, List.mem_filter] at hqm ⊢
    tauto
  refine
    { head_lt := ht.head_lt
      tail_lt := ht.tail_lt
      slots := fun i => ?_
      pos := fun q hqm => h.requeued_pos (hmem q hqm)
      active_le := ?_
      nodup := ?_ }
  · rw [ht.created_eq]; exact ht.slots _ h.active_le h.slots i
  · rw [ht.created_eq]
    exact h.mem_le (mem_of_mem_requeued (hmem _ List.mem_cons_self))
  · rw [ht.active_eq, ht.queue_eq]
    have hrot : (r :: post ++ pre).Nodup := List.nodup_append_comm.1 hnd
    have hsub : (r :: post ++ pre.filter fun p => (s.pcbs p).status ≠ .finished).Sublist (r :: post ++ pre) :=
      List.Sublist.append_left List.filter_sublist _
    exact hrot.sublist hsub

end RingInv

namespace QueueInv

theorem mem_queue_le (h : QueueInv s) (hp : p ∈ s.queue) : p ≤ s.created := h.ring.mem_queue_le hp

theorem live_mem_queue (h : QueueInv s) (hp : 0 < p) (hle : p ≤ s.created)
    (hl : (s.pcbs p).status ≠ .finished) (hne : p ≠ s.active) : p ∈ s.queue :=
  (List.mem_cons.1 (h.live p hp hle hl)).resolve_left hne

/-- Stores to pcbs that bring no finished process back, the active one apart. -/
theorem of_pcbs (h : QueueInv s) (pcbs : Nat → Pcb)
    (hst : ∀ p ≠ s.active, (s.pcbs p).status = .finished → (pcbs p).status = .finished) :
    QueueInv { s with pcbs := pcbs } where
  head_lt := h.head_lt
  tail_lt := h.tail_lt
  slots := h.slots
  pos := h.pos
  active_le := h.active_le
  nodup := h.nodup
  live p hp hle hl := by
    by_cases ha : p = s.active
    · exact ha ▸ List.mem_cons_self
    · exact h.live p hp hle fun hf => hl (hst p ha hf)

theorem modify_active (h : QueueInv s) (f : Pcb → Pcb) : QueueInv (s.modify s.active f) :=
  h.of_pcbs _ fun p ha hf => by simpa [ha] using hf

theorem notify (h : QueueInv s) (waits : Pcb → Bool) (clear : Pcb → Pcb) :
    QueueInv (s.notify waits clear) :=
  h.of_pcbs _ fun p _ hf => by
    have hp := notify_pcbs_apply s p waits clear
    rw [if_neg (by simp [hf])] at hp
    exact (congrArg Pcb.status hp).trans hf

theorem killPid (h : QueueInv s) (pid : Word) : QueueInv (s.killPid pid).1 := by
  unfold Sched.killPid
  split
  · rename_i victim _
    refine h.of_pcbs _ fun q _ hf => ?_
    by_cases hq : q = victim
    · subst hq; simp
    · simpa [hq] using hf
  · exact h

/-- `process_run` of a process just created, with room in the ring. -/
theorem processRun (h : QueueInv s) (hroom : s.queue.length + 2 ≤ processQueueSize) {pcbs : Nat → Pcb}
    (hst : ∀ p ≤ s.created, (pcbs p).status = (s.pcbs p).status)
    (hnew : (pcbs (s.created + 1)).status ≠ .finished) (prevPid : Int) :
    QueueInv (Sched.processRun (s.created + 1)
      { s with pcbs := pcbs, created := s.created + 1, prevPid := prevPid }) := by
  have hring := h.ring.processRun hroom hnew prevPid
  refine ⟨hring.head_lt, hring.tail_lt, hring.slots, hring.pos, hring.active_le, hring.nodup, fun p hp hle hl => ?_⟩
  rw [@queue_processRun { s with pcbs := pcbs, created := s.created + 1, prevPid := prevPid } h.head_lt h.tail_lt
    hroom (s.created + 1) hnew]
  simp only [Sched.processRun, enqueueProcess_active, enqueueProcess_created, enqueueProcess_pcbs] at hle hl ⊢
  rw [← List.cons_append, List.mem_append]
  rcases Nat.lt_or_eq_of_le hle with hlt | rfl
  · have hlt : p ≤ s.created := Nat.le_of_lt_succ hlt
    exact .inl (h.live p hp hlt fun hf => hl ((hst p hlt).trans hf))
  · exact .inr (List.mem_singleton.2 rfl)

theorem requeued_pos (h : QueueInv s) (hp : p ∈ s.requeued) : 0 < p := h.ring.requeued_pos hp

theorem rotated (h : QueueInv s) (hq : s.requeued = pre ++ r :: post) (ht : Rotated s pre r post t) :
    QueueInv t := by
  have hring := h.ring.rotated hq ht
  refine ⟨hring.head_lt, hring.tail_lt, hring.slots, hring.pos, hring.active_le, hring.nodup, fun q hq0 hle hl => ?_⟩
  rw [ht.created_eq] at hle
  rw [ht.pcbs_eq] at hl
  exact ht.mem_of_live hq (h.live q hq0 hle hl) hl

/-- `get_next_context` returns as soon as some process can run. -/
theorem getNextContext_returns (h : QueueInv s) (hp : 0 < p) (hle : p ≤ s.created)
    (hr : (s.pcbs p).runnable = true) : ∃ fuel t, s.getNextContext fuel = some t := by
  obtain ⟨pre, r, post, hq, hpre, hrr⟩ := exists_first (h.live p hp hle (Pcb.runnable_ne_finished hr)) hr
  obtain ⟨t, ht, -⟩ := getNextContext_rotates h.head_lt h.tail_lt hq (fun q => h.requeued_pos) hpre hrr
    (Nat.lt_succ_self pre.length)
  exact ⟨_, t, ht⟩

/-- Whenever it returns, it has rotated the queue to its first runnable entry. -/
theorem getNextContext (h : QueueInv s) {fuel : Nat} (ht : s.getNextContext fuel = some t) :
    QueueInv t ∧ t.pcbs = s.pcbs ∧ t.created = s.created ∧ t.prevPid = s.prevPid ∧
      (t.pcbs t.active).runnable = true := by
  obtain ⟨hfrom, hne, hrun⟩ := getNextContext_active ht
  have hle : t.active ≤ s.created := by
    rcases hfrom with he | ⟨i, he⟩
    · rw [he]; exact h.active_le
    · rw [he]; exact h.slots i
  have hlive := h.live _ (Nat.pos_of_ne_zero hne) hle (Pcb.runnable_ne_finished hrun)
  obtain ⟨pre, r, post, hq, -, -, hrot⟩ := getNextContext_rotated h.head_lt h.tail_lt h.pos hlive hrun ht
  exact ⟨h.rotated hq hrot, hrot.pcbs_eq, hrot.created_eq, hrot.prevPid_eq, by rw [hrot.pcbs_eq]; exact hrun⟩

end QueueInv

/-! ## Runs -/

/-- One event at the scheduler. The words are what the allocator, the user or `map_file` supplies. -/
inductive Op
  | processRun (kernelStack pml4 pml4' : Word)
  | getNextContext
  | exit
  | killPid (pid : Word)
  | blockOnStdin
  | blockOnPid (pid statusReturn : Word)
  | blockOnClock (clock : Word)
  | exec (abspath : Nat → Byte) (userSp : Word)
  | prepare (ip : Word)
  | notifyStdin
  | notifyExitPid (pid : Int) (status : Word)
  | notifyAlarm (clock : Word)

def apply (fuel : Nat) : Op → Sched → Option Sched
  | .processRun kernelStack pml4 pml4', s =>
    let s := s.getForkedPcb kernelStack pml4 pml4' s.active
    some (s.processRun s.created)
  | .getNextContext, s => s.getNextContext fuel
  | .exit, s => some (s.modify s.active Pcb.exits)
  | .killPid pid, s => some (s.killPid pid).1
  | .blockOnStdin, s => some (s.modify s.active Pcb.blocksOnStdin)
  | .blockOnPid pid ret, s => some (s.modify s.active (Pcb.blocksOnPid pid ret))
  | .blockOnClock clock, s => some (s.modify s.active (Pcb.blocksOnClock clock))
  | .exec abspath userSp, s => some (s.modify s.active (Pcb.execs abspath userSp))
  | .prepare ip, s => some (s.modify s.active (Pcb.prepares ip))
  | .notifyStdin, s => some s.notifyStdin
  | .notifyExitPid pid status, s => some (s.notifyExitPid pid status)
  | .notifyAlarm clock, s => some (s.notifyAlarm clock)

/-- A call of `get_next_context` that never returns is no step. -/
def Step (s : Sched) (op : Op) (t : Sched) : Prop := ∃ fuel, s.apply fuel op = some t

/-- `process_run` finds at most `PROCESS_QUEUE_SIZE - 2` entries queued, and `get_next_context` some
process that can run. -/
def Guard (s : Sched) : Op → Prop
  | .processRun .. => s.queue.length ≤ processQueueSize - 2
  | .getNextContext => ∃ p, 0 < p ∧ p ≤ s.created ∧ (s.pcbs p).runnable = true
  | _ => True

theorem Booted.queue_eq (h : Booted s) : s.queue = [2] := by
  rw [queue, h.head_eq, h.tail_eq, h.list_eq]; rfl

theorem QueueInv.init (h : Booted s) : QueueInv s := by
  have hq := h.queue_eq
  refine
    { head_lt := by rw [h.head_eq]; decide
      tail_lt := by rw [h.tail_eq]; decide
      slots := fun i => ?_
      pos := fun p hp => ?_
      active_le := by rw [h.active_eq, h.created_eq]; decide
      nodup := by rw [hq, h.active_eq]; decide
      live := fun p hp hle _ => ?_ }
  · rw [h.list_eq, h.created_eq]
    simp only [Function.update_apply]
    split
    · omega
    · split <;> omega
  · rw [hq, h.active_eq] at hp
    simp at hp
    omega
  · rw [h.created_eq] at hle
    rw [hq, h.active_eq]
    have : p = 1 ∨ p = 2 := by omega
    simpa using this

/-- One step keeps the invariant. -/
theorem QueueInv.step (h : QueueInv s) {op : Op} (hg : Guard s op) (hs : Step s op t) : QueueInv t := by
  obtain ⟨fuel, hs⟩ := hs
  cases op with
  | processRun kernelStack pml4 pml4' =>
    cases hs
    rw [getForkedPcb_eq s kernelStack pml4 pml4' h.active_le]
    have hroom : s.queue.length + 2 ≤ processQueueSize := by
      have : s.queue.length ≤ processQueueSize - 2 := hg
      simp only [processQueueSize] at *
      omega
    refine h.processRun hroom (fun p hp => ?_) ?_ _
    · rw [Function.update_of_ne (by omega)]
    · rw [Function.update_self]
      simp [Pcb.forked, Pcb.copyPname, Pcb.copyWd]
  | getNextContext => exact (h.getNextContext hs).1
  | exit | blockOnStdin | blockOnPid | blockOnClock | exec | prepare =>
    cases hs
    exact h.modify_active _
  | killPid pid =>
    cases hs
    exact h.killPid pid
  | notifyStdin | notifyExitPid | notifyAlarm =>
    cases hs
    exact h.notify _ _

/-- **Ready-queue integrity**: in every state of every run from `init`, the queue holds no pcb twice and
not the active one, and every process created that is not FINISHED is active or queued; and as long as
some process can run, `get_next_context` returns. -/
theorem ready_queue_integrity {s0 : Sched} (h0 : s0.created = 0)
    {idleStack idlePml4 shellStack shellPml4 : Word} {ops : List Op}
    (hrun : Run (Guarded Guard Step) (s0.processInit.init idleStack idlePml4 shellStack shellPml4) ops s) :
    s.queue.Nodup ∧ s.active ∉ s.queue ∧
      (∀ p, 0 < p → p ≤ s.created → (s.pcbs p).status ≠ .finished → p = s.active ∨ p ∈ s.queue) ∧
      ((∃ p, 0 < p ∧ p ≤ s.created ∧ (s.pcbs p).runnable = true) → ∃ t, Step s .getNextContext t) := by
  have hinv : QueueInv s := hrun.invariant QueueInv (.init (init_booted h0 ..)) fun _ _ _ hi hs => hi.step hs.1 hs.2
  refine ⟨hinv.nodup.of_cons, (List.nodup_cons.1 hinv.nodup).1, fun p hp hle hl => ?_, ?_⟩
  · exact List.mem_cons.1 (hinv.live p hp hle hl)
  · rintro ⟨p, hp, hle, hr⟩
    obtain ⟨fuel, t, ht⟩ := hinv.getNextContext_returns hp hle hr
    exact ⟨t, fuel, ht⟩

theorem exists_runnable_iff (s : Sched) : (∃ p ∈ List.range (s.created + 1), 0 < p ∧ (s.pcbs p).runnable = true) ↔
    ∃ p, 0 < p ∧ p ≤ s.created ∧ (s.pcbs p).runnable = true := by
  simp only [List.mem_range, Nat.lt_succ_iff]
  exact exists_congr fun p => and_left_comm

instance (s : Sched) : ∀ op, Decidable (Guard s op)
  | .processRun .. => inferInstanceAs (Decidable (s.queue.length ≤ processQueueSize - 2))
  | .getNextContext => decidable_of_iff _ s.exists_runnable_iff
  | .exit | .killPid .. | .blockOnStdin | .blockOnPid .. | .blockOnClock .. | .exec .. | .prepare .. | .notifyStdin
  | .notifyExitPid .. | .notifyAlarm .. => inferInstanceAs (Decidable True)

/-- The shell forks and sleeps on its child; the child exits and is dropped, and the shell is woken. -/
def forkAndWait : List Op :=
  [.getNextContext, .processRun 0 0 0, .blockOnPid 3 0, .getNextContext, .getNextContext, .exit, .notifyExitPid 3 0,
    .getNextContext]

theorem ready_queue_integrity_wait :
    ∃ s, Run (Guarded Guard Step) ((default : Sched).processInit.init 0 0 0 0) forkAndWait s ∧
      s.active = 2 ∧ s.queue = [1] ∧ s.queue.Nodup ∧
      ∀ p, 0 < p → p ≤ s.created → (s.pcbs p).status ≠ .finished → p = s.active ∨ p ∈ s.queue := by
  have hexec : ((runAll (fun op s => if Guard s op then apply 9 op s else none) forkAndWait
      ((default : Sched).processInit.init 0 0 0 0)).any fun s => s.active = 2 ∧ s.queue = [1]) = true := by
    decide +kernel
  obtain ⟨s, hs, hend⟩ := (Option.any_eq_true _ _).1 hexec
  rw [decide_eq_true_eq] at hend
  have hrun : Run (Guarded Guard Step) ((default : Sched).processInit.init 0 0 0 0) forkAndWait s :=
    .of_runAll_guarded (fun _ _ _ h => ⟨9, h⟩) hs
  obtain ⟨hnd, -, hlive, -⟩ := ready_queue_integrity rfl hrun
  exact ⟨s, hrun, hend.1, hend.2, hnd, hlive⟩

end Sched
end Sbuos
