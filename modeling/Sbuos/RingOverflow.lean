import Sbuos.Turns
/-!
# The ring once it has overflowed

A fork that finds 99 processes queued empties the queue. Those that were in it keep their slots, and the scan of
`get_next_context` reaches them again when the one process left finishes. So after an overflow a live process may
be queued or not; but it is never queued twice, nor while it runs.

**`Scattered`** says this of every run, whatever the number of processes.
-/
namespace Sbuos
open Lib

namespace Sched
variable {s t : Sched} {p : Nat}

/-- A process that has been created and has not finished. -/
def Alive (s : Sched) (p : Nat) : Prop := 0 < p ∧ p ≤ s.created ∧ (s.pcbs p).status ≠ .finished

instance : Decidable (s.Alive p) := inferInstanceAs (Decidable (_ ∧ _))

/-- Where the live processes stand in the ring. -/
structure Scattered (s : Sched) : Prop where
  head_lt : s.head < processQueueSize
  tail_lt : s.tail < processQueueSize
  slots : ∀ i, s.list i ≤ s.created
  active_le : s.active ≤ s.created
  once : (s.active :: s.queue).Pairwise fun p q => s.Alive p → p ≠ q
  /-- One that is neither active nor queued has one slot left at most. -/
  stale : ∀ p, s.Alive p → p ∉ s.active :: s.queue → ∀ i < processQueueSize, ∀ j < processQueueSize,
    s.list i = p → s.list j = p → i = j
  pos : ∀ p, s.Alive p → 0 ∉ s.active :: s.queue
  /-- An overflow fills every slot. -/
  filled : ∀ p, s.Alive p → p ∉ s.active :: s.queue → ∀ i < processQueueSize, s.list i ≠ 0

theorem QueueInv.scattered (h : QueueInv s) : Scattered s where
  head_lt := h.head_lt
  tail_lt := h.tail_lt
  slots := h.slots
  active_le := h.active_le
  once := by
    refine List.Pairwise.imp ?_ h.nodup
    intro p q hne _
    exact hne
  stale := fun p hp hout => absurd (h.live p hp.1 hp.2.1 hp.2.2) hout
  pos := fun _ _ h0 => absurd (h.pos 0 h0) (Nat.lt_irrefl 0)
  filled := fun p hp hout => absurd (h.live p hp.1 hp.2.1 hp.2.2) hout

/-- Distinct where alive does not depend on the order. -/
theorem once_perm {l l' : List Nat} (hl : l.Perm l') (h : l.Pairwise fun p q => s.Alive p → p ≠ q) :
    l'.Pairwise fun p q => s.Alive p → p ≠ q :=
  (hl.pairwise_iff fun {p q} (hpq : s.Alive p → p ≠ q) hq heq => hpq (heq ▸ hq) heq.symm).1 h

namespace Scattered

/-- The processes may change as long as nobody comes to life. -/
theorem of_alive (h : Scattered s) (hlist : t.list = s.list) (hhead : t.head = s.head) (htail : t.tail = s.tail)
    (hactive : t.active = s.active) (hcreated : t.created = s.created) (halive : ∀ p, t.Alive p → s.Alive p) :
    Scattered t := by
  have hq : t.queue = s.queue := by rw [queue, queue, hlist, hhead, htail]
  refine
    { head_lt := hhead ▸ h.head_lt
      tail_lt := htail ▸ h.tail_lt
      slots := fun i => by rw [hlist, hcreated]; exact h.slots i
      active_le := by rw [hactive, hcreated]; exact h.active_le
      once := ?_
      stale := fun p hp hout => ?_
      pos := fun p hp => ?_
      filled := fun p hp hout => ?_ }
  · rw [hactive, hq]
    exact h.once.imp fun hpq hp => hpq (halive _ hp)
  · rw [hactive, hq] at hout
    rw [hlist]
    exact h.stale p (halive p hp) hout
  · rw [hactive, hq]
    exact h.pos p (halive p hp)
  · rw [hactive, hq] at hout
    rw [hlist]
    exact h.filled p (halive p hp) hout

theorem not_mem_queue (h : Scattered s) (ha : s.Alive s.active) : s.active ∉ s.queue := fun hq =>
  (List.pairwise_cons.1 h.once).1 _ hq ha rfl

/-! ## A turn -/

theorem window_rotate (h : Scattered s) (hf : (s.pcbs s.active).status ≠ .finished) :
    (s.enqueueProcess s.active).takeHead.active :: (s.enqueueProcess s.active).takeHead.queue =
      s.queue ++ [s.active] := by
  rw [enqueueProcess, if_neg hf]
  exact Ring.window_rotate s.list s.active h.head_lt h.tail_lt

theorem window_next (h : Scattered s) (hne : s.head ≠ s.tail) :
    s.takeHead.active :: s.takeHead.queue = s.queue :=
  (Ring.window_cons _ h.head_lt h.tail_lt hne).symm

/-- With the window empty, a live process that is not active is in no window. -/
theorem empty_out (h : Scattered s) (hf : (s.pcbs s.active).status = .finished) (hempty : s.head = s.tail)
    (hp : s.Alive p) : p ∉ s.active :: s.queue := by
  rw [queue, ← hempty, Ring.window_self _ _ h.head_lt, List.mem_singleton]
  rintro rfl
  exact hp.2.2 hf

/-- A process that is active or queued, and has not finished, is so afterwards. -/
theorem mem_takeHead_enqueue (h : Scattered s) (hp : s.Alive p) (hin : p ∈ s.active :: s.queue) :
    p ∈ (s.enqueueProcess s.active).takeHead.active :: (s.enqueueProcess s.active).takeHead.queue := by
  by_cases hf : (s.pcbs s.active).status = .finished
  · have hne : s.head ≠ s.tail := fun he => h.empty_out hf he hp hin
    rw [enqueueProcess, if_pos hf, h.window_next hne]
    refine (List.mem_cons.1 hin).resolve_left ?_
    rintro rfl
    exact hp.2.2 hf
  · rw [h.window_rotate hf]
    exact (List.perm_append_singleton s.active s.queue).mem_iff.2 hin

/-- The active process, still alive, goes behind the others. -/
theorem takeHead_rotate (h : Scattered s) (hf : (s.pcbs s.active).status ≠ .finished) :
    Scattered (s.enqueueProcess s.active).takeHead := by
  have hq := h.window_rotate hf
  rw [enqueueProcess, if_neg hf] at hq ⊢
  have hperm : (s.queue ++ [s.active]).Perm (s.active :: s.queue) := List.perm_append_singleton _ _
  have hslot : ∀ i, Function.update s.list s.tail s.active i = s.active ∨
      Function.update s.list s.tail s.active i = s.list i ∧ i ≠ s.tail := fun i => by
    by_cases hi : i = s.tail
    · subst hi; exact .inl (Function.update_self ..)
    · exact .inr ⟨Function.update_of_ne hi _ _, hi⟩
  have hmem : ∀ p, p ∈ s.queue ++ [s.active] ↔ p ∈ s.active :: s.queue := fun p => hperm.mem_iff
  have hle : ∀ i, Function.update s.list s.tail s.active i ≤ s.created := fun i => by
    rcases hslot i with hi | ⟨hi, -⟩ <;> rw [hi]
    · exact h.active_le
    · exact h.slots i
  refine
    { head_lt := Nat.mod_lt _ (by decide)
      tail_lt := Nat.mod_lt _ (by decide)
      slots := hle
      active_le := hle _
      once := ?_
      stale := fun p hp hout i hi j hj hip hjp => ?_
      pos := fun p hp h0 => ?_
      filled := fun p hp hout i hi => ?_ }
  · rw [hq]
    exact once_perm hperm.symm h.once
  · rw [hq, hmem] at hout
    have hpa : s.active ≠ p := fun he => hout (he ▸ List.mem_cons_self)
    rcases hslot i with hi' | ⟨hi', -⟩
    · exact absurd (hi'.symm.trans hip) hpa
    · rcases hslot j with hj' | ⟨hj', -⟩
      · exact absurd (hj'.symm.trans hjp) hpa
      · exact h.stale p hp hout i hi j hj (hi'.symm.trans hip) (hj'.symm.trans hjp)
  · rw [hq, hmem] at h0
    exact h.pos p hp h0
  · rw [hq, hmem] at hout
    intro h0
    rcases hslot i with hi' | ⟨hi', -⟩
    · have ha0 : s.active = 0 := hi'.symm.trans h0
      exact h.pos p hp (ha0 ▸ List.mem_cons_self)
    · exact h.filled p hp hout i hi (hi'.symm.trans h0)

/-- The active process has finished and somebody is queued. -/
theorem takeHead_next (h : Scattered s) (hf : (s.pcbs s.active).status = .finished) (hne : s.head ≠ s.tail) :
    Scattered s.takeHead := by
  have hq := (h.window_next hne).symm
  have hmem : ∀ p, s.Alive p → p ∉ s.queue → p ∉ s.active :: s.queue := fun p hp hout hm => by
    rcases List.mem_cons.1 hm with rfl | hm
    · exact hp.2.2 hf
    · exact hout hm
  refine
    { head_lt := Nat.mod_lt _ (by decide)
      tail_lt := h.tail_lt
      slots := h.slots
      active_le := h.slots _
      once := ?_
      stale := fun p hp hout => ?_
      pos := fun p hp => ?_
      filled := fun p hp hout => ?_ }
  · rw [← hq]
    exact h.once.of_cons
  · rw [← hq] at hout
    exact h.stale p hp (hmem p hp hout)
  · rw [← hq]
    exact fun h0 => h.pos p hp (List.mem_cons_of_mem _ h0)
  · rw [← hq] at hout
    exact h.filled p hp (hmem p hp hout)

/-- The active process has finished and nobody is queued: the ring hands out what is in its slots. -/
theorem takeHead_stale (h : Scattered s) (hf : (s.pcbs s.active).status = .finished) (hempty : s.head = s.tail) :
    Scattered s.takeHead := by
  have hq : s.takeHead.active :: s.takeHead.queue =
      (List.range processQueueSize).map fun k => s.list ((s.head + k) % processQueueSize) := by
    rw [queue, takeHead, ← hempty]
    exact Ring.window_all s.list h.head_lt
  have hslot : ∀ k, (s.head + k) % processQueueSize < processQueueSize := fun k => Nat.mod_lt _ (by decide)
  have hout : ∀ p, s.Alive p → p ∉ s.active :: s.queue := fun p => h.empty_out hf hempty
  have hin : ∀ i < processQueueSize, s.list i ∈ s.takeHead.active :: s.takeHead.queue := fun i hi => by
    rw [hq, List.mem_map]
    refine ⟨(i + processQueueSize - s.head) % processQueueSize, List.mem_range.2 (Nat.mod_lt _ (by decide)), ?_⟩
    have hh := h.head_lt
    rw [Nat.add_mod_mod, show s.head + (i + processQueueSize - s.head) = i + processQueueSize by omega,
      Nat.add_mod_right, Nat.mod_eq_of_lt hi]
  refine
    { head_lt := Nat.mod_lt _ (by decide)
      tail_lt := h.tail_lt
      slots := h.slots
      active_le := h.slots _
      once := ?_
      stale := fun p _ hp i hi j _ hip _ => absurd (hip ▸ hin i hi) hp
      pos := fun p hp h0 => ?_
      filled := fun p hp _ => h.filled p hp (hout p hp) }
  · rw [hq, List.pairwise_map]
    refine List.pairwise_lt_range.imp_of_mem fun {k l} hk hl hkl hp heq => ?_
    have hkl' := h.stale _ hp (hout _ hp) _ (hslot k) _ (hslot l) rfl heq.symm
    rw [List.mem_range] at hk hl
    have hh := h.head_lt
    rw [Ring.mod_cases _ _ (by omega), Ring.mod_cases _ _ (by omega)] at hkl'
    split at hkl' <;> split at hkl' <;> omega
  · rw [hq, List.mem_map] at h0
    obtain ⟨k, -, hk⟩ := h0
    exact h.filled p hp (hout p hp) _ (hslot k) hk

theorem takeHead_enqueue (h : Scattered s) : Scattered (s.enqueueProcess s.active).takeHead := by
  by_cases hf : (s.pcbs s.active).status = .finished
  · rw [enqueueProcess, if_pos hf]
    by_cases hne : s.head = s.tail
    · exact h.takeHead_stale hf hne
    · exact h.takeHead_next hf hne
  · exact h.takeHead_rotate hf

/-- What a call of `get_next_context` leaves. -/
structure Switches (s t : Sched) : Prop where
  scattered : Scattered t
  pcbs_eq : t.pcbs = s.pcbs
  created_eq : t.created = s.created
  prevPid_eq : t.prevPid = s.prevPid
  keeps : ∀ p, s.Alive p → p ∈ s.active :: s.queue → p ∈ t.active :: t.queue

theorem getNextContext (h : Scattered s) {fuel : Nat} (ht : s.getNextContext fuel = some t) : Switches s t := by
  induction fuel generalizing s t with
  | zero => cases ht
  | succ fuel ih =>
    have hpcbs : (s.enqueueProcess s.active).takeHead.pcbs = s.pcbs := enqueueProcess_pcbs ..
    have hcreated : (s.enqueueProcess s.active).takeHead.created = s.created := enqueueProcess_created ..
    have hprev : (s.enqueueProcess s.active).takeHead.prevPid = s.prevPid := enqueueProcess_prevPid ..
    have hswitch : ∀ {u : Sched}, Scattered u → Scattered u.switchTo := fun hu =>
      hu.of_alive rfl rfl rfl rfl rfl fun _ => id
    simp only [Sched.getNextContext] at ht
    split at ht
    · cases ht
    · split at ht
      · cases ht
        exact ⟨hswitch h.takeHead_enqueue, hpcbs, hcreated, hprev, fun p => h.mem_takeHead_enqueue⟩
      · obtain ⟨u, hu, rfl⟩ := Option.map_eq_some_iff.1 ht
        have hu := ih h.takeHead_enqueue hu
        refine ⟨hswitch hu.scattered, hu.pcbs_eq.trans hpcbs, hu.created_eq.trans hcreated, hu.prevPid_eq.trans hprev,
          fun p hp hin => hu.keeps p ?_ (h.mem_takeHead_enqueue hp hin)⟩
        rw [Alive, hpcbs, hcreated]
        exact hp

theorem schedule (h : Scattered s) {fuel : Nat} {rsp : Word} (ht : s.schedule fuel rsp = some t) :
    Switches (s.modify s.active fun p => { p with kernelSp := rsp }) t := by
  have hstored : (s.modify s.active fun p => { p with kernelSp := rsp }).Scattered := by
    refine h.of_alive rfl rfl rfl rfl rfl fun p hp => ⟨hp.1, hp.2.1, ?_⟩
    have hst := hp.2.2
    rw [modify_pcbs_apply] at hst
    split at hst <;> exact hst
  exact hstored.getNextContext ht

/-! ## A new process -/

theorem mem_le (h : Scattered s) (hp : p ∈ s.active :: s.queue) : p ≤ s.created := by
  rcases List.mem_cons.1 hp with rfl | hp
  · exact h.active_le
  · obtain ⟨k, -, rfl⟩ := List.mem_map.1 hp
    exact h.slots _

theorem fresh (h : Scattered s) : s.created + 1 ∉ s.active :: s.queue := fun hm => absurd (h.mem_le hm) (by omega)

/-- A live process that the window holds stands in one slot of it. -/
theorem slot_unique (h : Scattered s) (hp : s.Alive p) {k l : Nat}
    (hk : k < Ring.size processQueueSize s.head s.tail) (hl : l < Ring.size processQueueSize s.head s.tail)
    (hkp : s.list ((s.head + k) % processQueueSize) = p) (hlp : s.list ((s.head + l) % processQueueSize) = p) :
    k = l := by
  have hpair := List.pairwise_map.1 h.once.of_cons
  have hget := List.pairwise_iff_getElem.1 hpair
  have hlt : ∀ k l, k < l → l < Ring.size processQueueSize s.head s.tail →
      s.list ((s.head + k) % processQueueSize) = p → s.list ((s.head + l) % processQueueSize) ≠ p := by
    intro k l hkl hl hkp hlp
    have hne := hget k l (by simpa using hkl.trans hl) (by simpa using hl) hkl
    simp only [List.getElem_range] at hne
    exact hne (hkp ▸ hp) (hkp.trans hlp.symm)
  rcases Nat.lt_trichotomy k l with hlt' | heq | hgt
  · exact absurd hlp (hlt k l hlt' hl hkp)
  · exact heq
  · exact absurd hkp (hlt l k hgt hk hlp)

end Scattered

/-- `u` has one process more than `s`, not queued yet. -/
structure Adds (s u : Sched) : Prop where
  list : u.list = s.list
  head : u.head = s.head
  tail : u.tail = s.tail
  active : u.active = s.active
  created : u.created = s.created + 1
  old : ∀ p ≤ s.created, (u.pcbs p).status = (s.pcbs p).status
  new : (u.pcbs (s.created + 1)).status ≠ .finished

namespace Adds
variable {u : Sched} (hu : Adds s u)
include hu

theorem queue : u.queue = s.queue := by rw [Sched.queue, Sched.queue, hu.list, hu.head, hu.tail]

theorem processRun_active : (u.processRun (s.created + 1)).active = s.active :=
  (enqueueProcess_active ..).trans hu.active

theorem processRun_created : (u.processRun (s.created + 1)).created = s.created + 1 :=
  (enqueueProcess_created ..).trans hu.created

theorem processRun_list (i : Nat) :
    (u.processRun (s.created + 1)).list i = if i = s.tail then s.created + 1 else s.list i := by
  rw [Sched.processRun, enqueueProcess, if_neg hu.new, hu.list, hu.tail]
  exact Function.update_apply ..

theorem alive (hp : (u.processRun (s.created + 1)).Alive p) (hne : p ≠ s.created + 1) : s.Alive p := by
  obtain ⟨hp, hle, hst⟩ := hp
  rw [hu.processRun_created] at hle
  rw [Sched.processRun, enqueueProcess_pcbs, hu.old p (by omega)] at hst
  exact ⟨hp, by omega, hst⟩

variable (h : Scattered s)
include h

theorem processRun_head_lt : (u.processRun (s.created + 1)).head < processQueueSize := by
  rw [Sched.processRun, enqueueProcess_head, hu.head]
  exact h.head_lt

theorem processRun_tail_lt : (u.processRun (s.created + 1)).tail < processQueueSize :=
  enqueueProcess_tail_lt _ (hu.tail ▸ h.tail_lt)

theorem processRun_slots (i : Nat) :
    (u.processRun (s.created + 1)).list i ≤ (u.processRun (s.created + 1)).created := by
  rw [hu.processRun_list, hu.processRun_created]
  split
  · exact Nat.le_refl _
  · exact Nat.le_succ_of_le (h.slots i)

theorem processRun_active_le : (u.processRun (s.created + 1)).active ≤ (u.processRun (s.created + 1)).created := by
  rw [hu.processRun_active, hu.processRun_created]
  exact Nat.le_succ_of_le h.active_le

/-- `process_run` with room in the ring. -/
theorem processRun_room (ha : s.Alive s.active) (hroom : s.queue.length + 1 < processQueueSize) :
    Scattered (u.processRun (s.created + 1)) := by
  have hq : (u.processRun (s.created + 1)).queue = s.queue ++ [s.created + 1] := by
    rw [← hu.queue] at hroom ⊢
    exact queue_processRun (hu.head ▸ h.head_lt) (hu.tail ▸ h.tail_lt) hroom hu.new
  have hperm := List.perm_append_singleton (s.created + 1) (s.active :: s.queue)
  have hwin : (u.processRun (s.created + 1)).active :: (u.processRun (s.created + 1)).queue =
      s.active :: s.queue ++ [s.created + 1] := by rw [hu.processRun_active, hq, List.cons_append]
  have hlost : ∀ p, (u.processRun (s.created + 1)).Alive p → p ∉ s.active :: s.queue ++ [s.created + 1] →
      s.Alive p ∧ p ≠ s.created + 1 ∧ p ∉ s.active :: s.queue := by
    intro p hp hout
    have hpc : p ≠ s.created + 1 := fun heq => hout (List.mem_append_right _ (List.mem_singleton.2 heq))
    exact ⟨hu.alive hp hpc, hpc, fun hm => hout (List.mem_append_left _ hm)⟩
  refine
    { head_lt := hu.processRun_head_lt h
      tail_lt := hu.processRun_tail_lt h
      slots := hu.processRun_slots h
      active_le := hu.processRun_active_le h
      once := ?_
      stale := fun p hp hout i hi j hj hip hjp => ?_
      pos := fun _ _ h0 => ?_
      filled := fun p hp hout i hi => ?_ }
  · rw [hwin]
    refine once_perm hperm.symm (List.pairwise_cons.2 ⟨fun q hqm _ heq => h.fresh (heq ▸ hqm), ?_⟩)
    refine h.once.imp_of_mem fun {p q} hp _ hpq hpa => hpq (hu.alive hpa ?_)
    exact fun heq => h.fresh (heq ▸ hp)
  · obtain ⟨hpa, hpc, hout⟩ := hlost p hp (hwin ▸ hout)
    have hold : ∀ i, (u.processRun (s.created + 1)).list i = p → s.list i = p := by
      intro i hip
      rw [hu.processRun_list] at hip
      split at hip
      · exact absurd hip.symm hpc
      · exact hip
    exact h.stale p hpa hout i hi j hj (hold i hip) (hold j hjp)
  · rw [hwin, List.mem_append, List.mem_singleton] at h0
    rcases h0 with h0 | h0
    · exact h.pos s.active ha h0
    · exact absurd h0.symm (Nat.succ_ne_zero _)
  · obtain ⟨hpa, -, hout⟩ := hlost p hp (hwin ▸ hout)
    rw [hu.processRun_list]
    split
    · exact Nat.succ_ne_zero _
    · exact h.filled p hpa hout i hi

/-- `process_run` with one slot left, which empties the queue: every other slot was queued, so no live process
has two. -/
theorem processRun_full (ha : s.Alive s.active) (hfull : s.queue.length + 1 = processQueueSize) :
    Scattered (u.processRun (s.created + 1)) := by
  have hq : (u.processRun (s.created + 1)).queue = [] := by
    rw [← hu.queue] at hfull
    exact queue_processRun_full (hu.head ▸ h.head_lt) (hu.tail ▸ h.tail_lt) hfull hu.new
  rw [Sched.queue, Ring.length_window] at hfull
  refine
    { head_lt := hu.processRun_head_lt h
      tail_lt := hu.processRun_tail_lt h
      slots := hu.processRun_slots h
      active_le := hu.processRun_active_le h
      once := by rw [hq]; exact List.pairwise_singleton _ _
      stale := fun p hp _ i hi j hj hip hjp => ?_
      pos := fun _ _ h0 => ?_
      filled := fun _ _ _ i hi => ?_ }
  · rw [hu.processRun_list] at hip hjp
    by_cases hpc : p = s.created + 1
    · have hold : ∀ i, s.list i ≠ p := fun i heq => absurd (h.slots i) (by omega)
      have htail : ∀ i, (if i = s.tail then s.created + 1 else s.list i) = p → i = s.tail := by
        intro i hip
        by_contra hne
        rw [if_neg hne] at hip
        exact hold i hip
      exact (htail i hip).trans (htail j hjp).symm
    · have htail : ∀ i, (if i = s.tail then s.created + 1 else s.list i) = p → i ≠ s.tail ∧ s.list i = p := by
        intro i hip
        split at hip
        · exact absurd hip.symm hpc
        · exact ⟨‹_›, hip⟩
      obtain ⟨hi', hip⟩ := htail i hip
      obtain ⟨hj', hjp⟩ := htail j hjp
      obtain ⟨k, hk, rfl⟩ := Ring.exists_of_ne_tail h.head_lt h.tail_lt hfull hi hi'
      obtain ⟨l, hl, rfl⟩ := Ring.exists_of_ne_tail h.head_lt h.tail_lt hfull hj hj'
      rw [h.slot_unique (hu.alive hp hpc) hk hl hip hjp]
  · rw [hq, hu.processRun_active, List.mem_singleton] at h0
    exact absurd h0.symm (Nat.ne_of_gt ha.1)
  · rw [hu.processRun_list]
    split
    · exact Nat.succ_ne_zero _
    · obtain ⟨k, hk, rfl⟩ := Ring.exists_of_ne_tail h.head_lt h.tail_lt hfull hi ‹_›
      intro h0
      refine h.pos s.active ha (List.mem_cons_of_mem _ ?_)
      rw [← h0]
      exact List.mem_map.2 ⟨k, List.mem_range.2 hk, rfl⟩

theorem processRun (ha : s.Alive s.active) : Scattered (u.processRun (s.created + 1)) := by
  have hlt : s.queue.length < processQueueSize := by
    rw [Sched.queue, Ring.length_window]
    exact Ring.size_lt h.head_lt h.tail_lt
  rcases Nat.lt_or_eq_of_le (Nat.succ_le_of_lt hlt) with hroom | hfull
  · exact hu.processRun_room h ha hroom
  · exact hu.processRun_full h ha hfull

end Adds
end Sched

namespace Kernel
variable {k k' : Kernel} {fuel : Nat} {rsp : Word}

/-- The kernel between two events of any run. -/
structure Scattered (k : Kernel) : Prop where
  sched : k.sched.Scattered
  tidy : k.sched.Tidy
  active_pos : 0 < k.sched.active
  active_runs : k.activePcb.runnable = true

namespace Scattered

theorem alive (h : Scattered k) : k.sched.Alive k.sched.active :=
  ⟨h.active_pos, h.sched.active_le, Pcb.runnable_ne_finished h.active_runs⟩

theorem active_sane (h : Scattered k) : k.activePcb.Sane := h.tidy.sane _ h.active_pos h.sched.active_le

theorem idle (h : Scattered k) : k.activePcb.Idle := h.active_sane.idle h.active_runs

theorem queue_created (h : Scattered k) (v : Nat) (hv : v ∈ k.sched.queue) : 0 < v ∧ v ≤ k.sched.created := by
  refine ⟨Nat.pos_of_ne_zero ?_, h.sched.mem_le (List.mem_cons_of_mem _ hv)⟩
  rintro rfl
  exact h.sched.pos _ h.alive (List.mem_cons_of_mem _ hv)

theorem of_sched (h : Scattered k) (hk : k'.sched = k.sched) : Scattered k' := by
  refine ⟨hk ▸ h.sched, hk ▸ h.tidy, hk ▸ h.active_pos, ?_⟩
  rw [activePcb, hk]
  exact h.active_runs

/-- A switch returns with an active process that can run. -/
theorem of_schedule {s : Sched} (h : s.Scattered) (ht : s.Tidy) (hpos : 0 < s.active)
    (hs : (s.schedule fuel rsp).map k.withSched = some k') : Scattered k' := by
  obtain ⟨t, ht', rfl⟩ := Option.map_eq_some_iff.1 hs
  have htidy : (s.modify s.active fun p => { p with kernelSp := rsp }).Tidy :=
    ht.modify _ rfl ((ht.sane _ hpos h.active_le).congr rfl rfl rfl rfl)
  have hsw := h.schedule ht'
  obtain ⟨-, hne, hrun⟩ := Sched.getNextContext_active ht'
  refine ⟨hsw.scattered, ?_, Nat.pos_of_ne_zero hne, by rw [activePcb, withSched, hsw.pcbs_eq]; exact hrun⟩
  exact
    { pid_eq := by rw [withSched, hsw.pcbs_eq, hsw.created_eq]; exact htidy.pid_eq
      prevPid_eq := by rw [withSched, hsw.prevPid_eq, hsw.created_eq]; exact htidy.prevPid_eq
      created_lt := by rw [withSched, hsw.created_eq]; exact htidy.created_lt
      sane := by rw [withSched, hsw.pcbs_eq, hsw.created_eq]; exact htidy.sane }

/-- A store to the active pcb brings nobody to life. -/
theorem modify_active (h : Scattered k) (f : Pcb → Pcb) : (k.sched.modify k.sched.active f).Scattered := by
  refine h.sched.of_alive rfl rfl rfl rfl rfl fun p hp => ?_
  by_cases hpa : p = k.sched.active
  · exact hpa ▸ h.alive
  · have hst := hp.2.2
    rw [Sched.modify_pcbs_of_ne _ _ _ hpa] at hst
    exact ⟨hp.1, hp.2.1, hst⟩

/-- One that leaves it able to run, without a switch. -/
theorem keeps (h : Scattered k) {f : Pcb → Pcb} (hpid : (f k.activePcb).pid = k.activePcb.pid)
    (hsane : (f k.activePcb).Sane) (hrun : (f k.activePcb).runnable = true)
    (hk : k'.sched = k.sched.modify k.sched.active f) : Scattered k' := by
  refine ⟨hk ▸ h.modify_active f, hk ▸ h.tidy.modify f hpid hsane, by rw [hk]; exact h.active_pos, ?_⟩
  rw [activePcb, hk, Sched.modify_active, Sched.modify_pcbs_self]
  exact hrun

theorem blockWith (h : Scattered k) {f : Pcb → Pcb} (hpid : (f k.activePcb).pid = k.activePcb.pid)
    (hsane : (f k.activePcb).Sane) (hs : k.blockWith f fuel rsp = some k') : Scattered k' :=
  of_schedule (h.modify_active f) (h.tidy.modify f hpid hsane) h.active_pos hs

theorem notify_alive {s : Sched} {waits : Pcb → Bool} {clear : Pcb → Pcb} {p : Nat}
    (hp : (s.notify waits clear).Alive p) : s.Alive p := by
  obtain ⟨hp, hle, hst⟩ := hp
  refine ⟨hp, hle, fun hf => hst ?_⟩
  rw [Sched.notify_pcbs_apply, if_neg (by simp [hf])]
  exact hf

theorem notify_sched {s : Sched} (h : s.Scattered) (waits : Pcb → Bool) (clear : Pcb → Pcb) :
    (s.notify waits clear).Scattered := h.of_alive rfl rfl rfl rfl rfl fun _ => notify_alive

/-- A notifier passes over a process that runs. -/
theorem notify (h : Scattered k) {waits : Pcb → Bool} {clear : Pcb → Pcb}
    (ht : (k.sched.notify waits clear).Tidy) : Scattered (k.withSched (k.sched.notify waits clear)) := by
  have hact : (k.sched.notify waits clear).pcbs k.sched.active = k.activePcb := by
    rw [Sched.notify_pcbs_apply, if_neg]
    · rfl
    · rintro ⟨-, hw, -⟩
      have hr := h.active_runs
      rw [Pcb.runnable, activePcb, hw] at hr
      cases hr
  refine ⟨notify_sched h.sched waits clear, ht, h.active_pos, ?_⟩
  exact (congrArg Pcb.runnable hact).trans h.active_runs

theorem notifyExitPid (h : Scattered k) {pid : Int} (hpid : 1 ≤ pid) (status : Word) :
    Scattered (k.withSched (k.sched.notifyExitPid pid status)) :=
  h.notify (h.tidy.notifyExitPid (by omega) status)

theorem active_pid (h : Scattered k) : 1 ≤ k.activePcb.pid := by
  have hpos := h.active_pos
  rw [activePcb, h.tidy.pid_eq _ hpos h.sched.active_le]
  omega

/-- `do_exit` up to its `schedule()`. -/
theorem exits (h : Scattered k) (status : Word) :
    ((k.sched.modify k.sched.active Pcb.exits).notifyExitPid k.activePcb.pid status).Scattered ∧
      ((k.sched.modify k.sched.active Pcb.exits).notifyExitPid k.activePcb.pid status).Tidy := by
  have hpid := h.active_pid
  exact ⟨notify_sched (h.modify_active Pcb.exits) _ _,
    (h.tidy.modify _ rfl Pcb.exits_sane).notifyExitPid (by omega) _⟩

theorem doExit (h : Scattered k) {status : Word} (hs : k.doExit status fuel rsp = some k') : Scattered k' :=
  of_schedule (h.exits status).1 (h.exits status).2 h.active_pos hs

/-- The victim is queued, and the active process is not. -/
theorem finish (h : Scattered k) {v : Nat} (hv : v ∈ k.sched.queue) :
    Scattered (k.withSched (k.sched.modify v Pcb.exits)) := by
  have hne : k.sched.active ≠ v := fun he => h.sched.not_mem_queue h.alive (he ▸ hv)
  refine ⟨h.sched.of_alive rfl rfl rfl rfl rfl fun p hp => ⟨hp.1, hp.2.1, fun hf => hp.2.2 ?_⟩,
    h.tidy.modify _ rfl Pcb.exits_sane, h.active_pos, ?_⟩
  · rw [withSched, Sched.modify_pcbs_apply]
    split
    · rfl
    · exact hf
  · rw [activePcb, withSched, Sched.modify_active, Sched.modify_pcbs_of_ne _ _ _ hne]
    exact h.active_runs

theorem doKill (h : Scattered k) (pid sig : Word) : Scattered (k.doKill pid sig).1 := by
  obtain hnone | ⟨v, hv, -, -, hsome⟩ := doKill_cases h.tidy h.queue_created pid sig
  · rw [hnone]
    exact h
  · rw [hsome]
    obtain ⟨hpos, hle⟩ := h.queue_created v hv
    exact (h.finish hv).notifyExitPid (by rw [h.tidy.pid_eq v hpos hle]; omega) sig

theorem doFork (h : Scattered k) {kernelStack pml4 pml4' ret : Word}
    (hs : k.doFork kernelStack pml4 pml4' rsp = some (k', ret)) : Scattered k' := by
  obtain ⟨c, cr3, hidle, hpid, hrun, hlt, rfl⟩ := doFork_creates h.sched.active_le h.idle hs
  have hold : ∀ p, p ≤ k.sched.created → Function.update k.sched.pcbs (k.sched.created + 1) c p = k.sched.pcbs p :=
    fun p hp => Function.update_of_ne (by omega) _ _
  have hnew : (Function.update k.sched.pcbs (k.sched.created + 1) c (k.sched.created + 1)).status ≠ .finished := by
    rw [Function.update_self, hrun]
    decide
  have hadds : k.sched.Adds { k.sched with
      pcbs := Function.update k.sched.pcbs (k.sched.created + 1) c
      created := k.sched.created + 1
      prevPid := k.sched.prevPid + 1 } :=
    { list := rfl
      head := rfl
      tail := rfl
      active := rfl
      created := rfl
      old := fun p hp => congrArg Pcb.status (hold p hp)
      new := hnew }
  have htidy := h.tidy.processRun hlt hidle hpid
  refine ⟨(hadds.processRun h.sched h.alive).of_alive rfl rfl rfl rfl rfl fun _ => id,
    ⟨htidy.pid_eq, htidy.prevPid_eq, htidy.created_lt, htidy.sane⟩, ?_, ?_⟩
  · exact Nat.lt_of_lt_of_eq h.active_pos hadds.processRun_active.symm
  · simp only [activePcb, withSched, Sched.processRun, Sched.enqueueProcess_active, Sched.enqueueProcess_pcbs]
    rw [hold _ h.sched.active_le]
    exact h.active_runs

theorem doRead (h : Scattered k) {fd size : Word} {buffer : Nat → Byte}
    (hs : (k.doRead fd size buffer fuel rsp).map Prod.fst = some k') : Scattered k' := by
  obtain ⟨-, -, c, -, rfl⟩ | ⟨-, -, hblock⟩ | ⟨-, i, r, -, rfl⟩ := doRead_cases hs
  · exact h.of_sched rfl
  · exact h.blockWith rfl h.idle.blocksOnStdin_sane hblock
  · exact h.keeps rfl (h.active_sane.congr rfl rfl rfl rfl) h.active_runs rfl

theorem keyboard (h : Scattered k) {c : Byte} (hs : k.keyboard c = some k') : Scattered k' := by
  obtain ⟨r, -, hr⟩ := Option.bind_eq_some_iff.1 hs
  cases hr
  split
  · exact (h.notify h.tidy.notifyStdin).of_sched rfl
  · exact h.of_sched rfl

theorem withTimeSlice (h : Scattered k) (n : Int) : Scattered (k.withSched { k.sched with timeSlice := n }) :=
  ⟨h.sched.of_alive rfl rfl rfl rfl rfl fun _ => id,
    ⟨h.tidy.pid_eq, h.tidy.prevPid_eq, h.tidy.created_lt, h.tidy.sane⟩, h.active_pos, h.active_runs⟩

theorem preempt (h : Scattered k) {t : Sched} (ht : k.sched.preempt fuel rsp = some t) :
    Scattered (k.withSched t) := by
  unfold Sched.preempt at ht
  dsimp only at ht
  split at ht
  · exact of_schedule (h.withTimeSlice 0).sched (h.withTimeSlice 0).tidy h.active_pos
      (Option.map_eq_some_iff.2 ⟨t, ht, rfl⟩)
  · cases ht
    exact h.withTimeSlice _

theorem timer (h : Scattered k) (hs : k.timer fuel rsp = some k') : Scattered k' := by
  obtain ⟨t, ht, rfl⟩ := Option.map_eq_some_iff.1 hs
  split at ht
  · exact ((h.notify (h.tidy.notifyAlarm _)).preempt ht).of_sched rfl
  · exact (h.preempt ht).of_sched rfl

/-- Every step keeps it, a fork into a full ring included. -/
theorem step {e : Event} (h : Scattered k) (hs : Step k e k') : Scattered k' := by
  obtain ⟨fuel, rsp, hs⟩ := hs
  cases e with
  | fork =>
    obtain ⟨⟨_, r⟩, hfork, rfl⟩ := Option.map_eq_some_iff.1 hs
    exact h.doFork hfork
  | exit => exact h.doExit hs
  | kill pid sig =>
    cases hs
    exact h.doKill pid sig
  | waitpid pid ret => exact h.blockWith rfl (h.idle.blocksOnPid_sane ..) hs
  | alarm seconds => exact h.blockWith rfl (h.idle.blocksOnClock_sane _) hs
  | exec abspath userSp => exact h.blockWith rfl (h.idle.execs_sane ..) hs
  | read => exact h.doRead hs
  | yield => exact of_schedule h.sched h.tidy h.active_pos hs
  | start ip =>
    obtain ⟨-, rfl⟩ := kThreadKernel_eq_some hs
    have hidle := h.idle
    exact h.keeps rfl (Pcb.Idle.sane ⟨hidle.stdin, hidle.pid, hidle.clock⟩) rfl rfl
  | key => exact h.keyboard hs
  | tick => exact h.timer hs

end Scattered

/-- **Whatever the number of processes**: in every state of every run from `init`, no live process is queued
twice, nor while it is active. -/
theorem scattered_boot {s : Sched} (h0 : s.created = 0) {idleStack idlePml4 shellStack shellPml4 : Word}
    {stdin : Stdin} {ticks : Word} {archive : Tarfs} {es : List Event}
    (hrun : Run Step (boot s idleStack idlePml4 shellStack shellPml4 stdin ticks archive) es k) : Scattered k := by
  have hb := Sound.boot h0 idleStack idlePml4 shellStack shellPml4 stdin ticks archive
  refine hrun.invariant Scattered ⟨hb.sched.queue.scattered, hb.sched.tidy, hb.sched.active_pos, hb.active_runs⟩ ?_
  intro t e u ht hs
  exact ht.step hs

/-- The shell's first turn: the idle process hands over to it. -/
def shellRuns : Kernel := (boot default 0 0 0 0 Stdin.init 0 default).withSched
  (((boot default 0 0 0 0 Stdin.init 0 default).sched.schedule 1 0).getD default)

theorem shellRuns_reached : Run Step (boot default 0 0 0 0 Stdin.init 0 default) [.yield] shellRuns :=
  .single ⟨1, 0, rfl⟩

end Kernel
end Sbuos
