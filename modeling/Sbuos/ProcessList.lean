import Sbuos.RingOverflow
import Sbuos.Lib.Logged
import Mathlib.Data.List.Perm.Subperm
/-!
# Listing the processes (sys/process_helpers.c:67-80, sys/systemcall.c:189-191)

`_get_process_info` reports the queued processes that have not finished. Its caller is active, so it is not among
them; and the bound is tested only after an entry has been written.

**`getps_lists`** says when the listing is complete and within its bound: never complete, so the buffer has to be
too small for all processes, and a buffer of no entries is left alone only when nobody is queued.
-/
namespace Sbuos
open Lib

/-- `pspcb` (ps_helpers.h:5-10). `pname` is the memory from the field on; the one byte that a name of 50
characters takes behind its 50 is padding of the entry. -/
structure Pspcb where
  pid : Int
  ppid : Int
  pname : Nat → Byte
deriving Inhabited

namespace Pspcb

/-- What the loop stores in an entry. -/
def report (proc : Pcb) (entry : Pspcb) : Pspcb where
  pid := proc.pid
  ppid := proc.ppid
  pname := (kstrcpy entry.pname proc.pname 50).1

/-- The pid, the parent's, and the name up to its NUL. -/
structure Reports (entry : Pspcb) (proc : Pcb) : Prop where
  pid : entry.pid = proc.pid
  ppid : entry.ppid = proc.ppid
  pname : ∀ i < 50, (∀ j < i, proc.pname j ≠ 0) → entry.pname i = proc.pname i

end Pspcb

namespace Sched
variable {s : Sched} {size : Int} {buffer : Nat → Pspcb}

/-- The loop of `_get_process_info` over the rest of the ring. The log has the indices it writes at. -/
def getProcessInfoFrom (pcbs : Nat → Pcb) (size : Int) : List Nat → Nat → (Nat → Pspcb) →
    Logged Nat ((Nat → Pspcb) × Int)
  | [], i, buffer => pure (buffer, i)
  | proc :: rest, i, buffer =>
    if (pcbs proc).status = .finished then getProcessInfoFrom pcbs size rest i buffer
    else do
      .touch [i]
      let buffer := Function.update buffer i ((buffer i).report (pcbs proc))
      if size ≤ i + 1 then pure (buffer, i + 1)
      else getProcessInfoFrom pcbs size rest (i + 1) buffer

/-- `_get_process_info` (process_helpers.c:67-80): the entries afterwards and the return value. -/
def getProcessInfo (size : Int) (buffer : Nat → Pspcb) (s : Sched) : Logged Nat ((Nat → Pspcb) × Int) :=
  getProcessInfoFrom s.pcbs size s.queue 0 buffer

/-- Entries from `i` on, filled with the reports of these processes. -/
def fill (pcbs : Nat → Pcb) : List Nat → Nat → (Nat → Pspcb) → (Nat → Pspcb)
  | [], _, buffer => buffer
  | proc :: rest, i, buffer => fill pcbs rest (i + 1) (Function.update buffer i ((buffer i).report (pcbs proc)))

theorem fill_before (pcbs : Nat → Pcb) (ps : List Nat) {i j : Nat} (hj : j < i) (buffer : Nat → Pspcb) :
    fill pcbs ps i buffer j = buffer j := by
  induction ps generalizing i buffer with
  | nil => rfl
  | cons p ps ih => rw [fill, ih (by omega), Function.update_of_ne (by omega)]

/-- Each entry that is filled is the report of its process. -/
theorem fill_eq (pcbs : Nat → Pcb) (ps : List Nat) (i : Nat) (buffer : Nat → Pspcb) {j : Nat} (hj : j < ps.length) :
    fill pcbs ps i buffer (i + j) = (buffer (i + j)).report (pcbs ps[j]) := by
  induction ps generalizing i j buffer with
  | nil => cases hj
  | cons p ps ih =>
    rw [fill]
    cases j with
    | zero => exact (fill_before _ _ (Nat.lt_succ_self i) _).trans (Function.update_self ..)
    | succ j =>
      have := ih (i + 1) (Function.update buffer i ((buffer i).report (pcbs p))) (Nat.lt_of_succ_lt_succ hj)
      rwa [show i + 1 + j = i + (j + 1) by omega, Function.update_of_ne (by omega)] at this

theorem fill_reports (pcbs : Nat → Pcb) (ps : List Nat) (i : Nat) (buffer : Nat → Pspcb) {j : Nat}
    (hj : j < ps.length) : (fill pcbs ps i buffer (i + j)).Reports (pcbs ps[j]) := by
  rw [fill_eq pcbs ps i buffer hj]
  exact ⟨rfl, rfl, fun k hk hne => kstrcpy_copies hne (Nat.le_of_lt hk) _⟩

/-- Those the loop reports: all that have not finished, as far as they fit, but one at least. -/
def reported (pcbs : Nat → Pcb) (queue : List Nat) (room : Nat) : List Nat :=
  (queue.filter fun p => (pcbs p).status ≠ .finished).take (max 1 room)

theorem getProcessInfoFrom_eq (pcbs : Nat → Pcb) (size : Int) (queue : List Nat) (i : Nat) (buffer : Nat → Pspcb) :
    getProcessInfoFrom pcbs size queue i buffer =
      ⟨List.range' i (reported pcbs queue (size - i).toNat).length,
        some (fill pcbs (reported pcbs queue (size - i).toNat) i buffer,
          (i : Int) + (reported pcbs queue (size - i).toNat).length)⟩ := by
  induction queue generalizing i buffer with
  | nil => simp [getProcessInfoFrom, reported, fill, pure]
  | cons p rest ih =>
    rw [getProcessInfoFrom]
    by_cases hf : (pcbs p).status = .finished
    · have hr : ∀ room, reported pcbs (p :: rest) room = reported pcbs rest room := fun room => by
        rw [reported, reported, List.filter_cons, if_neg (by simp [hf])]
      rw [if_pos hf, ih, hr]
    · rw [if_neg hf]
      have hr : reported pcbs (p :: rest) (size - i).toNat =
          p :: (rest.filter fun p => (pcbs p).status ≠ .finished).take (max 1 (size - i).toNat - 1) := by
        rw [reported, List.filter_cons, if_pos (by simp [hf])]
        obtain ⟨m, hm⟩ : ∃ m, max 1 (size - i).toNat = m + 1 := ⟨max 1 (size - i).toNat - 1, by omega⟩
        rw [hm]
        rfl
      by_cases hlast : size ≤ i + 1
      · -- the test after the write ends the loop
        rw [hr, show max 1 (size - i).toNat - 1 = 0 by omega, List.take_zero, if_pos hlast]
        rfl
      · rw [show max 1 (size - i).toNat - 1 = max 1 (size - (i + 1 : Nat)).toNat by omega, ← reported] at hr
        rw [hr, if_neg hlast, ih]
        generalize reported pcbs rest (size - (i + 1 : Nat)).toNat = ps
        have hret : (i : Int) + (ps.length + 1 : Nat) = (i + 1 : Nat) + ps.length := by omega
        rw [List.length_cons, hret]
        rfl

/-- `_get_process_info` fills the entries from the first on. -/
theorem getProcessInfo_eq (size : Int) (buffer : Nat → Pspcb) (s : Sched) :
    s.getProcessInfo size buffer =
      ⟨List.range (reported s.pcbs s.queue size.toNat).length,
        some (fill s.pcbs (reported s.pcbs s.queue size.toNat) 0 buffer,
          ((reported s.pcbs s.queue size.toNat).length : Int))⟩ := by
  rw [getProcessInfo, getProcessInfoFrom_eq, List.range_eq_range']
  simp

/-! ## Who is listed -/

/-- The processes that have not finished. -/
def alive (s : Sched) : List Nat := (List.range' 1 s.created).filter fun p => s.Alive p

theorem mem_alive {p : Nat} : p ∈ s.alive ↔ s.Alive p := by
  rw [alive, List.mem_filter, List.mem_range'_1]
  simp only [decide_eq_true_eq]
  constructor
  · exact fun h => h.2
  · exact fun h => ⟨⟨h.1, by have := h.2.1; omega⟩, h⟩

theorem nodup_alive (s : Sched) : s.alive.Nodup := List.Nodup.filter _ List.nodup_range'

/-- The listing stays within the buffer, and one with room for every process reports every process once. -/
structure Lists (s : Sched) (size : Int) (buffer : Nat → Pspcb) : Prop where
  bounded : ∀ i ∈ (s.getProcessInfo size buffer).log, (i : Int) < size
  complete : s.alive.length ≤ size → ∃ entries,
    (s.getProcessInfo size buffer).result = some (entries, (s.alive.length : Int)) ∧
      ∃ ps : List Nat, ps.Perm s.alive ∧ ∀ i (h : i < ps.length), (entries i).Reports (s.pcbs ps[i])

/-- The queued processes that have not finished. -/
def queued (s : Sched) : List Nat := s.queue.filter fun p => (s.pcbs p).status ≠ .finished

namespace Scattered

theorem mem_queued (h : Scattered s) (ha : s.Alive s.active) {p : Nat} (hp : p ∈ s.queued) :
    s.Alive p ∧ p ≠ s.active := by
  obtain ⟨hq, hst⟩ := List.mem_filter.1 hp
  have hst : (s.pcbs p).status ≠ .finished := of_decide_eq_true hst
  have hp0 : p ≠ 0 := fun h0 => h.pos s.active ha (h0 ▸ List.mem_cons_of_mem _ hq)
  have hpa : p ≠ s.active := fun he => h.not_mem_queue ha (he ▸ hq)
  exact ⟨⟨Nat.pos_of_ne_zero hp0, h.mem_le (List.mem_cons_of_mem _ hq), hst⟩, hpa⟩

theorem nodup_queued (h : Scattered s) (ha : s.Alive s.active) : s.queued.Nodup := by
  have hpair : s.queued.Pairwise fun p q => s.Alive p → p ≠ q := h.once.of_cons.filter _
  exact hpair.imp_of_mem fun {p q} hp _ hpq => hpq (h.mem_queued ha hp).1

/-- The caller is one that the listing misses. -/
theorem length_queued_lt (h : Scattered s) (ha : s.Alive s.active) : s.queued.length < s.alive.length := by
  have hsub : s.queued ⊆ s.alive.erase s.active := fun p hp => by
    obtain ⟨hpa, hne⟩ := h.mem_queued ha hp
    exact (List.mem_erase_of_ne hne).2 (mem_alive.2 hpa)
  have hle := (List.Nodup.subperm (h.nodup_queued ha) hsub).length_le
  have hmem : s.active ∈ s.alive := mem_alive.2 ha
  have hpos := List.length_pos_of_mem hmem
  rw [List.length_erase_of_mem hmem] at hle
  omega

end Scattered

theorem bounded_iff (size : Int) (hsize : 0 ≤ size) (buffer : Nat → Pspcb) :
    (∀ i ∈ (s.getProcessInfo size buffer).log, (i : Int) < size) ↔ (size = 0 → s.queued = []) := by
  rw [getProcessInfo_eq]
  have hlen : (reported s.pcbs s.queue size.toNat).length = min (max 1 size.toNat) s.queued.length := List.length_take
  simp only [List.mem_range, hlen]
  constructor
  · rintro hb rfl
    refine List.eq_nil_of_length_eq_zero (Nat.eq_zero_of_not_pos fun hpos => ?_)
    have := hb 0 (by omega)
    omega
  · intro hq i hi
    by_cases h0 : size = 0
    · rw [hq h0, List.length_nil] at hi
      omega
    · omega

/-- With room for all, the return value is short of the caller. -/
theorem Scattered.not_complete (h : Scattered s) (ha : s.Alive s.active) (hroom : s.alive.length ≤ size)
    (hl : Lists s size buffer) : False := by
  obtain ⟨entries, hres, -⟩ := hl.complete hroom
  rw [getProcessInfo_eq] at hres
  have hret := congrArg Prod.snd (Option.some.inj hres)
  have hlen : (reported s.pcbs s.queue size.toNat).length = min (max 1 size.toNat) s.queued.length := List.length_take
  have hlt := h.length_queued_lt ha
  simp only at hret
  omega

theorem Scattered.lists_iff (h : Scattered s) (ha : s.Alive s.active) (hsize : 0 ≤ size) :
    Lists s size buffer ↔ size < s.alive.length ∧ (size = 0 → s.queued = []) := by
  constructor
  · intro hl
    exact ⟨Int.not_le.1 fun hroom => h.not_complete ha hroom hl, (bounded_iff size hsize buffer).1 hl.bounded⟩
  · rintro ⟨hlt, hq⟩
    exact ⟨(bounded_iff size hsize buffer).2 hq, fun hroom => absurd hroom (Int.not_le.2 hlt)⟩

/-- What it does list, while no fork finds the ring full: everybody but the caller. -/
theorem QueueInv.queued_perm (h : QueueInv s) (ha : s.Alive s.active) : s.queued.Perm (s.alive.erase s.active) := by
  refine (List.perm_ext_iff_of_nodup (h.scattered.nodup_queued ha) (s.nodup_alive.erase _)).2 fun p => ?_
  rw [s.nodup_alive.mem_erase_iff, mem_alive]
  constructor
  · intro hp
    obtain ⟨hpa, hne⟩ := h.scattered.mem_queued ha hp
    exact ⟨hne, hpa⟩
  · rintro ⟨hne, hpa⟩
    exact List.mem_filter.2 ⟨h.live_mem_queue hpa.1 hpa.2.1 hpa.2.2 hne, decide_eq_true hpa.2.2⟩

/-- The others are listed once each, when the buffer has an entry and they fit. -/
theorem QueueInv.lists_others (h : QueueInv s) (ha : s.Alive s.active) (hpos : 0 < size)
    (hroom : s.alive.length ≤ size + 1) :
    ∃ entries, (s.getProcessInfo size buffer).result = some (entries, (s.alive.length : Int) - 1) ∧
      ∃ ps : List Nat, ps.Perm (s.alive.erase s.active) ∧
        ∀ i (h : i < ps.length), (entries i).Reports (s.pcbs ps[i]) := by
  have hperm := h.queued_perm ha
  have hlen : s.queued.length = s.alive.length - 1 := by
    rw [hperm.length_eq, List.length_erase_of_mem (mem_alive.2 ha)]
  have hcount : 0 < s.alive.length := List.length_pos_of_mem (mem_alive.2 ha)
  have hall : reported s.pcbs s.queue size.toNat = s.queued := List.take_of_length_le (by
    rw [show (s.queue.filter fun p => (s.pcbs p).status ≠ .finished) = s.queued from rfl]
    omega)
  refine ⟨fill s.pcbs s.queued 0 buffer, ?_, s.queued, hperm, fun i hi => ?_⟩
  · rw [getProcessInfo_eq, hall, show (s.queued.length : Int) = s.alive.length - 1 by omega]
  · have := fill_reports s.pcbs s.queued 0 buffer hi
    rwa [Nat.zero_add] at this

end Sched

namespace Kernel
variable {k : Kernel}

/-- **Listing the processes**: in every state of every run, the listing for a buffer of `size` entries stays within
it and is complete exactly when `size` is less than the number of processes that have not finished and, if it
is 0, none of them is queued. -/
theorem getps_lists {s : Sched} (h0 : s.created = 0) {idleStack idlePml4 shellStack shellPml4 : Word}
    {stdin : Stdin} {ticks : Word} {archive : Tarfs} {es : List Event}
    (hrun : Run Step (boot s idleStack idlePml4 shellStack shellPml4 stdin ticks archive) es k)
    {size : Int} (hsize : 0 ≤ size) (buffer : Nat → Pspcb) :
    k.sched.Lists size buffer ↔ size < k.sched.alive.length ∧
      (size = 0 → ∀ p ∈ k.sched.queue, (k.sched.pcbs p).status = .finished) := by
  have h := scattered_boot h0 hrun
  rw [h.sched.lists_iff h.alive hsize, Sched.queued, List.filter_eq_nil_iff]
  simp

/-- Two processes, and room for 50: the listing reports one. A buffer without entries gets one all the same. -/
theorem getps_misses_caller :
    Run Step (boot default 0 0 0 0 Stdin.init 0 default) [.yield] shellRuns ∧ shellRuns.sched.active = 2 ∧
      ¬shellRuns.sched.Lists 50 default ∧ ¬shellRuns.sched.Lists 0 default := by
  have h := scattered_boot rfl shellRuns_reached
  refine ⟨shellRuns_reached, rfl, fun hl => ?_, fun hl => ?_⟩
  · exact h.sched.not_complete h.alive (by decide) hl
  · have hnone := (Sched.bounded_iff 0 (Int.le_refl 0) _).1 hl.bounded rfl
    exact absurd hnone (by decide)

/-- Room for one is too little to be complete, and enough to stay within. -/
theorem getps_lists_one : shellRuns.sched.Lists 1 default :=
  (getps_lists rfl shellRuns_reached (by decide) default).2 ⟨by decide, by decide⟩

end Kernel
end Sbuos
