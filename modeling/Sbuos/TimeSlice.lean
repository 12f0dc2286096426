import Sbuos.Turns
/-!
# Time slices (sys/process_helpers.c:121-141, :312-318)

`preempt` leaves a process the processor for sixteen ticks and takes it away at the next one, and every switch starts
a slice afresh. Whatever else happens, then, the ring moves at least every seventeen ticks, and a process that is
queued and can run gets its turn: **`bounded_waiting`**.
-/
namespace Sbuos
open Lib

namespace Sched
variable {s t u : Sched} {x : Nat}

/-- The same ring, whatever the pcbs hold. -/
structure SameRing (s u : Sched) : Prop where
  list : u.list = s.list
  head : u.head = s.head
  tail : u.tail = s.tail
  active : u.active = s.active
  created : u.created = s.created

namespace SameRing

theorem queue (h : SameRing s u) : u.queue = s.queue := by rw [Sched.queue, Sched.queue, h.list, h.head, h.tail]

theorem ringInv (h : SameRing s u) (hs : RingInv s) : RingInv u where
  head_lt := h.head ▸ hs.head_lt
  tail_lt := h.tail ▸ hs.tail_lt
  slots := by rw [h.list, h.created]; exact hs.slots
  pos := by rw [h.active, h.queue]; exact hs.pos
  active_le := by rw [h.active, h.created]; exact hs.active_le
  nodup := by rw [h.active, h.queue]; exact hs.nodup

end SameRing

theorem enqueueProcess_timeSlice (s : Sched) (p : Nat) : (s.enqueueProcess p).timeSlice = s.timeSlice := by
  unfold enqueueProcess
  split <;> rfl

/-- The slice is new whoever is selected. -/
theorem getNextContext_timeSlice {fuel : Nat} (h : s.getNextContext fuel = some t) : t.timeSlice = 0 := by
  cases fuel with
  | zero => cases h
  | succ fuel =>
    rw [getNextContext] at h
    split at h
    · cases h
    split at h
    · cases h
      rfl
    · obtain ⟨v, -, rfl⟩ := Option.map_eq_some_iff.1 h
      rfl

theorem getNextContext_pcbs {fuel : Nat} (h : s.getNextContext fuel = some t) : t.pcbs = s.pcbs := by
  induction fuel generalizing s t with
  | zero => cases h
  | succ fuel ih =>
    have htaken : (s.enqueueProcess s.active).takeHead.pcbs = s.pcbs := enqueueProcess_pcbs ..
    simp only [getNextContext] at h
    split at h
    · cases h
    split at h
    · cases h
      exact htaken
    · obtain ⟨v, hv, rfl⟩ := Option.map_eq_some_iff.1 h
      exact (ih hv).trans htaken

/-- One turn of the ring brings whoever waits in it nearer to its head. -/
theorem getNextContext_nearer (h : RingInv s) {fuel : Nat} (ht : s.getNextContext fuel = some t) (hx : Waits x s) :
    t.active = x ∨ Waits x t ∧ t.queue.idxOf x < s.queue.idxOf x := by
  have hmem : x ∈ s.active :: s.queue := List.mem_cons_of_mem _ hx.1
  obtain ⟨pre, r, post, hreq, -, -, hrot⟩ := getNextContext_rotated h.head_lt h.tail_lt h.pos hmem hx.2 ht
  rcases List.mem_cons.1 (hrot.mem_of_live hreq hmem (Pcb.runnable_ne_finished hx.2)) with hactive | hqueued
  · exact .inl hactive.symm
  obtain ⟨ahead, behind, hq⟩ := List.append_of_mem hx.1
  have htakes : Takes s (.getNextContext t.active) t := ⟨⟨fuel, ht⟩, rfl⟩
  have hfit : Fits s (.getNextContext t.active) := ⟨x, hmem, hx.2⟩
  obtain ⟨ahead', behind', hq', hsub, hsel⟩ := htakes.ahead_shrinks h hfit hq hx.2 hqueued
  obtain ⟨hin, hout⟩ := hsel _ rfl
  have hnd := (List.nodup_cons.1 h.nodup).2
  rw [hq] at hnd
  have hx₁ : x ∉ ahead := fun hm => (List.nodup_append.1 hnd).2.2 x hm x List.mem_cons_self rfl
  have hx₂ : x ∉ ahead' := fun hm => hx₁ (hsub.subset hm)
  have hlt : ahead'.length < ahead.length := by
    refine Nat.lt_of_le_of_ne hsub.length_le fun he => hout ?_
    rw [hsub.eq_of_length he]
    exact hin
  refine .inr ⟨⟨hqueued, ?_⟩, ?_⟩
  · rw [hrot.pcbs_eq]
    exact hx.2
  · rw [hq, hq', List.idxOf_append_of_notMem hx₁, List.idxOf_append_of_notMem hx₂, List.idxOf_cons_self,
      List.idxOf_cons_self]
    omega

end Sched

namespace Kernel
variable {k k' : Kernel} {e : Event} {es before : List Event} {x : Nat} {fuel : Nat} {rsp : Word}

/-- The clock interrupts among the events. -/
def Event.ticks : Event → Nat
  | .tick => 1
  | _ => 0

/-- The event leaves everyone at his place in the ring, at most with one more behind them. A tick is counted. -/
structure Stays (k : Kernel) (e : Event) (k' : Kernel) : Prop where
  queue : ∃ l, k'.sched.queue = k.sched.queue ++ l
  active : k'.sched.active = k.sched.active
  timeSlice : k'.sched.timeSlice = k.sched.timeSlice + e.ticks
  slice_left : e = .tick → k'.sched.timeSlice ≤ 16

/-- The event ends with a switch. -/
def Switches (k : Kernel) (k' : Kernel) : Prop :=
  ∃ s fuel, k.sched.SameRing s ∧ s.getNextContext fuel = some k'.sched

theorem Switches.of_schedule {s : Sched} (h : k.sched.SameRing s) (hs : s.schedule fuel rsp = some k'.sched) :
    Switches k k' :=
  ⟨s.modify s.active fun p => { p with kernelSp := rsp }, fuel, ⟨h.list, h.head, h.tail, h.active, h.created⟩, hs⟩

theorem Switches.of_map {s : Sched} (h : k.sched.SameRing s) (hs : (s.schedule fuel rsp).map k.withSched = some k') :
    Switches k k' := by
  obtain ⟨t, ht, rfl⟩ := Option.map_eq_some_iff.1 hs
  exact .of_schedule h ht

theorem Switches.of_blockWith {f : Pcb → Pcb} (hs : k.blockWith f fuel rsp = some k') : Switches k k' :=
  .of_map (s := k.sched.modify k.sched.active f) ⟨rfl, rfl, rfl, rfl, rfl⟩ hs

/-- Where neither ring nor slice is touched. -/
theorem Stays.of_sameRing (h : k.sched.SameRing k'.sched) (hslice : k'.sched.timeSlice = k.sched.timeSlice)
    (he : e.ticks = 0) : Stays k e k' where
  queue := ⟨[], by rw [h.queue, List.append_nil]⟩
  active := h.active
  timeSlice := by rw [hslice, he]; simp
  slice_left htick := by
    rw [htick] at he
    cases he

theorem doKill_sameRing (pid sig : Word) :
    k.sched.SameRing (k.doKill pid sig).1.sched ∧ (k.doKill pid sig).1.sched.timeSlice = k.sched.timeSlice := by
  have hkill : k.sched.SameRing (k.sched.killPid pid).1 ∧ (k.sched.killPid pid).1.timeSlice = k.sched.timeSlice := by
    unfold Sched.killPid
    split <;> exact ⟨⟨rfl, rfl, rfl, rfl, rfl⟩, rfl⟩
  obtain ⟨hring, hslice⟩ := hkill
  unfold doKill
  dsimp only
  split
  · exact ⟨hring, hslice⟩
  · exact ⟨⟨hring.list, hring.head, hring.tail, hring.active, hring.created⟩, hslice⟩

theorem doFork_stays (h : k.sched.RingInv) (hroom : k.sched.queue.length ≤ processQueueSize - 2)
    {kernelStack pml4 pml4' ret : Word} (hs : k.doFork kernelStack pml4 pml4' rsp = some (k', ret)) :
    Stays k (.fork kernelStack pml4 pml4') k' := by
  obtain ⟨s, hlist, hhead, htail, hactive, hrun, hk'⟩ := doFork_queue hs
  have hqueue : s.queue = k.sched.queue := by rw [Sched.queue, Sched.queue, hlist, hhead, htail]
  have hlive : (s.pcbs (k.sched.created + 1)).status ≠ .finished := by rw [hrun]; decide
  have hfits : s.queue.length + 1 < processQueueSize := by
    rw [hqueue]
    simp only [processQueueSize] at *
    omega
  have hq := Sched.queue_processRun (hhead ▸ h.head_lt) (htail ▸ h.tail_lt) hfits hlive
  refine ⟨⟨[k.sched.created + 1], ?_⟩, ?_, ?_, fun he => by cases he⟩
  · rw [hk', ← hqueue, ← hq]
    rfl
  · rw [hk']
    simp [Sched.processRun, hactive]
  · refine Eq.trans ?_ (Int.add_zero _).symm
    unfold doFork at hs
    split at hs
    · cases hs
      exact Sched.enqueueProcess_timeSlice _ _
    · cases hs

/-- **What an event does to the ring.** -/
theorem Sound.stays_or_switches (h : Sound k) (hg : HasRoom k e) (hs : Step k e k') :
    Stays k e k' ∨ Switches k k' := by
  obtain ⟨fuel, rsp, hs⟩ := hs
  cases e with
  | fork kernelStack pml4 pml4' =>
    obtain ⟨⟨k₁, ret⟩, hr, rfl⟩ := Option.map_eq_some_iff.1 hs
    exact .inl (doFork_stays h.sched.queue.ring hg hr)
  | exit status =>
    exact .inr (.of_map (s := (k.sched.modify k.sched.active Pcb.exits).notifyExitPid k.activePcb.pid status)
      ⟨rfl, rfl, rfl, rfl, rfl⟩ hs)
  | kill pid sig =>
    cases hs
    obtain ⟨hring, hslice⟩ := k.doKill_sameRing pid sig
    exact .inl (.of_sameRing hring hslice rfl)
  | waitpid pid ret => exact .inr (.of_blockWith hs)
  | alarm seconds => exact .inr (.of_blockWith hs)
  | read fd size buffer =>
    obtain ⟨-, -, c, -, rfl⟩ | ⟨-, -, hblock⟩ | ⟨-, i, r, -, rfl⟩ := doRead_cases hs
    · exact .inl (.of_sameRing ⟨rfl, rfl, rfl, rfl, rfl⟩ rfl rfl)
    · exact .inr (.of_blockWith hblock)
    · exact .inl (.of_sameRing ⟨rfl, rfl, rfl, rfl, rfl⟩ rfl rfl)
  | yield => exact .inr (.of_map (s := k.sched) ⟨rfl, rfl, rfl, rfl, rfl⟩ hs)
  | exec abspath userSp => exact .inr (.of_blockWith hs)
  | start ip =>
    obtain ⟨-, rfl⟩ := kThreadKernel_eq_some hs
    exact .inl (.of_sameRing ⟨rfl, rfl, rfl, rfl, rfl⟩ rfl rfl)
  | key c =>
    obtain ⟨r, -, hr⟩ := Option.bind_eq_some_iff.1 hs
    cases hr
    left
    split <;> exact .of_sameRing ⟨rfl, rfl, rfl, rfl, rfl⟩ rfl rfl
  | tick =>
    obtain ⟨t, ht, rfl⟩ := Option.map_eq_some_iff.1 hs
    obtain ⟨s, hring, hslice, ht⟩ : ∃ s, k.sched.SameRing s ∧ s.timeSlice = k.sched.timeSlice ∧
        s.preempt fuel rsp = some t := by
      split at ht
      · exact ⟨k.sched.notifyAlarm (k.ticks + 1), ⟨rfl, rfl, rfl, rfl, rfl⟩, rfl, ht⟩
      · exact ⟨k.sched, ⟨rfl, rfl, rfl, rfl, rfl⟩, rfl, ht⟩
    unfold Sched.preempt at ht
    dsimp only at ht
    split at ht
    · exact .inr (.of_schedule (s := { s with timeSlice := 0 })
        ⟨hring.list, hring.head, hring.tail, hring.active, hring.created⟩ ht)
    · rename_i hlimit
      cases ht
      refine .inl ⟨⟨[], ?_⟩, hring.active, ?_, fun _ => Int.not_lt.1 hlimit⟩
      · rw [List.append_nil]
        exact hring.queue
      · exact congrArg (· + 1) hslice

/-- The process is not killed. -/
def Spares (x : Nat) : Event → Prop
  | .kill pid _ => pid ≠ BitVec.ofNat 64 x
  | _ => True

/-- What `x` waits for at most: its place in the queue, in slices, and what is left of the slice that runs. -/
def ticksAhead (x : Nat) (k : Kernel) : Nat := 17 * k.sched.queue.idxOf x + (17 - k.sched.timeSlice).toNat

/-- A sound kernel in which `x` waits, and the slice is not over. -/
structure Waiting (x : Nat) (k : Kernel) : Prop where
  sound : Sound k
  waits : k.sched.Waits x
  slice : 0 ≤ k.sched.timeSlice ∧ k.sched.timeSlice ≤ 16

/-- Nothing but a kill makes a process that can run unable to while another is active. -/
theorem Sound.stays_runnable (h : Sound k) (hg : HasRoom k e) (hs : Step k e k') (hx : k.sched.Waits x)
    (he : Spares x e) : (k'.sched.pcbs x).runnable = true := by
  have hne : x ≠ k.sched.active := fun hxa => (List.nodup_cons.1 h.sched.queue.ring.nodup).1 (hxa ▸ hx.1)
  obtain ⟨hpos, hle⟩ := h.queue_created x hx.1
  have hnot : (k.sched.pcbs x).status ≠ .waiting := fun hw => by
    have hr := hx.2
    rw [Pcb.runnable, hw] at hr
    cases hr
  obtain ⟨a, ha⟩ : ∃ a, a = k'.sched.pcbs x := ⟨_, rfl⟩
  have htouch := (h.step hg hs).others x hpos hle hne
  rw [← ha] at htouch ⊢
  cases htouch with
  | kept => exact hx.2
  | killed =>
    refine absurd ?_ he
    rw [h.sched.tidy.pid_eq x hpos hle, BitVec.ofInt_natCast]
  | told _ hw | stdin hw | alarm hw => exact absurd hw hnot

/-- A slice has sixteen ticks. -/
theorem slice_bounded (h : Sound k) (hg : HasRoom k e) (hs : Step k e k')
    (h0 : 0 ≤ k.sched.timeSlice ∧ k.sched.timeSlice ≤ 16) : 0 ≤ k'.sched.timeSlice ∧ k'.sched.timeSlice ≤ 16 := by
  rcases h.stays_or_switches hg hs with hstays | ⟨s, fuel, -, hs⟩
  · have hslice := hstays.timeSlice
    have hend : k'.sched.timeSlice ≤ 16 := by
      cases e with
      | tick => exact hstays.slice_left rfl
      | _ => rw [hslice]; exact (Int.add_zero _).trans_le h0.2
    exact ⟨by omega, hend⟩
  · rw [Sched.getNextContext_timeSlice hs]
    decide

/-- **One event** while `x` waits: `x` is selected, or waits on, and a tick brings it nearer. -/
theorem Waiting.step (h : Waiting x k) (hg : HasRoom k e) (hs : Step k e k') (he : Spares x e) :
    k'.sched.active = x ∨ Waiting x k' ∧ ticksAhead x k' + e.ticks ≤ ticksAhead x k := by
  have hrun := h.sound.stays_runnable hg hs h.waits he
  have hsound := (h.sound.step hg hs).sound
  have h16 := h.slice.2
  have hsliced := slice_bounded h.sound hg hs h.slice
  rcases h.sound.stays_or_switches hg hs with hstays | ⟨s, fuel, hring, hs⟩
  · obtain ⟨l, hq⟩ := hstays.queue
    have hslice := hstays.timeSlice
    have hmem : x ∈ k'.sched.queue := by rw [hq]; exact List.mem_append_left _ h.waits.1
    have hidx : k'.sched.queue.idxOf x = k.sched.queue.idxOf x := by
      rw [hq, List.idxOf_append_of_mem h.waits.1]
    refine .inr ⟨⟨hsound, ⟨hmem, hrun⟩, hsliced⟩, ?_⟩
    have hend := hsliced.2
    unfold ticksAhead
    rw [hidx]
    omega
  · have hwaits : s.Waits x := by
      rw [Sched.Waits, hring.queue, ← Sched.getNextContext_pcbs hs]
      exact ⟨h.waits.1, hrun⟩
    have hslice := Sched.getNextContext_timeSlice hs
    refine (Sched.getNextContext_nearer (hring.ringInv h.sound.sched.queue.ring) hs hwaits).imp id ?_
    rintro ⟨hwaits', hlt⟩
    rw [hring.queue] at hlt
    refine ⟨⟨hsound, hwaits', hsliced⟩, ?_⟩
    have htick : e.ticks ≤ 1 := by cases e <;> simp [Event.ticks]
    unfold ticksAhead
    omega

theorem boot_timeSlice (s : Sched) (idleStack idlePml4 shellStack shellPml4 : Word) (stdin : Stdin) (ticks : Word)
    (archive : Tarfs) :
    (boot s idleStack idlePml4 shellStack shellPml4 stdin ticks archive).sched.timeSlice = s.timeSlice := by
  have hinit : ∀ (s : Sched) (p q : Nat), ((s.enqueueProcess p).enqueueProcess q).timeSlice = s.timeSlice :=
    fun s p q => by rw [Sched.enqueueProcess_timeSlice, Sched.enqueueProcess_timeSlice]
  exact hinit _ _ _

/-- **Bounded waiting.** From every state of every run from boot in which no fork finds the ring full: a process that
is queued and can run, with `n` entries in front of it, is active before 17 × (n + 1) more clock interrupts have gone
by, whatever else happens, unless it is killed. -/
theorem bounded_waiting {s : Sched} (h0 : s.created = 0) (hslice : s.timeSlice = 0)
    {idleStack idlePml4 shellStack shellPml4 ticks : Word} {stdin : Stdin} {archive : Tarfs}
    (hbefore : Run (Guarded HasRoom Step) (boot s idleStack idlePml4 shellStack shellPml4 stdin ticks archive) before k)
    (hx : k.sched.Waits x) (hspared : ∀ e ∈ es, Spares x e) (hrun : Run (Guarded HasRoom Step) k es k')
    (hticks : 17 * (k.sched.queue.idxOf x + 1) ≤ (es.map Event.ticks).sum) :
    ∃ es₁ es₂ k₁, es = es₁ ++ es₂ ∧ Run (Guarded HasRoom Step) k es₁ k₁ ∧ Run (Guarded HasRoom Step) k₁ es₂ k' ∧
      k₁.sched.active = x := by
  have hsliced := hbefore.invariant (fun k => Sound k ∧ 0 ≤ k.sched.timeSlice ∧ k.sched.timeSlice ≤ 16)
    ⟨.boot h0 .., by rw [boot_timeSlice, hslice]; decide⟩
    fun _ _ _ ⟨hi, hb⟩ hs => ⟨(hi.step hs.1 hs.2).sound, slice_bounded hi hs.1 hs.2 hb⟩
  have hguarded : Run (Guarded (fun _ => Spares x) (Guarded HasRoom Step)) k es k' :=
    hrun.guard fun e he _ => hspared e he
  have hdrop : ∀ t e u, Guarded (fun _ => Spares x) (Guarded HasRoom Step) t e u → Guarded HasRoom Step t e u :=
    fun _ _ _ => And.right
  rcases hguarded.pays_or (I := Waiting x) (P := fun k => k.sched.active = x) (ticksAhead x) Event.ticks
    ⟨hsliced.1, hx, hsliced.2⟩ (fun _ _ _ hi hs => hi.step hs.2.1 hs.2.2 hs.1) with
    ⟨es₁, es₂, k₁, he, h₁, h₂, hactive⟩ | ⟨hend, hpaid⟩
  · exact ⟨es₁, es₂, k₁, he, h₁.mono hdrop, h₂.mono hdrop, hactive⟩
  · -- the ticks would have used up more than there was
    have hstart := hsliced.2.1
    have hleft := hend.slice.2
    unfold ticksAhead at hpaid
    omega

/-- The idle process has the processor after boot; the shell gets it within a slice. -/
theorem bounded_waiting_boot : ∃ k', Run (Guarded HasRoom Step) (boot default 0 0 0 0 Stdin.init 0 default)
    (List.replicate 17 .tick) k' ∧ ∃ es₁ es₂ k₁, List.replicate 17 Event.tick = es₁ ++ es₂ ∧
      Run (Guarded HasRoom Step) (boot default 0 0 0 0 Stdin.init 0 default) es₁ k₁ ∧
      Run (Guarded HasRoom Step) k₁ es₂ k' ∧ k₁.sched.active = 2 := by
  obtain ⟨k', hk'⟩ := Option.isSome_iff_exists.1 (show (runAll (fun e k => Kernel.handle 3 0 e k)
    (List.replicate 17 .tick) (boot default 0 0 0 0 Stdin.init 0 default)).isSome = true by decide +kernel)
  have hrun : Run Step (boot default 0 0 0 0 Stdin.init 0 default) (List.replicate 17 .tick) k' :=
    Run.of_runAll (fun _ _ _ hs => ⟨3, 0, hs⟩) hk'
  have htick : ∀ e ∈ List.replicate 17 Event.tick, e = .tick := fun e he => List.eq_of_mem_replicate he
  have hguarded : Run (Guarded HasRoom Step) (boot default 0 0 0 0 Stdin.init 0 default) (List.replicate 17 .tick) k' :=
    hrun.guard fun e he _ => by rw [htick e he]; trivial
  refine ⟨k', hguarded, bounded_waiting rfl rfl .nil (by decide) (fun e he => ?_) hguarded (by decide)⟩
  rw [htick e he]
  trivial

end Kernel
end Sbuos
