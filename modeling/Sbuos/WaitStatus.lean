import Sbuos.Calls
/-!
# The status that waitpid stores (sys/systemcall.c:94-102)

An exit or kill writes its status into the pcb it wakes, and `do_waitpid` reads it from there when the process
is resumed, however much later. In between no notifier takes the process for one of its own: it is not
WAITING any more. So the status stored is the one announced, unless the flag for a keyboard wait was set
before the call.

**`waitpid_status`**: where the status comes from, as long as no `chdir` has overrun `wd`.
-/
namespace Sbuos
open Lib

namespace Kernel
variable {k k' : Kernel} {c : Call} {p : Nat} {n : Int} {ret : Word} {log : List (Kernel × Call)}

/-- Where `do_waitpid` stores after its `schedule()`, and the `int` it stores (systemcall.c:100). -/
def waitpidStore (k : Kernel) : Word × BitVec 32 :=
  (k.activePcb.statusReturn, k.activePcb.exitNotifyStatus.setWidth 32)

/-- What the active process `p` is about to store through `ret` is the status of an exit by process `n`, or the
signal of a kill of it, in the log: `p` was WAITING up to then, and since then it has been RUNNING with that
status. -/
def StoresAnnounced (k : Kernel) (p : Nat) (n : Int) (ret : Word) (log : List (Kernel × Call)) : Prop :=
  ∃ (before : List (Kernel × Call)) (k₀ : Kernel) (e : Event) (after : List (Kernel × Call)) (status : Word),
    log = before ++ (k₀, .event e) :: after ∧ k₀.Announces e n status ∧
    k.waitpidStore = (ret, status.setWidth 32) ∧
    (∀ i ∈ before ++ [(k₀, .event e)], (i.1.sched.pcbs p).status = .waiting) ∧
    ∀ i ∈ after, (i.1.sched.pcbs p).status = .running ∧ (i.1.sched.pcbs p).exitNotifyStatus = status

/-- Blocked in `waitpid`, and told of nothing yet. -/
structure BlockedOn (a : Pcb) (n : Int) (ret : Word) : Prop where
  status : a.status = .waiting
  stdin : a.waitingOnStdin = 0
  clock : a.waitingOnClock = 0
  pid : a.waitingOnPid = n
  ret : a.statusReturn = ret

/-- A process that has called `waitpid` and has not been active since: it is still blocked, it has been told
once, or it is finished. -/
inductive Pending (p : Nat) (n : Int) (ret : Word) : List (Kernel × Call) → Pcb → Prop
  | blocked {log a} : BlockedOn a n ret → (∀ i ∈ log, (i.1.sched.pcbs p).status = .waiting) → Pending p n ret log a
  | told {before : List (Kernel × Call)} {k₀ e after status a} : k₀.Announces e n status →
      (∀ i ∈ before ++ [(k₀, .event e)], (i.1.sched.pcbs p).status = .waiting) →
      (∀ i ∈ after, (i.1.sched.pcbs p).status = .running ∧ (i.1.sched.pcbs p).exitNotifyStatus = status) →
      a.status = .running → a.exitNotifyStatus = status → a.statusReturn = ret →
      Pending p n ret (before ++ (k₀, .event e) :: after) a
  | finished {log a} : a.status = .finished → Pending p n ret log a

/-- A call that leaves the pcb as it is. -/
theorem Pending.same (h : Pending p n ret log (k.sched.pcbs p)) (c : Call) :
    Pending p n ret (log ++ [(k, c)]) (k.sched.pcbs p) := by
  cases h with
  | blocked hb hw =>
    refine .blocked hb fun i hi => ?_
    rcases List.mem_append.1 hi with hi | hi
    · exact hw i hi
    · rw [List.mem_singleton.1 hi]
      exact hb.status
  | told ha hw hr hst hexit hret =>
    rw [List.append_assoc, List.cons_append]
    refine .told ha hw (fun i hi => ?_) hst hexit hret
    rcases List.mem_append.1 hi with hi | hi
    · exact hr i hi
    · rw [List.mem_singleton.1 hi]
      exact ⟨hst, hexit⟩
  | finished hfin => exact .finished hfin

/-- Only an announcement of `n` ends the waiting. -/
theorem Pending.step {a : Pcb} (h : Pending p n ret log (k.sched.pcbs p)) (ht : k.CallTouches p c a) :
    Pending p n ret (log ++ [(k, c)]) a := by
  cases c with
  | event e =>
    cases ht with
    | kept => exact h.same _
    | killed => exact .finished rfl
    | told ha hst hpid =>
      cases h with
      | blocked hb hw =>
        subst hpid
        rw [hb.pid] at ha
        refine .told ha (fun i hi => ?_) (fun i hi => absurd hi List.not_mem_nil) rfl rfl hb.ret
        rcases List.mem_append.1 hi with hi | hi
        · exact hw i hi
        · rw [List.mem_singleton.1 hi]
          exact hst
      | told _ _ _ hr => rw [hr] at hst; cases hst
      | finished hf => rw [hf] at hst; cases hst
    | stdin hst hw =>
      cases h with
      | blocked hb => exact absurd hb.stdin hw
      | told _ _ _ hr => rw [hr] at hst; cases hst
      | finished hf => rw [hf] at hst; cases hst
    | alarm hst hw =>
      cases h with
      | blocked hb => exact absurd hb.clock hw
      | told _ _ _ hr => rw [hr] at hst; cases hst
      | finished hf => rw [hf] at hst; cases hst
  | chdir | openPath | close | brk | pass =>
    rw [show a = k.sched.pcbs p from ht]
    exact h.same _

/-- Right after its call the process is blocked. -/
theorem Sound.blockedOn (h : Sound k) {pid : Word}
    (hs : CallStep k (.event (.waitpid pid ret)) k') :
    BlockedOn (k'.sched.pcbs k.sched.active) (pid.setWidth 32).toInt ret := by
  obtain ⟨fuel, rsp, hs⟩ := hs
  have hstored := h.sched.modify_active (f := Pcb.blocksOnPid pid ret) rfl (h.idle.blocksOnPid_sane pid ret)
  obtain ⟨-, -, hself, -⟩ := of_schedule hstored hs
  rw [Sched.modify_active, Sched.modify_pcbs_self] at hself
  rw [hself]
  exact ⟨rfl, h.idle.stdin, h.idle.clock, rfl, rfl⟩

/-- **The wait status**: when a process that called `waitpid(pid)` is active again for the first time, what it
stores is the status of an exit by that process, or of a kill of it, since the call; nothing else has woken it
or changed the status. So it is in every run in which no fork finds the ring full and no `chdir` leaves more
than 50 characters in `wd`. -/
theorem waitpid_status {s : Sched} (h0 : s.created = 0) {idleStack idlePml4 shellStack shellPml4 : Word}
    {stdin : Stdin} {ticks : Word} {archive : Tarfs} {calls : List Call} {k₀ k₁ : Kernel} {pid : Word}
    (hbefore : Run (Guarded CallFits CallStep)
      (boot s idleStack idlePml4 shellStack shellPml4 stdin ticks archive) calls k₀)
    (hwait : CallStep k₀ (.event (.waitpid pid ret)) k₁)
    (hafter : Run (Traced (Guarded CallFits CallStep)) k₁ log k)
    (hfirst : ∀ i ∈ log, i.1.sched.active ≠ k₀.sched.active) (hact : k.sched.active = k₀.sched.active) :
    StoresAnnounced k k₀.sched.active (pid.setWidth 32).toInt ret log := by
  have hsound := sound_of_run h0 hbefore
  have hpos := hsound.sched.active_pos
  have heff := hsound.callStep (c := .event (.waitpid pid ret)) trivial hwait
  have hinv := hafter.history (fun log k => (∀ i ∈ log, i.1.sched.active ≠ k₀.sched.active) →
      Sound k ∧ k₀.sched.active ≤ k.sched.created ∧
        Pending k₀.sched.active (pid.setWidth 32).toInt ret log (k.sched.pcbs k₀.sched.active))
    (fun _ => ⟨heff.sound, Nat.le_trans hsound.sched.queue.active_le heff.created_le,
      .blocked (hsound.blockedOn hwait) fun i hi => absurd hi List.not_mem_nil⟩) ?_ hfirst
  · obtain ⟨hs, -, hpending⟩ := hinv
    rw [← hact] at hpending ⊢
    cases hpending with
    | blocked hb => exact absurd hb.status hs.not_waiting
    | finished hfin => exact absurd hfin hs.live
    | told ha hw hr hst hexit hret =>
      exact ⟨_, _, _, _, _, rfl, ha, by rw [waitpidStore, activePcb, hexit, hret], hw, hr⟩
  · rintro log k ⟨k', c⟩ k'' ih ⟨rfl, hg, hs⟩ hfirst
    obtain ⟨hsk, hle, hpending⟩ := ih fun i hi => hfirst i (List.mem_append_left _ hi)
    have hne : k'.sched.active ≠ k₀.sched.active := hfirst _ (List.mem_append_right _ List.mem_cons_self)
    have heff := hsk.callStep hg hs
    exact ⟨heff.sound, Nat.le_trans hle heff.created_le, hpending.step (heff.others _ hpos hle (Ne.symm hne))⟩

/-- The shell waits for its child; the idle process gives way, the child exits with 5, and 5 is stored. -/
theorem waitpid_status_shell :
    ∃ k log, k.sched.active = 2 ∧ log.map Prod.snd = [.event .yield, .event (.exit 5)] ∧
      StoresAnnounced k 2 3 64 log := by
  have hexec : ((runAll (handleCall 3 0) [.event .yield, .event (.start 0)]
      (boot default 0 0 0 0 Stdin.init 0 default)).any fun k => k.sched.queue.length ≤ processQueueSize - 2 ∧
        (handleCall 3 0 (.event (.fork 0 0 0)) k).any fun k₀ => k₀.sched.active = 2 ∧
          (handleCall 3 0 (.event (.waitpid 3 64)) k₀).any fun k₁ => k₁.sched.active ≠ 2 ∧
            (handleCall 3 0 (.event .yield) k₁).any fun k₂ => k₂.sched.active ≠ 2 ∧
              (handleCall 3 0 (.event (.exit 5)) k₂).any fun k₃ => k₃.sched.active = 2) = true := by
    decide +kernel
  simp only [Option.any_eq_true, decide_eq_true_eq] at hexec
  obtain ⟨k, hk, hroom, k₀, hk₀, hact₀, k₁, hk₁, hne₁, k₂, hk₂, hne₂, k₃, hk₃, hact₃⟩ := hexec
  have hstart : Run (Guarded CallFits CallStep) (boot default 0 0 0 0 Stdin.init 0 default)
      [.event .yield, .event (.start 0)] k := by
    have hrun : Run CallStep _ _ k := .of_runAll (fun _ _ _ h => ⟨3, 0, h⟩) hk
    refine hrun.guard fun c hc k => ?_
    simp only [List.mem_cons, List.not_mem_nil, or_false] at hc
    obtain rfl | rfl := hc <;> trivial
  have hafter : Run (Traced (Guarded CallFits CallStep)) k₁
      [(k₁, .event .yield), (k₂, .event (.exit 5))] k₃ :=
    .cons ⟨rfl, trivial, 3, 0, hk₂⟩ (.single ⟨rfl, trivial, 3, 0, hk₃⟩)
  have hforked : Guarded CallFits CallStep k (.event (.fork 0 0 0)) k₀ := ⟨hroom, 3, 0, hk₀⟩
  have hstored := waitpid_status rfl (hstart.snoc hforked) ⟨3, 0, hk₁⟩ hafter (fun i hi => by
    simp only [List.mem_cons, List.not_mem_nil, or_false] at hi
    obtain rfl | rfl := hi
    · rwa [hact₀]
    · rwa [hact₀]) (hact₃.trans hact₀.symm)
  rw [hact₀] at hstored
  exact ⟨k₃, _, hact₃, rfl, hstored⟩

/-- After the `chdir` that overruns `wd` a key wakes the shell out of `waitpid`: nobody has exited or been
killed. -/
theorem waitpid_status_key :
    ∃ k₀ k₁ k log, Run CallStep (boot default 0 0 0 0 Stdin.init 0 longDir)
        [.event .yield, .event (.start 0), .chdir ⟨0, fun _ => 0, fun _ => 0⟩ (cString longDirName)] k₀ ∧
      CallStep k₀ (.event (.waitpid 7 64)) k₁ ∧ Run (Traced CallStep) k₁ log k ∧
      (∀ i ∈ log, i.1.sched.active ≠ k₀.sched.active) ∧ k.sched.active = k₀.sched.active ∧
      ¬StoresAnnounced k k₀.sched.active 7 64 log := by
  have hexec : ((runAll (handleCall 200 0)
      [.event .yield, .event (.start 0), .chdir ⟨0, fun _ => 0, fun _ => 0⟩ (cString longDirName)]
      (boot default 0 0 0 0 Stdin.init 0 longDir)).any fun k₀ => k₀.sched.active = 2 ∧
        (handleCall 3 0 (.event (.waitpid 7 64)) k₀).any fun k₁ => k₁.sched.active ≠ 2 ∧
          (handleCall 3 0 (.event (.key 10)) k₁).any fun k₂ => k₂.sched.active ≠ 2 ∧
            (handleCall 3 0 (.event .yield) k₂).any fun k₃ => k₃.sched.active = 2) = true := by decide +kernel
  simp only [Option.any_eq_true, decide_eq_true_eq] at hexec
  obtain ⟨k₀, hk₀, hact₀, k₁, hk₁, hne₁, k₂, hk₂, hne₂, k₃, hk₃, hact₃⟩ := hexec
  refine ⟨k₀, k₁, k₃, [(k₁, .event (.key 10)), (k₂, .event .yield)], .of_runAll (fun _ _ _ h => ⟨200, 0, h⟩) hk₀,
    ⟨3, 0, hk₁⟩, .cons ⟨rfl, 3, 0, hk₂⟩ (.single ⟨rfl, 3, 0, hk₃⟩), fun i hi => ?_, hact₃.trans hact₀.symm, ?_⟩
  · simp only [List.mem_cons, List.not_mem_nil, or_false] at hi
    obtain rfl | rfl := hi
    · rwa [hact₀]
    · rwa [hact₀]
  · rintro ⟨before, k, e, after, status, hlog, ha, -⟩
    have hmem : (k, Call.event e) ∈ [(k₁, Call.event (.key 10)), (k₂, Call.event .yield)] := by
      rw [hlog]
      exact List.mem_append_right _ List.mem_cons_self
    -- neither a key nor a yield announces anything
    simp only [List.mem_cons, List.not_mem_nil, or_false, Prod.mk.injEq, Call.event.injEq] at hmem
    obtain ⟨-, rfl⟩ | ⟨-, rfl⟩ := hmem
    · exact ha
    · exact ha

end Kernel
end Sbuos
