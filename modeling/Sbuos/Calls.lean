import Sbuos.Status
import Sbuos.Descriptors
import Sbuos.UserHeap
/-!
# All system calls (sys/systemcall.c)

`Event` has the calls that touch the scheduler; `Call` adds the others. These store to the caller's pcb at
most, and only `do_chdir` comes near the waiting fields: it copies up to 100 characters into the 50 bytes of
`wd`, and `waiting_on_stdin` is the byte behind them. `init` and fork copy 50.

**`status_machine`**: as long as no `chdir` leaves more than 50 characters in `wd`, FINISHED is final, a
process that can run waits for nothing, and one that waits is woken by its event only.
-/
namespace Sbuos
open Lib

/-- A system call of the active process, or an interrupt. `g` is what an earlier call left in the buffers. -/
inductive Call
  | event (e : Kernel.Event)
  | chdir (g : PathBuf) (dirname : Nat → Byte)
  | openPath (g : PathBuf) (path : Nat → Byte) (mode : Word)
  | close (fd : Word)
  | brk (arg1 : Word)
  /-- `do_getcwd`, `do_write`, `do_getps`, `do_getdents`, and a `do_execve` that finds no file. -/
  | pass

namespace Kernel

/-- The active pcb becomes `proc`. -/
def store (k : Kernel) (proc : Pcb) : Kernel := k.withSched (k.sched.modify k.sched.active fun _ => proc)

/-- A `chdir` whose text runs on into `waiting_on_pid` is no step, nor is an access outside `fd_table`. -/
def handleCall (fuel : Nat) (rsp : Word) : Call → Kernel → Option Kernel
  | .event e, k => k.handle fuel rsp e
  | .chdir g dirname, k => do
    let (_, proc, _) ← doChdir k.archive fuel g dirname k.activePcb
    proc.map k.store
  | .openPath g path mode, k => do
    let (_, proc, _) ← doOpen k.archive fuel g path mode k.activePcb
    some (k.store proc)
  | .close fd, k => do
    let (proc, _) ← doClose fd k.activePcb
    some (k.store proc)
  | .brk arg1, k => some (k.store (doBreak arg1 k.activePcb).2)
  | .pass, k => some k

def CallStep (k : Kernel) (c : Call) (k' : Kernel) : Prop := ∃ fuel rsp, k.handleCall fuel rsp c = some k'

/-- A fork finds room in the ring, and a `chdir` that succeeds leaves at most 50 characters in `wd`. -/
def CallFits (k : Kernel) : Call → Prop
  | .event e => HasRoom k e
  | .chdir g dirname => ∀ fuel g' proc' w, doChdir k.archive fuel g dirname k.activePcb = some (g', proc', 0) →
      Spells g'.abspath w → w.length ≤ 50
  | _ => True

end Kernel

/-! ## The calls outside the scheduler -/

/-- The same process with the same status, waiting for the same. -/
structure Pcb.Alike (p q : Pcb) : Prop where
  pid : p.pid = q.pid
  status : p.status = q.status
  stdin : p.waitingOnStdin = q.waitingOnStdin
  waitPid : p.waitingOnPid = q.waitingOnPid
  clock : p.waitingOnClock = q.waitingOnClock

theorem Pcb.Alike.refl (p : Pcb) : p.Alike p := ⟨rfl, rfl, rfl, rfl, rfl⟩

theorem doBreak_alike (arg1 : Word) (proc : Pcb) : (doBreak arg1 proc).2.Alike proc := by
  unfold doBreak
  split
  · exact .refl proc
  · split
    · exact .refl proc
    · exact ⟨rfl, rfl, rfl, rfl, rfl⟩

theorem doClose_alike {fd ret : Word} {proc proc' : Pcb} (h : doClose fd proc = some (proc', ret)) :
    proc'.Alike proc := by
  unfold doClose at h
  split at h
  · cases h; exact ⟨rfl, rfl, rfl, rfl, rfl⟩
  · cases h

theorem doOpen_alike {t : Tarfs} {fuel : Nat} {g g' : PathBuf} {path : Nat → Byte} {mode ret : Word}
    {proc proc' : Pcb} (h : doOpen t fuel g path mode proc = some (g', proc', ret)) : proc'.Alike proc := by
  obtain ⟨-, rfl⟩ | ⟨-, -, table, rfl⟩ := doOpen_takesNext h
  · exact .refl _
  · exact ⟨rfl, rfl, rfl, rfl, rfl⟩

/-- 50 characters end right before the flag, and their NUL clears it. -/
theorem Pcb.withWd_alike {src : Nat → Byte} {w : List Byte} {p : Pcb} (hs : Spells src w) (hlen : w.length ≤ 50)
    (h0 : p.waitingOnStdin = 0) : (p.withWd src).Alike p := by
  refine ⟨rfl, rfl, ?_, rfl, rfl⟩
  have hcopied := hs.kstrcpy (show (w.length : Int) ≤ 100 by omega) p.wd
  change (kstrcpy p.wd src 100).1 50 = _
  rw [hcopied, h0]
  change overwrite 0 (w ++ [0]) p.wd 50 = 0
  by_cases hlt : w.length = 50
  · have hspell : Spells (overwrite 0 (w ++ [0]) p.wd) w := spells_overwrite hs.ne_zero
    have := hspell.nul
    rwa [hlt] at this
  · refine (overwrite_of_le ?_).trans h0
    rw [List.length_append, List.length_singleton]
    omega

theorem doChdir_alike {t : Tarfs} {fuel : Nat} {g g' : PathBuf} {dirname : Nat → Byte} {ret : Word}
    {proc proc' : Pcb} (h : doChdir t fuel g dirname proc = some (g', some proc', ret))
    (hlen : ∀ w, ret = 0 → Spells g'.abspath w → w.length ≤ 50) (h0 : proc.waitingOnStdin = 0) :
    proc'.Alike proc := by
  obtain ⟨⟨abspath, tempPath⟩, -, h⟩ := Option.bind_eq_some_iff.1 h
  obtain ⟨l', -, h⟩ := Option.bind_eq_some_iff.1 h
  obtain ⟨d, -, h⟩ := Option.bind_eq_some_iff.1 h
  have hfound : ∀ {found : Int} {g₀ : PathBuf}, (if found ≠ 0 then some (g₀, proc.changeWd g₀.abspath, (0 : Word))
      else some (g₀, some proc, 1)) = some (g', some proc', ret) → proc'.Alike proc := by
    intro found g₀ h
    split at h
    · simp only [Option.some.injEq, Prod.mk.injEq] at h
      obtain ⟨rfl, hproc, rfl⟩ := h
      obtain ⟨l, hl, rfl⟩ := Option.map_eq_some_iff.1 hproc
      obtain ⟨w, hs, rfl⟩ := exists_spells_of_kstrlen hl
      exact Pcb.withWd_alike hs (hlen w rfl hs) h0
    · cases h; exact .refl _
  split at h
  · exact @hfound 1 _ h
  · obtain ⟨found, -, h⟩ := Option.bind_eq_some_iff.1 h
    exact hfound h

namespace Kernel
variable {k k' : Kernel} {c : Call} {p : Nat}

/-- A call is an event, or changes in the caller's pcb nothing that the scheduler looks at. -/
theorem CallStep.cases (hs : CallStep k c k') (hg : CallFits k c) (hidle : k.activePcb.Idle) :
    (∃ e, c = .event e ∧ Step k e k') ∨
      ((∀ e, c ≠ .event e) ∧ ∃ proc, proc.Alike k.activePcb ∧ k' = k.store proc) := by
  obtain ⟨fuel, rsp, hs⟩ := hs
  cases c with
  | event e => exact .inl ⟨e, rfl, fuel, rsp, hs⟩
  | chdir g dirname =>
    obtain ⟨⟨g', proc, ret⟩, hchdir, hs⟩ := Option.bind_eq_some_iff.1 hs
    obtain ⟨proc, rfl, rfl⟩ := Option.map_eq_some_iff.1 hs
    refine .inr ⟨nofun, proc, doChdir_alike hchdir (fun w h0 hspell => ?_) hidle.stdin, rfl⟩
    subst h0
    exact hg fuel g' _ w hchdir hspell
  | openPath g path mode =>
    obtain ⟨⟨g', proc, ret⟩, hopen, hs⟩ := Option.bind_eq_some_iff.1 hs
    cases hs
    exact .inr ⟨nofun, proc, doOpen_alike hopen, rfl⟩
  | close fd =>
    obtain ⟨⟨proc, ret⟩, hclose, hs⟩ := Option.bind_eq_some_iff.1 hs
    cases hs
    exact .inr ⟨nofun, proc, doClose_alike hclose, rfl⟩
  | brk arg1 =>
    cases hs
    exact .inr ⟨nofun, _, doBreak_alike arg1 _, rfl⟩
  | pass =>
    cases hs
    refine .inr ⟨nofun, k.activePcb, .refl _, ?_⟩
    simp [store, activePcb, withSched, Sched.modify]

/-- What a call makes of the pcb of another process. -/
def CallTouches (k : Kernel) (p : Nat) : Call → Pcb → Prop
  | .event e, a => k.Touches p e a
  | _, a => a = k.sched.pcbs p

/-- What a call does. -/
structure CallEffect (k : Kernel) (c : Call) (k' : Kernel) : Prop where
  sound : Sound k'
  created_le : k.sched.created ≤ k'.sched.created
  others : ∀ p, 0 < p → p ≤ k.sched.created → p ≠ k.sched.active → k.CallTouches p c (k'.sched.pcbs p)

/-- One call keeps the state sound and touches the other processes as its event does, or not at all. -/
theorem Sound.callStep (h : Sound k) (hg : CallFits k c) (hs : CallStep k c k') : CallEffect k c k' := by
  obtain ⟨e, rfl, hs⟩ | ⟨hc, proc, hlike, rfl⟩ := hs.cases hg h.idle
  · have heff := h.step hg hs
    exact ⟨heff.sound, heff.created_le, heff.others⟩
  · have hidle : proc.Idle :=
      ⟨hlike.stdin.trans h.idle.stdin, hlike.waitPid.trans h.idle.pid, hlike.clock.trans h.idle.clock⟩
    have hsched : (k.store proc).sched.Sound :=
      h.sched.modify_active (f := fun _ => proc) hlike.pid hidle.sane
    refine ⟨⟨hsched, ?_⟩, Nat.le_refl _, fun p _ _ hne => ?_⟩
    · have hself : (k.store proc).activePcb = proc := Sched.modify_pcbs_self _ _ fun _ => proc
      rw [hself, Pcb.runnable, hlike.status]
      exact h.active_runs
    · have hsame : (k.store proc).sched.pcbs p = k.sched.pcbs p :=
        Sched.modify_pcbs_of_ne _ _ (fun _ => proc) hne
      cases c with
      | event e => exact absurd rfl (hc e)
      | chdir | openPath | close | brk | pass => exact hsame

/-! ## Runs -/

/-- The event that process `p` waits for is what `c` announces. -/
def WokenBy (k : Kernel) (p : Nat) : Call → Prop
  | .event (.key _) => (k.sched.pcbs p).waitingOnStdin ≠ 0
  | .event .tick => (k.sched.pcbs p).waitingOnClock ≠ 0
  | .event e => (k.sched.pcbs p).waitingOnPid ≠ 0 ∧ ∃ status, k.Announces e (k.sched.pcbs p).waitingOnPid status
  | _ => False

/-- Only its event wakes a process that waits. -/
theorem Sound.wokenBy (h : Sound k) (hg : CallFits k c) (hs : CallStep k c k') (hp : 0 < p)
    (hle : p ≤ k.sched.created) (hst : (k.sched.pcbs p).status = .waiting)
    (hrun : (k'.sched.pcbs p).status = .running) : k.WokenBy p c := by
  have hne : p ≠ k.sched.active := by
    rintro rfl
    exact h.not_waiting hst
  have ht := (h.callStep hg hs).others p hp hle hne
  generalize k'.sched.pcbs p = a at ht hrun
  have hkept : a ≠ k.sched.pcbs p := fun he => by
    rw [he, hst] at hrun
    cases hrun
  cases c with
  | event e =>
    cases ht with
    | kept => exact absurd rfl hkept
    | killed => cases hrun
    | stdin _ hw => exact hw
    | alarm _ hw => exact hw
    | told ha _ hw =>
      subst hw
      have hpos := h.announced_pos ha
      cases e with
      | exit | kill => exact ⟨by omega, _, ha⟩
      | fork | waitpid | alarm | read | yield | exec | start | key | tick => exact ha.elim
  | chdir | openPath | close | brk | pass => exact absurd ht hkept

/-- Who is FINISHED stays so, and is not active again. -/
theorem Sound.finished_stays (h : Sound k) {calls : List Call} (hrun : Run (Guarded CallFits CallStep) k calls k')
    (hp : 0 < p) (hle : p ≤ k.sched.created) (hfin : (k.sched.pcbs p).status = .finished) :
    (k'.sched.pcbs p).status = .finished ∧ k'.sched.active ≠ p := by
  have hinactive : ∀ {k₁ : Kernel}, Sound k₁ → (k₁.sched.pcbs p).status = .finished → k₁.sched.active ≠ p := by
    rintro k₁ hs hfin rfl
    exact hs.live hfin
  have hinv := hrun.invariant
    (fun k₁ => Sound k₁ ∧ p ≤ k₁.sched.created ∧ (k₁.sched.pcbs p).status = .finished) ⟨h, hle, hfin⟩ ?_
  · exact ⟨hinv.2.2, hinactive hinv.1 hinv.2.2⟩
  · rintro k₁ c k₂ ⟨hs, hle, hfin⟩ ⟨hg, hstep⟩
    have heff := hs.callStep hg hstep
    refine ⟨heff.sound, Nat.le_trans hle heff.created_le, ?_⟩
    have ht := heff.others p hp hle (Ne.symm (hinactive hs hfin))
    generalize k₂.sched.pcbs p = a at ht ⊢
    cases c with
    | event e => exact Touches.finished ht hfin
    | chdir | openPath | close | brk | pass => exact (congrArg Pcb.status ht).trans hfin

theorem sound_of_run {s : Sched} (h0 : s.created = 0) {idleStack idlePml4 shellStack shellPml4 : Word}
    {stdin : Stdin} {ticks : Word} {archive : Tarfs} {calls : List Call}
    (hrun : Run (Guarded CallFits CallStep) (boot s idleStack idlePml4 shellStack shellPml4 stdin ticks archive)
      calls k) : Sound k :=
  hrun.invariant Sound (.boot h0 ..) fun _ _ _ hi hs => (hi.callStep hs.1 hs.2).sound

/-- **The status machine**: in every state of a run in which no fork finds the ring full and no `chdir` leaves
more than 50 characters in `wd`, a FINISHED process stays FINISHED and is never active again, a process that
can run waits for nothing, and a WAITING one waits for at most one event and is woken by that event only. -/
theorem status_machine {s : Sched} (h0 : s.created = 0) {idleStack idlePml4 shellStack shellPml4 : Word}
    {stdin : Stdin} {ticks : Word} {archive : Tarfs} {calls : List Call}
    (hrun : Run (Guarded CallFits CallStep) (boot s idleStack idlePml4 shellStack shellPml4 stdin ticks archive)
      calls k) (hp : 0 < p) (hle : p ≤ k.sched.created) :
    ((k.sched.pcbs p).status = .finished → ∀ later k', Run (Guarded CallFits CallStep) k later k' →
        (k'.sched.pcbs p).status = .finished ∧ k'.sched.active ≠ p) ∧
      ((k.sched.pcbs p).runnable = true → (k.sched.pcbs p).Idle) ∧
      ((k.sched.pcbs p).status = .waiting → (k.sched.pcbs p).OneEvent ∧
        ∀ c k', Guarded CallFits CallStep k c k' → (k'.sched.pcbs p).status = .running → k.WokenBy p c) := by
  have hsound := sound_of_run h0 hrun
  have hsane := hsound.sched.tidy.sane p hp hle
  refine ⟨fun hfin later k' hlater => ?_, hsane.idle, fun hst => ⟨hsane.oneEvent hst, fun c k' hs => ?_⟩⟩
  · exact hsound.finished_stays hlater hp hle hfin
  · exact hsound.wokenBy hs.1 hs.2 hp hle hst

/-- The shell moves its break and sleeps: it waits for the clock only. -/
theorem status_machine_alarm :
    ∃ k, Run (Guarded CallFits CallStep) (boot default 0 0 0 0 Stdin.init 0 default)
        [.event .yield, .event (.start 0), .brk 0x0000700000001000, .event (.alarm 1)] k ∧
      (k.sched.pcbs 2).status = .waiting ∧ (k.sched.pcbs 2).OneEvent := by
  have hexec : ((runAll (handleCall 3 0)
      [.event .yield, .event (.start 0), .brk 0x0000700000001000, .event (.alarm 1)]
      (boot default 0 0 0 0 Stdin.init 0 default)).any fun k =>
        k.sched.created = 2 ∧ (k.sched.pcbs 2).status = .waiting) = true := by decide +kernel
  obtain ⟨k, hk, hst⟩ := (Option.any_eq_true _ _).1 hexec
  simp only [decide_eq_true_eq] at hst
  have hrun : Run CallStep (boot default 0 0 0 0 Stdin.init 0 default)
      [.event .yield, .event (.start 0), .brk 0x0000700000001000, .event (.alarm 1)] k :=
    .of_runAll (fun _ _ _ h => ⟨3, 0, h⟩) hk
  have hfits : Run (Guarded CallFits CallStep) (boot default 0 0 0 0 Stdin.init 0 default)
      [.event .yield, .event (.start 0), .brk 0x0000700000001000, .event (.alarm 1)] k := by
    refine hrun.guard fun c hc k => ?_
    simp only [List.mem_cons, List.not_mem_nil, or_false] at hc
    obtain rfl | rfl | rfl | rfl := hc <;> trivial
  exact ⟨k, hfits, hst.2, ((status_machine rfl hfits (by decide) (Nat.le_of_eq hst.1.symm)).2.2 hst.2).1⟩

end Kernel

/-- An archive with one directory, whose name has 49 characters and a slash. -/
def longDir : Tarfs where
  mem a :=
    if a.toNat < 0x1000 + 49 then 0x61
    else if a.toNat = 0x1000 + 49 then slash
    else if 0x1000 + 124 ≤ a.toNat ∧ a.toNat < 0x1000 + 135 then 0x30
    else 0
  tarStart := 0x1000
  tarEnd := 0x1200

def longDirName : String := "aaaaaaaaaaaaaaaaaaaaaaaaaaaaaaaaaaaaaaaaaaaaaaaaa"

namespace Kernel

/-- The shell changes to that directory: the last of the 51 characters is the flag for a keyboard wait. -/
theorem status_machine_chdir :
    ∃ k, Run CallStep (boot default 0 0 0 0 Stdin.init 0 longDir)
        [.event .yield, .event (.start 0), .chdir ⟨0, fun _ => 0, fun _ => 0⟩ (cString longDirName)] k ∧
      k.sched.created = 2 ∧ (k.sched.pcbs 2).runnable = true ∧ ¬(k.sched.pcbs 2).Idle := by
  have hexec : ((runAll (handleCall 200 0)
      [.event .yield, .event (.start 0), .chdir ⟨0, fun _ => 0, fun _ => 0⟩ (cString longDirName)]
      (boot default 0 0 0 0 Stdin.init 0 longDir)).any fun k =>
        k.sched.created = 2 ∧ (k.sched.pcbs 2).runnable = true ∧ (k.sched.pcbs 2).waitingOnStdin = slash) = true := by
    decide +kernel
  obtain ⟨k, hk, hst⟩ := (Option.any_eq_true _ _).1 hexec
  simp only [decide_eq_true_eq] at hst
  obtain ⟨hcreated, hrun, hflag⟩ := hst
  refine ⟨k, .of_runAll (fun _ _ _ h => ⟨200, 0, h⟩) hk, hcreated, hrun, fun hidle => ?_⟩
  have := hflag.symm.trans hidle.stdin
  exact absurd this (by decide)

end Kernel
end Sbuos
