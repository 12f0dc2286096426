import Sbuos.Lineage
import Sbuos.Output
import Sbuos.ProcessList
/-!
# ps and kill (bin/ps/ps.c:7-15, bin/kill/kill.c:4-24, libc/stdlib.c:86-89, :181-183)

`ps` prints a line for each process that the kernel lists: the pid, the parent's, and the name. `kill` reads a number
from its argument and has the kernel finish the queued process of this pid, or says that it found none.

**`ps_prints`**: in every run, the lines are those of the queued processes that have not finished, the first 50; and
while no fork finds the ring full these are all but `ps` itself. **`kill_number`**: `kill` finishes the process whose
number it is given, for good, and with it wakes those who wait for it; no one else notices.
-/
namespace Sbuos
open Lib

/-- The loop of `atoi` (kill.c:4-12), with so many of its 30 turns left. -/
def atoiFrom (s : Nat → Byte) : Nat → Nat → BitVec 32 → BitVec 32
  | 0, _, res => res
  | turns + 1, i, res =>
    if s i = 0 then res else atoiFrom s turns (i + 1) (res * 10 + ((s i).signExtend 32 - 0x30))

def atoi (s : Nat → Byte) : BitVec 32 := atoiFrom s 30 0 0

namespace Program

/-- `kill` (stdlib.c:86-89). A `pid_t` has no sign. -/
def kill (pid sig : BitVec 32) (p : Program) : Program × BitVec 32 :=
  let (kernel, ret) := p.kernel.doKill (pid.setWidth 64) (sig.signExtend 64)
  ({ p with kernel := kernel }, ret.setWidth 32)

/-- `get_ps` (stdlib.c:181-183), with what `buffer` holds. -/
def getPs (buffer : Nat → Pspcb) (size : BitVec 32) (p : Program) : Option ((Nat → Pspcb) × BitVec 32) := do
  let (buffer, count) ← (p.kernel.sched.getProcessInfo size.toInt buffer).result
  some (buffer, BitVec.ofInt 32 count)

end Program

/-- The loop of `ps` (ps.c:11-14), with so many entries left. -/
def psLoop (buffer : Nat → Pspcb) (fuel : Nat) : Nat → Nat → Program → Option Program
  | 0, _, p => some p
  | left + 1, i, p => do
    let pid := BitVec.ofInt 32 (buffer i).pid
    let ppid := BitVec.ofInt 32 (buffer i).ppid
    let p ← p.printf fuel (cString "%d     %d      %s\n") [.int pid, .int ppid, .str (buffer i).pname]
    psLoop buffer fuel left (i + 1) p

/-- `main` of ps (ps.c:7-15). -/
def psMain (buffer : Nat → Pspcb) (fuel : Nat) (p : Program) : Option (Program × (Nat → Pspcb)) := do
  let (buffer, pcount) ← p.getPs buffer 50
  let p ← p.printf fuel (cString "PID    PPID    NAME\n") []
  let p ← psLoop buffer fuel pcount.toInt.toNat 0 p
  some (p, buffer)

/-- `main` of kill (kill.c:14-24), with `argv[1]`. -/
def killMain (argc : BitVec 32) (argv1 : Nat → Byte) (fuel : Nat) (p : Program) : Option (Program × BitVec 32) :=
  if argc.toInt < 2 then do
    let p ← p.printf fuel (cString "sleep: need an argumet\n") []
    some (p, 1)
  else
    let pid := atoi argv1
    let (p, ret) := p.kill pid 9
    if ret ≠ 0 then do
      let p ← p.printf fuel (cString "kill: no process found: %d\n") [.int pid]
      some (p, 0)
    else some (p, 0)

/-! ## The lines of ps -/

/-- The line of a process. -/
def psLine (s : Sched) (names : Nat → List Byte) (q : Nat) : List Byte :=
  decimalText (s.pcbs q).pid ++ ascii "     " ++ decimalText (s.pcbs q).ppid ++ ascii "      " ++ names q ++ [10]

def psHeader : List Byte := ascii "PID    PPID    NAME\n"

section numbers
variable {n : Nat}

theorem toInt_ofInt (hn : n < 2 ^ 31) : (BitVec.ofInt 32 (n : Int)).toInt = n := by
  rw [BitVec.ofInt_natCast, BitVec.toInt_eq_toNat_of_lt] <;> rw [BitVec.toNat_ofNat] <;> omega

theorem ofInt_ne_intMin (hn : n < 2 ^ 31) : BitVec.ofInt 32 (n : Int) ≠ BitVec.intMin 32 := by
  intro he
  have hint := toInt_ofInt hn
  rw [he, BitVec.toInt_intMin] at hint
  have hlow : -((2 : Int) ^ (32 - 1)) < 0 := by decide
  omega

/-- An `int` has ten digits at most. -/
theorem length_decimalText_le (hn : n < 2 ^ 31) : (decimalText n).length ≤ 10 := by
  rw [decimalText, if_neg (by omega), numeralText, List.length_map, Int.natAbs_natCast]
  exact length_numeral_mono (show n ≤ 2147483648 by omega)

theorem text_dec (hn : n < 2 ^ 31) : (Item.dec (BitVec.ofInt 32 (n : Int))).text = decimalText n := by
  rw [Item.text, toInt_ofInt hn]

end numbers

theorem printf_psHeader (p : Program) : ∃ printBuffer,
    Returns (fun fuel => p.printf fuel (cString "PID    PPID    NAME\n") [])
      { p with screen := p.screen.writes psHeader, printBuffer := printBuffer } := by
  have hplain : ∀ c ∈ psHeader, c ≠ 0 ∧ c ≠ percent := by decide +kernel
  have hformat : Spells (cString "PID    PPID    NAME\n") (formatText (Item.plains psHeader hplain) false) := by
    rw [formatText, Item.spelling_plains, if_neg Bool.false_ne_true, List.append_nil]
    exact spells_cString rfl fun c hc => (hplain c hc).1
  obtain ⟨printBuffer, hprint⟩ := Program.printf_eq (p := p) hformat (Item.numeralsFit_of_textual Item.textual_plains 0)
  rw [Item.arg_plains, Item.text_plains] at hprint
  exact ⟨printBuffer, hprint⟩

section lines
variable {s : Sched} {names : Nat → List Byte} {buffer : Nat → Pspcb} {q : Nat}

/-- A process whose line `ps` gets right. -/
structure Printable (s : Sched) (names : Nat → List Byte) (q : Nat) : Prop where
  pid : ∃ n : Nat, (s.pcbs q).pid = n ∧ n < 2 ^ 31
  ppid : ∃ n : Nat, (s.pcbs q).ppid = n ∧ n < 2 ^ 31
  name : Spells (s.pcbs q).pname (names q)
  short : (names q).length < 50

/-- The name is copied with its NUL. -/
theorem Printable.spells (h : Printable s names q) {entry : Pspcb} (hr : entry.Reports (s.pcbs q)) :
    Spells entry.pname (names q) := by
  have hcopied : ∀ i ≤ (names q).length, entry.pname i = (s.pcbs q).pname i := fun i hi =>
    hr.pname i (Nat.lt_of_le_of_lt hi h.short) fun j hj => h.name.apply_ne_zero (Nat.lt_of_lt_of_le hj hi)
  refine ⟨fun i hi => ?_, h.name.ne_zero, ?_⟩
  · rw [hcopied i (Nat.le_of_lt hi)]
    exact h.name.chars i hi
  · rw [hcopied _ (Nat.le_refl _)]
    exact h.name.nul

theorem printf_psLine (h : Printable s names q) {entry : Pspcb} (hr : entry.Reports (s.pcbs q)) (p : Program) :
    ∃ printBuffer, Returns (fun fuel => p.printf fuel (cString "%d     %d      %s\n")
        [.int (BitVec.ofInt 32 entry.pid), .int (BitVec.ofInt 32 entry.ppid), .str entry.pname])
      { p with screen := p.screen.writes (psLine s names q), printBuffer := printBuffer } := by
  obtain ⟨m, hpid, hm⟩ := h.pid
  obtain ⟨n, hppid, hn⟩ := h.ppid
  rw [hr.pid, hr.ppid, hpid, hppid]
  have hgap₁ : ∀ c ∈ ascii "     ", c ≠ 0 ∧ c ≠ percent := by decide +kernel
  have hgap₂ : ∀ c ∈ ascii "      ", c ≠ 0 ∧ c ≠ percent := by decide +kernel
  have hend : ∀ c ∈ [(10 : Byte)], c ≠ 0 ∧ c ≠ percent := by decide
  let items : List Item := .dec (BitVec.ofInt 32 m) :: (Item.plains _ hgap₁ ++ .dec (BitVec.ofInt 32 n) ::
    (Item.plains _ hgap₂ ++ .str entry.pname (names q) (h.spells hr) :: Item.plains _ hend))
  have hspelling : formatText items false = (ascii "%d     %d      %s\n") := by
    simp only [items, formatText, List.flatMap_cons, List.flatMap_append, Item.spelling_plains, Item.spelling]
    decide +kernel
  have htext : items.flatMap Item.text = psLine s names q := by
    simp only [items, List.flatMap_cons, List.flatMap_append, Item.text_plains, text_dec hm, text_dec hn, psLine, hpid,
      hppid, List.append_assoc]
    rfl
  have harg : items.flatMap Item.arg =
      [.int (BitVec.ofInt 32 m), .int (BitVec.ofInt 32 n), .str entry.pname] := by
    simp only [items, List.flatMap_cons, List.flatMap_append, Item.arg_plains]
    rfl
  have hfit : NumeralsFit 0 items := by
    have hnum : (Item.dec (BitVec.ofInt 32 (m : Int))).numeric = true := rfl
    have hm' := length_decimalText_le hm
    have hn' := length_decimalText_le hn
    refine ⟨ofInt_ne_intMin hm, fun _ => ?_, (Item.numeralsFit_append Item.textual_plains).2
      ⟨ofInt_ne_intMin hn, fun _ => ?_, (Item.numeralsFit_append Item.textual_plains).2 ⟨trivial, fun hs => ?_, ?_⟩⟩⟩
    · rw [text_dec hm]
      omega
    · rw [text_dec hm, text_dec hn, if_pos hnum]
      omega
    · cases hs
    · exact Item.numeralsFit_of_textual Item.textual_plains _
  have hformat : Spells (cString "%d     %d      %s\n") (formatText items false) :=
    hspelling ▸ spells_cString rfl (by decide +kernel)
  obtain ⟨printBuffer, hprint⟩ := Program.printf_eq (p := p) hformat hfit
  rw [htext, harg] at hprint
  exact ⟨printBuffer, hprint⟩

/-- By induction on the processes that are left. -/
theorem psLoop_eq (qs : List Nat) : ∀ (i : Nat) (p : Program),
    (∀ j (h : j < qs.length), (buffer (i + j)).Reports (s.pcbs qs[j])) → (∀ q ∈ qs, Printable s names q) →
    ∃ printBuffer, Returns (fun fuel => psLoop buffer fuel qs.length i p)
      { p with screen := p.screen.writes (qs.flatMap (psLine s names)), printBuffer := printBuffer } := by
  induction qs with
  | nil => exact fun i p _ _ => ⟨p.printBuffer, .of_le 0 fun fuel _ => rfl⟩
  | cons q qs ih =>
    intro i p hreports hprintable
    obtain ⟨printBuffer₁, n, hprint⟩ :=
      printf_psLine (hprintable q List.mem_cons_self) (hreports 0 (Nat.zero_lt_succ _)) p
    obtain ⟨printBuffer, m, hloop⟩ := ih (i + 1)
      { p with screen := p.screen.writes (psLine s names q), printBuffer := printBuffer₁ }
      (fun j hj => by
        have hnext := hreports (j + 1) (Nat.succ_lt_succ hj)
        rwa [show i + (j + 1) = i + 1 + j by omega] at hnext)
      fun q hq => hprintable q (List.mem_cons_of_mem _ hq)
    refine ⟨printBuffer, .of_le (max n m) fun fuel hfuel => ?_⟩
    have hprint := hprint fuel (by omega)
    have hloop := hloop fuel (by omega)
    dsimp only at hprint hloop
    rw [Nat.add_zero] at hprint
    simp only [List.length_cons, psLoop, Option.bind_eq_bind, Option.bind_some, hprint, hloop, Screen.writes_writes,
      List.flatMap_cons]

/-- What `ps` prints when it gets all lines right. -/
theorem psMain_eq {p : Program} (h : ∀ q ∈ p.kernel.sched.queued.take 50, Printable p.kernel.sched names q)
    (buffer : Nat → Pspcb) : ∃ printBuffer entries, Returns (fun fuel => psMain buffer fuel p)
      ({ p with
          screen := p.screen.writes (psHeader ++ (p.kernel.sched.queued.take 50).flatMap (psLine p.kernel.sched names))
          printBuffer := printBuffer }, entries) := by
  have hlist : p.kernel.sched.getProcessInfo 50 buffer = ⟨_, some (_, _)⟩ := p.kernel.sched.getProcessInfo_eq 50 buffer
  have hreported : Sched.reported p.kernel.sched.pcbs p.kernel.sched.queue (50 : Int).toNat =
      p.kernel.sched.queued.take 50 := rfl
  have hlen : (p.kernel.sched.queued.take 50).length ≤ 50 := List.length_take_le ..
  rw [hreported] at hlist
  generalize p.kernel.sched.queued.take 50 = qs at h hlist hlen
  have hcount : (BitVec.ofInt 32 (qs.length : Int)).toInt.toNat = qs.length := by
    rw [toInt_ofInt (by omega), Int.toNat_natCast]
  have hsize : (50 : BitVec 32).toInt = 50 := rfl
  have hreports : ∀ j (hj : j < qs.length),
      (Sched.fill p.kernel.sched.pcbs qs 0 buffer (0 + j)).Reports (p.kernel.sched.pcbs qs[j]) :=
    fun j hj => Sched.fill_reports p.kernel.sched.pcbs qs 0 buffer hj
  obtain ⟨printBuffer₁, n, hheader⟩ := printf_psHeader p
  obtain ⟨printBuffer, m, hloop⟩ := psLoop_eq qs 0
    { p with screen := p.screen.writes psHeader, printBuffer := printBuffer₁ } hreports h
  refine ⟨printBuffer, Sched.fill p.kernel.sched.pcbs qs 0 buffer, .of_le (max n m) fun fuel hfuel => ?_⟩
  have hheader := hheader fuel (by omega)
  have hloop := hloop fuel (by omega)
  dsimp only at hheader hloop
  simp only [psMain, Program.getPs, hsize, hlist, Option.bind_eq_bind, Option.bind_some, hcount, hheader, hloop,
    Screen.writes_writes]

end lines

/-! ## The number that kill is given -/

def IsDigit (c : Byte) : Prop := 0x30 ≤ c.toNat ∧ c.toNat ≤ 0x39

instance (c : Byte) : Decidable (IsDigit c) := inferInstanceAs (Decidable (_ ∧ _))

section atoi
variable {s : Nat → Byte} {w : List Byte} {c : Byte}

/-- What a turn of `atoi` does. -/
def addDigit (res : BitVec 32) (c : Byte) : BitVec 32 := res * 10 + (c.signExtend 32 - 0x30)

theorem atoiFrom_eq (h : Spells s w) (turns i : Nat) (hi : i ≤ w.length) (res : BitVec 32) :
    atoiFrom s turns i res = ((w.drop i).take turns).foldl addDigit res := by
  induction turns generalizing i res with
  | zero => rfl
  | succ turns ih =>
    rw [atoiFrom]
    by_cases hend : i = w.length
    · subst hend
      rw [if_pos h.nul, List.drop_length]
      rfl
    · have hlt : i < w.length := by omega
      rw [if_neg (h.apply_ne_zero hlt), ih (i + 1) hlt, List.drop_eq_getElem_cons hlt, List.take_succ_cons,
        List.foldl_cons, addDigit, h.chars i hlt]

theorem addDigit_digit (hc : IsDigit c) (n : Nat) :
    addDigit (BitVec.ofNat 32 n) c = BitVec.ofNat 32 (charDigit c + 10 * n) := by
  obtain ⟨hlow, hhigh⟩ := hc
  have hmsb : c.msb = false := by
    rw [BitVec.msb_eq_decide]
    exact decide_eq_false (by omega)
  have hdigit : (c.signExtend 32 - 0x30 : BitVec 32) = BitVec.ofNat 32 (charDigit c) := by
    rw [BitVec.signExtend_eq_setWidth_of_msb_false hmsb, charDigit, if_pos hhigh]
    apply BitVec.eq_of_toNat_eq
    rw [BitVec.toNat_sub, BitVec.toNat_setWidth, BitVec.toNat_ofNat]
    have hzero : BitVec.toNat (48 : BitVec 32) = 48 := rfl
    omega
  rw [addDigit, hdigit, BitVec.add_comm, Nat.mul_comm, BitVec.ofNat_add, BitVec.ofNat_mul]
  rfl

theorem foldl_addDigit (hw : ∀ c ∈ w, IsDigit c) (n : Nat) :
    w.foldl addDigit (BitVec.ofNat 32 n) = BitVec.ofNat 32 (w.foldl (fun n c => charDigit c + 10 * n) n) := by
  induction w generalizing n with
  | nil => rfl
  | cons c w ih =>
    rw [List.foldl_cons, addDigit_digit (hw c List.mem_cons_self), ih fun c hc => hw c (List.mem_cons_of_mem _ hc)]
    rfl

theorem readNumeral_eq_foldl (w : List Byte) : readNumeral 10 w = w.foldl (fun n c => charDigit c + 10 * n) 0 := by
  rw [readNumeral, Nat.ofDigits_eq_foldr, ← List.map_reverse, List.foldr_map, List.foldr_reverse]
  rfl

/-- `atoi` reads a number, of thirty digits at most. -/
theorem atoi_eq (h : Spells s w) (hw : ∀ c ∈ w, IsDigit c) : atoi s = BitVec.ofNat 32 (readNumeral 10 (w.take 30)) := by
  rw [atoi, atoiFrom_eq h 30 0 (Nat.zero_le _), List.drop_zero, readNumeral_eq_foldl]
  exact foldl_addDigit (fun c hc => hw c (List.mem_of_mem_take hc)) 0

end atoi

/-! ## What is killed -/

namespace Kernel
variable {k k' : Kernel} {n : Nat} {sig : Word} {es : List Event}

/-- The process is finished, those who waited for it are told, and that is all. -/
structure Killed (k : Kernel) (n : Nat) (sig : Word) (k' : Kernel) : Prop where
  only_pcbs : k' = k.withSched { k.sched with pcbs := k'.sched.pcbs }
  victim : k'.sched.pcbs n = { k.sched.pcbs n with status := .finished }
  others : ∀ q, q ≠ n → k'.sched.pcbs q =
    if q ∈ k.sched.queue ∧ (k.sched.pcbs q).status = .waiting ∧ (k.sched.pcbs q).waitingOnPid = n then
      { k.sched.pcbs q with waitingOnPid := 0, exitNotifyStatus := sig, status := .running }
    else k.sched.pcbs q

/-- It is off the list of ps, and no one else. -/
theorem Killed.queued (h : Killed k n sig k') : k'.sched.queued = k.sched.queued.filter (· ≠ n) := by
  have hqueue : k'.sched.queue = k.sched.queue := by
    rw [h.only_pcbs]
    rfl
  rw [Sched.queued, Sched.queued, hqueue, List.filter_filter]
  refine List.filter_congr fun q _ => ?_
  by_cases hq : q = n
  · subst hq
    rw [h.victim]
    simp
  · rw [h.others q hq]
    split
    case isTrue hwaits => simp [hq, hwaits.2.1]
    case isFalse => simp [hq]

namespace Scattered

theorem pid_queued (h : Scattered k) {v : Nat} (hv : v ∈ k.sched.queue) : (k.sched.pcbs v).pid = v ∧ v < 2 ^ 31 := by
  obtain ⟨hpos, hle⟩ := h.queue_created v hv
  exact ⟨h.tidy.pid_eq v hpos hle, Nat.lt_of_le_of_lt hle h.tidy.created_lt⟩

/-- The pid finds no other process. -/
theorem eq_of_pid (h : Scattered k) {v : Nat} (hv : v ∈ k.sched.queue) (hn : n < 2 ^ 31)
    (hpid : BitVec.ofInt 64 (k.sched.pcbs v).pid = BitVec.ofNat 64 n) : v = n := by
  obtain ⟨hv, hlt⟩ := h.pid_queued hv
  rw [hv, BitVec.ofInt_natCast] at hpid
  have hnat := congrArg BitVec.toNat hpid
  rw [BitVec.toNat_ofNat, BitVec.toNat_ofNat] at hnat
  omega

theorem doKill_none (h : Scattered k) (hn : n ∉ k.sched.queue) (hlt : n < 2 ^ 31) (sig : Word) :
    k.doKill (BitVec.ofNat 64 n) sig = (k, -1) := by
  obtain hnone | ⟨v, hv, hpid, -, -⟩ := doKill_cases h.tidy h.queue_created (BitVec.ofNat 64 n) sig
  · exact hnone
  · rw [h.eq_of_pid hv hlt hpid] at hv
    exact absurd hv hn

theorem doKill_pid (h : Scattered k) (hn : n ∈ k.sched.queue) (sig : Word) :
    (k.doKill (BitVec.ofNat 64 n) sig).2 = 0 ∧ Killed k n sig (k.doKill (BitVec.ofNat 64 n) sig).1 := by
  obtain ⟨hpid, hlt⟩ := h.pid_queued hn
  obtain hnone | ⟨v, hv, hfound, -, hsome⟩ := doKill_cases h.tidy h.queue_created (BitVec.ofNat 64 n) sig
  · -- it is found
    have hfind : (k.sched.queue.find? fun p => BitVec.ofInt 64 (k.sched.pcbs p).pid = BitVec.ofNat 64 n).isSome :=
      List.find?_isSome.2 ⟨n, hn, by rw [hpid, BitVec.ofInt_natCast, decide_eq_true_eq]⟩
    obtain ⟨v, hv⟩ := Option.isSome_iff_exists.1 hfind
    have hret := congrArg Prod.snd hnone
    rw [Kernel.doKill, Sched.killPid, hv] at hret
    cases hret
  · obtain rfl := h.eq_of_pid hv hlt hfound
    rw [hsome]
    refine ⟨rfl, rfl, ?_, fun q hq => ?_⟩
    · change ((k.sched.modify v Pcb.exits).notifyExitPid _ sig).pcbs v = _
      rw [Sched.notifyExitPid, Sched.notify_pcbs_apply, Sched.modify_pcbs_self, if_neg (by simp [Pcb.exits])]
      rfl
    · change ((k.sched.modify v Pcb.exits).notifyExitPid _ sig).pcbs q = _
      rw [Sched.notifyExitPid, Sched.notify_pcbs_apply, Sched.modify_pcbs_of_ne _ _ _ hq, Sched.modify_queue, hpid]
      simp only [decide_eq_true_eq]

end Scattered
end Kernel

/-! ## The two programs -/

section main
open Kernel
variable {s : Sched} {idleStack idlePml4 shellStack shellPml4 ticks : Word} {stdin : Stdin} {archive : Tarfs}
  {es : List Event} {p : Program}

/-- **ps.** In every state of every run from `init`, `ps` prints the header and a line for each of the first 50
queued processes that have not finished. All those queued are different ones and not `ps` itself; while no fork finds
the ring full, they are all the others. -/
theorem ps_prints (h0 : s.created = 0)
    (hrun : Run Step (boot s idleStack idlePml4 shellStack shellPml4 stdin ticks archive) es p.kernel)
    {names : Nat → List Byte} (hnames : ∀ q ∈ p.kernel.sched.queued,
      Spells (p.kernel.sched.pcbs q).pname (names q) ∧ (names q).length < 50) (buffer : Nat → Pspcb) :
    (∃ printBuffer entries, Returns (fun fuel => psMain buffer fuel p)
      ({ p with
          screen := p.screen.writes (psHeader ++ (p.kernel.sched.queued.take 50).flatMap (psLine p.kernel.sched names))
          printBuffer := printBuffer }, entries)) ∧
      p.kernel.sched.queued.Nodup ∧ (∀ q ∈ p.kernel.sched.queued, p.kernel.sched.Alive q ∧ q ≠ p.kernel.sched.active) ∧
      (Run (Guarded HasRoom Step) (boot s idleStack idlePml4 shellStack shellPml4 stdin ticks archive) es p.kernel →
        p.kernel.sched.queued.Perm (p.kernel.sched.alive.erase p.kernel.sched.active)) := by
  have h := scattered_boot h0 hrun
  have hfamily := family_boot h0 hrun
  refine ⟨?_, h.sched.nodup_queued h.alive, fun q hq => h.sched.mem_queued h.alive hq, fun hroom => ?_⟩
  · have hprintable : ∀ q ∈ p.kernel.sched.queued.take 50, Printable p.kernel.sched names q := fun q hq => by
      have hq := List.mem_of_mem_take hq
      obtain ⟨hpid, hlt⟩ := h.pid_queued (List.mem_filter.1 hq).1
      obtain ⟨hpos, hle⟩ := h.queue_created q (List.mem_filter.1 hq).1
      obtain ⟨hnonneg, hless⟩ := hfamily.ppid_lt hpos hle
      obtain ⟨hname, hshort⟩ := hnames q hq
      exact ⟨⟨q, hpid, hlt⟩, ⟨_, (Int.toNat_of_nonneg hnonneg).symm, by omega⟩, hname, hshort⟩
    exact psMain_eq hprintable buffer
  · have hsound := hroom.invariant Sound (.boot h0 ..) fun _ _ _ hi hs => (hi.step hs.1 hs.2).sound
    exact hsound.sched.queue.queued_perm h.alive

/-- A program in the place of the shell, right after the start. -/
def besideIdle : Program where
  kernel := shellRuns
  paths := ⟨0, fun _ => 0, fun _ => 0⟩
  screen := Screen.top fun _ => 0
  printBuffer := fun _ => 0

def idleName (_ : Nat) : List Byte := ascii "system_idle_process"

theorem besideIdle_queued : besideIdle.kernel.sched.queued = [1] := by decide

theorem besideIdle_name : Spells (besideIdle.kernel.sched.pcbs 1).pname (idleName 1) := by
  have hname : Spells (cString "system_idle_process") (idleName 1) := spells_cString rfl (by decide +kernel)
  have hcopy : (besideIdle.kernel.sched.pcbs 1).pname =
      (kstrcpy ((Pcb.fresh 1 0 0 default).pname) (cString "system_idle_process") 50).1 := rfl
  rw [hcopy, hname.kstrcpy (by decide +kernel)]
  exact spells_overwrite hname.ne_zero

/-- The idle process is what there is to list. -/
theorem ps_prints_idle : ∃ printBuffer entries, Returns (fun fuel => psMain default fuel besideIdle)
    ({ besideIdle with
        screen := besideIdle.screen.writes (ascii "PID    PPID    NAME\n1     0      system_idle_process\n")
        printBuffer := printBuffer }, entries) := by
  have hnames : ∀ q ∈ besideIdle.kernel.sched.queued,
      Spells (besideIdle.kernel.sched.pcbs q).pname (idleName q) ∧ (idleName q).length < 50 := fun q hq => by
    rw [besideIdle_queued, List.mem_singleton] at hq
    subst hq
    exact ⟨besideIdle_name, by decide +kernel⟩
  obtain ⟨hprints, -⟩ := ps_prints rfl shellRuns_reached hnames default
  have htext : psHeader ++ (besideIdle.kernel.sched.queued.take 50).flatMap
      (psLine besideIdle.kernel.sched idleName) =
        ascii "PID    PPID    NAME\n1     0      system_idle_process\n" := by
    rw [besideIdle_queued]
    decide +kernel
  rw [htext] at hprints
  exact hprints

/-- What `kill` says when it finds no one. -/
def noProcess (n : Nat) : List Byte := ascii "kill: no process found: " ++ decimalText n ++ [10]

theorem printf_noProcess {n : Nat} (hn : n < 2 ^ 31) (p : Program) : ∃ printBuffer,
    Returns (fun fuel => p.printf fuel (cString "kill: no process found: %d\n") [.int (BitVec.ofInt 32 n)])
      { p with screen := p.screen.writes (noProcess n), printBuffer := printBuffer } := by
  have hformat : Spells (cString "kill: no process found: %d\n")
      (ascii "kill: no process found: " ++ [percent, 0x64] ++ [10]) :=
    spells_cString (by decide +kernel) (by decide +kernel)
  have hprint := Program.printf_item _ [10] (by decide +kernel) (by decide) (.dec (BitVec.ofInt 32 n))
    (ofInt_ne_intMin hn) (fun _ => by rw [text_dec hn]; have := length_decimalText_le hn; omega) hformat p
  rw [text_dec hn] at hprint
  exact hprint

section calls
variable {argc : BitVec 32} {argv1 : Nat → Byte} {n : Nat}

/-- A number that an `int` holds goes through both casts. -/
theorem setWidth_atoi (hlt : n < 2 ^ 31) (hatoi : atoi argv1 = BitVec.ofNat 32 n) :
    (atoi argv1).setWidth 64 = BitVec.ofNat 64 n := by
  rw [hatoi]
  apply BitVec.eq_of_toNat_eq
  rw [BitVec.toNat_setWidth, BitVec.toNat_ofNat, BitVec.toNat_ofNat]
  omega

theorem killMain_found (hargc : 2 ≤ argc.toInt) (hlt : n < 2 ^ 31) (hatoi : atoi argv1 = BitVec.ofNat 32 n)
    (hret : (p.kernel.doKill (BitVec.ofNat 64 n) 9).2 = 0) (fuel : Nat) :
    killMain argc argv1 fuel p = some ({ p with kernel := (p.kernel.doKill (BitVec.ofNat 64 n) 9).1 }, 0) := by
  have hsig : (9 : BitVec 32).signExtend 64 = 9 := rfl
  simp only [killMain, if_neg (show ¬argc.toInt < 2 by omega), Program.kill, setWidth_atoi hlt hatoi, hsig, hret]
  rfl

theorem killMain_none (hargc : 2 ≤ argc.toInt) (hlt : n < 2 ^ 31) (hatoi : atoi argv1 = BitVec.ofNat 32 n)
    (hnone : p.kernel.doKill (BitVec.ofNat 64 n) 9 = (p.kernel, -1)) : ∃ printBuffer,
      Returns (fun fuel => killMain argc argv1 fuel p)
        ({ p with screen := p.screen.writes (noProcess n), printBuffer := printBuffer }, 0) := by
  have hsig : (9 : BitVec 32).signExtend 64 = 9 := rfl
  have hint : atoi argv1 = BitVec.ofInt 32 n := hatoi.trans (BitVec.ofInt_natCast ..).symm
  obtain ⟨printBuffer, m, hprint⟩ := printf_noProcess hlt p
  refine ⟨printBuffer, .of_le m fun fuel hfuel => ?_⟩
  have hprint := hprint fuel hfuel
  dsimp only at hprint
  rw [← hint] at hprint
  simp only [killMain, if_neg (show ¬argc.toInt < 2 by omega), Program.kill, setWidth_atoi hlt hatoi, hsig, hnone]
  rw [if_pos (by decide), hprint]
  rfl

end calls

/-- **kill.** In every state of every run from `init`, `kill` with a number finishes the queued process of this pid and
tells those who wait for it, no other pcb changes, and whatever comes then it does not run or show in `ps` again. If
there is none, `kill` says so and changes nothing. -/
theorem kill_number (h0 : s.created = 0)
    (hrun : Run Step (boot s idleStack idlePml4 shellStack shellPml4 stdin ticks archive) es p.kernel)
    {argc : BitVec 32} (hargc : 2 ≤ argc.toInt) {argv1 : Nat → Byte} {w : List Byte} (hw : Spells argv1 w)
    (hdigits : ∀ c ∈ w, IsDigit c) {n : Nat} (hn : readNumeral 10 (w.take 30) = n) (hlt : n < 2 ^ 31) :
    ∃ p', Returns (fun fuel => killMain argc argv1 fuel p) (p', 0) ∧
      (n ∈ p.kernel.sched.queue → p' = { p with kernel := p'.kernel } ∧ Killed p.kernel n 9 p'.kernel ∧
        p'.kernel.sched.queued = p.kernel.sched.queued.filter (· ≠ n) ∧
        ∀ later k', Run Step p'.kernel later k' →
          (k'.sched.pcbs n).status = .finished ∧ k'.sched.active ≠ n ∧ n ∉ k'.sched.queued) ∧
      (n ∉ p.kernel.sched.queue → ∃ printBuffer,
        p' = { p with screen := p.screen.writes (noProcess n), printBuffer := printBuffer }) := by
  have h := scattered_boot h0 hrun
  have hatoi : atoi argv1 = BitVec.ofNat 32 n := hn ▸ atoi_eq hw hdigits
  by_cases hqueue : n ∈ p.kernel.sched.queue
  · obtain ⟨hret, hkilled⟩ := h.doKill_pid hqueue 9
    obtain ⟨hpos, hle⟩ := h.queue_created n hqueue
    have h' := h.doKill (BitVec.ofNat 64 n) 9
    have hmain := killMain_found hargc hlt hatoi hret
    generalize p.kernel.doKill (BitVec.ofNat 64 n) 9 = r at hkilled h' hmain
    refine ⟨{ p with kernel := r.1 }, .of_le 0 fun fuel _ => hmain fuel,
      fun _ => ⟨rfl, hkilled, hkilled.queued, fun later k' hlater => ?_⟩, fun hq => absurd hqueue hq⟩
    obtain ⟨h'', hkept⟩ := h'.later_run hlater
    have hcreated : r.1.sched.created = p.kernel.sched.created := by
      rw [hkilled.only_pcbs]
      rfl
    have hfin := hkept.finished n (hcreated ▸ hle) (by rw [hkilled.victim])
    refine ⟨hfin, ?_, fun hq => of_decide_eq_true (List.mem_filter.1 hq).2 hfin⟩
    rintro rfl
    exact Pcb.runnable_ne_finished h''.active_runs hfin
  · obtain ⟨printBuffer, hmain⟩ := killMain_none hargc hlt hatoi (h.doKill_none hqueue hlt 9)
    exact ⟨_, hmain, fun hq => absurd hq hqueue, fun _ => ⟨printBuffer, rfl⟩⟩

/-- `kill 1`: the idle process is as mortal as any. -/
theorem kill_number_idle : ∃ p', Returns (fun fuel => killMain 2 (cString "1") fuel besideIdle) (p', 0) ∧
    p'.kernel.sched.queued = [] := by
  have hspells : Spells (cString "1") [0x31] := spells_cString rfl (by decide)
  obtain ⟨p', hret, hkills, -⟩ := kill_number (p := besideIdle) rfl shellRuns_reached
    (show 2 ≤ (2 : BitVec 32).toInt by decide) hspells (by decide) (n := 1) (by decide) (by decide)
  obtain ⟨-, -, hqueued, -⟩ := hkills (by decide)
  rw [besideIdle_queued] at hqueued
  exact ⟨p', hret, hqueued⟩

end main
end Sbuos
