import Sbuos.Alarm
import Sbuos.Interrupts
import Sbuos.Keystrokes
import Sbuos.Numerals
import Sbuos.Terminal
import Sbuos.TimeSlice
/-!
# The console (sys/unix_helpers.c:76-117, sys/timer_helpers.c:4-38, sys/stdin.c:121-128, include/sys/idt.h:48-65)

Three drivers share the display memory. Whoever prints, and the echo of what is typed, goes through `write_k`; the
keyboard interrupt shows the last key in row 23, and every tenth tick the time since boot beside it. What the decoders
read beyond their tables is arbitrary: the events carry it.

**`console_shows`**: whatever the order of prints, keys, ticks and system calls, the text is what was printed and
echoed, the time is right, and each driver stores to its own cells only.
-/
namespace Sbuos
open Lib

/-- The characters from `position` on, with their attributes. -/
def Screen.putCells (position : Nat) : List Byte → Screen → Screen
  | [], s => s
  | v :: vs, s => putCells (position + 2) vs ((s.store position v).store (position + 1) 0)

/-- `print_clk` (timer_helpers.c:4-15). -/
def printClk (h m s : BitVec 32) (buff : Nat → Byte) : Nat → Byte :=
  let digit (n : BitVec 32) : Byte := (0x30 + n).setWidth 8
  let buff := Function.update buff 0 (digit h)
  let buff := Function.update buff 1 0x3a
  let buff := Function.update buff 2 (digit (m.sdiv 10))
  let buff := Function.update buff 3 (digit (m.srem 10))
  let buff := Function.update buff 4 0x3a
  let buff := Function.update buff 5 (digit (s.sdiv 10))
  Function.update buff 6 (digit (s.srem 10))

structure Console where
  kernel : Kernel
  screen : Screen
  decoders : Keyboard.Decoders
  glyphBuffer : Fin 4 → Byte
  timeBuffer : Nat → Byte
  clk : Word

namespace Console

/-- `put_pressed_key` (unix_helpers.c:83-100). -/
def putPressedKey (key : Byte) (beyond : Fin 4 → Byte) (c : Console) : Console :=
  let fed := Keyboard.keyboardFeed key c.decoders.glyph
  let c := { c with decoders := { c.decoders with glyph := fed.st } }
  if fed.ret = 0 then c
  else
    let glyphs := fed.out.result.getD beyond
    { c with glyphBuffer := glyphs, screen := c.screen.putCells (160 * 23 + 2 * 48) (List.ofFn glyphs) }

/-- `buffer_add_char` (stdin.c:122-128). -/
def bufferAddChar (key : Byte) (beyond : Byte) (c : Console) : Option Console :=
  let fed := Keyboard.stdinKeyboardFeed key c.decoders.char
  let c := { c with decoders := { c.decoders with char := fed.st } }
  if fed.ret = 0 then some c
  else do
    let toPrint := fed.out.result.getD beyond
    let added ← c.kernel.stdin.addChar toPrint
    let kernel ← c.kernel.keyboard toPrint
    let c := { c with kernel := kernel }
    some (if added.ret ≠ 0 then { c with screen := c.screen.writeK toPrint } else c)

/-- `int_kbd_srv` (idt.h:49-56). -/
def intKbdSrv (key : Byte) (beyond : Fin 4 → Byte) (beyond' : Byte) (c : Console) : Option Console :=
  (c.putPressedKey key beyond).bufferAddChar key beyond'

/-- `tick_count` (timer_helpers.c:22-38) and whether it returns 1. -/
def tickCount (c : Console) : Console × Bool :=
  let c := { c with kernel := c.kernel.tickCount }
  if c.kernel.ticks % Kernel.printTickDivide = 1 then
    let clk := c.clk + 1
    let buff :=
      printClk ((clk / 3600).setWidth 32) ((clk % 3600 / 60).setWidth 32) ((clk % 60).setWidth 32) c.timeBuffer
    ({ c with clk := clk, timeBuffer := buff }, true)
  else (c, false)

/-- `for (int i = 0; _time_buffer[i]; ++i)` (unix_helpers.c:108-113). -/
def putTimeLoop (buff : Nat → Byte) : Nat → Nat → Screen → Option Screen
  | 0, _, _ => none
  | fuel + 1, i, s =>
    if buff i = 0 then some s else putTimeLoop buff fuel (i + 1) (s.putCells (160 * 23 + 2 * (56 + i)) [buff i])

/-- `put_time_since_boot` (unix_helpers.c:105-117). -/
def putTimeSinceBoot (fuel : Nat) (c : Console) : Option Console := do
  let (c, printTime) := c.tickCount
  if printTime then
    let screen ← putTimeLoop c.timeBuffer fuel 0 c.screen
    some { c with screen := screen }
  else some c

/-- `int_tmr_srv` (idt.h:59-65). -/
def intTmrSrv (fuel : Nat) (rsp : Word) (c : Console) : Option Console := do
  let c ← c.putTimeSinceBoot fuel
  let sched ← c.kernel.sched.preempt fuel rsp
  some { c with kernel := c.kernel.withSched sched }

/-- What happens next: someone prints, the keyboard or the clock interrupts, or another event of the kernel. -/
inductive Event
  | write (v : Byte)
  | key (b : Byte) (beyond : Fin 4 → Byte) (beyond' : Byte)
  | tick
  | kernel (e : Kernel.Event)

/-- A system call. -/
def IsCall : Kernel.Event → Bool
  | .key _ | .tick => false
  | _ => true

def handle (fuel : Nat) (rsp : Word) : Event → Console → Option Console
  | .write v, c => some { c with screen := c.screen.writeK v }
  | .key b beyond beyond', c => c.intKbdSrv b beyond beyond'
  | .tick, c => c.intTmrSrv fuel rsp
  | .kernel e, c => if IsCall e then (c.kernel.handle fuel rsp e).map fun k => { c with kernel := k } else none

def Step (c : Console) (e : Event) (c' : Console) : Prop := ∃ fuel rsp, c.handle fuel rsp e = some c'

/-- From boot: the cursor is at the top, and nothing has been typed. -/
def boot (kernel : Kernel) (mem : Nat → Byte) : Console where
  kernel := kernel
  screen := .top mem
  decoders := Keyboard.boot
  glyphBuffer := fun _ => 0x20
  timeBuffer := cString "0:00:00"
  clk := 0

end Console

/-! ## The status row -/

namespace Screen
variable {s : Screen} {t vs : List Byte} {v : Byte} {p i j : Nat}

theorem putCells_of_not_mem (hj : j < p ∨ p + 2 * vs.length ≤ j) : (s.putCells p vs).mem j = s.mem j := by
  induction vs generalizing s p with
  | nil => rfl
  | cons v vs ih =>
    rw [List.length_cons] at hj
    rw [putCells, ih (by omega)]
    simp only [store]
    rw [Function.update_of_ne (by omega), Function.update_of_ne (by omega)]

theorem putCells_get (hi : i < vs.length) : (s.putCells p vs).mem (p + 2 * i) = vs[i] := by
  induction vs generalizing s p i with
  | nil => cases hi
  | cons v vs ih =>
    rw [putCells]
    cases i with
    | zero =>
      rw [putCells_of_not_mem (by omega)]
      simp only [store]
      rw [Function.update_of_ne (by omega), Nat.mul_zero, Nat.add_zero, Function.update_self, List.getElem_cons_zero]
    | succ i =>
      have hnext := ih (s := (s.store p v).store (p + 1) 0) (p := p + 2) (Nat.lt_of_succ_lt_succ hi)
      rw [List.getElem_cons_succ, ← hnext]
      congr 1
      omega

theorem putCells_stores (hj : j ∈ (s.putCells p vs).stores) : j ∈ s.stores ∨ p ≤ j ∧ j < p + 2 * vs.length := by
  induction vs generalizing s p with
  | nil => exact .inl hj
  | cons v vs ih =>
    rw [putCells] at hj
    rw [List.length_cons]
    rcases ih hj with hj | hj
    · simp only [store, List.mem_cons] at hj
      rcases hj with rfl | rfl | hj
      · exact .inr (by omega)
      · exact .inr (by omega)
      · exact .inl hj
    · exact .inr (by omega)

theorem putCells_cursor : (s.putCells p vs).row = s.row ∧ (s.putCells p vs).col = s.col := by
  induction vs generalizing s p with
  | nil => exact ⟨rfl, rfl⟩
  | cons v vs ih =>
    rw [putCells]
    exact ih

/-- The text does not change. -/
theorem Before.putCells (h : Before t s) (hc : s.col < 80) (hp : 160 * 23 ≤ p) : Before t (s.putCells p vs) := by
  have hlt := h.length_lt hc
  obtain ⟨hrow, hcol⟩ := @putCells_cursor s vs p
  refine ⟨by rw [hrow, hcol]; exact h.length_eq, by rw [hrow]; exact h.row_le, fun i hi => ?_⟩
  rw [← h.char i hi, Screen.char, Screen.char, putCells_of_not_mem (by omega)]

end Screen

/-- The time in hours, minutes and seconds. -/
def clockText (n : Nat) : List Byte :=
  [decChar (n / 3600), 0x3a, decChar (n % 3600 / 60 / 10), decChar (n % 3600 / 60 % 10), 0x3a,
    decChar (n % 60 / 10), decChar (n % 60 % 10)]

section clock
variable {buff : Nat → Byte} {n d : Nat}

theorem decChar_ne_zero (hd : d < 10) : decChar d ≠ 0 := by
  revert d
  decide

/-- `'0' + d`. -/
theorem decChar_eq {x : BitVec 32} (hx : x.toNat = d) : (0x30 + x).setWidth 8 = decChar d := by
  apply BitVec.eq_of_toNat_eq
  rw [decChar, BitVec.toNat_setWidth, BitVec.toNat_add, BitVec.toNat_add, hx, BitVec.toNat_ofNat]
  change (48 + d) % 2 ^ 32 % 2 ^ 8 = (48 + d % 2 ^ 8) % 2 ^ 8
  omega

theorem div_rem_ten {x : BitVec 32} (hx : x.toNat = d) (hd : d < 60) :
    (x.sdiv 10).toNat = d / 10 ∧ (x.srem 10).toNat = d % 10 := by
  have key : ∀ d < 60, ((BitVec.ofNat 32 d).sdiv 10).toNat = d / 10 ∧ ((BitVec.ofNat 32 d).srem 10).toNat = d % 10 := by
    decide
  obtain rfl : x = BitVec.ofNat 32 d := BitVec.eq_of_toNat_eq (by rw [hx, BitVec.toNat_ofNat]; omega)
  exact key d hd

/-- **`print_clk`**, below ten hours. -/
theorem printClk_eq {clk : Word} (hclk : clk.toNat = n) (hn : n < 36000) (i : Nat) (hi : i < 7) :
    printClk ((clk / 3600).setWidth 32) ((clk % 3600 / 60).setWidth 32) ((clk % 60).setWidth 32) buff i =
      (clockText n)[i] := by
  have hh : ((clk / 3600).setWidth 32).toNat = n / 3600 := by
    rw [BitVec.toNat_setWidth, BitVec.toNat_udiv, hclk]
    change n / 3600 % 2 ^ 32 = _
    omega
  have hm : ((clk % 3600 / 60).setWidth 32).toNat = n % 3600 / 60 := by
    rw [BitVec.toNat_setWidth, BitVec.toNat_udiv, BitVec.toNat_umod, hclk]
    change n % 3600 / 60 % 2 ^ 32 = _
    omega
  have hs : ((clk % 60).setWidth 32).toNat = n % 60 := by
    rw [BitVec.toNat_setWidth, BitVec.toNat_umod, hclk]
    change n % 60 % 2 ^ 32 = _
    omega
  obtain ⟨hmd, hmr⟩ := div_rem_ten hm (by omega)
  obtain ⟨hsd, hsr⟩ := div_rem_ten hs (by omega)
  simp only [printClk, decChar_eq hh, decChar_eq hmd, decChar_eq hmr, decChar_eq hsd, decChar_eq hsr]
  interval_cases i <;> rfl

theorem printClk_nul (h m s : BitVec 32) : printClk h m s buff 7 = buff 7 := rfl

theorem clockText_ne_zero (hn : n < 36000) : ∀ v ∈ clockText n, v ≠ 0 := by
  have hdigit : ∀ d < 10, decChar d ≠ 0 := fun d hd => decChar_ne_zero hd
  simp only [clockText, List.forall_mem_cons]
  exact ⟨hdigit _ (by omega), by decide, hdigit _ (by omega), hdigit _ (by omega), by decide, hdigit _ (by omega),
    hdigit _ (by omega), fun _ h => by cases h⟩

/-- The loop stores what the buffer holds up to its NUL. -/
theorem Console.putTimeLoop_eq {fuel i : Nat} {s s' : Screen} (hnul : buff 7 = 0) (hi : i ≤ 7)
    (h : Console.putTimeLoop buff fuel i s = some s') : ∃ vs : List Byte, s' = s.putCells (160 * 23 + 2 * (56 + i)) vs ∧
      i + vs.length ≤ 7 ∧ (∀ k (hk : k < vs.length), vs[k] = buff (i + k)) ∧ buff (i + vs.length) = 0 := by
  induction fuel generalizing i s with
  | zero => cases h
  | succ fuel ih =>
    rw [Console.putTimeLoop] at h
    split at h
    case isTrue hz => exact ⟨[], (Option.some.inj h).symm, hi, fun _ hk => (Nat.not_lt_zero _ hk).elim, hz⟩
    case isFalse hz =>
      have hne : i ≠ 7 := by
        rintro rfl
        exact hz hnul
      obtain ⟨vs, rfl, hlen, hget, hend⟩ := ih (by omega) h
      refine ⟨buff i :: vs, rfl, ?_, fun k hk => ?_, ?_⟩
      · rw [List.length_cons]
        omega
      · cases k with
        | zero => rfl
        | succ k =>
          rw [List.getElem_cons_succ, hget]
          congr 1
          omega
      · rw [List.length_cons, ← hend]
        congr 1
        omega

end clock

/-! ## What each event does -/

namespace Console
variable {c c' : Console} {e : Event} {mem : Nat → Byte} {b : Byte} {beyond : Fin 4 → Byte} {beyond' : Byte} {n : Nat}

/-- The clock interrupts, the glyphs displayed, and the bytes that go to `write_k`. -/
def Event.ticks : Event → Nat
  | .tick => 1
  | _ => 0

def displayed (c : Console) : Event → List (Fin 4 → Byte)
  | .key b beyond _ =>
    let fed := Keyboard.keyboardFeed b c.decoders.glyph
    if fed.ret = 0 then [] else [fed.out.result.getD beyond]
  | _ => []

/-- What is typed is echoed unless `_add_char` returns 0. -/
def echoed (c : Console) (b beyond' : Byte) : List Byte :=
  let fed := Keyboard.stdinKeyboardFeed b c.decoders.char
  if fed.ret = 0 then []
  else
    let v := fed.out.result.getD beyond'
    if (c.kernel.stdin.addChar v).any fun added => added.ret ≠ 0 then [v] else []

def printed (c : Console) : Event → List Byte
  | .write v => [v]
  | .key b _ beyond' => c.echoed b beyond'
  | _ => []

/-- The cells of the key display and of the clock. -/
def StatusCell (i : Nat) : Prop :=
  (160 * 23 + 2 * 48 ≤ i ∧ i < 160 * 23 + 2 * 52) ∨ (160 * 23 + 2 * 56 ≤ i ∧ i < 160 * 23 + 2 * 63)

theorem putPressedKey_eq (c : Console) (b : Byte) (beyond : Fin 4 → Byte) (beyond' : Byte) :
    (c.putPressedKey b beyond).screen =
      (c.displayed (.key b beyond beyond')).foldl (fun s g => s.putCells (160 * 23 + 2 * 48) (List.ofFn g)) c.screen ∧
    (c.putPressedKey b beyond).kernel = c.kernel ∧ (c.putPressedKey b beyond).clk = c.clk ∧
    (c.putPressedKey b beyond).timeBuffer = c.timeBuffer ∧
    (c.putPressedKey b beyond).decoders.char = c.decoders.char := by
  simp only [putPressedKey, displayed]
  split <;> exact ⟨rfl, rfl, rfl, rfl, rfl⟩

theorem keyboard_ticks {k k' : Kernel} {v : Byte} (h : k.keyboard v = some k') : k'.ticks = k.ticks := by
  obtain ⟨added, -, h⟩ := Option.bind_eq_some_iff.1 h
  obtain rfl := Option.some.inj h
  split <;> rfl

theorem bufferAddChar_eq (h : c.bufferAddChar b beyond' = some c') :
    c'.screen = (c.echoed b beyond').foldl (fun s v => s.writeK v) c.screen ∧ c'.kernel.ticks = c.kernel.ticks ∧
      c'.clk = c.clk ∧ c'.timeBuffer = c.timeBuffer := by
  simp only [bufferAddChar] at h
  rw [echoed]
  split at h
  case isTrue hret =>
    obtain rfl := Option.some.inj h
    rw [if_pos hret]
    exact ⟨rfl, rfl, rfl, rfl⟩
  case isFalse hret =>
    obtain ⟨added, hadd, h⟩ := Option.bind_eq_some_iff.1 h
    obtain ⟨kernel, hkey, h⟩ := Option.bind_eq_some_iff.1 h
    obtain rfl := Option.some.inj h
    have hticks := keyboard_ticks hkey
    rw [if_neg hret]
    simp only [hadd, Option.any_some, decide_eq_true_eq]
    split
    · exact ⟨rfl, hticks, rfl, rfl⟩
    · exact ⟨rfl, hticks, rfl, rfl⟩

/-- No system call counts a tick. -/
theorem call_ticks {k k' : Kernel} {e : Kernel.Event} {fuel : Nat} {rsp : Word} (he : IsCall e = true)
    (h : k.handle fuel rsp e = some k') : k'.ticks = k.ticks := by
  cases e with
  | key v => cases he
  | tick => cases he
  | fork kernelStack pml4 pml4' =>
    obtain ⟨⟨k₁, r⟩, hfork, rfl⟩ := Option.map_eq_some_iff.1 h
    unfold Kernel.doFork at hfork
    split at hfork <;> cases hfork
    rfl
  | kill pid sig =>
    cases h
    unfold Kernel.doKill
    dsimp only
    split <;> rfl
  | read fd size buffer =>
    obtain ⟨-, -, a, -, rfl⟩ | ⟨-, -, hblock⟩ | ⟨-, i, r, -, rfl⟩ := Kernel.doRead_cases h
    · rfl
    · obtain ⟨t, -, rfl⟩ := Option.map_eq_some_iff.1 hblock
      rfl
    · rfl
  | start ip =>
    obtain ⟨-, rfl⟩ := Kernel.kThreadKernel_eq_some h
    rfl
  | exit | waitpid | alarm | yield | exec =>
    obtain ⟨t, -, rfl⟩ := Option.map_eq_some_iff.1 h
    rfl

/-! ## Runs -/

/-- After `n` ticks the text printed is on the screen, row 23 shows the last glyphs and the time, and nothing else
has been stored to. -/
structure Shows (mem : Nat → Byte) (text : List Byte) (glyphs : List (Fin 4 → Byte)) (n : Nat) (c : Console) :
    Prop where
  before : Screen.Before (text.foldl Screen.feed []) c.screen
  col_lt : c.screen.col < 80
  keys : ∀ i : Fin 4,
    c.screen.char 23 (48 + i) = (glyphs.getLast?.map fun g => g i).getD (mem (160 * 23 + 2 * (48 + i)))
  stores : ∀ i ∈ c.screen.stores, i < 160 * 23 ∨ StatusCell i
  rest : ∀ i, 160 * 23 ≤ i → ¬StatusCell i → c.screen.mem i = mem i
  nul : c.timeBuffer 7 = 0
  ticks : n < 2 ^ 64 → c.kernel.ticks.toNat = n
  clk : n < 359991 → c.clk.toNat = (n + 9) / 10
  time : n < 359991 → 0 < n → ∀ i (_ : i < 7), c.screen.char 23 (56 + i) = (clockText ((n + 9) / 10))[i]

/-- The clock and its buffer are the same. -/
structure SameClock (c c' : Console) : Prop where
  ticks : c'.kernel.ticks = c.kernel.ticks
  clk : c'.clk = c.clk
  timeBuffer : c'.timeBuffer = c.timeBuffer

namespace Shows
variable {text : List Byte} {glyphs : List (Fin 4 → Byte)}

theorem boot {kernel : Kernel} (hk : kernel.ticks = 0) (mem : Nat → Byte) :
    Shows mem [] [] 0 (Console.boot kernel mem) where
  before := .top mem
  col_lt := Nat.zero_lt_succ 79
  keys i := rfl
  stores i hi := by cases hi
  rest i _ _ := rfl
  nul := rfl
  ticks _ := congrArg BitVec.toNat hk
  clk _ := rfl
  time _ h0 := absurd h0 (Nat.lt_irrefl 0)

/-- Printing leaves row 23 alone. -/
theorem prints (h : Shows mem text glyphs n c) (vs : List Byte)
    (hs : c'.screen = vs.foldl (fun s v => s.writeK v) c.screen) (hsame : SameClock c c') :
    Shows mem (text ++ vs) glyphs n c' := by
  obtain ⟨hbefore, hcol, habove⟩ := h.before.writes h.col_lt vs
  rw [← hs] at hbefore hcol habove
  have hrow : ∀ i, c'.screen.char 23 i = c.screen.char 23 i := fun i => habove.mem _ (Nat.le_add_right _ _)
  exact
    { before := by rw [List.foldl_append]; exact hbefore
      col_lt := hcol
      keys := fun i => by rw [hrow, h.keys]
      stores := fun i hi => (habove.stores i hi).elim (h.stores i) .inl
      rest := fun i hi hcell => by rw [habove.mem i hi, h.rest i hi hcell]
      nul := by rw [hsame.timeBuffer, h.nul]
      ticks := fun hn => by rw [hsame.ticks, h.ticks hn]
      clk := fun hn => by rw [hsame.clk, h.clk hn]
      time := fun hn h0 i hi => by rw [hrow, h.time hn h0 i hi] }

/-- A key is displayed. -/
theorem displays (h : Shows mem text glyphs n c) (g : Fin 4 → Byte)
    (hs : c'.screen = c.screen.putCells (160 * 23 + 2 * 48) (List.ofFn g)) (hsame : SameClock c c') :
    Shows mem text (glyphs ++ [g]) n c' := by
  have hother : ∀ i, ¬(160 * 23 + 2 * 48 ≤ i ∧ i < 160 * 23 + 2 * 52) → c'.screen.mem i = c.screen.mem i := by
    intro i hi
    rw [hs, Screen.putCells_of_not_mem]
    rw [List.length_ofFn]
    omega
  exact
    { before := by rw [hs]; exact h.before.putCells h.col_lt (by decide)
      col_lt := by rw [hs, Screen.putCells_cursor.2]; exact h.col_lt
      keys := fun i => by
        have hi := i.isLt
        have hcell : i < (List.ofFn g).length := by rw [List.length_ofFn]; exact hi
        have hget := Screen.putCells_get (s := c.screen) (p := 160 * 23 + 2 * 48) hcell
        rw [List.getElem_ofFn] at hget
        rw [List.getLast?_concat, Option.map_some, Option.getD_some, Screen.char, hs, Nat.mul_add, ← Nat.add_assoc]
        exact hget
      stores := fun i hi => by
        rw [hs] at hi
        rcases Screen.putCells_stores hi with hi | hi
        · exact h.stores i hi
        · rw [List.length_ofFn] at hi
          exact .inr (.inl (by omega))
      rest := fun i hi hcell => by rw [hother i fun hi => hcell (.inl hi), h.rest i hi hcell]
      nul := by rw [hsame.timeBuffer, h.nul]
      ticks := fun hn => by rw [hsame.ticks, h.ticks hn]
      clk := fun hn => by rw [hsame.clk, h.clk hn]
      time := fun hn h0 i hi => by rw [Screen.char, hother _ (by omega), ← h.time hn h0 i hi]; rfl }

/-- The tick is counted. -/
theorem counts (h : Shows mem text glyphs n c) (hn : n + 1 < 2 ^ 64) :
    c.kernel.tickCount.ticks.toNat = n + 1 := by
  have hticks := h.ticks (by omega)
  rw [Kernel.tickCount_ticks (by omega), hticks]

/-- A tick that prints no time. -/
theorem silent (h : Shows mem text glyphs n c) (hprint : n + 1 < 2 ^ 64 → (n + 1) % 10 ≠ 1) :
    Shows mem text glyphs (n + 1) { c with kernel := c.kernel.tickCount } where
  before := h.before
  col_lt := h.col_lt
  keys := h.keys
  stores := h.stores
  rest := h.rest
  nul := h.nul
  ticks := h.counts
  clk hn := by
    have hmod := hprint (by omega)
    rw [h.clk (by omega)]
    omega
  time hn _ i hi := by
    have hmod := hprint (by omega)
    have hsame : (n + 1 + 9) / 10 = (n + 9) / 10 := by omega
    simp only [hsame]
    exact h.time (by omega) (by omega) i hi

/-- A tick that prints the time. -/
theorem printsTime (h : Shows mem text glyphs n c) {buff : Nat → Byte} {clk : Word} {vs : List Byte} (hnul : buff 7 = 0)
    (hclk : n + 1 < 359991 → clk.toNat = (n + 1 + 9) / 10)
    (htext : n + 1 < 359991 → ∀ i (_ : i < 7), buff i = (clockText ((n + 1 + 9) / 10))[i])
    (hlen : 0 + vs.length ≤ 7) (hget : ∀ k (hk : k < vs.length), vs[k] = buff (0 + k))
    (hend : buff (0 + vs.length) = 0) :
    Shows mem text glyphs (n + 1) { c with
      kernel := c.kernel.tickCount
      screen := c.screen.putCells (160 * 23 + 2 * (56 + 0)) vs
      timeBuffer := buff
      clk := clk } := by
  have hother : ∀ i, ¬(160 * 23 + 2 * 56 ≤ i ∧ i < 160 * 23 + 2 * 63) →
      (c.screen.putCells (160 * 23 + 2 * (56 + 0)) vs).mem i = c.screen.mem i := fun i hi =>
    Screen.putCells_of_not_mem (by omega)
  exact
    { before := h.before.putCells h.col_lt (by decide)
      col_lt := by dsimp only; rw [Screen.putCells_cursor.2]; exact h.col_lt
      keys := fun i => by
        have hi := i.isLt
        rw [← h.keys i]
        exact hother _ (by omega)
      stores := fun i hi => by
        rcases Screen.putCells_stores hi with hi | hi
        · exact h.stores i hi
        · exact .inr (.inr (by omega))
      rest := fun i hi hcell => by rw [← h.rest i hi hcell]; exact hother i fun hi => hcell (.inr hi)
      nul := hnul
      ticks := h.counts
      clk := hclk
      time := fun hn _ i hi => by
        -- the text has no NUL, so all of it has been stored
        have hall : vs.length = 7 := by
          by_contra hne
          rw [htext hn _ (by omega)] at hend
          exact clockText_ne_zero (by omega) _ (List.getElem_mem _) hend
        have hcell := Screen.putCells_get (s := c.screen) (p := 160 * 23 + 2 * (56 + 0)) (hall ▸ hi : i < vs.length)
        rw [hget, Nat.zero_add, htext hn i hi] at hcell
        rw [← hcell, Screen.char]
        congr 1
        omega }

/-- The time is displayed, or the tick only counted. -/
theorem tick (h : Shows mem text glyphs n c) {fuel : Nat} {rsp : Word} (ht : c.intTmrSrv fuel rsp = some c') :
    Shows mem text glyphs (n + 1) c' := by
  obtain ⟨c₁, ht₁, ht⟩ := Option.bind_eq_some_iff.1 ht
  obtain ⟨sched, -, ht⟩ := Option.bind_eq_some_iff.1 ht
  obtain rfl := Option.some.inj ht
  suffices hshows : Shows mem text glyphs (n + 1) c₁ from
    ⟨hshows.before, hshows.col_lt, hshows.keys, hshows.stores, hshows.rest, hshows.nul, hshows.ticks, hshows.clk,
      hshows.time⟩
  have hlooks : n + 1 < 2 ^ 64 → (c.kernel.tickCount.ticks % Kernel.printTickDivide = 1 ↔ (n + 1) % 10 = 1) := by
    intro hn
    rw [← BitVec.toNat_inj, BitVec.toNat_umod, h.counts hn]
    rfl
  simp only [putTimeSinceBoot, tickCount] at ht₁
  split at ht₁
  case isFalse hprint =>
    obtain rfl := Option.some.inj ht₁
    exact h.silent fun hn hmod => hprint ((hlooks hn).2 hmod)
  case isTrue hprint =>
    simp only [if_true] at ht₁
    have hclk : n + 1 < 359991 → (c.clk + 1).toNat = (n + 1 + 9) / 10 := by
      intro hn
      have hold := h.clk (by omega)
      have hmod := (hlooks (by omega)).1 hprint
      rw [BitVec.toNat_add_of_lt (by rw [hold]; change _ + 1 < 2 ^ 64; omega), hold]
      change _ + 1 = _
      omega
    have htext : n + 1 < 359991 →
        ∀ i (_ : i < 7), printClk _ _ _ c.timeBuffer i = (clockText ((n + 1 + 9) / 10))[i] := fun hn i hi =>
      printClk_eq (hclk hn) (by omega) i hi
    generalize hbuff : printClk _ _ _ c.timeBuffer = buff at ht₁ htext
    obtain ⟨screen, hloop, ht₁⟩ := Option.bind_eq_some_iff.1 ht₁
    obtain rfl := Option.some.inj ht₁
    have hnul : buff 7 = 0 := by
      rw [← hbuff]
      exact (printClk_nul ..).trans h.nul
    obtain ⟨vs, rfl, hlen, hget, hend⟩ := putTimeLoop_eq hnul (Nat.zero_le 7) hloop
    exact h.printsTime hnul hclk htext hlen hget hend

/-- A key goes to the display and then to the ring. -/
theorem key (h : Shows mem text glyphs n c) (hs : c.intKbdSrv b beyond beyond' = some c') :
    Shows mem (text ++ c.printed (.key b beyond beyond')) (glyphs ++ c.displayed (.key b beyond beyond')) n c' := by
  obtain ⟨hscreen, hkernel, hclk, hbuff, hchar⟩ := putPressedKey_eq c b beyond beyond'
  obtain ⟨hscreen', hticks', hclk', hbuff'⟩ := bufferAddChar_eq hs
  have hsame : SameClock c (c.putPressedKey b beyond) := ⟨by rw [hkernel], hclk, hbuff⟩
  have hechoed : (c.putPressedKey b beyond).echoed b beyond' = c.printed (.key b beyond beyond') := by
    rw [printed, echoed, echoed, hchar, hkernel]
  have hdisplayed : Shows mem text (glyphs ++ c.displayed (.key b beyond beyond')) n (c.putPressedKey b beyond) := by
    simp only [displayed] at hscreen ⊢
    split at hscreen
    case isTrue hret =>
      have hprints := h.prints [] hscreen hsame
      rw [List.append_nil] at hprints
      rw [if_pos hret, List.append_nil]
      exact hprints
    case isFalse hret =>
      rw [if_neg hret]
      exact h.displays _ hscreen hsame
  rw [← hechoed]
  exact hdisplayed.prints _ hscreen' ⟨hticks', hclk', hbuff'⟩

/-- **One event.** -/
theorem step (h : Shows mem text glyphs n c) (hs : Step c e c') :
    Shows mem (text ++ c.printed e) (glyphs ++ c.displayed e) (n + e.ticks) c' := by
  obtain ⟨fuel, rsp, hs⟩ := hs
  cases e with
  | write v =>
    obtain rfl := Option.some.inj hs
    simp only [displayed, List.append_nil]
    exact h.prints [v] rfl ⟨rfl, rfl, rfl⟩
  | key b beyond beyond' => exact h.key hs
  | tick =>
    simp only [printed, displayed, List.append_nil]
    exact h.tick hs
  | kernel e =>
    rw [handle] at hs
    split at hs
    case isTrue he =>
      obtain ⟨k, hk, rfl⟩ := Option.map_eq_some_iff.1 hs
      have hprints : Shows mem (text ++ []) glyphs n { c with kernel := k } :=
        h.prints [] rfl ⟨call_ticks he hk, rfl, rfl⟩
      simp only [displayed, List.append_nil]
      exact hprints
    case isFalse => cases hs

end Shows

/-- **The console.** In every run from boot, in whatever order processes print, keys and ticks come in and the kernel
does what else it does, the text is what was printed and echoed, row 23 shows the last glyphs and, for ten hours, the
time, and every store is to the text's cells, the key display's or the clock's. -/
theorem console_shows {kernel : Kernel} (hk : kernel.ticks = 0) (mem : Nat → Byte) {is : List (Console × Event)}
    (hrun : Run (Traced Step) (boot kernel mem) is c) :
    Shows mem (is.flatMap fun i => i.1.printed i.2) (is.flatMap fun i => i.1.displayed i.2)
      (is.map fun i => i.2.ticks).sum c := by
  refine hrun.history (fun is c => Shows mem (is.flatMap fun i => i.1.printed i.2)
    (is.flatMap fun i => i.1.displayed i.2) (is.map fun i => i.2.ticks).sum c) (.boot hk mem) ?_
  rintro is t ⟨s, e⟩ u h ⟨rfl, hs⟩
  simp only [List.flatMap_append, List.flatMap_singleton, List.map_append, List.sum_append, List.map_singleton,
    List.sum_singleton]
  exact h.step hs

/-- An `A` and a tick. -/
theorem console_shows_a : ∃ c : Console, c.screen.char 0 0 = 0x41 ∧ c.screen.char 23 62 = 0x31 := by
  have hk : (Kernel.mk default .init 0 default).ticks = 0 := rfl
  have h0 : Run (Traced Step) (boot ⟨default, .init, 0, default⟩ fun _ => 0) [] _ := .nil
  obtain ⟨c₁, h₁⟩ : ∃ c₁, Step (boot ⟨default, .init, 0, default⟩ fun _ => 0) (.write 0x41) c₁ := ⟨_, 0, 0, rfl⟩
  obtain ⟨c₂, h₂⟩ : ∃ c₂, Step c₁ .tick c₂ := by
    obtain ⟨fuel, rsp, h₁⟩ := h₁
    obtain rfl := Option.some.inj h₁
    exact ⟨_, 8, 0, rfl⟩
  have hrun := (h0.snoc (i := (_, .write 0x41)) ⟨rfl, h₁⟩).snoc (i := (_, .tick)) ⟨rfl, h₂⟩
  have h : Shows (fun _ => 0) [0x41] [] 1 c₂ := console_shows hk _ hrun
  exact ⟨c₂, h.before.char 0 (by decide), h.time (by decide) (by decide) 6 (by decide)⟩

end Console
end Sbuos
