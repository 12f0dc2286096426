import Mathlib.Data.Fin.VecNotation
import Sbuos.Sysutil
import Sbuos.Lib.Logged
import Sbuos.Lib.Run
/-!
# The keyboard decoders (sys/keyboard_helpers.c, sys/stdin.c:5-8, 63-118)

`int_kbd_srv` feeds every scan code to two decoders, `keyboard_feed` for the key display and `_stdin_keyboard_feed`
for the input ring. They are the same machine written twice, with two pairs of tables: a byte is remembered as the
key, and the bytes of its release are counted, not looked at. `decoders_agree` is the lockstep.

A read of a table logs its index; beyond the terminating NUL it has no result. The decoder goes on regardless.
-/
namespace Sbuos
open Lib

/-- `S_INPUT` and so on (keyboard_helpers.h:4-9). -/
inductive KeyState
  | input | need1 | need2 | finished
  deriving DecidableEq

/-- The statics of a decoder. -/
structure Keyboard where
  state : KeyState
  key : Nat
  shift : Int
  ctrl : Int
  deriving DecidableEq

namespace Keyboard

/-- `K_SHIFTDOWN`, `K_CTRLDOWN` (keyboard_helpers.h:13-14). -/
def shiftDown : Byte := 0x2a
def ctrlDown : Byte := 0x1d

/-- The initial values (keyboard_helpers.c:4, stdin.c:5). -/
def init : Keyboard := ⟨.input, 0, 0, 0⟩

/-- `table[i]`. -/
def charAt (table : String) (i : Nat) : Logged Nat Byte :=
  ⟨[i], if i ≤ table.length then some (cString table i) else none⟩

/-- A decoder after one byte: what it returns, and what it has put into its buffer if that is 1. -/
structure Fed (α : Type) where
  st : Keyboard
  ret : Int
  out : Logged Nat α

/-! ## The key display's -/

/-- `_smalls`, `_capitals` (keyboard_helpers.c:5-7). -/
def smalls : String := " `1234567890-=  qwertyuiop[]\\ asdfghjkl;'   zxcvbnm,./     "
def capitals : String := " ~!@#$%^&*()_+  QWERTYUIOP\x7b\x7d| ASDFGHJKL:\"   ZXCVBNM<>?     "

/-- `print_glyph` (keyboard_helpers.c:11-40). -/
def printGlyph (k : Keyboard) : Logged Nat (Fin 4 → Byte) :=
  if k.key = 0x01 then pure ![69, 83, 67, 32]
  else if k.key = 0x0e then pure ![32, 92, 66, 32]
  else if k.key = 0x0f then pure ![32, 92, 84, 32]
  else if k.key = 0x1c then pure ![32, 92, 78, 32]
  else do
    let c ← if k.shift ≠ 0 ∨ k.ctrl ≠ 0 then charAt capitals k.key else charAt smalls k.key
    pure ![32, if k.ctrl ≠ 0 then 94 else 32, c, 32]

/-- `keyboard_feed` (keyboard_helpers.c:43-73). -/
def keyboardFeed (key : Byte) (k : Keyboard) : Fed (Fin 4 → Byte) :=
  let k :=
    if k.state = .need1 then { k with state := .finished }
    else if k.state = .need2 then { k with state := .need1 }
    else if k.state = .input then
      if key = ctrlDown then { k with ctrl := -1 }
      else if key = shiftDown then { k with shift := -1 }
      else
        let k := { k with key := key.toNat }
        if k.ctrl ≠ 0 ∨ k.shift ≠ 0 then { k with state := .need2 } else { k with state := .need1 }
    else k
  if k.state = .finished then
    let out := k.printGlyph
    ⟨{ k with state := .input, shift := 0, ctrl := 0, key := 0 }, 1, out⟩
  else ⟨k, 0, .lift none⟩

/-! ## The input ring's -/

/-- `__smalls`, `__capitals` (stdin.c:6-8). -/
def stdinSmalls : String := " `1234567890-=  qwertyuiop[]\\ asdfghjkl;'   zxcvbnm,./     "
def stdinCapitals : String := " ~!@#$%^&*()_+  QWERTYUIOP\x7b\x7d| ASDFGHJKL:\"   ZXCVBNM<>?     "

/-- `fill_single_elem_buffer` (stdin.c:63-85). -/
def fillSingleElemBuffer (k : Keyboard) : Logged Nat Byte := do
  let c ←
    if k.key = 0x01 then pure 0
    else if k.key = 0x0e then pure 8
    else if k.key = 0x0f then pure 9
    else if k.key = 0x1c then pure 10
    else if k.shift ≠ 0 ∨ k.ctrl ≠ 0 then charAt stdinCapitals k.key
    else charAt stdinSmalls k.key
  pure (if k.ctrl ≠ 0 then c - 64 else c)

/-- `_stdin_keyboard_feed` (stdin.c:87-118). -/
def stdinKeyboardFeed (key : Byte) (k : Keyboard) : Fed Byte :=
  let k :=
    if k.state = .need1 then { k with state := .finished }
    else if k.state = .need2 then { k with state := .need1 }
    else if k.state = .input then
      if key = ctrlDown then { k with ctrl := -1 }
      else if key = shiftDown then { k with shift := -1 }
      else
        let k := { k with key := key.toNat }
        if k.ctrl ≠ 0 ∨ k.shift ≠ 0 then { k with state := .need2 } else { k with state := .need1 }
    else k
  if k.state = .finished then
    let k := { k with state := .input }
    let out := k.fillSingleElemBuffer
    ⟨{ k with shift := 0, ctrl := 0, key := 0 }, 1, out⟩
  else ⟨k, 0, .lift none⟩

/-! ## What a byte does -/

/-- Both decoders' next state. -/
def next (key : Byte) (k : Keyboard) : Keyboard :=
  match k.state with
  | .need1 | .finished => init
  | .need2 => { k with state := .need1 }
  | .input =>
    if key = ctrlDown then { k with ctrl := -1 }
    else if key = shiftDown then { k with shift := -1 }
    else ⟨if k.ctrl ≠ 0 ∨ k.shift ≠ 0 then .need2 else .need1, key.toNat, k.shift, k.ctrl⟩

section feed
variable {k : Keyboard} {b : Byte} {bs cs : List Byte} {n : Nat}

theorem next_state (b : Byte) (k : Keyboard) : (next b k).state ≠ .finished := by
  rw [next]
  split
  · decide
  · decide
  · simp
  · split_ifs <;> simp_all

/-- **One byte to the key display's decoder.** It completes a character in `S_NEED_1`. -/
theorem keyboardFeed_eq (hk : k.state ≠ .finished) : keyboardFeed b k =
    if k.state = .need1 then ⟨init, 1, k.printGlyph⟩ else ⟨next b k, 0, .lift none⟩ := by
  obtain ⟨state, key, shift, ctrl⟩ := k
  cases state with
  | finished => exact absurd rfl hk
  | need1 => rfl
  | need2 => rfl
  | input =>
    by_cases hc : b = ctrlDown
    · simp [keyboardFeed, next, hc]
    · by_cases hs : b = shiftDown
      · simp [keyboardFeed, next, hs, shiftDown, ctrlDown]
      · by_cases hm : ctrl ≠ 0 ∨ shift ≠ 0
        · simp [keyboardFeed, next, hc, hs, hm]
        · simp [keyboardFeed, next, hc, hs, hm]

/-- **One byte to the input ring's decoder.** -/
theorem stdinKeyboardFeed_eq (hk : k.state ≠ .finished) : stdinKeyboardFeed b k =
    if k.state = .need1 then ⟨init, 1, k.fillSingleElemBuffer⟩ else ⟨next b k, 0, .lift none⟩ := by
  obtain ⟨state, key, shift, ctrl⟩ := k
  cases state with
  | finished => exact absurd rfl hk
  | need1 => rfl
  | need2 => rfl
  | input =>
    by_cases hc : b = ctrlDown
    · simp [stdinKeyboardFeed, next, hc]
    · by_cases hs : b = shiftDown
      · simp [stdinKeyboardFeed, next, hs, shiftDown, ctrlDown]
      · by_cases hm : ctrl ≠ 0 ∨ shift ≠ 0
        · simp [stdinKeyboardFeed, next, hc, hs, hm]
        · simp [stdinKeyboardFeed, next, hc, hs, hm]

/-- The keys that have no table entry: ESC, backspace, tab and return. -/
def special (key : Nat) : Bool := key = 0x01 ∨ key = 0x0e ∨ key = 0x0f ∨ key = 0x1c

theorem special_eq_true {key : Nat} :
    special key = true ↔ key = 0x01 ∨ key = 0x0e ∨ key = 0x0f ∨ key = 0x1c := by simp [special]

theorem special_eq_false {key : Nat} :
    special key = false ↔ key ≠ 0x01 ∧ key ≠ 0x0e ∧ key ≠ 0x0f ∧ key ≠ 0x1c := by simp [special]

theorem printGlyph_special (h : special k.key = true) : k.printGlyph.log = [] := by
  have hk := special_eq_true.1 h
  rw [printGlyph]
  rcases hk with hk | hk | hk | hk <;> rw [hk] <;> rfl

theorem fill_special (h : special k.key = true) : k.fillSingleElemBuffer.log = [] := by
  have hk := special_eq_true.1 h
  rw [fillSingleElemBuffer]
  rcases hk with hk | hk | hk | hk <;> rw [hk] <;> rfl

/-- The capitals are for either modifier. -/
def table (capitals smalls : String) (k : Keyboard) : String := if k.shift ≠ 0 ∨ k.ctrl ≠ 0 then capitals else smalls

theorem printGlyph_key (h : special k.key = false) : k.printGlyph = (do
    let c ← charAt (k.table capitals smalls) k.key
    pure ![32, if k.ctrl ≠ 0 then 94 else 32, c, 32]) := by
  obtain ⟨h1, h2, h3, h4⟩ := special_eq_false.1 h
  rw [printGlyph, if_neg h1, if_neg h2, if_neg h3, if_neg h4, table]
  by_cases hm : k.shift ≠ 0 ∨ k.ctrl ≠ 0
  · simp only [if_pos hm]
  · simp only [if_neg hm]

theorem fill_key (h : special k.key = false) : k.fillSingleElemBuffer = (do
    let c ← charAt (k.table stdinCapitals stdinSmalls) k.key
    pure (if k.ctrl ≠ 0 then c - 64 else c)) := by
  obtain ⟨h1, h2, h3, h4⟩ := special_eq_false.1 h
  rw [fillSingleElemBuffer, if_neg h1, if_neg h2, if_neg h3, if_neg h4, table]
  by_cases hm : k.shift ≠ 0 ∨ k.ctrl ≠ 0
  · simp only [if_pos hm]
  · simp only [if_neg hm]

/-- Four tables of 59 characters each. -/
theorem length_tables : smalls.length = 59 ∧ capitals.length = 59 ∧ stdinSmalls.length = 59 ∧
    stdinCapitals.length = 59 := ⟨rfl, rfl, rfl, rfl⟩

theorem charAt_result {s : String} (hs : s.length = 59) (hn : n ≤ 59) : (charAt s n).result = some (cString s n) :=
  if_pos (by omega)

theorem log_charAt {α : Type} {s : String} (f : Byte → α) : (charAt s n >>= fun c => pure (f c)).log = [n] := by
  simp only [charAt, bind]
  split <;> rfl

theorem length_table {capitals smalls : String} (hc : capitals.length = 59) (hs : smalls.length = 59) :
    (k.table capitals smalls).length = 59 := by
  rw [table]
  split
  · exact hc
  · exact hs

theorem printGlyph_result (h : special k.key = false) (hle : k.key ≤ 59) : k.printGlyph.result =
    some ![32, if k.ctrl ≠ 0 then 94 else 32, cString (k.table capitals smalls) k.key, 32] := by
  obtain ⟨hs, hc, -, -⟩ := length_tables
  rw [printGlyph_key h, Logged.result_bind, charAt_result (length_table hc hs) hle]
  rfl

theorem fill_result (h : special k.key = false) (hle : k.key ≤ 59) : k.fillSingleElemBuffer.result =
    some (if k.ctrl ≠ 0 then cString (k.table stdinCapitals stdinSmalls) k.key - 64
      else cString (k.table stdinCapitals stdinSmalls) k.key) := by
  obtain ⟨-, -, hs, hc⟩ := length_tables
  rw [fill_key h, Logged.result_bind, charAt_result (length_table hc hs) hle]
  rfl

end feed

/-! ## The two decoders side by side -/

/-- `state` and the other statics of keyboard_helpers.c:4, and those of stdin.c:5. -/
structure Decoders where
  glyph : Keyboard
  char : Keyboard

/-- What `int_kbd_srv` does to them (idt.h:49-56): `put_pressed_key`, then `buffer_add_char`. -/
def intKbdSrv (b : Byte) (d : Decoders) : Decoders := ⟨(keyboardFeed b d.glyph).st, (stdinKeyboardFeed b d.char).st⟩

/-- The decoders from boot. -/
def boot : Decoders := ⟨init, init⟩

/-- A scan code is delivered. -/
def Delivered (d : Decoders) (b : Byte) (d' : Decoders) : Prop := d' = intKbdSrv b d

/-- The table indices that this byte makes the decoders read. -/
def indices (b : Byte) (d : Decoders) : List Nat :=
  (keyboardFeed b d.glyph).out.log ++ (stdinKeyboardFeed b d.char).out.log

/-- The decoders are in the same state, and none is left in `S_FINISHED`. -/
structure Lockstep (d : Decoders) : Prop where
  same : d.glyph = d.char
  waits : d.char.state ≠ .finished

section lockstep
variable {d d' : Decoders} {b : Byte} {bs : List Byte} {n : Nat}

theorem Lockstep.boot : Lockstep boot := ⟨rfl, by decide⟩

theorem Lockstep.feeds (h : Lockstep d) :
    keyboardFeed b d.glyph = (if d.char.state = .need1 then ⟨init, 1, d.char.printGlyph⟩
      else ⟨next b d.char, 0, .lift none⟩) ∧
    stdinKeyboardFeed b d.char = (if d.char.state = .need1 then ⟨init, 1, d.char.fillSingleElemBuffer⟩
      else ⟨next b d.char, 0, .lift none⟩) := by
  rw [h.same]
  exact ⟨keyboardFeed_eq h.waits, stdinKeyboardFeed_eq h.waits⟩

theorem Lockstep.intKbdSrv_eq (h : Lockstep d) : intKbdSrv b d = ⟨next b d.char, next b d.char⟩ := by
  obtain ⟨hg, hc⟩ := h.feeds (b := b)
  have hnext : d.char.state = .need1 → next b d.char = init := fun hs => by rw [next, hs]
  rw [intKbdSrv, hg, hc]
  split
  · rename_i hs
    rw [hnext hs]
  · rfl

theorem Lockstep.step (h : Lockstep d) (hs : Delivered d b d') : Lockstep d' := by
  rw [hs, h.intKbdSrv_eq]
  exact ⟨rfl, next_state b _⟩

/-- **The two decoders agree** after every stream of scan codes. The next byte completes a character in both or in
neither, and if the key is in the tables and not one of ESC, backspace, tab and return, the character stored is the
glyph displayed, less 64 exactly when a `^` is displayed with it. -/
theorem decoders_agree (hrun : Run Delivered boot bs d) :
    d.glyph = d.char ∧ ∀ b, (keyboardFeed b d.glyph).ret = (stdinKeyboardFeed b d.char).ret ∧
      ((keyboardFeed b d.glyph).ret = 1 → d.char.key ≤ 58 → special d.char.key = false →
        ∃ glyph c, (keyboardFeed b d.glyph).out.result = some glyph ∧
          (stdinKeyboardFeed b d.char).out.result = some c ∧ c = if glyph 1 = 94 then glyph 2 - 64 else glyph 2) := by
  have h : Lockstep d := hrun.invariant Lockstep Lockstep.boot fun _ _ _ h hs => h.step hs
  refine ⟨h.same, fun b => ?_⟩
  obtain ⟨hg, hc⟩ := h.feeds (b := b)
  rw [hg, hc]
  split
  · refine ⟨rfl, fun _ hle hkey => ?_⟩
    refine ⟨_, _, printGlyph_result hkey (by omega), fill_result hkey (by omega), ?_⟩
    by_cases hctrl : d.char.ctrl = 0
    · simp [hctrl, table, smalls, stdinSmalls, capitals, stdinCapitals]
    · simp [hctrl, table, capitals, stdinCapitals]
  · exact ⟨rfl, fun h1 => absurd (show (0 : Int) = 1 from h1) (by decide)⟩

/-- The key for `a`. Both have it, and any byte completes it. -/
theorem decoders_agree_a : ∃ d, Run Delivered boot [0x1e] d ∧ d.glyph = d.char ∧
    (keyboardFeed 0x9e d.glyph).ret = 1 ∧ (stdinKeyboardFeed 0x9e d.char).out.result = some 97 := by
  have hrun : Run Delivered boot [0x1e] (intKbdSrv 0x1e boot) := .single rfl
  obtain ⟨hsame, hnext⟩ := decoders_agree hrun
  exact ⟨_, hrun, hsame, (hnext 0x9e).1.trans (by decide), by decide⟩

/-! ## The table indices -/

/-- The index is in each of the tables; the terminating NUL counts if `nul`. -/
def InTables (nul : Bool) (i : Nat) : Prop :=
  ∀ table ∈ [smalls, capitals, stdinSmalls, stdinCapitals], i < table.length + nul.toNat

/-- What the decoders take for a key is in the tables, a modifier aside. -/
def KeyInTables (nul : Bool) (d : Decoders) (b : Byte) : Prop :=
  d.char.state = .input → b ≠ ctrlDown → b ≠ shiftDown → InTables nul b.toNat

theorem inTables_iff {nul : Bool} {i : Nat} : InTables nul i ↔ i < 59 + nul.toNat := by
  obtain ⟨hs, hc, hs', hc'⟩ := length_tables
  simp [InTables, hs, hc, hs', hc']

theorem Lockstep.indices_eq (h : Lockstep d) : indices b d =
    if d.char.state = .need1 ∧ special d.char.key = false then [d.char.key, d.char.key] else [] := by
  obtain ⟨hg, hc⟩ := h.feeds (b := b)
  rw [indices, hg, hc]
  by_cases hs : d.char.state = .need1
  · simp only [if_pos hs]
    cases hkey : special d.char.key with
    | true => rw [printGlyph_special hkey, fill_special hkey, if_neg (by simp)]; rfl
    | false => rw [printGlyph_key hkey, fill_key hkey, log_charAt, log_charAt, if_pos ⟨hs, rfl⟩]; rfl
  · simp only [if_neg hs]
    rw [if_neg fun h => hs h.1]
    rfl

/-- The remembered key is in the tables. -/
structure KeptIn (nul : Bool) (d : Decoders) : Prop extends Lockstep d where
  key : InTables nul d.char.key

theorem KeptIn.step {nul : Bool} (h : KeptIn nul d) (hs : Guarded (KeyInTables nul) Delivered d b d') :
    KeptIn nul d' := by
  obtain ⟨hb, hs⟩ := hs
  refine ⟨h.toLockstep.step hs, ?_⟩
  rw [hs, h.toLockstep.intKbdSrv_eq]
  show InTables nul (next b d.char).key
  rw [next]
  have h0 : InTables nul 0 := inTables_iff.2 (by omega)
  split
  · exact h0
  · exact h0
  · exact h.key
  · rename_i hin
    by_cases hctrl : b = ctrlDown
    · rw [if_pos hctrl]
      exact h.key
    · by_cases hshift : b = shiftDown
      · rw [if_neg hctrl, if_pos hshift]
        exact h.key
      · rw [if_neg hctrl, if_neg hshift]
        exact hb hin hctrl hshift

/-- **Key tables are indexed in range** in the runs in which no byte beyond them arrives while the decoders wait for a
key. Such a byte they take for the key, whatever it is, and the tables are read at it within two more. -/
theorem keys_in_range (nul : Bool) :
    (∀ bs d, Run (Guarded (KeyInTables nul) Delivered) boot bs d → ∀ b, ∀ i ∈ indices b d, InTables nul i) ∧
    ∀ bs d, Run Delivered boot bs d → ∀ b, ¬ KeyInTables nul d b → ∀ c c',
      ∃ i ∈ indices c (intKbdSrv b d) ++ indices c' (intKbdSrv c (intKbdSrv b d)), ¬ InTables nul i := by
  constructor
  · intro bs d hrun b i hi
    have h : KeptIn nul d := hrun.invariant (KeptIn nul)
      ⟨Lockstep.boot, inTables_iff.2 (Nat.add_pos_left (by decide) _)⟩ fun _ _ _ h hs => h.step hs
    rw [h.toLockstep.indices_eq] at hi
    split at hi
    · have hkey : i = d.char.key := by simpa using hi
      exact hkey ▸ h.key
    · exact absurd hi (by simp)
  · intro bs d hrun b hb c c'
    have h : Lockstep d := hrun.invariant Lockstep Lockstep.boot fun _ _ _ h hs => h.step hs
    obtain ⟨hin, hctrl, hshift, hout⟩ : d.char.state = .input ∧ b ≠ ctrlDown ∧ b ≠ shiftDown ∧
        ¬ InTables nul b.toNat := by simpa [KeyInTables] using hb
    have hspecial : special b.toNat = false := by
      rw [inTables_iff] at hout
      rw [special_eq_false]
      omega
    -- the byte is the key now, and the tables are read one byte later, or two after a modifier
    have h₁ : Lockstep (intKbdSrv b d) := h.step rfl
    have hnext : (intKbdSrv b d).char = next b d.char := by rw [h.intKbdSrv_eq]
    have hkey : (intKbdSrv b d).char.key = b.toNat := by rw [hnext, next, hin]; simp [hctrl, hshift]
    refine ⟨b.toNat, List.mem_append.2 ?_, hout⟩
    by_cases hm : d.char.ctrl ≠ 0 ∨ d.char.shift ≠ 0
    · right
      have hstate : (intKbdSrv b d).char.state = .need2 := by rw [hnext, next, hin]; simp [hctrl, hshift, hm]
      have h₂ : (intKbdSrv c (intKbdSrv b d)).char = { (intKbdSrv b d).char with state := .need1 } := by
        rw [h₁.intKbdSrv_eq, next, hstate]
      rw [(h₁.step rfl).indices_eq, h₂, if_pos ⟨rfl, by rw [hkey]; exact hspecial⟩]
      simp [hkey]
    · left
      have hstate : (intKbdSrv b d).char.state = .need1 := by rw [hnext, next, hin]; simp [hctrl, hshift, hm]
      rw [h₁.indices_eq, if_pos ⟨hstate, by rw [hkey]; exact hspecial⟩]
      simp [hkey]

/-- The key for `a`: the tables are read at 30. -/
theorem keys_in_range_a : ∃ d, Run (Guarded (KeyInTables false) Delivered) boot [0x1e] d ∧ 30 ∈ indices 0x9e d ∧
    ∀ i ∈ indices 0x9e d, InTables false i := by
  have hin : InTables false 0x1e := inTables_iff.2 (by decide)
  have hrun : Run (Guarded (KeyInTables false) Delivered) boot [0x1e] (intKbdSrv 0x1e boot) :=
    .single ⟨fun _ _ _ => hin, rfl⟩
  exact ⟨_, hrun, by decide, (keys_in_range false).1 _ _ hrun 0x9e⟩

/-- The key for `b` goes down before that for `a` is up. It counts as the release of `a`, the release of `a` as a key,
and that of `b` has both tables read at 158. -/
theorem keys_overlap : ∃ d, Run Delivered boot [0x1e, 0x30, 0x9e] d ∧ 158 ∈ indices 0xb0 d ∧ smalls.length < 158 ∧
    stdinSmalls.length < 158 := by
  refine ⟨intKbdSrv 0x9e (intKbdSrv 0x30 (intKbdSrv 0x1e boot)), ?_, by decide, by decide, by decide⟩
  have h0 : Run Delivered boot [] boot := .nil
  exact ((h0.snoc rfl).snoc rfl).snoc rfl

end lockstep
end Keyboard
end Sbuos
