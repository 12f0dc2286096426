import Sbuos.Keyboard
/-!
# Keystrokes (sys/stdin.c:63-118)

A stroke is what the keyboard sends for one character: the key and its release, or a held modifier, the key and two
releases. The decoder only counts the releases, so their bytes are arbitrary; between strokes it is in its initial
state, from which `keystrokes_decode` follows by induction on the list.
-/
namespace Sbuos.Keyboard
open Lib

/-- A code of the tables that is not a modifier's. -/
structure KeyCode where
  code : Byte
  inTables : 1 ≤ code.toNat ∧ code.toNat ≤ 58
  noModifier : code ≠ ctrlDown ∧ code ≠ shiftDown

inductive Modifier
  | ctrl | shift

def Modifier.code : Modifier → Byte
  | .ctrl => ctrlDown
  | .shift => shiftDown

inductive Stroke
  | plain (k : KeyCode) (release : Byte)
  /-- The modifier repeats `more` times while it is held. -/
  | modified (m : Modifier) (more : Nat) (k : KeyCode) (release release' : Byte)

/-- The bytes of a stroke. -/
def Stroke.bytes : Stroke → List Byte
  | .plain k r => [k.code, r]
  | .modified m more k r r' => List.replicate (more + 1) m.code ++ [k.code, r, r']

/-- What the key stands for: ESC is 0, backspace `\b`, tab `\t`, return `\n`, and the others are in the table. -/
def KeyCode.char (table : String) (k : KeyCode) : Byte :=
  if k.code = 0x01 then 0
  else if k.code = 0x0e then 8
  else if k.code = 0x0f then 9
  else if k.code = 0x1c then 10
  else cString table k.code.toNat

/-- The character of a stroke. -/
def Stroke.char : Stroke → Byte
  | .plain k _ => k.char stdinSmalls
  | .modified .shift _ k _ _ => k.char stdinCapitals
  | .modified .ctrl _ k _ _ => k.char stdinCapitals - 64

/-- Feeding these bytes one after the other: the characters completed on the way, and the decoder after the last. -/
def feedAll : List Byte → Keyboard → List (Option Byte) × Keyboard
  | [], k => ([], k)
  | b :: bs, k =>
    let fed := stdinKeyboardFeed b k
    let rest := feedAll bs fed.st
    (if fed.ret = 1 then fed.out.result :: rest.1 else rest.1, rest.2)

/-- The decoder while a modifier is held. -/
def Modifier.held : Modifier → Keyboard
  | .ctrl => { init with ctrl := -1 }
  | .shift => { init with shift := -1 }

section strokes
variable {bs cs : List Byte} {b : Byte} {k : Keyboard} {key : KeyCode} {m : Modifier}

theorem feedAll_append : feedAll (bs ++ cs) k =
    ((feedAll bs k).1 ++ (feedAll cs (feedAll bs k).2).1, (feedAll cs (feedAll bs k).2).2) := by
  induction bs generalizing k with
  | nil => rfl
  | cons b bs ih =>
    rw [List.cons_append, feedAll, feedAll, ih]
    by_cases hret : (stdinKeyboardFeed b k).ret = 1
    · simp only [if_pos hret, List.cons_append]
    · simp only [if_neg hret]

/-- A byte that completes nothing. -/
theorem feedAll_next (hk : k.state = .input ∨ k.state = .need2) : feedAll (b :: bs) k = feedAll bs (next b k) := by
  have hf : k.state ≠ .finished := by rcases hk with hk | hk <;> rw [hk] <;> decide
  have hn : k.state ≠ .need1 := by rcases hk with hk | hk <;> rw [hk] <;> decide
  rw [feedAll, stdinKeyboardFeed_eq hf, if_neg hn]
  rfl

/-- The byte that completes a character. -/
theorem feedAll_last (hk : k.state = .need1) :
    feedAll (b :: bs) k = (k.fillSingleElemBuffer.result :: (feedAll bs init).1, (feedAll bs init).2) := by
  rw [feedAll, stdinKeyboardFeed_eq (by rw [hk]; decide), if_pos hk]
  rfl

/-- **The character stored**, given what the decoder remembers. -/
theorem fill_char (hkey : k.key = key.code.toNat) : k.fillSingleElemBuffer.result =
    some (if k.ctrl ≠ 0 then key.char (k.table stdinCapitals stdinSmalls) - 64
      else key.char (k.table stdinCapitals stdinSmalls)) := by
  rw [KeyCode.char]
  cases hs : special k.key with
  | true =>
    have heq : ∀ c : Byte, key.code = c ↔ k.key = c.toNat := fun c => by rw [hkey]; exact BitVec.toNat_inj.symm
    have hk := special_eq_true.1 hs
    rw [fillSingleElemBuffer]
    simp only [heq]
    rcases hk with hk | hk | hk | hk <;> rw [hk] <;> rfl
  | false =>
    have hne : ∀ c : Byte, special c.toNat = true → key.code ≠ c := by
      rintro c hc rfl
      rw [hkey, hc] at hs
      cases hs
    have hle := key.inTables.2
    rw [fill_result hs (by omega), if_neg (hne 0x01 rfl), if_neg (hne 0x0e rfl), if_neg (hne 0x0f rfl),
      if_neg (hne 0x1c rfl), hkey]

/-- A key is remembered, with the modifier held. -/
theorem next_key (hk : k.state = .input) : next key.code k =
    ⟨if k.ctrl ≠ 0 ∨ k.shift ≠ 0 then .need2 else .need1, key.code.toNat, k.shift, k.ctrl⟩ := by
  rw [next, hk]
  simp only [if_neg key.noModifier.1, if_neg key.noModifier.2]

theorem next_modifier (hk : k = init ∨ k = m.held) : next m.code k = m.held := by
  cases m <;> obtain rfl | rfl := hk <;> rfl

/-- A held modifier repeats. -/
theorem feedAll_held (n : Nat) : feedAll (List.replicate n m.code) m.held = ([], m.held) := by
  have hinput : m.held.state = .input := by cases m <;> rfl
  induction n with
  | zero => rfl
  | succ n ih =>
    rw [List.replicate_succ, feedAll_next (.inl hinput), next_modifier (.inr rfl)]
    exact ih

/-- **One stroke** gives its character and leaves the decoder as it was found. -/
theorem feedAll_stroke (s : Stroke) : feedAll s.bytes init = ([some s.char], init) := by
  cases s with
  | plain key r =>
    rw [Stroke.bytes, feedAll_next (.inl rfl), next_key rfl, feedAll_last rfl, fill_char rfl]
    rfl
  | modified m more key r r' =>
    have hinput : m.held.state = .input := by cases m <;> rfl
    have hmod : m.held.ctrl ≠ 0 ∨ m.held.shift ≠ 0 := by cases m <;> decide
    have hheld : feedAll (List.replicate (more + 1) m.code) init = ([], m.held) := by
      rw [List.replicate_succ, feedAll_next (.inl rfl), next_modifier (.inl rfl)]
      exact feedAll_held more
    rw [Stroke.bytes, feedAll_append, hheld]
    -- the first release is counted, the second completes the character
    have hkey : feedAll [key.code, r, r'] m.held =
        ([(⟨.need1, key.code.toNat, m.held.shift, m.held.ctrl⟩ : Keyboard).fillSingleElemBuffer.result], init) := by
      rw [feedAll_next (.inl hinput), next_key hinput, if_pos hmod, feedAll_next (.inr rfl)]
      exact feedAll_last rfl
    rw [hkey, fill_char rfl]
    cases m <;> rfl

end strokes

/-- **Keystrokes decode one for one**, whatever the bytes of their releases. -/
theorem keystrokes_decode (strokes : List Stroke) :
    feedAll (strokes.flatMap Stroke.bytes) init = (strokes.map fun s => some s.char, init) := by
  induction strokes with
  | nil => rfl
  | cons s strokes ih =>
    rw [List.flatMap_cons, feedAll_append, feedAll_stroke, ih]
    rfl

end Sbuos.Keyboard
