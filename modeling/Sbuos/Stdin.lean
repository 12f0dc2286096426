import Sbuos.Sysutil
import Sbuos.Lib.Ring
/-!
# The input ring (sys/stdin.c:10-61)

`_add_char` is the producer, run by the keyboard interrupt; `copy_input` is the consumer, run by
`do_read`. They share a 256-slot ring, two indices and the counter `input_count`. An access to
`_stdin_buffer` outside its 256 slots is undefined behaviour: the model returns `none` there.

The two scans of the ring are recursions with fuel; `copyLoop_line` and `copyLoop_full` give the
fuel that suffices.
-/
namespace Sbuos
open Lib

structure Stdin where
  buffer : Nat → Byte
  startPoint : Int
  endPoint : Int
  inputCount : Int

namespace Stdin

/-- `STDIN_BUFFER_SIZE` (sbunix.h:10). -/
def bufferSize : Nat := 256

def backspace : Byte := 8
def newline : Byte := 10
/-- `'D' - 64`. -/
def ctrlD : Byte := 4

/-- The statics' initial values (stdin.c:10-13). -/
def init : Stdin := ⟨fun _ => 0, 0, 0, 0⟩

def get (s : Stdin) (i : Int) : Option Byte :=
  if 0 ≤ i ∧ i < bufferSize then some (s.buffer i.toNat) else none

def put (s : Stdin) (i : Int) (c : Byte) : Option Stdin :=
  if 0 ≤ i ∧ i < bufferSize then some { s with buffer := Function.update s.buffer i.toNat c } else none

/-- Outcome of `_add_char`: its return value, and whether it called `notify_stdin`. -/
structure Added where
  st : Stdin
  ret : Int
  notifies : Bool

/-- `_add_char` (stdin.c:16-33). -/
def addChar (c : Byte) (s : Stdin) : Option Added :=
  if (s.endPoint + 1).tmod bufferSize = s.startPoint then some ⟨s, 1, false⟩
  else if c = backspace ∧ s.endPoint = s.startPoint then some ⟨s, 0, false⟩
  else if c = backspace then some ⟨{ s with endPoint := (s.endPoint - 1).tmod bufferSize }, 1, false⟩
  else do
    let s ← s.put s.endPoint c
    let s := { s with endPoint := (s.endPoint + 1).tmod bufferSize }
    if c = newline ∨ c = ctrlD then some ⟨{ s with inputCount := s.inputCount + 1 }, 1, true⟩
    else some ⟨s, 1, false⟩

/-- `buffer_is_ready` (stdin.c:35-37). -/
def bufferIsReady (s : Stdin) : Bool := s.inputCount > 0

/-- Outcome of `copy_input`: the memory from the caller's `buffer` on, and the return value. -/
structure Copied where
  st : Stdin
  buffer : Nat → Byte
  ret : Int

/-- The `for` loop of `copy_input` and what follows it (stdin.c:46-60). -/
def copyLoop : Nat → (Nat → Byte) → Int → Nat → Stdin → Option Copied
  | 0, _, _, _, _ => none
  | fuel + 1, buffer, size, i, s => do
    let c ← s.get s.startPoint
    let next := { s with startPoint := (s.startPoint + 1).tmod bufferSize }
    if c = newline then
      some ⟨{ next with inputCount := next.inputCount - 1 },
        Function.update (Function.update buffer i newline) (i + 1) 0, i + 1⟩
    else if (i : Int) = size - 1 then
      some ⟨next, Function.update (Function.update buffer i c) i 0, size⟩
    else copyLoop fuel (Function.update buffer i c) size (i + 1) next

/-- `copy_input` (stdin.c:39-61). A leading `^D` is an end of file: it is taken out and 0 returned. -/
def copyInput (fuel : Nat) (buffer : Nat → Byte) (size : Int) (s : Stdin) : Option Copied := do
  let c ← s.get s.startPoint
  if c = ctrlD then
    some ⟨{ s with startPoint := s.startPoint + 1, inputCount := s.inputCount - 1 }, buffer, 0⟩
  else copyLoop fuel buffer size 0 s

/-! ## The characters between the two indices -/

/-- The indices are in range and `w` lies between them. -/
structure Holds (s : Stdin) (w : List Byte) : Prop where
  start_nonneg : 0 ≤ s.startPoint
  start_lt : s.startPoint < bufferSize
  end_nonneg : 0 ≤ s.endPoint
  end_lt : s.endPoint < bufferSize
  window_eq : Ring.window bufferSize s.buffer s.startPoint.toNat s.endPoint.toNat = w

namespace Holds
variable {s : Stdin} {w r : List Byte} {c : Byte}

theorem start_toNat (h : Holds s w) : s.startPoint.toNat < bufferSize := by
  have := h.start_lt; have := h.start_nonneg; omega

theorem end_toNat (h : Holds s w) : s.endPoint.toNat < bufferSize := by
  have := h.end_lt; have := h.end_nonneg; omega

theorem length_eq (h : Holds s w) :
    w.length = Ring.size bufferSize s.startPoint.toNat s.endPoint.toNat := by
  rw [← h.window_eq, Ring.length_window]

theorem length_lt (h : Holds s w) : w.length < bufferSize := by
  rw [h.length_eq]; exact Ring.size_lt h.start_toNat h.end_toNat

theorem eq_nil_iff (h : Holds s w) : w = [] ↔ s.endPoint = s.startPoint := by
  rw [← List.length_eq_zero_iff, h.length_eq, Ring.size_eq_zero h.start_toNat h.end_toNat]
  have := h.start_nonneg; have := h.end_nonneg
  omega

theorem init : Holds Stdin.init [] :=
  ⟨by decide, by decide, by decide, by decide, Ring.window_self _ _ (by decide)⟩

end Holds

/-- Advancing an index in range, in C and in the ring. -/
theorem tmod_succ {x : Int} (h0 : 0 ≤ x) (_h : x < bufferSize) :
    (x + 1).tmod bufferSize = ((x.toNat + 1) % bufferSize : Nat) := by
  rw [Int.tmod_eq_emod_of_nonneg (by omega)]
  simp only [bufferSize] at *
  omega

theorem tmod_pred {x : Int} (h0 : 0 < x) (h : x < bufferSize) :
    (x - 1).tmod bufferSize = ((x.toNat + bufferSize - 1) % bufferSize : Nat) := by
  rw [Int.tmod_eq_emod_of_nonneg (by omega)]
  simp only [bufferSize] at *
  omega

theorem tmod_bounds {x : Int} (h0 : 0 ≤ x) :
    0 ≤ x.tmod bufferSize ∧ x.tmod bufferSize < bufferSize := by
  rw [Int.tmod_eq_emod_of_nonneg h0]
  simp only [bufferSize]
  omega

namespace Holds
variable {s : Stdin} {w r : List Byte} {c : Byte}

theorem full_iff (h : Holds s w) :
    (s.endPoint + 1).tmod bufferSize = s.startPoint ↔ w.length + 1 = bufferSize := by
  have hs := h.start_toNat; have he := h.end_toNat
  have h0 := h.start_nonneg
  rw [tmod_succ h.end_nonneg h.end_lt, h.length_eq, Ring.size_cases hs he,
    Ring.mod_cases _ _ (by omega)]
  split <;> split <;> omega

theorem start_ne_end (h : Holds s w) (hw : w ≠ []) : s.startPoint.toNat ≠ s.endPoint.toNat := by
  have hne : s.startPoint ≠ s.endPoint := fun he => hw (h.eq_nil_iff.2 he.symm)
  have hstart := h.start_nonneg
  have hend := h.end_nonneg
  omega

/-- The first pending character and the others. -/
theorem window_cons (h : Holds s (c :: r)) : s.buffer s.startPoint.toNat = c ∧
    Ring.window bufferSize s.buffer ((s.startPoint.toNat + 1) % bufferSize) s.endPoint.toNat = r := by
  have hne := h.start_ne_end (List.cons_ne_nil c r)
  have hw := h.window_eq
  rw [Ring.window_cons _ h.start_toNat h.end_toNat hne] at hw
  exact List.cons.inj hw

/-- The character at `start_point` is the first pending one. -/
theorem get_start (h : Holds s (c :: r)) : s.get s.startPoint = some c := by
  have hw := h.window_cons
  simp [Stdin.get, h.start_nonneg, h.start_lt, hw.1]

/-- Taking it out. -/
theorem advance (h : Holds s (c :: r)) (k : Int) :
    Holds { s with startPoint := (s.startPoint + 1).tmod bufferSize, inputCount := k } r := by
  have hw := h.window_cons
  have hb := tmod_bounds (x := s.startPoint + 1) (by have := h.start_nonneg; omega)
  refine ⟨hb.1, hb.2, h.end_nonneg, h.end_lt, ?_⟩
  simp only [tmod_succ h.start_nonneg h.start_lt, Int.toNat_natCast]
  exact hw.2

/-- Appending at `end_point` when the ring is not full. -/
theorem push (h : Holds s w) (hf : w.length + 1 < bufferSize) (c : Byte) (k : Int) :
    Holds ⟨Function.update s.buffer s.endPoint.toNat c, s.startPoint, (s.endPoint + 1).tmod bufferSize, k⟩
      (w ++ [c]) := by
  have hb := tmod_bounds (x := s.endPoint + 1) (by have := h.end_nonneg; omega)
  refine ⟨h.start_nonneg, h.start_lt, hb.1, hb.2, ?_⟩
  simp only [tmod_succ h.end_nonneg h.end_lt, Int.toNat_natCast]
  rw [Ring.window_push _ _ h.start_toNat h.end_toNat (by rw [← h.length_eq]; exact hf), h.window_eq]

/-- Dropping the last pending character; `end_point = 0` is where C's `%` goes negative. -/
theorem drop_last (h : Holds s (w ++ [c])) (h0 : s.endPoint ≠ 0) :
    Holds { s with endPoint := (s.endPoint - 1).tmod bufferSize } w := by
  have hne := h.start_ne_end (List.concat_ne_nil c w)
  have hw := h.window_eq
  have hpos : 0 < s.endPoint := by have := h.end_nonneg; omega
  rw [Ring.window_pred _ h.start_toNat h.end_toNat hne] at hw
  have hb := tmod_bounds (x := s.endPoint - 1) (by omega)
  refine ⟨h.start_nonneg, h.start_lt, hb.1, hb.2, ?_⟩
  simp only [tmod_pred hpos h.end_lt, Int.toNat_natCast]
  exact (List.append_inj' hw rfl).1

end Holds

/-! ## What each call does to the pending characters -/

theorem addChar_full {s : Stdin} {w : List Byte} (h : Holds s w) (hf : w.length + 1 = bufferSize) (c : Byte) :
    addChar c s = some ⟨s, 1, false⟩ := by
  simp [addChar, h.full_iff.2 hf]

theorem addChar_append {s : Stdin} {w : List Byte} (h : Holds s w) (hf : w.length + 1 < bufferSize)
    {c : Byte} (hc : c ≠ backspace) :
    ∃ r, addChar c s = some r ∧ Holds r.st (w ++ [c]) ∧
      r.st.inputCount = s.inputCount + (if c = newline ∨ c = ctrlD then 1 else 0) := by
  have hnf : (s.endPoint + 1).tmod bufferSize ≠ s.startPoint := fun e => by
    have := h.full_iff.1 e; omega
  simp only [addChar, hnf, hc, false_and, if_false, Stdin.put, h.end_nonneg, h.end_lt, and_self, if_true]
  by_cases hn : c = newline ∨ c = ctrlD
  · simp only [hn, if_true]
    exact ⟨_, rfl, h.push hf c _, rfl⟩
  · simp only [hn, if_false]
    exact ⟨_, rfl, h.push hf c _, by simp⟩

theorem addChar_backspace_nil {s : Stdin} (h : Holds s []) : addChar backspace s = some ⟨s, 0, false⟩ := by
  have hnf : (s.endPoint + 1).tmod bufferSize ≠ s.startPoint := fun e => by
    have := h.full_iff.1 e; simp [bufferSize] at this
  rw [addChar, if_neg hnf, if_pos ⟨rfl, h.eq_nil_iff.1 rfl⟩]

theorem addChar_backspace {s : Stdin} {w : List Byte} {c : Byte} (h : Holds s (w ++ [c]))
    (hf : (w ++ [c]).length + 1 < bufferSize) :
    addChar backspace s = some ⟨{ s with endPoint := (s.endPoint - 1).tmod bufferSize }, 1, false⟩ := by
  have hnf : (s.endPoint + 1).tmod bufferSize ≠ s.startPoint := fun e => by
    have := h.full_iff.1 e; omega
  have hne : s.endPoint ≠ s.startPoint := fun e => by
    have := h.eq_nil_iff.2 e; simp at this
  simp [addChar, hnf, hne]

/-- What the loop writes for the pending characters `pre`, from index `i` on. -/
def storeAt (buffer : Nat → Byte) (i : Nat) : List Byte → Nat → Byte
  | [] => buffer
  | c :: cs => storeAt (Function.update buffer i c) (i + 1) cs

theorem storeAt_lt (buffer : Nat → Byte) : ∀ (cs : List Byte) (i k : Nat), k < i → storeAt buffer i cs k = buffer k
  | [], _, _, _ => rfl
  | c :: cs, i, k, hk => by
    rw [storeAt, storeAt_lt _ cs _ _ (by omega), Function.update_of_ne (by omega)]

theorem storeAt_get (buffer : Nat → Byte) (cs : List Byte) (i k : Nat) (hk : k < cs.length) :
    storeAt buffer i cs (i + k) = cs[k] := by
  induction cs generalizing buffer i k with
  | nil => simp at hk
  | cons c cs ih =>
    rw [storeAt]
    cases k with
    | zero => simp [storeAt_lt _ cs (i + 1) i (by omega)]
    | succ k =>
      have := ih (Function.update buffer i c) (i + 1) k (by simpa using hk)
      rw [show i + (k + 1) = i + 1 + k by omega, this]
      rfl

/-- At the beginning of the buffer. -/
theorem storeAt_zero_get (buffer : Nat → Byte) {cs : List Byte} {k : Nat} (hk : k < cs.length) :
    storeAt buffer 0 cs k = cs[k] := by
  have hget := storeAt_get buffer cs 0 k hk
  rwa [Nat.zero_add] at hget

theorem storeAt_ge (buffer : Nat → Byte) (cs : List Byte) (i k : Nat) (hk : i + cs.length ≤ k) :
    storeAt buffer i cs k = buffer k := by
  induction cs generalizing buffer i with
  | nil => rfl
  | cons c cs ih =>
    rw [List.length_cons] at hk
    rw [storeAt, ih _ _ (by omega), Function.update_of_ne (by omega)]

/-- The loop on a line that fits: it takes the line out, newline included. -/
theorem copyLoop_line (size : Int) (rest : List Byte) :
    ∀ (pre : List Byte) (fuel : Nat) (buffer : Nat → Byte) (i : Nat) (s : Stdin),
      Holds s (pre ++ newline :: rest) → newline ∉ pre → (i : Int) + pre.length < size → pre.length < fuel →
      ∃ st, copyLoop fuel buffer size i s =
          some ⟨st, storeAt buffer i (pre ++ [newline, 0]), (i : Int) + pre.length + 1⟩ ∧
        Holds st rest ∧ st.inputCount = s.inputCount - 1
  | [], fuel + 1, buffer, i, s, h, _, _, _ => by
    simp only [List.nil_append] at h
    simp only [copyLoop, h.get_start, Option.bind_eq_bind, Option.bind_some, if_true]
    exact ⟨_, by simp [storeAt], h.advance _, rfl⟩
  | c :: pre, fuel + 1, buffer, i, s, h, hn, hi, hf => by
    simp only [List.mem_cons, not_or, List.length_cons] at hn hi hf
    obtain ⟨hc, hn⟩ := hn
    have hi1 : (i : Int) ≠ size - 1 := by omega
    obtain ⟨st, e, hh, hcnt⟩ := copyLoop_line size rest pre fuel (Function.update buffer i c) (i + 1) _
      (h.advance s.inputCount) hn (by omega) (by omega)
    refine ⟨st, ?_, hh, hcnt⟩
    simp only [copyLoop, h.get_start, Option.bind_eq_bind, Option.bind_some, Ne.symm hc, hi1, if_false]
    rw [e]
    simp [storeAt]
    omega
  | [], 0, _, _, _, _, _, _, hf => by simp at hf
  | _ :: _, 0, _, _, _, _, _, _, hf => by simp at hf

/-- The loop on `size - i` characters with no newline among them: it takes them out and stops. -/
theorem copyLoop_full (size : Int) (rest : List Byte) :
    ∀ (pre : List Byte) (fuel : Nat) (buffer : Nat → Byte) (i : Nat) (s : Stdin),
      Holds s (pre ++ rest) → newline ∉ pre → pre ≠ [] → (i : Int) + pre.length = size → pre.length ≤ fuel →
      ∃ st, copyLoop fuel buffer size i s =
          some ⟨st, Function.update (storeAt buffer i pre) (i + pre.length - 1) 0, size⟩ ∧
        Holds st rest ∧ st.inputCount = s.inputCount
  | [], _, _, _, _, _, _, hne, _, _ => absurd rfl hne
  | c :: pre, fuel + 1, buffer, i, s, h, hn, _, hi, hf => by
    simp only [List.mem_cons, not_or, List.length_cons] at hn hi hf
    obtain ⟨hc, hn⟩ := hn
    cases pre with
    | nil =>
      have hi1 : (i : Int) = size - 1 := by simp at hi; omega
      simp only [copyLoop, h.get_start, Option.bind_eq_bind, Option.bind_some, Ne.symm hc, hi1, if_true,
        if_false]
      exact ⟨_, by simp [storeAt], h.advance _, rfl⟩
    | cons d pre =>
      have hi1 : (i : Int) ≠ size - 1 := by simp at hi; omega
      obtain ⟨st, e, hh, hcnt⟩ := copyLoop_full size rest (d :: pre) fuel (Function.update buffer i c) (i + 1) _
        (h.advance s.inputCount) hn (by simp) (by simp at hi ⊢; omega) (by simp at hf ⊢; omega)
      refine ⟨st, ?_, hh, hcnt⟩
      simp only [copyLoop, h.get_start, Option.bind_eq_bind, Option.bind_some, Ne.symm hc, hi1, if_false]
      rw [e]
      simp only [storeAt, List.length_cons]
      rw [show i + 1 + (pre.length + 1) - 1 = i + (pre.length + 1 + 1) - 1 by omega]
  | _ :: _, 0, _, _, _, _, _, _, _, hf => by simp at hf

/-- The fuel only decides whether there is an outcome, not which. -/
theorem copyLoop_fuel (size : Int) : ∀ (f f' : Nat) (buffer : Nat → Byte) (i : Nat) (s : Stdin) {r r' : Copied},
    copyLoop f buffer size i s = some r → copyLoop f' buffer size i s = some r' → r = r'
  | 0, _, _, _, _, _, _, h, _ => by simp [copyLoop] at h
  | _ + 1, 0, _, _, _, _, _, _, h' => by simp [copyLoop] at h'
  | f + 1, f' + 1, buffer, i, s, r, r', h, h' => by
    cases hg : s.get s.startPoint with
    | none => simp [copyLoop, hg] at h
    | some c =>
      simp only [copyLoop, hg, Option.bind_eq_bind, Option.bind_some] at h h'
      by_cases hc : c = newline
      · simp only [hc, if_true] at h h'
        exact Option.some.inj (h.symm.trans h')
      · by_cases hi : (i : Int) = size - 1
        · simp only [hc, hi, if_true, if_false] at h h'
          exact Option.some.inj (h.symm.trans h')
        · simp only [hc, hi, if_false] at h h'
          exact copyLoop_fuel size f f' _ _ _ h h'

theorem copyInput_fuel {f f' : Nat} {buffer : Nat → Byte} {size : Int} {s : Stdin} {r r' : Copied}
    (h : copyInput f buffer size s = some r) (h' : copyInput f' buffer size s = some r') : r = r' := by
  cases hg : s.get s.startPoint with
  | none => simp [copyInput, hg] at h
  | some c =>
    simp only [copyInput, hg, Option.bind_eq_bind, Option.bind_some] at h h'
    by_cases hc : c = ctrlD
    · simp only [hc, if_true] at h h'
      exact Option.some.inj (h.symm.trans h')
    · simp only [hc, if_false] at h h'
      exact copyLoop_fuel size f f' _ _ _ h h'

theorem copyInput_eq_loop {s : Stdin} {c : Byte} {r : List Byte} (h : Holds s (c :: r)) (hc : c ≠ ctrlD)
    (fuel : Nat) (buffer : Nat → Byte) (size : Int) :
    copyInput fuel buffer size s = copyLoop fuel buffer size 0 s := by
  simp only [copyInput, h.get_start, Option.bind_eq_bind, Option.bind_some, hc, if_false]

/-- A leading `^D` moves `start_point` on without wrapping it. -/
theorem copyInput_ctrlD {s : Stdin} {r : List Byte} (h : Holds s (ctrlD :: r)) (fuel : Nat)
    (buffer : Nat → Byte) (size : Int) :
    copyInput fuel buffer size s =
      some ⟨{ s with startPoint := s.startPoint + 1, inputCount := s.inputCount - 1 }, buffer, 0⟩ := by
  simp only [copyInput, h.get_start, Option.bind_eq_bind, Option.bind_some, if_true]

/-! ## The ring and its two users -/

inductive Op where
  | add (c : Byte)
  | copy (buffer : Nat → Byte) (size : Int)

/-- One call. `do_read` calls `copy_input` only once `buffer_is_ready` (systemcall.c:42-47). -/
inductive Step : Stdin → Op → Stdin → Prop
  | add {s c r} : addChar c s = some r → Step s (.add c) r.st
  | copy {s buffer size fuel r} : bufferIsReady s = true → copyInput fuel buffer size s = some r →
      Step s (.copy buffer size) r.st

/-- A key step read off the evaluated call. -/
theorem Step.of_addChar {s t : Stdin} {c : Byte} (h : (addChar c s).map Added.st = some t) : Step s (.add c) t := by
  obtain ⟨r, hr, rfl⟩ := Option.map_eq_some_iff.1 h
  exact .add hr

/-- One call, with fuel for its loop. -/
def exec (fuel : Nat) : Op → Stdin → Option Stdin
  | .add c, s => (addChar c s).map Added.st
  | .copy buffer size, s => if bufferIsReady s then (copyInput fuel buffer size s).map Copied.st else none

theorem Step.of_copyInput {s t : Stdin} {buffer : Nat → Byte} {size : Int} (fuel : Nat)
    (hr : bufferIsReady s = true) (h : (copyInput fuel buffer size s).map Copied.st = some t) :
    Step s (.copy buffer size) t := by
  obtain ⟨r, hcopy, rfl⟩ := Option.map_eq_some_iff.1 h
  exact .copy hr hcopy

theorem Step.of_exec {s t : Stdin} {i : Op} (fuel : Nat) (h : exec fuel i s = some t) : Step s i t := by
  cases i with
  | add c => exact .of_addChar h
  | copy buffer size =>
    rw [exec] at h
    split at h
    case isTrue hr => exact .of_copyInput fuel hr h
    case isFalse => cases h

end Stdin
end Sbuos
