import Sbuos.StdinCount
/-!
# The two indices of the input ring (sys/stdin.c:16-61)

Two updates leave the array: `(end_point-1)%STDIN_BUFFER_SIZE` is `-1` at `end_point = 0`, and `start_point++` behind a
`^D` does not wrap. `StaysInArray` says that a call does neither.

A ring is full when `end_point` is one slot behind `start_point`, and a full ring takes no key at all, so it had
better hold a line for a reader. `LeavesReader` says which calls keep that up: a last ordinary character is only
stored while a line is pending, and the last pending line is not one that a backspace has erased.
-/
namespace Sbuos.Stdin
open Lib

/-- Both indices are in the array. -/
structure InArray (s : Stdin) : Prop where
  start_nonneg : 0 ≤ s.startPoint
  start_lt : s.startPoint < bufferSize
  end_nonneg : 0 ≤ s.endPoint
  end_lt : s.endPoint < bufferSize

/-- The test of `_add_char` (stdin.c:17). -/
def Full (s : Stdin) : Prop := (s.endPoint + 1).tmod bufferSize = s.startPoint

instance (s : Stdin) : Decidable (Full s) := inferInstanceAs (Decidable (_ = _))

/-- The `k`-th character from `start_point` on, pending or not. -/
def ahead (s : Stdin) (k : Nat) : Byte := s.buffer ((s.startPoint.toNat + k) % bufferSize)

/-- The line end that a read stops at: a `^D` in front, or else the first newline among `size` characters. -/
def stopsAt (s : Stdin) (size : Int) : Option Nat :=
  if s.ahead 0 = ctrlD then some 0 else (List.range size.toNat).find? fun k => s.ahead k = newline

/-- A backspace at `end_point = 0` finds the ring full or empty, and a read that finds `^D` in front does not find it
in the last slot. -/
def StaysInArray (s : Stdin) : Op → Prop
  | .add c => c = backspace → s.endPoint = 0 → Full s ∨ s.endPoint = s.startPoint
  | .copy _ _ => s.ahead 0 = ctrlD → s.startPoint + 1 < bufferSize

/-- With no line pending an ordinary character does not take the last free slot, and with one line pending a read does
not stop at a line end in the slot of `end_point`, behind the pending characters. -/
def LeavesReader (s : Stdin) : Op → Prop
  | .add c => isEnd c = false → c ≠ backspace → s.inputCount = 0 → (s.endPoint + 2).tmod bufferSize ≠ s.startPoint
  | .copy _ size => s.inputCount = 1 → ∀ k, s.stopsAt size = some k →
      (s.startPoint.toNat + k) % bufferSize ≠ s.endPoint.toNat

namespace InArray
variable {s t : Stdin} {c : Byte} {r : Added} {i : Op}

theorem init : InArray Stdin.init := ⟨by decide, by decide, by decide, by decide⟩

theorem start_toNat (h : InArray s) : s.startPoint.toNat < bufferSize := by
  have h1 := h.start_lt
  have h2 := h.start_nonneg
  omega

theorem get_start (h : InArray s) : s.get s.startPoint = some (s.ahead 0) := by
  rw [get, if_pos ⟨h.start_nonneg, h.start_lt⟩, ahead, Nat.add_zero, Nat.mod_eq_of_lt h.start_toNat]

/-- One character taken out. -/
theorem advance (h : InArray s) (n : Int) :
    InArray { s with startPoint := (s.startPoint + 1).tmod bufferSize, inputCount := n } := by
  have hb := tmod_bounds (x := s.startPoint + 1) (by have := h.start_nonneg; omega)
  exact ⟨hb.1, hb.2, h.end_nonneg, h.end_lt⟩

theorem ahead_advance (h : InArray s) (n : Int) (k : Nat) :
    ahead { s with startPoint := (s.startPoint + 1).tmod bufferSize, inputCount := n } k = s.ahead (k + 1) := by
  rw [ahead, ahead]
  simp only [tmod_succ h.start_nonneg h.start_lt, Int.toNat_natCast]
  rw [Nat.mod_add_mod, show s.startPoint.toNat + 1 + k = s.startPoint.toNat + (k + 1) by omega]

/-! ### A key -/

theorem addChar_cases (h : InArray s) (e : addChar c s = some r) :
    (Full s ∧ r.st = s) ∨
    (¬Full s ∧ c = backspace ∧ s.endPoint = s.startPoint ∧ r.st = s) ∨
    (¬Full s ∧ c = backspace ∧ s.endPoint ≠ s.startPoint ∧
      r.st = { s with endPoint := (s.endPoint - 1).tmod bufferSize }) ∨
    (¬Full s ∧ c ≠ backspace ∧ r.st = ⟨Function.update s.buffer s.endPoint.toNat c, s.startPoint,
      (s.endPoint + 1).tmod bufferSize, if isEnd c = true then s.inputCount + 1 else s.inputCount⟩) := by
  rw [addChar] at e
  by_cases hf : (s.endPoint + 1).tmod bufferSize = s.startPoint
  · rw [if_pos hf] at e
    cases e
    exact .inl ⟨hf, rfl⟩
  · rw [if_neg hf] at e
    refine .inr ?_
    by_cases hc : c = backspace
    · by_cases he : s.endPoint = s.startPoint
      · rw [if_pos ⟨hc, he⟩] at e
        cases e
        exact .inl ⟨hf, hc, he, rfl⟩
      · rw [if_neg fun hh => he hh.2, if_pos hc] at e
        cases e
        exact .inr (.inl ⟨hf, hc, he, rfl⟩)
    · rw [if_neg fun hh => hc hh.1, if_neg hc, put, if_pos ⟨h.end_nonneg, h.end_lt⟩] at e
      refine .inr (.inr ⟨hf, hc, ?_⟩)
      simp only [Option.bind_eq_bind, Option.bind_some] at e
      by_cases hn : c = newline ∨ c = ctrlD
      · have hend : isEnd c = true := by simpa [isEnd] using hn
        rw [if_pos hn] at e
        cases e
        rw [if_pos hend]
      · have hend : ¬isEnd c = true := by simpa [isEnd] using hn
        rw [if_neg hn] at e
        cases e
        rw [if_neg hend]

theorem exists_addChar (h : InArray s) (c : Byte) : ∃ r, addChar c s = some r := by
  rw [addChar]
  split
  · exact ⟨_, rfl⟩
  · split
    · exact ⟨_, rfl⟩
    · split
      · exact ⟨_, rfl⟩
      · rw [put, if_pos ⟨h.end_nonneg, h.end_lt⟩]
        simp only [Option.bind_eq_bind, Option.bind_some]
        split <;> exact ⟨_, rfl⟩

/-! ### A read -/

/-- **The loop of `copy_input`**: it stops at the first newline, or after `size` characters. -/
theorem copyLoop_eq (fuel : Nat) : ∀ {s : Stdin} (buffer : Nat → Byte) (size : Int) (i : Nat), InArray s →
    (i : Int) < size → size - i ≤ fuel → ∃ r, copyLoop fuel buffer size i s = some r ∧ InArray r.st ∧
      r.st.buffer = s.buffer ∧ r.st.endPoint = s.endPoint ∧ ∃ k, (∀ j, j < k → s.ahead j ≠ newline) ∧
        r.st.startPoint.toNat = (s.startPoint.toNat + k + 1) % bufferSize ∧
        ((s.ahead k = newline ∧ (i : Int) + k < size ∧ r.st.inputCount = s.inputCount - 1) ∨
          (s.ahead k ≠ newline ∧ (i : Int) + k + 1 = size ∧ r.st.inputCount = s.inputCount)) := by
  induction fuel with
  | zero =>
    intro s buffer size i _ hi hfuel
    omega
  | succ fuel ih =>
    intro s buffer size i h hi hfuel
    have hstart : ∀ n : Int, ({ s with startPoint := (s.startPoint + 1).tmod bufferSize, inputCount := n } :
        Stdin).startPoint.toNat = (s.startPoint.toNat + 1) % bufferSize := by
      intro n
      simp only [tmod_succ h.start_nonneg h.start_lt, Int.toNat_natCast]
    rw [copyLoop]
    simp only [h.get_start, Option.bind_eq_bind, Option.bind_some]
    by_cases hc : s.ahead 0 = newline
    · rw [if_pos hc]
      exact ⟨_, rfl, h.advance _, rfl, rfl, 0, fun j hj => absurd hj (Nat.not_lt_zero j), hstart _,
        .inl ⟨hc, by simpa using hi, rfl⟩⟩
    · rw [if_neg hc]
      by_cases hlast : (i : Int) = size - 1
      · rw [if_pos hlast]
        exact ⟨_, rfl, h.advance s.inputCount, rfl, rfl, 0, fun j hj => absurd hj (Nat.not_lt_zero j),
          hstart s.inputCount, .inr ⟨hc, by simp [hlast], rfl⟩⟩
      · rw [if_neg hlast]
        obtain ⟨r, hr, hin, hbuf, hend, k, hbefore, hpos, hstop⟩ := ih
          (Function.update buffer i (s.ahead 0)) size (i + 1) (h.advance s.inputCount) (by omega) (by omega)
        have hshift : ∀ j, ahead { s with startPoint := (s.startPoint + 1).tmod bufferSize } j = s.ahead (j + 1) :=
          h.ahead_advance s.inputCount
        rw [hshift] at hstop
        refine ⟨r, hr, hin, hbuf, hend, k + 1, fun j hj => ?_, ?_, ?_⟩
        · rcases j with _ | j
          · exact hc
          · rw [← hshift]
            exact hbefore j (by omega)
        · rw [hpos, hstart s.inputCount, Nat.add_assoc, Nat.mod_add_mod]
          congr 1
          omega
        · rcases hstop with ⟨h1, h2, h3⟩ | ⟨h1, h2, h3⟩
          · exact .inl ⟨h1, by omega, h3⟩
          · exact .inr ⟨h1, by omega, h3⟩

theorem exists_copyInput (h : InArray s) (buffer : Nat → Byte) {size : Int} (hsize : 1 ≤ size) :
    ∃ fuel r, copyInput fuel buffer size s = some r := by
  refine ⟨size.toNat, ?_⟩
  rw [copyInput, h.get_start]
  simp only [Option.bind_eq_bind, Option.bind_some]
  by_cases hc : s.ahead 0 = ctrlD
  · rw [if_pos hc]
    exact ⟨_, rfl⟩
  · rw [if_neg hc]
    obtain ⟨r, hr, -⟩ := copyLoop_eq size.toNat buffer size 0 h (by omega) (by omega)
    exact ⟨r, hr⟩

/-- Where a read leaves the indices and the counter. -/
theorem copyInput_cases (h : InArray s) {buffer : Nat → Byte} {size : Int} (hsize : 1 ≤ size) {fuel : Nat} {r : Copied}
    (e : copyInput fuel buffer size s = some r) : r.st.endPoint = s.endPoint ∧
      ((s.ahead 0 = ctrlD ∧ r.st.startPoint = s.startPoint + 1 ∧ r.st.inputCount = s.inputCount - 1) ∨
      (s.ahead 0 ≠ ctrlD ∧ InArray r.st ∧ ((∃ k, s.stopsAt size = some k ∧
          r.st.startPoint.toNat = (s.startPoint.toNat + k + 1) % bufferSize ∧ r.st.inputCount = s.inputCount - 1) ∨
        (s.stopsAt size = none ∧ r.st.inputCount = s.inputCount)))) := by
  by_cases hc : s.ahead 0 = ctrlD
  · rw [copyInput, h.get_start] at e
    simp only [Option.bind_eq_bind, Option.bind_some, if_pos hc] at e
    cases e
    exact ⟨rfl, .inl ⟨hc, rfl, rfl⟩⟩
  · obtain ⟨r', hr', hin, -, hend, k, hbefore, hpos, hstop⟩ :=
      copyLoop_eq size.toNat buffer size 0 h (by omega) (by omega)
    have he' : copyInput size.toNat buffer size s = some r' := by
      rw [copyInput, h.get_start]
      simp only [Option.bind_eq_bind, Option.bind_some, if_neg hc]
      exact hr'
    obtain rfl := copyInput_fuel he' e
    refine ⟨hend, .inr ⟨hc, hin, ?_⟩⟩
    rw [stopsAt, if_neg hc]
    rcases hstop with ⟨hk, hlt, hcount⟩ | ⟨hk, hlast, hcount⟩
    · refine .inl ⟨k, ?_, hpos, hcount⟩
      rw [List.find?_range_eq_some]
      exact ⟨by simpa using hk, List.mem_range.2 (by omega), fun j hj => by simpa using hbefore j hj⟩
    · refine .inr ⟨?_, hcount⟩
      rw [List.find?_eq_none]
      intro j hj
      rw [List.mem_range] at hj
      rcases Nat.lt_or_eq_of_le (show j ≤ k by omega) with hjk | rfl
      · simpa using hbefore j hjk
      · simpa using hk

/-! ### Which calls stay -/

theorem addChar_iff (h : InArray s) (e : addChar c s = some r) : InArray r.st ↔ StaysInArray s (.add c) := by
  have hpred : ∀ n : Int, s.endPoint ≠ 0 → InArray ⟨s.buffer, s.startPoint, (s.endPoint - 1).tmod bufferSize, n⟩ := by
    intro n h0
    have hb := tmod_bounds (x := s.endPoint - 1) (by have := h.end_nonneg; omega)
    exact ⟨h.start_nonneg, h.start_lt, hb.1, hb.2⟩
  rcases h.addChar_cases e with ⟨hf, hst⟩ | ⟨-, hc, he, hst⟩ | ⟨hf, hc, he, hst⟩ | ⟨-, hc, hst⟩
  · rw [hst]
    exact iff_of_true h fun _ _ => .inl hf
  · rw [hst]
    exact iff_of_true h fun _ _ => .inr he
  · rw [hst]
    constructor
    · intro h' _ h0
      have hneg : 0 ≤ (s.endPoint - 1).tmod bufferSize := h'.end_nonneg
      rw [h0] at hneg
      exact absurd hneg (by decide)
    · exact fun hok => hpred _ fun h0 => (hok hc h0).elim hf he
  · rw [hst]
    have hb := tmod_bounds (x := s.endPoint + 1) (by have := h.end_nonneg; omega)
    exact iff_of_true ⟨h.start_nonneg, h.start_lt, hb.1, hb.2⟩ fun hb' => absurd hb' hc

theorem copyInput_iff (h : InArray s) {buffer : Nat → Byte} {size : Int} (hsize : 1 ≤ size) {fuel : Nat} {r : Copied}
    (e : copyInput fuel buffer size s = some r) : InArray r.st ↔ StaysInArray s (.copy buffer size) := by
  obtain ⟨hend, ⟨hc, hstart, -⟩ | ⟨hc, hin, -⟩⟩ := h.copyInput_cases hsize e
  · constructor
    · intro h' _
      rw [← hstart]
      exact h'.start_lt
    · intro hok
      have hlt := hok hc
      have h0 := h.start_nonneg
      exact ⟨by omega, by omega, hend ▸ h.end_nonneg, hend ▸ h.end_lt⟩
  · exact iff_of_true hin fun hc' => absurd hc' hc

theorem step_iff (h : InArray s) (hsize : SizePos i) (hs : Step s i t) : InArray t ↔ StaysInArray s i := by
  cases hs with
  | add e => exact h.addChar_iff e
  | copy _ e => exact h.copyInput_iff hsize e

end InArray

/-- **The indices stay in the array** in every run whose calls meet `StaysInArray`: the next key is taken and the next
read returns, so neither comes to a slot outside; and the call after leaves the indices in the array only if it meets
the condition too. -/
theorem indices_in_array {is : List Op} {t : Stdin}
    (hrun : Run (Guarded (fun s i => SizePos i ∧ StaysInArray s i) Step) Stdin.init is t) :
    InArray t ∧ (∀ c, ∃ r, addChar c t = some r) ∧
    (∀ buffer size, 1 ≤ size → bufferIsReady t = true → ∃ fuel r, copyInput fuel buffer size t = some r) ∧
    ∀ i u, SizePos i → Step t i u → (InArray u ↔ StaysInArray t i) := by
  have h : InArray t := hrun.invariant InArray InArray.init fun _ _ _ h hs => (h.step_iff hs.1.1 hs.2).2 hs.1.2
  exact ⟨h, h.exists_addChar, fun buffer _ hsize _ => h.exists_copyInput buffer hsize,
    fun _ _ hsize hs => h.step_iff hsize hs⟩

instance (s : Stdin) : ∀ i, Decidable (StaysInArray s i)
  | .add c => inferInstanceAs (Decidable (c = backspace → s.endPoint = 0 → Full s ∨ s.endPoint = s.startPoint))
  | .copy _ _ => inferInstanceAs (Decidable (s.ahead 0 = ctrlD → s.startPoint + 1 < bufferSize))

/-- The end goes round the array while the second line is typed. -/
theorem indices_in_array_a : ∃ t, Run (Guarded (fun s i => SizePos i ∧ StaysInArray s i) Step) Stdin.init twoLines t ∧
    t.endPoint < t.startPoint ∧ InArray t := by
  have hexec : ((runAll (fun i s => if SizePos i ∧ StaysInArray s i then exec 201 i s else none) twoLines
      Stdin.init).any fun t => t.endPoint < t.startPoint) = true := by decide +kernel
  obtain ⟨t, ht, hround⟩ := (Option.any_eq_true _ _).1 hexec
  have hrun : Run (Guarded (fun s i => SizePos i ∧ StaysInArray s i) Step) Stdin.init twoLines t :=
    .of_runAll_guarded (fun _ _ _ h => .of_exec 201 h) ht
  exact ⟨t, hrun, of_decide_eq_true hround, (indices_in_array hrun).1⟩

/-- `a`, return and two backspaces empty the ring and leave the counter at 1; the read goes over both old characters,
and the next backspace finds `end_point = 0`. -/
theorem indices_leave_array : ∃ t, Run (Guarded (fun _ i => SizePos i) Step) Stdin.init [.add 97, .add newline,
    .add backspace, .add backspace, .copy (fun _ => 0) 9, .add backspace] t ∧ t.endPoint = -1 := by
  let buf : Nat → Byte := Function.update (Function.update (fun _ => 0) 0 97) 1 newline
  have hkeys : Run (Guarded (fun _ i => SizePos i) Step) Stdin.init
      [.add 97, .add newline, .add backspace, .add backspace] ⟨buf, 0, 0, 1⟩ :=
    .cons ⟨trivial, .of_addChar rfl⟩ (.cons ⟨trivial, .of_addChar rfl⟩
      (.cons ⟨trivial, .of_addChar rfl⟩ (.single ⟨trivial, .of_addChar rfl⟩)))
  have hread : Guarded (fun _ i => SizePos i) Step ⟨buf, 0, 0, 1⟩ (.copy (fun _ => 0) 9) ⟨buf, 2, 0, 0⟩ :=
    ⟨show (1 : Int) ≤ 9 by decide, .of_copyInput 2 rfl rfl⟩
  have hlast : Guarded (fun _ i => SizePos i) Step ⟨buf, 2, 0, 0⟩ (.add backspace) ⟨buf, 2, -1, 0⟩ :=
    ⟨trivial, .of_addChar rfl⟩
  exact ⟨_, hkeys.append (.cons hread (.single hlast)), rfl⟩

/-! ## A full ring -/

section full
variable {s t : Stdin} {c : Byte} {r : Added} {i : Op}

/-- A ring that takes no key holds a line. -/
def NotWedged (s : Stdin) : Prop := Full s → 0 < s.inputCount

structure FullInv (s : Stdin) : Prop where
  inArray : InArray s
  count_nonneg : 0 ≤ s.inputCount
  notWedged : NotWedged s

theorem FullInv.init : FullInv Stdin.init := ⟨InArray.init, by decide, fun h => absurd h (by decide)⟩

theorem InArray.full_iff (h : InArray s) :
    Full s ↔ (s.endPoint.toNat + 1) % bufferSize = s.startPoint.toNat := by
  have h0 := h.start_nonneg
  rw [Full, tmod_succ h.end_nonneg h.end_lt]
  omega

/-- One step back from a ring that is not empty does not fill it. -/
theorem InArray.not_full_pred (h : InArray s) (h0 : s.endPoint ≠ 0) (he : s.endPoint ≠ s.startPoint) (n : Int) :
    ¬Full ⟨s.buffer, s.startPoint, (s.endPoint - 1).tmod bufferSize, n⟩ := by
  have h1 := h.end_nonneg
  have h2 := h.end_lt
  have h3 : (s.endPoint - 1).tmod bufferSize = s.endPoint - 1 := Int.tmod_eq_of_lt (by omega) (by omega)
  have h4 : s.endPoint.tmod bufferSize = s.endPoint := Int.tmod_eq_of_lt h1 h2
  simp only [Full, h3, Int.sub_add_cancel, h4]
  exact he

/-- One step on fills the ring if it takes the last free slot. -/
theorem InArray.full_succ (h : InArray s) (b : Nat → Byte) (n : Int) :
    Full ⟨b, s.startPoint, (s.endPoint + 1).tmod bufferSize, n⟩ ↔ (s.endPoint + 2).tmod bufferSize = s.startPoint := by
  have h1 := h.end_nonneg
  have hb := tmod_bounds (x := s.endPoint + 1) (by omega)
  have hmod : ((s.endPoint + 1).tmod bufferSize + 1).tmod bufferSize = (s.endPoint + 2).tmod bufferSize := by
    rw [Int.tmod_eq_emod_of_nonneg (by omega), Int.tmod_eq_emod_of_nonneg (by omega),
      Int.tmod_eq_emod_of_nonneg (by omega), Int.emod_add_emod]
    congr 1
    omega
  simp only [Full, hmod]

theorem FullInv.addChar_iff (h : FullInv s) (e : addChar c s = some r) (hok : StaysInArray s (.add c)) :
    (NotWedged r.st ↔ LeavesReader s (.add c)) ∧ 0 ≤ r.st.inputCount := by
  have hcount := h.count_nonneg
  rcases h.inArray.addChar_cases e with ⟨hf, hst⟩ | ⟨-, hc, he, hst⟩ | ⟨hf, hc, he, hst⟩ | ⟨-, hc, hst⟩
  · rw [hst]
    have hpos := h.notWedged hf
    exact ⟨iff_of_true h.notWedged fun _ _ h0 => by omega, hcount⟩
  · rw [hst]
    exact ⟨iff_of_true h.notWedged fun _ hb => absurd hc hb, hcount⟩
  · rw [hst]
    have h0 : s.endPoint ≠ 0 := fun h0 => (hok hc h0).elim hf he
    exact ⟨iff_of_true (fun hfull => absurd hfull (h.inArray.not_full_pred h0 he _)) fun _ hb => absurd hc hb, hcount⟩
  · rw [hst, NotWedged, h.inArray.full_succ]
    simp only [LeavesReader]
    by_cases hend : isEnd c = true
    · rw [if_pos hend]
      have hpos : 0 < s.inputCount + 1 := by omega
      exact ⟨iff_of_true (fun _ => hpos) fun hno => absurd hend (by rw [hno]; decide), Int.le_of_lt hpos⟩
    · rw [if_neg hend]
      refine ⟨⟨fun hpos _ _ hz hlast => ?_, fun hlast hfull => ?_⟩, hcount⟩
      · have hp := hpos hlast
        omega
      · by_contra hp
        exact hlast (by simpa using hend) hc (by omega) hfull

theorem FullInv.copyInput_iff (h : FullInv s) {buffer : Nat → Byte} {size : Int} (hsize : 1 ≤ size) {fuel : Nat}
    {r : Copied} (hready : bufferIsReady s = true) (e : copyInput fuel buffer size s = some r)
    (hok : StaysInArray s (.copy buffer size)) :
    (NotWedged r.st ↔ LeavesReader s (.copy buffer size)) ∧ 0 ≤ r.st.inputCount := by
  have hready' : 0 < s.inputCount := by simpa [bufferIsReady] using hready
  have hin := (h.inArray.copyInput_iff hsize e).2 hok
  -- a read that stops at the line end `k` fills the ring if that is the slot of `end_point`
  have hstop : ∀ k, s.stopsAt size = some k → r.st.endPoint = s.endPoint →
      r.st.startPoint.toNat = (s.startPoint.toNat + k + 1) % bufferSize → r.st.inputCount = s.inputCount - 1 →
      (NotWedged r.st ↔ LeavesReader s (.copy buffer size)) ∧ 0 ≤ r.st.inputCount := by
    intro k hk hend hpos hcount
    have hslot : Full r.st ↔ (s.startPoint.toNat + k) % bufferSize = s.endPoint.toNat := by
      have hlt := Nat.mod_lt (s.startPoint.toNat + k) (show 0 < bufferSize by decide)
      have hend' : s.endPoint.toNat < bufferSize := by
        have h1 := h.inArray.end_lt
        have h2 := h.inArray.end_nonneg
        omega
      rw [hin.full_iff, hend, hpos, ← Nat.mod_add_mod]
      simp only [bufferSize] at *
      omega
    rw [NotWedged, hslot, hcount]
    refine ⟨⟨fun hnot h1 k' hk' hslot' => ?_, fun hleaves hslot' => ?_⟩, by omega⟩
    · obtain rfl := Option.some.inj (hk.symm.trans hk')
      have hp := hnot hslot'
      omega
    · by_contra hp
      exact hleaves (by omega) k hk hslot'
  obtain ⟨hend, ⟨hc, hstart, hcount⟩ | ⟨-, -, ⟨k, hk, hpos, hcount⟩ | ⟨hnone, hcount⟩⟩⟩ :=
    h.inArray.copyInput_cases hsize e
  · have hlt := hok hc
    have h0 := h.inArray.start_nonneg
    refine hstop 0 (by rw [stopsAt, if_pos hc]) hend ?_ hcount
    rw [hstart, Nat.mod_eq_of_lt (by omega)]
    omega
  · exact hstop k hk hend hpos hcount
  · refine ⟨iff_of_true (fun _ => by omega) fun _ k hk => ?_, by omega⟩
    rw [hnone] at hk
    cases hk

theorem FullInv.step (h : FullInv s) (hsize : SizePos i) (hok : StaysInArray s i) (hs : Step s i t) :
    (NotWedged t ↔ LeavesReader s i) ∧ (LeavesReader s i → FullInv t) := by
  have hin := (h.inArray.step_iff hsize hs).2 hok
  cases hs with
  | add e =>
    obtain ⟨hiff, hcount⟩ := h.addChar_iff e hok
    exact ⟨hiff, fun hl => ⟨hin, hcount, hiff.2 hl⟩⟩
  | copy hready e =>
    obtain ⟨hiff, hcount⟩ := h.copyInput_iff hsize hready e hok
    exact ⟨hiff, fun hl => ⟨hin, hcount, hiff.2 hl⟩⟩

end full

/-- **The ring does not wedge** in a run whose calls stay in the array and leave a reader: a full ring holds a line, so
where no key is taken a read can proceed. The call after wedges the ring if it does not leave a reader. -/
theorem ring_not_wedged {is : List Op} {t : Stdin}
    (hrun : Run (Guarded (fun s i => SizePos i ∧ StaysInArray s i ∧ LeavesReader s i) Step) Stdin.init is t) :
    (Full t → 0 < t.inputCount) ∧
    ¬((∀ c, ∃ r, addChar c t = some r ∧ r.st = t) ∧ bufferIsReady t = false) ∧
    ∀ i u, SizePos i → StaysInArray t i → Step t i u → ((Full u → 0 < u.inputCount) ↔ LeavesReader t i) := by
  have h : FullInv t := hrun.invariant FullInv FullInv.init
    fun _ _ _ h hs => (h.step hs.1.1 hs.1.2.1 hs.2).2 hs.1.2.2
  refine ⟨h.notWedged, fun ⟨hdropped, hready⟩ => ?_, fun i u hsize hok hs => (h.step hsize hok hs).1⟩
  obtain ⟨r, e, hst⟩ := hdropped newline
  have hcount : t.inputCount ≤ 0 := by simpa [bufferIsReady] using hready
  rcases h.inArray.addChar_cases e with ⟨hf, -⟩ | ⟨-, hc, -⟩ | ⟨-, hc, -⟩ | ⟨-, -, hst'⟩
  · have hpos := h.notWedged hf
    omega
  · exact absurd hc (by decide)
  · exact absurd hc (by decide)
  · have hsame := congrArg Stdin.inputCount (hst'.symm.trans hst)
    simp only [isEnd, BEq.rfl, Bool.true_or, if_true] at hsame
    omega

instance (s : Stdin) : ∀ i, Decidable (LeavesReader s i)
  | .add c => inferInstanceAs (Decidable (isEnd c = false → c ≠ backspace → s.inputCount = 0 →
      (s.endPoint + 2).tmod bufferSize ≠ s.startPoint))
  | .copy _ size => inferInstanceAs (Decidable (s.inputCount = 1 → ∀ k ∈ s.stopsAt size,
      (s.startPoint.toNat + k) % bufferSize ≠ s.endPoint.toNat))

/-- The second line is not read, and letters fill the ring. -/
theorem ring_not_wedged_a : ∃ t, Run (Guarded (fun s i => SizePos i ∧ StaysInArray s i ∧ LeavesReader s i) Step)
    Stdin.init (twoLines ++ (List.replicate 154 97).map .add) t ∧ Full t ∧ 0 < t.inputCount := by
  have hexec : ((runAll (fun i s => if SizePos i ∧ StaysInArray s i ∧ LeavesReader s i then exec 201 i s else none)
      (twoLines ++ (List.replicate 154 97).map .add) Stdin.init).any fun t => Full t) = true := by decide +kernel
  obtain ⟨t, ht, hfull⟩ := (Option.any_eq_true _ _).1 hexec
  rw [decide_eq_true_eq] at hfull
  have hrun : Run (Guarded (fun s i => SizePos i ∧ StaysInArray s i ∧ LeavesReader s i) Step) Stdin.init
      (twoLines ++ (List.replicate 154 97).map .add) t := .of_runAll_guarded (fun _ _ _ h => .of_exec 201 h) ht
  exact ⟨t, hrun, hfull, (ring_not_wedged hrun).1 hfull⟩

/-- A key, as a step of the ring. -/
def typeKey (c : Byte) (s : Stdin) : Option Stdin := (addChar c s).map Added.st

/-- Characters typed into a ring with room for them. -/
theorem typing {cs : List Byte} : ∀ {s : Stdin} {w : List Byte}, Holds s w → backspace ∉ cs →
    w.length + cs.length < bufferSize → ∃ t, runAll typeKey cs s = some t ∧ Run Step s (cs.map .add) t ∧
      Holds t (w ++ cs) ∧ t.inputCount = s.inputCount + cs.countP isEnd := by
  induction cs with
  | nil =>
    intro s w h _ _
    exact ⟨s, rfl, .nil, by rwa [List.append_nil], by simp⟩
  | cons c cs ih =>
    intro s w h hb hlen
    rw [List.mem_cons, not_or] at hb
    rw [List.length_cons] at hlen
    obtain ⟨r, e, hr, hcount⟩ := addChar_append h (by omega) (Ne.symm hb.1)
    obtain ⟨t, hall, hrun, ht, hcount'⟩ := ih hr hb.2 (by rw [List.length_append, List.length_singleton]; omega)
    refine ⟨t, ?_, .cons (.add e) hrun, by simpa using ht, ?_⟩
    · rw [runAll, typeKey, e]
      exact hall
    · rw [hcount', hcount, List.countP_cons]
      simp only [isEnd, Bool.or_eq_true, beq_iff_eq]
      split <;> omega

/-- **255 letters wedge the ring**: every key is dropped, return and backspace too, and no reader can proceed. -/
theorem letters_wedge : ∃ t, Run (Guarded (fun _ i => SizePos i) Step) Stdin.init
      ((List.replicate 255 97).map .add) t ∧ Full t ∧ (∀ c, addChar c t = some ⟨t, 1, false⟩) ∧
      bufferIsReady t = false := by
  have hcs : ∀ c ∈ List.replicate 255 (97 : Byte), c = 97 := fun c hc => (List.mem_replicate.1 hc).2
  obtain ⟨t, -, hrun, h, hcount⟩ := typing Holds.init (fun hb => absurd (hcs _ hb) (by decide))
    (by rw [List.length_nil, List.length_replicate]; decide)
  rw [List.nil_append] at h
  have hfull : (List.replicate 255 (97 : Byte)).length + 1 = bufferSize := by
    rw [List.length_replicate]
    rfl
  have hend : (List.replicate 255 (97 : Byte)).countP isEnd = 0 := by
    rw [List.countP_eq_zero]
    intro c hc
    rw [hcs c hc]
    decide
  refine ⟨t, hrun.guard fun i hi s => ?_, h.full_iff.2 hfull, addChar_full h hfull, ?_⟩
  · obtain ⟨c, -, rfl⟩ := List.mem_map.1 hi
    trivial
  · rw [bufferIsReady, hcount, hend]
    rfl

end Sbuos.Stdin
