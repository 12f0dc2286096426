import Sbuos.Numerals
/-!
# The shell's itoa (bin/sbush/strutil.c:91-121)

`itoa_r` stores the digits with the last one first, `strreverse` then swaps them around the middle. C's `%`
follows the sign of the dividend, and so a negative number gets characters below `'0'`, and no `'-'`.

**`itoa_prints`**: `itoa` is right for the numbers that are not negative. The status of a command can be -1
(sbushell.c:121, 244).
-/
namespace Sbuos
open Lib

/-- `itoa_r` (strutil.c:103-110). -/
def itoaR (buf : Nat) (i : Int) (mem : Nat → Byte) : Nat → Byte :=
  if i = 0 then Function.update mem buf 0
  else itoaR (buf + 1) (i.tdiv 10) (Function.update mem buf (BitVec.ofInt 8 (0x30 + i.tmod 10)))
termination_by i.natAbs
decreasing_by
  rw [Int.natAbs_tdiv]
  exact Nat.div_lt_self (by omega) (by decide)

/-- One turn of `strreverse` (strutil.c:94-96). -/
def swapChars (str l i : Nat) (mem : Nat → Byte) : Nat → Byte :=
  Function.update (Function.update mem (str + l - 1 - i) (mem (str + i))) (str + i) (mem (str + l - 1 - i))

/-- `strreverse` (strutil.c:91-99). The loop has a turn even for an empty string. -/
def strreverse (str : Nat) (mem : Nat → Byte) : Nat → Byte :=
  let l := strlen (shift str mem)
  (List.range ((l - 1).tdiv 2 + 1).toNat).foldl (fun mem i => swapChars str l.toNat i mem) mem

/-- `itoa` (strutil.c:112-121). -/
def itoa (buf : Nat) (i : BitVec 32) (mem : Nat → Byte) : Nat → Byte :=
  if i = 0 then Function.update (Function.update mem buf 0x30) (buf + 1) 0
  else strreverse buf (itoaR buf i.toInt mem)

section
variable {buf str l n k j : Nat} {mem : Nat → Byte} {w : List Byte}

/-! ## The digits -/

/-- The character of a digit of a number with the sign `σ`. -/
def signedChar (σ : Int) (d : Nat) : Byte := BitVec.ofInt 8 (0x30 + σ * d)

/-- `itoa_r` stores the digits, the last one first. -/
theorem itoaR_eq {σ : Int} (hσ : σ = 1 ∨ σ = -1) (n buf : Nat) (mem : Nat → Byte) :
    itoaR buf (σ * n) mem = overwrite buf ((Nat.digits 10 n).map (signedChar σ) ++ [0]) mem := by
  induction n using Nat.strong_induction_on generalizing buf mem with
  | _ n ih =>
    by_cases hn : n = 0
    · subst hn
      rw [itoaR, if_pos (by simp), Nat.digits_zero, List.map_nil, List.nil_append, overwrite_singleton]
    · have hne : σ * n ≠ 0 := by
        rcases hσ with rfl | rfl <;> omega
      have hdiv : (σ * n : Int).tdiv 10 = σ * (n / 10 : Nat) := by
        rcases hσ with rfl | rfl
        · rw [Int.one_mul, Int.one_mul, Int.ofNat_tdiv]
          rfl
        · rw [Int.neg_one_mul, Int.neg_one_mul, Int.neg_tdiv, Int.ofNat_tdiv]
          rfl
      have hmod : (σ * n : Int).tmod 10 = σ * (n % 10 : Nat) := by
        rcases hσ with rfl | rfl
        · rw [Int.one_mul, Int.one_mul, Int.ofNat_tmod]
          rfl
        · rw [Int.neg_one_mul, Int.neg_one_mul, Int.neg_tmod, Int.ofNat_tmod]
          rfl
      rw [itoaR, if_neg hne, hdiv, hmod, ih _ (Nat.div_lt_self (Nat.pos_of_ne_zero hn) (by decide)),
        overwrite_update, Nat.digits_def' (by decide) (Nat.pos_of_ne_zero hn)]
      rfl

/-! ## Turning them round -/

theorem swapChars_apply {i : Nat} (hi : i < l) (hj : j < l) : swapChars str l i mem (str + j) =
    mem (str + if j = i ∨ j = l - 1 - i then l - 1 - j else j) := by
  have hlast : str + l - 1 - i = str + (l - 1 - i) := by omega
  rw [swapChars, hlast]
  by_cases hji : j = i
  · subst hji
    rw [Function.update_self, if_pos (.inl rfl)]
  · rw [Function.update_of_ne (by omega)]
    by_cases hjl : j = l - 1 - i
    · subst hjl
      rw [Function.update_self, if_pos (.inr rfl)]
      congr 2
      omega
    · rw [Function.update_of_ne (by omega), if_neg (by omega)]

theorem swapChars_of_out {i a : Nat} (hi : i < l) (ha : a < str ∨ str + l ≤ a) : swapChars str l i mem a = mem a := by
  rw [swapChars, Function.update_of_ne (by omega), Function.update_of_ne (by omega)]

/-- After `k` turns the first `k` characters and the last `k` have changed places. -/
theorem swapLoop_apply (hk : 2 * k ≤ l + 1) (hj : j < l) :
    (List.range k).foldl (fun mem i => swapChars str l i mem) mem (str + j) =
      mem (str + if j < k ∨ l - 1 - j < k then l - 1 - j else j) := by
  induction k generalizing j with
  | zero =>
    rw [if_neg (by omega)]
    rfl
  | succ k ih =>
    rw [List.range_succ, List.foldl_append, List.foldl_cons, List.foldl_nil, swapChars_apply (by omega) hj]
    by_cases hjk : j = k ∨ j = l - 1 - k
    · rw [if_pos hjk, ih (by omega) (by omega), if_neg (by omega), if_pos (by omega)]
    · rw [if_neg hjk, ih (by omega) hj]
      congr 2
      by_cases hlt : j < k ∨ l - 1 - j < k
      · rw [if_pos hlt, if_pos (by omega)]
      · rw [if_neg hlt, if_neg (by omega)]

theorem swapLoop_of_out (hk : k ≤ l) {a : Nat} (ha : a < str ∨ str + l ≤ a) :
    (List.range k).foldl (fun mem i => swapChars str l i mem) mem a = mem a := by
  induction k with
  | zero => rfl
  | succ k ih =>
    rw [List.range_succ, List.foldl_append, List.foldl_cons, List.foldl_nil, swapChars_of_out (by omega) ha,
      ih (by omega)]

/-- **`strreverse` reverses a string.** -/
theorem Spells.strreverse (h : Spells (shift str mem) w) (hw : w ≠ []) (hlen : w.length < maxStrLen) :
    Spells (shift str (strreverse str mem)) w.reverse := by
  have hpos := List.length_pos_iff.2 hw
  have hturns : (((w.length : Int) - 1).tdiv 2 + 1).toNat = (w.length + 1) / 2 := by
    rw [Int.tdiv_eq_ediv_of_nonneg (by omega)]
    omega
  rw [Sbuos.strreverse, h.strlen hlen, hturns, Int.toNat_natCast]
  refine ⟨fun j hj => ?_, fun c hc => h.ne_zero c (List.mem_reverse.1 hc), ?_⟩
  · rw [List.length_reverse] at hj
    rw [shift, swapLoop_apply (by omega) hj, if_pos (by omega), List.getElem_reverse]
    exact h.chars _ (by omega)
  · rw [List.length_reverse, shift, swapLoop_of_out (by omega) (.inr (Nat.le_refl _))]
    exact h.nul

/-! ## The numeral -/

theorem signedChar_one {d : Nat} (hd : d < 10) : signedChar 1 d = digitChar d := by
  revert d
  decide

theorem signedChar_ne_zero {σ : Int} (hσ : σ = 1 ∨ σ = -1) {d : Nat} (hd : d < 10) : signedChar σ d ≠ 0 := by
  rcases hσ with rfl | rfl
  · revert d
    decide
  · revert d
    decide

/-- What `itoa` leaves for a number with the sign `σ`. -/
theorem spells_itoa {σ : Int} (hσ : σ = 1 ∨ σ = -1) {i : BitVec 32} (hi : i.toInt = σ * n) (buf : Nat)
    (mem : Nat → Byte) : Spells (shift buf (itoa buf i mem)) ((numeral 10 n).map (signedChar σ)) := by
  by_cases hn : n = 0
  · have h0 : i = 0 := BitVec.eq_of_toInt_eq (by rw [hi, hn]; simp)
    have hzero : signedChar σ 0 = 0x30 := by rw [signedChar]; simp
    rw [itoa, if_pos h0, hn, numeral_zero, List.map_singleton, hzero]
    have hstored : Spells (shift buf (overwrite buf ([0x30] ++ [0]) mem)) [0x30] := spells_stored (by decide)
    rwa [List.singleton_append, ← overwrite_update, overwrite_singleton] at hstored
  · have hne : i ≠ 0 := by
      rintro rfl
      have : (0 : Int) = σ * n := hi
      rcases hσ with rfl | rfl <;> omega
    have hlen : n < 10 ^ 10 := by
      have := i.toInt_lt
      have := i.le_toInt
      rcases hσ with rfl | rfl <;> omega
    have hchars : ∀ c ∈ (Nat.digits 10 n).map (signedChar σ), c ≠ 0 := by
      intro c hc
      obtain ⟨d, hd, rfl⟩ := List.mem_map.1 hc
      exact signedChar_ne_zero hσ (Nat.digits_lt_base (by decide) hd)
    have hstored : Spells (shift buf (overwrite buf (_ ++ [0]) mem)) _ := spells_stored hchars
    rw [itoa, if_neg hne, hi, itoaR_eq hσ, numeral_of_ne hn, List.map_reverse]
    refine hstored.strreverse (fun h => ?_) ?_
    · exact Nat.digits_ne_nil_iff_ne_zero.2 hn (List.map_eq_nil_iff.1 h)
    · rw [List.length_map]
      exact Nat.lt_of_le_of_lt ((Nat.digits_length_le_iff (by decide) n).2 hlen) (by decide)

/-- **`itoa` prints the numbers that are not negative**, and no others: there the sign takes no place. -/
theorem itoa_prints (i : BitVec 32) (buf : Nat) (mem : Nat → Byte) :
    (∃ w, Spells (shift buf (itoa buf i mem)) w ∧ IsDecimal w i.toInt ∧ readDecimal w = i.toInt) ↔ 0 ≤ i.toInt := by
  constructor
  · rintro ⟨w, hw, hdec, -⟩
    by_contra hneg
    have hspells := spells_itoa (.inr rfl) (i := i) (n := i.toInt.natAbs) (by omega) buf mem
    obtain rfl := hw.unique hspells
    have hlen := congrArg List.length (isDecimal_iff.1 hdec)
    rw [decimalText, if_pos (by omega), List.length_cons, numeralText, List.length_map, List.length_map] at hlen
    omega
  · intro hpos
    have hspells := spells_itoa (.inl rfl) (i := i) (n := i.toInt.natAbs) (by omega) buf mem
    have htext : (numeral 10 i.toInt.natAbs).map (signedChar 1) = decimalText i.toInt := by
      rw [decimalText, if_neg (by omega)]
      exact map_char (fun d => signedChar_one) (numeral_spec (by decide) _).lt
    rw [htext] at hspells
    exact ⟨_, hspells, isDecimal_iff.2 rfl, readDecimal_decimalText _⟩

/-- -1 is printed as `/`. -/
theorem itoa_prints_minus : ¬∃ w, Spells (shift 0 (itoa 0 (-1) fun _ => 0)) w ∧ IsDecimal w (-1 : BitVec 32).toInt ∧
    readDecimal w = (-1 : BitVec 32).toInt := by
  rintro ⟨w, hw, hdec, -⟩
  have hspells := spells_itoa (.inr rfl) (i := -1) (n := 1) (by decide) 0 fun _ => 0
  obtain rfl := hw.unique hspells
  exact absurd (isDecimal_iff.1 hdec) (by decide)

end

end Sbuos
