import Mathlib.Data.Nat.Digits.Lemmas
/-!
# Numerals

`Numeral b ds n`: the digits `ds`, the highest first, are the numeral of `n` to the base `b`. `lastDigits` is what a
loop has that fills a fixed number of places from the last one on; with as many places as `n` has digits it is
the numeral.
-/
namespace Lib

variable {b n k : Nat} {ds ds' : List Nat}

structure Numeral (b : Nat) (ds : List Nat) (n : Nat) : Prop where
  lt : ∀ d ∈ ds, d < b
  ne_nil : ds ≠ []
  no_zero : ds.head? = some 0 → ds = [0]
  value : Nat.ofDigits b ds.reverse = n

/-- The numeral of `n`, from its digits. -/
def numeral (b n : Nat) : List Nat := if n = 0 then [0] else (Nat.digits b n).reverse

/-- The last `k` digits of `n`. -/
def lastDigits (b : Nat) : Nat → Nat → List Nat
  | 0, _ => []
  | k + 1, n => lastDigits b k (n / b) ++ [n % b]

@[simp] theorem numeral_zero : numeral b 0 = [0] := rfl

theorem numeral_of_ne (hn : n ≠ 0) : numeral b n = (Nat.digits b n).reverse := if_neg hn

@[simp] theorem length_lastDigits (k n : Nat) : (lastDigits b k n).length = k := by
  induction k generalizing n with
  | zero => rfl
  | succ k ih => rw [lastDigits, List.length_append, ih, List.length_singleton]

theorem lastDigits_lt (hb : 0 < b) (k n : Nat) : ∀ d ∈ lastDigits b k n, d < b := by
  induction k generalizing n with
  | zero => intro d hd; cases hd
  | succ k ih =>
    intro d hd
    rcases List.mem_append.1 hd with hd | hd
    · exact ih _ d hd
    · rw [List.mem_singleton.1 hd]
      exact Nat.mod_lt n hb

/-- As many places as there are digits hold the digits. -/
theorem lastDigits_digits (hb : 1 < b) (n : Nat) :
    lastDigits b (Nat.digits b n).length n = (Nat.digits b n).reverse := by
  induction n using Nat.strong_induction_on with
  | _ n ih =>
    by_cases hn : n = 0
    · subst hn
      rw [Nat.digits_zero]
      rfl
    · rw [Nat.digits_def' hb (Nat.pos_of_ne_zero hn), List.length_cons, lastDigits,
        ih _ (Nat.div_lt_self (Nat.pos_of_ne_zero hn) hb), List.reverse_cons]

/-- `k` digits taken off a number are those of its remainder. -/
theorem ofDigits_range (b k n : Nat) : Nat.ofDigits b ((List.range k).map fun j => n / b ^ j % b) = n % b ^ k := by
  induction k with
  | zero => exact (Nat.mod_one n).symm
  | succ k ih =>
    rw [List.range_succ, List.map_append, Nat.ofDigits_append, ih, List.length_map, List.length_range,
      List.map_singleton, Nat.ofDigits_singleton, Nat.mod_pow_succ]

theorem numeral_eq_lastDigits (hb : 1 < b) (hn : n ≠ 0) : numeral b n = lastDigits b (Nat.digits b n).length n := by
  rw [numeral_of_ne hn, lastDigits_digits hb]

theorem numeral_spec (hb : 1 < b) (n : Nat) : Numeral b (numeral b n) n := by
  by_cases hn : n = 0
  · subst hn
    refine ⟨fun d hd => ?_, List.cons_ne_nil _ _, fun _ => rfl, Nat.ofDigits_singleton⟩
    rw [List.mem_singleton.1 hd]
    omega
  · have hne := Nat.digits_ne_nil_iff_ne_zero (b := b).2 hn
    rw [numeral_of_ne hn]
    refine ⟨fun d hd => Nat.digits_lt_base hb (List.mem_reverse.1 hd), fun h => hne (List.reverse_eq_nil_iff.1 h),
      fun h => ?_, by rw [List.reverse_reverse, Nat.ofDigits_digits]⟩
    rw [List.head?_reverse, List.getLast?_eq_getLast_of_ne_nil hne] at h
    exact absurd (Option.some.inj h) (Nat.getLast_digit_ne_zero b hn)

/-- **A number has one numeral.** -/
theorem Numeral.eq_numeral (hb : 1 < b) (h : Numeral b ds n) : ds = numeral b n := by
  by_cases hz : ds.head? = some 0
  · obtain rfl := h.no_zero hz
    rw [← h.value]
    rfl
  · have hne : ds.reverse ≠ [] := fun he => h.ne_nil (List.reverse_eq_nil_iff.1 he)
    have hlast : ∀ hr : ds.reverse ≠ [], ds.reverse.getLast hr ≠ 0 := by
      intro hr h0
      rw [← List.getLast?_reverse, List.getLast?_eq_getLast_of_ne_nil hr, h0] at hz
      exact hz rfl
    have hdigits := Nat.digits_ofDigits b hb ds.reverse (fun d hd => h.lt d (List.mem_reverse.1 hd)) hlast
    rw [h.value] at hdigits
    have hn : n ≠ 0 := by
      rintro rfl
      rw [Nat.digits_zero] at hdigits
      exact hne hdigits.symm
    rw [numeral_of_ne hn, hdigits, List.reverse_reverse]

theorem length_numeral_pos (b n : Nat) : 0 < (numeral b n).length := by
  by_cases h0 : n = 0
  · subst h0
    exact Nat.one_pos
  · rw [numeral_of_ne h0, List.length_reverse]
    exact List.length_pos_iff.2 (Nat.digits_ne_nil_iff_ne_zero.2 h0)

theorem length_numeral_mono {m : Nat} (h : n ≤ m) : (numeral b n).length ≤ (numeral b m).length := by
  by_cases hn : n = 0
  · rw [hn]
    exact length_numeral_pos b m
  · rw [numeral_of_ne hn, numeral_of_ne (by omega), List.length_reverse, List.length_reverse]
    exact Nat.le_length_digits_le b n m h

end Lib
