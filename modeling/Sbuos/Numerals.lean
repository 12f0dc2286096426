import Sbuos.Stores
import Sbuos.Strutil
import Sbuos.Lib.Numeral
/-!
# The numerals that printf writes (sys/unix_helpers.c:122-197)

`itoh_printf` and `itoa_printf` count the digits of a copy of the number, then fill that many places from the
last one on. The copy that `itoa_printf` counts is an `int`, the number it fills from is not.

**`numerals_denote`**: hexadecimal is right for every number, `%d` for every number but `INT_MIN`, whose negation
is negative again and becomes a large 64-bit number.
-/
namespace Sbuos
open Lib

/-- `'-'`. -/
def minus : Byte := 0x2d

/-- `while (temp) { i++; temp /= 16; }` (unix_helpers.c:128-133). -/
def countHex (temp : Word) : Nat :=
  if temp = 0 then 0 else countHex (temp / 16) + 1
termination_by temp.toNat
decreasing_by
  rename_i h
  have hpos : temp.toNat ≠ 0 := fun h0 => h (BitVec.eq_of_toNat_eq h0)
  rw [BitVec.toNat_udiv]
  exact Nat.div_lt_self (Nat.pos_of_ne_zero hpos) (by decide)

/-- `while (temp) { i++; temp /= 10; }`, where `temp` is an `int` (unix_helpers.c:151-156). -/
def countDec (temp : Int) : Nat :=
  if temp = 0 then 0 else countDec (temp.tdiv 10) + 1
termination_by temp.natAbs
decreasing_by
  rw [Int.natAbs_tdiv]
  exact Nat.div_lt_self (by omega) (by decide)

/-- unix_helpers.c:137-140. -/
def hexChar (temp : Nat) : Byte :=
  if temp > 9 then 0x41 + BitVec.ofNat 8 (temp - 10) else 0x30 + BitVec.ofNat 8 temp

/-- unix_helpers.c:159. -/
def decChar (d : Nat) : Byte := 0x30 + BitVec.ofNat 8 d

/-- `for (i--; i >= 0; i--)`: the digits of `n` fill the places below `i` (unix_helpers.c:135-142, 158-161). -/
def fillDigits (char : Nat → Byte) (base buf : Nat) : Nat → Nat → Stores → Stores
  | 0, _, s => s
  | i + 1, n, s => fillDigits char base buf i (n / base) (s.put (buf + i) (char (n % base)))

/-- `itoh_printf` (unix_helpers.c:122-144, libc/printf.c:8-30). -/
def itohPrintf (buf : Nat) (n : Word) (s : Stores) : Stores :=
  if n = 0 then (s.put buf 0x30).put (buf + 1) 0
  else
    let i := countHex n
    fillDigits hexChar 16 buf i n.toNat (s.put (buf + i) 0)

/-- `itoa_printf` (unix_helpers.c:145-163, libc/printf.c:32-50). -/
def itoaPrintf (buf : Nat) (n : Word) (s : Stores) : Stores :=
  if n = 0 then (s.put buf 0x30).put (buf + 1) 0
  else
    let i := countDec (n.setWidth 32).toInt
    fillDigits decChar 10 buf i n.toNat (s.put (buf + i) 0)

/-- The text `%d` builds (unix_helpers.c:184-189, libc/printf.c:71-76). -/
def formatD (buf : Nat) (number : BitVec 32) (s : Stores) : Stores :=
  if number.toInt < 0 then itoaPrintf (buf + 1) ((-number).signExtend 64) (s.put buf minus)
  else itoaPrintf buf (number.signExtend 64) s

/-! ## What a numeral is -/

/-- The character of a digit. -/
def digitChar (d : Nat) : Byte := cString "0123456789ABCDEF" d

/-- The text of `n` to the base `b`. -/
def numeralText (b n : Nat) : List Byte := (numeral b n).map digitChar

/-- The text is a numeral of `n`: digits without a leading zero, other than `0` itself. -/
def IsNumeral (b : Nat) (w : List Byte) (n : Nat) : Prop := ∃ ds, w = ds.map digitChar ∧ Numeral b ds n

/-- The text is the decimal numeral of `i`, with `'-'` first when `i` is negative. -/
def IsDecimal (w : List Byte) (i : Int) : Prop :=
  if i < 0 then ∃ v, w = minus :: v ∧ IsNumeral 10 v i.natAbs else IsNumeral 10 w i.natAbs

/-- The text of an `int`. -/
def decimalText (i : Int) : List Byte :=
  if i < 0 then minus :: numeralText 10 i.natAbs else numeralText 10 i.natAbs

/-- The digit a character stands for. -/
def charDigit (c : Byte) : Nat := if c.toNat ≤ 0x39 then c.toNat - 0x30 else c.toNat - 0x37

/-- A text read as a numeral. -/
def readNumeral (b : Nat) (w : List Byte) : Nat := Nat.ofDigits b (w.map charDigit).reverse

/-- A text read as a decimal numeral with a sign. -/
def readDecimal : List Byte → Int
  | [] => 0
  | c :: w => if c = minus then -readNumeral 10 w else readNumeral 10 (c :: w)

variable {b n : Nat} {w : List Byte}

theorem isNumeral_iff (hb : 1 < b) : IsNumeral b w n ↔ w = numeralText b n := by
  constructor
  · rintro ⟨ds, rfl, hds⟩
    rw [numeralText, ← hds.eq_numeral hb]
  · rintro rfl
    exact ⟨_, rfl, numeral_spec hb n⟩

theorem isDecimal_iff {i : Int} : IsDecimal w i ↔ w = decimalText i := by
  rw [IsDecimal, decimalText]
  split
  · constructor
    · rintro ⟨v, rfl, hv⟩
      rw [(isNumeral_iff (by decide)).1 hv]
    · rintro rfl
      exact ⟨_, rfl, (isNumeral_iff (by decide)).2 rfl⟩
  · exact isNumeral_iff (by decide)

theorem digitChar_hex {d : Nat} (hd : d < 16) : hexChar d = digitChar d := by
  revert d
  decide

theorem digitChar_dec {d : Nat} (hd : d < 10) : decChar d = digitChar d := by
  revert d
  decide

theorem digitChar_ne_zero {d : Nat} (hd : d < 16) : digitChar d ≠ 0 := by
  revert d
  decide

theorem charDigit_digitChar {d : Nat} (hd : d < 16) : charDigit (digitChar d) = d := by
  revert d
  decide

theorem digitChar_ne_minus {d : Nat} (hd : d < 16) : digitChar d ≠ minus := by
  revert d
  decide

/-- **Reading a numeral back gives its number.** -/
theorem readNumeral_numeralText (hb : 1 < b) (h16 : b ≤ 16) (n : Nat) : readNumeral b (numeralText b n) = n := by
  have hspec := numeral_spec hb n
  have hmap : (numeralText b n).map charDigit = numeral b n := by
    rw [numeralText, List.map_map, List.map_congr_left (g := id) fun d hd => ?_, List.map_id]
    exact charDigit_digitChar (Nat.lt_of_lt_of_le (hspec.lt d hd) h16)
  rw [readNumeral, hmap, hspec.value]

theorem readDecimal_decimalText (i : Int) : readDecimal (decimalText i) = i := by
  have hread := readNumeral_numeralText (b := 10) (by decide) (by decide) i.natAbs
  rw [decimalText]
  split
  · rw [readDecimal, if_pos rfl, hread]
    omega
  · obtain ⟨d, ds, hds⟩ := List.exists_cons_of_ne_nil (numeral_spec (by decide : 1 < 10) i.natAbs).ne_nil
    have hd : d < 10 := (numeral_spec (by decide : 1 < 10) i.natAbs).lt d (hds ▸ List.mem_cons_self)
    rw [numeralText, hds, List.map_cons] at hread ⊢
    rw [readDecimal, if_neg (digitChar_ne_minus (by omega)), hread]
    omega

/-! ## The two loops -/

theorem countHex_eq (temp : Word) : countHex temp = (Nat.digits 16 temp.toNat).length := by
  induction temp using countHex.induct with
  | case1 => 
    rw [countHex, if_pos rfl]
    rfl
  | case2 temp h ih =>
    have hpos : temp.toNat ≠ 0 := fun h0 => h (BitVec.eq_of_toNat_eq h0)
    rw [countHex, if_neg h, ih, Nat.digits_def' (by decide) (Nat.pos_of_ne_zero hpos), List.length_cons,
      BitVec.toNat_udiv]
    rfl

theorem countDec_eq (temp : Int) : countDec temp = (Nat.digits 10 temp.natAbs).length := by
  induction temp using countDec.induct with
  | case1 =>
    rw [countDec, if_pos rfl]
    rfl
  | case2 temp h ih =>
    rw [countDec, if_neg h, ih, Nat.digits_def' (by decide) (Int.natAbs_pos.2 h), List.length_cons, Int.natAbs_tdiv]
    rfl

/-- The loop stores the last `i` digits, whatever the number. -/
theorem wrote_fillDigits {char : Nat → Byte} {buf i : Nat} (n : Nat) (s t : Stores) {v : List Byte}
    (h : s.Wrote t (buf + i) v) :
    s.Wrote (fillDigits char b buf i n t) buf ((lastDigits b i n).map char ++ v) := by
  induction i generalizing n t v with
  | zero => exact h
  | succ i ih =>
    rw [fillDigits, lastDigits, List.map_append, List.append_assoc]
    refine ih _ _ ?_
    have hlen : buf + i + [char (n % b)].length = buf + (i + 1) := rfl
    exact Stores.Wrote.before (hlen ▸ h) (Stores.wrote_put _ _ _)

/-- The characters of the loop are those of the numeral. -/
theorem map_char {char : Nat → Byte} (hchar : ∀ d < b, char d = digitChar d) {ds : List Nat} (hds : ∀ d ∈ ds, d < b) :
    ds.map char = ds.map digitChar :=
  List.map_congr_left fun d hd => hchar d (hds d hd)

section writes
variable (buf : Nat) (s : Stores)

theorem wrote_zero : s.Wrote ((s.put buf 0x30).put (buf + 1) 0) buf (numeralText b 0 ++ [0]) :=
  (Stores.wrote_put s buf 0x30).trans (Stores.wrote_put _ _ _)

/-- `itoh_printf` stores the numeral and a NUL. -/
theorem wrote_itohPrintf (n : Word) : s.Wrote (itohPrintf buf n s) buf (numeralText 16 n.toNat ++ [0]) := by
  rw [itohPrintf]
  split
  · rename_i h0
    rw [h0]
    exact wrote_zero buf s
  · rename_i h0
    have hn : n.toNat ≠ 0 := fun he => h0 (BitVec.eq_of_toNat_eq he)
    rw [numeralText, numeral_eq_lastDigits (by decide) hn, ← countHex_eq,
      ← map_char (fun d => digitChar_hex) (lastDigits_lt (by decide) _ _)]
    exact wrote_fillDigits _ _ _ (Stores.wrote_put _ _ _)

/-- `itoa_printf` fills as many places as its `int` has digits. -/
theorem wrote_itoaPrintf {n : Word} (hn : n ≠ 0) : s.Wrote (itoaPrintf buf n s) buf
    ((lastDigits 10 (Nat.digits 10 (n.setWidth 32).toInt.natAbs).length n.toNat).map digitChar ++ [0]) := by
  rw [itoaPrintf, if_neg hn, ← countDec_eq, ← map_char (fun d => digitChar_dec) (lastDigits_lt (by decide) _ _)]
  exact wrote_fillDigits _ _ _ (Stores.wrote_put _ _ _)

/-- It is right where the two copies agree. -/
theorem wrote_itoaPrintf_of_eq {n : Word} (hn : (n.setWidth 32).toInt.natAbs = n.toNat) :
    s.Wrote (itoaPrintf buf n s) buf (numeralText 10 n.toNat ++ [0]) := by
  by_cases h0 : n = 0
  · rw [itoaPrintf, if_pos h0, h0]
    exact wrote_zero buf s
  · have hne : n.toNat ≠ 0 := fun he => h0 (BitVec.eq_of_toNat_eq he)
    rw [numeralText, numeral_eq_lastDigits (by decide) hne]
    have := wrote_itoaPrintf buf s h0
    rwa [hn] at this

end writes

theorem numeralText_ne_zero (hb : 1 < b) (h16 : b ≤ 16) : ∀ c ∈ numeralText b n, c ≠ 0 := by
  intro c hc
  obtain ⟨d, hd, rfl⟩ := List.mem_map.1 hc
  exact digitChar_ne_zero (Nat.lt_of_lt_of_le ((numeral_spec hb n).lt d hd) h16)

theorem decimalText_ne_zero (i : Int) : ∀ c ∈ decimalText i, c ≠ 0 := by
  have hnum := numeralText_ne_zero (n := i.natAbs) (b := 10) (by decide) (by decide)
  intro c hc
  rw [decimalText] at hc
  split at hc
  · rcases List.mem_cons.1 hc with rfl | hc
    · decide
    · exact hnum c hc
  · exact hnum c hc

theorem Stores.Wrote.spells {s t : Stores} {a : Nat} (h : s.Wrote t a (w ++ [0])) (hw : ∀ c ∈ w, c ≠ 0) :
    Spells (shift a t.mem) w := by
  rw [h.mem]
  exact spells_stored hw

/-! ## `%d` -/

section formatD
variable {number : BitVec 32}

/-- An `int` that is not negative comes to `itoa_printf` as it is. -/
theorem toNat_signExtend (h : 0 ≤ number.toInt) : (number.signExtend 64).toNat = number.toInt.natAbs := by
  have hint := BitVec.toInt_signExtend_of_le (x := number) (show 32 ≤ 64 by decide)
  have hlt := number.toInt_lt
  rw [BitVec.toInt_eq_toNat_cond] at hint
  have hlt' := (number.signExtend 64).isLt
  split at hint <;> omega

theorem setWidth_signExtend (number : BitVec 32) : (number.signExtend 64).setWidth 32 = number := by
  ext i hi
  simp [BitVec.getElem_setWidth, BitVec.getLsbD_signExtend, hi]
  omega

/-- What `%d` stores: the text of the number, as long as it is not `INT_MIN`. -/
theorem wrote_formatD (buf : Nat) (s : Stores) (hne : number ≠ BitVec.intMin 32) :
    s.Wrote (formatD buf number s) buf (decimalText number.toInt ++ [0]) := by
  rw [formatD, decimalText]
  split
  · rename_i hneg
    have hval := BitVec.toInt_neg_of_ne_intMin hne
    have hnat : ((-number).signExtend 64).toNat = number.toInt.natAbs := by
      rw [toNat_signExtend (by omega), hval]
      omega
    have htail := wrote_itoaPrintf_of_eq (buf + 1) (s.put buf minus) (n := (-number).signExtend 64)
      (by rw [setWidth_signExtend, hval, hnat]; omega)
    rw [hnat] at htail
    exact (Stores.wrote_put s buf minus).trans htail
  · rename_i hpos
    have hnat := toNat_signExtend (Int.not_lt.1 hpos)
    have := wrote_itoaPrintf_of_eq buf s (n := number.signExtend 64) (by rw [setWidth_signExtend, hnat])
    rwa [hnat] at this

/-- At `INT_MIN` it stores the last ten digits of `2^64 - 2^31`. -/
theorem wrote_formatD_intMin (buf : Nat) (s : Stores) :
    s.Wrote (formatD buf (BitVec.intMin 32) s) buf (decimalText (-1562067968) ++ [0]) := by
  have htail := wrote_itoaPrintf (buf + 1) (s.put buf minus) (n := (-BitVec.intMin 32).signExtend 64) (by decide)
  have htext : (lastDigits 10 (Nat.digits 10 (((-BitVec.intMin 32).signExtend 64).setWidth 32).toInt.natAbs).length
      ((-BitVec.intMin 32).signExtend 64).toNat).map digitChar = numeralText 10 1562067968 := by decide
  rw [htext] at htail
  rw [formatD, if_pos (by decide)]
  exact (Stores.wrote_put s buf minus).trans htail

/-- **The numerals of the kernel's printf.** -/
theorem numerals_denote (buf : Nat) (n : Word) (number : BitVec 32) (s : Stores) :
    (∃ w, Spells (shift buf (itohPrintf buf n s).mem) w ∧ IsNumeral 16 w n.toNat) ∧
      ((∃ w, Spells (shift buf (formatD buf number s).mem) w ∧ IsDecimal w number.toInt) ↔
        number ≠ BitVec.intMin 32) := by
  refine ⟨?_, ?_, fun hne => ?_⟩
  · exact ⟨_, (wrote_itohPrintf buf s n).spells (numeralText_ne_zero (by decide) (by decide)),
      (isNumeral_iff (by decide)).2 rfl⟩
  · rintro ⟨w, hw, hdec⟩ rfl
    have hspells := (wrote_formatD_intMin buf s).spells (decimalText_ne_zero _)
    have htext := hw.unique hspells
    rw [isDecimal_iff.1 hdec] at htext
    have hread := congrArg readDecimal htext
    rw [readDecimal_decimalText, readDecimal_decimalText] at hread
    exact absurd hread (by decide)
  · exact ⟨_, (wrote_formatD buf s hne).spells (decimalText_ne_zero _), isDecimal_iff.2 rfl⟩

/-- `%d` of `INT_MIN` builds `-1562067968`. -/
theorem numerals_denote_intMin : ¬∃ w, Spells (shift 0 (formatD 0 0x80000000 ⟨fun _ => 0, []⟩).mem) w ∧
    IsDecimal w (0x80000000 : BitVec 32).toInt := by
  rintro ⟨w, hw, hdec⟩
  have hspells := (wrote_formatD_intMin 0 ⟨fun _ => 0, []⟩).spells (decimalText_ne_zero _)
  have htext := hw.unique hspells
  rw [isDecimal_iff.1 hdec] at htext
  exact absurd htext (by decide)

end formatD

end Sbuos
