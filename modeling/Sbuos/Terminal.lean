import Sbuos.Screen
import Sbuos.Lib.Tape
/-!
# The screen as a terminal (sys/unix_helpers.c:3-75)

`shows_last_lines` is about characters and newlines. With tabs and backspaces the rows are no longer those of a text,
but the cells before the cursor are still a tape (`Lib.Tape`): `feed` is what a byte does to it. A tab goes to the next
column that is a multiple of 4, because its loop looks at the column anew each time, and does nothing at such a column.
A backspace blanks the cell before the cursor, or the first one if there is none before it.

**`shows_tape`**: whatever is written, `row` and `col` are where the tape ends and the cells before them are its.
-/
namespace Sbuos
open Lib

namespace Screen

/-- What a byte does to the cells before the cursor. -/
def feed (t : List Byte) (v : Byte) : List Byte :=
  if v = 0 then t
  else if v = 10 then Tape.newRow 80 23 32 t
  else if v = 9 then Tape.pad 80 23 32 4 t
  else if v = 8 then t.dropLast
  else Tape.put 80 23 t v

/-- The cells before the cursor are `t`. -/
structure Before (t : List Byte) (s : Screen) : Prop where
  length_eq : t.length = 80 * s.row + s.col
  row_le : s.row ≤ 22
  char : ∀ i (h : i < t.length), s.char (i / 80) (i % 80) = t[i]

/-- What is stored from `s` to `t` is above row 23, and the places below keep what they had. -/
structure Above (s t : Screen) : Prop where
  stores : ∀ i ∈ t.stores, i ∈ s.stores ∨ i < 160 * 23
  mem : ∀ i, 160 * 23 ≤ i → t.mem i = s.mem i

section above
variable {s t u : Screen} {v : Byte} {i n : Nat}

theorem Above.refl (s : Screen) : Above s s := ⟨fun _ => .inl, fun _ _ => rfl⟩

theorem Above.trans (h : Above s t) (h' : Above t u) : Above s u :=
  ⟨fun i hi => (h'.stores i hi).elim (h.stores i) .inr, fun i hi => (h'.mem i hi).trans (h.mem i hi)⟩

theorem Above.store (hi : i < 160 * 23) : Above s (s.store i v) := by
  refine ⟨fun j hj => ?_, fun j hj => Function.update_of_ne (by omega) ..⟩
  obtain rfl | hj := List.mem_cons.1 hj
  · exact .inr hi
  · exact .inl hj

/-- The cursor is no place of the memory. -/
theorem Above.moveTo (h : Above s t) (r c : Nat) : Above s { t with row := r, col := c } := ⟨h.stores, h.mem⟩

theorem Above.foldl {f : Screen → Nat → Screen} (l : List Nat) (hf : ∀ s, ∀ q ∈ l, Above s (f s q)) (s : Screen) :
    Above s (l.foldl f s) := by
  induction l generalizing s with
  | nil => exact .refl s
  | cons q l ih =>
    exact (hf s q List.mem_cons_self).trans (ih (fun s q hq => hf s q (List.mem_cons_of_mem _ hq)) _)

theorem above_putCell (hr : s.row ≤ 22) (hc : s.col < 80) : Above s (s.putCell v) := by
  have hfirst : Above s (s.store (160 * s.row + 2 * s.col) v) := .store (by omega)
  exact (hfirst.trans (.store (i := 160 * s.row + 2 * s.col + 1) (by omega))).moveTo s.row (s.col + 1)

theorem above_rowLoop (f : Byte → Byte) (hn : n ≤ 22) (s : Screen) : Above s (rowLoop f n 80 s) := by
  refine Above.foldl _ (fun s c hc => Above.store ?_) s
  rw [List.mem_range] at hc
  omega

theorem above_rollup (s : Screen) : Above s s.rollup := by
  have hrows : Above s (rowsUp 22 s) :=
    Above.foldl _ (fun s n hn => above_rowLoop id (Nat.le_of_lt (List.mem_range.1 hn)) s) s
  rw [rollup_eq]
  exact hrows.trans (above_rowLoop _ (Nat.le_refl 22) _)

theorem above_blankRest (hr : s.row ≤ 22) (hc : s.col ≤ 80) : Above s s.blankRest := by
  have key : ∀ k, s.col + k ≤ 80 → Above s ((List.range k).foldl (fun s _ => s.putCell 32) s) := by
    intro k hk
    induction k with
    | zero => exact .refl s
    | succ k ih =>
      obtain ⟨-, hrow, hcol⟩ := drawn_blanks (s := s) (k := k) hr (by omega)
      rw [List.range_succ, List.foldl_append]
      exact (ih (by omega)).trans (above_putCell (by omega) (by omega))
  exact key _ (by omega)

theorem above_doNewline (hr : s.row ≤ 22) (hc : s.col ≤ 80) : Above s s.doNewline := by
  have h := (above_blankRest hr hc).moveTo (s.blankRest.row + 1) 0
  rw [doNewline]
  split
  · exact (h.trans (above_rollup _)).moveTo 22 _
  · exact h

theorem above_writeChar (hr : s.row ≤ 22) (hc : s.col < 80) : Above s (s.writeChar v) := by
  have h := above_putCell (v := v) hr hc
  have hcol : (s.putCell v).col = s.col + 1 := rfl
  rw [writeChar, hcol]
  split
  · exact h.trans (above_doNewline hr (by rw [hcol]; omega))
  · exact h

end above

/-! ## What each does to the tape -/

section tape
variable {s : Screen} {t : List Byte} {v : Byte} {i k : Nat}

theorem Before.length_mod (h : Before t s) (hc : s.col < 80) : t.length % 80 = s.col := by
  rw [h.length_eq, Nat.mul_add_mod, Nat.mod_eq_of_lt hc]

theorem Before.length_lt (h : Before t s) (hc : s.col < 80) : t.length < 80 * 23 := by
  have hlen := h.length_eq
  have hrow := h.row_le
  omega

/-- A cell more. -/
theorem Before.putCell (h : Before t s) (hc : s.col < 80) : Before (t ++ [v]) (s.putCell v) := by
  have hd := drawn_putCell (v := v) h.row_le hc
  have hlen := h.length_eq
  refine ⟨by rw [List.length_append, hlen]; rfl, h.row_le, fun i hi => ?_⟩
  rw [List.length_append, List.length_singleton] at hi
  rw [hd.char _ _ (Nat.mod_lt _ (by decide))]
  by_cases hlt : i < t.length
  · rw [if_neg (by omega), h.char i hlt, List.getElem_append_left hlt]
  · obtain rfl : i = t.length := by omega
    rw [if_pos (by omega), List.getElem_concat_length rfl]

/-- **A new row.** -/
theorem Before.doNewline (h : Before t s) (hc : s.col ≤ 80) :
    Before (Tape.clip 80 23 (t ++ List.replicate (80 - s.col) 32)) s.doNewline ∧ s.doNewline.col = 0 := by
  obtain ⟨hrow, hcol, hd⟩ := drawn_doNewline h.row_le hc
  have hlen := h.length_eq
  have hr := h.row_le
  have hpadded : (t ++ List.replicate (80 - s.col) (32 : Byte)).length = 80 * (s.row + 1) := by
    rw [List.length_append, List.length_replicate]
    omega
  -- with the rest of the row blank
  have hrest : ∀ i (hi : i < (t ++ List.replicate (80 - s.col) (32 : Byte)).length),
      s.rest (i / 80) (i % 80) = (t ++ List.replicate (80 - s.col) (32 : Byte))[i] := by
    intro i hi
    rw [rest]
    by_cases hlt : i < t.length
    · rw [if_neg (by omega), h.char i hlt, List.getElem_append_left hlt]
    · rw [if_pos (by omega), List.getElem_append_right (by omega), List.getElem_replicate]
  refine ⟨?_, hcol⟩
  rw [Tape.clip, hpadded]
  by_cases hroom : s.row < 22
  · rw [if_pos (by omega)]
    refine ⟨by rw [hpadded, hrow, hcol]; omega, by omega, fun i hi => ?_⟩
    rw [hd.char _ _ (Nat.mod_lt _ (by decide)), if_pos hroom, hrest i hi]
  · rw [if_neg (by omega)]
    refine ⟨by rw [List.length_drop, hpadded, hrow, hcol]; omega, by omega, fun i hi => ?_⟩
    rw [List.length_drop, hpadded] at hi
    have hnext := hrest (80 + i) (by omega)
    rw [hd.char _ _ (Nat.mod_lt _ (by decide)), if_neg hroom, if_pos (by omega), List.getElem_drop, ← hnext]
    congr 1 <;> omega

/-- **A character.** -/
theorem Before.writeChar (h : Before t s) (hc : s.col < 80) :
    Before (Tape.put 80 23 t v) (s.writeChar v) ∧ (s.writeChar v).col < 80 := by
  have hput := h.putCell (v := v) hc
  have hcol : (s.putCell v).col = s.col + 1 := rfl
  have hrow : (s.putCell v).row = s.row := rfl
  rw [Screen.writeChar, hcol, Tape.put]
  by_cases hw : s.col + 1 ≥ 80
  · rw [if_pos hw]
    obtain ⟨hnew, hcol'⟩ := hput.doNewline (by omega)
    rw [show 80 - (s.putCell v).col = 0 by omega, List.replicate_zero, List.append_nil] at hnew
    exact ⟨hnew, by omega⟩
  · have hlen := hput.length_eq
    have hr := h.row_le
    rw [if_neg hw, Tape.clip_of_lt (by omega)]
    exact ⟨hput, by omega⟩

/-- The loop at a tab. -/
theorem Before.tab (h : Before t s) (hc : s.col < 80) (hk : (t.length + k) % 4 = 0 ∧ k < 4)
    (hi : 0 < k → i < t.length % 4) :
    Before (Tape.clip 80 23 (t ++ List.replicate k 32)) (s.tab i) ∧ (s.tab i).col < 80 ∧ Above s (s.tab i) := by
  have hlen := h.length_eq
  have hlt := h.length_lt hc
  induction k generalizing t s i with
  | zero =>
    rw [Screen.tab, dif_neg (by omega), List.replicate_zero, List.append_nil, Tape.clip_of_lt hlt]
    exact ⟨h, hc, .refl s⟩
  | succ k ih =>
    obtain ⟨hput, hcol⟩ := h.writeChar (v := 32) hc
    rw [Screen.tab, dif_pos (by have := hi (by omega); omega)]
    have habove := above_writeChar (v := 32) h.row_le hc
    by_cases hk0 : k = 0
    · -- the last blank may fill the window
      subst hk0
      have hmod : (Tape.put 80 23 t 32).length % 4 = 0 := by
        have hrest := (Tape.Rest.refl 80 t).put (show 0 < 23 by decide) 32
        have hrow := hrest.length_mod
        rw [List.length_append, List.length_singleton] at hrow
        omega
      have hlen' := hput.length_eq
      rw [Screen.tab, dif_neg (by omega)]
      exact ⟨hput, hcol, habove⟩
    · have hsame : Tape.put 80 23 t 32 = t ++ [32] := by
        refine Tape.clip_of_lt ?_
        rw [List.length_append, List.length_singleton]
        omega
      rw [hsame] at hput
      have hlen' : (t ++ [(32 : Byte)]).length = t.length + 1 := by rw [List.length_append, List.length_singleton]
      obtain ⟨htab, hcol', habove'⟩ := ih (i := i + 1) hput hcol (by omega) (by omega) hput.length_eq
        (hput.length_lt hcol)
      rw [List.append_assoc, List.singleton_append, ← List.replicate_succ] at htab
      exact ⟨htab, hcol', habove.trans habove'⟩

/-- One to the left. -/
theorem Before.back (h : Before t s) (hc : s.col < 80) : Before t.dropLast s.back ∧ s.back.col < 80 := by
  have hlen := h.length_eq
  have hr := h.row_le
  have hshorter : ∀ r c, r ≤ 22 → 80 * r + c = t.length - 1 → Before t.dropLast { s with row := r, col := c } := by
    intro r c hr' heq
    refine ⟨by rw [List.length_dropLast, ← heq], hr', fun i hi => ?_⟩
    rw [List.getElem_dropLast]
    exact h.char i _
  rw [Screen.back]
  split_ifs with hwrap hcol
  · exact ⟨hshorter _ _ (by omega) (by omega), Nat.lt_succ_self 79⟩
  · have hleft : s.col - 1 < 80 := by omega
    exact ⟨hshorter _ _ hr (by omega), hleft⟩
  · -- the cursor is at the top
    obtain rfl := List.eq_nil_of_length_eq_zero (l := t) (by omega)
    exact ⟨h, hc⟩

/-- **A backspace.** -/
theorem Before.erase (h : Before t s) (hc : s.col < 80) :
    Before t.dropLast (s.back.writeChar 32).back ∧ (s.back.writeChar 32).back.col < 80 ∧
      Above s (s.back.writeChar 32).back := by
  obtain ⟨hback, hc₁⟩ := h.back hc
  obtain ⟨hblank, hc₂⟩ := hback.writeChar (v := 32) hc₁
  obtain ⟨hagain, hc₃⟩ := hblank.back hc₂
  have hlt := h.length_lt hc
  have hsame : Tape.put 80 23 t.dropLast 32 = t.dropLast ++ [32] := by
    refine Tape.clip_of_lt ?_
    rw [List.length_append, List.length_dropLast, List.length_singleton]
    omega
  rw [hsame, List.dropLast_concat] at hagain
  have hmove : ∀ s : Screen, Above s s.back := by
    intro s
    rw [Screen.back]
    split_ifs
    · exact (Above.refl s).moveTo _ _
    · exact (Above.refl s).moveTo s.row _
    · exact .refl s
  exact ⟨hagain, hc₃, ((hmove s).trans (above_writeChar hback.row_le hc₁)).trans (hmove _)⟩

/-- **One `write_k`**, of any byte. -/
theorem Before.writeK (h : Before t s) (hc : s.col < 80) (v : Byte) :
    Before (feed t v) (s.writeK v) ∧ (s.writeK v).col < 80 ∧ Above s (s.writeK v) := by
  have hmod := h.length_mod hc
  rw [Screen.writeK, feed]
  split_ifs
  · exact ⟨h, hc, .refl s⟩
  · obtain ⟨hnew, hcol⟩ := h.doNewline (by omega)
    rw [Tape.newRow, hmod]
    exact ⟨hnew, by omega, above_doNewline h.row_le (by omega)⟩
  · exact h.tab hc (by omega) (by omega)
  · exact h.erase hc
  · obtain ⟨hput, hcol⟩ := h.writeChar (v := v) hc
    exact ⟨hput, hcol, above_writeChar h.row_le hc⟩

theorem Before.writes (h : Before t s) (hc : s.col < 80) (text : List Byte) :
    Before (text.foldl feed t) (text.foldl (fun s v => s.writeK v) s) ∧
      (text.foldl (fun s v => s.writeK v) s).col < 80 ∧ Above s (text.foldl (fun s v => s.writeK v) s) := by
  induction text generalizing t s with
  | nil => exact ⟨h, hc, .refl s⟩
  | cons v text ih =>
    obtain ⟨h', hc', habove⟩ := h.writeK hc v
    obtain ⟨hend, hcol, habove'⟩ := ih h' hc'
    exact ⟨hend, hcol, habove.trans habove'⟩

end tape

theorem Before.top (mem : Nat → Byte) : Before [] (top mem) := ⟨rfl, Nat.zero_le 22, fun _ h => by cases h⟩

/-- **The screen shows the tape.** Whatever bytes are written, tabs, backspaces and NULs included, the tape they make
ends at the cursor, the cells before it are the tape's, and only places above row 23 are ever stored to. -/
theorem shows_tape (mem : Nat → Byte) (text : List Byte) :
    let t := text.foldl feed []
    let s := text.foldl (fun s v => s.writeK v) (top mem)
    s.row = t.length / 80 ∧ s.col = t.length % 80 ∧ s.row ≤ 22 ∧
      (∀ i (h : i < t.length), s.char (i / 80) (i % 80) = t[i]) ∧ (∀ i ∈ s.stores, i < 160 * 23) ∧
      ∀ i, 160 * 23 ≤ i → s.mem i = mem i := by
  intro t s
  obtain ⟨h, hc, habove⟩ := (Before.top mem).writes (Nat.zero_lt_succ 79) text
  have hlen : t.length = 80 * s.row + s.col := h.length_eq
  have hcol : s.col < 80 := hc
  refine ⟨by omega, by omega, h.row_le, h.char, fun i hi => ?_, habove.mem⟩
  exact (habove.stores i hi).resolve_left fun hnil => by cases hnil

end Screen
end Sbuos
