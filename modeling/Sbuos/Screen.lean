import Mathlib.Data.List.GetD
import Mathlib.Logic.Function.Basic
import Sbuos.Sysutil
import Sbuos.Lib.Layout
/-!
# The screen (sys/unix_helpers.c:3-75)

`write_k` puts a character at `row`, `col` of the display memory: 80 cells of two bytes a row, the character and its
attribute. A full row and a newline start a new one; beyond row 22 the rows above move up.

Places in the display memory are offsets from `display_mem`. `stores` is no variable of the source: it lists the
places stored to.
-/
namespace Sbuos
open Lib

structure Screen where
  mem : Nat → Byte
  row : Nat
  col : Nat
  stores : List Nat

namespace Screen

/-- `*position = v`. -/
def store (i : Nat) (v : Byte) (s : Screen) : Screen :=
  { s with mem := Function.update s.mem i v, stores := i :: s.stores }

/-- `rollup` (unix_helpers.c:11-23). -/
def rollup (s : Screen) : Screen :=
  let s := (List.range 22).foldl (fun s temprow => (List.range 80).foldl (fun s tempcol =>
    s.store (160 * temprow + 2 * tempcol) (s.mem (160 * (temprow + 1) + 2 * tempcol))) s) s
  (List.range 80).foldl (fun s tempcol => s.store (160 * 22 + 2 * tempcol) 32) s

/-- A character and its attribute at `row`, `col`, and `col ++`. -/
def putCell (v : Byte) (s : Screen) : Screen :=
  let position := 160 * s.row + 2 * s.col
  let s := (s.store position v).store (position + 1) 0
  { s with col := s.col + 1 }

/-- The loop of `do_newline`. -/
def blankRest (s : Screen) : Screen := (List.range (80 - s.col)).foldl (fun s _ => s.putCell 32) s

/-- `do_newline` (unix_helpers.c:25-39). -/
def doNewline (s : Screen) : Screen :=
  let s := s.blankRest
  let s := { s with col := 0, row := s.row + 1 }
  if s.row > 22 then { s.rollup with row := 22 } else s

/-- The last lines of `write_k`, all it does for a blank. -/
def writeChar (v : Byte) (s : Screen) : Screen :=
  let s := s.putCell v
  if s.col ≥ 80 then s.doNewline else s

/-- The loop at a tab; it looks at `col` each time. -/
def tab (i : Nat) (s : Screen) : Screen :=
  if _h : i < s.col % 4 then tab (i + 1) (s.writeChar 32) else s
termination_by 4 - i

/-- One to the left, or to the end of the row above. -/
def back (s : Screen) : Screen :=
  if s.col = 0 ∧ s.row > 0 then { s with col := 79, row := s.row - 1 }
  else if s.col > 0 then { s with col := s.col - 1 }
  else s

/-- `write_k` (unix_helpers.c:40-75). -/
def writeK (v : Byte) (s : Screen) : Screen :=
  if v = 0 then s
  else if v = 10 then s.doNewline
  else if v = 9 then s.tab 0
  else if v = 8 then (s.back.writeChar 32).back
  else s.writeChar v

/-- The character in a cell. -/
def char (s : Screen) (r c : Nat) : Byte := s.mem (160 * r + 2 * c)

/-! ## What each does to the cells -/

/-- The characters of `t` are `cell`, and what has been stored since `s` is above row 23. -/
structure Drawn (s t : Screen) (cell : Nat → Nat → Byte) : Prop where
  char : ∀ r c, c < 80 → t.char r c = cell r c
  stores : ∀ i ∈ t.stores, i ∈ s.stores ∨ i < 160 * 23

section cells
variable {s t u : Screen} {v : Byte} {r c n k q : Nat} {cell cell' : Nat → Nat → Byte}

theorem Drawn.refl : Drawn s s s.char := ⟨fun _ _ _ => rfl, fun _ => .inl⟩

theorem Drawn.trans (h : Drawn s t cell) (h' : Drawn t u cell') : Drawn s u cell' :=
  ⟨h'.char, fun i hi => (h'.stores i hi).elim (h.stores i) .inr⟩

theorem Drawn.congr (h : Drawn s t cell) (heq : ∀ r c, c < 80 → cell r c = cell' r c) : Drawn s t cell' :=
  ⟨fun r c hc => (h.char r c hc).trans (heq r c hc), h.stores⟩

theorem Drawn.moveTo (h : Drawn s t cell) (r c : Nat) : Drawn s { t with row := r, col := c } cell :=
  ⟨h.char, h.stores⟩

theorem Drawn.store (hn : n ≤ 22) (hq : q < 80) :
    Drawn s (s.store (160 * n + 2 * q) v) fun r c => if r = n ∧ c = q then v else s.char r c := by
  refine ⟨fun r c hc => ?_, fun i hi => ?_⟩
  · have hat : 160 * r + 2 * c = 160 * n + 2 * q ↔ r = n ∧ c = q := by omega
    simp only [Screen.char, Screen.store, Function.update_apply, hat]
  · obtain rfl | hi := List.mem_cons.1 hi
    · exact .inr (by omega)
    · exact .inl hi

/-- An attribute is not a character. -/
theorem Drawn.store_attribute (hn : n ≤ 22) (hq : q < 80) : Drawn s (s.store (160 * n + 2 * q + 1) v) s.char := by
  refine ⟨fun r c _ => ?_, fun i hi => ?_⟩
  · have hat : 160 * r + 2 * c ≠ 160 * n + 2 * q + 1 := by omega
    simp only [Screen.char, Screen.store, Function.update_of_ne hat]
  · obtain rfl | hi := List.mem_cons.1 hi
    · exact .inr (by omega)
    · exact .inl hi

/-- A loop that stores to the characters of row `n` what `f` makes of those below them. -/
def rowLoop (f : Byte → Byte) (n k : Nat) (s : Screen) : Screen :=
  (List.range k).foldl (fun s q => s.store (160 * n + 2 * q) (f (s.mem (160 * (n + 1) + 2 * q)))) s

/-- The rows up to `n` moved up by one. -/
def rowsUp (n : Nat) (s : Screen) : Screen := (List.range n).foldl (fun s n => rowLoop id n 80 s) s

theorem rollup_eq : s.rollup = rowLoop (fun _ => 32) 22 80 (rowsUp 22 s) := rfl

theorem rowsUp_succ : rowsUp (n + 1) s = rowLoop id n 80 (rowsUp n s) := by
  simp only [rowsUp, List.range_succ, List.foldl_append, List.foldl_cons, List.foldl_nil]

theorem rowLoop_succ (f : Byte → Byte) : rowLoop f n (k + 1) s =
    (rowLoop f n k s).store (160 * n + 2 * k) (f ((rowLoop f n k s).char (n + 1) k)) := by
  rw [rowLoop, List.range_succ, List.foldl_append]
  rfl

theorem rowLoop_cursor (f : Byte → Byte) : (rowLoop f n k s).row = s.row ∧ (rowLoop f n k s).col = s.col := by
  induction k with
  | zero => exact ⟨rfl, rfl⟩
  | succ k ih => rw [rowLoop_succ]; exact ih

theorem drawn_rowLoop (f : Byte → Byte) (hn : n ≤ 22) (hk : k ≤ 80) :
    Drawn s (rowLoop f n k s) fun r c => if r = n ∧ c < k then f (s.char (n + 1) c) else s.char r c := by
  induction k with
  | zero => exact Drawn.refl.congr fun r c _ => by simp
  | succ k ih =>
    have hd := ih (by omega)
    have hbelow : (rowLoop f n k s).char (n + 1) k = s.char (n + 1) k := by
      rw [hd.char _ _ hk, if_neg (by omega)]
    rw [rowLoop_succ, hbelow]
    refine (hd.trans (Drawn.store hn hk)).congr fun r c hc => ?_
    by_cases h : r = n ∧ c = k
    · rw [if_pos h, if_pos ⟨h.1, by omega⟩, h.2]
    · rw [if_neg h, hd.char r c hc]
      have hlt : r = n ∧ c < k ↔ r = n ∧ c < k + 1 := by omega
      simp only [hlt]

theorem drawn_rowsUp (hn : n ≤ 22) :
    Drawn s (rowsUp n s) fun r c => if r < n then s.char (r + 1) c else s.char r c := by
  induction n with
  | zero => exact Drawn.refl.congr fun r c _ => by simp
  | succ n ih =>
    have hd := ih (by omega)
    rw [rowsUp_succ]
    refine (hd.trans (drawn_rowLoop id (by omega) (Nat.le_refl 80))).congr fun r c hc => ?_
    by_cases h : r = n
    · subst h
      rw [if_pos ⟨rfl, hc⟩, if_pos (by omega), id, hd.char _ _ hc, if_neg (by omega)]
    · rw [if_neg (fun h' => h h'.1), hd.char r c hc]
      have hlt : r < n ↔ r < n + 1 := by omega
      simp only [hlt]

theorem rowsUp_cursor : (rowsUp n s).row = s.row ∧ (rowsUp n s).col = s.col := by
  induction n with
  | zero => exact ⟨rfl, rfl⟩
  | succ n ih =>
    obtain ⟨hrow, hcol⟩ := rowLoop_cursor (s := rowsUp n s) (n := n) (k := 80) id
    rw [rowsUp_succ, hrow, hcol]
    exact ih

theorem rollup_cursor : s.rollup.row = s.row ∧ s.rollup.col = s.col := by
  obtain ⟨hrow, hcol⟩ := rowLoop_cursor (s := rowsUp 22 s) (n := 22) (k := 80) fun _ => 32
  rw [rollup_eq, hrow, hcol]
  exact rowsUp_cursor

/-- **`rollup`** moves the rows up to 22 by one and blanks the last. -/
theorem drawn_rollup : Drawn s s.rollup fun r c =>
    if r < 22 then s.char (r + 1) c else if r = 22 then 32 else s.char r c := by
  have hd := drawn_rowsUp (s := s) (Nat.le_refl 22)
  rw [rollup_eq]
  refine (hd.trans (drawn_rowLoop _ (Nat.le_refl 22) (Nat.le_refl 80))).congr fun r c hc => ?_
  by_cases h : r = 22
  · rw [if_pos ⟨h, hc⟩, if_neg (by omega), if_pos h]
  · rw [if_neg (fun h' => h h'.1), hd.char r c hc]
    simp only [if_neg h]

/-- **A cell** gets its character, and the cursor goes on. -/
theorem drawn_putCell (hr : s.row ≤ 22) (hc : s.col < 80) :
    Drawn s (s.putCell v) fun r c => if r = s.row ∧ c = s.col then v else s.char r c := by
  have hd : Drawn s (s.store (160 * s.row + 2 * s.col) v) _ := Drawn.store hr hc
  have hd' := hd.trans (Drawn.store_attribute (v := 0) hr hc)
  exact ⟨fun r c h => (hd'.char r c h).trans (hd.char r c h), hd'.stores⟩

/-- The rest of the row, so far. -/
theorem drawn_blanks (hr : s.row ≤ 22) (hk : s.col + k ≤ 80) :
    let t := (List.range k).foldl (fun s _ => s.putCell 32) s
    Drawn s t (fun r c => if r = s.row ∧ s.col ≤ c ∧ c < s.col + k then 32 else s.char r c) ∧
      t.row = s.row ∧ t.col = s.col + k := by
  intro t
  induction k with
  | zero => exact ⟨Drawn.refl.congr fun r c _ => (if_neg (by omega)).symm, rfl, rfl⟩
  | succ k ih =>
    obtain ⟨hd, hrow, hcol⟩ := ih (by omega)
    have ht : t = ((List.range k).foldl (fun s _ => s.putCell 32) s).putCell 32 := by
      simp only [t, List.range_succ, List.foldl_append, List.foldl_cons, List.foldl_nil]
    rw [ht]
    refine ⟨?_, hrow, congrArg (· + 1) hcol⟩
    refine (hd.trans (drawn_putCell (by omega) (by omega))).congr fun r c hc => ?_
    rw [hrow, hcol, hd.char r c hc]
    by_cases h : r = s.row ∧ c = s.col + k
    · rw [if_pos h, if_pos (by omega)]
    · rw [if_neg h]
      have hlt : r = s.row ∧ s.col ≤ c ∧ c < s.col + k ↔ r = s.row ∧ s.col ≤ c ∧ c < s.col + (k + 1) := by omega
      simp only [hlt]

/-- What is left on the row is blank, before it may move up. -/
def rest (s : Screen) (r c : Nat) : Byte := if r = s.row ∧ s.col ≤ c then 32 else s.char r c

/-- **`do_newline`.** -/
theorem drawn_doNewline (hr : s.row ≤ 22) (hc : s.col ≤ 80) :
    s.doNewline.row = min (s.row + 1) 22 ∧ s.doNewline.col = 0 ∧
      Drawn s s.doNewline fun r c =>
        if s.row < 22 then s.rest r c else if r < 22 then s.rest (r + 1) c else if r = 22 then 32 else s.rest r c := by
  obtain ⟨hd, hrow, hcol⟩ := drawn_blanks (s := s) (k := 80 - s.col) hr (by omega)
  have hblank : Drawn s s.blankRest s.rest := hd.congr fun r c h => by
    have hlt : r = s.row ∧ s.col ≤ c ∧ c < s.col + (80 - s.col) ↔ r = s.row ∧ s.col ≤ c := by omega
    simp only [hlt, rest]
  have hrow' : s.blankRest.row = s.row := hrow
  obtain ⟨t, ht⟩ : ∃ t : Screen, t = { s.blankRest with col := 0, row := s.row + 1 } := ⟨_, rfl⟩
  have htc : t.col = 0 := by rw [ht]
  have htr : t.row = s.row + 1 := by rw [ht]
  have hdt : Drawn s t s.rest := by rw [ht]; exact hblank.moveTo _ _
  have heq : s.doNewline = if t.row > 22 then { t.rollup with row := 22 } else t := by
    rw [doNewline, ht]
    simp only [hrow']
  rw [heq, htr]
  by_cases h : s.row < 22
  · rw [if_neg (by omega)]
    refine ⟨by omega, htc, hdt.congr fun r c _ => ?_⟩
    rw [if_pos h]
  · rw [if_pos (by omega)]
    have hup := (hdt.trans drawn_rollup).moveTo 22 t.rollup.col
    refine ⟨?_, ?_, hup.congr fun r c hc' => ?_⟩
    · dsimp only
      omega
    · dsimp only
      rw [rollup_cursor.2, htc]
    · rw [if_neg h, hdt.char _ _ hc', hdt.char _ _ hc']

end cells

/-! ## The layout on the screen -/

/-- The screen shows the newest rows of the layout, and nothing was stored below row 22. -/
structure Shows (l : Layout Byte) (s : Screen) : Prop where
  row : s.row = l.cursor 22
  col : s.col = l.last.length
  above : ∀ r < s.row, ∀ c < 80, s.char r c = (l.shown 22 r).getD c 32
  cursor : ∀ c < s.col, s.char s.row c = l.last.getD c 32
  stores : ∀ i ∈ s.stores, i < 160 * 23

section shows
variable {l : Layout Byte} {s : Screen} {v : Byte} {r c : Nat} {text : List Byte}

theorem Shows.row_le (h : Shows l s) : s.row ≤ 22 := by
  rw [h.row]
  exact Nat.min_le_right _ _

/-- A character goes to the row that is being filled. -/
theorem Shows.put (h : Shows l s) (hc : s.col < 80) : Shows (l.put v) (s.putCell v) := by
  have hd := drawn_putCell (v := v) h.row_le hc
  have hlast : (l.put v).last = l.last ++ [v] := rfl
  refine ⟨h.row, ?_, fun r hr c hlt => ?_, fun c hlt => ?_, fun i hi => (hd.stores i hi).elim (h.stores i) id⟩
  · rw [hlast, List.length_append, ← h.col]
    rfl
  · have hr' : r < s.row := hr
    rw [hd.char r c hlt, if_neg (by omega), h.above r hr' c hlt, Layout.shown_put (h.row ▸ hr')]
  · have hlt' : c < s.col + 1 := hlt
    refine (hd.char s.row c (by omega)).trans ?_
    rw [hlast]
    by_cases heq : c = s.col
    · rw [if_pos ⟨rfl, heq⟩, heq, h.col]
      simp
    · rw [if_neg fun h' => heq h'.2, h.cursor c (by omega), List.getD_append _ _ _ _ (by rw [← h.col]; omega)]

/-- With the rest of its row blank, all the rows down to the cursor's are those of the layout. -/
theorem Shows.rest (h : Shows l s) (hr : r ≤ s.row) (hc : c < 80) : s.rest r c = (l.shown 22 r).getD c 32 := by
  rw [Screen.rest]
  by_cases heq : r = s.row
  · subst heq
    rw [h.row, Layout.shown_cursor, ← h.row]
    by_cases hcol : s.col ≤ c
    · rw [if_pos ⟨rfl, hcol⟩, List.getD_eq_default _ _ (by rw [← h.col]; exact hcol)]
    · rw [if_neg fun h' => hcol h'.2, h.cursor c (by omega)]
  · rw [if_neg fun h' => heq h'.1, h.above r (by omega) c hc]

/-- A new row, below the cursor's or, from row 22, in its place. -/
theorem Shows.newRow (h : Shows l s) (hc : s.col ≤ 80) : Shows l.newRow s.doNewline := by
  obtain ⟨hrow, hcol, hd⟩ := drawn_doNewline h.row_le hc
  have hcursor : s.doNewline.row = l.newRow.cursor 22 := by rw [hrow, h.row, Layout.cursor_newRow]
  refine ⟨hcursor, hcol, fun r hr c hlt => ?_, fun c hlt => ?_, fun i hi => (hd.stores i hi).elim (h.stores i) id⟩
  · rw [hd.char r c hlt, Layout.shown_newRow (hcursor ▸ hr), ← h.row]
    rw [hrow] at hr
    by_cases hroom : s.row < 22
    · rw [if_pos hroom, if_pos hroom]
      exact h.rest (by omega) hlt
    · rw [if_neg hroom, if_neg hroom, if_pos (by omega)]
      exact h.rest (by omega) hlt
  · rw [hcol] at hlt
    exact absurd hlt (Nat.not_lt_zero c)

/-- **One `write_k`** adds its character to the layout. -/
theorem Shows.writeK (h : Shows l s) (hl : l.last.length < 80) (hv : v ≠ 0 ∧ v ≠ 8 ∧ v ≠ 9) :
    Shows (l.add 80 10 v) (s.writeK v) := by
  obtain ⟨h0, h8, h9⟩ := hv
  have hc : s.col < 80 := h.col ▸ hl
  rw [Screen.writeK, if_neg h0, Layout.add]
  by_cases hn : v = 10
  · rw [if_pos hn, if_pos hn]
    exact h.newRow (by omega)
  · have hput := h.put (v := v) hc
    have hcol : (s.putCell v).col = s.col + 1 := rfl
    rw [if_neg hn, if_neg h9, if_neg h8, if_neg hn, writeChar, hcol, ← h.col]
    by_cases hw : s.col + 1 ≥ 80
    · rw [if_pos hw, if_pos hw]
      exact hput.newRow (by omega)
    · rw [if_neg hw, if_neg hw]
      exact hput

theorem Shows.writes (h : Shows l s) (hl : l.last.length < 80) (htext : ∀ v ∈ text, v ≠ 0 ∧ v ≠ 8 ∧ v ≠ 9) :
    Shows (text.foldl (Layout.add 80 10) l) (text.foldl (fun s v => s.writeK v) s) := by
  induction text generalizing l s with
  | nil => exact h
  | cons v text ih =>
    obtain ⟨hv, htext⟩ := List.forall_mem_cons.1 htext
    exact ih (h.writeK hl hv) (Layout.last_add hl) htext

end shows

/-- The cursor at the top, with anything on the screen. -/
def top (mem : Nat → Byte) : Screen := ⟨mem, 0, 0, []⟩

/-- **The screen shows the last lines**: the newest rows of the text, the last of them up to the cursor. Row 23, the
clock's and the key display's, is never stored to. -/
theorem shows_last_lines (mem : Nat → Byte) {text : List Byte} (htext : ∀ v ∈ text, v ≠ 0 ∧ v ≠ 8 ∧ v ≠ 9) :
    let l := layout 80 10 text
    let s := text.foldl (fun s v => s.writeK v) (top mem)
    s.row = min (l.rows.length - 1) 22 ∧ s.col = l.last.length ∧
      (∀ r < s.row, ∀ c < 80, s.char r c = (l.rows.getD (l.rows.length - 1 - s.row + r) []).getD c 32) ∧
      (∀ c < s.col, l.last[c]? = some (s.char s.row c)) ∧ ∀ i ∈ s.stores, i < 160 * 23 := by
  intro l s
  have hstart : Shows ⟨[], []⟩ (top mem) :=
    ⟨rfl, rfl, fun _ h => absurd h (Nat.not_lt_zero _), fun _ h => absurd h (Nat.not_lt_zero _), fun _ h => by cases h⟩
  have h : Shows l s := hstart.writes (by decide) htext
  have hrows : l.rows.length - 1 = l.above.length := by simp
  refine ⟨by rw [hrows]; exact h.row, h.col, fun r hr c hc => ?_, fun c hc => ?_, h.stores⟩
  · rw [h.above r hr c hc, Layout.shown, hrows, h.row]
  · have hlt : c < l.last.length := h.col ▸ hc
    rw [h.cursor c hc, List.getD_eq_getElem _ _ hlt, List.getElem?_eq_getElem hlt]

/-- Thirty short lines and one that goes on in the next row. -/
def manyLines : List Byte :=
  (List.range 30).flatMap (fun n => [BitVec.ofNat 8 (65 + n), 10]) ++ List.replicate 90 120

/-- The first nine have scrolled off. -/
theorem shows_last_lines_scrolled :
    let s := manyLines.foldl (fun s v => s.writeK v) (top fun _ => 0)
    s.row = 22 ∧ s.col = 10 ∧ s.char 0 0 = 74 ∧ s.char 0 1 = 32 ∧ s.char 21 79 = 120 := by
  intro s
  have htext : ∀ v ∈ manyLines, v ≠ 0 ∧ v ≠ 8 ∧ v ≠ 9 := by decide +kernel
  obtain ⟨hrow, hcol, habove, -⟩ := shows_last_lines (fun _ => 0) htext
  have hr : s.row = 22 := hrow.trans (by decide +kernel)
  have hc : s.col = 10 := hcol.trans (by decide +kernel)
  have hlength : (layout 80 10 manyLines).rows.length = 32 := by decide +kernel
  have hcell : ∀ r < 22, ∀ c < 80, s.char r c = ((layout 80 10 manyLines).rows.getD (9 + r) []).getD c 32 := by
    intro r hlt c hc80
    rw [habove r (by rw [hr]; exact hlt) c hc80, hlength, hr]
  refine ⟨hr, hc, (hcell 0 (by decide) 0 (by decide)).trans ?_, (hcell 0 (by decide) 1 (by decide)).trans ?_,
    (hcell 21 (by decide) 79 (by decide)).trans ?_⟩ <;> decide +kernel

end Screen
end Sbuos
