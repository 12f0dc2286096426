import Mathlib.Data.List.Basic
/-!
# Text in rows

`layout width newline text` is the text in rows: a row ends at a newline and as soon as it is `width` long. A window
that is `bottom + 1` rows high shows the newest of them; `cursor` is its row that is being filled and `shown r` is
what it has in row `r`. What adding to the text does to a window is `shown_put` and `shown_newRow`.
-/
namespace Lib

/-- The rows that have ended, and the one that is being filled. -/
structure Layout (α : Type) where
  above : List (List α)
  last : List α

namespace Layout
variable {α : Type}

def rows (l : Layout α) : List (List α) := l.above ++ [l.last]

def put (a : α) (l : Layout α) : Layout α := ⟨l.above, l.last ++ [a]⟩

def newRow (l : Layout α) : Layout α := ⟨l.rows, []⟩

def add [DecidableEq α] (width : Nat) (newline : α) (l : Layout α) (a : α) : Layout α :=
  if a = newline then l.newRow
  else if l.last.length + 1 ≥ width then (l.put a).newRow
  else l.put a

/-- The row of the window that is being filled. -/
def cursor (bottom : Nat) (l : Layout α) : Nat := min l.above.length bottom

/-- Row `r` of the window. -/
def shown (bottom : Nat) (l : Layout α) (r : Nat) : List α :=
  l.rows.getD (l.above.length - l.cursor bottom + r) []

end Layout

/-- The text in rows. -/
def layout {α : Type} [DecidableEq α] (width : Nat) (newline : α) (text : List α) : Layout α :=
  text.foldl (Layout.add width newline) ⟨[], []⟩

namespace Layout
variable {α : Type} {l : Layout α} {a newline : α} {bottom width r : Nat}

@[simp] theorem length_rows : l.rows.length = l.above.length + 1 := by simp [rows]

@[simp] theorem cursor_put : (l.put a).cursor bottom = l.cursor bottom := rfl

theorem cursor_newRow : l.newRow.cursor bottom = min (l.cursor bottom + 1) bottom := by
  simp only [cursor, newRow, length_rows]
  omega

theorem shown_cursor : l.shown bottom (l.cursor bottom) = l.last := by
  have hlen : l.above.length - l.cursor bottom + l.cursor bottom = l.above.length := by
    rw [cursor]
    omega
  rw [shown, hlen]
  simp [rows]

/-- The rows that have ended stay as they are while the last one is filled. -/
theorem shown_put (hr : r < l.cursor bottom) : (l.put a).shown bottom r = l.shown bottom r := by
  have hlt : l.above.length - l.cursor bottom + r < l.above.length := by
    simp only [cursor] at hr ⊢
    omega
  rw [shown, shown, cursor_put, rows, rows]
  simp only [put, List.getD_eq_getElem?_getD]
  rw [List.getElem?_append_left hlt, List.getElem?_append_left hlt]

/-- A new row leaves them in place while there is room below, and moves each up by one when there is not. -/
theorem shown_newRow (hr : r < l.newRow.cursor bottom) :
    l.newRow.shown bottom r = l.shown bottom (if l.cursor bottom < bottom then r else r + 1) := by
  have hlt : l.newRow.above.length - l.newRow.cursor bottom + r < l.rows.length := by
    simp only [cursor, newRow, length_rows] at hr ⊢
    omega
  have hat : l.newRow.above.length - l.newRow.cursor bottom + r =
      l.above.length - l.cursor bottom + if l.cursor bottom < bottom then r else r + 1 := by
    have habove : l.newRow.above.length = l.above.length + 1 := length_rows
    rw [cursor_newRow] at hr ⊢
    by_cases h : l.cursor bottom < bottom
    · rw [if_pos h, habove]
      simp only [cursor] at h ⊢
      omega
    · rw [if_neg h, habove]
      simp only [cursor] at h hr ⊢
      omega
  rw [shown, shown, hat, rows]
  rw [hat] at hlt
  simp only [newRow, List.getD_eq_getElem?_getD]
  rw [List.getElem?_append_left hlt]

/-- The row being filled never reaches the width. -/
theorem last_add [DecidableEq α] (h : l.last.length < width) : (l.add width newline a).last.length < width := by
  have h0 : (0 : Nat) < width := Nat.lt_of_le_of_lt (Nat.zero_le _) h
  rw [add]
  split_ifs with hn hw
  · exact h0
  · exact h0
  · simp only [put, List.length_append, List.length_singleton]
    omega

end Layout
end Lib
