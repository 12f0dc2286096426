import Mathlib.Data.List.Basic
import Mathlib.Tactic.Common
/-!
# A terminal as a tape

A window of `height` rows of `width` cells is filled from its first cell on. The tape is what stands before the
cursor: it grows at the end, and is cut back at the end when something is erased; when it fills the window, the first
row leaves it for good. `Rest` is what that does: of all that was put there, whole rows at the front are missing.
-/
namespace Lib.Tape

variable {α : Type}

/-- The window moves down by a row when its last cell is filled. -/
def clip (width height : Nat) (t : List α) : List α := if t.length < width * height then t else t.drop width

/-- A cell is filled. -/
def put (width height : Nat) (t : List α) (a : α) : List α := clip width height (t ++ [a])

/-- Blanks up to the next multiple of `n`, none at one. -/
def pad (width height : Nat) (blank : α) (n : Nat) (t : List α) : List α :=
  clip width height (t ++ List.replicate ((n - t.length % n) % n) blank)

/-- Blanks up to the end of the row, a whole row of them at its beginning. -/
def newRow (width height : Nat) (blank : α) (t : List α) : List α :=
  clip width height (t ++ List.replicate (width - t.length % width) blank)

/-- `u` is `t` without some rows at its front. -/
def Rest (width : Nat) (t u : List α) : Prop := ∃ k, width * k ≤ t.length ∧ u = t.drop (width * k)

variable {width height : Nat} {t u v text : List α} {a : α}

theorem clip_of_lt (h : t.length < width * height) : clip width height t = t := if_pos h

namespace Rest

theorem refl (width : Nat) (t : List α) : Rest width t t := ⟨0, Nat.zero_le _, rfl⟩

theorem trans (h : Rest width t u) (h' : Rest width u v) : Rest width t v := by
  obtain ⟨k, hk, rfl⟩ := h
  obtain ⟨k', hk', rfl⟩ := h'
  rw [List.length_drop] at hk'
  exact ⟨k + k', by rw [Nat.mul_add]; omega, by rw [List.drop_drop, Nat.mul_add]⟩

theorem append (h : Rest width t u) (v : List α) : Rest width (t ++ v) (u ++ v) := by
  obtain ⟨k, hk, rfl⟩ := h
  exact ⟨k, by rw [List.length_append]; omega, (List.drop_append_of_le_length hk).symm⟩

theorem dropLast (h : Rest width (t ++ [a]) u) (hu : u ≠ []) : Rest width t u.dropLast := by
  obtain ⟨k, hk, rfl⟩ := h
  rw [ne_eq, List.drop_eq_nil_iff, List.length_append, List.length_singleton] at hu
  have hle : width * k ≤ t.length := by omega
  rw [List.drop_append_of_le_length hle, List.dropLast_concat]
  exact ⟨k, hle, rfl⟩

theorem clip (h : 0 < height) (t : List α) : Rest width t (Tape.clip width height t) := by
  rw [Tape.clip]
  split
  · exact .refl width t
  · refine ⟨1, ?_, by rw [Nat.mul_one]⟩
    have hle : width * 1 ≤ width * height := Nat.mul_le_mul_left width h
    omega

/-- One more cell. -/
theorem put (h : Rest width t u) (hh : 0 < height) (a : α) : Rest width (t ++ [a]) (Tape.put width height u a) :=
  (h.append [a]).trans (clip hh _)

/-- The length of the rest, on its row. -/
theorem length_mod (h : Rest width t u) : u.length % width = t.length % width := by
  obtain ⟨k, hk, rfl⟩ := h
  rw [List.length_drop]
  obtain ⟨m, hm⟩ := Nat.exists_eq_add_of_le hk
  rw [hm, Nat.add_sub_cancel_left, Nat.mul_add_mod]

end Rest

end Lib.Tape
