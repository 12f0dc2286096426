import Sbuos.Sysutil
/-!
# Memory with a record of its stores

To say which bytes a function writes, its memory keeps the places it is stored to. `Wrote` says that a run of
stores put the bytes `u` at `a` and touched nothing else, in whatever order it went.
-/
namespace Sbuos

structure Stores where
  mem : Nat → Byte
  log : List Nat

namespace Stores

/-- One store. -/
def put (i : Nat) (v : Byte) (s : Stores) : Stores := ⟨Function.update s.mem i v, i :: s.log⟩

/-- From `s` to `t` the bytes `u` were stored at `a`. -/
structure Wrote (s t : Stores) (a : Nat) (u : List Byte) : Prop where
  mem : t.mem = overwrite a u s.mem
  log : ∀ i, i ∈ t.log ↔ i ∈ s.log ∨ a ≤ i ∧ i < a + u.length

variable {s t r : Stores} {a : Nat} {u v : List Byte}

theorem Wrote.refl (s : Stores) (a : Nat) : Wrote s s a [] where
  mem := overwrite_nil.symm
  log i := by rw [List.length_nil]; exact ⟨.inl, fun h => h.elim id fun h => by omega⟩

theorem wrote_put (s : Stores) (a : Nat) (c : Byte) : Wrote s (s.put a c) a [c] where
  mem := overwrite_singleton.symm
  log i := by
    rw [put, List.mem_cons, List.length_singleton]
    constructor
    · rintro (rfl | h)
      · exact .inr ⟨Nat.le_refl _, Nat.lt_succ_self _⟩
      · exact .inl h
    · rintro (h | h)
      · exact .inr h
      · exact .inl (by omega)

/-- Stores behind those made so far. -/
theorem Wrote.trans (h : Wrote s t a u) (h' : Wrote t r (a + u.length) v) : Wrote s r a (u ++ v) where
  mem := by rw [h'.mem, h.mem, overwrite_overwrite]
  log i := by
    rw [h'.log, h.log, List.length_append]
    constructor
    · rintro ((h | h) | h)
      · exact .inl h
      · exact .inr (by omega)
      · exact .inr (by omega)
    · rintro (h | h)
      · exact .inl (.inl h)
      · by_cases hi : i < a + u.length
        · exact .inl (.inr ⟨h.1, hi⟩)
        · exact .inr (by omega)

theorem overwrite_before (mem : Nat → Byte) :
    overwrite a u (overwrite (a + u.length) v mem) = overwrite a (u ++ v) mem := by
  rw [← overwrite_overwrite]
  funext j
  by_cases hlt : j < a
  · rw [overwrite_of_lt hlt, overwrite_of_lt (by omega), overwrite_of_lt (by omega), overwrite_of_lt hlt]
  · obtain ⟨k, rfl⟩ := Nat.exists_eq_add_of_le (Nat.le_of_not_lt hlt)
    by_cases hk : k < u.length
    · rw [overwrite_add hk, overwrite_of_lt (by omega), overwrite_add hk]
    · rw [overwrite_of_le (by omega)]
      simp only [overwrite]
      rw [if_neg (by omega), if_neg (by omega), if_neg (by omega), List.getElem?_eq_none (l := u) (by omega)]
      rfl

/-- Stores in front of those made so far. -/
theorem Wrote.before (h : Wrote s t (a + u.length) v) (h' : Wrote t r a u) : Wrote s r a (u ++ v) where
  mem := by rw [h'.mem, h.mem, overwrite_before]
  log i := by
    rw [h'.log, h.log, List.length_append]
    constructor
    · rintro ((h | h) | h)
      · exact .inl h
      · exact .inr (by omega)
      · exact .inr (by omega)
    · rintro (h | h)
      · exact .inl (.inl h)
      · by_cases hi : i < a + u.length
        · exact .inr (by omega)
        · exact .inl (.inr (by omega))

end Stores
end Sbuos
