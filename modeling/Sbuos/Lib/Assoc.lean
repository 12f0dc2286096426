import Mathlib.Data.List.Basic
/-!
# Association lists in place

Setting a key changes the first pair that has it, or adds a pair at the end: what the keys look up is a map, and
no key is added twice.
-/
namespace Lib
variable {α β : Type} [DecidableEq α] {k m : α} {v : β} {ps cs : List (α × β)}

/-- The value of the first pair with this key. -/
def lookupKey (m : α) (ps : List (α × β)) : Option β := (ps.find? fun p => p.1 = m).map Prod.snd

/-- How many pairs have it. -/
def countKey (m : α) (ps : List (α × β)) : Nat := ps.countP fun p => p.1 = m

/-- The first pair with this key gets the value; without one, a pair is added. -/
def setKey (k : α) (v : β) : List (α × β) → List (α × β)
  | [] => [(k, v)]
  | p :: ps => if p.1 = k then (k, v) :: ps else p :: setKey k v ps

/-- One after the other. -/
def setKeys (cs ps : List (α × β)) : List (α × β) := cs.foldl (fun ps c => setKey c.1 c.2 ps) ps

theorem lookupKey_cons (m : α) (p : α × β) (ps : List (α × β)) :
    lookupKey m (p :: ps) = if p.1 = m then some p.2 else lookupKey m ps := by
  rw [lookupKey, List.find?_cons]
  by_cases hp : p.1 = m
  · simp [hp]
  · simp [hp, lookupKey]

theorem lookupKey_append (m : α) (ps qs : List (α × β)) :
    lookupKey m (ps ++ qs) = (lookupKey m ps).or (lookupKey m qs) := by
  induction ps with
  | nil => rfl
  | cons p ps ih =>
    rw [List.cons_append, lookupKey_cons, lookupKey_cons, ih]
    split
    · rfl
    · rfl

theorem lookupKey_eq_none : lookupKey m ps = none ↔ ∀ p ∈ ps, p.1 ≠ m := by
  rw [lookupKey, Option.map_eq_none_iff, List.find?_eq_none]
  simp only [decide_eq_true_eq]

theorem lookupKey_setKey (k m : α) (v : β) (ps : List (α × β)) :
    lookupKey m (setKey k v ps) = if k = m then some v else lookupKey m ps := by
  induction ps with
  | nil => rw [setKey, lookupKey_cons]
  | cons p ps ih =>
    rw [setKey]
    by_cases hp : p.1 = k
    · rw [if_pos hp, lookupKey_cons, lookupKey_cons, hp]
      split
      · rfl
      · rfl
    · rw [if_neg hp, lookupKey_cons, lookupKey_cons, ih]
      by_cases hm : p.1 = m
      · rw [if_pos hm, if_pos hm, if_neg fun hk => hp (hm.trans hk.symm)]
      · rw [if_neg hm, if_neg hm]

/-- What was set last counts, and else what was there. -/
theorem lookupKey_setKeys (cs ps : List (α × β)) (m : α) :
    lookupKey m (setKeys cs ps) = (lookupKey m cs.reverse).or (lookupKey m ps) := by
  induction cs generalizing ps with
  | nil => rfl
  | cons c cs ih =>
    have hstep : setKeys (c :: cs) ps = setKeys cs (setKey c.1 c.2 ps) := rfl
    rw [hstep, ih, lookupKey_setKey, List.reverse_cons, lookupKey_append, Option.or_assoc, lookupKey_cons]
    congr 1
    split
    · rfl
    · rfl

theorem countKey_cons (m : α) (p : α × β) (ps : List (α × β)) :
    countKey m (p :: ps) = countKey m ps + if p.1 = m then 1 else 0 := by
  rw [countKey, List.countP_cons, countKey]
  simp only [decide_eq_true_eq]

theorem countKey_eq_zero : countKey m ps = 0 ↔ lookupKey m ps = none := by
  rw [countKey, List.countP_eq_zero, lookupKey_eq_none]
  simp only [decide_eq_true_eq, ne_eq]

/-- Setting a key adds a pair only where there was none. -/
theorem countKey_setKey (k m : α) (v : β) (ps : List (α × β)) :
    countKey m (setKey k v ps) = if k = m then max 1 (countKey m ps) else countKey m ps := by
  induction ps with
  | nil =>
    rw [setKey, countKey_cons]
    split
    · rfl
    · rfl
  | cons p ps ih =>
    rw [setKey]
    by_cases hp : p.1 = k
    · rw [if_pos hp, countKey_cons, countKey_cons, hp]
      split
      · exact (Nat.max_eq_right (Nat.le_add_left 1 _)).symm
      · rfl
    · rw [if_neg hp, countKey_cons, countKey_cons, ih]
      by_cases hm : p.1 = m
      · rw [if_pos hm, if_neg fun hk => hp (hm.trans hk.symm), if_neg fun hk => hp (hm.trans hk.symm)]
      · rw [if_neg hm, Nat.add_zero, Nat.add_zero]

/-- A key that was not there is there once. -/
theorem countKey_setKeys (cs ps : List (α × β)) (m : α) :
    countKey m (setKeys cs ps) = if lookupKey m cs = none then countKey m ps else max 1 (countKey m ps) := by
  induction cs generalizing ps with
  | nil => rfl
  | cons c cs ih =>
    have hstep : setKeys (c :: cs) ps = setKeys cs (setKey c.1 c.2 ps) := rfl
    rw [hstep, ih, countKey_setKey, lookupKey_cons]
    by_cases hc : c.1 = m
    · rw [if_pos hc, if_pos hc, if_neg (Option.some_ne_none _), ← Nat.max_assoc, Nat.max_self]
      split
      · rfl
      · rfl
    · rw [if_neg hc, if_neg hc]

end Lib
