import Mathlib.Logic.Function.Basic
/-!
# Chains threaded through a next field

`Linked next nil head xs`: following `next` from `head` visits exactly the nodes `xs` and then meets
`nil`. Two chains that share the array `next` are kept apart by listing their nodes: a change of
`next` outside `xs` leaves the chain of `xs` alone (`Linked.congr`).
-/
namespace Lib

variable {α : Type} {next next' : α → α} {nil head x : α} {xs ys : List α}

def Linked (next : α → α) (nil : α) : α → List α → Prop
  | head, [] => head = nil
  | head, x :: xs => head = x ∧ x ≠ nil ∧ Linked next nil (next x) xs

namespace Linked

/-- A chain has one list of nodes. -/
theorem unique : ∀ {head : α} {xs ys : List α}, Linked next nil head xs → Linked next nil head ys → xs = ys
  | _, [], [], _, _ => rfl
  | _, [], _ :: _, h, h' => absurd (h'.1.symm.trans h) h'.2.1
  | _, _ :: _, [], h, h' => absurd (h.1.symm.trans h') h.2.1
  | _, x :: _, _ :: _, h, h' => by
    obtain ⟨rfl, -, h⟩ := h
    obtain ⟨rfl, -, h'⟩ := h'
    rw [unique h h']

theorem ne_nil_of_mem : ∀ {head : α} {xs : List α}, Linked next nil head xs → x ∈ xs → x ≠ nil
  | _, _ :: _, h, hx => by
    rcases List.mem_cons.1 hx with rfl | hx
    · exact h.2.1
    · exact ne_nil_of_mem h.2.2 hx

/-- The chain from any node on is the rest of the list. -/
theorem drop : ∀ {head : α} (ys : List α), Linked next nil head (ys ++ x :: xs) → Linked next nil (next x) xs
  | _, [], h => h.2.2
  | _, _ :: ys, h => drop ys h.2.2

/-- A finite chain repeats no node: past a repeated node it would have to go on the same way twice. -/
theorem nodup : ∀ {head : α} {xs : List α}, Linked next nil head xs → xs.Nodup
  | _, [], _ => List.nodup_nil
  | _, x :: xs, h => by
    refine List.nodup_cons.2 ⟨fun hx => ?_, nodup h.2.2⟩
    obtain ⟨as, bs, rfl⟩ := List.append_of_mem hx
    have e := unique h.2.2 (drop as h.2.2)
    have := congrArg List.length e
    simp at this
    omega

/-- Only the next fields of the chain's own nodes matter. -/
theorem congr : ∀ {head : α} {xs : List α}, Linked next nil head xs → (∀ x ∈ xs, next' x = next x) →
    Linked next' nil head xs
  | _, [], h, _ => h
  | _, x :: xs, h, e => by
    refine ⟨h.1, h.2.1, ?_⟩
    rw [e x List.mem_cons_self]
    exact congr h.2.2 fun y hy => e y (List.mem_cons_of_mem _ hy)

variable [DecidableEq α]

instance decidable (next : α → α) (nil : α) : ∀ head xs, Decidable (Linked next nil head xs)
  | head, [] => inferInstanceAs (Decidable (head = nil))
  | head, x :: xs =>
    have := decidable next nil (next x) xs
    inferInstanceAs (Decidable (head = x ∧ x ≠ nil ∧ Linked next nil (next x) xs))

theorem singleton (hx : x ≠ nil) : Linked (Function.update next x nil) nil x [x] :=
  ⟨rfl, hx, Function.update_self _ _ _⟩

/-- Hanging a new node on the last one. -/
theorem snoc : ∀ {next : α → α} {head : α} {xs : List α} {l : α}, Linked next nil head (xs ++ [l]) →
    x ≠ nil → x ∉ xs ++ [l] →
    Linked (Function.update (Function.update next l x) x nil) nil head (xs ++ [l, x])
  | next, head, [], l, h, hx, hm => by
    obtain ⟨rfl, hl, -⟩ := h
    have hne : head ≠ x := fun e => hm (by simp [e])
    refine ⟨rfl, hl, ?_⟩
    rw [Function.update_of_ne hne, Function.update_self]
    exact singleton hx
  | next, head, y :: xs, l, h, hx, hm => by
    obtain ⟨rfl, hy, h⟩ := h
    simp only [List.cons_append, List.mem_cons, not_or] at hm
    have hyl : head ≠ l := by
      have hn : (head :: (xs ++ [l])).Nodup := Linked.nodup ⟨rfl, hy, h⟩
      rintro rfl
      simp at hn
    refine ⟨rfl, hy, ?_⟩
    rw [Function.update_of_ne (Ne.symm hm.1), Function.update_of_ne hyl]
    exact snoc h hx hm.2

end Linked
end Lib
