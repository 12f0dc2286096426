import Mathlib.Logic.Function.Basic
/-!
# Computations that log what they access

`Logged ε α`: a computation that may get stuck, and the accesses it makes on the way, in order. Its `result` is
that of the computation without the log; a stuck one keeps the log up to where it is stuck.
-/
namespace Lib

structure Logged (ε α : Type) where
  log : List ε
  result : Option α

namespace Logged
variable {ε α β : Type}

instance : Monad (Logged ε) where
  pure a := ⟨[], some a⟩
  bind x f :=
    match x.result with
    | none => ⟨x.log, none⟩
    | some a => ⟨x.log ++ (f a).log, (f a).result⟩

/-- Access these, in order. -/
def touch (es : List ε) : Logged ε Unit := ⟨es, some ()⟩

/-- A computation that accesses nothing. -/
def lift (o : Option α) : Logged ε α := ⟨[], o⟩

variable {x : Logged ε α} {f : α → Logged ε β} {e : ε} {a : α}

@[simp] theorem result_pure (a : α) : (pure a : Logged ε α).result = some a := rfl
@[simp] theorem result_touch (es : List ε) : (touch es).result = some () := rfl
@[simp] theorem result_lift (o : Option α) : (lift o : Logged ε α).result = o := rfl
@[simp] theorem log_pure (a : α) : (pure a : Logged ε α).log = [] := rfl
@[simp] theorem log_touch (es : List ε) : (touch es).log = es := rfl
@[simp] theorem log_lift (o : Option α) : (lift o : Logged ε α).log = [] := rfl

@[simp] theorem result_bind (x : Logged ε α) (f : α → Logged ε β) :
    (x >>= f).result = x.result.bind fun a => (f a).result := by
  simp only [bind]
  cases x.result <;> rfl

theorem lift_some_bind (a : α) (f : α → Logged ε β) : lift (some a) >>= f = f a := rfl

@[simp] theorem result_ite {c : Prop} [Decidable c] (x y : Logged ε α) :
    (if c then x else y).result = if c then x.result else y.result := by
  split <;> rfl

/-- What is accessed before a step and in it. -/
@[simp] theorem mem_log_bind : e ∈ (x >>= f).log ↔ e ∈ x.log ∨ ∃ a, x.result = some a ∧ e ∈ (f a).log := by
  simp only [bind]
  cases x.result <;> simp

end Logged
end Lib
