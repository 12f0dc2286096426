import Mathlib.Logic.Function.Basic
/-!
# Ring windows

A ring of `n` slots is read between two wrapping indices: `window n buf head tail` lists the slots
`head, head + 1, …` modulo `n`, up to but not including `tail`. With `head = tail` the window is
empty, so it never holds more than `n - 1` slots.
-/
namespace Lib.Ring

variable {α : Type} {n : Nat}

/-- Slots from `head` up to `tail`. -/
def size (n head tail : Nat) : Nat := (tail + n - head) % n

def window (n : Nat) (buf : Nat → α) (head tail : Nat) : List α :=
  (List.range (size n head tail)).map fun k => buf ((head + k) % n)

@[simp] theorem length_window (buf : Nat → α) (head tail : Nat) :
    (window n buf head tail).length = size n head tail := by simp [window]

theorem mod_cases (n a : Nat) (h : a < 2 * n) : a % n = if a < n then a else a - n := by
  split
  · exact Nat.mod_eq_of_lt ‹_›
  · rw [Nat.mod_eq_sub_mod (by omega), Nat.mod_eq_of_lt (by omega)]

theorem size_cases {head tail : Nat} (hh : head < n) (ht : tail < n) :
    size n head tail = if head ≤ tail then tail - head else tail + n - head := by
  rw [size, mod_cases _ _ (by omega)]
  split <;> split <;> omega

theorem size_lt {head tail : Nat} (hh : head < n) (ht : tail < n) : size n head tail < n := by
  rw [size_cases hh ht]; split <;> omega

/-- The tail is `size` slots after the head. -/
theorem head_add_size {head tail : Nat} (hh : head < n) (ht : tail < n) :
    (head + size n head tail) % n = tail := by
  rw [size_cases hh ht, mod_cases _ _ (by split <;> omega)]
  split <;> split <;> omega

theorem size_eq_zero {head tail : Nat} (hh : head < n) (ht : tail < n) :
    size n head tail = 0 ↔ head = tail := by
  rw [size_cases hh ht]; split <;> omega

theorem size_succ_tail {head tail : Nat} (hh : head < n) (ht : tail < n)
    (hs : size n head tail + 1 < n) : size n head ((tail + 1) % n) = size n head tail + 1 := by
  have hm := mod_cases n (tail + 1) (by omega)
  have ht' : (tail + 1) % n < n := Nat.mod_lt _ (by omega)
  rw [size_cases hh ht] at hs ⊢
  rw [size_cases hh ht', hm]
  split <;> split <;> split <;> split at hs <;> omega

theorem size_succ_head {head tail : Nat} (hh : head < n) (ht : tail < n) (hne : head ≠ tail) :
    size n ((head + 1) % n) tail + 1 = size n head tail := by
  have hm := mod_cases n (head + 1) (by omega)
  have hh' : (head + 1) % n < n := Nat.mod_lt _ (by omega)
  rw [size_cases hh ht, size_cases hh' ht, hm]
  split <;> split <;> split <;> omega

theorem window_self (buf : Nat → α) (head : Nat) (hh : head < n) : window n buf head head = [] := by
  have := (size_eq_zero hh hh).2 rfl
  simp [window, this]

/-- Taking the head slot out. -/
theorem window_cons (buf : Nat → α) {head tail : Nat} (hh : head < n) (ht : tail < n)
    (hne : head ≠ tail) :
    window n buf head tail = buf head :: window n buf ((head + 1) % n) tail := by
  rw [window, ← size_succ_head hh ht hne, List.range_succ_eq_map]
  simp only [List.map_cons, List.map_map, Nat.add_zero, Nat.mod_eq_of_lt hh, window]
  congr 1
  apply List.map_congr_left
  intro k _
  simp [Nat.succ_eq_add_one, show head + 1 + k = head + (k + 1) by omega]

/-- The tail slot is not one the window reads. -/
theorem ne_tail_of_lt_size {head tail k : Nat} (hh : head < n) (ht : tail < n)
    (hk : k < size n head tail) : (head + k) % n ≠ tail := by
  have hs := size_lt hh ht
  rw [size_cases hh ht] at hk hs
  rw [mod_cases _ _ (by split at hk <;> omega)]
  split at hk <;> split <;> omega

theorem window_update_tail (buf : Nat → α) (x : α) {head tail : Nat} (hh : head < n) (ht : tail < n) :
    window n (Function.update buf tail x) head tail = window n buf head tail := by
  apply List.map_congr_left
  intro k hk
  exact Function.update_of_ne (ne_tail_of_lt_size hh ht (List.mem_range.1 hk)) _ _

/-- Appending at the tail of a ring that does not fill up. -/
theorem window_push (buf : Nat → α) (x : α) {head tail : Nat} (hh : head < n) (ht : tail < n)
    (hs : size n head tail + 1 < n) :
    window n (Function.update buf tail x) head ((tail + 1) % n) = window n buf head tail ++ [x] := by
  rw [window, size_succ_tail hh ht hs, List.range_succ, List.map_append, List.map_singleton,
    head_add_size hh ht, Function.update_self, ← window_update_tail buf x hh ht, window]

/-- Appending to a ring that has one free slot left empties it. -/
theorem window_push_full (buf : Nat → α) {head tail : Nat} (hh : head < n) (ht : tail < n)
    (hs : size n head tail + 1 = n) : window n buf head ((tail + 1) % n) = [] := by
  have htail : (tail + 1) % n = head := by
    rw [mod_cases _ _ (by omega)]
    rw [size_cases hh ht] at hs
    split at hs <;> split <;> omega
  rw [htail, window_self _ _ hh]

/-- Dropping the last slot moves the tail back by one. -/
theorem window_pred (buf : Nat → α) {head tail : Nat} (hh : head < n) (ht : tail < n) (hne : head ≠ tail) :
    window n buf head tail = window n buf head ((tail + n - 1) % n) ++ [buf ((tail + n - 1) % n)] := by
  have ht' : (tail + n - 1) % n < n := Nat.mod_lt _ (by omega)
  have hm := mod_cases n (tail + n - 1) (by omega)
  have hs : size n head tail = size n head ((tail + n - 1) % n) + 1 := by
    rw [size_cases hh ht, size_cases hh ht', hm]
    split <;> split <;> split <;> omega
  rw [window, hs, List.range_succ, List.map_append, List.map_singleton, head_add_size hh ht', window]

/-- Appending at the tail and then taking the head: sound even when the ring is transiently full,
since the slot written is only overtaken once the head has moved on. -/
theorem window_rotate (buf : Nat → α) (x : α) {head tail : Nat} (hh : head < n) (ht : tail < n) :
    Function.update buf tail x head ::
        window n (Function.update buf tail x) ((head + 1) % n) ((tail + 1) % n) =
      window n buf head tail ++ [x] := by
  have hn : 0 < n := by omega
  have hh' : (head + 1) % n < n := Nat.mod_lt _ hn
  by_cases hne : head = tail
  · subst hne
    rw [window_self _ _ hh, window_self _ _ hh', Function.update_self, List.nil_append]
  · have hs := size_succ_head hh ht hne
    have hlt := size_lt hh ht
    rw [window_push buf x hh' ht (by omega), ← window_update_tail buf x hh ht, window_cons _ hh ht hne,
      window_update_tail buf x hh' ht]
    rfl

/-- With one slot free, every slot but the tail's is in the window. -/
theorem exists_of_ne_tail {head tail i : Nat} (hh : head < n) (ht : tail < n) (hs : size n head tail + 1 = n)
    (hi : i < n) (hne : i ≠ tail) : ∃ k, k < size n head tail ∧ (head + k) % n = i := by
  have htail := head_add_size hh ht
  have hslot : ∀ k, k < n → (head + k) % n = if head + k < n then head + k else head + k - n :=
    fun k hk => mod_cases n _ (by omega)
  rw [hslot _ (by omega)] at htail
  by_cases hle : head ≤ i
  · refine ⟨i - head, ?_, ?_⟩
    · split at htail <;> omega
    · rw [hslot _ (by omega), if_pos (by omega)]
      omega
  · refine ⟨i + n - head, ?_, ?_⟩
    · split at htail <;> omega
    · rw [hslot _ (by omega), if_neg (by omega)]
      omega

/-- Taking the head slot out of an empty window leaves all the others in it. -/
theorem window_all (buf : Nat → α) {head : Nat} (hh : head < n) :
    buf head :: window n buf ((head + 1) % n) head = (List.range n).map fun k => buf ((head + k) % n) := by
  obtain ⟨m, rfl⟩ : ∃ m, n = m + 1 := ⟨n - 1, by omega⟩
  have hh' : (head + 1) % (m + 1) < m + 1 := Nat.mod_lt _ (by omega)
  have hsize : size (m + 1) ((head + 1) % (m + 1)) head = m := by
    have hm := mod_cases (m + 1) (head + 1) (by omega)
    rw [size_cases hh' hh, hm]
    split <;> split <;> omega
  rw [window, hsize, List.range_succ_eq_map]
  simp only [List.map_cons, List.map_map, Nat.add_zero, Nat.mod_eq_of_lt hh]
  congr 1
  apply List.map_congr_left
  intro k _
  simp [Nat.succ_eq_add_one, show head + 1 + k = head + (k + 1) by omega]

end Lib.Ring
