import Mathlib.Algebra.Group.Nat.Defs
import Mathlib.Algebra.Group.Int.Defs
import Mathlib.Logic.Function.Basic
import Mathlib.Data.List.Basic
/-!
# Machine types and C strings (sys/sysutil.c:3-27)

`char` is a `Byte`, `uint64_t` and every pointer a `Word`. C's `int` is `Int`: the counters and indices
of the modelled functions stay far below `2^31`, so its overflow is not modelled; its `%` is `Int.tmod`,
which truncates towards zero.

A string is the memory seen from its first byte on, `Nat → Byte`; a literal is `cString` of its text.
Loops that only a NUL ends take fuel; `Spells.kstrlen` and `Spells.kstrcmp` say how much is enough.
-/
namespace Sbuos

abbrev Byte := BitVec 8
abbrev Word := BitVec 64

/-- `PAGESIZE` (memory_helpers.h:7). -/
def pageSize : Nat := 4096

def cString (text : String) (i : Nat) : Byte :=
  match text.toList[i]? with
  | some c => BitVec.ofNat 8 c.toNat
  | none => 0

/-- The loop of `kstrlen`. -/
def kstrlenFrom (s : Nat → Byte) : Nat → Nat → Option Nat
  | 0, _ => none
  | fuel + 1, i => if s i = 0 then some i else kstrlenFrom s fuel (i + 1)

/-- `kstrlen` (sysutil.c:3-7). -/
def kstrlen (fuel : Nat) (s : Nat → Byte) : Option Nat := kstrlenFrom s fuel 0

/-- The loop of `kstrcpy`, with the turns it has left: it leaves at `i >= size` at the latest. -/
def kstrcpyFrom (src : Nat → Byte) (size : Int) : Nat → Nat → (Nat → Byte) → (Nat → Byte) × Int
  | 0, _, dest => (dest, -1)
  | turns + 1, i, dest =>
    if src i = 0 then (Function.update dest i 0, i)
    else
      let dest := Function.update dest i (src i)
      if size ≤ i then (dest, -1) else kstrcpyFrom src size turns (i + 1) dest

/-- `kstrcpy` (sysutil.c:9-17): what `dest` then holds, and the return value. -/
def kstrcpy (dest src : Nat → Byte) (size : Int) : (Nat → Byte) × Int :=
  kstrcpyFrom src size (size.toNat + 1) 0 dest

/-- The difference of two (signed) `char`s. -/
def charDiff (a b : Byte) : Int := a.toInt - b.toInt

/-- The loop of `kstrcmp`. -/
def kstrcmpFrom (s1 s2 : Nat → Byte) : Nat → Nat → Option Int
  | 0, _ => none
  | fuel + 1, i =>
    if s1 i = 0 then some 0
    else if s1 i ≠ s2 i then some (charDiff (s1 i) (s2 i))
    else kstrcmpFrom s1 s2 fuel (i + 1)

/-- `kstrcmp` (sysutil.c:19-27). -/
def kstrcmp (fuel : Nat) (s1 s2 : Nat → Byte) : Option Int := do
  let l1 ← kstrlen fuel s1
  let l2 ← kstrlen fuel s2
  if l1 ≠ l2 then
    some (if l1 < l2 then charDiff (s1 l1) (s2 l1) else charDiff (s1 l2) (s2 l2))
  else kstrcmpFrom s1 s2 fuel 0

/-! ## Strings that spell a word -/

/-- `s` holds the characters `w` and then a NUL. -/
structure Spells (s : Nat → Byte) (w : List Byte) : Prop where
  chars : ∀ i (h : i < w.length), s i = w[i]
  ne_zero : ∀ c ∈ w, c ≠ 0
  nul : s w.length = 0

namespace Spells
variable {s s1 s2 : Nat → Byte} {w w1 w2 : List Byte}

theorem apply_ne_zero (h : Spells s w) {i : Nat} (hi : i < w.length) : s i ≠ 0 := by
  rw [h.chars i hi]; exact h.ne_zero _ (List.getElem_mem hi)

theorem kstrlenFrom (h : Spells s w) (k fuel i : Nat) (hk : i + k = w.length) (hf : k < fuel) :
    kstrlenFrom s fuel i = some w.length := by
  induction k generalizing fuel i with
  | zero =>
    obtain ⟨fuel, rfl⟩ := Nat.exists_eq_add_of_lt hf
    have hi : i = w.length := by omega
    simp [Sbuos.kstrlenFrom, hi, h.nul]
  | succ k ih =>
    obtain ⟨fuel, rfl⟩ : ∃ f, fuel = f + 1 := ⟨fuel - 1, by omega⟩
    rw [Sbuos.kstrlenFrom, if_neg (h.apply_ne_zero (by omega))]
    exact ih fuel (i + 1) (by omega) (by omega)

theorem kstrlen (h : Spells s w) {fuel : Nat} (hf : w.length < fuel) :
    kstrlen fuel s = some w.length := h.kstrlenFrom w.length fuel 0 (by omega) hf

/-- `kstrlen` finds a NUL only if it gets that far. -/
theorem lt_fuel_of_kstrlen (h : Spells s w) {fuel l : Nat} (hl : Sbuos.kstrlen fuel s = some l) :
    w.length < fuel := by
  have hfrom : ∀ (fuel i : Nat), i ≤ w.length → Sbuos.kstrlenFrom s fuel i = some l → w.length < i + fuel := by
    intro fuel
    induction fuel with
    | zero => intro i _ hi; cases hi
    | succ fuel ih =>
      intro i hle hi
      rw [Sbuos.kstrlenFrom] at hi
      split at hi
      · rename_i hnul
        have : ¬i < w.length := fun hlt => h.apply_ne_zero hlt hnul
        omega
      · rename_i hchar
        have : i ≠ w.length := fun he => hchar (he ▸ h.nul)
        have := ih (i + 1) (by omega) hi
        omega
  simpa using hfrom fuel 0 (Nat.zero_le _) hl

/-- A string that spells two words spells one. -/
theorem unique (h1 : Spells s w1) (h2 : Spells s w2) : w1 = w2 := by
  have hlen : w1.length = w2.length := by
    have e1 : Sbuos.kstrlen (max w1.length w2.length + 1) s = _ := h1.kstrlen (by omega)
    have e2 : Sbuos.kstrlen (max w1.length w2.length + 1) s = _ := h2.kstrlen (by omega)
    exact Option.some.inj (e1.symm.trans e2)
  apply List.ext_getElem hlen
  intro i hi1 hi2
  rw [← h1.chars i hi1, h2.chars i hi2]

theorem charDiff_ne_zero {a b : Byte} (h : a ≠ b) : charDiff a b ≠ 0 := by
  intro hd
  exact h (BitVec.eq_of_toInt_eq (by simp only [charDiff] at hd; omega))

/-- From `i` on, with the characters before `i` found equal. -/
theorem kstrcmpFrom (h1 : Spells s1 w1) (h2 : Spells s2 w2) (hlen : w1.length = w2.length)
    (k fuel i : Nat) (hk : i + k = w1.length) (hf : k < fuel)
    (heq : ∀ j < i, s1 j = s2 j) :
    ∃ d, Sbuos.kstrcmpFrom s1 s2 fuel i = some d ∧ (d = 0 ↔ w1 = w2) := by
  induction k generalizing fuel i with
  | zero =>
    obtain ⟨fuel, rfl⟩ : ∃ f, fuel = f + 1 := ⟨fuel - 1, by omega⟩
    have hi : i = w1.length := by omega
    refine ⟨0, by simp [Sbuos.kstrcmpFrom, hi, h1.nul], iff_of_true rfl ?_⟩
    apply List.ext_getElem hlen
    intro j hj1 hj2
    rw [← h1.chars j hj1, ← h2.chars j hj2, heq j (by omega)]
  | succ k ih =>
    obtain ⟨fuel, rfl⟩ : ∃ f, fuel = f + 1 := ⟨fuel - 1, by omega⟩
    rw [Sbuos.kstrcmpFrom, if_neg (h1.apply_ne_zero (by omega))]
    by_cases hc : s1 i = s2 i
    · rw [if_neg (by simpa using hc)]
      refine ih fuel (i + 1) (by omega) (by omega) fun j hj => ?_
      rcases Nat.lt_succ_iff_lt_or_eq.1 hj with h | rfl
      · exact heq j h
      · exact hc
    · refine ⟨_, if_pos hc, iff_of_false (charDiff_ne_zero hc) ?_⟩
      rintro rfl
      exact hc ((h1.chars i (by omega)).trans (h2.chars i (by omega)).symm)

/-- `kstrcmp` answers 0 for equal strings and for no others. -/
theorem kstrcmp (h1 : Spells s1 w1) (h2 : Spells s2 w2) {fuel : Nat} (hf1 : w1.length < fuel)
    (hf2 : w2.length < fuel) :
    ∃ d, Sbuos.kstrcmp fuel s1 s2 = some d ∧ (d = 0 ↔ w1 = w2) := by
  simp only [Sbuos.kstrcmp, h1.kstrlen hf1, h2.kstrlen hf2, Option.bind_eq_bind, Option.bind_some]
  by_cases hlen : w1.length = w2.length
  · simpa [hlen] using h1.kstrcmpFrom h2 hlen w1.length fuel 0 (by omega) hf1 (by simp)
  · have hne : w1 ≠ w2 := fun h => hlen (by rw [h])
    rw [if_pos hlen]
    refine ⟨_, rfl, iff_of_false ?_ hne⟩
    rcases Nat.lt_or_gt_of_ne hlen with hlt | hgt
    · rw [if_pos hlt, h1.nul]
      exact charDiff_ne_zero (h2.apply_ne_zero hlt).symm
    · rw [if_neg (by omega), h2.nul]
      exact charDiff_ne_zero (h1.apply_ne_zero hgt)

/-- Whatever `kstrcmp` answers, it is 0 for equal strings and for no others. -/
theorem kstrcmp_eq_zero (h1 : Spells s1 w1) (h2 : Spells s2 w2) {fuel : Nat} {d : Int}
    (hd : Sbuos.kstrcmp fuel s1 s2 = some d) : d = 0 ↔ w1 = w2 := by
  obtain ⟨l1, hl1, hd'⟩ := Option.bind_eq_some_iff.1 hd
  obtain ⟨l2, hl2, -⟩ := Option.bind_eq_some_iff.1 hd'
  have hf1 := h1.lt_fuel_of_kstrlen hl1
  have hf2 := h2.lt_fuel_of_kstrlen hl2
  obtain ⟨e, he, hiff⟩ := h1.kstrcmp h2 hf1 hf2
  rw [hd] at he
  cases he
  exact hiff

end Spells

/-- A literal spells its characters. -/
theorem spells_cString {text : String} {w : List Byte} (hw : text.toList.map (fun c => BitVec.ofNat 8 c.toNat) = w)
    (hne : ∀ c ∈ w, c ≠ 0) : Spells (cString text) w where
  chars i hi := by
    subst hw
    rw [List.length_map] at hi
    rw [cString, List.getElem?_eq_getElem hi, List.getElem_map]
  ne_zero := hne
  nul := by
    rw [cString, ← hw, List.length_map, List.getElem?_eq_none (Nat.le_refl _)]

/-- A character in front of a string. -/
theorem spells_of_tail {s : Nat → Byte} {w : List Byte} (hw : Spells (fun i => s (i + 1)) w) (h0 : s 0 ≠ 0) :
    Spells s (s 0 :: w) where
  chars i hi := by
    cases i with
    | zero => rfl
    | succ i => exact hw.chars i (Nat.lt_of_succ_lt_succ hi)
  ne_zero := List.forall_mem_cons.2 ⟨h0, hw.ne_zero⟩
  nul := hw.nul

theorem spells_nil {s : Nat → Byte} (h0 : s 0 = 0) : Spells s [] where
  chars i hi := absurd hi (Nat.not_lt_zero i)
  ne_zero _ hc := absurd hc List.not_mem_nil
  nul := h0

theorem spells_singleton {s : Nat → Byte} (h0 : s 0 ≠ 0) (h1 : s 1 = 0) : Spells s [s 0] :=
  spells_of_tail (spells_nil h1) h0

/-- A string ends at its first NUL. -/
theorem exists_spells_of_nul {s : Nat → Byte} {n : Nat} (hn : s n = 0) : ∃ w, Spells s w := by
  induction n generalizing s with
  | zero => exact ⟨[], spells_nil hn⟩
  | succ n ih =>
    by_cases h0 : s 0 = 0
    · exact ⟨[], spells_nil h0⟩
    · obtain ⟨w, hw⟩ := ih (s := fun i => s (i + 1)) hn
      exact ⟨_, spells_of_tail hw h0⟩

/-- What `kstrlen` measures is a word. -/
theorem exists_spells_of_kstrlen {s : Nat → Byte} {fuel l : Nat} (h : kstrlen fuel s = some l) :
    ∃ w, Spells s w ∧ w.length = l := by
  have hfrom : ∀ (fuel i : Nat), kstrlenFrom s fuel i = some l →
      i ≤ l ∧ s l = 0 ∧ ∀ j, i ≤ j → j < l → s j ≠ 0 := by
    intro fuel
    induction fuel with
    | zero => intro i hi; cases hi
    | succ fuel ih =>
      intro i hi
      rw [kstrlenFrom] at hi
      split at hi
      · cases hi
        exact ⟨Nat.le_refl _, ‹_›, fun j h1 h2 => by omega⟩
      · obtain ⟨hle, hnul, hne⟩ := ih (i + 1) hi
        refine ⟨by omega, hnul, fun j h1 h2 => ?_⟩
        rcases Nat.eq_or_lt_of_le h1 with rfl | h1
        · assumption
        · exact hne j h1 h2
  obtain ⟨-, hnul, hne⟩ := hfrom fuel 0 h
  refine ⟨(List.range l).map s, ⟨fun i hi => by simp, fun c hc => ?_, by simpa using hnul⟩, by simp⟩
  obtain ⟨j, hj, rfl⟩ := List.mem_map.1 hc
  exact hne j (Nat.zero_le _) (List.mem_range.1 hj)

/-- Every byte after a copy is the old one, one of the source's, or the NUL. -/
theorem kstrcpyFrom_apply (src : Nat → Byte) (size : Int) (turns i j : Nat) (dest : Nat → Byte) :
    (kstrcpyFrom src size turns i dest).1 j = dest j ∨
      (kstrcpyFrom src size turns i dest).1 j = src j ∨
      (kstrcpyFrom src size turns i dest).1 j = 0 := by
  induction turns generalizing i dest with
  | zero => exact .inl rfl
  | succ turns ih =>
    rw [kstrcpyFrom]
    split
    · by_cases hj : j = i
      · subst hj; exact .inr (.inr (by simp))
      · exact .inl (by simp [hj])
    · have hupd : Function.update dest i (src i) j = dest j ∨ Function.update dest i (src i) j = src j := by
        by_cases hj : j = i
        · subst hj; exact .inr (by simp)
        · exact .inl (by simp [hj])
      dsimp only
      split
      · rcases hupd with h | h
        · exact .inl h
        · exact .inr (.inl h)
      · rcases ih (i + 1) (Function.update dest i (src i)) with h | h | h
        · rcases hupd with h' | h'
          · exact .inl (h.trans h')
          · exact .inr (.inl (h.trans h'))
        · exact .inr (.inl h)
        · exact .inr (.inr h)

theorem kstrcpy_apply (dest src : Nat → Byte) (size : Int) (j : Nat) :
    (kstrcpy dest src size).1 j = dest j ∨ (kstrcpy dest src size).1 j = src j ∨
      (kstrcpy dest src size).1 j = 0 := kstrcpyFrom_apply ..

/-- A copy stores nothing before the index it has come to, nor behind its last turn. -/
theorem kstrcpyFrom_outside (src : Nat → Byte) (size : Int) (turns i : Nat) (dest : Nat → Byte) {j : Nat}
    (hj : j < i ∨ i + turns ≤ j) : (kstrcpyFrom src size turns i dest).1 j = dest j := by
  induction turns generalizing i dest with
  | zero => rfl
  | succ turns ih =>
    rw [kstrcpyFrom]
    split
    · exact Function.update_of_ne (by omega) _ _
    · dsimp only
      split
      · exact Function.update_of_ne (by omega) _ _
      · rw [ih (i + 1) _ (by omega)]
        exact Function.update_of_ne (by omega) _ _

theorem kstrcpy_of_lt (dest src : Nat → Byte) (size : Int) {j : Nat} (hj : size.toNat < j) :
    (kstrcpy dest src size).1 j = dest j := kstrcpyFrom_outside src size _ 0 dest (.inr (by omega))

theorem kstrcpyFrom_copies {src : Nat → Byte} {size : Int} {j : Nat} (hne : ∀ k < j, src k ≠ 0)
    (hsize : j ≤ size) (turns i : Nat) (dest : Nat → Byte) (hi : i ≤ j) (hj : j < i + turns) :
    (kstrcpyFrom src size turns i dest).1 j = src j := by
  induction turns generalizing i dest with
  | zero => omega
  | succ turns ih =>
    rw [kstrcpyFrom]
    by_cases hij : i = j
    · subst hij
      split
      · exact (Function.update_self ..).trans ‹src i = 0›.symm
      · dsimp only
        split
        · exact Function.update_self ..
        · rw [kstrcpyFrom_outside _ _ _ _ _ (.inl (Nat.lt_succ_self i)), Function.update_self]
    · rw [if_neg (hne i (by omega)), if_neg (by omega)]
      exact ih (i + 1) _ (by omega) (by omega)

/-- Up to the NUL, and as far as the copy goes, the destination is the source. -/
theorem kstrcpy_copies {src : Nat → Byte} {n j : Nat} (hne : ∀ k < j, src k ≠ 0) (hj : j ≤ n)
    (dest : Nat → Byte) : (kstrcpy dest src n).1 j = src j :=
  kstrcpyFrom_copies hne (by omega) _ 0 dest (Nat.zero_le j) (by simp; omega)

/-! ## Writing a word into memory -/

/-- `buffer` with the bytes `u` stored from `i` on. -/
def overwrite (i : Nat) (u : List Byte) (buffer : Nat → Byte) (j : Nat) : Byte :=
  if j < i then buffer j else (u[j - i]?).getD (buffer j)

section overwrite
variable {buffer s src : Nat → Byte} {u v w : List Byte} {c : Byte} {i j : Nat}

theorem overwrite_of_lt (h : j < i) : overwrite i u buffer j = buffer j := if_pos h

theorem overwrite_add (h : j < u.length) : overwrite i u buffer (i + j) = u[j] := by
  rw [overwrite, if_neg (by omega), Nat.add_sub_cancel_left, List.getElem?_eq_getElem h, Option.getD_some]

/-- The word itself, when it is stored at the front. -/
theorem overwrite_zero (u : List Byte) (buffer : Nat → Byte) (h : j < u.length) : overwrite 0 u buffer j = u[j] := by
  rw [overwrite, if_neg (Nat.not_lt_zero j), Nat.sub_zero, List.getElem?_eq_getElem h, Option.getD_some]

theorem overwrite_of_le (h : i + u.length ≤ j) : overwrite i u buffer j = buffer j := by
  rw [overwrite, List.getElem?_eq_none (by omega), Option.getD_none, ite_self]

@[simp] theorem overwrite_nil : overwrite i [] buffer = buffer := by
  funext j
  simp [overwrite]

/-- Storing one word behind another. -/
theorem overwrite_overwrite : overwrite (i + u.length) v (overwrite i u buffer) = overwrite i (u ++ v) buffer := by
  funext j
  by_cases hlt : j < i
  · rw [overwrite_of_lt (by omega), overwrite_of_lt hlt, overwrite_of_lt hlt]
  · obtain ⟨k, rfl⟩ := Nat.exists_eq_add_of_le (Nat.le_of_not_lt hlt)
    by_cases hk : k < u.length
    · rw [overwrite_of_lt (by omega), overwrite_add hk, overwrite_add (by simp; omega), List.getElem_append_left hk]
    · rw [overwrite, if_neg (by omega), overwrite_of_le (by omega), overwrite, if_neg (by omega),
        List.getElem?_append_right (by omega), show i + k - (i + u.length) = i + k - i - u.length by omega]

theorem overwrite_append (u v : List Byte) (buffer : Nat → Byte) :
    overwrite u.length v (overwrite 0 u buffer) = overwrite 0 (u ++ v) buffer := by
  rw [← overwrite_overwrite, Nat.zero_add]

theorem overwrite_singleton : overwrite i [c] buffer = Function.update buffer i c := by
  funext j
  rcases Nat.lt_trichotomy j i with h | rfl | h
  · rw [overwrite_of_lt h, Function.update_of_ne (by omega)]
  · rw [Function.update_self]; simp [overwrite]
  · rw [overwrite_of_le (show i + 1 ≤ j from h), Function.update_of_ne (by omega)]

theorem overwrite_update :
    overwrite (i + 1) u (Function.update buffer i c) = overwrite i (c :: u) buffer := by
  rw [← overwrite_singleton]
  exact overwrite_overwrite (u := [c])

/-- A word stored with its NUL is the string there. -/
theorem spells_overwrite (hw : ∀ c ∈ w, c ≠ 0) : Spells (overwrite 0 (w ++ [0]) buffer) w where
  chars j hj := by
    rw [overwrite_zero _ _ (by rw [List.length_append]; omega), List.getElem_append_left hj]
  ne_zero := hw
  nul := by
    rw [overwrite_zero _ _ (by simp)]
    simp

/-- The string left to copy from `i` on, in a loop that is not cut short. -/
theorem Spells.kstrcpyFrom (h : Spells src w) {size : Int} (hsize : (w.length : Int) ≤ size) (k turns i : Nat)
    (hk : i + k = w.length) (ht : k < turns) (dest : Nat → Byte) :
    kstrcpyFrom src size turns i dest = (overwrite i (w.drop i ++ [0]) dest, (w.length : Int)) := by
  induction k generalizing turns i dest with
  | zero =>
    obtain ⟨turns, rfl⟩ : ∃ f, turns = f + 1 := ⟨turns - 1, by omega⟩
    have hi : i = w.length := by omega
    subst hi
    rw [Sbuos.kstrcpyFrom, if_pos h.nul, List.drop_length, List.nil_append, overwrite_singleton]
  | succ k ih =>
    obtain ⟨turns, rfl⟩ : ∃ f, turns = f + 1 := ⟨turns - 1, by omega⟩
    have hi : i < w.length := by omega
    rw [Sbuos.kstrcpyFrom, if_neg (h.apply_ne_zero hi)]
    dsimp only
    rw [if_neg (by omega), ih turns (i + 1) (by omega) (by omega), overwrite_update,
      List.drop_eq_getElem_cons hi, h.chars i hi]
    rfl

/-- A copy that fits. -/
theorem Spells.kstrcpy (h : Spells src w) {size : Int} (hsize : (w.length : Int) ≤ size) (dest : Nat → Byte) :
    kstrcpy dest src size = (overwrite 0 (w ++ [0]) dest, (w.length : Int)) := by
  have := h.kstrcpyFrom hsize w.length (size.toNat + 1) 0 (by omega) (by omega) dest
  simpa [Sbuos.kstrcpy] using this

/-- From `i` on, in a loop that the size cuts short: it stores the character at `size` and no NUL. -/
theorem Spells.kstrcpyFrom_long (h : Spells src w) {n : Nat} (hn : n < w.length) (k i : Nat)
    (hk : i + k = n) (dest : Nat → Byte) :
    Sbuos.kstrcpyFrom src n (k + 1) i dest = (overwrite i ((w.take (n + 1)).drop i) dest, -1) := by
  induction k generalizing i dest with
  | zero =>
    have hi : i < w.length := by omega
    have hlast : (w.take (n + 1)).drop i = [src i] := by
      rw [List.drop_take, List.drop_eq_getElem_cons hi, h.chars i hi, show n + 1 - i = 1 by omega]
      rfl
    rw [Sbuos.kstrcpyFrom, if_neg (h.apply_ne_zero hi)]
    dsimp only
    rw [if_pos (by omega), hlast, overwrite_singleton]
  | succ k ih =>
    have hi : i < w.length := by omega
    have hnext : (w.take (n + 1)).drop i = src i :: (w.take (n + 1)).drop (i + 1) := by
      rw [List.drop_eq_getElem_cons (by rw [List.length_take]; omega), List.getElem_take, h.chars i hi]
    rw [Sbuos.kstrcpyFrom, if_neg (h.apply_ne_zero hi)]
    dsimp only
    rw [if_neg (by omega), ih (i + 1) (by omega), overwrite_update, hnext]

/-- A copy that does not fit. -/
theorem Spells.kstrcpy_long (h : Spells src w) {n : Nat} (hn : n < w.length) (dest : Nat → Byte) :
    Sbuos.kstrcpy dest src n = (overwrite 0 (w.take (n + 1)) dest, -1) :=
  h.kstrcpyFrom_long hn n 0 (Nat.zero_add n) dest

end overwrite

end Sbuos
