import Sbuos.Sysutil
import Sbuos.Lib.Run
import Mathlib.Data.List.Basic
import Mathlib.Order.Lattice
/-!
# Paths (sys/sysutil.c:29-114)

`path_merge` puts a relative path behind the working directory and hands the buffer to `cleanup_path`,
which cuts it at its slashes into the components kept in `temp_path`, drops the empty ones, `.` and `..`
(with the one before it), and writes the rest back. The root has two spellings there: a buffer that is
exactly `/` is left alone, and any other path to the root comes out empty.

`normalParts` says what the components are; **`path_merge_normal`** that `path_merge` computes them, for
a path that fits and has at most 13 slashes. **`path_normal_form`**: that is the path with its components joined
by slashes again.
-/
namespace Sbuos
open Lib

def slash : Byte := 0x2f
def dot : Byte := 0x2e

/-- The loop of `kstrstartswith` (`target`, the string looked for, index). -/
def kstrstartswithFrom (target pre : Nat → Byte) : Nat → Nat → Option Int
  | 0, _ => none
  | fuel + 1, i =>
    if pre i = 0 then some 1
    else if target i ≠ pre i then some 0
    else kstrstartswithFrom target pre fuel (i + 1)

/-- `kstrstartswith` (sysutil.c:29-35). -/
def kstrstartswith (fuel : Nat) (target pre : Nat → Byte) : Option Int :=
  kstrstartswithFrom target pre fuel 0

/-- A loop of `kstrcat`: `src` from `j` on goes to `buffer` from `i` on. -/
def kstrcatFrom (src : Nat → Byte) : Nat → Nat → Nat → (Nat → Byte) → Option ((Nat → Byte) × Nat)
  | 0, _, _, _ => none
  | fuel + 1, i, j, buffer =>
    if src j = 0 then some (buffer, i)
    else kstrcatFrom src fuel (i + 1) (j + 1) (Function.update buffer i (src j))

/-- `kstrcat` (sysutil.c:37-45). -/
def kstrcat (fuel : Nat) (st1 st2 buffer : Nat → Byte) : Option (Nat → Byte) := do
  let (buffer, i) ← kstrcatFrom st1 fuel 0 0 buffer
  let (buffer, i) ← kstrcatFrom st2 fuel i 0 buffer
  some (Function.update buffer i 0)

/-- `s + n`. -/
def shift (n : Nat) (s : Nat → Byte) (i : Nat) : Byte := s (n + i)

/-- What a store through `buffer + n` leaves of `buffer`. -/
def storeAt (n : Nat) (f buffer : Nat → Byte) (i : Nat) : Byte := if i < n then buffer i else f (i - n)

/-- `parts`: 15 pointers into `temp_path`, as indices; `NULL` is `none`. -/
abbrev Parts := Nat → Option Nat

/-- The loop of sysutil.c:64-70 at `i`, with the turns it has left. There are 15 `parts`: a store behind
them is undefined behaviour. -/
def splitParts (buffer : Nat → Byte) : Nat → Nat → Nat → (Nat → Byte) → Parts →
    Option ((Nat → Byte) × Parts)
  | 0, _, _, tempPath, parts => some (tempPath, parts)
  | turns + 1, i, partPointer, tempPath, parts =>
    if buffer i = 0 then some (tempPath, parts)
    else if buffer i = slash then
      if partPointer < 15 then
        splitParts buffer turns (i + 1) (partPointer + 1) (Function.update tempPath i 0)
          (Function.update parts partPointer (some (i + 1)))
      else none
    else splitParts buffer turns (i + 1) partPointer tempPath parts

/-- `for (j = i; j < 14; ++j) parts[j] = parts[j+1]`. -/
def dropOne (i : Nat) (parts : Parts) : Parts := fun j => if i ≤ j ∧ j < 14 then parts (j + 1) else parts j

/-- `for (j = i; j < 13; ++j) parts[j] = parts[j+2]`. -/
def dropTwo (i : Nat) (parts : Parts) : Parts := fun j => if i ≤ j ∧ j < 13 then parts (j + 2) else parts j

/-- The loop of sysutil.c:72-89 at `i`. -/
def foldParts (tempPath : Nat → Byte) : Nat → Nat → Parts → Option Parts
  | 0, _, _ => none
  | fuel + 1, i, parts =>
    if i < 15 then
      match parts i with
      | none => some parts
      | some p => do
        let isDot ← if tempPath p = 0 then some 0 else kstrcmp fuel (shift p tempPath) (cString ".")
        if isDot = 0 then foldParts tempPath fuel i (dropOne i parts)
        else
          let isDotDot ← kstrcmp fuel (shift p tempPath) (cString "..")
          if isDotDot = 0 then
            if i = 0 then foldParts tempPath fuel 0 (dropOne 0 parts)
            else foldParts tempPath fuel (i - 1) (dropTwo (i - 1) parts)
          else foldParts tempPath fuel (i + 1) parts
    else some parts

/-- The loop of sysutil.c:93-98 at `part_pointer` and `i`. There is no `parts[15]` to read. -/
def joinParts (tempPath : Nat → Byte) (parts : Parts) : Nat → Nat → Nat → (Nat → Byte) →
    Option ((Nat → Byte) × Nat)
  | 0, _, _, _ => none
  | fuel + 1, partPointer, i, buffer =>
    if partPointer < 15 then
      match parts partPointer with
      | none => some (buffer, i)
      | some p => do
        let l ← kstrlen fuel (shift p tempPath)
        let buffer := storeAt i (kstrcpy (shift i buffer) (shift p tempPath) l).1 buffer
        joinParts tempPath parts fuel (partPointer + 1) (i + l + 1) (Function.update buffer (i + l) slash)
    else none

/-- `cleanup_path` (sysutil.c:48-101): `buffer` and `temp_path` afterwards. -/
def cleanupPath (fuel : Nat) (buffer tempPath : Nat → Byte) (size : Nat) :
    Option ((Nat → Byte) × (Nat → Byte)) := do
  let d ← kstrcmp fuel buffer (cString "/")
  if d = 0 then some (buffer, tempPath)
  else
    let tempPath := fun i => if i < size then buffer i else tempPath i
    let (tempPath, parts) ← splitParts buffer size 0 1 tempPath (Function.update (fun _ => none) 0 (some 0))
    let parts ← foldParts tempPath fuel 0 parts
    let (buffer, i) ← joinParts tempPath parts fuel 0 1 (Function.update buffer 0 slash)
    some (Function.update buffer (i - 1) 0, tempPath)

/-- `path_merge` (sysutil.c:103-114). -/
def pathMerge (fuel : Nat) (base relative buffer tempPath : Nat → Byte) (size : Nat) :
    Option ((Nat → Byte) × (Nat → Byte)) := do
  let isAbsolute ← kstrstartswith fuel relative (cString "/")
  if isAbsolute ≠ 0 then cleanupPath fuel (kstrcpy buffer relative size).1 tempPath size
  else
    let isHere ← kstrstartswith fuel relative (cString "./")
    if isHere ≠ 0 then
      let buffer ← kstrcat fuel base (shift 2 relative) buffer
      cleanupPath fuel buffer tempPath size
    else
      let buffer ← kstrcat fuel base relative buffer
      cleanupPath fuel buffer tempPath size

/-! ## What a path means -/

/-- What one component does to those kept so far. -/
def pushPart (parts : List (List Byte)) (part : List Byte) : List (List Byte) :=
  if part = [] ∨ part = [dot] then parts
  else if part = [dot, dot] then parts.dropLast
  else parts ++ [part]

/-- A component that the folding takes away. -/
def Special (part : List Byte) : Prop := part = [] ∨ part = [dot] ∨ part = [dot, dot]

instance : DecidablePred Special := fun _ => inferInstanceAs (Decidable (_ ∨ _ ∨ _))

/-- The components of the normal form. -/
def normalParts (path : List Byte) : List (List Byte) := (path.splitOn slash).foldl pushPart []

/-- The absolute path with these components; the root is empty. -/
def absolute (parts : List (List Byte)) : List Byte := parts.flatMap fun part => slash :: part

/-- The text that `path_merge` normalises. -/
def merged (base relative : List Byte) : List Byte :=
  if [slash] <+: relative then relative
  else if [dot, slash] <+: relative then base ++ relative.drop 2
  else base ++ relative

/-! ## The copies -/

section copies
variable {s s1 s2 src target pre buffer : Nat → Byte} {u w w1 w2 : List Byte} {fuel : Nat}

theorem spells_shift (h : Spells s w) {n : Nat} (hn : n ≤ w.length) : Spells (shift n s) (w.drop n) where
  chars i hi := by
    rw [List.length_drop] at hi
    rw [shift, h.chars _ (by omega), List.getElem_drop]
  ne_zero c hc := h.ne_zero c (List.mem_of_mem_drop hc)
  nul := by
    rw [List.length_drop, shift, Nat.add_sub_cancel' hn]
    exact h.nul

theorem shift_zero (s : Nat → Byte) : shift 0 s = s := by
  funext j
  rw [shift, Nat.zero_add]

/-- The first character, and the string behind it. -/
theorem spells_shift_cons {c : Byte} {i : Nat} (h : Spells (shift i s) (c :: w)) :
    s i = c ∧ c ≠ 0 ∧ Spells (shift (i + 1) s) w := by
  refine ⟨h.chars 0 (by simp), h.ne_zero c List.mem_cons_self, ?_⟩
  have hrest := spells_shift h (n := 1) (by simp)
  have hsh : shift 1 (shift i s) = shift (i + 1) s := by
    funext j
    simp only [shift, Nat.add_assoc]
  rwa [List.drop_one, List.tail_cons, hsh] at hrest

theorem kstrcatFrom_eq (h : Spells src w) (k fuel i j : Nat) (hk : j + k = w.length) (hf : k < fuel)
    (buffer : Nat → Byte) :
    kstrcatFrom src fuel i j buffer = some (overwrite i (w.drop j) buffer, i + k) := by
  induction k generalizing fuel i j buffer with
  | zero =>
    obtain ⟨fuel, rfl⟩ : ∃ f, fuel = f + 1 := ⟨fuel - 1, by omega⟩
    have hj : j = w.length := by omega
    subst hj
    rw [kstrcatFrom, if_pos h.nul, List.drop_length, overwrite_nil, Nat.add_zero]
  | succ k ih =>
    obtain ⟨fuel, rfl⟩ : ∃ f, fuel = f + 1 := ⟨fuel - 1, by omega⟩
    have hj : j < w.length := by omega
    rw [kstrcatFrom, if_neg (h.apply_ne_zero hj), ih fuel (i + 1) (j + 1) (by omega) (by omega),
      overwrite_update, List.drop_eq_getElem_cons hj, h.chars j hj, Nat.add_right_comm, Nat.add_assoc]

theorem kstrcat_eq (h1 : Spells s1 w1) (h2 : Spells s2 w2) (hf1 : w1.length < fuel) (hf2 : w2.length < fuel)
    (buffer : Nat → Byte) : kstrcat fuel s1 s2 buffer = some (overwrite 0 (w1 ++ w2 ++ [0]) buffer) := by
  rw [kstrcat, kstrcatFrom_eq h1 w1.length fuel 0 0 (by omega) hf1]
  simp only [Option.bind_eq_bind, Option.bind_some, Nat.zero_add, List.drop_zero]
  rw [kstrcatFrom_eq h2 w2.length fuel w1.length 0 (by omega) hf2]
  simp only [Option.bind_some, List.drop_zero]
  rw [overwrite_append, ← overwrite_singleton, ← List.length_append, overwrite_append]

/-- From `i` on, with the characters before `i` found equal. -/
theorem kstrstartswithFrom_iff (target : Nat → Byte) (hp : Spells pre u) (k fuel i : Nat)
    (hk : i + k = u.length) (hf : k < fuel) (heq : ∀ j < i, target j = pre j) :
    ∃ d, kstrstartswithFrom target pre fuel i = some d ∧ (d ≠ 0 ↔ ∀ j < u.length, target j = pre j) := by
  induction k generalizing fuel i with
  | zero =>
    obtain ⟨fuel, rfl⟩ : ∃ f, fuel = f + 1 := ⟨fuel - 1, by omega⟩
    have hi : i = u.length := by omega
    refine ⟨1, by rw [kstrstartswithFrom, hi, if_pos hp.nul], iff_of_true (by decide) ?_⟩
    rwa [← hi]
  | succ k ih =>
    obtain ⟨fuel, rfl⟩ : ∃ f, fuel = f + 1 := ⟨fuel - 1, by omega⟩
    rw [kstrstartswithFrom, if_neg (hp.apply_ne_zero (by omega))]
    by_cases hc : target i = pre i
    · rw [if_neg (by simpa using hc)]
      refine ih fuel (i + 1) (by omega) (by omega) fun j hj => ?_
      rcases Nat.lt_succ_iff_lt_or_eq.1 hj with h | rfl
      · exact heq j h
      · exact hc
    · exact ⟨0, if_pos hc, iff_of_false (by simp) fun hall => hc (hall i (by omega))⟩

/-- `kstrstartswith` tests for a prefix. -/
theorem kstrstartswith_iff (h : Spells target w) (hp : Spells pre u) (hf : u.length < fuel) :
    ∃ d, kstrstartswith fuel target pre = some d ∧ (d ≠ 0 ↔ u <+: w) := by
  obtain ⟨d, hd, hiff⟩ := kstrstartswithFrom_iff target hp u.length fuel 0 (by omega) hf (by simp)
  refine ⟨d, hd, hiff.trans ⟨fun hall => ?_, fun ⟨v, hv⟩ j hj => ?_⟩⟩
  · rw [List.prefix_iff_getElem?]
    intro j hj
    have htj : target j ≠ 0 := by rw [hall j hj]; exact hp.apply_ne_zero hj
    have hjw : j < w.length := by
      by_contra hge
      -- a string compared beyond its end would have been found different at its NUL
      have hle : w.length ≤ j := Nat.le_of_not_lt hge
      have := hall w.length (by omega)
      rw [h.nul] at this
      exact hp.apply_ne_zero (by omega) this.symm
    rw [List.getElem?_eq_getElem hjw, ← h.chars j hjw, hall j hj, hp.chars j hj]
  · subst hv
    rw [h.chars j (by rw [List.length_append]; omega), hp.chars j hj, List.getElem_append_left hj]

end copies

/-! ## The components in `temp_path` -/

theorem splitOn_slash (w : List Byte) : (slash :: w).splitOn slash = [] :: w.splitOn slash := by
  rw [List.splitOn, List.splitOnP_cons_eq_if_modifyHead, if_pos (by simp)]
  rfl

theorem splitOn_char {c : Byte} (hc : c ≠ slash) (w : List Byte) :
    (c :: w).splitOn slash = (w.splitOn slash).modifyHead (List.cons c) := by
  rw [List.splitOn, List.splitOnP_cons_eq_if_modifyHead, if_neg (by simpa using hc)]
  rfl

/-- A pointer into `temp_path` and the component it points to, or neither. -/
def Matches (tempPath : Nat → Byte) : Option Nat → Option (List Byte) → Prop
  | some p, some part => Spells (shift p tempPath) part
  | none, none => True
  | _, _ => False

/-- `parts` holds these components. -/
def PartsAre (tempPath : Nat → Byte) (parts : Parts) (cs : List (List Byte)) : Prop :=
  ∀ j < 15, Matches tempPath (parts j) cs[j]?

/-- The first slots of `parts` hold these components, and a `NULL` comes behind them. What lies behind that does
not matter to the loops: the shifts move the `NULL` along with the components. -/
structure PartsTo (tempPath : Nat → Byte) (parts : Parts) (cs : List (List Byte)) : Prop where
  length_le : cs.length ≤ 14
  slot : ∀ j ≤ cs.length, Matches tempPath (parts j) cs[j]?

section split
variable {buffer tempPath tempPath' : Nat → Byte} {parts : Parts} {w : List Byte} {cs : List (List Byte)}

/-- The loop on what is left of the buffer: the open component goes on to the next slash, and behind it
come the others. -/
theorem splitParts_spec (rest : List Byte) : ∀ (turns i partPointer : Nat) (tempPath : Nat → Byte) (parts : Parts),
    Spells (shift i buffer) rest → (∀ j ≤ rest.length, tempPath (i + j) = buffer (i + j)) →
    rest.length < turns → partPointer + rest.count slash ≤ 15 → (∀ j, partPointer ≤ j → parts j = none) →
    ∃ tempPath' parts' c cs, splitParts buffer turns i partPointer tempPath parts = some (tempPath', parts') ∧
      rest.splitOn slash = c :: cs ∧ (∀ j < i, tempPath' j = tempPath j) ∧
      (∀ j < partPointer, parts' j = parts j) ∧ Spells (shift i tempPath') c ∧
      ∀ j, Matches tempPath' (parts' (partPointer + j)) cs[j]? := by
  induction rest with
  | nil =>
    intro turns i partPointer tempPath parts hb ht hturns _ hnone
    obtain ⟨turns, rfl⟩ : ∃ f, turns = f + 1 := ⟨turns - 1, by simp at hturns; omega⟩
    have hnul : buffer i = 0 := hb.nul
    refine ⟨tempPath, parts, [], [], by rw [splitParts, if_pos hnul], rfl, fun _ _ => rfl, fun _ _ => rfl,
      ⟨nofun, nofun, (ht 0 (Nat.zero_le _)).trans hnul⟩, fun j => ?_⟩
    rw [hnone _ (Nat.le_add_right ..)]
    trivial
  | cons c rest ih =>
    intro turns i partPointer tempPath parts hb ht hturns hcount hnone
    obtain ⟨turns, rfl⟩ : ∃ f, turns = f + 1 := ⟨turns - 1, by simp at hturns; omega⟩
    simp only [List.length_cons] at ht hturns
    obtain ⟨hbc, hc0, hb'⟩ := spells_shift_cons hb
    rw [splitParts, if_neg (by rw [hbc]; exact hc0), hbc]
    have hti : tempPath i = c := (ht 0 (Nat.zero_le _)).trans hbc
    by_cases hs : c = slash
    · -- a slash ends the component, and the next one starts behind it
      rw [List.count_cons, if_pos (by simp [hs])] at hcount
      rw [if_pos hs, if_pos (by omega)]
      obtain ⟨temp', parts', d, ds, hrun, hsplit, htemp, hparts, hd, hds⟩ :=
        ih turns (i + 1) (partPointer + 1) (Function.update tempPath i 0)
          (Function.update parts partPointer (some (i + 1))) hb'
          (fun j hj => by
            rw [Function.update_of_ne (by omega), Nat.add_assoc, ht _ (by omega)])
          (by omega) (by omega)
          (fun j hj => by rw [Function.update_of_ne (by omega), hnone j (by omega)])
      refine ⟨temp', parts', [], d :: ds, hrun, by rw [hs, splitOn_slash, hsplit], fun j hj => ?_,
        fun j hj => ?_, ⟨nofun, nofun, ?_⟩, fun j => ?_⟩
      · rw [htemp j (by omega), Function.update_of_ne (by omega)]
      · rw [hparts j (by omega), Function.update_of_ne (by omega)]
      · exact (htemp i (by omega)).trans (by simp)
      · cases j with
        | zero =>
          rw [Nat.add_zero, hparts partPointer (by omega), Function.update_self]
          exact hd
        | succ j =>
          have := hds j
          rwa [Nat.add_right_comm, Nat.add_assoc] at this
    · rw [List.count_cons, if_neg (by simpa using hs), Nat.add_zero] at hcount
      rw [if_neg hs]
      obtain ⟨temp', parts', d, ds, hrun, hsplit, htemp, hparts, hd, hds⟩ :=
        ih turns (i + 1) partPointer tempPath parts hb'
          (fun j hj => by rw [Nat.add_assoc, ht _ (by omega)]) (by omega) hcount hnone
      refine ⟨temp', parts', c :: d, ds, hrun, by rw [splitOn_char hs, hsplit, List.modifyHead_cons],
        fun j hj => htemp j (by omega), hparts, ⟨fun j hj => ?_, fun e he => ?_, ?_⟩, hds⟩
      · cases j with
        | zero => exact (htemp i (by omega)).trans hti
        | succ j =>
          have := hd.chars j (by simpa using hj)
          rw [shift, Nat.add_right_comm, Nat.add_assoc] at this
          exact this
      · rcases List.mem_cons.1 he with rfl | he
        · exact hc0
        · exact hd.ne_zero e he
      · have := hd.nul
        rw [shift, Nat.add_right_comm, Nat.add_assoc] at this
        exact this

/-- A component of the text with one character more is one of the text, or empty before a slash, or the first one
behind the character. -/
theorem mem_splitOn_cons {c : Byte} {w part : List Byte} (h : part ∈ (c :: w).splitOn slash) :
    part ∈ w.splitOn slash ∨ part = [] ∨ c ≠ slash ∧ ∃ d ∈ w.splitOn slash, part = c :: d := by
  by_cases hc : c = slash
  · rw [hc, splitOn_slash] at h
    rcases List.mem_cons.1 h with rfl | h
    · exact .inr (.inl rfl)
    · exact .inl h
  · rw [splitOn_char hc] at h
    obtain ⟨d, ds, hd⟩ := List.exists_cons_of_ne_nil (List.splitOnP_ne_nil (· == slash) w)
    have hd' : w.splitOn slash = d :: ds := hd
    rw [hd', List.modifyHead_cons] at h
    rw [hd']
    rcases List.mem_cons.1 h with rfl | h
    · exact .inr (.inr ⟨hc, d, List.mem_cons_self, rfl⟩)
    · exact .inl (List.mem_cons_of_mem _ h)

theorem length_le_of_mem_splitOn : ∀ {w part : List Byte}, part ∈ w.splitOn slash → part.length ≤ w.length
  | [], part, h => by
    rw [List.splitOn_nil, List.mem_singleton] at h
    rw [h]
  | c :: w, part, h => by
    rcases mem_splitOn_cons h with h | rfl | ⟨-, d, hd, rfl⟩
    · exact Nat.le_succ_of_le (length_le_of_mem_splitOn h)
    · exact Nat.zero_le _
    · have : d.length ≤ w.length := length_le_of_mem_splitOn hd
      exact Nat.succ_le_succ this

/-- There is one component more than slashes. -/
theorem length_splitOn : ∀ (w : List Byte), (w.splitOn slash).length = w.count slash + 1
  | [] => rfl
  | c :: w => by
    by_cases hc : c = slash
    · rw [hc, splitOn_slash, List.length_cons, length_splitOn w, List.count_cons_self]
    · rw [splitOn_char hc, List.length_modifyHead, length_splitOn w, List.count_cons_of_ne hc]

theorem PartsAre.partsTo (h : PartsAre tempPath parts cs) (hlen : cs.length ≤ 14) : PartsTo tempPath parts cs :=
  ⟨hlen, fun j hj => h j (by omega)⟩

namespace PartsTo

theorem dropOne (h : PartsTo tempPath parts cs) {i : Nat} (hi : i < cs.length) :
    PartsTo tempPath (dropOne i parts) (cs.eraseIdx i) := by
  have hle := h.length_le
  have hlen : (cs.eraseIdx i).length = cs.length - 1 := List.length_eraseIdx_of_lt hi
  refine ⟨by omega, fun j hj => ?_⟩
  rw [Sbuos.dropOne, List.getElem?_eraseIdx]
  by_cases hji : j < i
  · rw [if_neg (by omega), if_pos hji]
    exact h.slot j (by omega)
  · rw [if_neg hji, if_pos ⟨by omega, by omega⟩]
    exact h.slot (j + 1) (by omega)

theorem dropTwo (h : PartsTo tempPath parts cs) {i : Nat} (hi : i + 1 < cs.length) :
    PartsTo tempPath (dropTwo i parts) ((cs.eraseIdx i).eraseIdx i) := by
  have hle := h.length_le
  have hlen : (cs.eraseIdx i).length = cs.length - 1 := List.length_eraseIdx_of_lt (by omega)
  have hlen' : ((cs.eraseIdx i).eraseIdx i).length = (cs.eraseIdx i).length - 1 :=
    List.length_eraseIdx_of_lt (by omega)
  refine ⟨by omega, fun j hj => ?_⟩
  simp only [Sbuos.dropTwo, List.getElem?_eraseIdx]
  by_cases hji : j < i
  · rw [if_neg (by omega), if_pos hji, if_pos hji]
    exact h.slot j (by omega)
  · rw [if_neg hji, if_neg (show ¬j + 1 < i by omega), if_pos ⟨by omega, by omega⟩]
    exact h.slot (j + 2) (by omega)

theorem apply_nil (h : PartsTo tempPath parts cs) : parts cs.length = none := by
  have := h.slot cs.length (Nat.le_refl _)
  rw [List.getElem?_eq_none (Nat.le_refl _)] at this
  cases hp : parts cs.length with
  | none => rfl
  | some p => rw [hp] at this; exact this.elim

variable {done todo : List (List Byte)} {part : List Byte}

theorem apply_cons (h : PartsTo tempPath parts (done ++ part :: todo)) :
    ∃ p, parts done.length = some p ∧ Spells (shift p tempPath) part := by
  have := h.slot done.length (by simp)
  rw [List.getElem?_append_right (Nat.le_refl _), Nat.sub_self, List.getElem?_cons_zero] at this
  cases hp : parts done.length with
  | none => rw [hp] at this; exact this.elim
  | some p => rw [hp] at this; exact ⟨p, rfl, this⟩

end PartsTo

theorem spells_dot : Spells (cString ".") [dot] := spells_cString rfl (by decide)

theorem spells_dotDot : Spells (cString "..") [dot, dot] := spells_cString rfl (by decide)

theorem spells_slash : Spells (cString "/") [slash] := spells_cString rfl (by decide)

theorem spells_here : Spells (cString "./") [dot, slash] := spells_cString rfl (by decide)

/-- One turn of the loop, at a component it can read. -/
theorem foldParts_step {i p fuel : Nat} {part : List Byte} (hi : i < 15) (hp : parts i = some p)
    (hspell : Spells (shift p tempPath) part) (hf : part.length < fuel) (hf2 : 2 < fuel) :
    foldParts tempPath (fuel + 1) i parts =
      if part = [] ∨ part = [dot] then foldParts tempPath fuel i (dropOne i parts)
      else if part = [dot, dot] then
        if i = 0 then foldParts tempPath fuel 0 (dropOne 0 parts)
        else foldParts tempPath fuel (i - 1) (dropTwo (i - 1) parts)
      else foldParts tempPath fuel (i + 1) parts := by
  rw [foldParts, if_pos hi]
  simp only [hp]
  by_cases hempty : part = []
  · have hnul : tempPath p = 0 := by
      have := hspell.nul
      rwa [hempty] at this
    rw [if_pos hnul, if_pos (show part = [] ∨ part = [dot] from .inl hempty)]
    rfl
  · have hchar : tempPath p ≠ 0 := hspell.apply_ne_zero (i := 0) (List.length_pos_of_ne_nil hempty)
    obtain ⟨d, hd, hdot⟩ := hspell.kstrcmp spells_dot hf (by simp; omega)
    obtain ⟨d', hd', hdotDot⟩ := hspell.kstrcmp spells_dotDot hf (by simp; omega)
    rw [if_neg hchar]
    simp only [hd, hd', Option.bind_eq_bind, Option.bind_some, hdot, hdotDot, hempty, false_or]

/-- The loop takes the next component off `todo` and does to `done` what `pushPart` says. -/
theorem foldParts_spec {m : Nat} (hm : 2 ≤ m) (todo : List (List Byte)) :
    ∀ (done : List (List Byte)) (parts : Parts) (fuel : Nat), PartsTo tempPath parts (done ++ todo) →
      (∀ part ∈ todo, part.length ≤ m) → todo.length + m < fuel →
      ∃ parts', foldParts tempPath fuel done.length parts = some parts' ∧
        PartsTo tempPath parts' (todo.foldl pushPart done) := by
  induction todo with
  | nil =>
    intro done parts fuel h _ hf
    obtain ⟨fuel, rfl⟩ : ∃ f, fuel = f + 1 := ⟨fuel - 1, by omega⟩
    rw [List.append_nil] at h
    have hlen := h.length_le
    refine ⟨parts, ?_, h⟩
    rw [foldParts, if_pos (by omega)]
    simp only [h.apply_nil]
  | cons part todo ih =>
    intro done parts fuel h hpart hf
    obtain ⟨fuel, rfl⟩ : ∃ f, fuel = f + 1 := ⟨fuel - 1, by omega⟩
    have hlen := h.length_le
    simp only [List.length_append, List.length_cons] at hlen hf
    have hpm : part.length ≤ m := hpart part List.mem_cons_self
    obtain ⟨p, hp, hspell⟩ := h.apply_cons
    have htodo : ∀ q ∈ todo, q.length ≤ m := fun q hq => hpart q (List.mem_cons_of_mem _ hq)
    have hdrop : PartsTo tempPath (dropOne done.length parts) (done ++ todo) := by
      have := h.dropOne (i := done.length) (by simp)
      rwa [List.eraseIdx_append_of_length_le (Nat.le_refl _), Nat.sub_self, List.eraseIdx_cons_zero] at this
    have hkeep := ih done (dropOne done.length parts) fuel hdrop htodo (by omega)
    rw [foldParts_step (by omega) hp hspell (by omega) (by omega), List.foldl_cons, pushPart]
    split
    · exact hkeep
    · split
      · rcases List.eq_nil_or_concat' done with rfl | ⟨done, last, rfl⟩
        · exact hkeep
        · -- `..` takes the component before it away
          have hne : (done ++ [last]).length ≠ 0 := by simp
          rw [if_neg hne, List.dropLast_concat]
          simp only [List.length_append, List.length_singleton, Nat.add_sub_cancel] at hlen ⊢
          have htwo := h.dropTwo (i := done.length) (by simp)
          rw [List.append_assoc, List.eraseIdx_append_of_length_le (Nat.le_refl _), Nat.sub_self,
            List.singleton_append, List.eraseIdx_cons_zero,
            List.eraseIdx_append_of_length_le (Nat.le_refl _), Nat.sub_self, List.eraseIdx_cons_zero] at htwo
          exact ih done _ fuel htwo htodo (by omega)
      · have hnext := ih (done ++ [part]) parts fuel (by simpa using h) htodo (by omega)
        simpa using hnext

theorem storeAt_overwrite (i : Nat) (u : List Byte) (buffer : Nat → Byte) :
    storeAt i (overwrite 0 u (shift i buffer)) buffer = overwrite i u buffer := by
  funext j
  rw [storeAt]
  by_cases hj : j < i
  · rw [if_pos hj, overwrite_of_lt hj]
  · rw [if_neg hj, overwrite, overwrite, if_neg (Nat.not_lt_zero _), if_neg hj, Nat.sub_zero, shift,
      Nat.add_sub_cancel' (Nat.le_of_not_lt hj)]

/-- One component goes back, with a slash over its NUL. -/
theorem storeAt_part {p : Nat} {part : List Byte} (hspell : Spells (shift p tempPath) part) (i : Nat)
    (buffer : Nat → Byte) :
    Function.update (storeAt i (kstrcpy (shift i buffer) (shift p tempPath) part.length).1 buffer)
      (i + part.length) slash = overwrite i (part ++ [slash]) buffer := by
  rw [hspell.kstrcpy (Int.le_refl _), storeAt_overwrite, ← overwrite_overwrite, overwrite_singleton,
    Function.update_idem, ← overwrite_singleton, overwrite_overwrite]

/-- The loop writes the components back, each with a slash behind it. -/
theorem joinParts_spec {m : Nat} (todo : List (List Byte)) :
    ∀ (done : List (List Byte)) (fuel i : Nat) (buffer : Nat → Byte), PartsTo tempPath parts (done ++ todo) →
      (∀ part ∈ todo, part.length ≤ m) → todo.length + m < fuel →
      joinParts tempPath parts fuel done.length i buffer =
        some (overwrite i (todo.flatMap (· ++ [slash])) buffer, i + (todo.flatMap (· ++ [slash])).length) := by
  induction todo with
  | nil =>
    intro done fuel i buffer h _ hf
    obtain ⟨fuel, rfl⟩ : ∃ f, fuel = f + 1 := ⟨fuel - 1, by omega⟩
    rw [List.append_nil] at h
    have hlen := h.length_le
    rw [joinParts, if_pos (by omega)]
    simp only [h.apply_nil, List.flatMap_nil, overwrite_nil, List.length_nil, Nat.add_zero]
  | cons part todo ih =>
    intro done fuel i buffer h hpart hf
    obtain ⟨fuel, rfl⟩ : ∃ f, fuel = f + 1 := ⟨fuel - 1, by omega⟩
    have hlen := h.length_le
    simp only [List.length_append, List.length_cons] at hlen hf
    have hpm : part.length ≤ m := hpart part List.mem_cons_self
    obtain ⟨p, hp, hspell⟩ := h.apply_cons
    have hnext := ih (done ++ [part]) fuel (i + part.length + 1) (overwrite i (part ++ [slash]) buffer)
      (by simpa using h) (fun q hq => hpart q (List.mem_cons_of_mem _ hq)) (by omega)
    rw [joinParts, if_pos (by omega)]
    simp only [hp, hspell.kstrlen (show part.length < fuel by omega), Option.bind_eq_bind, Option.bind_some,
      storeAt_part hspell]
    rw [List.length_append, List.length_singleton] at hnext
    have hlast : i + part.length + 1 = i + (part ++ [slash]).length := by simp; omega
    rw [hnext, hlast, overwrite_overwrite, List.flatMap_cons]
    refine congrArg some (Prod.ext rfl ?_)
    rw [Nat.add_assoc, ← List.length_append]

end split

/-! ## The result -/

/-- Folding only takes components away. -/
theorem foldl_pushPart_sublist : ∀ (todo done : List (List Byte)), (todo.foldl pushPart done).Sublist (done ++ todo)
  | [], done => by simp
  | part :: todo, done => by
    have ih := foldl_pushPart_sublist todo (pushPart done part)
    refine ih.trans ?_
    rw [pushPart]
    split
    · exact (List.Sublist.refl done).append (List.sublist_cons_self part todo)
    · split
      · exact (List.dropLast_sublist done).append (List.sublist_cons_self part todo)
      · rw [List.append_assoc, List.singleton_append]

theorem normalParts_sublist (w : List Byte) : (normalParts w).Sublist (w.splitOn slash) :=
  foldl_pushPart_sublist (w.splitOn slash) []

theorem mem_of_mem_normalParts {w part : List Byte} (h : part ∈ normalParts w) : part ∈ w.splitOn slash :=
  (normalParts_sublist w).subset h

theorem mem_of_mem_splitOn {b : Byte} : ∀ {w part : List Byte}, part ∈ w.splitOn slash → b ∈ part → b ∈ w
  | [], part, h, hb => by
    rw [List.splitOn_nil, List.mem_singleton] at h
    rwa [h] at hb
  | c :: w, part, h, hb => by
    rcases mem_splitOn_cons h with h | rfl | ⟨-, d, hd, rfl⟩
    · exact List.mem_cons_of_mem _ (mem_of_mem_splitOn h hb)
    · exact absurd hb List.not_mem_nil
    · rcases List.mem_cons.1 hb with rfl | hb
      · exact List.mem_cons_self
      · exact List.mem_cons_of_mem _ (mem_of_mem_splitOn hd hb)

theorem slash_not_mem_of_mem_splitOn : ∀ {w part : List Byte}, part ∈ w.splitOn slash → slash ∉ part
  | [], part, h => by
    rw [List.splitOn_nil, List.mem_singleton] at h
    rw [h]
    exact List.not_mem_nil
  | c :: w, part, h => by
    rcases mem_splitOn_cons h with h | rfl | ⟨hc, d, hd, rfl⟩
    · exact slash_not_mem_of_mem_splitOn h
    · exact List.not_mem_nil
    · have : slash ∉ d := slash_not_mem_of_mem_splitOn hd
      exact fun hs => (List.mem_cons.1 hs).elim (fun he => hc he.symm) this

theorem not_special_of_mem_foldl_pushPart {part : List Byte} : ∀ {todo done : List (List Byte)},
    (∀ q ∈ done, ¬Special q) → part ∈ todo.foldl pushPart done → ¬Special part
  | [], _, hdone, h => hdone part h
  | p :: todo, done, hdone, h => by
    have h : part ∈ todo.foldl pushPart (pushPart done p) := h
    refine not_special_of_mem_foldl_pushPart (fun q hq => ?_) h
    unfold pushPart at hq
    split at hq
    · exact hdone q hq
    · rename_i hp
      split at hq
      · exact hdone q ((List.dropLast_sublist _).subset hq)
      · rename_i hdotDot
        rcases List.mem_append.1 hq with hq | hq
        · exact hdone q hq
        · rw [List.mem_singleton.1 hq]
          rintro (he | he | he)
          · exact hp (.inl he)
          · exact hp (.inr he)
          · exact hdotDot he

theorem not_special_of_mem_normalParts {w part : List Byte} (h : part ∈ normalParts w) : ¬Special part :=
  not_special_of_mem_foldl_pushPart (fun _ hq => absurd hq List.not_mem_nil) h

/-- A normal form other than the root does not end in a slash. -/
theorem getLast?_absolute_ne {w : List Byte} : (absolute (normalParts w)).getLast? ≠ some slash := by
  rcases List.eq_nil_or_concat' (normalParts w) with hp | ⟨ps, p, hp⟩
  · rw [hp]
    exact nofun
  · have hmem : p ∈ normalParts w := by rw [hp]; simp
    have hne : p ≠ [] := fun he => not_special_of_mem_normalParts hmem (.inl he)
    have hslash := slash_not_mem_of_mem_splitOn (mem_of_mem_normalParts hmem)
    obtain ⟨v, b, rfl⟩ := (List.eq_nil_or_concat' p).resolve_left hne
    rw [hp, absolute, List.flatMap_append, List.flatMap_singleton, ← List.cons_append, ← List.append_assoc,
      List.getLast?_concat]
    intro he
    exact hslash (by rw [Option.some.inj he]; simp)

theorem slash_cons_flatMap : ∀ parts : List (List Byte),
    slash :: parts.flatMap (· ++ [slash]) = absolute parts ++ [slash]
  | [] => rfl
  | part :: parts => by
    have ih := slash_cons_flatMap parts
    simp only [absolute, List.flatMap_cons, List.append_assoc, List.cons_append, List.nil_append] at ih ⊢
    rw [ih]

/-- What `cleanup_path` leaves of a path: the root only when it was spelled `/`, the normal form else. -/
def normalText (w : List Byte) : List Byte := if w = [slash] then [slash] else absolute (normalParts w)

theorem normalText_ne_zero {w : List Byte} (hw : ∀ c ∈ w, c ≠ 0) : ∀ c ∈ normalText w, c ≠ 0 := by
  have hslash : slash ≠ 0 := by decide
  intro c hc
  unfold normalText at hc
  split at hc
  · rw [List.mem_singleton.1 hc]; exact hslash
  · obtain ⟨part, hpart, hcp⟩ := List.mem_flatMap.1 hc
    rcases List.mem_cons.1 hcp with rfl | hcp
    · exact hslash
    · exact hw c (mem_of_mem_splitOn (mem_of_mem_normalParts hpart) hcp)

theorem merged_ne_zero {wb wr : List Byte} (hb : ∀ c ∈ wb, c ≠ 0) (hr : ∀ c ∈ wr, c ≠ 0) :
    ∀ c ∈ merged wb wr, c ≠ 0 := by
  intro c hc
  unfold merged at hc
  split at hc
  · exact hr c hc
  · split at hc
    · exact (List.mem_append.1 hc).elim (hb c) fun h => hr c (List.mem_of_mem_drop h)
    · exact (List.mem_append.1 hc).elim (hb c) (hr c)

section merge
variable {buffer tempPath base relative : Nat → Byte} {w wb wr : List Byte} {size : Nat}

/-- A path spelled `/` is left alone. -/
theorem overwrite_spelled (h : Spells buffer w) : overwrite 0 (w ++ [0]) buffer = buffer := by
  funext j
  by_cases hj : j < w.length + 1
  · rw [overwrite_zero _ _ (by simpa using hj)]
    by_cases hjw : j < w.length
    · rw [List.getElem_append_left hjw, h.chars j hjw]
    · obtain rfl : j = w.length := by omega
      rw [h.nul]
      simp
  · exact overwrite_of_le (by simp; omega)

/-! The three loops of `cleanup_path`. -/

theorem splitParts_parts (h : Spells buffer w) (hsize : w.length < size) (hcount : w.count slash ≤ 14)
    (tempPath : Nat → Byte) :
    ∃ tempPath' parts, splitParts buffer size 0 1 (fun i => if i < size then buffer i else tempPath i)
        (Function.update (fun _ => none) 0 (some 0)) = some (tempPath', parts) ∧
      PartsAre tempPath' parts (w.splitOn slash) := by
  have h0 : Spells (shift 0 buffer) w := by rwa [shift_zero]
  obtain ⟨temp', parts, c, cs, hsplit, hcs, -, hfirst, hc, hrest⟩ :=
    splitParts_spec w size 0 1 (fun i => if i < size then buffer i else tempPath i)
      (Function.update (fun _ => none) 0 (some 0)) h0
      (fun j hj => by rw [Nat.zero_add, if_pos (by omega)]) hsize (by omega)
      (fun j hj => by rw [Function.update_of_ne (by omega)])
  rw [hcs]
  refine ⟨temp', parts, hsplit, fun j _ => ?_⟩
  cases j with
  | zero =>
    rw [hfirst 0 Nat.one_pos, Function.update_self]
    exact hc
  | succ j =>
    have := hrest j
    rwa [Nat.add_comm] at this

theorem foldParts_normal {parts : Parts} {fuel : Nat} (h : PartsTo tempPath parts (w.splitOn slash))
    (hf : w.length + 20 ≤ fuel) :
    ∃ parts', foldParts tempPath fuel 0 parts = some parts' ∧ PartsTo tempPath parts' (normalParts w) := by
  have hlen := h.length_le
  exact foldParts_spec (m := w.length + 2) (by omega) (w.splitOn slash) [] parts fuel h
    (fun part hpart => Nat.le_add_right_of_le (length_le_of_mem_splitOn hpart)) (by omega)

/-- The components go back behind slashes, and a NUL over the last one. -/
theorem joinParts_normal {parts : Parts} {fuel : Nat} (h : PartsTo tempPath parts (normalParts w))
    (hf : w.length + 20 ≤ fuel) (buffer : Nat → Byte) :
    ∃ buffer' i, joinParts tempPath parts fuel 0 1 (Function.update buffer 0 slash) = some (buffer', i) ∧
      Function.update buffer' (i - 1) 0 = overwrite 0 (absolute (normalParts w) ++ [0]) buffer := by
  have hlen := h.length_le
  have hjoin := joinParts_spec (m := w.length + 2) (normalParts w) [] fuel 1 (Function.update buffer 0 slash) h
    (fun part hpart => Nat.le_add_right_of_le (length_le_of_mem_splitOn (mem_of_mem_normalParts hpart))) (by omega)
  have hwords := slash_cons_flatMap (normalParts w)
  have hend : 1 + ((normalParts w).flatMap (· ++ [slash])).length - 1 = 0 + (absolute (normalParts w)).length := by
    have := congrArg List.length hwords
    rw [List.length_cons, List.length_append, List.length_singleton] at this
    omega
  refine ⟨_, _, hjoin, ?_⟩
  rw [hend, overwrite_update (i := 0), hwords, ← overwrite_overwrite, overwrite_singleton, Function.update_idem,
    ← overwrite_singleton, overwrite_overwrite]

theorem cleanupPath_spec (h : Spells buffer w) (hsize : w.length < size) (hcount : w.count slash ≤ 13)
    (tempPath : Nat → Byte) :
    ∃ tempPath', ∀ fuel, w.length + 20 ≤ fuel → cleanupPath fuel buffer tempPath size =
      some (overwrite 0 (normalText w ++ [0]) buffer, tempPath') := by
  have hspelled : ∀ fuel, w.length + 20 ≤ fuel →
      ∃ d, kstrcmp fuel buffer (cString "/") = some d ∧ (d = 0 ↔ w = [slash]) := fun fuel hf =>
    h.kstrcmp spells_slash (by omega) (by simp; omega)
  by_cases hroot : w = [slash]
  · refine ⟨tempPath, fun fuel hf => ?_⟩
    obtain ⟨d, hd, hd0⟩ := hspelled fuel hf
    rw [hroot] at h
    rw [cleanupPath, normalText, if_pos hroot, overwrite_spelled h]
    simp only [hd, Option.bind_eq_bind, Option.bind_some, if_pos (hd0.2 hroot)]
  · obtain ⟨temp', parts, hsplit, hparts⟩ := splitParts_parts h hsize (by omega) tempPath
    have hto := hparts.partsTo (by rw [length_splitOn]; omega)
    refine ⟨temp', fun fuel hf => ?_⟩
    obtain ⟨d, hd, hd0⟩ := hspelled fuel hf
    obtain ⟨parts', hfold, hto'⟩ := foldParts_normal hto hf
    obtain ⟨buffer', i, hjoin, hend⟩ := joinParts_normal hto' hf buffer
    rw [cleanupPath, normalText, if_neg hroot]
    simp only [hd, Option.bind_eq_bind, Option.bind_some]
    rw [if_neg fun h0 => hroot (hd0.1 h0), hsplit]
    simp only [Option.bind_some, hfold, hjoin, hend]

/-- **Merging paths**: for a merged text that fits and has at most 13 slashes, `path_merge` leaves the
normal form, written over the merged text. -/
theorem path_merge_normal (hb : Spells base wb) (hr : Spells relative wr) (hw : merged wb wr = w)
    (hsize : w.length < size) (hcount : w.count slash ≤ 13) (buffer tempPath : Nat → Byte) :
    ∃ tempPath', ∀ fuel, wb.length + wr.length + 20 ≤ fuel → pathMerge fuel base relative buffer tempPath size =
      some (overwrite 0 (normalText w ++ [0]) (overwrite 0 (w ++ [0]) buffer), tempPath') := by
  have hspell : Spells (overwrite 0 (w ++ [0]) buffer) w :=
    spells_overwrite (hw ▸ merged_ne_zero hb.ne_zero hr.ne_zero)
  obtain ⟨temp', htemp⟩ := cleanupPath_spec hspell hsize hcount tempPath
  refine ⟨temp', fun fuel hf => ?_⟩
  obtain ⟨d, hd, hd1⟩ := kstrstartswith_iff hr spells_slash (show _ < fuel by simp; omega)
  obtain ⟨d', hd', hd1'⟩ := kstrstartswith_iff hr spells_here (show _ < fuel by simp; omega)
  unfold merged at hw
  unfold pathMerge
  simp only [hd, hd', Option.bind_eq_bind, Option.bind_some]
  by_cases habs : [slash] <+: wr
  · rw [if_pos habs] at hw
    subst hw
    rw [if_pos (hd1.2 habs), hr.kstrcpy (by omega)]
    exact htemp fuel (by omega)
  · rw [if_neg habs] at hw
    by_cases hdot : [dot, slash] <+: wr
    · rw [if_pos hdot] at hw
      have hlen : 2 ≤ wr.length := hdot.length_le
      have hwlen := congrArg List.length hw
      simp only [List.length_append, List.length_drop] at hwlen
      rw [if_neg fun h => habs (hd1.1 h), if_pos (hd1'.2 hdot),
        kstrcat_eq hb (spells_shift hr hlen) (by omega) (by simp; omega), hw]
      exact htemp fuel (by omega)
    · rw [if_neg hdot] at hw
      have hwlen := congrArg List.length hw
      rw [List.length_append] at hwlen
      rw [if_neg fun h => habs (hd1.1 h), if_neg fun h => hdot (hd1'.1 h), kstrcat_eq hb hr (by omega) (by omega), hw]
      exact htemp fuel (by omega)

/-! ## The normal form -/

/-- The path itself if it is absolute, and the working directory with the path behind it otherwise. -/
def joined (base path : List Byte) : List Byte := if [slash] <+: path then path else base ++ path

/-- `path_merge` leaves a leading `./` of the path out, which the normal form does not see. -/
theorem normalParts_merged (hend : wb.getLast? = some slash) :
    normalParts (merged wb wr) = normalParts (joined wb wr) := by
  unfold merged joined
  split
  · rfl
  · split
    · rename_i hhere
      obtain ⟨u, rfl⟩ := hhere
      obtain ⟨v, rfl⟩ : ∃ v, wb = v ++ [slash] := List.getLast?_eq_some_iff.1 hend
      have hdot : (dot :: slash :: u).splitOn slash = [dot] :: u.splitOn slash := by
        rw [splitOn_char (by decide), splitOn_slash]
        rfl
      have hskip : ∀ done, pushPart done [dot] = done := fun done => if_pos (.inr rfl)
      have hdrop : ([dot, slash] ++ u).drop 2 = u := rfl
      rw [hdrop, List.append_assoc, List.append_assoc, List.singleton_append, List.singleton_append, normalParts,
        normalParts, List.splitOn_append_cons_self, List.splitOn_append_cons_self, List.cons_append, List.cons_append,
        List.nil_append, hdot,
        List.foldl_append, List.foldl_append, List.foldl_cons, hskip]
    · rfl

theorem merged_sublist : List.Sublist (merged wb wr) (joined wb wr) := by
  unfold merged joined
  split
  · exact List.Sublist.refl _
  · split
    · exact (List.Sublist.refl _).append (List.drop_sublist 2 wr)
    · exact List.Sublist.refl _

/-- The components with a slash before each are the slash and the components joined by slashes. -/
theorem absolute_eq_intercalate {parts : List (List Byte)} (h : parts ≠ []) :
    absolute parts = slash :: [slash].intercalate parts := by
  induction parts with
  | nil => exact absurd rfl h
  | cons part parts ih =>
    cases parts with
    | nil => simp [absolute]
    | cons q parts =>
      have ih := ih (List.cons_ne_nil q parts)
      rw [absolute, List.flatMap_cons, ← absolute, ih, List.intercalate_cons_cons]
      simp

/-- **Path normal form**: for a joined text that fits the buffer and has at most 13 slashes, and whose components
do not fold to the root, `path_merge` leaves a slash and the folded components joined by slashes. -/
theorem path_normal_form (hb : Spells base wb) (hend : wb.getLast? = some slash) (hr : Spells relative wr)
    (hlen : (joined wb wr).length < 100) (hcount : (joined wb wr).count slash ≤ 13)
    (hparts : normalParts (joined wb wr) ≠ []) (buffer tempPath : Nat → Byte) :
    ∃ buffer' tempPath', Returns (fun fuel => pathMerge fuel base relative buffer tempPath 100) (buffer', tempPath') ∧
      Spells buffer' (slash :: [slash].intercalate (normalParts (joined wb wr))) ∧
      (slash :: [slash].intercalate (normalParts (joined wb wr))).getLast? ≠ some slash := by
  have hsub : List.Sublist (merged wb wr) (joined wb wr) := merged_sublist
  have hnormal : normalParts (merged wb wr) = normalParts (joined wb wr) := normalParts_merged hend
  rw [← hnormal] at hparts ⊢
  obtain ⟨temp', hmerge⟩ := path_merge_normal hb hr rfl (Nat.lt_of_le_of_lt hsub.length_le hlen)
    ((hsub.count_le slash).trans hcount) buffer tempPath
  have hroot : merged wb wr ≠ [slash] := by
    intro he
    rw [he] at hparts
    exact hparts rfl
  have htext : normalText (merged wb wr) = slash :: [slash].intercalate (normalParts (merged wb wr)) := by
    rw [normalText, if_neg hroot, absolute_eq_intercalate hparts]
  rw [htext] at hmerge
  refine ⟨_, temp', .of_le _ hmerge, spells_overwrite ?_, ?_⟩
  · rw [← htext]
    exact normalText_ne_zero (merged_ne_zero hb.ne_zero hr.ne_zero)
  · rw [← absolute_eq_intercalate hparts]
    exact getLast?_absolute_ne

/-- `../b` in the directory `/a/`. -/
theorem path_normal_form_up : ∃ buffer' tempPath',
    Returns (fun fuel => pathMerge fuel (cString "/a/") (cString "../b") (fun _ => 0) (fun _ => 0) 100)
      (buffer', tempPath') ∧ Spells buffer' [slash, 0x62] := by
  have hbase : Spells (cString "/a/") [slash, 0x61, slash] := spells_cString rfl (by decide)
  have hpath : Spells (cString "../b") [dot, dot, slash, 0x62] := spells_cString rfl (by decide)
  obtain ⟨buffer', tempPath', hmerge, hspell, -⟩ :=
    path_normal_form hbase rfl hpath (by decide) (by decide) (by decide) (fun _ => 0) (fun _ => 0)
  exact ⟨buffer', tempPath', hmerge, hspell⟩

end merge

end Sbuos
