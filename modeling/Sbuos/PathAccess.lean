import Sbuos.Chdir
import Sbuos.Lib.Logged
/-!
# What merging a path reads and writes (sys/sysutil.c:9-17, :37-114, sys/systemcall.c:114-163)

`cleanup_path` keeps its components in 15 pointers. The loop that folds them is bounded by 15 and by the shifts'
own bounds; the one that fills `parts` and the one that reads them back are not.

Here the functions of `Path` are written once more with the accesses they make, to `parts` and to the buffer, and
are shown to compute the same.

**`cleanup_path_in_parts`**: which paths stay within `parts`.
-/
namespace Sbuos
open Lib

/-- `parts[index]` is read or written, or `buffer[position]` written. -/
inductive Access
  | part (index : Nat)
  | store (position : Nat)

/-! ## The functions with their accesses -/

/-- The positions that the loop of `kstrcpy` writes. -/
def kstrcpyStores (src : Nat → Byte) (size : Int) : Nat → Nat → List Nat
  | 0, _ => []
  | turns + 1, i =>
    if src i = 0 then [i]
    else i :: if size ≤ i then [] else kstrcpyStores src size turns (i + 1)

/-- `kstrcpy` to `buffer + n`, with what `buffer + n` then holds. -/
def kstrcpyLog (n : Nat) (dest src : Nat → Byte) (size : Int) : Logged Access (Nat → Byte) := do
  .touch ((kstrcpyStores src size (size.toNat + 1) 0).map fun i => .store (n + i))
  pure (kstrcpy dest src size).1

/-- The positions that a loop of `kstrcat` writes. -/
def kstrcatStores (src : Nat → Byte) : Nat → Nat → Nat → List Nat
  | 0, _, _ => []
  | fuel + 1, i, j => if src j = 0 then [] else i :: kstrcatStores src fuel (i + 1) (j + 1)

def kstrcatFromLog (src : Nat → Byte) (fuel i j : Nat) (buffer : Nat → Byte) :
    Logged Access ((Nat → Byte) × Nat) := do
  .touch ((kstrcatStores src fuel i j).map .store)
  .lift (kstrcatFrom src fuel i j buffer)

def kstrcatLog (fuel : Nat) (st1 st2 buffer : Nat → Byte) : Logged Access (Nat → Byte) := do
  let (buffer, i) ← kstrcatFromLog st1 fuel 0 0 buffer
  let (buffer, i) ← kstrcatFromLog st2 fuel i 0 buffer
  .touch [.store i]
  pure (Function.update buffer i 0)

def splitPartsLog (buffer : Nat → Byte) : Nat → Nat → Nat → (Nat → Byte) → Parts →
    Logged Access ((Nat → Byte) × Parts)
  | 0, _, _, tempPath, parts => pure (tempPath, parts)
  | turns + 1, i, partPointer, tempPath, parts =>
    if buffer i = 0 then pure (tempPath, parts)
    else if buffer i = slash then do
      .touch [.part partPointer]
      if partPointer < 15 then
        splitPartsLog buffer turns (i + 1) (partPointer + 1) (Function.update tempPath i 0)
          (Function.update parts partPointer (some (i + 1)))
      else .lift none
    else splitPartsLog buffer turns (i + 1) partPointer tempPath parts

/-- The accesses of `for (j = i; j < last; ++j) parts[j] = parts[j+n]`. -/
def shiftAccesses (i last n : Nat) : List Access :=
  (List.range' i (last - i)).flatMap fun j => [.part (j + n), .part j]

def foldPartsLog (tempPath : Nat → Byte) : Nat → Nat → Parts → Logged Access Parts
  | 0, _, _ => .lift none
  | fuel + 1, i, parts =>
    if i < 15 then do
      .touch [.part i]
      match parts i with
      | none => pure parts
      | some p => do
        let isDot ← .lift (if tempPath p = 0 then some 0 else kstrcmp fuel (shift p tempPath) (cString "."))
        if isDot = 0 then do
          .touch (shiftAccesses i 14 1)
          foldPartsLog tempPath fuel i (dropOne i parts)
        else do
          let isDotDot ← .lift (kstrcmp fuel (shift p tempPath) (cString ".."))
          if isDotDot = 0 then
            if i = 0 then do
              .touch (shiftAccesses 0 14 1)
              foldPartsLog tempPath fuel 0 (dropOne 0 parts)
            else do
              .touch (shiftAccesses (i - 1) 13 2)
              foldPartsLog tempPath fuel (i - 1) (dropTwo (i - 1) parts)
          else foldPartsLog tempPath fuel (i + 1) parts
    else pure parts

def joinPartsLog (tempPath : Nat → Byte) (parts : Parts) : Nat → Nat → Nat → (Nat → Byte) →
    Logged Access ((Nat → Byte) × Nat)
  | 0, _, _, _ => .lift none
  | fuel + 1, partPointer, i, buffer => do
    .touch [.part partPointer]
    if partPointer < 15 then
      match parts partPointer with
      | none => pure (buffer, i)
      | some p => do
        let l ← .lift (kstrlen fuel (shift p tempPath))
        let copy ← kstrcpyLog i (shift i buffer) (shift p tempPath) l
        .touch [.store (i + l)]
        joinPartsLog tempPath parts fuel (partPointer + 1) (i + l + 1)
          (Function.update (storeAt i copy buffer) (i + l) slash)
    else .lift none

def cleanupPathLog (fuel : Nat) (buffer tempPath : Nat → Byte) (size : Nat) :
    Logged Access ((Nat → Byte) × (Nat → Byte)) := do
  let d ← .lift (kstrcmp fuel buffer (cString "/"))
  if d = 0 then pure (buffer, tempPath)
  else do
    .touch ((List.range 15).map .part ++ [.part 0])
    let tempPath := fun i => if i < size then buffer i else tempPath i
    let (tempPath, parts) ← splitPartsLog buffer size 0 1 tempPath (Function.update (fun _ => none) 0 (some 0))
    let parts ← foldPartsLog tempPath fuel 0 parts
    .touch [.store 0]
    let (buffer, i) ← joinPartsLog tempPath parts fuel 0 1 (Function.update buffer 0 slash)
    .touch [.store (i - 1)]
    pure (Function.update buffer (i - 1) 0, tempPath)

def pathMergeLog (fuel : Nat) (base relative buffer tempPath : Nat → Byte) (size : Nat) :
    Logged Access ((Nat → Byte) × (Nat → Byte)) := do
  let isAbsolute ← .lift (kstrstartswith fuel relative (cString "/"))
  if isAbsolute ≠ 0 then do
    let buffer ← kstrcpyLog 0 buffer relative size
    cleanupPathLog fuel buffer tempPath size
  else do
    let isHere ← .lift (kstrstartswith fuel relative (cString "./"))
    if isHere ≠ 0 then do
      let buffer ← kstrcatLog fuel base (shift 2 relative) buffer
      cleanupPathLog fuel buffer tempPath size
    else do
      let buffer ← kstrcatLog fuel base relative buffer
      cleanupPathLog fuel buffer tempPath size

/-! ## They compute what the functions compute -/

theorem kstrcatLog_result (fuel : Nat) (st1 st2 buffer : Nat → Byte) :
    (kstrcatLog fuel st1 st2 buffer).result = kstrcat fuel st1 st2 buffer := by
  simp [kstrcatLog, kstrcat, kstrcatFromLog]

theorem splitPartsLog_result (buffer : Nat → Byte) : ∀ (turns i partPointer : Nat) (tempPath : Nat → Byte)
    (parts : Parts), (splitPartsLog buffer turns i partPointer tempPath parts).result =
      splitParts buffer turns i partPointer tempPath parts
  | 0, _, _, _, _ => rfl
  | turns + 1, i, partPointer, tempPath, parts => by
    simp only [splitPartsLog, splitParts, Logged.result_ite, Logged.result_bind, Logged.result_touch,
      Option.bind_some, Logged.result_lift, Logged.result_pure]
    rw [splitPartsLog_result buffer turns, splitPartsLog_result buffer turns]

theorem foldPartsLog_result (tempPath : Nat → Byte) : ∀ (fuel i : Nat) (parts : Parts),
    (foldPartsLog tempPath fuel i parts).result = foldParts tempPath fuel i parts
  | 0, _, _ => rfl
  | fuel + 1, i, parts => by
    have ih := foldPartsLog_result tempPath fuel
    rw [foldPartsLog, foldParts]
    cases parts i with
    | none => simp
    | some p =>
      by_cases h0 : tempPath p = 0
      · simp [ih, h0]
      · simp [ih, show ¬tempPath p = 0#8 from h0]

theorem joinPartsLog_result (tempPath : Nat → Byte) (parts : Parts) : ∀ (fuel partPointer i : Nat)
    (buffer : Nat → Byte), (joinPartsLog tempPath parts fuel partPointer i buffer).result =
      joinParts tempPath parts fuel partPointer i buffer
  | 0, _, _, _ => rfl
  | fuel + 1, partPointer, i, buffer => by
    have ih := joinPartsLog_result tempPath parts fuel
    rw [joinPartsLog, joinParts]
    cases parts partPointer <;> simp [ih, kstrcpyLog]

theorem cleanupPathLog_result (fuel : Nat) (buffer tempPath : Nat → Byte) (size : Nat) :
    (cleanupPathLog fuel buffer tempPath size).result = cleanupPath fuel buffer tempPath size := by
  simp [cleanupPathLog, cleanupPath, splitPartsLog_result, foldPartsLog_result, joinPartsLog_result]

theorem pathMergeLog_result (fuel : Nat) (base relative buffer tempPath : Nat → Byte) (size : Nat) :
    (pathMergeLog fuel base relative buffer tempPath size).result =
      pathMerge fuel base relative buffer tempPath size := by
  simp [pathMergeLog, pathMerge, kstrcpyLog, kstrcatLog_result, cleanupPathLog_result]

/-! ## The indices of `parts` -/

section parts
variable {buffer tempPath : Nat → Byte} {parts parts' : Parts} {w part : List Byte} {fuel i j m : Nat} {e : Access}

/-- The loop that fills `parts` goes on for every slash, until it has written behind the last of the 15. -/
theorem splitPartsLog_log (rest : List Byte) : ∀ (turns i partPointer : Nat) (tempPath : Nat → Byte) (parts : Parts),
    Spells (shift i buffer) rest → rest.length < turns → partPointer ≤ 15 →
    (splitPartsLog buffer turns i partPointer tempPath parts).log =
      (List.range' partPointer (min (rest.count slash) (16 - partPointer))).map .part := by
  induction rest with
  | nil =>
    intro turns i partPointer tempPath parts hb hturns _
    obtain ⟨turns, rfl⟩ : ∃ f, turns = f + 1 := ⟨turns - 1, by simp at hturns; omega⟩
    have hnul : buffer i = 0 := hb.nul
    rw [splitPartsLog, if_pos hnul]
    simp
  | cons c rest ih =>
    intro turns i partPointer tempPath parts hb hturns hle
    obtain ⟨turns, rfl⟩ : ∃ f, turns = f + 1 := ⟨turns - 1, by simp at hturns; omega⟩
    obtain ⟨hbc, hc0, hb'⟩ := spells_shift_cons hb
    rw [List.length_cons] at hturns
    rw [splitPartsLog, if_neg (by rwa [hbc]), hbc]
    by_cases hs : c = slash
    · rw [if_pos hs, hs, List.count_cons_self]
      by_cases hlt : partPointer < 15
      · have hrest := ih turns (i + 1) (partPointer + 1) (Function.update tempPath i 0)
          (Function.update parts partPointer (some (i + 1))) hb' (by omega) (by omega)
        rw [if_pos hlt]
        have hmin : min (rest.count slash + 1) (16 - partPointer) =
            min (rest.count slash) (16 - (partPointer + 1)) + 1 := by omega
        rw [hmin, List.range'_succ, List.map_cons, ← hrest]
        rfl
      · obtain rfl : partPointer = 15 := by omega
        have hmin : min (rest.count slash + 1) (16 - 15) = 1 := by omega
        rw [if_neg hlt, hmin]
        rfl
    · rw [if_neg hs, List.count_cons_of_ne hs]
      exact ih turns (i + 1) partPointer tempPath parts hb' (by omega) hle

theorem shiftAccesses_mem {last n : Nat} (h : e ∈ shiftAccesses i last n) : ∃ j < last + n, e = .part j := by
  obtain ⟨j, hj, he⟩ := List.mem_flatMap.1 h
  have := List.mem_range'_1.1 hj
  rcases List.mem_cons.1 he with rfl | he
  · exact ⟨j + n, by omega, rfl⟩
  · exact ⟨j, by omega, List.mem_singleton.1 he⟩

/-- The loop that folds `parts` stays within it, whatever it finds there. -/
theorem foldPartsLog_mem (h : e ∈ (foldPartsLog tempPath fuel i parts).log) : ∃ j < 15, e = .part j := by
  induction fuel generalizing i parts with
  | zero => cases h
  | succ fuel ih =>
    rw [foldPartsLog] at h
    split at h
    · rcases Logged.mem_log_bind.1 h with h | ⟨-, -, h⟩
      · exact ⟨i, ‹_›, List.mem_singleton.1 h⟩
      · split at h
        · cases h
        · rcases Logged.mem_log_bind.1 h with h | ⟨isDot, -, h⟩
          · cases h
          split at h
          · rcases Logged.mem_log_bind.1 h with h | ⟨-, -, h⟩
            · exact shiftAccesses_mem h
            · exact ih h
          · rcases Logged.mem_log_bind.1 h with h | ⟨isDotDot, -, h⟩
            · cases h
            split at h
            · split at h
              · rcases Logged.mem_log_bind.1 h with h | ⟨-, -, h⟩
                · exact shiftAccesses_mem h
                · exact ih h
              · rcases Logged.mem_log_bind.1 h with h | ⟨-, -, h⟩
                · exact shiftAccesses_mem h
                · exact ih h
            · exact ih h
    · cases h

/-- The loop that reads `parts` back stops at a `NULL`. -/
theorem joinPartsLog_part {n partPointer : Nat} (hn : parts n = none) (hle : partPointer ≤ n)
    (h : .part j ∈ (joinPartsLog tempPath parts fuel partPointer i buffer).log) : j ≤ n := by
  induction fuel generalizing partPointer i buffer with
  | zero => cases h
  | succ fuel ih =>
    rw [joinPartsLog] at h
    rcases Logged.mem_log_bind.1 h with h | ⟨-, -, h⟩
    · obtain rfl : j = partPointer := by simpa using h
      exact hle
    split at h
    · split at h
      · cases h
      · rename_i p hp
        have hne : partPointer ≠ n := by
          rintro rfl
          rw [hn] at hp
          cases hp
        rcases Logged.mem_log_bind.1 h with h | ⟨l, -, h⟩
        · cases h
        rcases Logged.mem_log_bind.1 h with h | ⟨copy, -, h⟩
        · simp [kstrcpyLog] at h
        rcases Logged.mem_log_bind.1 h with h | ⟨-, -, h⟩
        · simp at h
        · exact ih (by omega) h
    · cases h

/-- Its last pointer but none `NULL`, it goes on behind the 15. -/
theorem joinPartsLog_behind {partPointer : Nat}
    (h : ∀ j < 15, ∃ p part, parts j = some p ∧ Spells (shift p tempPath) part ∧ part.length ≤ m)
    (hle : partPointer ≤ 15) (hf : 15 - partPointer + m < fuel) :
    .part 15 ∈ (joinPartsLog tempPath parts fuel partPointer i buffer).log := by
  induction fuel generalizing partPointer i buffer with
  | zero => omega
  | succ fuel ih =>
    rw [joinPartsLog]
    rcases Nat.eq_or_lt_of_le hle with rfl | hlt
    · exact Logged.mem_log_bind.2 (.inl (by simp))
    · obtain ⟨p, part, hp, hspell, hpm⟩ := h partPointer hlt
      refine Logged.mem_log_bind.2 (.inr ⟨(), rfl, ?_⟩)
      rw [if_pos hlt]
      simp only [hp]
      refine Logged.mem_log_bind.2 (.inr ⟨part.length, hspell.kstrlen (by omega), ?_⟩)
      refine Logged.mem_log_bind.2 (.inr ⟨_, rfl, ?_⟩)
      refine Logged.mem_log_bind.2 (.inr ⟨(), rfl, ?_⟩)
      exact ih (by omega) (by omega)

/-! ## What the folding keeps -/

/-- The loop goes on to the next index: the component is neither empty nor `.` nor `..`. -/
def Kept (tempPath : Nat → Byte) (p : Nat) : Prop :=
  tempPath p ≠ 0 ∧ ∃ fuel d d', kstrcmp fuel (shift p tempPath) (cString ".") = some d ∧ d ≠ 0 ∧
    kstrcmp fuel (shift p tempPath) (cString "..") = some d' ∧ d' ≠ 0

/-- What the two shifts and a step to the next index keep holds where the loop ends: behind the 15, or at a
`NULL`. -/
theorem foldParts_invariant (I : Nat → Parts → Prop)
    (hone : ∀ i parts, i < 15 → parts i ≠ none → I i parts → I i (dropOne i parts))
    (htwo : ∀ i parts, i + 1 < 15 → parts (i + 1) ≠ none → I (i + 1) parts → I i (dropTwo i parts))
    (hnext : ∀ i parts p, i < 15 → parts i = some p → Kept tempPath p → I i parts → I (i + 1) parts)
    (h : foldParts tempPath fuel i parts = some parts') (hI : I i parts) :
    ∃ i', I i' parts' ∧ (15 ≤ i' ∨ parts' i' = none) := by
  induction fuel generalizing i parts with
  | zero => cases h
  | succ fuel ih =>
    rw [foldParts] at h
    split at h
    · rename_i hi
      split at h
      · rename_i hnone
        cases h
        exact ⟨i, hI, .inr hnone⟩
      · rename_i p hp
        have hsome : parts i ≠ none := by rw [hp]; exact Option.some_ne_none p
        by_cases hempty : tempPath p = 0
        · simp only [if_pos hempty, Option.bind_eq_bind, Option.bind_some, if_true] at h
          exact ih h (hone i parts hi hsome hI)
        · simp only [if_neg hempty, Option.bind_eq_bind] at h
          obtain ⟨isDot, hdot, hrest⟩ := Option.bind_eq_some_iff.1 h
          by_cases hd : isDot = 0
          · rw [if_pos hd] at hrest
            exact ih hrest (hone i parts hi hsome hI)
          · rw [if_neg hd] at hrest
            obtain ⟨isDotDot, hdotDot, hlast⟩ := Option.bind_eq_some_iff.1 hrest
            by_cases hdd : isDotDot = 0
            · rw [if_pos hdd] at hlast
              cases i with
              | zero => exact ih hlast (hone 0 parts hi hsome hI)
              | succ k => exact ih hlast (htwo k parts hi hsome hI)
            · rw [if_neg hdd] at hlast
              exact ih hlast (hnext i parts p hi hp ⟨hempty, fuel, isDot, isDotDot, hdot, hd, hdotDot, hdd⟩ hI)
    · cases h
      exact ⟨i, hI, .inl (by omega)⟩

/-- A `NULL` among the 15 stays among them. -/
theorem foldParts_null (h : foldParts tempPath fuel i parts = some parts')
    (hnull : ∃ n, i ≤ n ∧ n ≤ 14 ∧ parts n = none) : ∃ n ≤ 14, parts' n = none := by
  obtain ⟨i', ⟨n, -, hn, hnull'⟩, -⟩ := foldParts_invariant (fun i parts => ∃ n, i ≤ n ∧ n ≤ 14 ∧ parts n = none)
    (fun i parts hi hsome ⟨n, hin, hn, hnull⟩ => by
      have hne : n ≠ i := by rintro rfl; exact hsome hnull
      refine ⟨n - 1, by omega, by omega, ?_⟩
      rw [dropOne, if_pos ⟨by omega, by omega⟩, Nat.sub_add_cancel (by omega)]
      exact hnull)
    (fun i parts hi hsome ⟨n, hin, hn, hnull⟩ => by
      have hne : n ≠ i + 1 := by rintro rfl; exact hsome hnull
      refine ⟨n - 2, by omega, by omega, ?_⟩
      rw [dropTwo, if_pos ⟨by omega, by omega⟩, Nat.sub_add_cancel (by omega)]
      exact hnull)
    (fun i parts p hi hp _ ⟨n, hin, hn, hnull⟩ => by
      have hne : n ≠ i := by
        rintro rfl
        rw [hp] at hnull
        cases hnull
      exact ⟨n, by omega, hn, hnull⟩) h hnull
  exact ⟨n, hn, hnull'⟩

theorem dropOne_full (h : ∀ j < 15, parts j ≠ none) : ∀ j < 15, dropOne i parts j ≠ none := by
  intro j hj
  rw [dropOne]
  split
  · exact h (j + 1) (by omega)
  · exact h j hj

theorem dropTwo_full (h : ∀ j < 15, parts j ≠ none) : ∀ j < 15, dropTwo i parts j ≠ none := by
  intro j hj
  rw [dropTwo]
  split
  · exact h (j + 2) (by omega)
  · exact h j hj

/-- With all 15 in use there is never a `NULL` again. -/
theorem foldParts_full (h : foldParts tempPath fuel i parts = some parts') (hfull : ∀ j < 15, parts j ≠ none) :
    ∀ j < 15, parts' j ≠ none := by
  obtain ⟨-, hfull', -⟩ := foldParts_invariant (fun _ parts => ∀ j < 15, parts j ≠ none)
    (fun _ _ _ _ hfull => dropOne_full hfull) (fun _ _ _ _ hfull => dropTwo_full hfull)
    (fun _ _ _ _ _ _ hfull => hfull) h hfull
  exact hfull'

/-- The loop never comes past a last component that it does not keep: the shifts leave `parts[14]` alone. -/
theorem foldParts_stuck {q : Nat} (hfull : ∀ j < 15, parts j ≠ none) (hlast : parts 14 = some q)
    (hq : ¬Kept tempPath q) (hi : i ≤ 14) : foldParts tempPath fuel i parts = none := by
  by_contra hne
  obtain ⟨parts', h⟩ := Option.ne_none_iff_exists'.1 hne
  obtain ⟨i', ⟨hi', hfull', -⟩, hend⟩ := foldParts_invariant
    (fun i parts => i ≤ 14 ∧ (∀ j < 15, parts j ≠ none) ∧ parts 14 = some q)
    (fun i parts _ _ ⟨hi, hfull, hlast⟩ => ⟨hi, dropOne_full hfull, by rw [dropOne, if_neg (by omega), hlast]⟩)
    (fun i parts _ _ ⟨hi, hfull, hlast⟩ =>
      ⟨by omega, dropTwo_full hfull, by rw [dropTwo, if_neg (by omega), hlast]⟩)
    (fun i parts p hi hp hkept ⟨_, hfull, hlast⟩ => by
      have hne : i ≠ 14 := by
        rintro rfl
        obtain rfl := Option.some.inj (hp.symm.trans hlast)
        exact hq hkept
      exact ⟨by omega, hfull, hlast⟩) h ⟨hi, hfull, hlast⟩
  rcases hend with hend | hend
  · omega
  · exact hfull' i' (by omega) hend

/-- Reading 15 pointers back never comes to an end. -/
theorem joinParts_full (hfull : ∀ j < 15, parts j ≠ none) {partPointer : Nat} :
    joinParts tempPath parts fuel partPointer i buffer = none := by
  induction fuel generalizing partPointer i buffer with
  | zero => rfl
  | succ fuel ih =>
    rw [joinParts]
    split
    · rename_i hlt
      split
      · exact absurd ‹_› (hfull partPointer hlt)
      · cases kstrlen fuel (shift ‹Nat› tempPath) with
        | none => rfl
        | some l => exact ih
    · rfl

/-! ## A path of 14 slashes -/

theorem Kept.not_special {p : Nat} (h : Kept tempPath p) (hspell : Spells (shift p tempPath) part) :
    ¬Special part := by
  obtain ⟨hchar, fuel, d, d', hd, hd0, hd', hd0'⟩ := h
  rintro (rfl | rfl | rfl)
  · exact hchar hspell.nul
  · exact hd0 ((hspell.kstrcmp_eq_zero spells_dot hd).2 rfl)
  · exact hd0' ((hspell.kstrcmp_eq_zero spells_dotDot hd').2 rfl)

/-- All 15 pointers in use: from `i` on first `todo`, and then `last` in all others, at least two. -/
structure Window (tempPath : Nat → Byte) (m : Nat) (parts : Parts) (i : Nat) (todo : List (List Byte))
    (last : List Byte) : Prop where
  full : ∀ j < 15, ∃ p part, parts j = some p ∧ Spells (shift p tempPath) part ∧ part.length ≤ m
  rest : ∀ j, i ≤ j → j < 15 → ∃ p, parts j = some p ∧ Spells (shift p tempPath) ((todo[j - i]?).getD last)
  room : i + todo.length ≤ 13

variable {last : List Byte} {todo : List (List Byte)}

theorem Window.dropOne (h : Window tempPath m parts i (part :: todo) last) :
    Window tempPath m (dropOne i parts) i todo last := by
  have hroom := h.room
  rw [List.length_cons] at hroom
  refine ⟨fun j hj => ?_, fun j hij hj => ?_, by omega⟩
  · rw [Sbuos.dropOne]
    split
    · exact h.full (j + 1) (by omega)
    · exact h.full j hj
  · rw [Sbuos.dropOne]
    by_cases h14 : j < 14
    · have hnext := h.rest (j + 1) (by omega) (by omega)
      rw [show j + 1 - i = j - i + 1 by omega, List.getElem?_cons_succ] at hnext
      rwa [if_pos ⟨hij, h14⟩]
    · -- the last pointer stays where it is
      have hlast := h.rest j hij hj
      rw [List.getElem?_eq_none (by rw [List.length_cons]; omega)] at hlast
      rwa [if_neg (by omega), List.getElem?_eq_none (by omega)]

theorem Window.dropTwo (h : Window tempPath m parts (i + 1) (part :: todo) last) :
    Window tempPath m (dropTwo i parts) i todo last := by
  have hroom := h.room
  rw [List.length_cons] at hroom
  refine ⟨fun j hj => ?_, fun j hij hj => ?_, by omega⟩
  · rw [Sbuos.dropTwo]
    split
    · exact h.full (j + 2) (by omega)
    · exact h.full j hj
  · rw [Sbuos.dropTwo]
    by_cases h13 : j < 13
    · have hnext := h.rest (j + 2) (by omega) (by omega)
      rw [show j + 2 - (i + 1) = j - i + 1 by omega, List.getElem?_cons_succ] at hnext
      rwa [if_pos ⟨hij, h13⟩]
    · have hlast := h.rest j (by omega) hj
      rw [List.getElem?_eq_none (by rw [List.length_cons]; omega)] at hlast
      rwa [if_neg (by omega), List.getElem?_eq_none (by omega)]

theorem Window.next (h : Window tempPath m parts i (part :: todo) last) :
    Window tempPath m parts (i + 1) todo last := by
  have hroom := h.room
  rw [List.length_cons] at hroom
  refine ⟨h.full, fun j hij hj => ?_, by omega⟩
  have hrest := h.rest j (by omega) hj
  rwa [show j - i = j - (i + 1) + 1 by omega, List.getElem?_cons_succ] at hrest

/-- Behind `todo` there is nothing to fold. -/
theorem Window.foldParts_last (hlast : ¬Special last) (hm : last.length ≤ m) (hm2 : 2 ≤ m) :
    ∀ (k i fuel : Nat), i + k = 15 → (∀ j, i ≤ j → j < 15 → ∃ p, parts j = some p ∧ Spells (shift p tempPath) last) →
      k + m < fuel → foldParts tempPath fuel i parts = some parts
  | 0, i, fuel, hk, _, hf => by
    obtain ⟨fuel, rfl⟩ : ∃ f, fuel = f + 1 := ⟨fuel - 1, by omega⟩
    rw [foldParts, if_neg (by omega)]
  | k + 1, i, fuel, hk, hrest, hf => by
    obtain ⟨fuel, rfl⟩ : ∃ f, fuel = f + 1 := ⟨fuel - 1, by omega⟩
    obtain ⟨p, hp, hspell⟩ := hrest i (Nat.le_refl i) (by omega)
    have hnext := Window.foldParts_last hlast hm hm2 k (i + 1) fuel (by omega)
      (fun j hij hj => hrest j (by omega) hj) (by omega)
    rw [foldParts_step (by omega) hp hspell (by omega) (by omega), if_neg fun h => hlast (h.imp_right .inl),
      if_neg fun h => hlast (.inr (.inr h))]
    exact hnext

/-- The folding of a full array ends, with the array full. -/
theorem Window.foldParts (hlast : ¬Special last) (hm : last.length ≤ m) (hm2 : 2 ≤ m) :
    ∀ (todo : List (List Byte)) (i fuel : Nat) (parts : Parts), Window tempPath m parts i todo last →
      (∀ part ∈ todo, part.length ≤ m) → todo.length + 15 + m < fuel →
      ∃ parts', foldParts tempPath fuel i parts = some parts' ∧
        ∀ j < 15, ∃ p part, parts' j = some p ∧ Spells (shift p tempPath) part ∧ part.length ≤ m
  | [], i, fuel, parts, h, _, hf => by
    have hroom := h.room
    rw [List.length_nil] at hroom hf
    refine ⟨parts, foldParts_last hlast hm hm2 (15 - i) i fuel (by omega) (fun j hij hj => ?_) (by omega), h.full⟩
    simpa using h.rest j hij hj
  | part :: todo, i, fuel, parts, h, htodo, hf => by
    obtain ⟨fuel, rfl⟩ : ∃ f, fuel = f + 1 := ⟨fuel - 1, by omega⟩
    rw [List.length_cons] at hf
    have hroom := h.room
    rw [List.length_cons] at hroom
    have hpm := htodo part List.mem_cons_self
    have htodo' := fun q hq => htodo q (List.mem_cons_of_mem part hq)
    have hone := Window.foldParts hlast hm hm2 todo i fuel _ h.dropOne htodo' (by omega)
    obtain ⟨p, hp, hspell⟩ := h.rest i (Nat.le_refl i) (by omega)
    rw [Nat.sub_self, List.getElem?_cons_zero, Option.getD_some] at hspell
    rw [foldParts_step (by omega) hp hspell (by omega) (by omega)]
    split
    · exact hone
    · split
      · split
        · rename_i h0
          subst h0
          exact hone
        · obtain ⟨k, rfl⟩ : ∃ k, i = k + 1 := ⟨i - 1, by omega⟩
          exact Window.foldParts hlast hm hm2 todo k fuel _ h.dropTwo htodo' (by omega)
      · exact Window.foldParts hlast hm hm2 todo (i + 1) fuel parts h.next htodo' (by omega)

end parts

/-! ## The components stay in `parts` -/

/-- Every index of `parts` that `cleanup_path` accesses is one of the 15, and if it returns no component is in the
result more often than in the path. -/
structure PartsSafe (buffer tempPath : Nat → Byte) (w : List Byte) : Prop where
  in_range : ∀ fuel j, .part j ∈ (cleanupPathLog fuel buffer tempPath 100).log → j < 15
  no_copies : ∀ buffer' tempPath',
    Returns (fun fuel => cleanupPath fuel buffer tempPath 100) (buffer', tempPath') →
    ∃ w', Spells buffer' w' ∧ ∀ part, (w'.splitOn slash).count part ≤ (w.splitOn slash).count part

section cleanup
variable {buffer tempPath : Nat → Byte} {w : List Byte} {size fuel j : Nat} {e : Access}

/-- What is accessed once the path is not just a slash. -/
theorem mem_cleanupPathLog {d : Int} (hd : kstrcmp fuel buffer (cString "/") = some d) (hd0 : d ≠ 0) :
    e ∈ (cleanupPathLog fuel buffer tempPath size).log ↔
      e ∈ (List.range 15).map .part ++ [.part 0] ∨
      e ∈ (splitPartsLog buffer size 0 1 (fun i => if i < size then buffer i else tempPath i)
        (Function.update (fun _ => none) 0 (some 0))).log ∨
      ∃ temp' parts, splitParts buffer size 0 1 (fun i => if i < size then buffer i else tempPath i)
          (Function.update (fun _ => none) 0 (some 0)) = some (temp', parts) ∧
        (e ∈ (foldPartsLog temp' fuel 0 parts).log ∨
          ∃ parts', foldParts temp' fuel 0 parts = some parts' ∧
            (e = .store 0 ∨ e ∈ (joinPartsLog temp' parts' fuel 0 1 (Function.update buffer 0 slash)).log ∨
              ∃ buffer' i, joinParts temp' parts' fuel 0 1 (Function.update buffer 0 slash) = some (buffer', i) ∧
                e = .store (i - 1))) := by
  simp only [cleanupPathLog, Logged.mem_log_bind, Logged.log_lift, List.not_mem_nil, false_or, Logged.result_lift,
    hd, Option.some.injEq, exists_eq_left', if_neg hd0, Logged.log_touch, Logged.result_touch, Logged.log_pure,
    splitPartsLog_result, foldPartsLog_result, joinPartsLog_result, Prod.exists, List.mem_singleton, and_false,
    exists_false, or_false, exists_const]
  simp

theorem kstrcmp_slash (h : Spells buffer w) (hroot : w ≠ [slash]) (hf : w.length < fuel) (hf1 : 1 < fuel) :
    ∃ d, kstrcmp fuel buffer (cString "/") = some d ∧ d ≠ 0 := by
  obtain ⟨d, hd, hd0⟩ := h.kstrcmp spells_slash hf (by simpa using hf1)
  exact ⟨d, hd, fun h0 => hroot (hd0.1 h0)⟩

/-- `splitParts` as `cleanup_path` calls it. -/
theorem splitPartsLog_cleanup (h : Spells buffer w) (hsize : w.length < size) (tempPath : Nat → Byte) :
    (splitPartsLog buffer size 0 1 (fun i => if i < size then buffer i else tempPath i)
      (Function.update (fun _ => none) 0 (some 0))).log = (List.range' 1 (min (w.count slash) 15)).map .part := by
  have h0 : Spells (shift 0 buffer) w := by rwa [shift_zero]
  exact splitPartsLog_log w size 0 1 _ _ h0 hsize (by decide)

/-- With at most 14 slashes only the last loop can leave `parts`, and only if the folding leaves no `NULL`. -/
theorem cleanupPathLog_in_range (h : Spells buffer w) (hsize : w.length < size) (hcount : w.count slash ≤ 14)
    (hnull : ∀ temp' parts, PartsAre temp' parts (w.splitOn slash) → ∀ fuel parts',
      foldParts temp' fuel 0 parts = some parts' → ∃ n ≤ 14, parts' n = none)
    (he : .part j ∈ (cleanupPathLog fuel buffer tempPath size).log) : j < 15 := by
  cases hd : kstrcmp fuel buffer (cString "/") with
  | none => simp [cleanupPathLog, hd] at he
  | some d =>
    by_cases hd0 : d = 0
    · simp [cleanupPathLog, hd, hd0] at he
    · rcases (mem_cleanupPathLog hd hd0).1 he with he | he | ⟨temp', parts, hsplit, he⟩
      · simp at he
        omega
      · rw [splitPartsLog_cleanup h hsize] at he
        obtain ⟨k, hk, hkj⟩ := List.mem_map.1 he
        cases hkj
        have := List.mem_range'_1.1 hk
        omega
      · obtain ⟨temp₁, parts₁, hsplit₁, hparts⟩ := splitParts_parts h hsize hcount tempPath
        obtain ⟨rfl, rfl⟩ := Prod.mk.inj (Option.some.inj (hsplit.symm.trans hsplit₁))
        rcases he with he | ⟨parts', hfold, he | he | ⟨-, i, -, he⟩⟩
        · obtain ⟨k, hk, hkj⟩ := foldPartsLog_mem he
          cases hkj
          exact hk
        · cases he
        · obtain ⟨n, hn, hnone⟩ := hnull temp' parts hparts fuel parts' hfold
          exact Nat.lt_succ_of_le ((joinPartsLog_part hnone (Nat.zero_le n) he).trans hn)
        · cases he

theorem splitOn_absolute {parts : List (List Byte)} (h : ∀ part ∈ parts, slash ∉ part) :
    (absolute parts).splitOn slash = [] :: parts := by
  by_cases hnil : parts = []
  · rw [hnil]
    rfl
  · rw [absolute_eq_intercalate hnil, splitOn_slash, List.splitOn_intercalate slash h hnil]

theorem normalParts_slash (w : List Byte) : (normalParts (slash :: w)).Sublist (w.splitOn slash) := by
  rw [normalParts, splitOn_slash, List.foldl_cons]
  exact foldl_pushPart_sublist (w.splitOn slash) []

theorem normalText_splitOn_sublist (w : List Byte) :
    ((normalText (slash :: w)).splitOn slash).Sublist ((slash :: w).splitOn slash) := by
  unfold normalText
  split
  · rename_i hroot
    rw [hroot]
  · rw [splitOn_absolute fun part hpart => slash_not_mem_of_mem_splitOn (mem_of_mem_normalParts hpart), splitOn_slash]
    exact (normalParts_slash w).cons_cons []

/-- All 15 pointers in use. -/
theorem PartsAre.full {temp' : Nat → Byte} {parts : Parts} {cs : List (List Byte)} (h : PartsAre temp' parts cs)
    {j : Nat} (hj : j < 15) {part : List Byte} (hpart : cs[j]? = some part) :
    ∃ p, parts j = some p ∧ Spells (shift p temp') part := by
  have hmatch := h j hj
  rw [hpart] at hmatch
  cases hp : parts j with
  | none => rw [hp] at hmatch; exact hmatch.elim
  | some p => rw [hp] at hmatch; exact ⟨p, rfl, hmatch⟩

/-- The loop that fills `parts` writes behind them. -/
theorem splitParts_none (rest : List Byte) : ∀ (turns i partPointer : Nat) (tempPath : Nat → Byte) (parts : Parts),
    Spells (shift i buffer) rest → rest.length < turns → partPointer ≤ 15 → 15 < partPointer + rest.count slash →
    splitParts buffer turns i partPointer tempPath parts = none := by
  induction rest with
  | nil =>
    intro turns i partPointer tempPath parts _ _ hle hcount
    rw [List.count_nil] at hcount
    omega
  | cons c rest ih =>
    intro turns i partPointer tempPath parts hb hturns hle hcount
    obtain ⟨turns, rfl⟩ : ∃ f, turns = f + 1 := ⟨turns - 1, by simp at hturns; omega⟩
    obtain ⟨hbc, hc0, hb'⟩ := spells_shift_cons hb
    rw [List.length_cons] at hturns
    rw [splitParts, if_neg (by rwa [hbc]), hbc]
    by_cases hs : c = slash
    · rw [hs, List.count_cons_self] at hcount
      rw [if_pos hs]
      split
      · exact ih turns (i + 1) (partPointer + 1) _ _ hb' (by omega) (by omega) (by omega)
      · rfl
    · rw [List.count_cons_of_ne hs] at hcount
      rw [if_neg hs]
      exact ih turns (i + 1) partPointer tempPath parts hb' (by omega) hle hcount

theorem PartsAre.ne_none {temp' : Nat → Byte} {parts : Parts} (h : PartsAre temp' parts (w.splitOn slash))
    (hcount : w.count slash = 14) : ∀ j < 15, parts j ≠ none := fun j hj => by
  have hlen := length_splitOn w
  obtain ⟨p, hp, -⟩ := h.full hj (List.getElem?_eq_getElem (by omega))
  rw [hp]
  exact Option.some_ne_none p

/-- With 14 slashes or more `cleanup_path` never returns. -/
theorem cleanupPath_none (h : Spells buffer w) (hsize : w.length < size) (hcount : 14 ≤ w.count slash) (fuel : Nat) :
    cleanupPath fuel buffer tempPath size = none := by
  have h0 : Spells (shift 0 buffer) w := by rwa [shift_zero]
  rw [cleanupPath]
  cases hd : kstrcmp fuel buffer (cString "/") with
  | none => rfl
  | some d =>
    have hroot : d ≠ 0 := by
      intro hd0
      rw [(h.kstrcmp_eq_zero spells_slash hd).1 hd0] at hcount
      exact absurd hcount (by decide)
    simp only [Option.bind_eq_bind, Option.bind_some, if_neg hroot]
    by_cases h15 : 15 ≤ w.count slash
    · rw [splitParts_none w size 0 1 _ _ h0 hsize (by decide) (by omega)]
      rfl
    · obtain ⟨temp', parts, hsplit, hparts⟩ := splitParts_parts h hsize (by omega) tempPath
      rw [hsplit]
      simp only [Option.bind_some]
      cases hfold : foldParts temp' fuel 0 parts with
      | none => rfl
      | some parts' =>
        simp only [Option.bind_some]
        rw [joinParts_full (foldParts_full hfold (hparts.ne_none (by omega)))]
        rfl

/-- With 14 slashes and a last component that is folded away, the folding never ends. -/
theorem foldParts_special {temp' : Nat → Byte} {parts : Parts} {part : List Byte}
    (hparts : PartsAre temp' parts (w.splitOn slash)) (hcount : w.count slash = 14)
    (hlast : (w.splitOn slash).getLast? = some part) (hspecial : Special part) (fuel : Nat) :
    foldParts temp' fuel 0 parts = none := by
  rw [List.getLast?_eq_getElem?, length_splitOn w, hcount] at hlast
  obtain ⟨q, hq, hspell⟩ := hparts.full (by decide) hlast
  exact foldParts_stuck (hparts.ne_none hcount) hq (fun hkept => hkept.not_special hspell hspecial) (by decide)

/-- The first component of an absolute path is empty, and its shift leaves two pointers to the last one. -/
theorem PartsAre.window {temp' : Nat → Byte} {parts : Parts} {mids : List (List Byte)} {part : List Byte} {m : Nat}
    (h : PartsAre temp' parts ([] :: (mids ++ [part]))) (hlen : mids.length = 13)
    (hm : ∀ q ∈ [] :: (mids ++ [part]), q.length ≤ m) : Window temp' m (dropOne 0 parts) 0 mids part := by
  have hslot : ∀ j < 15, ∃ p q, parts j = some p ∧ Spells (shift p temp') q ∧ q.length ≤ m ∧
      ([] :: (mids ++ [part]))[j]? = some q := fun j hj => by
    obtain ⟨q, hq⟩ : ∃ q, ([] :: (mids ++ [part]))[j]? = some q :=
      ⟨_, List.getElem?_eq_getElem (by simp; omega)⟩
    obtain ⟨p, hp, hspell⟩ := h.full hj hq
    exact ⟨p, q, hp, hspell, hm q (List.mem_of_getElem? hq), hq⟩
  have hfull : ∀ j < 15, ∃ p q, parts j = some p ∧ Spells (shift p temp') q ∧ q.length ≤ m := fun j hj => by
    obtain ⟨p, q, hp, hspell, hqm, -⟩ := hslot j hj
    exact ⟨p, q, hp, hspell, hqm⟩
  refine ⟨fun j hj => ?_, fun j _ hj => ?_, by omega⟩
  · rw [dropOne]
    split
    · exact hfull (j + 1) (by omega)
    · exact hfull j hj
  · rw [dropOne, Nat.sub_zero]
    by_cases h14 : j < 14
    · obtain ⟨p, q, hp, hspell, -, hq⟩ := hslot (j + 1) (by omega)
      rw [List.getElem?_cons_succ] at hq
      rw [if_pos ⟨Nat.zero_le _, h14⟩]
      refine ⟨p, hp, ?_⟩
      by_cases h13 : j < mids.length
      · rw [List.getElem?_append_left h13] at hq
        rwa [hq]
      · obtain rfl : j = mids.length := by omega
        rw [List.getElem?_append_right (Nat.le_refl _), Nat.sub_self] at hq
        rwa [List.getElem?_eq_none (Nat.le_refl _), Option.getD_none, Option.some.inj hq]
    · obtain rfl : j = mids.length + 1 := by omega
      obtain ⟨p, q, hp, hspell, -, hq⟩ := hslot (mids.length + 1) hj
      rw [List.getElem?_cons_succ, List.getElem?_append_right (Nat.le_refl _), Nat.sub_self] at hq
      rw [if_neg (by omega), List.getElem?_eq_none (by omega), Option.getD_none, Option.some.inj hq]
      exact ⟨p, hp, hspell⟩

/-- With 14 slashes and a last component that stays, the folding leaves all 15 pointers in use. -/
theorem foldParts_plain {temp' : Nat → Byte} {parts : Parts} {part : List Byte} {m : Nat}
    (hparts : PartsAre temp' parts ((slash :: w).splitOn slash)) (hcount : (slash :: w).count slash = 14)
    (hlast : ((slash :: w).splitOn slash).getLast? = some part) (hplain : ¬Special part)
    (hm : ∀ q ∈ (slash :: w).splitOn slash, q.length ≤ m) (hm2 : 2 ≤ m) (hf : 30 + m < fuel) :
    ∃ parts', foldParts temp' fuel 0 parts = some parts' ∧
      ∀ j < 15, ∃ p part, parts' j = some p ∧ Spells (shift p temp') part ∧ part.length ≤ m := by
  have hlen := length_splitOn (slash :: w)
  obtain ⟨mids, hmids⟩ : ∃ mids, (slash :: w).splitOn slash = [] :: (mids ++ [part]) := by
    rw [splitOn_slash] at hlast ⊢
    obtain ⟨front, hfront⟩ := List.getLast?_eq_some_iff.1 hlast
    cases front with
    | nil => exact absurd (.inl (List.cons.inj hfront).1.symm) hplain
    | cons c mids =>
      obtain ⟨rfl, -⟩ := List.cons.inj hfront
      exact ⟨mids, hfront⟩
  rw [hmids] at hparts hm hlen
  simp only [List.length_cons, List.length_append, List.length_nil] at hlen
  obtain ⟨fuel, rfl⟩ : ∃ f, fuel = f + 1 := ⟨fuel - 1, by omega⟩
  obtain ⟨p, hp, hspell⟩ := hparts.full (j := 0) (by decide) List.getElem?_cons_zero
  rw [foldParts_step (by decide) hp hspell (by simp; omega) (by omega), if_pos (.inl rfl)]
  refine Window.foldParts hplain (hm part (by simp)) hm2 mids 0 fuel _ (hparts.window (by omega) hm)
    (fun q hq => hm q ?_) (by omega)
  exact List.mem_cons_of_mem _ (List.mem_append_left _ hq)

/-- Where the folding leaves all 15 pointers in use, the last loop reads behind them. -/
theorem part_of_full {temp' : Nat → Byte} {parts parts' : Parts} {m : Nat} {d : Int}
    (hd : kstrcmp fuel buffer (cString "/") = some d) (hd0 : d ≠ 0)
    (hsplit : splitParts buffer size 0 1 (fun i => if i < size then buffer i else tempPath i)
      (Function.update (fun _ => none) 0 (some 0)) = some (temp', parts))
    (hfold : foldParts temp' fuel 0 parts = some parts')
    (hfull : ∀ j < 15, ∃ p part, parts' j = some p ∧ Spells (shift p temp') part ∧ part.length ≤ m)
    (hf : 15 + m < fuel) : .part 15 ∈ (cleanupPathLog fuel buffer tempPath size).log :=
  (mem_cleanupPathLog hd hd0).2 (.inr (.inr ⟨temp', parts, hsplit, .inr ⟨parts', hfold,
    .inr (.inl (joinPartsLog_behind hfull (Nat.zero_le _) (by omega)))⟩⟩))

/-- With 14 slashes and a last component that stays, or with more, an access is behind the 15. -/
theorem exists_part_15 (h : Spells buffer (slash :: w)) (hlen : (slash :: w).length < 100)
    (hcount : 14 ≤ (slash :: w).count slash)
    (hlast : (slash :: w).count slash = 14 →
      ∀ part, ((slash :: w).splitOn slash).getLast? = some part → ¬Special part) (tempPath : Nat → Byte) :
    ∃ fuel, .part 15 ∈ (cleanupPathLog fuel buffer tempPath 100).log := by
  have hroot : slash :: w ≠ [slash] := by
    intro he
    rw [he] at hcount
    exact absurd hcount (by decide)
  have hcmp : ∃ d, kstrcmp ((slash :: w).length + 40) buffer (cString "/") = some d ∧ d ≠ 0 :=
    kstrcmp_slash h hroot (by omega) (by omega)
  obtain ⟨d, hd, hd0⟩ := hcmp
  refine ⟨(slash :: w).length + 40, ?_⟩
  by_cases h15 : 15 ≤ (slash :: w).count slash
  · refine (mem_cleanupPathLog hd hd0).2 (.inr (.inl ?_))
    rw [splitPartsLog_cleanup h hlen]
    exact List.mem_map_of_mem (List.mem_range'_1.2 ⟨by decide, by omega⟩)
  · have h14 : (slash :: w).count slash = 14 := by omega
    obtain ⟨temp', parts, hsplit, hparts⟩ := splitParts_parts h hlen (by omega) tempPath
    obtain ⟨part, hpart⟩ : ∃ part, ((slash :: w).splitOn slash).getLast? = some part :=
      ⟨_, List.getLast?_eq_getLast_of_ne_nil (List.splitOn_ne_nil slash (slash :: w))⟩
    have hf : 30 + ((slash :: w).length + 2) < (slash :: w).length + 40 := by omega
    obtain ⟨parts', hfold, hfull⟩ := foldParts_plain hparts h14 hpart (hlast h14 part hpart)
      (fun q hq => Nat.le_add_right_of_le (length_le_of_mem_splitOn hq)) (by omega) hf
    exact part_of_full hd hd0 hsplit hfold hfull (by omega)

/-- At most 13 slashes leave a `NULL` among the 15. -/
theorem partsSafe_of_few (h : Spells buffer w) (hlen : w.length < 100) (hcount : w.count slash ≤ 13)
    (hsub : ((normalText w).splitOn slash).Sublist (w.splitOn slash)) : PartsSafe buffer tempPath w where
  in_range fuel j he := by
    refine cleanupPathLog_in_range h hlen (by omega) (fun temp' parts hparts fuel parts' hfold => ?_) he
    have hto := hparts.partsTo (by rw [length_splitOn]; omega)
    exact foldParts_null hfold ⟨_, Nat.zero_le _, hto.length_le, hto.apply_nil⟩
  no_copies buffer' temp' hret := by
    obtain ⟨temp₁, hclean⟩ := cleanupPath_spec h hlen hcount tempPath
    obtain ⟨rfl, -⟩ := Prod.mk.inj (hret.unique (.of_le _ hclean))
    exact ⟨normalText w, spells_overwrite (normalText_ne_zero h.ne_zero), fun part => hsub.count_le part⟩

/-- With 14 slashes and a last component that is folded away, the call stays in the loop that folds. -/
theorem partsSafe_of_special {part : List Byte} (h : Spells buffer w) (hlen : w.length < 100)
    (hcount : w.count slash = 14) (hlast : (w.splitOn slash).getLast? = some part) (hspecial : Special part) :
    PartsSafe buffer tempPath w where
  in_range fuel j he := by
    refine cleanupPathLog_in_range h hlen (by omega) (fun temp' parts hparts fuel parts' hfold => ?_) he
    rw [foldParts_special hparts hcount hlast hspecial] at hfold
    cases hfold
  no_copies buffer' temp' hret := by
    obtain ⟨n, hn⟩ := hret
    have hsome : cleanupPath n buffer tempPath 100 = some (buffer', temp') := hn n (Nat.le_refl n)
    rw [cleanupPath_none h hlen (by omega)] at hsome
    cases hsome

/-- **The components stay in `parts`** of an absolute path exactly where it has at most 13 slashes, or has 14 and
a last component that is folded away. It returns only with at most 13. -/
theorem cleanup_path_in_parts (h : Spells buffer (slash :: w)) (hlen : (slash :: w).length < 100) :
    (PartsSafe buffer tempPath (slash :: w) ↔ (slash :: w).count slash ≤ 13 ∨
      (slash :: w).count slash = 14 ∧ ∃ part, ((slash :: w).splitOn slash).getLast? = some part ∧ Special part) ∧
    ((∃ r, Returns (fun fuel => cleanupPath fuel buffer tempPath 100) r) ↔ (slash :: w).count slash ≤ 13) := by
  refine ⟨⟨fun hsafe => ?_, ?_⟩, ⟨fun ⟨r, n, hn⟩ => ?_, fun hcount => ?_⟩⟩
  · by_contra hnot
    rw [not_or] at hnot
    obtain ⟨fuel, he⟩ := exists_part_15 h hlen (by omega)
      (fun h14 part hpart hspecial => hnot.2 ⟨h14, part, hpart, hspecial⟩) tempPath
    exact absurd (hsafe.in_range fuel 15 he) (by decide)
  · rintro (hcount | ⟨hcount, part, hlast, hspecial⟩)
    · exact partsSafe_of_few h hlen hcount (normalText_splitOn_sublist w)
    · exact partsSafe_of_special h hlen hcount hlast hspecial
  · by_contra hmany
    have hsome : cleanupPath n buffer tempPath 100 = some r := hn n (Nat.le_refl n)
    rw [cleanupPath_none h hlen (by omega)] at hsome
    cases hsome
  · obtain ⟨temp', hclean⟩ := cleanupPath_spec h hlen hcount tempPath
    exact ⟨_, .of_le _ hclean⟩

/-- `/a/../b`. -/
theorem cleanup_path_in_parts_up :
    PartsSafe (cString "/a/../b") (fun _ => 0) [slash, 0x61, slash, dot, dot, slash, 0x62] := by
  have hspell : Spells (cString "/a/../b") [slash, 0x61, slash, dot, dot, slash, 0x62] := spells_cString rfl (by decide)
  exact (cleanup_path_in_parts hspell (by decide)).1.2 (.inl (by decide))

/-- Fourteen directories deep. -/
theorem cleanup_path_behind_parts : ¬∀ (buffer tempPath : Nat → Byte) (w : List Byte), Spells buffer (slash :: w) →
    (slash :: w).length < 100 → PartsSafe buffer tempPath (slash :: w) := by
  intro hall
  have hspell : Spells (cString "/a/b/c/d/e/f/g/h/i/j/k/l/m/n") [slash, 0x61, slash, 0x62, slash, 0x63, slash, 0x64,
      slash, 0x65, slash, 0x66, slash, 0x67, slash, 0x68, slash, 0x69, slash, 0x6a, slash, 0x6b, slash, 0x6c, slash,
      0x6d, slash, 0x6e] := spells_cString rfl (by decide)
  have hsafe := hall _ (fun _ => 0) _ hspell (by decide)
  have hplain : ∀ part, some [0x6e] = some part → ¬Special part := by
    rintro part ⟨⟩
    decide
  obtain ⟨fuel, he⟩ := exists_part_15 hspell (by decide) (by decide) (fun _ => hplain) fun _ => 0
  exact absurd (hsafe.in_range fuel 15 he) (by decide)

end cleanup

end Sbuos
