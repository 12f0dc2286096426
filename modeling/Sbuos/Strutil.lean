import Sbuos.Path
import Sbuos.UserHeap
/-!
# The shell's strings (bin/sbush/strutil.c)

The shell has string functions of its own, which look at `MAX_STR_LEN` characters at most. Here the
source and the target are places in one memory, `Nat → Byte`; `shift a mem` is the string at `a`.

`strcpy` copies the NUL of an empty string and goes on behind it, and copies no other: what it stores is
`Spells.strcpy` for a string with characters, `strcpy_empty` for one without.
-/
namespace Sbuos

/-- `MAX_STR_LEN` (strutil.h:4). -/
def maxStrLen : Nat := 2040

/-- What a `char *` to copy from points to, given the memory at that moment. -/
abbrev Source := (Nat → Byte) → Nat → Byte

/-- The loop of `strcpy`, with the turns it has left. -/
def strcpyFrom (s : Source) (t : Nat) : Nat → Nat → (Nat → Byte) → (Nat → Byte) × Nat
  | 0, l, mem => (mem, l)
  | turns + 1, l, mem =>
    let mem := Function.update mem (t + l) (s mem l)
    if s mem (l + 1) = 0 then (mem, l + 1) else strcpyFrom s t turns (l + 1) mem

/-- `strcpy` (strutil.c:6-18): the memory it leaves, and the return value. -/
def strcpy (s : Source) (t : Nat) (mem : Nat → Byte) : (Nat → Byte) × Nat := strcpyFrom s t maxStrLen 0 mem

/-- The loop of `strlen` and `strsearch`. -/
def firstIndex (s : Nat → Byte) (c : Byte) (l : Nat) : Int :=
  match (List.range l).find? fun i => s i == c with
  | some i => i
  | none => -1

/-- `strlen` (strutil.c:40-44). -/
def strlen (s : Nat → Byte) : Int := firstIndex s 0 maxStrLen

/-- `strsearch` (strutil.c:33-38). -/
def strsearch (s : Nat → Byte) (c : Byte) : Int := firstIndex s c (strlen s).toNat

/-- `strcomp` (strutil.c:54-63). -/
def strcomp (str1 str2 : Nat → Byte) : Int :=
  let l1 := strlen str1
  let l2 := strlen str2
  if l1 - l2 ≠ 0 then l1 - l2
  else
    match (List.range l1.toNat).find? fun i => str1 i != str2 i with
    | some i => charDiff (str1 i) (str2 i)
    | none => 0

/-- `strcpy_fr_to` (strutil.c:21-27). -/
def strcpyFrTo (s t start : Nat) (stop : Int) (mem : Nat → Byte) : (Nat → Byte) × Int :=
  let l := stop - start
  let mem := (List.range l.toNat).foldl (fun mem i => Function.update mem (t + i) (mem (s + (i + start)))) mem
  (Function.update mem (t + l).toNat 0, l)

/-- The heap of the process that runs: `malloc` hands out what lies at the break. -/
structure Heap where
  brk : Nat
  mem : Nat → Byte

def Heap.malloc (size : Nat) (h : Heap) : Nat × Heap := (h.brk, { h with brk := h.brk + size })

/-- `str_split_line` (strutil.c:155-164). -/
def strSplitLine (line pos : Nat) (h : Heap) : (Nat × Nat) × Heap :=
  let (firstHalf, h) := h.malloc (pos + 1)
  let h := { h with mem := (strcpyFrTo line firstHalf 0 pos h.mem).1 }
  let l := strlen (shift line h.mem)
  let (secondHalf, h) := h.malloc (l - pos).toNat
  let h := { h with mem := (strcpyFrTo line secondHalf (pos + 1) l h.mem).1 }
  ((firstHalf, secondHalf), h)

/-- The library's `malloc` hands out the break, as long as the heap has room. -/
theorem Heap.malloc_eq {proc : Pcb} (hlive : Live proc) {size : Nat} (h : Heap)
    (hbrk : proc.userBrkPoint.toNat = h.brk) (hsize : size < 2 ^ 31) (hroom : h.brk + size < heapTop.toNat) :
    (Sbuos.malloc (BitVec.ofNat 64 size) proc).1.toNat = (h.malloc size).1 ∧
      (Sbuos.malloc (BitVec.ofNat 64 size) proc).2.userBrkPoint.toNat = (h.malloc size).2.brk := by
  have hnat : (BitVec.ofNat 64 size).toNat = size := by
    rw [BitVec.toNat_ofNat, Nat.mod_eq_of_lt (by omega)]
  have hmoved := toNat_moved_of_small (hnat.symm ▸ hsize) hlive.lt_top
  rw [hnat, hbrk] at hmoved
  have hne : moved (BitVec.ofNat 64 size) proc.userBrkPoint ≠ 0 := by
    intro h0
    have hpos : proc.userBrkPoint.toNat ≠ 0 := fun hz => hlive.ne_zero (BitVec.eq_of_toNat_eq hz)
    rw [h0] at hmoved
    have : h.brk = 0 := by
      have : (0 : Word).toNat = 0 := rfl
      omega
    omega
  have hlt : ¬moved (BitVec.ofNat 64 size) proc.userBrkPoint ≥ heapTop := by
    intro hge
    have := BitVec.le_def.1 hge
    omega
  rw [Sbuos.malloc_eq hlive, if_neg (not_or.2 ⟨hne, hlt⟩)]
  exact ⟨hbrk, hmoved⟩

section copies
variable {s t turns l n a i j : Nat} {mem : Nat → Byte} {u w : List Byte}

/-! ## Copying -/

/-- The loop stores `u` when the source reads `u` and the loop stops behind it. What the loop has stored is
at `t` and above, so the source up to there still reads as it did. -/
theorem strcpyFrom_eq (hu : u ≠ []) (hturns : u.length ≤ turns) (hsep : s + u.length < t)
    (hread : ∀ j (h : j < u.length), mem (s + (l + j)) = u[j]) (hgo : ∀ j (h : j < u.length), 0 < j → u[j] ≠ 0)
    (hstop : u.length = turns ∨ mem (s + (l + u.length)) = 0) :
    strcpyFrom (shift s) t turns l mem = (overwrite (t + l) u mem, l + u.length) := by
  induction u generalizing turns l mem with
  | nil => exact absurd rfl hu
  | cons c u ih =>
    obtain ⟨turns, rfl⟩ : ∃ k, turns = k + 1 := ⟨turns - 1, by simp at hturns; omega⟩
    rw [List.length_cons] at hturns hsep hstop
    have hc : shift s mem l = c := hread 0 (Nat.zero_lt_succ _)
    -- a byte the source still has to read lies below those the loop stores
    have hkeep : ∀ j, j ≤ u.length → Function.update mem (t + l) c (s + (l + (1 + j))) = mem (s + (l + (1 + j))) :=
      fun j hj => Function.update_of_ne (by omega) _ _
    rw [strcpyFrom]
    rw [hc, shift, hkeep 0 (Nat.zero_le _)]
    cases u with
    | nil =>
      rw [overwrite_singleton]
      split
      · rfl
      · rename_i hne
        have hlast : turns = 0 := by
          have := hstop.resolve_right hne
          simp at this
          exact this
        rw [hlast]
        rfl
    | cons c' u =>
      rw [List.length_cons] at *
      have hc' : mem (s + (l + (1 + 0))) = c' := hread 1 (by simp)
      have hne : c' ≠ 0 := hgo 1 (by simp) Nat.one_pos
      have hrest := @ih turns (l + 1) (Function.update mem (t + l) c) (List.cons_ne_nil _ _) (by simp; omega)
        (by simp; omega) (fun j hj => ?_) (fun j hj _ => hgo (j + 1) (by simpa using hj) (Nat.succ_pos j)) ?_
      · rw [if_neg (hc' ▸ hne), hrest, ← Nat.add_assoc, overwrite_update, List.length_cons]
        congr 1
        omega
      · rw [Nat.add_assoc, hkeep j (Nat.le_of_lt hj), Nat.add_comm 1 j]
        exact hread (j + 1) (Nat.succ_lt_succ hj)
      · rw [List.length_cons, Nat.add_assoc, hkeep (u.length + 1) (by omega)]
        refine hstop.imp (fun h => by omega) fun h => ?_
        rwa [Nat.add_comm 1]

/-- A string with characters is stored without its NUL. -/
theorem Spells.strcpy (h : Spells (shift s mem) w) (hw : w ≠ []) (hlen : w.length ≤ maxStrLen)
    (hsep : s + w.length < t) : strcpy (shift s) t mem = (overwrite t w mem, w.length) := by
  have hcopy := strcpyFrom_eq (l := 0) hw hlen hsep (fun j hj => ?_) (fun j hj _ => h.ne_zero _ (List.getElem_mem hj))
    (.inr (by rw [Nat.zero_add]; exact h.nul))
  · rw [Nat.add_zero, Nat.zero_add] at hcopy
    exact hcopy
  · rw [Nat.zero_add]
    exact h.chars j hj

/-- The bytes from `a` on up to the first NUL, and `n` at the most. -/
def bytesFrom (mem : Nat → Byte) : Nat → Nat → List Byte
  | 0, _ => []
  | n + 1, a => if mem a = 0 then [] else mem a :: bytesFrom mem n (a + 1)

theorem length_bytesFrom_le (mem : Nat → Byte) (n a : Nat) : (bytesFrom mem n a).length ≤ n := by
  induction n generalizing a with
  | zero => exact Nat.le_refl 0
  | succ n ih =>
    rw [bytesFrom]
    split
    · exact Nat.zero_le _
    · exact Nat.succ_le_succ (ih (a + 1))

theorem bytesFrom_spec (mem : Nat → Byte) (n a : Nat) :
    (∀ j (h : j < (bytesFrom mem n a).length), mem (a + j) = (bytesFrom mem n a)[j]) ∧
      (∀ c ∈ bytesFrom mem n a, c ≠ 0) ∧
      ((bytesFrom mem n a).length = n ∨ mem (a + (bytesFrom mem n a).length) = 0) := by
  induction n generalizing a with
  | zero => exact ⟨fun j hj => absurd hj (Nat.not_lt_zero j), fun c hc => absurd hc List.not_mem_nil, .inl rfl⟩
  | succ n ih =>
    obtain ⟨hchars, hne, hend⟩ := ih (a + 1)
    by_cases ha : mem a = 0
    · rw [bytesFrom, if_pos ha]
      exact ⟨fun j hj => absurd hj (Nat.not_lt_zero j), fun c hc => absurd hc List.not_mem_nil, .inr ha⟩
    · rw [bytesFrom, if_neg ha]
      refine ⟨fun j hj => ?_, fun c hc => ?_, ?_⟩
      · cases j with
        | zero => rfl
        | succ j =>
          rw [List.getElem_cons_succ, ← hchars j (Nat.lt_of_succ_lt_succ hj)]
          congr 1
          omega
      · rcases List.mem_cons.1 hc with rfl | hc
        · exact ha
        · exact hne c hc
      · rw [List.length_cons]
        refine hend.imp (congrArg (· + 1)) fun h => ?_
        rwa [show a + ((bytesFrom mem n (a + 1)).length + 1) = a + 1 + (bytesFrom mem n (a + 1)).length by omega]

/-- What `strcpy` stores for an empty string at `s`: the NUL, and the bytes behind it up to the next NUL. The
copy of the first NUL, at `t`, is one. -/
def emptyCopy (mem : Nat → Byte) (s t : Nat) : List Byte :=
  0 :: bytesFrom mem (min (maxStrLen - 1) (t - (s + 1))) (s + 1)

theorem strcpy_empty (h : mem s = 0) (hsep : s < t) :
    (strcpy (shift s) t mem).1 = overwrite t (emptyCopy mem s t) mem := by
  obtain ⟨hchars, hne, hend⟩ := bytesFrom_spec mem (min (maxStrLen - 1) (t - (s + 1))) (s + 1)
  have hle := length_bytesFrom_le mem (min (maxStrLen - 1) (t - (s + 1))) (s + 1)
  rw [emptyCopy, ← overwrite_update]
  generalize bytesFrom mem (min (maxStrLen - 1) (t - (s + 1))) (s + 1) = u at *
  have hstep : strcpy (shift s) t mem = if Function.update mem t 0 (s + 1) = 0 then (Function.update mem t 0, 1)
      else strcpyFrom (shift s) t (maxStrLen - 1) 1 (Function.update mem t 0) := by
    have hread : shift s mem 0 = 0 := h
    rw [strcpy, maxStrLen, strcpyFrom, hread]
    rfl
  have hbelow : ∀ a, a < t → Function.update mem t 0 a = mem a := fun a ha => Function.update_of_ne (by omega) _ _
  -- the copying stops behind `u`: at a NUL, at the limit, or at the NUL stored at `t`
  have hstop : u.length = maxStrLen - 1 ∨ Function.update mem t 0 (s + (1 + u.length)) = 0 := by
    rcases hend with hend | hend
    · by_cases hlim : u.length = maxStrLen - 1
      · exact .inl hlim
      · right
        rw [show s + (1 + u.length) = t by omega]
        exact Function.update_self _ _ _
    · right
      by_cases hat : s + (1 + u.length) = t
      · rw [hat]
        exact Function.update_self _ _ _
      · rw [hbelow _ (by omega), ← Nat.add_assoc]
        exact hend
  rw [hstep]
  by_cases hu : u = []
  · subst hu
    have hnul : Function.update mem t 0 (s + 1) = 0 := hstop.resolve_left (by decide)
    rw [if_pos hnul, overwrite_nil]
  · have hpos := List.length_pos_iff.2 hu
    have hfirst : Function.update mem t 0 (s + 1) = u[0] := by
      rw [hbelow _ (by omega)]
      exact hchars 0 hpos
    rw [if_neg (by rw [hfirst]; exact hne _ (List.getElem_mem _)), strcpyFrom_eq hu (by omega) (by omega)
      (fun j hj => ?_) (fun j hj _ => hne _ (List.getElem_mem hj)) hstop]
    rw [hbelow _ (by omega), ← Nat.add_assoc]
    exact hchars j hj

/-- `strcpy_fr_to` stores the part of the source and a NUL. -/
theorem strcpyFrTo_eq {start : Nat} (hread : ∀ j (h : j < w.length), mem (s + (j + start)) = w[j])
    (hsep : s + start + w.length ≤ t) :
    strcpyFrTo s t start (start + w.length : Nat) mem = (overwrite t (w ++ [0]) mem, (w.length : Int)) := by
  have hloop : ∀ n ≤ w.length, (List.range n).foldl
      (fun mem i => Function.update mem (t + i) (mem (s + (i + start)))) mem = overwrite t (w.take n) mem := by
    intro n
    induction n with
    | zero => intro _; rw [List.take_zero, overwrite_nil]; rfl
    | succ n ih =>
      intro hn
      have hlen : (w.take n).length = n := by rw [List.length_take]; omega
      rw [List.range_succ, List.foldl_append, ih (by omega), List.foldl_cons, List.foldl_nil,
        overwrite_of_lt (by omega), hread n (by omega), ← overwrite_singleton]
      have happ : overwrite (t + (w.take n).length) [w[n]] (overwrite t (w.take n) mem) = _ := overwrite_overwrite
      rwa [hlen, ← List.take_succ_eq_append_getElem] at happ
  have hl : ((start + w.length : Nat) : Int) - start = w.length := by omega
  have hend : ((t : Int) + w.length).toNat = t + w.length := by omega
  rw [strcpyFrTo, hl, Int.toNat_natCast, hend, hloop w.length (Nat.le_refl _), List.take_length, ← overwrite_singleton,
    overwrite_overwrite]

/-! ## Searching and comparing -/

theorem firstIndex_eq {f : Nat → Byte} {c : Byte} (h : f i = c) (hbefore : ∀ j < i, f j ≠ c) (hi : i < l) :
    firstIndex f c l = i := by
  have hfind : (List.range l).find? (fun i => f i == c) = some i :=
    List.find?_range_eq_some.2 ⟨by simpa using h, List.mem_range.2 hi, fun j hj => by simpa using hbefore j hj⟩
  rw [firstIndex, hfind]

theorem firstIndex_none {f : Nat → Byte} {c : Byte} (h : ∀ j < l, f j ≠ c) : firstIndex f c l = -1 := by
  have hfind : (List.range l).find? (fun i => f i == c) = none :=
    List.find?_range_eq_none.2 fun j hj => by simpa using h j hj
  rw [firstIndex, hfind]

variable {f g : Nat → Byte} {v x : List Byte} {c : Byte}

theorem Spells.strlen (h : Spells f w) (hlen : w.length < maxStrLen) : strlen f = w.length :=
  firstIndex_eq h.nul (fun _ hj => h.apply_ne_zero hj) hlen

theorem Spells.strsearch_none (h : Spells f w) (hlen : w.length < maxStrLen) (hc : c ∉ w) : strsearch f c = -1 := by
  rw [strsearch, h.strlen hlen, Int.toNat_natCast]
  refine firstIndex_none fun j hj he => hc ?_
  rw [← he, h.chars j hj]
  exact List.getElem_mem hj

theorem Spells.strsearch (h : Spells f (w ++ c :: x)) (hlen : (w ++ c :: x).length < maxStrLen) (hc : c ∉ w) :
    strsearch f c = w.length := by
  have hwl : w.length < (w ++ c :: x).length := by simp
  rw [Sbuos.strsearch, h.strlen hlen, Int.toNat_natCast]
  refine firstIndex_eq ?_ (fun j hj he => hc ?_) hwl
  · rw [h.chars _ hwl]
    simp
  · rw [← he, h.chars j (by omega), List.getElem_append_left hj]
    exact List.getElem_mem hj

/-- `strcomp` answers 0 for equal strings and for no others. -/
theorem Spells.strcomp_eq_zero (hf : Spells f w) (hg : Spells g v) (hw : w.length < maxStrLen)
    (hv : v.length < maxStrLen) : strcomp f g = 0 ↔ w = v := by
  rw [strcomp, hf.strlen hw, hg.strlen hv]
  by_cases hlen : w.length = v.length
  · rw [if_neg (by omega), Int.toNat_natCast]
    cases hfind : (List.range w.length).find? (fun i => f i != g i) with
    | some i =>
      obtain ⟨hne, hi, -⟩ := List.find?_range_eq_some.1 hfind
      have hi := List.mem_range.1 hi
      refine iff_of_false (charDiff_ne_zero (by simpa using hne)) ?_
      rintro rfl
      exact absurd ((hf.chars i hi).trans (hg.chars i hi).symm) (by simpa using hne)
    | none =>
      refine iff_of_true rfl (List.ext_getElem hlen fun i hi hi' => ?_)
      rw [← hf.chars i hi, ← hg.chars i hi']
      simpa using List.find?_range_eq_none.1 hfind i hi
  · rw [if_pos (by omega)]
    exact iff_of_false (by omega) fun he => hlen (congrArg List.length he)

/-! ## Splitting a line -/

theorem Spells.congr (h : Spells f w) (hsame : ∀ i ≤ w.length, g i = f i) : Spells g w where
  chars i hi := by rw [hsame i (Nat.le_of_lt hi), h.chars i hi]
  ne_zero := h.ne_zero
  nul := by rw [hsame _ (Nat.le_refl _), h.nul]

theorem spells_stored (hw : ∀ c ∈ w, c ≠ 0) : Spells (shift t (overwrite t (w ++ [0]) mem)) w where
  chars i hi := by
    rw [shift, overwrite_add (by simp; omega), List.getElem_append_left hi]
  ne_zero := hw
  nul := by
    rw [shift, overwrite_add (by simp)]
    simp

/-- Both halves of a line go to new blocks. -/
theorem strSplitLine_eq {line : Nat} {h : Heap} (hl : Spells (shift line h.mem) (w ++ c :: x))
    (hlen : (w ++ c :: x).length < maxStrLen) (hbelow : line + (w ++ c :: x).length < h.brk) :
    strSplitLine line w.length h = ((h.brk, h.brk + (w.length + 1)),
      ⟨h.brk + (w.length + 1) + (x.length + 1),
        overwrite (h.brk + (w.length + 1)) (x ++ [0]) (overwrite h.brk (w ++ [0]) h.mem)⟩) := by
  have htotal : (w ++ c :: x).length = w.length + 1 + x.length := by simp; omega
  have hfirst : strcpyFrTo line h.brk 0 w.length h.mem = (overwrite h.brk (w ++ [0]) h.mem, (w.length : Int)) := by
    have : strcpyFrTo line h.brk 0 (0 + w.length : Nat) h.mem = _ := strcpyFrTo_eq (fun j hj => ?_) (by omega)
    · rwa [Nat.zero_add] at this
    · rw [Nat.add_zero]
      refine (hl.chars j (by omega)).trans ?_
      rw [List.getElem_append_left hj]
  have hline : Spells (shift line (overwrite h.brk (w ++ [0]) h.mem)) (w ++ c :: x) :=
    hl.congr fun i hi => overwrite_of_lt (by omega)
  have hsecond : strcpyFrTo line (h.brk + (w.length + 1)) (w.length + 1) (w.length + 1 + x.length : Nat)
      (overwrite h.brk (w ++ [0]) h.mem) = _ := strcpyFrTo_eq (w := x) (fun j hj => ?_) (by omega)
  · have hsize : (((w ++ c :: x).length : Int) - w.length).toNat = x.length + 1 := by omega
    simp only [strSplitLine, Heap.malloc, hfirst, hline.strlen hlen, hsize]
    rw [htotal, hsecond]
  · rw [Nat.add_comm j]
    refine (hline.chars (w.length + 1 + j) (by omega)).trans ?_
    rw [List.getElem_append_right (by omega)]
    simp [Nat.add_assoc, Nat.add_comm 1]

end copies

end Sbuos
