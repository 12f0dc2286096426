import Sbuos.Numerals
import Sbuos.Lib.Run
/-!
# Splitting a string (bin/sbush/strutil.c:20-26, 67-89)

`strsplit` counts the delimiters to size its array, then cuts a piece at every delimiter and at the NUL: from
behind the last cut, which is -1 at first, to here. Every store is kept with the block it is meant for, because
one that went past the end of a block would land in the next.

**`strsplit_lossless`**: the pieces are those of the string, each in a block of its own.
-/
namespace Sbuos
open Lib

/-- A block that `malloc` handed out. -/
structure Chunk where
  addr : Nat
  size : Nat
deriving DecidableEq

/-- The heap, and the stores so far, each with its block. -/
structure Split where
  heap : Heap
  log : List (Chunk × Nat)

def Split.malloc (size : Nat) (x : Split) : Chunk × Split :=
  let (addr, heap) := x.heap.malloc size
  (⟨addr, size⟩, { x with heap := heap })

/-- Stores that are meant for the block `b`. -/
def Split.within (b : Chunk) (f : Stores → Stores) (x : Split) : Split :=
  let s := f ⟨x.heap.mem, []⟩
  ⟨{ x.heap with mem := s.mem }, x.log ++ s.log.map fun a => (b, a)⟩

/-- `strcpy_fr_to` (strutil.c:20-26), with its stores. -/
def strcpyFrToLog (s t start : Nat) (stop : Int) (st : Stores) : Stores :=
  let l := stop - start
  let st := (List.range l.toNat).foldl (fun st i => st.put (t + i) (st.mem (s + (i + start)))) st
  st.put (t + l).toNat 0

/-- The bytes of a pointer, in the order they have in memory. -/
def ptrBytes (v : Nat) : List Byte := (List.range 8).map fun j => BitVec.ofNat 8 (v / 256 ^ j)

/-- A pointer is stored at `a`. -/
def putPtr (a v : Nat) (st : Stores) : Stores :=
  (List.range 8).foldl (fun st j => st.put (a + j) (BitVec.ofNat 8 (v / 256 ^ j))) st

/-- The second loop of `strsplit` at `i`, after a cut at `l` (strutil.c:78-86). -/
def splitFrom (str : Nat) (delim : Byte) (res : Chunk) : Nat → Nat → Int → Nat → Split → Option (Nat × Split)
  | 0, _, _, _, _ => none
  | fuel + 1, i, l, delimC, x =>
    if (i : Int) ≤ strlen (shift str x.heap.mem) then
      if x.heap.mem (str + i) = delim ∨ x.heap.mem (str + i) = 0 then
        let (arg, x) := x.malloc (i - l + 1).toNat
        let x := x.within arg (strcpyFrToLog str arg.addr (l + 1).toNat i)
        let x := x.within res (putPtr (res.addr + 8 * delimC) arg.addr)
        splitFrom str delim res fuel (i + 1) i (delimC + 1) x
      else splitFrom str delim res fuel (i + 1) l delimC x
    else some (delimC, x)

/-- The first loop (strutil.c:69-72). -/
def countDelims (str : Nat) (delim : Byte) (mem : Nat → Byte) : Nat :=
  (List.range (strlen (shift str mem)).toNat).countP fun i => mem (str + i) == delim

/-- `strsplit` (strutil.c:67-89): the array, and the heap with the stores made. -/
def strsplit (fuel str : Nat) (delim : Byte) (h : Heap) : Option (Nat × Split) := do
  let (res, x) := Split.malloc (8 * (2 + countDelims str delim h.mem)) ⟨h, []⟩
  let (delimC, x) ← splitFrom str delim res fuel 0 (-1) 0 x
  some (res.addr, x.within res (putPtr (res.addr + 8 * delimC) 0))

/-! ## What comes back -/

/-- The pointer at `a`. -/
def ptrRead (mem : Nat → Byte) (a : Nat) : Nat := Nat.ofDigits 256 ((List.range 8).map fun j => (mem (a + j)).toNat)

/-- At `a` stands an array of pointers to these strings, with a `NULL` behind. -/
structure StringArray (mem : Nat → Byte) (a : Nat) (args : List Nat) (ps : List (List Byte)) : Prop where
  ptrs : ∀ k (h : k < args.length), ptrRead mem (a + 8 * k) = args[k]
  ne_null : ∀ arg ∈ args, arg ≠ 0
  null : ptrRead mem (a + 8 * args.length) = 0
  strings : List.Forall₂ (fun arg p => Spells (shift arg mem) p) args ps

/-- The blocks of the pieces, the first one at `b`: one byte more than the piece and its NUL take. -/
def pieceChunks : Nat → List (List Byte) → List Chunk
  | _, [] => []
  | b, p :: ps => ⟨b, p.length + 2⟩ :: pieceChunks (b + (p.length + 2)) ps

/-- The end of the last of them. -/
def chunksEnd : Nat → List (List Byte) → Nat
  | b, [] => b
  | b, p :: ps => chunksEnd (b + (p.length + 2)) ps

/-- A store inside its block, and the block one of these. -/
def StoreIn (blocks : List Chunk) (e : Chunk × Nat) : Prop :=
  e.1 ∈ blocks ∧ e.1.addr ≤ e.2 ∧ e.2 < e.1.addr + e.1.size

/-- What `strsplit` takes from the heap: the array, and the blocks of the pieces. -/
def splitRoom (delim : Byte) (w : List Byte) : Nat := 8 * (2 + w.count delim) + (w.length + w.count delim + 2)

/-- The pieces of a string. -/
structure PiecesOf (delim : Byte) (w : List Byte) (ps : List (List Byte)) : Prop where
  length : ps.length = w.count delim + 1
  not_mem : ∀ p ∈ ps, delim ∉ p
  join : [delim].intercalate ps = w

section
variable {s t str start i n k : Nat} {delim c : Byte} {st : Stores} {mem : Nat → Byte} {w u v cur : List Byte}
  {x y : Split} {b res : Chunk} {ps : List (List Byte)}

/-! ## The stores -/

theorem strcpyFrToLog_mem (stop : Int) (st : Stores) :
    (strcpyFrToLog s t start stop st).mem = (strcpyFrTo s t start stop st.mem).1 := by
  have hloop : ∀ n, ((List.range n).foldl (fun st i => st.put (t + i) (st.mem (s + (i + start)))) st).mem =
      (List.range n).foldl (fun mem i => Function.update mem (t + i) (mem (s + (i + start)))) st.mem := by
    intro n
    induction n with
    | zero => rfl
    | succ n ih => rw [List.range_succ, List.foldl_append, List.foldl_append, List.foldl_cons, List.foldl_cons,
        List.foldl_nil, List.foldl_nil, Stores.put, ih]
  rw [strcpyFrToLog, Stores.put, hloop]
  rfl

/-- The piece and its NUL are stored, when the string lies apart from where they go. -/
theorem wrote_strcpyFrTo (hread : ∀ j (h : j < w.length), st.mem (s + (j + start)) = w[j])
    (hapart : s + start + w.length ≤ t ∨ t + w.length < s + start) :
    st.Wrote (strcpyFrToLog s t start (start + w.length : Nat) st) t (w ++ [0]) := by
  have hloop : ∀ n ≤ w.length, st.Wrote
      ((List.range n).foldl (fun st i => st.put (t + i) (st.mem (s + (i + start)))) st) t (w.take n) := by
    intro n
    induction n with
    | zero => exact fun _ => .refl _ _
    | succ n ih =>
      intro hn
      have hprev := ih (Nat.le_of_succ_le hn)
      have hlen : (w.take n).length = n := by rw [List.length_take]; omega
      rw [List.range_succ, List.foldl_append, List.foldl_cons, List.foldl_nil, List.take_succ_eq_append_getElem hn]
      have hchar : ((List.range n).foldl (fun st i => st.put (t + i) (st.mem (s + (i + start)))) st).mem
          (s + (n + start)) = w[n] := by
        rw [hprev.mem, ← hread n hn]
        rcases hapart with h | h
        · exact overwrite_of_lt (by omega)
        · exact overwrite_of_le (by omega)
      rw [hchar]
      refine hprev.trans ?_
      rw [hlen]
      exact Stores.wrote_put _ _ _
  have hl : ((start + w.length : Nat) : Int) - start = w.length := by omega
  have hend : ((t : Int) + w.length).toNat = t + w.length := by omega
  have hall := hloop w.length (Nat.le_refl _)
  rw [List.take_length] at hall
  rw [strcpyFrToLog, hl, Int.toNat_natCast, hend]
  exact hall.trans (Stores.wrote_put _ _ _)

theorem wrote_putPtr (a v : Nat) (st : Stores) : st.Wrote (putPtr a v st) a (ptrBytes v) := by
  have hloop : ∀ n, st.Wrote ((List.range n).foldl (fun st j => st.put (a + j) (BitVec.ofNat 8 (v / 256 ^ j))) st) a
      ((List.range n).map fun j => BitVec.ofNat 8 (v / 256 ^ j)) := by
    intro n
    induction n with
    | zero => exact .refl _ _
    | succ n ih =>
      rw [List.range_succ, List.foldl_append, List.foldl_cons, List.foldl_nil, List.map_append]
      refine ih.trans ?_
      rw [List.length_map, List.length_range]
      exact Stores.wrote_put _ _ _
  exact hloop 8

/-- A pointer reads back. -/
theorem ptrRead_eq {a v : Nat} (h : ∀ j < 8, mem (a + j) = BitVec.ofNat 8 (v / 256 ^ j)) (hv : v < 2 ^ 64) :
    ptrRead mem a = v := by
  have hdigits : (List.range 8).map (fun j => (mem (a + j)).toNat) = (List.range 8).map fun j => v / 256 ^ j % 256 := by
    refine List.map_congr_left fun j hj => ?_
    rw [h j (List.mem_range.1 hj), BitVec.toNat_ofNat]
  rw [ptrRead, hdigits, ofDigits_range]
  exact Nat.mod_eq_of_lt hv

/-! ## One cut -/

theorem le_chunksEnd (b : Nat) (ps : List (List Byte)) : b ≤ chunksEnd b ps := by
  induction ps generalizing b with
  | nil => exact Nat.le_refl _
  | cons p ps ih => exact Nat.le_trans (Nat.le_add_right _ _) (ih _)

theorem pieceChunks_addr (b : Nat) (ps : List (List Byte)) : ∀ c ∈ pieceChunks b ps, b ≤ c.addr := by
  induction ps generalizing b with
  | nil => intro c hc; cases hc
  | cons p ps ih =>
    intro c hc
    rcases List.mem_cons.1 hc with rfl | hc
    · exact Nat.le_refl _
    · exact Nat.le_trans (Nat.le_add_right _ _) (ih _ c hc)

/-- From `x` to `y` these pieces were cut off, the pointers to them from the `k`th entry of the array on. -/
structure Cut (res : Chunk) (k : Nat) (ps : List (List Byte)) (x y : Split) : Prop where
  brk : y.heap.brk = chunksEnd x.heap.brk ps
  frame : ∀ a, (a < x.heap.brk ∨ y.heap.brk ≤ a) → (a < res.addr + 8 * k ∨ res.addr + 8 * (k + ps.length) ≤ a) →
    y.heap.mem a = x.heap.mem a
  ptrs : ∀ j (h : j < (pieceChunks x.heap.brk ps).length),
    ptrRead y.heap.mem (res.addr + 8 * (k + j)) = ((pieceChunks x.heap.brk ps)[j]).addr
  strings : List.Forall₂ (fun b p => Spells (shift b.addr y.heap.mem) p) (pieceChunks x.heap.brk ps) ps
  log : ∀ e ∈ y.log, e ∈ x.log ∨ StoreIn (res :: pieceChunks x.heap.brk ps) e

theorem length_pieceChunks (b : Nat) (ps : List (List Byte)) : (pieceChunks b ps).length = ps.length := by
  induction ps generalizing b with
  | nil => rfl
  | cons p ps ih => rw [pieceChunks, List.length_cons, List.length_cons, ih]

theorem ptrRead_congr {mem' : Nat → Byte} {a : Nat} (h : ∀ j < 8, mem' (a + j) = mem (a + j)) :
    ptrRead mem' a = ptrRead mem a := by
  rw [ptrRead, ptrRead, List.map_congr_left fun j hj => by rw [h j (List.mem_range.1 hj)]]

theorem Cut.cons {z : Split} {p : List Byte} (h : Cut res k [p] x y) (h' : Cut res (k + 1) ps y z)
    (hres : res.addr + 8 * (k + 1 + ps.length) ≤ x.heap.brk) : Cut res k (p :: ps) x z := by
  have hbrk : y.heap.brk = x.heap.brk + (p.length + 2) := h.brk
  have hend := le_chunksEnd y.heap.brk ps
  rw [← h'.brk] at hend
  have hchunks : pieceChunks x.heap.brk (p :: ps) = ⟨x.heap.brk, p.length + 2⟩ :: pieceChunks y.heap.brk ps := by
    rw [hbrk]
    rfl
  refine ⟨by rw [h'.brk, hbrk]; rfl, fun a ha hr => ?_, fun j hj => ?_, ?_, fun e he => ?_⟩
  · rw [List.length_cons] at hr
    rw [h'.frame a (by omega) (by omega), h.frame a (by omega) (by rw [List.length_singleton]; omega)]
  · rw [length_pieceChunks, List.length_cons] at hj
    simp only [hchunks]
    cases j with
    | zero =>
      have hptr := h.ptrs 0 Nat.one_pos
      refine (ptrRead_congr fun i hi => h'.frame _ (.inl (by omega)) (.inl (by omega))).trans hptr
    | succ j =>
      have hptr := h'.ptrs j (by rw [length_pieceChunks]; omega)
      rwa [show k + 1 + j = k + (j + 1) by omega] at hptr
  · rw [hchunks]
    refine .cons ?_ h'.strings
    obtain ⟨hp, -⟩ := List.forall₂_cons.1 h.strings
    refine hp.congr fun i hi => h'.frame _ (.inl (by dsimp only; omega)) (.inr (by dsimp only; omega))
  · rw [hchunks]
    rcases h'.log e he with he | ⟨hb, hin⟩
    · rcases h.log e he with he | ⟨hb, hin⟩
      · exact .inl he
      · refine .inr ⟨?_, hin⟩
        rcases List.mem_cons.1 hb with hb | hb
        · exact hb ▸ List.mem_cons_self
        · rw [List.mem_singleton.1 hb]
          exact List.mem_cons_of_mem _ List.mem_cons_self
    · refine .inr ⟨?_, hin⟩
      rcases List.mem_cons.1 hb with hb | hb
      · exact hb ▸ List.mem_cons_self
      · exact List.mem_cons_of_mem _ (List.mem_cons_of_mem _ hb)

/-- The stores of a cut (strutil.c:80-84). -/
def cutAt (str start stop : Nat) (res : Chunk) (k : Nat) (x : Split) : Split :=
  let (arg, x) := x.malloc (stop - start + 2)
  let x := x.within arg (strcpyFrToLog str arg.addr start stop)
  x.within res (putPtr (res.addr + 8 * k) arg.addr)

theorem within_wrote {f : Stores → Stores} {a : Nat} (h : Stores.Wrote ⟨x.heap.mem, []⟩ (f ⟨x.heap.mem, []⟩) a u)
    (b : Chunk) : (x.within b f).heap = ⟨x.heap.brk, overwrite a u x.heap.mem⟩ ∧
      ∀ e ∈ (x.within b f).log, e ∈ x.log ∨ e.1 = b ∧ a ≤ e.2 ∧ e.2 < a + u.length := by
  refine ⟨by rw [Split.within, h.mem], fun e he => ?_⟩
  rcases List.mem_append.1 he with he | he
  · exact .inl he
  · obtain ⟨i, hi, rfl⟩ := List.mem_map.1 he
    rcases (h.log i).1 hi with hi | hi
    · exact absurd hi List.not_mem_nil
    · exact .inr ⟨rfl, hi⟩

@[simp] theorem length_ptrBytes (v : Nat) : (ptrBytes v).length = 8 := rfl

theorem ptrRead_overwrite {a v : Nat} (hv : v < 2 ^ 64) : ptrRead (overwrite a (ptrBytes v) mem) a = v := by
  refine ptrRead_eq (fun j hj => ?_) hv
  rw [overwrite_add (by rw [length_ptrBytes]; exact hj)]
  simp [ptrBytes]

/-- A cut stores the piece in a new block and a pointer to it in the array. -/
theorem cut_cutAt (hread : ∀ j (h : j < cur.length), x.heap.mem (str + (j + start)) = cur[j])
    (hcur : ∀ c ∈ cur, c ≠ 0) (hstr : str + start + cur.length ≤ x.heap.brk ∨ x.heap.brk + cur.length < str + start)
    (hres : res.addr + res.size ≤ x.heap.brk) (hk : 8 * (k + 1) ≤ res.size) (htop : x.heap.brk < 2 ^ 64) :
    Cut res k [cur] x (cutAt str start (start + cur.length) res k x) := by
  have hcut : cutAt str start (start + cur.length) res k x =
      (((x.malloc (cur.length + 2)).2).within ⟨x.heap.brk, cur.length + 2⟩
        (strcpyFrToLog str x.heap.brk start (start + cur.length : Nat))).within res
        (putPtr (res.addr + 8 * k) x.heap.brk) := by
    rw [cutAt, Nat.add_sub_cancel_left]
    rfl
  have hwrote : Stores.Wrote ⟨x.heap.mem, []⟩ (strcpyFrToLog str x.heap.brk start (start + cur.length : Nat)
      ⟨x.heap.mem, []⟩) x.heap.brk (cur ++ [0]) := wrote_strcpyFrTo hread hstr
  obtain ⟨hheap, hlog⟩ := within_wrote (x := (x.malloc (cur.length + 2)).2) hwrote ⟨x.heap.brk, cur.length + 2⟩
  generalize ((x.malloc (cur.length + 2)).2).within ⟨x.heap.brk, cur.length + 2⟩
    (strcpyFrToLog str x.heap.brk start (start + cur.length : Nat)) = z at hcut hheap hlog
  obtain ⟨hheap', hlog'⟩ := within_wrote (x := z) (wrote_putPtr (res.addr + 8 * k) x.heap.brk ⟨z.heap.mem, []⟩) res
  rw [hheap] at hheap'
  have hbrk : (cutAt str start (start + cur.length) res k x).heap.brk = x.heap.brk + (cur.length + 2) := by
    rw [hcut, hheap']
    rfl
  have hmem : (cutAt str start (start + cur.length) res k x).heap.mem =
      overwrite (res.addr + 8 * k) (ptrBytes x.heap.brk) (overwrite x.heap.brk (cur ++ [0]) x.heap.mem) := by
    rw [hcut, hheap']
    rfl
  refine ⟨hbrk, fun a ha hr => ?_, fun j hj => ?_, .cons ?_ .nil, fun e he => ?_⟩
  · rw [List.length_singleton] at hr
    have hout : overwrite x.heap.brk (cur ++ [0]) x.heap.mem a = x.heap.mem a := by
      rcases ha with ha | ha
      · exact overwrite_of_lt ha
      · exact overwrite_of_le (by rw [List.length_append, List.length_singleton]; omega)
    rw [hmem, ← hout]
    rcases hr with hr | hr
    · exact overwrite_of_lt hr
    · exact overwrite_of_le (by rw [length_ptrBytes]; omega)
  · obtain rfl : j = 0 := Nat.lt_one_iff.1 hj
    rw [hmem, Nat.add_zero]
    exact ptrRead_overwrite htop
  · rw [hmem]
    refine (spells_stored hcur).congr fun i hi => overwrite_of_le ?_
    rw [length_ptrBytes]
    dsimp only
    omega
  · rw [hcut] at he
    rcases hlog' e he with he | ⟨hb, hin⟩
    · rcases hlog e he with he | ⟨hb, hin⟩
      · exact .inl he
      · rw [List.length_append, List.length_singleton] at hin
        refine .inr ⟨hb ▸ List.mem_cons_of_mem _ List.mem_cons_self, ?_⟩
        rw [hb]
        dsimp only
        omega
    · rw [length_ptrBytes] at hin
      refine .inr ⟨hb ▸ List.mem_cons_self, ?_⟩
      rw [hb]
      omega

/-! ## The loop -/

theorem splitFrom_cut {fuel stop : Nat} (hstart : start ≤ stop) (hlen : (stop : Int) ≤ strlen (shift str x.heap.mem))
    (hc : x.heap.mem (str + stop) = delim ∨ x.heap.mem (str + stop) = 0) :
    splitFrom str delim res (fuel + 1) stop (start - 1) k x =
      splitFrom str delim res fuel (stop + 1) stop (k + 1) (cutAt str start stop res k x) := by
  have hsize : ((stop : Int) - (start - 1) + 1).toNat = stop - start + 2 := by omega
  have hfrom : ((start : Int) - 1 + 1).toNat = start := by omega
  rw [splitFrom, if_pos hlen, if_pos hc, hsize, hfrom]
  rfl

theorem splitFrom_skip {fuel : Nat} {l : Int} (hlen : (i : Int) ≤ strlen (shift str x.heap.mem))
    (hc : ¬(x.heap.mem (str + i) = delim ∨ x.heap.mem (str + i) = 0)) :
    splitFrom str delim res (fuel + 1) i l k x = splitFrom str delim res fuel (i + 1) l k x := by
  rw [splitFrom, if_pos hlen, if_neg hc]

theorem splitFrom_end {fuel : Nat} {l : Int} (hlen : ¬(i : Int) ≤ strlen (shift str x.heap.mem)) :
    splitFrom str delim res (fuel + 1) i l k x = some (k, x) := by
  rw [splitFrom, if_neg hlen]

/-- A string that lies apart from the array and the new blocks is still there after a cut. -/
theorem Cut.spells {ps : List (List Byte)} (h : Cut res k ps x y) (hstr : Spells (shift str x.heap.mem) w)
    (hres : res.addr + 8 * (k + ps.length) ≤ x.heap.brk) (hapart : str + w.length < res.addr ∨ y.heap.brk ≤ str) :
    Spells (shift str y.heap.mem) w := by
  have hle : x.heap.brk ≤ y.heap.brk := h.brk ▸ le_chunksEnd _ _
  refine hstr.congr fun i hi => h.frame _ ?_ ?_
  · omega
  · omega

/-- A part of the string is where it belongs, and has no NUL. -/
theorem Spells.middle {mem : Nat → Byte} {u cur v : List Byte} (h : Spells (shift str mem) w)
    (hw : w = u ++ (cur ++ v)) :
    (∀ j (hj : j < cur.length), mem (str + (j + u.length)) = cur[j]) ∧ ∀ c ∈ cur, c ≠ 0 := by
  subst hw
  refine ⟨fun j hj => ?_, fun c hc => h.ne_zero c (List.mem_append_right _ (List.mem_append_left _ hc))⟩
  refine (h.chars (j + u.length) (by simp; omega)).trans ?_
  rw [List.getElem_append_right (by omega), List.getElem_append_left (by omega)]
  simp

/-- **The second loop** from `u.length + cur.length` on, with `cur` read since the last cut and `v` left. -/
theorem splitFrom_spec (v cur u : List Byte) (k : Nat) (x : Split)
    (hw : w = u ++ (cur ++ v)) (hstr : Spells (shift str x.heap.mem) w) (hlen : w.length < maxStrLen)
    (hres : res.addr + res.size ≤ x.heap.brk)
    (hk : 8 * (k + (v.splitOnPPrepend (· == delim) cur.reverse).length + 1) ≤ res.size)
    (hapart : str + w.length < res.addr ∨
      chunksEnd x.heap.brk (v.splitOnPPrepend (· == delim) cur.reverse) ≤ str)
    (htop : chunksEnd x.heap.brk (v.splitOnPPrepend (· == delim) cur.reverse) < 2 ^ 64) :
    ∃ y, Cut res k (v.splitOnPPrepend (· == delim) cur.reverse) x y ∧ ∀ fuel, v.length + 2 ≤ fuel →
      splitFrom str delim res fuel (u.length + cur.length) (u.length - 1) k x =
        some (k + (v.splitOnPPrepend (· == delim) cur.reverse).length, y) := by
  induction v generalizing cur u k x with
  | nil =>
    rw [List.splitOnPPrepend_nil, List.reverse_reverse] at *
    have hstrlen := hstr.strlen hlen
    have hwl : w.length = u.length + (cur.length + 0) := by rw [hw, List.length_append, List.length_append]; rfl
    obtain ⟨hread, hcur⟩ := hstr.middle hw
    have hend : chunksEnd x.heap.brk [cur] = x.heap.brk + (cur.length + 2) := rfl
    rw [List.length_singleton] at hk
    have hcut : Cut res k [cur] x (cutAt str u.length (u.length + cur.length) res k x) :=
      cut_cutAt hread hcur (by omega) hres (by omega) (by omega)
    have hnul : x.heap.mem (str + (u.length + cur.length)) = 0 := by
      have := hstr.nul
      rwa [hwl] at this
    have hstr' := hcut.spells hstr (by rw [List.length_singleton]; omega) (by rw [hcut.brk]; omega)
    refine ⟨_, hcut, fun fuel hfuel => ?_⟩
    obtain ⟨fuel, rfl⟩ : ∃ f, fuel = f + 2 := ⟨fuel - 2, by rw [List.length_nil] at hfuel; omega⟩
    rw [splitFrom_cut (by omega) (by omega) (.inr hnul),
      splitFrom_end (by rw [hstr'.strlen hlen]; omega)]
    rfl
  | cons c v ih =>
    have hstrlen := hstr.strlen hlen
    have hwl : w.length = u.length + (cur.length + (v.length + 1)) := by
      rw [hw, List.length_append, List.length_append, List.length_cons]
    obtain ⟨hread, hcur⟩ := hstr.middle hw
    have hc : x.heap.mem (str + (u.length + cur.length)) = c := by
      refine (hstr.chars _ (by omega)).trans ?_
      simp only [hw]
      rw [List.getElem_append_right (by omega), List.getElem_append_right (by omega)]
      simp
    by_cases hd : c = delim
    · have hsplit : (c :: v).splitOnPPrepend (· == delim) cur.reverse =
          cur :: v.splitOnPPrepend (· == delim) [].reverse := by
        rw [List.splitOnPPrepend_cons_pos (by simpa using hd), List.reverse_reverse]
        rfl
      rw [hsplit] at hk hapart htop ⊢
      have hend : chunksEnd x.heap.brk (cur :: v.splitOnPPrepend (· == delim) [].reverse) =
        chunksEnd (x.heap.brk + (cur.length + 2)) (v.splitOnPPrepend (· == delim) [].reverse) := rfl
      have hle := le_chunksEnd (x.heap.brk + (cur.length + 2)) (v.splitOnPPrepend (· == delim) [].reverse)
      rw [List.length_cons] at hk
      have hcut : Cut res k [cur] x (cutAt str u.length (u.length + cur.length) res k x) :=
        cut_cutAt hread hcur (by omega) hres (by omega) (by omega)
      have hbrk : (cutAt str u.length (u.length + cur.length) res k x).heap.brk = x.heap.brk + (cur.length + 2) :=
        hcut.brk
      have hstr' := hcut.spells hstr (by rw [List.length_singleton]; omega) (by omega)
      obtain ⟨z, hz, hrun⟩ := ih [] (u ++ cur ++ [c]) (k + 1) _ (by rw [hw]; simp) hstr' (by rw [hbrk]; omega)
        (by omega) (by rw [hbrk]; omega) (by rw [hbrk]; omega)
      refine ⟨z, hcut.cons hz (by omega), fun fuel hfuel => ?_⟩
      obtain ⟨fuel, rfl⟩ : ∃ f, fuel = f + 1 := ⟨fuel - 1, by omega⟩
      have hlast : ((u ++ cur ++ [c]).length : Int) - 1 = (u.length + cur.length : Nat) := by simp; omega
      have hnext : (u ++ cur ++ [c]).length + ([] : List Byte).length = u.length + cur.length + 1 := by simp; omega
      have hgo := hrun fuel (by rw [List.length_cons] at hfuel; omega)
      rw [hlast, hnext] at hgo
      rw [splitFrom_cut (by omega) (by omega) (.inl (hc.trans hd)), hgo, List.length_cons,
        Nat.add_assoc, Nat.add_comm 1]
    · have hsplit : (c :: v).splitOnPPrepend (· == delim) cur.reverse =
          v.splitOnPPrepend (· == delim) (cur ++ [c]).reverse := by
        rw [List.splitOnPPrepend_cons_neg (by simpa using hd), List.reverse_append]
        rfl
      rw [hsplit] at hk hapart htop ⊢
      have hc0 : c ≠ 0 := hstr.ne_zero c (by rw [hw]; simp)
      obtain ⟨z, hz, hrun⟩ := ih (cur ++ [c]) u k x (by rw [hw]; simp) hstr hres hk hapart htop
      refine ⟨z, hz, fun fuel hfuel => ?_⟩
      obtain ⟨fuel, rfl⟩ : ∃ f, fuel = f + 1 := ⟨fuel - 1, by omega⟩
      have hgo := hrun fuel (by rw [List.length_cons] at hfuel; omega)
      rw [List.length_append, List.length_singleton, ← Nat.add_assoc] at hgo
      rw [splitFrom_skip (by omega) (by rw [hc]; exact not_or.2 ⟨hd, hc0⟩), hgo]

/-! ## The pieces -/

theorem piecesOf_splitOn (delim : Byte) (w : List Byte) : PiecesOf delim w (w.splitOn delim) where
  length := by
    rw [List.splitOn]
    induction w with
    | nil => rfl
    | cons c w ih =>
      rw [List.splitOnP_cons_eq_if_modifyHead, List.count_cons]
      split
      · rw [List.length_cons, ih]
      · rw [List.length_modifyHead, ih]
  not_mem := by
    rw [List.splitOn]
    induction w with
    | nil => simp
    | cons c w ih =>
      rw [List.splitOnP_cons_eq_if_modifyHead]
      split
      · exact List.forall_mem_cons.2 ⟨List.not_mem_nil, ih⟩
      · rename_i hc
        obtain ⟨q, qs, hq⟩ := List.exists_cons_of_ne_nil (List.splitOnP_ne_nil (· == delim) w)
        rw [hq] at ih ⊢
        obtain ⟨hhead, htail⟩ := List.forall_mem_cons.1 ih
        refine List.forall_mem_cons.2 ⟨fun hmem => ?_, htail⟩
        rcases List.mem_cons.1 hmem with rfl | hmem
        · exact hc (beq_self_eq_true _)
        · exact hhead hmem
  join := List.intercalate_splitOn delim

theorem chunksEnd_eq (b : Nat) (ps : List (List Byte)) :
    chunksEnd b ps = b + ((ps.map List.length).sum + 2 * ps.length) := by
  induction ps generalizing b with
  | nil => rfl
  | cons p ps ih =>
    rw [chunksEnd, ih, List.map_cons, List.sum_cons, List.length_cons]
    omega

theorem sum_length_splitOn (delim : Byte) (w : List Byte) :
    ((w.splitOn delim).map List.length).sum + w.count delim = w.length := by
  rw [List.splitOn]
  induction w with
  | nil => rfl
  | cons c w ih =>
    rw [List.splitOnP_cons_eq_if_modifyHead, List.count_cons, List.length_cons, ← ih]
    split
    · rw [List.map_cons, List.sum_cons, List.length_nil]
      omega
    · obtain ⟨q, qs, hq⟩ := List.exists_cons_of_ne_nil (List.splitOnP_ne_nil (· == delim) w)
      rw [hq, List.modifyHead_cons, List.map_cons, List.map_cons, List.sum_cons, List.sum_cons, List.length_cons]
      omega

/-- The pieces end where the memory that is taken does. -/
theorem chunksEnd_splitOn (b : Nat) (delim : Byte) (w : List Byte) :
    chunksEnd (b + 8 * (2 + w.count delim)) (w.splitOn delim) = b + splitRoom delim w := by
  have := sum_length_splitOn delim w
  rw [chunksEnd_eq, (piecesOf_splitOn delim w).length, splitRoom]
  omega

theorem Spells.countDelims (h : Spells (shift str mem) w) (hlen : w.length < maxStrLen) :
    countDelims str delim mem = w.count delim := by
  have hw : w = (List.range w.length).map fun i => mem (str + i) := by
    refine List.ext_getElem (by simp) fun i hi _ => ?_
    rw [List.getElem_map, List.getElem_range]
    exact (h.chars i hi).symm
  rw [Sbuos.countDelims, h.strlen hlen, Int.toNat_natCast]
  conv_rhs => rw [hw, List.count, List.countP_map]
  rfl

/-- No two of the blocks share a byte. -/
theorem pairwise_chunks (hres : res.addr + res.size ≤ n) (ps : List (List Byte)) :
    (res :: pieceChunks n ps).Pairwise fun b c => b.addr + b.size ≤ c.addr := by
  induction ps generalizing res n with
  | nil => exact List.pairwise_singleton _ _
  | cons p ps ih =>
    refine List.pairwise_cons.2 ⟨fun c hc => ?_, ih (Nat.le_refl _)⟩
    exact Nat.le_trans hres (pieceChunks_addr n (p :: ps) c hc)

/-- **Splitting a string loses nothing**: the pieces join to the string, and every store stays in its block. -/
theorem strsplit_lossless {h : Heap} (hstr : Spells (shift str h.mem) w) (hlen : w.length < maxStrLen)
    (hapart : str + w.length < h.brk ∨ h.brk + splitRoom delim w ≤ str)
    (hroom : h.brk + splitRoom delim w ≤ heapTop.toNat) :
    ∃ y blocks ps, Returns (fun fuel => strsplit fuel str delim h) (h.brk, y) ∧ PiecesOf delim w ps ∧
      StringArray y.heap.mem h.brk (blocks.map Chunk.addr) ps ∧
      (⟨h.brk, 8 * (ps.length + 1)⟩ :: blocks).Pairwise (fun b c => b.addr + b.size ≤ c.addr) ∧
      ∀ e ∈ y.log, StoreIn (⟨h.brk, 8 * (ps.length + 1)⟩ :: blocks) e := by
  have hcount : countDelims str delim h.mem = w.count delim := hstr.countDelims hlen
  have hpieces := piecesOf_splitOn delim w
  have htop : heapTop.toNat < 2 ^ 64 := heapTop.isLt
  have hend := chunksEnd_splitOn h.brk delim w
  have hle := le_chunksEnd (h.brk + 8 * (2 + w.count delim)) (w.splitOn delim)
  have hlength := hpieces.length
  obtain ⟨z, hz, hrun⟩ := @splitFrom_spec str delim w ⟨h.brk, 8 * (2 + w.count delim)⟩ w [] [] 0
    ⟨⟨h.brk + 8 * (2 + w.count delim), h.mem⟩, []⟩ rfl hstr hlen (Nat.le_refl _)
    (by change 8 * (0 + (w.splitOn delim).length + 1) ≤ _; dsimp only; omega)
    (by change _ ∨ chunksEnd _ (w.splitOn delim) ≤ _; dsimp only; omega)
    (by change chunksEnd _ (w.splitOn delim) < _; dsimp only; omega)
  change Cut _ 0 (w.splitOn delim) _ _ at hz
  obtain ⟨hheap, hlog⟩ := within_wrote (x := z) (wrote_putPtr (h.brk + 8 * (w.count delim + 1)) 0 ⟨z.heap.mem, []⟩)
    ⟨h.brk, 8 * (2 + w.count delim)⟩
  have hres : (⟨h.brk, 8 * (2 + w.count delim)⟩ : Chunk) = ⟨h.brk, 8 * ((w.splitOn delim).length + 1)⟩ := by
    rw [hlength, Nat.add_comm 2]
  generalize hy : z.within ⟨h.brk, 8 * (2 + w.count delim)⟩ (putPtr (h.brk + 8 * (w.count delim + 1)) 0) = y
    at hheap hlog
  have hchunks : (pieceChunks (h.brk + 8 * (2 + w.count delim)) (w.splitOn delim)).length = w.count delim + 1 := by
    rw [length_pieceChunks, hlength]
  -- the `NULL` goes behind the pointers and in front of the pieces
  have hkeep : ∀ a, a < h.brk + 8 * (w.count delim + 1) ∨ h.brk + 8 * (2 + w.count delim) ≤ a →
      y.heap.mem a = z.heap.mem a := by
    intro a ha
    rw [hheap]
    rcases ha with ha | ha
    · exact overwrite_of_lt ha
    · exact overwrite_of_le (by rw [length_ptrBytes]; omega)
  refine ⟨y, pieceChunks (h.brk + 8 * (2 + w.count delim)) (w.splitOn delim), w.splitOn delim, ?_, hpieces,
    ⟨fun k hk => ?_, fun arg harg => ?_, ?_, ?_⟩, ?_, fun e he => ?_⟩
  · refine .of_le (w.length + 2) fun fuel hfuel => ?_
    have hgo : splitFrom str delim ⟨h.brk, 8 * (2 + w.count delim)⟩ fuel 0 (-1) 0
        ⟨⟨h.brk + 8 * (2 + w.count delim), h.mem⟩, []⟩ = some (0 + (w.splitOn delim).length, z) := hrun fuel hfuel
    simp only [strsplit, hcount, Split.malloc, Heap.malloc, hgo, Option.bind_eq_bind, Option.bind_some]
    rw [Nat.zero_add, hlength, hy]
  · rw [List.length_map] at hk
    have hptr := hz.ptrs k hk
    rw [Nat.zero_add] at hptr
    rw [List.getElem_map, ← hptr]
    exact ptrRead_congr fun j hj => hkeep _ (.inl (by omega))
  · obtain ⟨b, hb, rfl⟩ := List.mem_map.1 harg
    have := pieceChunks_addr _ _ b hb
    omega
  · rw [List.length_map, hchunks, hheap]
    exact ptrRead_overwrite (by decide)
  · rw [List.forall₂_map_left_iff]
    refine ((List.forall₂_and_left _ _).2 ⟨pieceChunks_addr _ _, hz.strings⟩).imp fun b p hb => ?_
    exact hb.2.congr fun i _ => hkeep _ (.inr (Nat.le_trans hb.1 (Nat.le_add_right _ _)))
  · rw [← hres]
    exact pairwise_chunks (Nat.le_refl _) _
  · rw [← hres]
    rcases hlog e he with he | ⟨hb, hin⟩
    · rcases hz.log e he with he | he
      · cases he
      · exact he
    · rw [length_ptrBytes] at hin
      refine ⟨hb ▸ List.mem_cons_self, ?_⟩
      rw [hb]
      dsimp only
      omega

end

/-- `a,,b` with a comma. -/
theorem strsplit_lossless_comma : ∃ y blocks ps,
    Returns (fun fuel => strsplit fuel 0 0x2c ⟨16, cString "a,,b"⟩) (16, y) ∧
      PiecesOf 0x2c [0x61, 0x2c, 0x2c, 0x62] ps ∧ StringArray y.heap.mem 16 (blocks.map Chunk.addr) ps ∧
      (⟨16, 8 * (ps.length + 1)⟩ :: blocks).Pairwise (fun b c => b.addr + b.size ≤ c.addr) ∧
      ∀ e ∈ y.log, StoreIn (⟨16, 8 * (ps.length + 1)⟩ :: blocks) e := by
  have hstr : Spells (shift 0 (cString "a,,b")) [0x61, 0x2c, 0x2c, 0x62] := by
    rw [shift_zero]
    exact spells_cString rfl (by decide)
  exact strsplit_lossless (h := ⟨16, cString "a,,b"⟩) hstr (by decide) (.inl (by decide)) (by decide)

end Sbuos
