import Sbuos.Tarfs
import Sbuos.Stdin
import Sbuos.Lib.Run
/-!
# Reading a file (sys/tarfs.c:210-229)

A call of `read_to_buffer` copies up to `size - 1` bytes, stops behind a newline and at the end of the file, and
puts a NUL behind what it copied. `readLoop_eq` is the loop in one equation: `copied` counts the bytes, `turns` what
is returned, and the two differ exactly where the loop does not stop at a newline.
-/
namespace Sbuos
open Lib
open Stdin (storeAt_zero_get storeAt_ge newline)

namespace Tarfs

/-- The bytes from the descriptor's offset to the end of its file. -/
def rest (t : Tarfs) (fd : Fd) : List Byte :=
  (List.range (fd.fileSize.toNat - fd.fileOffset.toNat)).map fun i =>
    t.mem (fd.fileStartAddress + (fd.fileOffset + BitVec.ofNat 64 i))

/-- How many bytes of `l` are copied with room for `n`: up to and including the first newline. -/
def copied (n : Nat) (l : List Byte) : Nat := min n (min l.length (l.idxOf newline + 1))

/-- How far the loop counts. -/
def turns (n : Nat) (l : List Byte) : Nat := if (l.take n).contains newline then copied n l else copied n l + 1

/-- The descriptor, `k` bytes on. -/
def skip (fd : Fd) (k : Nat) : Fd := { fd with fileOffset := fd.fileOffset + BitVec.ofNat 64 k }

section loop
variable {t : Tarfs} {fd : Fd} {n k : Nat} {l : List Byte} {c : Byte}

theorem length_rest (t : Tarfs) (fd : Fd) : (t.rest fd).length = fd.fileSize.toNat - fd.fileOffset.toNat := by
  simp [rest]

theorem rest_eq_nil (h : fd.fileSize ≤ fd.fileOffset) : t.rest fd = [] := by
  rw [← List.length_eq_zero_iff, length_rest, Nat.sub_eq_zero_of_le h]

theorem rest_eq_cons (h : fd.fileOffset < fd.fileSize) :
    t.rest fd = t.mem (fd.fileStartAddress + fd.fileOffset) :: t.rest (skip fd 1) := by
  have hlt : fd.fileOffset.toNat < fd.fileSize.toNat := h
  have hnext : (fd.fileOffset + 1).toNat = fd.fileOffset.toNat + 1 := by
    rw [BitVec.toNat_add]
    exact Nat.mod_eq_of_lt (by have := fd.fileSize.isLt; simp; omega)
  rw [rest, rest, skip]
  simp only [hnext, show BitVec.ofNat 64 1 = 1 from rfl]
  rw [show fd.fileSize.toNat - fd.fileOffset.toNat = fd.fileSize.toNat - (fd.fileOffset.toNat + 1) + 1 by omega,
    List.range_succ_eq_map, List.map_cons, List.map_map]
  congr 1
  · simp
  · refine List.map_congr_left fun i _ => ?_
    rw [Function.comp_apply, Nat.succ_eq_add_one, Nat.add_comm, BitVec.ofNat_add, BitVec.add_assoc fd.fileOffset]
    rfl

theorem copied_nil : copied n [] = 0 := by simp [copied]

theorem copied_zero : copied 0 l = 0 := by simp [copied]

theorem copied_newline : copied (n + 1) (newline :: l) = 1 := by simp [copied]

theorem copied_cons (hc : c ≠ newline) : copied (n + 1) (c :: l) = copied n l + 1 := by
  rw [copied, copied, List.idxOf_cons_ne l hc, List.length_cons]
  omega

theorem turns_nil : turns n [] = 1 := by simp [turns, copied_nil]

theorem turns_zero : turns 0 l = 1 := by simp [turns, copied_zero]

theorem turns_newline : turns (n + 1) (newline :: l) = 1 := by simp [turns, copied_newline]

theorem turns_cons (hc : c ≠ newline) : turns (n + 1) (c :: l) = turns n l + 1 := by
  have hcontains : (c :: l.take n).contains newline = (l.take n).contains newline := by simp [hc.symm]
  rw [turns, turns, copied_cons hc, List.take_succ_cons, hcontains]
  split <;> rfl

theorem turns_pos : 0 < turns n l := by
  rcases n with _ | n
  · rw [turns_zero]
    decide
  · rcases l with _ | ⟨c, l⟩
    · rw [turns_nil]
      decide
    · by_cases hc : c = newline
      · rw [hc, turns_newline]
        decide
      · rw [turns_cons hc]
        exact Nat.succ_pos _

theorem skip_zero : skip fd 0 = fd := by simp [skip]

theorem skip_skip (fd : Fd) (k : Nat) : skip (skip fd 1) k = skip fd (k + 1) := by
  rw [skip, skip, skip, Nat.add_comm k 1, BitVec.ofNat_add, BitVec.add_assoc]

/-- **The loop of `read_to_buffer`**, with enough fuel. -/
theorem readLoop_eq (t : Tarfs) {size : Word} (fuel : Nat) :
    ∀ (n i : Nat) (buffer : Nat → Byte) (fd : Fd), i + n + 1 = size.toNat → turns n (t.rest fd) ≤ fuel →
    t.readLoop size fuel i buffer fd =
      some (skip fd (copied n (t.rest fd)),
        Stdin.storeAt buffer i ((t.rest fd).take (copied n (t.rest fd)) ++ [0]),
        BitVec.ofNat 64 (i + turns n (t.rest fd))) := by
  induction fuel with
  | zero =>
    intro n i buffer fd _ hfuel
    exact absurd (Nat.lt_of_lt_of_le turns_pos hfuel) (Nat.lt_irrefl 0)
  | succ fuel ih =>
    intro n i buffer fd hn hfuel
    have hlt := size.isLt
    have hroom : BitVec.ofNat 64 i < size - 1 ↔ 0 < n := by
      rw [BitVec.lt_def, BitVec.toNat_ofNat, Nat.mod_eq_of_lt (by omega), BitVec.toNat_sub]
      simp only [BitVec.ofNat_eq_ofNat, BitVec.toNat_ofNat]
      omega
    rw [readLoop]
    rcases n with _ | n
    · rw [if_neg (by rw [hroom]; decide), copied_zero, turns_zero, skip_zero]
      rfl
    · rw [if_pos (hroom.2 (Nat.succ_pos n))]
      by_cases heof : fd.fileSize ≤ fd.fileOffset
      · rw [if_pos heof, rest_eq_nil heof, copied_nil, turns_nil, skip_zero]
        rfl
      · have hrest := rest_eq_cons (t := t) (BitVec.not_le.1 heof)
        rw [if_neg heof, hrest]
        rw [hrest] at hfuel
        generalize t.mem (fd.fileStartAddress + fd.fileOffset) = c at hfuel ⊢
        by_cases hc : c = newline
        · subst hc
          rw [copied_newline, turns_newline]
          rfl
        · rw [turns_cons hc] at hfuel
          have hloop := ih n (i + 1) (Function.update buffer i c) (skip fd 1) (by omega) (by omega)
          rw [copied_cons hc, turns_cons hc, List.take_succ_cons, List.cons_append, Stdin.storeAt, ← skip_skip]
          simp only [show (c = 10) = False from eq_false hc, if_false]
          rw [show i + (turns n (t.rest (skip fd 1)) + 1) = i + 1 + turns n (t.rest (skip fd 1)) by omega]
          exact hloop

/-- More fuel changes nothing. -/
theorem readLoop_mono (t : Tarfs) {size : Word} {r : Fd × (Nat → Byte) × Word} (fuel : Nat) :
    ∀ {fuel' i : Nat} {buffer : Nat → Byte} {fd : Fd}, fuel ≤ fuel' → t.readLoop size fuel i buffer fd = some r →
    t.readLoop size fuel' i buffer fd = some r := by
  induction fuel with
  | zero =>
    intro fuel' i buffer fd _ h
    cases h
  | succ fuel ih =>
    intro fuel' i buffer fd hle h
    obtain ⟨fuel', rfl⟩ := Nat.exists_eq_add_one_of_ne_zero (show fuel' ≠ 0 by omega)
    rw [readLoop] at h ⊢
    by_cases hroom : BitVec.ofNat 64 i < size - 1
    · rw [if_pos hroom] at h ⊢
      by_cases heof : fd.fileOffset ≥ fd.fileSize
      · rw [if_pos heof] at h ⊢
        exact h
      · rw [if_neg heof] at h ⊢
        by_cases hc : t.mem (fd.fileStartAddress + fd.fileOffset) = 10
        · simp only [hc, if_true] at h ⊢
          exact h
        · simp only [hc, if_false] at h ⊢
          exact ih (by omega) h
    · rw [if_neg hroom] at h ⊢
      exact h

theorem readToBuffer_eof (h : fd.fileSize ≤ fd.fileOffset) (fuel : Nat) (buffer : Nat → Byte) (size : Word) :
    t.readToBuffer fuel fd buffer size = some (fd, buffer, 0) := if_pos h

end loop

section call
variable {t : Tarfs} {fd fd' : Fd} {size ret : Word} {buffer buffer' : Nat → Byte} {fuel : Nat}

/-- What is left to read, and how much of it a call copies. -/
def count (t : Tarfs) (fd : Fd) (size : Word) : Nat := copied (size.toNat - 1) (t.rest fd)

/-- **One call** before the end of the file: the bytes up to and including the next newline, as far as there is room,
and a NUL behind them. -/
theorem readToBuffer_eq (hlt : fd.fileOffset < fd.fileSize) (hsize : 1 ≤ size.toNat)
    (hfuel : turns (size.toNat - 1) (t.rest fd) ≤ fuel) (buffer : Nat → Byte) :
    t.readToBuffer fuel fd buffer size =
      some (skip fd (t.count fd size), Stdin.storeAt buffer 0 ((t.rest fd).take (t.count fd size) ++ [0]),
        BitVec.ofNat 64 (turns (size.toNat - 1) (t.rest fd))) := by
  rw [readToBuffer, if_neg (BitVec.not_le.2 hlt), readLoop_eq t fuel (size.toNat - 1) 0 buffer fd (by omega) hfuel,
    Nat.zero_add]
  rfl

theorem readToBuffer_cases (hlt : fd.fileOffset < fd.fileSize) (hsize : 1 ≤ size.toNat)
    (h : t.readToBuffer fuel fd buffer size = some (fd', buffer', ret)) :
    fd' = skip fd (t.count fd size) ∧ buffer' = Stdin.storeAt buffer 0 ((t.rest fd).take (t.count fd size) ++ [0]) ∧
      ret = BitVec.ofNat 64 (turns (size.toNat - 1) (t.rest fd)) := by
  have hmore : t.readToBuffer (max fuel (turns (size.toNat - 1) (t.rest fd))) fd buffer size =
      some (fd', buffer', ret) := by
    rw [readToBuffer, if_neg (BitVec.not_le.2 hlt)] at h ⊢
    exact readLoop_mono t fuel (Nat.le_max_left _ _) h
  have heq := (readToBuffer_eq hlt hsize (Nat.le_max_right fuel _) buffer).symm.trans hmore
  simp only [Option.some.injEq, Prod.mk.injEq] at heq
  exact ⟨heq.1.symm, heq.2.1.symm, heq.2.2.symm⟩

theorem exists_readToBuffer (hsize : 1 ≤ size.toNat) (buffer : Nat → Byte) :
    ∃ fuel r, t.readToBuffer fuel fd buffer size = some r := by
  by_cases heof : fd.fileSize ≤ fd.fileOffset
  · exact ⟨0, _, readToBuffer_eof heof 0 buffer size⟩
  · exact ⟨_, _, readToBuffer_eq (BitVec.not_le.1 heof) hsize (Nat.le_refl _) buffer⟩

theorem count_le : t.count fd size ≤ (t.rest fd).length := by
  rw [count, copied]
  omega

theorem toNat_skip {k : Nat} (hle : fd.fileOffset ≤ fd.fileSize) (hk : k ≤ (t.rest fd).length) :
    (skip fd k).fileOffset.toNat = fd.fileOffset.toNat + k := by
  have hle' : fd.fileOffset.toNat ≤ fd.fileSize.toNat := hle
  have hlt := fd.fileSize.isLt
  rw [length_rest] at hk
  rw [skip, BitVec.toNat_add, BitVec.toNat_ofNat, Nat.add_mod_mod, Nat.mod_eq_of_lt (by omega)]

theorem rest_skip {k : Nat} (hk : k ≤ (t.rest fd).length) : t.rest (skip fd k) = (t.rest fd).drop k := by
  induction k generalizing fd with
  | zero => rw [skip_zero, List.drop_zero]
  | succ k ih =>
    have hlt : fd.fileOffset < fd.fileSize := by
      rw [length_rest] at hk
      rw [BitVec.lt_def]
      omega
    rw [rest_eq_cons hlt, List.length_cons] at hk
    rw [← skip_skip, ih (by omega), rest_eq_cons hlt, List.drop_succ_cons]

end call

/-! ## A descriptor read in pieces -/

/-- A call of `read_to_buffer`: its arguments, the buffer behind it, and its answer. -/
structure ReadCall where
  size : Word
  before : Nat → Byte
  after : Nat → Byte
  ret : Word

inductive ReadStep (t : Tarfs) : Fd → ReadCall → Fd → Prop
  | read {fd fd' : Fd} {c : ReadCall} (fuel : Nat) :
      t.readToBuffer fuel fd c.before c.size = some (fd', c.after, c.ret) → ReadStep t fd c fd'

/-- There is room for a byte besides the NUL. -/
def RoomForOne (_ : Fd) (c : ReadCall) : Prop := 2 ≤ c.size.toNat

/-- What a call from a descriptor copied. -/
def piece (t : Tarfs) (c : Fd × ReadCall) : List Byte := (List.range (t.count c.1 c.2.size)).map c.2.after

/-- A call copies `count` bytes, at least one, puts a NUL behind them and moves the offset behind them. -/
structure Delivers (t : Tarfs) (fd : Fd) (c : ReadCall) (fd' : Fd) : Prop where
  pos : 1 ≤ t.count fd c.size
  copies : t.piece (fd, c) = (t.rest fd).take (t.count fd c.size)
  nul : c.after (t.count fd c.size) = 0
  offset : fd'.fileOffset.toNat = fd.fileOffset.toNat + t.count fd c.size
  sameFile : fd'.fileStartAddress = fd.fileStartAddress ∧ fd'.fileSize = fd.fileSize
  inside : ∀ j, c.size.toNat ≤ j → c.after j = c.before j

section pieces
variable {t : Tarfs} {fd fd' : Fd} {c : ReadCall} {cs : List (Fd × ReadCall)}

theorem ReadStep.cases (h : ReadStep t fd c fd') (hlt : fd.fileOffset < fd.fileSize) (hsize : 2 ≤ c.size.toNat) :
    fd' = skip fd (t.count fd c.size) ∧
      c.after = Stdin.storeAt c.before 0 ((t.rest fd).take (t.count fd c.size) ++ [0]) ∧
      c.ret = BitVec.ofNat 64 (turns (c.size.toNat - 1) (t.rest fd)) := by
  obtain ⟨fuel, h⟩ := h
  exact readToBuffer_cases hlt (by omega) h

theorem ReadStep.delivers (h : ReadStep t fd c fd') (hlt : fd.fileOffset < fd.fileSize) (hsize : 2 ≤ c.size.toNat) :
    Delivers t fd c fd' := by
  obtain ⟨rfl, hafter, -⟩ := h.cases hlt hsize
  have hle : t.count fd c.size ≤ (t.rest fd).length := count_le
  have hlen : ((t.rest fd).take (t.count fd c.size)).length = t.count fd c.size := List.length_take_of_le hle
  have hget : ∀ j (hj : j < (t.rest fd).length), j < t.count fd c.size → c.after j = (t.rest fd)[j] := by
    intro j _ hj
    rw [hafter, storeAt_zero_get _ (by rw [List.length_append, hlen, List.length_singleton]; omega),
      List.getElem_append_left (by omega), List.getElem_take]
  exact
    { pos := by
        have hlt' : fd.fileOffset.toNat < fd.fileSize.toNat := hlt
        have hlen := length_rest t fd
        rw [count, copied]
        omega
      copies := by
        refine List.ext_getElem (by simp [piece]; omega) fun j hj hj' => ?_
        rw [List.length_take] at hj'
        simp only [piece, List.getElem_map, List.getElem_range, List.getElem_take]
        exact hget j _ (by omega)
      nul := by
        rw [hafter, storeAt_zero_get _ (by rw [List.length_append, hlen, List.length_singleton]; omega),
          List.getElem_append_right (by omega)]
        simp
      offset := toNat_skip (BitVec.le_of_lt hlt) hle
      sameFile := ⟨rfl, rfl⟩
      inside := by
        intro j hj
        have hroom : t.count fd c.size ≤ c.size.toNat - 1 := by
          rw [count, copied]
          omega
        rw [hafter]
        exact storeAt_ge _ _ _ _ (by rw [List.length_append, hlen, List.length_singleton]; omega) }

/-- At the end of the file nothing is copied and 0 is returned. -/
theorem ReadStep.eof (h : ReadStep t fd c fd') (hle : fd.fileSize ≤ fd.fileOffset) :
    fd' = fd ∧ c.after = c.before ∧ c.ret = 0 := by
  obtain ⟨fuel, h⟩ := h
  simp only [readToBuffer_eof hle, Option.some.injEq, Prod.mk.injEq] at h
  exact ⟨h.1.symm, h.2.1.symm, h.2.2.symm⟩

theorem ReadStep.ret_ne_zero (h : ReadStep t fd c fd') (hlt : fd.fileOffset < fd.fileSize)
    (hsize : 2 ≤ c.size.toNat) : c.ret ≠ 0 := by
  obtain ⟨-, -, hret⟩ := h.cases hlt hsize
  have hpos := turns_pos (n := c.size.toNat - 1) (l := t.rest fd)
  have hle : turns (c.size.toNat - 1) (t.rest fd) ≤ c.size.toNat := by
    rw [turns]
    split <;> rw [copied] <;> omega
  rw [hret]
  intro h0
  have h0' := congrArg BitVec.toNat h0
  rw [BitVec.toNat_ofNat, Nat.mod_eq_of_lt (by omega)] at h0'
  simp only [BitVec.ofNat_eq_ofNat, BitVec.toNat_ofNat] at h0'
  omega

/-- After any calls the descriptor is where the pieces copied end. -/
theorem pieces_run (h0 : fd.fileOffset = 0)
    (hrun : Run (Traced (Guarded RoomForOne (ReadStep t))) fd cs fd') :
    ∃ n, n ≤ (t.rest fd).length ∧ fd' = skip fd n ∧ (cs.map t.piece).flatten = (t.rest fd).take n ∧
      ((∀ c ∈ cs, c.2.ret ≠ 0) → cs.length ≤ n) := by
  refine hrun.history (fun cs fd' => ∃ n, n ≤ (t.rest fd).length ∧ fd' = skip fd n ∧
    (cs.map t.piece).flatten = (t.rest fd).take n ∧ ((∀ c ∈ cs, c.2.ret ≠ 0) → cs.length ≤ n))
    ⟨0, Nat.zero_le _, skip_zero.symm, by simp, fun _ => Nat.le_refl 0⟩ ?_
  rintro cs fd₁ ⟨fd₁', c⟩ fd₂ ⟨n, hn, rfl, hpieces, hcalls⟩ ⟨hfd, hsize, hstep⟩
  obtain rfl : fd₁' = skip fd n := hfd
  have hz : fd.fileOffset ≤ fd.fileSize := BitVec.le_def.2 (by simp [h0])
  have hoff := toNat_skip hz hn
  have hlen := length_rest t fd
  rw [h0] at hoff hlen
  rw [List.map_append, List.flatten_append, hpieces]
  by_cases heof : (skip fd n).fileSize ≤ (skip fd n).fileOffset
  · obtain ⟨rfl, -, hret⟩ := hstep.eof heof
    have hnil : t.piece (skip fd n, c) = [] := by
      rw [← List.length_eq_zero_iff, piece, List.length_map, List.length_range, ← Nat.le_zero]
      exact Nat.le_trans count_le (by rw [rest_eq_nil heof]; exact Nat.le_refl 0)
    refine ⟨n, hn, rfl, by simp [hnil], fun hall => absurd hret ?_⟩
    exact hall _ (List.mem_append_right _ List.mem_cons_self)
  · have hlt := BitVec.not_le.1 heof
    have hd := hstep.delivers hlt hsize
    obtain ⟨rfl, -⟩ := hstep.cases hlt hsize
    have hcount : t.count (skip fd n) c.size ≤ (t.rest fd).length - n := by
      have hle : t.count (skip fd n) c.size ≤ (t.rest (skip fd n)).length := count_le
      rwa [rest_skip hn, List.length_drop] at hle
    refine ⟨n + t.count (skip fd n) c.size, by omega, ?_, ?_, fun hall => ?_⟩
    · rw [skip, skip, skip, BitVec.add_assoc, ← BitVec.ofNat_add]
    · rw [List.map_singleton, List.flatten_singleton, hd.copies, rest_skip hn, List.take_add]
    · have hpos : 1 ≤ t.count (skip fd n) c.size := hd.pos
      have hprev := hcalls fun c hc => hall c (List.mem_append_left _ hc)
      rw [List.length_append, List.length_singleton]
      omega

/-- **A file is read in full.** From a descriptor opened at offset 0, after any calls with room for a byte each, what
they copied is the file up to the offset, and the next call returns. Before the end of the file it copies the bytes
up to its limit, the end, or the next newline, at least one, with a NUL behind them, inside of the caller's buffer;
it answers 0 only once all of the file has been copied, and as long as no call does there are no more calls than
bytes. -/
theorem read_delivers (h0 : fd.fileOffset = 0)
    (hrun : Run (Traced (Guarded RoomForOne (ReadStep t))) fd cs fd') :
    (cs.map t.piece).flatten = (t.rest fd).take fd'.fileOffset.toNat ∧
    ((∀ c ∈ cs, c.2.ret ≠ 0) → cs.length ≤ fd.fileSize.toNat) ∧
    (∀ size before, 2 ≤ size.toNat → ∃ fuel r, t.readToBuffer fuel fd' before size = some r) ∧
    ∀ c fd'', RoomForOne fd' c → ReadStep t fd' c fd'' →
      (fd'.fileOffset < fd'.fileSize → Delivers t fd' c fd'') ∧
      (c.ret = 0 ↔ (cs.map t.piece).flatten = t.rest fd) := by
  obtain ⟨n, hn, rfl, hpieces, hcalls⟩ := pieces_run h0 hrun
  have hz : fd.fileOffset ≤ fd.fileSize := BitVec.le_def.2 (by simp [h0])
  have hoff := toNat_skip hz hn
  have hlen := length_rest t fd
  rw [h0] at hoff hlen
  simp only [BitVec.ofNat_eq_ofNat, BitVec.toNat_ofNat, Nat.zero_mod, Nat.zero_add, Nat.sub_zero] at hoff hlen
  refine ⟨by rw [hoff, hpieces], fun hall => ?_, fun size before hsize => ?_, fun c fd'' hsize hstep => ⟨?_, ?_⟩⟩
  · have hle := hcalls hall
    omega
  · exact exists_readToBuffer (by omega) before
  · exact fun hlt => hstep.delivers hlt hsize
  · by_cases heof : (skip fd n).fileSize ≤ (skip fd n).fileOffset
    · obtain ⟨-, -, hret⟩ := hstep.eof heof
      have hle : fd.fileSize.toNat ≤ (skip fd n).fileOffset.toNat := heof
      rw [hpieces, List.take_of_length_le (by omega)]
      exact iff_of_true hret rfl
    · have hlt := BitVec.not_le.1 heof
      have hlt' : (skip fd n).fileOffset.toNat < fd.fileSize.toNat := hlt
      refine iff_of_false (hstep.ret_ne_zero hlt hsize) fun hall => ?_
      have hshort := congrArg List.length (hpieces.symm.trans hall)
      rw [List.length_take] at hshort
      omega

end pieces

/-- A file that holds only the letter `a`. -/
def lettersA : Tarfs := ⟨fun _ => 97, 0, 0⟩

/-- Two lines, the second without a newline. -/
def shortFile : Tarfs := ⟨fun a => [97, 98, newline, 99, 100].getD a.toNat 0, 0, 0⟩

/-- Calls with these limits, one after the other. -/
def readsFrom (t : Tarfs) (fuel : Nat) : List Word → Fd → Option (List (Fd × ReadCall) × Fd)
  | [], fd => some ([], fd)
  | size :: sizes, fd => do
    let (fd', after, ret) ← t.readToBuffer fuel fd (fun _ => 0) size
    let (cs, fd'') ← t.readsFrom fuel sizes fd'
    some ((fd, ⟨size, fun _ => 0, after, ret⟩) :: cs, fd'')

theorem run_readsFrom {t : Tarfs} {fuel : Nat} {sizes : List Word} (hsizes : ∀ n ∈ sizes, 2 ≤ n.toNat) :
    ∀ {fd : Fd} {r : List (Fd × ReadCall) × Fd}, t.readsFrom fuel sizes fd = some r →
      Run (Traced (Guarded RoomForOne (ReadStep t))) fd r.1 r.2 := by
  induction sizes with
  | nil =>
    rintro fd r ⟨⟩
    exact .nil
  | cons size sizes ih =>
    intro fd r h
    obtain ⟨⟨fd', after, ret⟩, hread, h⟩ := Option.bind_eq_some_iff.1 h
    obtain ⟨r', hreads, h⟩ := Option.bind_eq_some_iff.1 h
    obtain rfl := Option.some.inj h
    exact .cons ⟨rfl, hsizes size List.mem_cons_self, .read fuel hread⟩
      (ih (fun n hn => hsizes n (List.mem_cons_of_mem _ hn)) hreads)

/-- Up to the limit, up to the newline, and up to the end. -/
theorem read_delivers_lines : ∃ cs fd', Run (Traced (Guarded RoomForOne (ReadStep shortFile))) ⟨0, 5, 0⟩ cs fd' ∧
    cs.map shortFile.piece = [[97], [98, newline], [99, 100]] ∧
    ∀ c fd'', RoomForOne fd' c → ReadStep shortFile fd' c fd'' → c.ret = 0 := by
  have hexec : ((shortFile.readsFrom 9 [2, 9, 7] ⟨0, 5, 0⟩).any fun r =>
      r.1.map shortFile.piece = [[97], [98, newline], [99, 100]]) = true := by decide +kernel
  obtain ⟨r, hr, hpieces⟩ := (Option.any_eq_true _ _).1 hexec
  rw [decide_eq_true_eq] at hpieces
  have hsizes : ∀ n ∈ [(2 : Word), 9, 7], 2 ≤ n.toNat := by simp
  have hrun := run_readsFrom hsizes hr
  obtain ⟨-, -, -, hnext⟩ := read_delivers rfl hrun
  refine ⟨_, _, hrun, hpieces, fun c fd'' hsize hstep => ((hnext c fd'' hsize hstep).2.2 ?_)⟩
  rw [hpieces]
  decide +kernel

/-! ## The count -/

/-- **The count is that of the bytes read exactly when the call stops at a newline**, or had nothing to read. -/
theorem read_count (t : Tarfs) (fd : Fd) {size : Word} (hsize : 1 ≤ size.toNat) (buffer : Nat → Byte) :
    (∃ fuel r, t.readToBuffer fuel fd buffer size = some r) ∧
    ∀ fuel fd' buffer' ret, t.readToBuffer fuel fd buffer size = some (fd', buffer', ret) →
      ((fd'.fileOffset.toNat = fd.fileOffset.toNat + ret.toNat ∧ (ret = 0 → fd.fileSize ≤ fd.fileOffset)) ↔
        fd.fileSize ≤ fd.fileOffset ∨ newline ∈ (t.rest fd).take (size.toNat - 1)) := by
  refine ⟨exists_readToBuffer hsize buffer, fun fuel fd' buffer' ret h => ?_⟩
  by_cases heof : fd.fileSize ≤ fd.fileOffset
  · rw [readToBuffer_eof heof] at h
    obtain ⟨rfl, -, rfl⟩ : fd = fd' ∧ buffer = buffer' ∧ 0 = ret := by simpa using h
    exact iff_of_true ⟨by simp, fun _ => heof⟩ (.inl heof)
  · have hlt := BitVec.not_le.1 heof
    obtain ⟨rfl, -, rfl⟩ := readToBuffer_cases hlt hsize h
    have hle : t.count fd size ≤ (t.rest fd).length := count_le
    have hoff := toNat_skip (BitVec.le_of_lt hlt) hle
    have hcopied : copied (size.toNat - 1) (t.rest fd) = t.count fd size := rfl
    have hroom : t.count fd size ≤ size.toNat - 1 := by
      rw [count, copied]
      omega
    have hsz := size.isLt
    rw [hoff]
    by_cases hnl : newline ∈ (t.rest fd).take (size.toNat - 1)
    · have hturns : turns (size.toNat - 1) (t.rest fd) = t.count fd size := by
        rw [turns, if_pos (List.contains_iff_mem.2 hnl), hcopied]
      have hpos := turns_pos (n := size.toNat - 1) (l := t.rest fd)
      have hnat : (BitVec.ofNat 64 (t.count fd size)).toNat = t.count fd size := by
        rw [BitVec.toNat_ofNat, Nat.mod_eq_of_lt (by omega)]
      rw [hturns, hnat]
      refine iff_of_true ⟨rfl, fun h0 => ?_⟩ (.inr hnl)
      rw [h0] at hnat
      simp only [BitVec.ofNat_eq_ofNat, BitVec.toNat_ofNat] at hnat
      omega
    · have hturns : turns (size.toNat - 1) (t.rest fd) = t.count fd size + 1 := by
        rw [turns, if_neg fun h => hnl (List.contains_iff_mem.1 h), hcopied]
      have hnat : (BitVec.ofNat 64 (t.count fd size + 1)).toNat = t.count fd size + 1 := by
        rw [BitVec.toNat_ofNat, Nat.mod_eq_of_lt (by omega)]
      rw [hturns, hnat]
      exact iff_of_false (by omega) (by simp [heof, hnl])

/-- A line read with its newline. -/
theorem read_count_line : ∃ fuel fd' buffer' ret,
    Tarfs.readToBuffer ⟨fun _ => newline, 0, 0⟩ fuel ⟨0, 2, 0⟩ (fun _ => 0) 10 = some (fd', buffer', ret) ∧
      fd'.fileOffset.toNat = ret.toNat := by
  obtain ⟨⟨fuel, ⟨fd', buffer', ret⟩, hread⟩, hcount⟩ :=
    read_count ⟨fun _ => newline, 0, 0⟩ ⟨0, 2, 0⟩ (show 1 ≤ (10 : Word).toNat by decide) fun _ => 0
  obtain ⟨hret, -⟩ := (hcount fuel fd' buffer' ret hread).2 (by decide)
  exact ⟨fuel, fd', buffer', ret, hread, by simpa using hret⟩

/-- At the end of the file the NUL is counted: one byte is read, and 2 returned. -/
theorem read_count_end :
    (lettersA.readToBuffer 3 ⟨0, 1, 0⟩ (fun _ => 0) 10).map (fun r => (r.1.fileOffset, r.2.2)) = some (1, 2) := by
  decide

end Tarfs
end Sbuos
