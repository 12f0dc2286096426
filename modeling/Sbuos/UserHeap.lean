import Sbuos.Process
/-!
# The user heap (libc/stdlib.c:28-48, sys/systemcall.c:10-18)

`malloc` moves the break through `sbrk` and the system call `brk`. The size becomes an `int` on the way,
and a refused `brk` returns -1 where `sbrk` looks for `NULL`, so no call ever fails: what a call returns
is the old break, whether the new one was stored or not.

**`user_heap_law`** says for which sequences of sizes the blocks nevertheless lie in the heap and apart:
those that fit in it as a whole, with no size from 2^31 on before another block.
-/
namespace Sbuos

/-- `HEAP_TOP` (process_helpers.h:9). -/
def heapTop : Word := 0x0000770000000000

/-- The break `_get_new_pcb` sets. -/
def heapStart : Word := 0x0000700000000000

/-- `do_break` (systemcall.c:10-18). -/
def doBreak (arg1 : Word) (proc : Pcb) : Word × Pcb :=
  if arg1 = 0 then (proc.userBrkPoint, proc)
  else if arg1 ≥ heapTop then (-1, proc)
  else (arg1, { proc with userBrkPoint := arg1 })

/-- `sbrk` (stdlib.c:28-41). -/
def sbrk (inc : BitVec 32) (proc : Pcb) : Word × Pcb :=
  let (breakPoint, proc) := doBreak 0 proc
  if breakPoint = -1 then (-1, proc)
  else
    let (endPoint, proc) := doBreak (breakPoint + inc.signExtend 64) proc
    if endPoint = 0 then (-1, proc) else (breakPoint, proc)

/-- `malloc` (stdlib.c:43-48); the `size_t` becomes `sbrk`'s `int`. -/
def malloc (size : Word) (proc : Pcb) : Word × Pcb :=
  let (p, proc) := sbrk (size.setWidth 32) proc
  if p = -1 then (0, proc) else (p, proc)

/-- A block `malloc` returned, as the call sees it: where it starts and the size asked for. -/
structure Block where
  addr : Word
  size : Word

/-- The address lies in the block. -/
def Block.Has (b : Block) (a : Nat) : Prop := b.addr.toNat ≤ a ∧ a < b.addr.toNat + b.size.toNat

def InHeap (a : Nat) : Prop := heapStart.toNat ≤ a ∧ a < heapTop.toNat

/-- One call: it fails and leaves the break alone, or its block lies in the heap and apart from those
returned earlier. -/
def CallOk (earlier : List Block) (size : Word) (proc : Pcb) : Prop :=
  ((malloc size proc).1 = 0 ∧ (malloc size proc).2.userBrkPoint = proc.userBrkPoint) ∨
    ((malloc size proc).1 ≠ 0 ∧
      (∀ a, (Block.mk (malloc size proc).1 size).Has a → InHeap a) ∧
      ∀ b ∈ earlier, ∀ a, (Block.mk (malloc size proc).1 size).Has a → ¬b.Has a)

/-- Every call of a sequence is right, given the blocks returned before it. -/
def HeapLaw (earlier : List Block) (proc : Pcb) : List Word → Prop
  | [] => True
  | size :: sizes =>
    CallOk earlier size proc ∧
      HeapLaw (earlier ++ [⟨(malloc size proc).1, size⟩]) (malloc size proc).2 sizes

/-- A size that is followed by another block is below 2^31. -/
def SmallBeforeLast : List Word → Prop
  | [] => True
  | size :: sizes => ((∃ t ∈ sizes, t ≠ 0) → size.toNat < 2 ^ 31) ∧ SmallBeforeLast sizes

def total : List Word → Nat
  | [] => 0
  | size :: sizes => size.toNat + total sizes

/-! ## One call -/

/-- The break that `sbrk` asks for. -/
def moved (size brk : Word) : Word := brk + (size.setWidth 32).signExtend 64

theorem toNat_inc (size : Word) : ((size.setWidth 32).signExtend 64).toNat =
    size.toNat % 2 ^ 32 + if size.toNat % 2 ^ 32 < 2 ^ 31 then 0 else 2 ^ 64 - 2 ^ 32 := by
  rw [BitVec.toNat_signExtend, BitVec.msb_eq_decide, BitVec.toNat_setWidth, BitVec.toNat_setWidth]
  by_cases h : size.toNat % 2 ^ 32 < 2 ^ 31
  · rw [if_pos h, if_neg (by simpa using h)]
    omega
  · rw [if_neg h, if_pos (by simpa using h)]
    omega

theorem toNat_moved_of_small {size brk : Word} (hs : size.toNat < 2 ^ 31) (hb : brk < heapTop) :
    (moved size brk).toNat = brk.toNat + size.toNat := by
  have hb' : brk.toNat < 0x0000770000000000 := hb
  have hlow : size.toNat % 2 ^ 32 = size.toNat := Nat.mod_eq_of_lt (by omega)
  rw [moved, BitVec.toNat_add, toNat_inc, hlow, if_pos hs]
  omega

/-- A larger size moves the break by less than it says, or down. -/
theorem toNat_moved_of_large {size brk : Word} (hs : 2 ^ 31 ≤ size.toNat) (hb : brk < heapTop)
    (h0 : heapStart ≤ brk) :
    0 < (moved size brk).toNat ∧ (moved size brk).toNat < brk.toNat + size.toNat := by
  have hb' : brk.toNat < 0x0000770000000000 := hb
  have h0' : 0x0000700000000000 ≤ brk.toNat := h0
  rw [moved, BitVec.toNat_add, toNat_inc]
  split <;> omega

/-- A process whose break is the end of a heap: what `sbrk` and `malloc` take for a failure is not it. -/
structure Live (proc : Pcb) : Prop where
  ne_zero : proc.userBrkPoint ≠ 0
  lt_top : proc.userBrkPoint < heapTop

variable {proc : Pcb} {size : Word} {sizes : List Word} {earlier : List Block}

/-- `brk` never answers 0, and stores what it is asked for when that is below `HEAP_TOP`. -/
theorem doBreak_spec (h : Live proc) (arg1 : Word) : (doBreak arg1 proc).1 ≠ 0 ∧ (doBreak arg1 proc).2 =
    if arg1 = 0 ∨ arg1 ≥ heapTop then proc else { proc with userBrkPoint := arg1 } := by
  unfold doBreak
  by_cases h0 : arg1 = 0
  · rw [if_pos h0, if_pos (.inl h0)]
    exact ⟨h.ne_zero, rfl⟩
  · by_cases ht : arg1 ≥ heapTop
    · rw [if_neg h0, if_pos ht, if_pos (.inr ht)]
      exact ⟨show (-1 : Word) ≠ 0 by decide, rfl⟩
    · rw [if_neg h0, if_neg ht, if_neg (not_or.2 ⟨h0, ht⟩)]
      exact ⟨h0, rfl⟩

/-- A call returns the old break, whether the new one was stored or not. -/
theorem malloc_eq (h : Live proc) (size : Word) : malloc size proc = (proc.userBrkPoint,
    if moved size proc.userBrkPoint = 0 ∨ moved size proc.userBrkPoint ≥ heapTop then proc
    else { proc with userBrkPoint := moved size proc.userBrkPoint }) := by
  have hne : proc.userBrkPoint ≠ -1 := by
    intro he
    have := h.lt_top
    rw [he] at this
    exact absurd this (by decide)
  obtain ⟨hanswer, hstored⟩ := doBreak_spec h (moved size proc.userBrkPoint)
  unfold moved at *
  have hquery : doBreak 0 proc = (proc.userBrkPoint, proc) := rfl
  simp only [malloc, sbrk, hquery, if_neg hne, if_neg hanswer, hstored]

theorem malloc_addr (h : Live proc) (size : Word) : (malloc size proc).1 = proc.userBrkPoint := by
  rw [malloc_eq h]

theorem malloc_live (h : Live proc) (size : Word) : Live (malloc size proc).2 := by
  rw [malloc_eq h]
  dsimp only
  split
  · exact h
  · rename_i hm
    obtain ⟨h0, ht⟩ := not_or.1 hm
    exact ⟨h0, BitVec.not_le.1 ht⟩

/-- A call never fails, so it is right when its block is. -/
theorem callOk_iff (h : Live proc) : CallOk earlier size proc ↔
    (∀ a, (Block.mk proc.userBrkPoint size).Has a → InHeap a) ∧
      ∀ b ∈ earlier, ∀ a, (Block.mk proc.userBrkPoint size).Has a → ¬b.Has a := by
  rw [CallOk, malloc_addr h]
  exact ⟨fun hc => (hc.resolve_left fun hn => h.ne_zero hn.1).2, fun hc => .inr ⟨h.ne_zero, hc⟩⟩

/-! ## Sequences of calls -/

theorem heapLaw_cons (h : Live proc) : HeapLaw earlier proc (size :: sizes) ↔
    CallOk earlier size proc ∧
      HeapLaw (earlier ++ [⟨proc.userBrkPoint, size⟩]) (malloc size proc).2 sizes := by
  rw [HeapLaw, malloc_addr h]

theorem malloc_zero (h : Live proc) : (malloc 0 proc).2 = proc := by
  have hm : moved 0 proc.userBrkPoint = proc.userBrkPoint := by simp [moved]
  rw [malloc_eq h, hm]
  simp

theorem callOk_zero (h : Live proc) : CallOk earlier 0 proc := by
  have hnone : ∀ a, ¬(Block.mk proc.userBrkPoint 0).Has a := fun a ha => by
    have := Nat.lt_of_le_of_lt ha.1 ha.2
    simp at this
  rw [callOk_iff h]
  exact ⟨fun a ha => absurd ha (hnone a), fun _ _ a ha => absurd ha (hnone a)⟩

theorem smallBeforeLast_of_zeros : ∀ {sizes : List Word}, (∀ t ∈ sizes, t = 0) → SmallBeforeLast sizes
  | [], _ => trivial
  | _ :: _, hz =>
    ⟨fun ⟨t, ht, hne⟩ => absurd (hz t (List.mem_cons_of_mem _ ht)) hne,
      smallBeforeLast_of_zeros fun t ht => hz t (List.mem_cons_of_mem _ ht)⟩

theorem total_zeros : ∀ {sizes : List Word}, (∀ t ∈ sizes, t = 0) → total sizes = 0
  | [], _ => rfl
  | size :: sizes, hz => by
    rw [total, hz size List.mem_cons_self, total_zeros fun t ht => hz t (List.mem_cons_of_mem _ ht)]
    rfl

theorem total_pos : ∀ {sizes : List Word}, (∃ t ∈ sizes, t ≠ 0) → 0 < total sizes
  | size :: sizes, ⟨t, ht, hne⟩ => by
    rw [total]
    rcases List.mem_cons.1 ht with rfl | ht
    · have : t.toNat ≠ 0 := fun he => hne (BitVec.eq_of_toNat_eq he)
      omega
    · have := total_pos ⟨t, ht, hne⟩
      omega

/-- Empty blocks are never wrong. -/
theorem heapLaw_zeros : ∀ {sizes : List Word} {earlier : List Block} {proc : Pcb}, Live proc →
    (∀ t ∈ sizes, t = 0) → HeapLaw earlier proc sizes
  | [], _, _, _, _ => trivial
  | size :: sizes, earlier, proc, h, hz => by
    have h0 : size = 0 := hz size List.mem_cons_self
    subst h0
    rw [heapLaw_cons h]
    exact ⟨callOk_zero h, heapLaw_zeros (malloc_live h 0) fun t ht => hz t (List.mem_cons_of_mem _ ht)⟩

/-- The break lies where no block may start. -/
def Taken (earlier : List Block) (brk : Word) : Prop :=
  brk < heapStart ∨ ∃ b ∈ earlier, b.Has brk.toNat

/-- From a break that is taken, the next block that is not empty is wrong. -/
theorem not_heapLaw_of_taken (h : Live proc) (htaken : Taken earlier proc.userBrkPoint)
    (hsome : ∃ t ∈ sizes, t ≠ 0) : ¬HeapLaw earlier proc sizes := by
  induction sizes generalizing earlier with
  | nil =>
    obtain ⟨t, ht, -⟩ := hsome
    cases ht
  | cons size sizes ih =>
    intro hlaw
    rw [heapLaw_cons h] at hlaw
    by_cases h0 : size = 0
    · subst h0
      rw [malloc_zero h] at hlaw
      obtain ⟨t, ht, hne⟩ := hsome
      have ht' : t ∈ sizes := (List.mem_cons.1 ht).resolve_left hne
      refine ih (htaken.imp_right ?_) ⟨t, ht', hne⟩ hlaw.2
      rintro ⟨b, hb, hin⟩
      exact ⟨b, List.mem_append_left _ hb, hin⟩
    · obtain ⟨hin, hdisj⟩ := (callOk_iff h).1 hlaw.1
      have hself : (Block.mk proc.userBrkPoint size).Has proc.userBrkPoint.toNat := by
        have hpos : size.toNat ≠ 0 := fun he => h0 (BitVec.eq_of_toNat_eq he)
        exact ⟨Nat.le_refl _, by dsimp only; omega⟩
      rcases htaken with hlow | ⟨b, hb, hmem⟩
      · exact absurd (hin _ hself).1 (Nat.not_le.2 hlow)
      · exact hdisj b hb _ hself hmem

/-- The blocks fill the heap up to the break. -/
structure Filled (earlier : List Block) (proc : Pcb) : Prop where
  live : Live proc
  start_le : heapStart ≤ proc.userBrkPoint
  filled : ∀ a, (∃ b ∈ earlier, b.Has a) ↔ heapStart.toNat ≤ a ∧ a < proc.userBrkPoint.toNat

namespace Filled

theorem init (hb : proc.userBrkPoint = heapStart) : Filled [] proc where
  live := ⟨by rw [hb]; decide, by rw [hb]; decide⟩
  start_le := hb ▸ BitVec.le_refl _
  filled a := by simp [hb]

/-- The next block is right when it ends in the heap. -/
theorem callOk_iff (h : Filled earlier proc) (h0 : size ≠ 0) :
    CallOk earlier size proc ↔ proc.userBrkPoint.toNat + size.toNat ≤ heapTop.toNat := by
  have hpos : size.toNat ≠ 0 := fun he => h0 (BitVec.eq_of_toNat_eq he)
  have hstart : heapStart.toNat ≤ proc.userBrkPoint.toNat := h.start_le
  rw [Sbuos.callOk_iff h.live]
  constructor
  · rintro ⟨hin, -⟩
    have hlast : (Block.mk proc.userBrkPoint size).Has (proc.userBrkPoint.toNat + size.toNat - 1) :=
      ⟨by dsimp only; omega, by dsimp only; omega⟩
    have := (hin _ hlast).2
    omega
  · intro hle
    refine ⟨fun a ha => ⟨Nat.le_trans hstart ha.1, Nat.lt_of_lt_of_le ha.2 hle⟩, fun b hb a ha hab => ?_⟩
    have hbelow := ((h.filled a).1 ⟨b, hb, hab⟩).2
    exact absurd ha.1 (Nat.not_le.2 hbelow)

/-- A block of a size below 2^31 that ends before the top moves the break to its end. -/
theorem grow (h : Filled earlier proc) (hs : size.toNat < 2 ^ 31)
    (ht : proc.userBrkPoint.toNat + size.toNat < heapTop.toNat) :
    Filled (earlier ++ [⟨proc.userBrkPoint, size⟩]) (malloc size proc).2 ∧
      (malloc size proc).2.userBrkPoint.toNat = proc.userBrkPoint.toNat + size.toNat := by
  have hm := toNat_moved_of_small hs h.live.lt_top
  have hstart : heapStart.toNat ≤ proc.userBrkPoint.toNat := h.start_le
  have hpos : 0 < heapStart.toNat := by decide
  have hlt : moved size proc.userBrkPoint < heapTop := by
    rw [BitVec.lt_def, hm]; exact ht
  have hne : moved size proc.userBrkPoint ≠ 0 := by
    intro he
    rw [he] at hm
    simp at hm
    omega
  have hbrk : (malloc size proc).2.userBrkPoint = moved size proc.userBrkPoint := by
    rw [malloc_eq h.live]
    simp only [ge_iff_le, BitVec.not_le.2 hlt, hne, or_self, if_false]
  refine ⟨⟨malloc_live h.live size, ?_, fun a => ?_⟩, by rw [hbrk, hm]⟩
  · rw [hbrk, BitVec.le_def, hm]; omega
  · rw [hbrk, hm]
    simp only [List.mem_append, List.mem_singleton, or_and_right, exists_or, exists_eq_left, h.filled a]
    simp only [Block.Has]
    omega

/-- Any other block leaves the break where a block was already given out, or below the heap. -/
theorem taken (h : Filled earlier proc) (h0 : size ≠ 0)
    (hle : proc.userBrkPoint.toNat + size.toNat ≤ heapTop.toNat)
    (hbad : 2 ^ 31 ≤ size.toNat ∨ proc.userBrkPoint.toNat + size.toNat = heapTop.toNat) :
    Taken (earlier ++ [⟨proc.userBrkPoint, size⟩]) (malloc size proc).2.userBrkPoint := by
  have hpos : size.toNat ≠ 0 := fun he => h0 (BitVec.eq_of_toNat_eq he)
  have hnew : ∀ a, proc.userBrkPoint.toNat ≤ a → a < proc.userBrkPoint.toNat + size.toNat →
      ∃ b ∈ earlier ++ [⟨proc.userBrkPoint, size⟩], b.Has a := fun a hlo hhi =>
    ⟨_, List.mem_append_right _ List.mem_cons_self, hlo, hhi⟩
  rcases Nat.lt_or_ge size.toNat (2 ^ 31) with hs | hs
  · -- the last block of the heap: `brk` refuses and the break stays
    have htop := hbad.resolve_left (Nat.not_le.2 hs)
    have hmoved : (moved size proc.userBrkPoint).toNat = heapTop.toNat :=
      (toNat_moved_of_small hs h.live.lt_top).trans htop
    have hge : moved size proc.userBrkPoint ≥ heapTop := BitVec.le_def.2 (Nat.le_of_eq hmoved.symm)
    have hbrk : (malloc size proc).2.userBrkPoint = proc.userBrkPoint := by
      rw [malloc_eq h.live]
      simp only [hge, or_true, if_true]
    rw [hbrk]
    exact .inr (hnew _ (Nat.le_refl _) (by omega))
  · obtain ⟨hm0, hmlt⟩ := toNat_moved_of_large hs h.live.lt_top h.start_le
    have hne : moved size proc.userBrkPoint ≠ 0 := fun he => by simp [he] at hm0
    have hlt : moved size proc.userBrkPoint < heapTop := by
      rw [BitVec.lt_def]; omega
    have hbrk : (malloc size proc).2.userBrkPoint = moved size proc.userBrkPoint := by
      rw [malloc_eq h.live]
      simp only [ge_iff_le, BitVec.not_le.2 hlt, hne, or_self, if_false]
    rw [hbrk]
    by_cases hlow : moved size proc.userBrkPoint < heapStart
    · exact .inl hlow
    · have hlow' : heapStart.toNat ≤ (moved size proc.userBrkPoint).toNat := BitVec.not_lt.1 hlow
      refine .inr ?_
      rcases Nat.lt_or_ge (moved size proc.userBrkPoint).toNat proc.userBrkPoint.toNat with hold | hge
      · obtain ⟨b, hb, hin⟩ := (h.filled _).2 ⟨hlow', hold⟩
        exact ⟨b, List.mem_append_left _ hb, hin⟩
      · exact hnew _ hge hmlt

/-- The sequence from there on. -/
theorem heapLaw_iff : ∀ {sizes : List Word} {earlier : List Block} {proc : Pcb}, Filled earlier proc →
    (HeapLaw earlier proc sizes ↔
      proc.userBrkPoint.toNat + total sizes ≤ heapTop.toNat ∧ SmallBeforeLast sizes)
  | [], _, proc, h => by
    have : proc.userBrkPoint.toNat < heapTop.toNat := h.live.lt_top
    simp only [HeapLaw, total, SmallBeforeLast, and_true, true_iff]
    omega
  | size :: sizes, earlier, proc, h => by
    have htop : proc.userBrkPoint.toNat < heapTop.toNat := h.live.lt_top
    rw [heapLaw_cons h.live, SmallBeforeLast, total]
    by_cases h0 : size = 0
    · subst h0
      have hf : Filled (earlier ++ [⟨proc.userBrkPoint, 0⟩]) proc := by
        have hg := h.grow (show (0 : Word).toNat < 2 ^ 31 by decide) (by simpa using htop)
        rw [malloc_zero h.live] at hg
        exact hg.1
      rw [malloc_zero h.live, heapLaw_iff hf, and_iff_right (callOk_zero h.live)]
      simp
    · rw [h.callOk_iff h0]
      by_cases hmore : ∃ t ∈ sizes, t ≠ 0
      · have hpos := total_pos hmore
        by_cases hgood : size.toNat < 2 ^ 31 ∧ proc.userBrkPoint.toNat + size.toNat < heapTop.toNat
        · obtain ⟨hf, hbrk⟩ := h.grow hgood.1 hgood.2
          rw [heapLaw_iff hf, hbrk]
          constructor
          · rintro ⟨-, hsum, hsmall⟩
            exact ⟨by omega, fun _ => hgood.1, hsmall⟩
          · rintro ⟨hsum, -, hsmall⟩
            exact ⟨by omega, by omega, hsmall⟩
        · -- a block that fits but does not move the break to its end: the next one is wrong
          constructor
          · rintro ⟨hle, hlaw⟩
            have hbad : 2 ^ 31 ≤ size.toNat ∨ proc.userBrkPoint.toNat + size.toNat = heapTop.toNat := by
              omega
            exact absurd hlaw (not_heapLaw_of_taken (malloc_live h.live size) (h.taken h0 hle hbad) hmore)
          · rintro ⟨hsum, hsmall, -⟩
            exact absurd ⟨hsmall hmore, by omega⟩ hgood
      · have hzero : ∀ t ∈ sizes, t = 0 := fun t ht => by
          by_contra hne
          exact hmore ⟨t, ht, hne⟩
        have htz : total sizes = 0 := total_zeros hzero
        have hsmall : SmallBeforeLast sizes := smallBeforeLast_of_zeros hzero
        simp only [heapLaw_zeros (malloc_live h.live size) hzero, hmore, htz, hsmall, and_true, Nat.add_zero,
          false_implies]

end Filled

/-- **User heap**: from a fresh break, every call of the sequence fails cleanly or returns a block inside
the heap that overlaps no earlier one, exactly when the blocks fit in the heap as a whole and every size
but the last that is not 0 is below 2^31. -/
theorem user_heap_law (proc : Pcb) (hb : proc.userBrkPoint = heapStart) (sizes : List Word) :
    HeapLaw [] proc sizes ↔ total sizes ≤ heapTop.toNat - heapStart.toNat ∧ SmallBeforeLast sizes := by
  have hstart : heapStart.toNat ≤ heapTop.toNat := by decide
  rw [(Filled.init hb).heapLaw_iff, hb]
  refine and_congr_left fun _ => ?_
  omega

/-- Two small blocks. -/
theorem user_heap_law_two : HeapLaw [] (Pcb.fresh 1 0 0 default) [16, 32] :=
  (user_heap_law _ rfl [16, 32]).2 ⟨by decide, by simp [SmallBeforeLast]⟩

/-- A block of 4 GiB moves the break by nothing, and the next call returns its first byte again. -/
theorem user_heap_overlap : ¬HeapLaw [] (Pcb.fresh 1 0 0 default) [0x100000000, 1] := by
  rintro ⟨-, hsecond, -⟩
  rcases hsecond with ⟨hnull, -⟩ | ⟨-, -, hapart⟩
  · exact absurd hnull (by decide)
  · have hsecond : (Block.mk heapStart 1).Has heapStart.toNat := ⟨by decide, by decide⟩
    have hfirst : (Block.mk heapStart 0x100000000).Has heapStart.toNat := ⟨by decide, by decide⟩
    exact hapart _ List.mem_cons_self _ hsecond hfirst

end Sbuos
