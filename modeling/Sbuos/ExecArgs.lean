import Sbuos.Sysutil
import Sbuos.Lib.Run
import Mathlib.Logic.Function.Basic
import Mathlib.Data.List.GetD
/-!
# The arguments of a program (sys/process_helpers.c:287-306, crt/crt1.c:12-27)

`process_exec` pushes the two arrays on the new stack, from their ends on, and the number of arguments below
them; `_start` finds them there. The loop over `argv` begins at the NULL, the one over `envp` in front of it,
so what ends `envp` is whatever the stack page holds at its top.

Memory is seen in words; a store changes the word at its address. That is what the code does as long as the
arrays do not overlap the words it writes.

**`exec_args`**: for which arrays, and which contents of the page, `main` gets what `execve` was given.
-/
namespace Sbuos
open Lib

/-- `&p[i]` for a pointer to words. -/
def ptrAt (p : Word) (i : Nat) : Word := p + BitVec.ofNat 64 (8 * i)

/-- `for (; p[count]; ++count);` -/
def countPtrs (mem : Word → Word) (p : Word) : Nat → Nat → Option Nat
  | 0, _ => none
  | fuel + 1, count => if mem (ptrAt p count) = 0 then some count else countPtrs mem p fuel (count + 1)

/-- `for(; i>=0; --i){ sp--; *sp = p[i]; }`, with `i + 1` turns to go. -/
def pushPtrs (p : Word) : Nat → (Word → Word) × Word → (Word → Word) × Word
  | 0, s => s
  | i + 1, (mem, sp) => pushPtrs p i (Function.update mem (sp - 8) (mem (ptrAt p i)), sp - 8)

/-- A `uint64_t` made an `int`. -/
def toInt (n : Word) : Int := (n.setWidth 32).toInt

def stackTop : Word := 0x00006FFFFFFFFFF0

/-- The turns of the loop over `envp`, `int i = count - 1`, and of the one over `argv`, `i = count`. -/
def envpTurns (count : Nat) : Nat := (toInt (BitVec.ofNat 64 count - 1) + 1).toNat
def argvTurns (count : Nat) : Nat := (toInt (BitVec.ofNat 64 count) + 1).toNat

/-- The memory and `user_sp` that `process_exec` leaves (process_helpers.c:287-306). -/
def execStack (fuel : Nat) (argv envp : Word) (mem : Word → Word) : Option ((Word → Word) × Word) := do
  let count ← countPtrs mem envp fuel 0
  let (mem, sp) := pushPtrs envp (envpTurns count) (mem, stackTop)
  let count ← countPtrs mem argv fuel 0
  let (mem, sp) := pushPtrs argv (argvTurns count) (mem, sp)
  some (Function.update mem (sp - 8) (BitVec.ofNat 64 count), sp - 8)

/-- What `_start` passes to `main`. -/
structure MainArgs where
  argc : Int
  argv : Word
  envp : Word

/-- `_start` (crt1.c:12-27), with `&stack_top + 2` the stack pointer it is entered with. -/
def crtStart (mem : Word → Word) (userSp : Word) : MainArgs :=
  let argc := toInt (mem userSp)
  ⟨argc, ptrAt userSp 1, ptrAt userSp 2 + BitVec.ofInt 64 (8 * argc)⟩

/-- A NULL-terminated array of pointers lies at `p`. -/
structure PtrArray (mem : Word → Word) (p : Word) (ws : List Word) : Prop where
  ptrs : ∀ i (h : i < ws.length), mem (ptrAt p i) = ws[i]
  ne_zero : ∀ w ∈ ws, w ≠ 0
  null : mem (ptrAt p ws.length) = 0
  fits : p.toNat + 8 * (ws.length + 1) ≤ 2 ^ 64

/-- `main` gets these arguments and this environment. -/
structure Passed (mem : Word → Word) (userSp : Word) (args envs : List Word) : Prop where
  argc : (crtStart mem userSp).argc = args.length
  argv : ∀ i (h : i < args.length), mem (ptrAt (crtStart mem userSp).argv i) = args[i]
  argvNull : mem (ptrAt (crtStart mem userSp).argv args.length) = 0
  envp : ∀ i (h : i < envs.length), mem (ptrAt (crtStart mem userSp).envp i) = envs[i]
  envpNull : mem (ptrAt (crtStart mem userSp).envp envs.length) = 0

/-- Where the words written begin, for so many arguments and environment strings. -/
def lowestWritten (args envs : List Word) : Nat :=
  stackTop.toNat - 8 * (envpTurns envs.length + argvTurns args.length + 1)

/-- The array does not overlap the words written. -/
def ApartFrom (p : Word) (ws : List Word) (lowest : Nat) : Prop :=
  p.toNat + 8 * (ws.length + 1) ≤ lowest ∨ stackTop.toNat ≤ p.toNat

/-! ## Addresses and counts -/

section
variable {mem : Word → Word} {p sp : Word} {ws : List Word} {i k n lowest : Nat}

theorem toNat_ptrAt (h : p.toNat + 8 * i < 2 ^ 64) : (ptrAt p i).toNat = p.toNat + 8 * i := by
  rw [ptrAt, BitVec.toNat_add, BitVec.toNat_ofNat, Nat.mod_eq_of_lt (a := 8 * i) (by omega)]
  exact Nat.mod_eq_of_lt h

theorem ptrAt_ptrAt (i j : Nat) : ptrAt (ptrAt p i) j = ptrAt p (i + j) := by
  rw [ptrAt, ptrAt, ptrAt, BitVec.add_assoc, ← BitVec.ofNat_add, Nat.mul_add]

theorem toInt_le (n : Word) : toInt n ≤ n.toNat := by
  have h : (n.setWidth 32).toInt ≤ (n.setWidth 32).toNat := by
    rw [BitVec.toInt_eq_toNat_cond]
    split <;> omega
  have hmod : (n.setWidth 32).toNat ≤ n.toNat := by
    rw [BitVec.toNat_setWidth]
    exact Nat.mod_le _ _
  unfold toInt
  omega

theorem toInt_lt (n : Word) : toInt n < 2 ^ 31 := by
  have h : 2 * (n.setWidth 32).toInt < 2 ^ 32 := BitVec.two_mul_toInt_lt
  unfold toInt
  omega

theorem toInt_ofNat (h : n < 2 ^ 31) : toInt (BitVec.ofNat 64 n) = n := by
  unfold toInt
  rw [BitVec.setWidth_ofNat_of_le (by decide), BitVec.toInt_eq_toNat_of_lt] <;> rw [BitVec.toNat_ofNat] <;> omega

theorem argvTurns_eq (h : n < 2 ^ 31) : argvTurns n = n + 1 := by
  rw [argvTurns, toInt_ofNat h]
  omega

theorem argvTurns_le (h : n < 2 ^ 64) : argvTurns n ≤ n + 1 ∧ argvTurns n ≤ 2 ^ 31 := by
  have hle := toInt_le (BitVec.ofNat 64 n)
  have hlt := toInt_lt (BitVec.ofNat 64 n)
  rw [BitVec.toNat_ofNat, Nat.mod_eq_of_lt h] at hle
  unfold argvTurns
  omega

theorem envpTurns_succ (n : Nat) : envpTurns (n + 1) = argvTurns n := by
  rw [envpTurns, argvTurns, BitVec.ofNat_add]
  congr 3
  exact BitVec.add_sub_cancel ..

theorem envpTurns_eq (h : n ≤ 2 ^ 31) : envpTurns n = n := by
  cases n with
  | zero => rfl
  | succ n => rw [envpTurns_succ, argvTurns_eq (by omega)]

theorem envpTurns_le (h : n < 2 ^ 64) : envpTurns n ≤ n ∧ envpTurns n ≤ 2 ^ 31 := by
  cases n with
  | zero => exact ⟨Nat.le_refl _, by decide⟩
  | succ n =>
    rw [envpTurns_succ]
    exact argvTurns_le (by omega)

end

/-! ## The loops -/

section
variable {mem : Word → Word} {p sp : Word} {ws : List Word} {k lowest : Nat}

/-- An array's pointer below its end lies where it should. -/
theorem PtrArray.toNat_ptrAt (h : PtrArray mem p ws) {i : Nat} (hi : i ≤ ws.length) :
    (ptrAt p i).toNat = p.toNat + 8 * i := by
  have := h.fits
  exact Sbuos.toNat_ptrAt (by omega)

theorem PtrArray.countPtrs_from (h : PtrArray mem p ws) (k fuel i : Nat) (hk : i + k = ws.length) (hf : k < fuel) :
    countPtrs mem p fuel i = some ws.length := by
  induction k generalizing fuel i with
  | zero =>
    obtain ⟨fuel, rfl⟩ : ∃ f, fuel = f + 1 := ⟨fuel - 1, by omega⟩
    obtain rfl : i = ws.length := by omega
    rw [countPtrs, if_pos h.null]
  | succ k ih =>
    obtain ⟨fuel, rfl⟩ : ∃ f, fuel = f + 1 := ⟨fuel - 1, by omega⟩
    have hne : mem (ptrAt p i) ≠ 0 := by
      rw [h.ptrs i (by omega)]
      exact h.ne_zero _ (List.getElem_mem _)
    rw [countPtrs, if_neg hne]
    exact ih fuel (i + 1) (by omega) (by omega)

/-- The count of an array. -/
theorem PtrArray.countPtrs (h : PtrArray mem p ws) {fuel : Nat} (hf : ws.length < fuel) :
    Sbuos.countPtrs mem p fuel 0 = some ws.length :=
  h.countPtrs_from ws.length fuel 0 (Nat.zero_add _) hf

/-- What `k` turns push, with `k` entries of the array readable and apart from the words written: the entries in
order, and nothing else changes. -/
theorem pushPtrs_spec (k : Nat) (mem : Word → Word) (sp : Word) (hk : 8 * k ≤ sp.toNat)
    (hptr : ∀ i < k, (ptrAt p i).toNat + 8 ≤ sp.toNat - 8 * k ∨ sp.toNat ≤ (ptrAt p i).toNat) :
    (pushPtrs p k (mem, sp)).2.toNat = sp.toNat - 8 * k ∧
      (∀ i < k, (pushPtrs p k (mem, sp)).1 (ptrAt (pushPtrs p k (mem, sp)).2 i) = mem (ptrAt p i)) ∧
      ∀ a : Word, (a.toNat < sp.toNat - 8 * k ∨ sp.toNat ≤ a.toNat) → (pushPtrs p k (mem, sp)).1 a = mem a := by
  induction k generalizing mem sp with
  | zero => exact ⟨rfl, fun i hi => absurd hi (Nat.not_lt_zero i), fun a _ => rfl⟩
  | succ k ih =>
    have hsp : (sp - 8).toNat = sp.toNat - 8 := by
      have := sp.isLt
      bv_omega
    obtain ⟨hsp', hread, hframe⟩ := ih (Function.update mem (sp - 8) (mem (ptrAt p k))) (sp - 8) (by omega)
      fun i hi => by
        have := hptr i (by omega)
        omega
    rw [pushPtrs]
    generalize pushPtrs p k (Function.update mem (sp - 8) (mem (ptrAt p k)), sp - 8) = r at hsp' hread hframe ⊢
    have hother : ∀ a : Word, a.toNat ≠ sp.toNat - 8 → Function.update mem (sp - 8) (mem (ptrAt p k)) a = mem a := by
      intro a ha
      refine Function.update_of_ne (fun he => ha ?_) _ _
      rw [he, hsp]
    refine ⟨by omega, fun i hi => ?_, fun a ha => ?_⟩
    · by_cases hik : i = k
      · -- the word pushed first
        subst hik
        have hat : ptrAt r.2 i = sp - 8 := by
          apply BitVec.eq_of_toNat_eq
          have := sp.isLt
          rw [toNat_ptrAt (by omega), hsp', hsp]
          omega
        rw [hat, hframe _ (.inr (Nat.le_refl _)), Function.update_self]
      · rw [hread i (by omega)]
        have := hptr i hi
        exact hother _ (by omega)
    · rw [hframe a (by omega)]
      exact hother a (by omega)

/-- An array that lies apart from the words written is still there. -/
theorem PtrArray.of_frame {mem' : Word → Word} (h : PtrArray mem p ws) (hapart : ApartFrom p ws lowest)
    (hframe : ∀ a : Word, (a.toNat < lowest ∨ stackTop.toNat ≤ a.toNat) → mem' a = mem a) : PtrArray mem' p ws := by
  have hsame : ∀ i ≤ ws.length, mem' (ptrAt p i) = mem (ptrAt p i) := by
    intro i hi
    apply hframe
    rw [h.toNat_ptrAt hi]
    unfold ApartFrom at hapart
    omega
  refine ⟨fun i hi => ?_, h.ne_zero, ?_, h.fits⟩
  · rw [hsame i (by omega)]
    exact h.ptrs i hi
  · rw [hsame _ (Nat.le_refl _)]
    exact h.null

end

/-! ## The stack that is left -/

section
variable {mem : Word → Word} {argv envp : Word} {args envs : List Word}

/-- The words written, from `sp` up to `stackTop`. -/
structure Written (mem mem' : Word → Word) (sp argv envp : Word) (args envs : List Word) : Prop where
  sp_eq : sp.toNat = lowestWritten args envs
  count : mem' sp = BitVec.ofNat 64 args.length
  argv : ∀ i < argvTurns args.length, mem' (ptrAt sp (1 + i)) = mem (ptrAt argv i)
  envp : ∀ i < envpTurns envs.length, mem' (ptrAt sp (1 + argvTurns args.length + i)) = mem (ptrAt envp i)
  above : ∀ a : Word, stackTop.toNat ≤ a.toNat → mem' a = mem a

theorem turns_bound (hargs : PtrArray mem argv args) (henvs : PtrArray mem envp envs) :
    envpTurns envs.length ≤ envs.length ∧ argvTurns args.length ≤ args.length + 1 ∧
      8 * (envpTurns envs.length + argvTurns args.length + 1) ≤ stackTop.toNat := by
  have hfits := hargs.fits
  have hfits' := henvs.fits
  obtain ⟨ha, ha'⟩ := argvTurns_le (n := args.length) (by omega)
  obtain ⟨he, he'⟩ := envpTurns_le (n := envs.length) (by omega)
  refine ⟨he, ha, ?_⟩
  have htop : stackTop.toNat = 0x6FFFFFFFFFF0 := rfl
  omega

/-- `process_exec` returns, and leaves the stack so. -/
theorem execStack_written (hargs : PtrArray mem argv args) (henvs : PtrArray mem envp envs)
    (hapart : ApartFrom argv args (lowestWritten args envs))
    (hapart' : ApartFrom envp envs (lowestWritten args envs)) :
    ∃ mem' sp, Returns (fun fuel => execStack fuel argv envp mem) (mem', sp) ∧
      Written mem mem' sp argv envp args envs := by
  obtain ⟨hk, ha, hbound⟩ := turns_bound hargs henvs
  have hlow : lowestWritten args envs = stackTop.toNat - 8 * (envpTurns envs.length + argvTurns args.length + 1) := rfl
  have htop := stackTop.isLt
  -- the environment
  have henvp := pushPtrs_spec (p := envp) (envpTurns envs.length) mem stackTop (by omega) fun i hi => by
    rw [henvs.toNat_ptrAt (by omega)]
    unfold ApartFrom at hapart'
    omega
  rcases hr : pushPtrs envp (envpTurns envs.length) (mem, stackTop) with ⟨mem1, sp1⟩
  rw [hr] at henvp
  obtain ⟨hsp1, hread1, hframe1⟩ := henvp
  -- the arguments, which are still there
  have hargs1 : PtrArray mem1 argv args := hargs.of_frame hapart fun a hout => hframe1 a (by omega)
  have hargv := pushPtrs_spec (p := argv) (argvTurns args.length) mem1 sp1 (by dsimp only at hsp1; omega) fun i hi => by
    rw [hargs.toNat_ptrAt (by omega)]
    unfold ApartFrom at hapart
    dsimp only at hsp1
    omega
  rcases hr' : pushPtrs argv (argvTurns args.length) (mem1, sp1) with ⟨mem2, sp2⟩
  rw [hr'] at hargv
  obtain ⟨hsp2, hread2, hframe2⟩ := hargv
  dsimp only at hsp1 hread1 hframe1 hsp2 hread2 hframe2
  refine ⟨Function.update mem2 (sp2 - 8) (BitVec.ofNat 64 args.length), sp2 - 8,
    .of_le (max args.length envs.length + 1) fun fuel hf => ?_, ?_⟩
  · unfold execStack
    rw [henvs.countPtrs (by omega)]
    simp only [Option.bind_eq_bind, Option.bind_some, hr, hargs1.countPtrs (show args.length < fuel by omega), hr']
  · have hsp : (sp2 - 8).toNat = sp2.toNat - 8 := by bv_omega
    have hptr : ∀ i ≤ argvTurns args.length + envpTurns envs.length,
        (ptrAt (sp2 - 8) (1 + i)).toNat = sp2.toNat + 8 * i := by
      intro i hi
      rw [toNat_ptrAt (by omega)]
      omega
    have hother : ∀ a : Word, sp2.toNat ≤ a.toNat →
        Function.update mem2 (sp2 - 8) (BitVec.ofNat 64 args.length) a = mem2 a := by
      intro a ha
      refine Function.update_of_ne (fun he => ?_) _ _
      rw [he] at ha
      omega
    refine ⟨by omega, Function.update_self .., fun i hi => ?_, fun i hi => ?_, fun a ha => ?_⟩
    · have hat : ptrAt (sp2 - 8) (1 + i) = ptrAt sp2 i := by
        apply BitVec.eq_of_toNat_eq
        rw [hptr i (by omega), toNat_ptrAt (by omega)]
      rw [hother _ (by rw [hptr i (by omega)]; omega), hat, hread2 i hi]
      apply hframe1
      rw [hargs.toNat_ptrAt (by omega)]
      unfold ApartFrom at hapart
      omega
    · have hat : ptrAt (sp2 - 8) (1 + argvTurns args.length + i) = ptrAt sp1 i := by
        apply BitVec.eq_of_toNat_eq
        rw [Nat.add_assoc, hptr _ (by omega), toNat_ptrAt (by omega)]
        omega
      rw [hat, hother _ (by rw [toNat_ptrAt (by omega)]; omega), hframe2 _ (by rw [toNat_ptrAt (by omega)]; omega)]
      exact hread1 i hi
    · rw [hother a (by omega), hframe2 a (by omega)]
      exact hframe1 a (.inr ha)

/-- Entry `j`, the NULL at the end included. -/
theorem PtrArray.getD (h : PtrArray mem argv args) {j : Nat} (hj : j ≤ args.length) :
    mem (ptrAt argv j) = args.getD j 0 := by
  rcases Nat.lt_or_eq_of_le hj with hlt | rfl
  · rw [h.ptrs j hlt, List.getD_eq_getElem _ _ hlt]
  · rw [h.null, List.getD_eq_default _ _ (Nat.le_refl _)]

/-- Where `_start` looks for `envp`. -/
theorem crtStart_envp {mem' : Word → Word} {sp : Word} (hn : args.length < 2 ^ 31)
    (hcount : mem' sp = BitVec.ofNat 64 args.length) :
    (crtStart mem' sp).envp = ptrAt sp (1 + argvTurns args.length) := by
  change ptrAt sp 2 + BitVec.ofInt 64 (8 * toInt (mem' sp)) = _
  have hcast : BitVec.ofInt 64 (8 * (args.length : Int)) = BitVec.ofNat 64 (8 * args.length) := by
    rw [← BitVec.ofInt_natCast, Int.natCast_mul]
    rfl
  rw [hcount, toInt_ofNat hn, hcast, argvTurns_eq hn]
  change ptrAt (ptrAt sp 2) args.length = _
  rw [ptrAt_ptrAt, show 2 + args.length = 1 + (args.length + 1) by omega]

/-- What `main` gets is right as far as what lies above the words written continues the environment. -/
theorem Written.passed_iff {mem' : Word → Word} {sp : Word} (hw : Written mem mem' sp argv envp args envs)
    (hargs : PtrArray mem argv args) (henvs : PtrArray mem envp envs)
    (hapart' : ApartFrom envp envs (lowestWritten args envs)) (hn : args.length < 2 ^ 31) :
    Passed mem' sp args envs ↔ ∀ j ≤ envs.length, envpTurns envs.length ≤ j →
      mem (ptrAt stackTop (j - envpTurns envs.length)) = envs.getD j 0 := by
  obtain ⟨hk, -, hbound⟩ := turns_bound hargs henvs
  have hstart := crtStart_envp hn hw.count
  have hturns := argvTurns_eq hn
  have hfits := henvs.fits
  -- the words from `stackTop` on are not written
  have habove : ∀ j ≤ envs.length, envpTurns envs.length ≤ j →
      mem' (ptrAt (ptrAt sp (1 + argvTurns args.length)) j) = mem (ptrAt stackTop (j - envpTurns envs.length)) := by
    intro j hj hkj
    have hsp : sp.toNat = stackTop.toNat - 8 * (envpTurns envs.length + argvTurns args.length + 1) := hw.sp_eq
    have htop : stackTop.toNat + 8 * j < 2 ^ 64 := by
      unfold ApartFrom lowestWritten at hapart'
      have : stackTop.toNat = 0x6FFFFFFFFFF0 := rfl
      omega
    have hat : ptrAt (ptrAt sp (1 + argvTurns args.length)) j = ptrAt stackTop (j - envpTurns envs.length) := by
      apply BitVec.eq_of_toNat_eq
      rw [ptrAt_ptrAt, toNat_ptrAt (by omega), toNat_ptrAt (by omega)]
      omega
    rw [hat]
    apply hw.above
    rw [toNat_ptrAt (by omega)]
    omega
  have hbelow : ∀ j < envpTurns envs.length,
      mem' (ptrAt (ptrAt sp (1 + argvTurns args.length)) j) = envs.getD j 0 := by
    intro j hj
    rw [ptrAt_ptrAt, hw.envp j hj]
    exact henvs.getD (by omega)
  have hargvs : ∀ i ≤ args.length, mem' (ptrAt (ptrAt sp 1) i) = args.getD i 0 := by
    intro i hi
    rw [ptrAt_ptrAt, hw.argv i (by omega)]
    exact hargs.getD hi
  constructor
  · intro h j hj hkj
    rw [← habove j hj hkj, ← hstart]
    rcases Nat.lt_or_eq_of_le hj with hlt | rfl
    · rw [h.envp j hlt, List.getD_eq_getElem _ _ hlt]
    · rw [h.envpNull, List.getD_eq_default _ _ (Nat.le_refl _)]
  · intro h
    have henv : ∀ j ≤ envs.length, mem' (ptrAt (crtStart mem' sp).envp j) = envs.getD j 0 := by
      intro j hj
      rw [hstart]
      by_cases hkj : envpTurns envs.length ≤ j
      · rw [habove j hj hkj]
        exact h j hj hkj
      · exact hbelow j (Nat.not_le.1 hkj)
    refine ⟨?_, fun i hi => ?_, ?_, fun i hi => ?_, ?_⟩
    · change toInt (mem' sp) = _
      rw [hw.count, toInt_ofNat hn]
    · exact (hargvs i (Nat.le_of_lt hi)).trans (List.getD_eq_getElem _ _ hi)
    · exact (hargvs _ (Nat.le_refl _)).trans (List.getD_eq_default _ _ (Nat.le_refl _))
    · exact (henv i (Nat.le_of_lt hi)).trans (List.getD_eq_getElem _ _ hi)
    · exact (henv _ (Nat.le_refl _)).trans (List.getD_eq_default _ _ (Nat.le_refl _))

/-- **Argument passing**: `process_exec` returns, and `main` gets the arrays passed exactly when there are fewer
than 2^31 arguments and the word at `stackTop` was 0 before. From 2^31 + 1 environment strings on `int i` does
not hold their number, and the words from `stackTop` on have to be the strings left out and the NULL. -/
theorem exec_args (hargs : PtrArray mem argv args) (henvs : PtrArray mem envp envs)
    (hapart : ApartFrom argv args (lowestWritten args envs))
    (hapart' : ApartFrom envp envs (lowestWritten args envs)) :
    ∃ mem' sp, Returns (fun fuel => execStack fuel argv envp mem) (mem', sp) ∧
      (Passed mem' sp args envs ↔ args.length < 2 ^ 31 ∧ (envs.length ≤ 2 ^ 31 → mem stackTop = 0) ∧
        (2 ^ 31 < envs.length → ∀ j ≤ envs.length, envpTurns envs.length ≤ j →
          mem (ptrAt stackTop (j - envpTurns envs.length)) = envs.getD j 0)) := by
  obtain ⟨mem', sp, hret, hw⟩ := execStack_written hargs henvs hapart hapart'
  refine ⟨mem', sp, hret, ?_⟩
  by_cases hn : args.length < 2 ^ 31
  · rw [hw.passed_iff hargs henvs hapart' hn]
    by_cases hm : envs.length ≤ 2 ^ 31
    · -- all strings are pushed, and only the NULL is left
      have hturns := envpTurns_eq hm
      have hzero : ptrAt stackTop 0 = stackTop := rfl
      rw [hturns]
      constructor
      · intro h
        refine ⟨hn, fun _ => ?_, fun hgt => absurd hm (Nat.not_le.2 hgt)⟩
        have := h envs.length (Nat.le_refl _) (Nat.le_refl _)
        rwa [Nat.sub_self, hzero, List.getD_eq_default _ _ (Nat.le_refl _)] at this
      · rintro ⟨-, htop, -⟩ j hj hkj
        obtain rfl : j = envs.length := Nat.le_antisymm hj hkj
        rw [Nat.sub_self, hzero, List.getD_eq_default _ _ (Nat.le_refl _)]
        exact htop hm
    · have hgt := Nat.not_le.1 hm
      exact ⟨fun h => ⟨hn, fun hle => absurd hle hm, fun _ => h⟩, fun h => h.2.2 hgt⟩
  · refine iff_of_false (fun h => hn ?_) fun h => hn h.1
    have hargc := h.argc
    have hlt := toInt_lt (mem' sp)
    change toInt (mem' sp) = _ at hargc
    omega

end

/-- Two arguments, at 0x1000, and one environment string, at 0x2000. -/
def twoArgs (a : Word) : Word :=
  if a = 0x1000 then 0x5000 else if a = 0x1008 then 0x5010 else if a = 0x2000 then 0x6000 else 0

theorem twoArgs_argv : PtrArray twoArgs 0x1000 [0x5000, 0x5010] where
  ptrs i hi := by
    rcases i with _ | _ | i
    · rfl
    · rfl
    · exact absurd hi (by simp)
  ne_zero := by simp
  null := rfl
  fits := by decide

theorem twoArgs_envp : PtrArray twoArgs 0x2000 [0x6000] where
  ptrs i hi := by
    obtain rfl : i = 0 := by simpa using hi
    rfl
  ne_zero := by simp
  null := rfl
  fits := by decide

/-- On a fresh page, `main` gets them. -/
theorem exec_args_two :
    ∃ mem' sp, Returns (fun fuel => execStack fuel 0x1000 0x2000 twoArgs) (mem', sp) ∧
      Passed mem' sp [0x5000, 0x5010] [0x6000] := by
  obtain ⟨mem', sp, hret, hiff⟩ := exec_args twoArgs_argv twoArgs_envp (.inl (by decide)) (.inl (by decide))
  exact ⟨mem', sp, hret, hiff.2 ⟨by decide, fun _ => rfl, fun h => absurd h (by decide)⟩⟩

/-- One argument, at 0x1000, and no environment, at 0x2000; at the top of the stack lies `top`. -/
def oneArg (top a : Word) : Word := if a = 0x1000 then 0x5000 else if a = stackTop then top else 0

theorem oneArg_argv (top : Word) : PtrArray (oneArg top) 0x1000 [0x5000] where
  ptrs i hi := by
    obtain rfl : i = 0 := by simpa using hi
    rfl
  ne_zero w hw := by
    rw [List.mem_singleton.1 hw]
    decide
  null := rfl
  fits := by decide

theorem oneArg_envp (top : Word) : PtrArray (oneArg top) 0x2000 [] where
  ptrs i hi := absurd hi (Nat.not_lt_zero i)
  ne_zero w hw := absurd hw List.not_mem_nil
  null := rfl
  fits := by decide

/-- With a stale word at the top of the page, `main` gets an environment that nobody passed. -/
theorem exec_args_stale :
    ∃ mem' sp, Returns (fun fuel => execStack fuel 0x1000 0x2000 (oneArg 1)) (mem', sp) ∧
      ¬Passed mem' sp [0x5000] [] := by
  obtain ⟨mem', sp, hret, hw⟩ := execStack_written (oneArg_argv 1) (oneArg_envp 1) (.inl (by decide)) (.inl (by decide))
  refine ⟨mem', sp, hret, fun h => ?_⟩
  rw [hw.passed_iff (oneArg_argv 1) (oneArg_envp 1) (.inl (by decide)) (by decide)] at h
  have := h 0 (Nat.le_refl _) (Nat.le_refl _)
  exact absurd this (by decide)

end Sbuos
