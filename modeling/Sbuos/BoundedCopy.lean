import Sbuos.PathBuffer
import Sbuos.ProcessList
/-!
# Copying a string into a buffer (sys/sysutil.c:9-17, sys/systemcall.c:20-25, sys/process_helpers.c:67-80, :171-281)

`kstrcpy` compares with `size` when a character has been stored, and not at all before it stores the NUL. Four
functions pass it the size of their buffer: `do_getcwd` that of the user's, the others the 50 of `pname` and `wd`.
Nowhere does the source lie in the buffer.

**`kstrcpy_bounded`**: the copy is a bounded one exactly when the string is shorter than the buffer.
-/
namespace Sbuos
open Lib

/-- `do_getcwd` (systemcall.c:20-25): the memory from `buffer` on, and the return value. -/
def doGetcwd (buffer size : Word) (proc : Pcb) (mem : Nat → Byte) : (Nat → Byte) × Word :=
  let (mem, i) := kstrcpy mem proc.wd (size.setWidth 32).toInt
  if i = -1 then (mem, 0) else (mem, buffer)

/-- A call of `kstrcpy` with the size of the buffer. -/
inductive KstrcpyCall
  | call (dest src : Nat → Byte) (size : Int)
  /-- systemcall.c:22, where the user's buffer is some memory. -/
  | getcwd (buffer size : Word) (hbuffer : buffer ≠ 0) (proc : Pcb) (mem : Nat → Byte)
  /-- process_helpers.c:280. -/
  | exec (abspath : Nat → Byte) (userSp : Word) (proc : Pcb)
  /-- process_helpers.c:183. -/
  | forkPname (parent child : Pcb)
  /-- process_helpers.c:184. -/
  | forkWd (parent : Pcb) (pml4 : Word) (child : Pcb)
  /-- process_helpers.c:75, for one of the entries that are filled. -/
  | psInfo (s : Sched) (size : Int) (buffer : Nat → Pspcb) (i : Nat)
    (hi : i < (Sched.reported s.pcbs s.queue size.toNat).length)

namespace KstrcpyCall

def size : KstrcpyCall → Int
  | call _ _ size => size
  | getcwd _ size _ _ _ => (size.setWidth 32).toInt
  | exec .. | forkPname .. | forkWd .. | psInfo .. => 50

def src : KstrcpyCall → Nat → Byte
  | call _ src _ => src
  | getcwd _ _ _ proc _ => proc.wd
  | exec abspath _ _ => abspath
  | forkPname parent _ => parent.pname
  | forkWd parent _ _ => parent.wd
  | psInfo s size _ i _ => (s.pcbs (Sched.reported s.pcbs s.queue size.toNat)[i]).pname

/-- The memory from the buffer on, before. -/
def old : KstrcpyCall → Nat → Byte
  | call dest _ _ => dest
  | getcwd _ _ _ _ mem => mem
  | exec _ _ proc => proc.text
  | forkPname _ child => child.text
  | forkWd parent _ child => (child.copyPname parent.pname).wd
  | psInfo _ _ buffer i _ => (buffer i).pname

/-- And after. -/
def new : KstrcpyCall → Nat → Byte
  | call dest src size => (kstrcpy dest src size).1
  | getcwd buffer size _ proc mem => (doGetcwd buffer size proc mem).1
  | exec abspath userSp proc => (proc.execs abspath userSp).text
  | forkPname parent child => (child.copyPname parent.pname).text
  | forkWd parent pml4 child => (Pcb.forked parent pml4 child).wd
  | psInfo s size buffer i _ =>
    match (s.getProcessInfo size buffer).result with
    | some (entries, _) => (entries i).pname
    | none => (buffer i).pname

/-- The call says that the string does not fit. -/
def Rejects : KstrcpyCall → Prop
  | getcwd buffer size _ proc mem => (doGetcwd buffer size proc mem).2 = 0
  | c => (kstrcpy c.old c.src c.size).2 = -1

/-- A bounded copy of `w`. -/
structure Bounded (c : KstrcpyCall) (w : List Byte) : Prop where
  writes : ∀ i ∈ kstrcpyStores c.src c.size (c.size.toNat + 1) 0, (i : Int) < c.size
  frame : ∀ i : Nat, c.size ≤ i → c.new i = c.old i
  spells : Spells c.new (w.take (c.size.toNat - 1))
  rejects : c.Rejects ↔ c.size ≤ w.length

end KstrcpyCall

/-! ## What is written -/

section stores
variable {src : Nat → Byte} {j : Nat}

/-- Bytes that the copy does not write stay. -/
theorem kstrcpyFrom_of_not_mem (size : Int) (turns i : Nat) (dest : Nat → Byte)
    (hj : j ∉ kstrcpyStores src size turns i) : (kstrcpyFrom src size turns i dest).1 j = dest j := by
  induction turns generalizing i dest with
  | zero => rfl
  | succ turns ih =>
    rw [kstrcpyStores] at hj
    rw [kstrcpyFrom]
    by_cases hend : src i = 0
    · rw [if_pos hend] at hj ⊢
      exact Function.update_of_ne (List.ne_of_not_mem_cons hj) _ _
    · rw [if_neg hend] at hj ⊢
      have hne := List.ne_of_not_mem_cons hj
      have hrest := List.not_mem_of_not_mem_cons hj
      dsimp only
      by_cases hsize : size ≤ i
      · rw [if_pos hsize]
        exact Function.update_of_ne hne _ _
      · rw [if_neg hsize] at hrest ⊢
        rw [ih (i + 1) _ hrest]
        exact Function.update_of_ne hne _ _

end stores

/-! ## The copy -/

namespace KstrcpyCall
variable {c : KstrcpyCall} {w : List Byte}

theorem new_eq (c : KstrcpyCall) : c.new = (kstrcpy c.old c.src c.size).1 := by
  cases c with
  | call dest src size => rfl
  | getcwd buffer size hbuffer proc mem =>
    rw [new, doGetcwd]
    dsimp only
    split <;> rfl
  | exec abspath userSp proc => rfl
  | forkPname parent child => rfl
  | forkWd parent pml4 child => exact Pcb.copyWd_wd
  | psInfo s size buffer i hi =>
    have hentry := Sched.fill_eq s.pcbs (Sched.reported s.pcbs s.queue size.toNat) 0 buffer hi
    rw [Nat.zero_add] at hentry
    rw [new, Sched.getProcessInfo_eq]
    dsimp only
    rw [hentry]
    rfl

theorem rejects_iff (c : KstrcpyCall) : c.Rejects ↔ (kstrcpy c.old c.src c.size).2 = -1 := by
  cases c with
  | getcwd buffer size hbuffer proc mem =>
    rw [Rejects, doGetcwd]
    dsimp only
    split
    · rename_i hret
      exact iff_of_true rfl hret
    · rename_i hret
      exact iff_of_false hbuffer hret
  | _ => exact Iff.rfl

/-- **Bounded copies**: those of strings that are shorter than the buffer. -/
theorem kstrcpy_bounded (h : Spells c.src w) (hsize : 1 ≤ c.size) : c.Bounded w ↔ w.length < c.size := by
  obtain ⟨n, hn⟩ : ∃ n : Nat, c.size = n := ⟨c.size.toNat, by omega⟩
  constructor
  · intro hb
    refine Int.not_le.1 fun hle => ?_
    -- the last byte of the buffer holds a character
    have hchar : c.new (n - 1) = c.src (n - 1) := by
      rw [new_eq, hn]
      exact kstrcpy_copies (fun k hk => h.apply_ne_zero (by omega)) (Nat.sub_le n 1) c.old
    have hnul := hb.spells.nul
    rw [hn, Int.toNat_natCast, List.length_take, Nat.min_eq_left (by omega), hchar] at hnul
    exact h.apply_ne_zero (by omega) hnul
  · intro hlt
    have hstores : kstrcpyStores c.src c.size (c.size.toNat + 1) 0 = List.range (w.length + 1) := by
      rw [hn, Int.toNat_natCast, h.kstrcpyStores, Nat.min_eq_left (by omega)]
    have hcopy := h.kstrcpy (Int.le_of_lt hlt) c.old
    refine ⟨fun i hi => ?_, fun i hi => ?_, ?_, ?_⟩
    · rw [hstores, List.mem_range] at hi
      omega
    · rw [new_eq]
      refine kstrcpyFrom_of_not_mem _ _ _ _ fun hmem => ?_
      rw [hstores, List.mem_range] at hmem
      omega
    · rw [new_eq, hcopy, List.take_of_length_le (by omega)]
      exact spells_overwrite h.ne_zero
    · rw [rejects_iff, hcopy]
      refine iff_of_false ?_ (Int.not_le.2 hlt)
      dsimp only
      omega

theorem kstrcpy_bounded_root :
    (getcwd 0x1000 2 (by decide) inRoot fun _ => 0).Bounded [slash] :=
  (kstrcpy_bounded (c := getcwd 0x1000 2 (by decide) inRoot fun _ => 0) inRoot_wd (by decide)).2 (by decide)

/-- With one byte there is no room for the NUL, which is stored behind it, and the call says nothing. -/
theorem kstrcpy_bounded_full : Spells (getcwd 0x1000 1 (by decide) inRoot fun _ => 0xff).src [slash] ∧
    ¬(getcwd 0x1000 1 (by decide) inRoot fun _ => 0xff).Bounded [slash] := by
  refine ⟨inRoot_wd, fun hb => ?_⟩
  have hframe := hb.frame 1 (by decide)
  exact absurd hframe (by decide)

end KstrcpyCall

end Sbuos
