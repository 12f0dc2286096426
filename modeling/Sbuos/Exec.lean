import Sbuos.Chdir
/-!
# Checking and loading a program (sys/systemcall.c:113-125, sys/tarfs.c:29-73, sys/exec.c:6-16)

`do_execve` looks the program up under `abspath`, records that path in `pname`, and `map_file` looks it up
again under `pname` when the process first runs. `pname` has 50 bytes and `wd` lies behind it: `kstrcpy`
with size 50 stores up to 51 characters and then no NUL, so what `map_file` reads of a longer path goes on
in `wd`.

**`exec_same_file`**: for which paths the two lookups find the same file and `wd` stays as it is.
-/
namespace Sbuos
open Lib

namespace Tarfs

/-- `check_elf` (exec.c:6-16). -/
def checkElf (t : Tarfs) (hdr : Word) : Int :=
  if hdr = 0 then 0
  else if t.mem hdr ≠ 0x7f ∨ t.mem (hdr + 1) ≠ 0x45 ∨ t.mem (hdr + 2) ≠ 0x4c ∨ t.mem (hdr + 3) ≠ 0x46 then 0
  else 1

/-- `search_file_for_exec` (tarfs.c:51-73). -/
def searchFileForExec (t : Tarfs) (fuel : Nat) (path : Nat → Byte) : Option Int :=
  t.tarWalk (skipSlash path) (fun p _ => if t.checkElf (p + 512) ≠ 0 then 1 else 0) 0 fuel 0

/-- `map_file` (tarfs.c:29-49), up to its call of `map_elf`: the header it passes, or that it returns 0. -/
def mapFile (t : Tarfs) (fuel : Nat) (path : Nat → Byte) : Option (Option Word) :=
  t.tarWalk (skipSlash path) (fun p _ => if t.checkElf (p + 512) ≠ 0 then some (p + 512) else none) none fuel 0

end Tarfs

/-- `do_execve` (systemcall.c:114-125) up to the `schedule()` in `process_exec`: the process as it leaves
it, with the stack pointer it computes, or that it returns 1. -/
def doExecve (t : Tarfs) (fuel : Nat) (g : PathBuf) (filename : Nat → Byte) (userSp : Word) (proc : Pcb) :
    Option (PathBuf × Option Pcb) := do
  let (abspath, tempPath) ← pathMerge fuel proc.wd filename g.abspath g.tempPath 100
  let g := { g with abspath := abspath, tempPath := tempPath }
  let found ← t.searchFileForExec fuel abspath
  if found ≠ 0 then some (g, some (proc.execs abspath userSp)) else some (g, none)

/-! ## The walk, once more -/

namespace Tarfs
variable {t : Tarfs} {α : Type} {found : Word → Word → α} {absent r : α} {path : Nat → Byte} {w w' : List Byte}
  {offset p : Word}

/-- The walk compares the path only if it is a string. -/
theorem spells_of_tarWalk {fuel : Nat} (h : t.tarWalk path found absent fuel offset = some r) (hr : r ≠ absent) :
    ∃ w, Spells path w := by
  cases fuel with
  | zero => cases h
  | succ fuel =>
    rw [Tarfs.tarWalk] at h
    split at h
    · obtain ⟨len, -, h⟩ := Option.bind_eq_some_iff.1 h
      split at h
      · cases h; exact absurd rfl hr
      · obtain ⟨d, hd, -⟩ := Option.bind_eq_some_iff.1 h
        obtain ⟨l1, -, hd⟩ := Option.bind_eq_some_iff.1 hd
        obtain ⟨l2, hl2, -⟩ := Option.bind_eq_some_iff.1 hd
        obtain ⟨w, hw, -⟩ := exists_spells_of_kstrlen hl2
        exact ⟨w, hw⟩
    · cases h; exact absurd rfl hr

/-- `map_file` gets to a header only under the name that lies there. -/
theorem spells_of_mapFile {fuel : Nat} (hp : Spells (t.view p) w) (h : t.mapFile fuel path = some (some (p + 512))) :
    Spells (skipSlash path) w := by
  obtain ⟨v, hv⟩ := spells_of_tarWalk h (Option.some_ne_none _)
  rcases visits_of_tarWalk hv h with ⟨-, p', hp', he⟩ | he
  · split at he
    · have hpp : p = p' := (BitVec.add_left_inj 512).1 (Option.some.inj he)
      subst hpp
      rwa [← hp'.spells.unique hp]
    · cases he
  · cases he

end Tarfs

/-! ## The name in `pname` -/

section exec
variable {t : Tarfs} {g g' : PathBuf} {filename abspath : Nat → Byte} {userSp : Word} {proc proc' : Pcb}
  {u name : List Byte}

theorem copyPname_text_of_le (hu : Spells abspath u) (h : u.length ≤ 50) :
    (proc.copyPname abspath).text = overwrite 0 (u ++ [0]) proc.text := by
  have hcopy : (proc.copyPname abspath).text = (kstrcpy proc.text abspath 50).1 := rfl
  rw [hcopy, hu.kstrcpy (by omega)]

/-- Of a longer path 51 characters are recorded, the last of them in `wd`. -/
theorem copyPname_text_of_lt (hu : Spells abspath u) (h : 50 < u.length) (i : Nat) :
    (proc.copyPname abspath).text i = if i ≤ 50 then abspath i else proc.text i := by
  have hcopy : (proc.copyPname abspath).text = (kstrcpy proc.text abspath (50 : Nat)).1 := rfl
  rw [hcopy, hu.kstrcpy_long (by omega)]
  dsimp only
  by_cases hi : i ≤ 50
  · rw [if_pos hi, overwrite_zero _ _ (by rw [List.length_take]; omega), List.getElem_take, hu.chars i (by omega)]
  · rw [if_neg hi, overwrite_of_le (by simp; omega)]

/-- A path of at most 50 characters is spelled by `pname`. -/
theorem copyPname_spells_of_le (hu : Spells abspath u) (h : u.length ≤ 50) :
    Spells (proc.copyPname abspath).pname u := by
  have htext : (proc.copyPname abspath).text = _ := copyPname_text_of_le hu h
  have hpname : (proc.copyPname abspath).pname = (proc.copyPname abspath).text := rfl
  rw [hpname, htext]
  exact spells_overwrite hu.ne_zero

theorem copyPname_wd_of_lt (hu : Spells abspath u) (h : u.length < 50) (i : Nat) :
    (proc.copyPname abspath).wd i = proc.wd i := by
  rw [Pcb.wd, copyPname_text_of_le hu (Nat.le_of_lt h), overwrite_of_le (by simp; omega), Pcb.wd]

/-- From 50 characters on, the copy reaches the first byte of `wd` and no further. -/
theorem copyPname_wd_of_le (hu : Spells abspath u) (h : 50 ≤ u.length) (i : Nat) :
    (proc.copyPname abspath).wd i = if i = 0 then abspath 50 else proc.wd i := by
  rcases Nat.eq_or_lt_of_le h with h50 | hlt
  · rw [Pcb.wd, copyPname_text_of_le hu (Nat.le_of_eq h50.symm)]
    by_cases hi : i = 0
    · have hspell : Spells (overwrite 0 (u ++ [0]) proc.text) u := spells_overwrite hu.ne_zero
      rw [if_pos hi, hi, Nat.add_zero, h50, hspell.nul, hu.nul]
    · rw [if_neg hi, overwrite_of_le (by simp; omega), Pcb.wd]
  · rw [Pcb.wd, copyPname_text_of_lt hu hlt]
    by_cases hi : i = 0
    · rw [if_pos (by omega), if_pos hi, hi]
    · rw [if_neg (by omega), if_neg hi, Pcb.wd]

/-- When the bytes behind go on as the path does, `pname` spells the path after all. -/
theorem copyPname_spells_of_wd (hu : Spells abspath u) (h : 50 < u.length) (hwd : Spells proc.wd (u.drop 50)) :
    Spells (proc.copyPname abspath).pname u where
  chars i hi := by
    rw [Pcb.pname, copyPname_text_of_lt hu h]
    split
    · exact hu.chars i hi
    · have := hwd.chars (i - 50) (by rw [List.length_drop]; omega)
      rw [Pcb.wd, List.getElem_drop] at this
      simp only [show 50 + (i - 50) = i by omega] at this
      exact this
  ne_zero := hu.ne_zero
  nul := by
    have := hwd.nul
    rw [Pcb.wd, List.length_drop, Nat.add_sub_cancel' (Nat.le_of_lt h)] at this
    rw [Pcb.pname, copyPname_text_of_lt hu h, if_neg (by omega)]
    exact this

/-- What `do_execve` does when it finds the file. -/
theorem doExecve_found (hu : Spells g'.abspath (slash :: name))
    (hex : Returns (fun fuel => doExecve t fuel g filename userSp proc) (g', some proc')) :
    proc' = proc.execs g'.abspath userSp ∧ name ≠ [] ∧ ∃ p, t.Visits name 0 p ∧ t.checkElf (p + 512) ≠ 0 := by
  obtain ⟨n, hn⟩ := hex
  have hok : doExecve t n g filename userSp proc = some (g', some proc') := hn n (Nat.le_refl n)
  obtain ⟨⟨abspath, tempPath⟩, -, hok⟩ := Option.bind_eq_some_iff.1 hok
  obtain ⟨found, hfound, hok⟩ := Option.bind_eq_some_iff.1 hok
  split at hok
  · rename_i hne
    cases hok
    refine ⟨rfl, ?_⟩
    rcases Tarfs.visits_of_tarWalk (Tarfs.spells_skipSlash hu) hfound with ⟨hname, p, hp, he⟩ | he
    · refine ⟨hname, p, hp, fun helf => hne ?_⟩
      rw [he, if_neg (not_not.2 helf)]
    · exact absurd he hne
  · cases hok

/-- A file that the walk comes to and that looks like a program is found. -/
theorem doExecve_finds {base rel w : List Byte} {p : Word} (name : List Byte) (hwd : Spells proc.wd base)
    (hf : Spells filename rel) (hw : merged base rel = slash :: w) (hlen : (slash :: w).length < 100)
    (hcount : (slash :: w).count slash ≤ 13) (hnt : normalText (slash :: w) = slash :: name) (hname : name ≠ [])
    (hp : t.Visits name 0 p) (helf : t.checkElf (p + 512) ≠ 0) (g : PathBuf) (userSp : Word) :
    ∃ g', Spells g'.abspath (slash :: name) ∧
      Returns (fun fuel => doExecve t fuel g filename userSp proc) (g', some (proc.execs g'.abspath userSp)) := by
  obtain ⟨abspath, temp', n, hmerge, hspell, -⟩ := pathMerge_spells hwd hf hw hlen hcount g
  rw [hnt] at hspell
  obtain ⟨m, hm⟩ := hp.tarWalk (fun p _ => if t.checkElf (p + 512) ≠ 0 then (1 : Int) else 0) 0
    (Tarfs.spells_skipSlash hspell) hname
  refine ⟨⟨g.before, abspath, temp'⟩, hspell, .of_le (max n m) fun fuel hf => ?_⟩
  have hfound : t.searchFileForExec fuel abspath = some 1 := by
    have := hm fuel (by omega)
    rwa [if_pos helf] at this
  unfold doExecve
  rw [hmerge fuel (by omega)]
  simp only [Option.bind_eq_bind, Option.bind_some, hfound]
  rfl

/-- **Exec checks and loads the same file**, and leaves `wd` alone, exactly for a path of at most 49
characters, and for a longer one that goes on from its 50th character on just as `wd` reads. -/
theorem exec_same_file (hu : Spells g'.abspath (slash :: name))
    (hex : Returns (fun fuel => doExecve t fuel g filename userSp proc) (g', some proc')) :
    ((∃ p, t.Visits name 0 p ∧ Returns (fun fuel => t.mapFile fuel proc'.pname) (some (p + 512))) ∧
        ∀ i < 50, proc'.wd i = proc.wd i) ↔
      (slash :: name).length ≤ 49 ∨ Spells proc.wd ((slash :: name).drop 50) := by
  obtain ⟨rfl, hname, p, hp, helf⟩ := doExecve_found hu hex
  have hpname : (proc.execs g'.abspath userSp).pname = (proc.copyPname g'.abspath).pname := rfl
  have hwd : (proc.execs g'.abspath userSp).wd = (proc.copyPname g'.abspath).wd := rfl
  rw [hpname, hwd]
  have hreach : Spells (proc.copyPname g'.abspath).pname (slash :: name) →
      ∃ p, t.Visits name 0 p ∧
        Returns (fun fuel => t.mapFile fuel (proc.copyPname g'.abspath).pname) (some (p + 512)) := by
    intro hspell
    have := hp.tarWalk (fun p _ => if t.checkElf (p + 512) ≠ 0 then some (p + 512) else none) none
      (Tarfs.spells_skipSlash hspell) hname
    rw [if_pos helf] at this
    exact ⟨p, hp, this⟩
  constructor
  · rintro ⟨⟨p, hp, n, hn⟩, hsame⟩
    rcases Nat.lt_or_ge (slash :: name).length 50 with hlt | hge
    · exact .inl (Nat.le_of_lt_succ hlt)
    · -- `map_file` found the file, so what it read of the path is the path
      have hmap : t.mapFile n (proc.copyPname g'.abspath).pname = some (some (p + 512)) := hn n (Nat.le_refl n)
      have hread := Tarfs.spells_of_mapFile hp.spells hmap
      have hbehind : ∀ i, (proc.copyPname g'.abspath).text (50 + i) = proc.wd i := fun i => by
        have hwd : (proc.copyPname g'.abspath).wd i = proc.wd i := by
          by_cases hi : i = 0
          · exact hsame i (by omega)
          · rw [copyPname_wd_of_le hu hge, if_neg hi]
        exact hwd
      refine .inr ⟨fun i hi => ?_, fun c hc => hu.ne_zero c (List.mem_of_mem_drop hc), ?_⟩
      · rw [List.length_drop, List.length_cons] at hi
        have := hread.chars (49 + i) (by omega)
        rw [← hbehind, List.getElem_drop]
        simp only [show 50 + i = 49 + i + 1 by omega, List.getElem_cons_succ]
        exact this
      · have := hread.nul
        rw [List.length_cons] at hge
        rw [← hbehind, List.length_drop, List.length_cons, show 50 + (name.length + 1 - 50) = name.length + 1 by omega]
        exact this
  · rintro (hle | hspell)
    · exact ⟨hreach (copyPname_spells_of_le hu (by omega)), fun i _ => copyPname_wd_of_lt hu (by omega) i⟩
    · rcases Nat.lt_or_ge (slash :: name).length 50 with hlt | hge
      · exact ⟨hreach (copyPname_spells_of_le hu (by omega)), fun i _ => copyPname_wd_of_lt hu hlt i⟩
      · have hfirst : g'.abspath 50 = proc.wd 0 := by
          rcases Nat.eq_or_lt_of_le hge with h50 | hlt
          · have h1 := hspell.nul
            rw [List.length_drop, ← h50] at h1
            rw [h1, h50, hu.nul]
          · have h1 := hspell.chars 0 (by rw [List.length_drop]; omega)
            rw [List.getElem_drop] at h1
            rw [h1, ← hu.chars 50 hlt]
        refine ⟨?_, fun i _ => ?_⟩
        · rcases Nat.eq_or_lt_of_le hge with h50 | hlt
          · exact hreach (copyPname_spells_of_le hu (Nat.le_of_eq h50.symm))
          · exact hreach (copyPname_spells_of_wd hu hlt hspell)
        · rw [copyPname_wd_of_le hu hge]
          split
          · rw [hfirst, ‹i = 0›]
          · rfl

end exec

/-- An archive whose first member is a program named by `n` times `b`. -/
def programArchive (n : Nat) : Tarfs where
  mem a :=
    if 0x1000 ≤ a.toNat ∧ a.toNat < 0x1000 + n then 0x62
    else if a = 0x1200 then 0x7f else if a = 0x1201 then 0x45 else if a = 0x1202 then 0x4c
    else if a = 0x1203 then 0x46 else 0
  tarStart := 0x1000
  tarEnd := 0x2000

theorem programArchive_visits {n : Nat} (hn : n < 100) :
    (programArchive n).Visits (List.replicate n 0x62) 0 0x1000 := by
  have hview : ∀ i, i < 100 → (programArchive n).view 0x1000 i = if i < n then 0x62 else 0 := by
    intro i hi
    have haddr : (0x1000 + BitVec.ofNat 64 i : Word).toNat = 0x1000 + i := by
      rw [BitVec.toNat_add, BitVec.toNat_ofNat]
      change (0x1000 + i % 2 ^ 64) % 2 ^ 64 = 0x1000 + i
      omega
    have hne : ∀ a : Word, 0x1200 ≤ a.toNat → (0x1000 + BitVec.ofNat 64 i : Word) ≠ a := fun a ha he => by
      rw [← he, haddr] at ha
      omega
    simp only [Tarfs.view, programArchive, haddr]
    rw [if_neg (hne 0x1200 (by decide)), if_neg (hne 0x1201 (by decide)), if_neg (hne 0x1202 (by decide)),
      if_neg (hne 0x1203 (by decide))]
    by_cases h : i < n
    · rw [if_pos ⟨by omega, by omega⟩, if_pos h]
    · rw [if_neg (by omega), if_neg h]
  have hname : Spells ((programArchive n).view 0x1000) (List.replicate n 0x62) := by
    refine ⟨fun i hi => ?_, fun c hc => ?_, ?_⟩
    · rw [List.length_replicate] at hi
      exact (hview i (by omega)).trans (by rw [if_pos hi, List.getElem_replicate])
    · rw [List.eq_of_mem_replicate hc]; decide
    · rw [List.length_replicate]
      exact (hview n hn).trans (if_neg (Nat.lt_irrefl n))
  have hfirst : (programArchive n).Visits (List.replicate n 0x62) 0 ((programArchive n).tarStart + 0) :=
    .here (show (0x1000 + 0 : Word) < 0x2000 by decide) hname
  exact hfirst

theorem programArchive_elf {n : Nat} (hn : n < 100) : (programArchive n).checkElf (0x1000 + 512) ≠ 0 := by
  have hbyte : ∀ a : Word, 0x1200 ≤ a.toNat → (programArchive n).mem a =
      if a = 0x1200 then 0x7f else if a = 0x1201 then 0x45 else if a = 0x1202 then 0x4c
      else if a = 0x1203 then 0x46 else 0 := fun a ha => if_neg (by omega)
  have h0 : (programArchive n).mem (0x1000 + 512) = 0x7f := (hbyte _ (by decide)).trans (by decide)
  have h1 : (programArchive n).mem (0x1000 + 512 + 1) = 0x45 := (hbyte _ (by decide)).trans (by decide)
  have h2 : (programArchive n).mem (0x1000 + 512 + 2) = 0x4c := (hbyte _ (by decide)).trans (by decide)
  have h3 : (programArchive n).mem (0x1000 + 512 + 3) = 0x46 := (hbyte _ (by decide)).trans (by decide)
  rw [Tarfs.checkElf, if_neg (by decide), h0, h1, h2, h3]
  decide

/-- `exec` of the program `b` in the root directory. -/
theorem exec_same_file_b : ∃ g' proc', Returns (fun fuel => doExecve (programArchive 1) fuel
        ⟨0, fun _ => 0, fun _ => 0⟩ (cString "b") 0 inRoot) (g', some proc') ∧
      (∃ p, (programArchive 1).Visits [0x62] 0 p ∧
        Returns (fun fuel => (programArchive 1).mapFile fuel proc'.pname) (some (p + 512))) ∧
      ∀ i < 50, proc'.wd i = inRoot.wd i := by
  have hb : Spells (cString "b") [0x62] := spells_cString rfl (by decide)
  obtain ⟨g', hu, hex⟩ := doExecve_finds (w := [0x62]) [0x62] inRoot_wd hb (by decide) (by decide)
    (by decide) (by decide) (by decide) (programArchive_visits (n := 1) (by decide))
    (programArchive_elf (by decide)) ⟨0, fun _ => 0, fun _ => 0⟩ 0
  exact ⟨g', _, hex, (exec_same_file hu hex).2 (.inl (by decide))⟩

/-- A program whose name has 50 characters: recording its path, one longer, puts the last of them over the
slash of the working directory. -/
theorem exec_overwrites_wd : ∃ filename g' proc', Returns (fun fuel => doExecve (programArchive 50) fuel
        ⟨0, fun _ => 0, fun _ => 0⟩ filename 0 inRoot) (g', some proc') ∧
      Spells g'.abspath (slash :: List.replicate 50 0x62) ∧
      proc'.wd 0 = 0x62 ∧ inRoot.wd 0 = slash := by
  have hb : Spells (overwrite 0 (List.replicate 50 0x62 ++ [0]) fun _ => 0) (List.replicate 50 0x62) :=
    spells_overwrite fun c hc => by rw [List.eq_of_mem_replicate hc]; decide
  obtain ⟨g', hu, hex⟩ := doExecve_finds (w := List.replicate 50 0x62) (List.replicate 50 0x62) inRoot_wd hb
    (by decide) (by decide) (by decide) (by decide) (by decide) (programArchive_visits (n := 50) (by decide))
    (programArchive_elf (by decide)) ⟨0, fun _ => 0, fun _ => 0⟩ 0
  refine ⟨_, g', _, hex, hu, ?_, inRoot_wd.chars 0 (by decide)⟩
  have hfirst : (inRoot.execs g'.abspath 0).wd 0 = g'.abspath 50 :=
    copyPname_wd_of_le hu (by decide) 0
  rw [hfirst, hu.chars 50 (by decide)]
  rfl

end Sbuos
