import Sbuos.Path
import Sbuos.Archive
/-!
# Changing to and opening a directory (sys/systemcall.c:113-174)

Both calls merge the path, put a slash at its end and look the result up. `do_chdir` appends the slash
in any case, so the root spelled `/` becomes `//`; `do_open` first looks at the last character, which for
the empty spelling of the root is the byte in front of `abspath`.

`Tarfs.Visits` says which header the walk comes to, whatever lies in the archive.

**`chdir_open_agree`**: for which paths the two calls agree with each other and with the archive.
-/
namespace Sbuos
open Lib

/-- `abspath` (systemcall.c:113), the byte in front of it, and `temp_path` (sysutil.c:47). -/
structure PathBuf where
  before : Byte
  abspath : Nat → Byte
  tempPath : Nat → Byte

/-- `kstrcpy(proc->wd, src, 100)`. -/
def Pcb.withWd (src : Nat → Byte) (p : Pcb) : Pcb :=
  { p with text := fun i => if i < 50 then p.text i else (kstrcpy p.wd src 100).1 (i - 50) }

/-- The same. From byte 104 of `text` on lie `waiting_on_pid` and the fields behind it, which a `Pcb` keeps apart: a
copy that does not end before them leaves none. -/
def Pcb.changeWd (src : Nat → Byte) (p : Pcb) : Option Pcb :=
  (kstrlen 54 src).map fun _ => p.withWd src

theorem Pcb.changeWd_eq {src : Nat → Byte} {w : List Byte} (hs : Spells src w) (hlen : w.length < 54) (p : Pcb) :
    p.changeWd src = some (p.withWd src) := by
  rw [changeWd, hs.kstrlen hlen]
  rfl

theorem Pcb.eq_of_changeWd {src : Nat → Byte} {p p' : Pcb} (h : p.changeWd src = some p') : p' = p.withWd src := by
  obtain ⟨l, -, rfl⟩ := Option.map_eq_some_iff.1 h
  rfl

/-- `do_chdir` (systemcall.c:127-139): the path buffers, the process and the answer. -/
def doChdir (t : Tarfs) (fuel : Nat) (g : PathBuf) (dirname : Nat → Byte) (proc : Pcb) :
    Option (PathBuf × Option Pcb × Word) := do
  let (abspath, tempPath) ← pathMerge fuel proc.wd dirname g.abspath g.tempPath 100
  let l ← kstrlen fuel abspath
  let abspath := Function.update (Function.update abspath l slash) (l + 1) 0
  let g := { g with abspath := abspath, tempPath := tempPath }
  let d ← kstrcmp fuel abspath (cString "/")
  let found ← if d = 0 then some 1 else t.searchForDir fuel abspath
  if found ≠ 0 then some (g, proc.changeWd abspath, 0) else some (g, some proc, 1)

/-- `O_RDONLY` and `O_DIRECTORY` (tarfs.h). -/
def oRdonly : Word := 0
def oDirectory : Word := 0x10000

/-- The directory branch of `do_open`, once the slash is there (systemcall.c:165-167, 173). -/
def openDirectory (t : Tarfs) (fuel : Nat) (g : PathBuf) (proc : Pcb) : Option (PathBuf × Pcb × Word) := do
  let d ← kstrcmp fuel g.abspath (cString "/")
  let found ← if d = 0 then some 1 else t.searchForDir fuel g.abspath
  if found ≠ 0 then
    let (proc, fd) ← t.doOpenDir fuel proc g.abspath
    some (g, proc, BitVec.ofInt 64 fd)
  else some (g, proc, -1)

/-- `do_open` (systemcall.c:150-174); in another mode it loops forever. -/
def doOpen (t : Tarfs) (fuel : Nat) (g : PathBuf) (path : Nat → Byte) (mode : Word) (proc : Pcb) :
    Option (PathBuf × Pcb × Word) := do
  let (abspath, tempPath) ← pathMerge fuel proc.wd path g.abspath g.tempPath 100
  if mode = oRdonly then
    let g := { g with abspath := abspath, tempPath := tempPath }
    let found ← t.searchFileOpen fuel abspath
    if found ≠ 0 then
      let (proc, fd) ← t.doOpenFile fuel proc abspath
      some (g, proc, BitVec.ofInt 64 fd)
    else some (g, proc, -1)
  else if mode = oDirectory then
    let l ← kstrlen fuel abspath
    let last := if l = 0 then g.before else abspath (l - 1)
    let abspath := if last ≠ slash then Function.update (Function.update abspath l slash) (l + 1) 0 else abspath
    openDirectory t fuel { g with abspath := abspath, tempPath := tempPath } proc
  else none

/-! ## Where the walk comes to -/

namespace Tarfs

/-- The walk for the name `w`, at `offset`, comes to the header `p` of that name: the headers before it
have other names, none of them empty. -/
inductive Visits (t : Tarfs) (w : List Byte) : Word → Word → Prop
  | here {offset : Word} : t.tarStart + offset < t.tarEnd → Spells (t.view (t.tarStart + offset)) w →
      Visits t w offset (t.tarStart + offset)
  | next {offset p : Word} {w' : List Byte} : t.tarStart + offset < t.tarEnd →
      Spells (t.view (t.tarStart + offset)) w' → w' ≠ [] → w' ≠ w → Visits t w (t.nextOffset offset) p →
      Visits t w offset p

/-- A zero-size member of this name is what the walk for it comes to. -/
def DirAt (t : Tarfs) (w : List Byte) : Prop := ∃ p, t.Visits w 0 p ∧ t.headerSize p = 0

variable {t : Tarfs} {α : Type} {found : Word → Word → α} {absent : α} {path : Nat → Byte} {w : List Byte}
  {offset p : Word}

theorem Visits.spells (h : t.Visits w offset p) : Spells (t.view p) w := by
  induction h with
  | here _ hs => exact hs
  | next _ _ _ _ _ ih => exact ih

theorem Visits.tarWalk (h : t.Visits w offset p) (found : Word → Word → α) (absent : α) (hw : Spells path w)
    (hne : w ≠ []) :
    Returns (fun fuel => t.tarWalk path found absent fuel offset) (found p (t.headerSize p)) := by
  induction h with
  | here hlt hs =>
    refine .of_le (w.length + 1) fun fuel hf => ?_
    obtain ⟨fuel, rfl⟩ : ∃ f, fuel = f + 1 := ⟨fuel - 1, by omega⟩
    obtain ⟨d, hd, hd0⟩ := hs.kstrcmp hw (show w.length < fuel + 1 by omega) (by omega)
    have hlen : w.length ≠ 0 := mt List.length_eq_zero_iff.1 hne
    rw [Tarfs.tarWalk, if_pos hlt, hs.kstrlen (by omega)]
    simp only [Option.bind_eq_bind, Option.bind_some, if_neg hlen, hd, if_pos (hd0.2 rfl)]
  | @next offset p w' hlt hs hne' hother _ ih =>
    obtain ⟨n, hn⟩ := ih
    refine .of_le (max n (max w.length w'.length) + 1) fun fuel hf => ?_
    obtain ⟨fuel, rfl⟩ : ∃ f, fuel = f + 1 := ⟨fuel - 1, by omega⟩
    obtain ⟨d, hd, hd0⟩ := hs.kstrcmp hw (show w'.length < fuel + 1 by omega) (by omega)
    have hlen : w'.length ≠ 0 := mt List.length_eq_zero_iff.1 hne'
    rw [Tarfs.tarWalk, if_pos hlt, hs.kstrlen (by omega)]
    simp only [Option.bind_eq_bind, Option.bind_some, if_neg hlen, hd, if_neg fun h0 => hother (hd0.1 h0)]
    exact hn fuel (by omega)

/-- Every result of the walk is its answer for the header it comes to, or `absent`. -/
theorem visits_of_tarWalk {fuel : Nat} {r : α} (hw : Spells path w)
    (h : t.tarWalk path found absent fuel offset = some r) :
    (w ≠ [] ∧ ∃ p, t.Visits w offset p ∧ r = found p (t.headerSize p)) ∨ r = absent := by
  induction fuel generalizing offset with
  | zero => cases h
  | succ fuel ih =>
    rw [Tarfs.tarWalk] at h
    split at h
    · rename_i hlt
      obtain ⟨len, hlen, h⟩ := Option.bind_eq_some_iff.1 h
      obtain ⟨w', hs, rfl⟩ := exists_spells_of_kstrlen hlen
      split at h
      · cases h; exact .inr rfl
      · rename_i hne
        have hne : w' ≠ [] := fun he => hne (by rw [he]; rfl)
        obtain ⟨d, hd, h⟩ := Option.bind_eq_some_iff.1 h
        have hsame := hs.kstrcmp_eq_zero hw hd
        split at h
        · rename_i hd0
          cases h
          obtain rfl := hsame.1 hd0
          exact .inl ⟨hne, _, .here hlt hs, rfl⟩
        · rename_i hd0
          rcases ih h with ⟨hwne, p, hp, hr⟩ | hr
          · exact .inl ⟨hwne, p, .next hlt hs hne (mt hsame.2 hd0) hp, hr⟩
          · exact .inr hr
    · cases h; exact .inr rfl

/-- The search for a directory finds what the walk comes to. -/
theorem dirAt_of_searchForDir {fuel : Nat} {r : Int} (hw : Spells (skipSlash path) w)
    (h : t.searchForDir fuel path = some r) (hr : r ≠ 0) : t.DirAt w := by
  rcases visits_of_tarWalk hw h with ⟨-, p, hp, rfl⟩ | rfl
  · refine ⟨p, hp, ?_⟩
    by_contra hsize
    exact hr (if_neg hsize)
  · exact absurd rfl hr

theorem DirAt.searchForDir (h : t.DirAt w) (hw : Spells (skipSlash path) w) (hne : w ≠ []) :
    Returns (fun fuel => t.searchForDir fuel path) 1 := by
  obtain ⟨p, hp, hsize⟩ := h
  have := hp.tarWalk (fun _ size => if size = 0 then (1 : Int) else 0) 0 hw hne
  rwa [if_pos hsize] at this

end Tarfs

/-! ## What the calls answer -/

section calls
variable {t : Tarfs} {g : PathBuf} {proc : Pcb} {path : Nat → Byte} {base rel w : List Byte}

/-- `do_chdir` answers 0. -/
def ChdirOk (t : Tarfs) (g : PathBuf) (dirname : Nat → Byte) (proc : Pcb) : Prop :=
  ∃ g' proc', Returns (fun fuel => doChdir t fuel g dirname proc) (g', proc', 0)

/-- `do_open` with `O_DIRECTORY` answers a descriptor. -/
def OpenOk (t : Tarfs) (g : PathBuf) (path : Nat → Byte) (proc : Pcb) : Prop :=
  ∃ g' proc' fd, fd ≠ -1 ∧ Returns (fun fuel => doOpen t fuel g path oDirectory proc) (g', proc', fd)

/-- `fd_table` has a slot at `next_fd`. -/
def Room (proc : Pcb) : Prop := 0 ≤ proc.nextFd ∧ proc.nextFd < 15

theorem spells_append_slash {s : Nat → Byte} (h : Spells s w) :
    Spells (Function.update (Function.update s w.length slash) (w.length + 1) 0) (w ++ [slash]) where
  chars i hi := by
    rw [List.length_append, List.length_singleton] at hi
    rw [Function.update_of_ne (by omega)]
    by_cases hlt : i < w.length
    · rw [Function.update_of_ne (by omega), h.chars i hlt, List.getElem_append_left hlt]
    · obtain rfl : i = w.length := by omega
      rw [Function.update_self]
      simp
  ne_zero c hc := by
    rcases List.mem_append.1 hc with hc | hc
    · exact h.ne_zero c hc
    · rw [List.mem_singleton.1 hc]; decide
  nul := by rw [List.length_append, List.length_singleton, Function.update_self]

theorem spells_tail {s : Nat → Byte} (h : Spells s w) (hne : w ≠ []) : Spells (Tarfs.skipSlash s) w.tail where
  chars i hi := by
    rw [List.length_tail] at hi
    rw [List.getElem_tail]
    exact h.chars (i + 1) (by omega)
  ne_zero c hc := h.ne_zero c (List.mem_of_mem_tail hc)
  nul := by
    have hpos := List.length_pos_of_ne_nil hne
    have := h.nul
    rwa [show w.length = w.tail.length + 1 by rw [List.length_tail]; omega] at this

theorem tail_append_ne_nil (h : w ≠ []) : (w ++ [slash]).tail ≠ [] := by
  obtain ⟨c, v, rfl⟩ := List.exists_cons_of_ne_nil h
  simp

/-- What the two calls find in `abspath`: the normal form, and behind an empty one the rest of the text. -/
theorem pathMerge_spells (hwd : Spells proc.wd base) (hp : Spells path rel) (hw : merged base rel = slash :: w)
    (hlen : (slash :: w).length < 100) (hcount : (slash :: w).count slash ≤ 13) (g : PathBuf) :
    ∃ abspath tempPath n, (∀ fuel, n ≤ fuel →
        pathMerge fuel proc.wd path g.abspath g.tempPath 100 = some (abspath, tempPath)) ∧
      Spells abspath (normalText (slash :: w)) ∧
      (normalText (slash :: w) = [] → Spells (Tarfs.skipSlash abspath) w) := by
  obtain ⟨temp', hmerge⟩ := path_merge_normal hwd hp hw hlen hcount g.abspath g.tempPath
  have hne : ∀ c ∈ slash :: w, c ≠ 0 := hw ▸ merged_ne_zero hwd.ne_zero hp.ne_zero
  have hall : Spells (overwrite 0 (slash :: w ++ [0]) g.abspath) (slash :: w) := spells_overwrite hne
  refine ⟨_, temp', _, hmerge, spells_overwrite (normalText_ne_zero hne), fun hempty => ?_⟩
  -- only the first byte of the text was overwritten
  have hrest := Tarfs.spells_skipSlash hall
  rw [hempty]
  have hsame : Tarfs.skipSlash (overwrite 0 ([] ++ [0]) (overwrite 0 (slash :: w ++ [0]) g.abspath)) =
      Tarfs.skipSlash (overwrite 0 (slash :: w ++ [0]) g.abspath) := by
    funext i
    exact overwrite_of_le (by simp)
  rwa [hsame]

/-- `do_chdir` up to the lookup, and what it makes of the answer. -/
theorem doChdir_eq (hwd : Spells proc.wd base) (hp : Spells path rel) (hw : merged base rel = slash :: w)
    (hlen : (slash :: w).length < 100) (hcount : (slash :: w).count slash ≤ 13) :
    ∃ g' n, Spells g'.abspath (normalText (slash :: w) ++ [slash]) ∧ ∀ fuel, n ≤ fuel →
      doChdir t fuel g path proc =
        (if normalText (slash :: w) = [] then some 1 else t.searchForDir fuel g'.abspath).bind fun found =>
          if found ≠ 0 then some (g', proc.changeWd g'.abspath, 0) else some (g', some proc, 1) := by
  obtain ⟨abspath, temp', n, hmerge, hspell, -⟩ := pathMerge_spells hwd hp hw hlen hcount g
  have hdir := spells_append_slash hspell
  refine ⟨⟨g.before, Function.update (Function.update abspath (normalText (slash :: w)).length slash)
    ((normalText (slash :: w)).length + 1) 0, temp'⟩, max n ((normalText (slash :: w)).length + 2), hdir,
    fun fuel hf => ?_⟩
  obtain ⟨d, hd, hd0⟩ := hdir.kstrcmp spells_slash
    (show (normalText (slash :: w) ++ [slash]).length < fuel by simp; omega) (by simp; omega)
  have hroot : d = 0 ↔ normalText (slash :: w) = [] := by simpa using hd0
  unfold doChdir
  rw [hmerge fuel (by omega)]
  simp only [Option.bind_eq_bind, Option.bind_some]
  rw [hspell.kstrlen (by omega)]
  simp only [Option.bind_some, hd, hroot]
  split <;> rfl

/-- A `do_chdir` that returns has left the process alone, or has found the directory whose name it copies. -/
theorem doChdir_cases (hwd : Spells proc.wd base) (hp : Spells path rel) (hw : merged base rel = slash :: w)
    (hlen : (slash :: w).length < 100) (hcount : (slash :: w).count slash ≤ 13) {g' : PathBuf} {proc' : Option Pcb}
    {ret : Word} (h : Returns (fun fuel => doChdir t fuel g path proc) (g', proc', ret)) :
    proc' = some proc ∧ ret ≠ 0 ∨ proc' = proc.changeWd g'.abspath ∧ ret = 0 ∧
      Spells g'.abspath (normalText (slash :: w) ++ [slash]) ∧
      (normalText (slash :: w) = [] ∨ t.DirAt (normalText (slash :: w) ++ [slash]).tail) := by
  obtain ⟨g'', n, hspell, hrun⟩ := doChdir_eq (t := t) (g := g) hwd hp hw hlen hcount
  obtain ⟨m, hm⟩ := h
  have hok : doChdir t (max n m) g path proc = some (g', proc', ret) := hm _ (Nat.le_max_right ..)
  rw [hrun _ (Nat.le_max_left ..)] at hok
  obtain ⟨found, hfound, hret⟩ := Option.bind_eq_some_iff.1 hok
  by_cases h0 : found = 0
  · rw [if_neg (not_not.2 h0)] at hret
    cases hret
    exact .inl ⟨rfl, by decide⟩
  · rw [if_pos h0] at hret
    cases hret
    refine .inr ⟨rfl, rfl, hspell, ?_⟩
    by_cases hempty : normalText (slash :: w) = []
    · exact .inl hempty
    · rw [if_neg hempty] at hfound
      exact .inr (Tarfs.dirAt_of_searchForDir (spells_tail hspell (by simp [hempty])) hfound h0)

/-- And it does find the root by its empty spelling, and what the walk comes to. -/
theorem doChdir_finds (hwd : Spells proc.wd base) (hp : Spells path rel) (hw : merged base rel = slash :: w)
    (hlen : (slash :: w).length < 100) (hcount : (slash :: w).count slash ≤ 13)
    (hdir : normalText (slash :: w) = [] ∨ t.DirAt (normalText (slash :: w) ++ [slash]).tail) (g : PathBuf) :
    ∃ g', Spells g'.abspath (normalText (slash :: w) ++ [slash]) ∧
      Returns (fun fuel => doChdir t fuel g path proc) (g', proc.changeWd g'.abspath, 0) := by
  obtain ⟨g', n, hspell, hrun⟩ := doChdir_eq (t := t) (g := g) hwd hp hw hlen hcount
  refine ⟨g', hspell, ?_⟩
  by_cases hempty : normalText (slash :: w) = []
  · refine .of_le n fun fuel hf => ?_
    rw [hrun fuel hf, if_pos hempty]
    rfl
  · have hkey := spells_tail hspell (by simp [hempty])
    obtain ⟨m, hm⟩ := (hdir.resolve_left hempty).searchForDir hkey (tail_append_ne_nil hempty)
    refine .of_le (max n m) fun fuel hf => ?_
    have hfound : t.searchForDir fuel g'.abspath = some 1 := hm fuel (by omega)
    rw [hrun fuel (by omega), if_neg hempty, hfound]
    rfl

/-- `do_chdir` succeeds for the empty spelling of the root, and where the walk comes to a directory. -/
theorem chdirOk_iff (hwd : Spells proc.wd base) (hp : Spells path rel) (hw : merged base rel = slash :: w)
    (hlen : (slash :: w).length < 100) (hcount : (slash :: w).count slash ≤ 13) :
    ChdirOk t g path proc ↔
      normalText (slash :: w) = [] ∨ t.DirAt (normalText (slash :: w) ++ [slash]).tail := by
  constructor
  · rintro ⟨g'', proc', hret⟩
    rcases doChdir_cases hwd hp hw hlen hcount hret with ⟨-, h0⟩ | ⟨-, -, -, hdir⟩
    · exact absurd rfl h0
    · exact hdir
  · intro hdir
    obtain ⟨g', -, hret⟩ := doChdir_finds hwd hp hw hlen hcount hdir g
    exact ⟨g', _, hret⟩

theorem room_of_openFd {a n : Word} {r : Pcb × Int} (h : Tarfs.openFd proc a n = some r) :
    Room proc ∧ r.2 = proc.nextFd := by
  unfold Tarfs.openFd at h
  split at h
  · cases h; exact ⟨‹_›, rfl⟩
  · cases h

theorem openFd_of_room (hroom : Room proc) (a n : Word) :
    ∃ proc', Tarfs.openFd proc a n = some (proc', proc.nextFd) := ⟨_, dif_pos hroom⟩

/-- A descriptor is not what a failed open answers. -/
theorem Room.fd_ne (h : Room proc) : BitVec.ofInt 64 proc.nextFd ≠ -1 := by
  obtain ⟨h0, h15⟩ := h
  intro he
  have := congrArg BitVec.toInt he
  rw [BitVec.toInt_ofInt, Int.bmod_eq_of_le (by omega) (by omega)] at this
  simp at this
  omega

/-- With a slot free, the directory branch opens the root and what the walk comes to. -/
theorem openDirectory_iff {g' : PathBuf} {u v : List Byte} (hu : Spells g'.abspath u)
    (hv : u ≠ [slash] → Spells (Tarfs.skipSlash g'.abspath) v ∧ v ≠ []) :
    (∃ g'' proc' fd, fd ≠ -1 ∧ Returns (fun fuel => openDirectory t fuel g' proc) (g'', proc', fd)) ↔
      Room proc ∧ (u = [slash] ∨ t.DirAt v) := by
  have hcmp : ∀ fuel, u.length + 2 ≤ fuel →
      ∃ d, kstrcmp fuel g'.abspath (cString "/") = some d ∧ (d = 0 ↔ u = [slash]) := fun fuel hf =>
    hu.kstrcmp spells_slash (by omega) (by simp; omega)
  constructor
  · rintro ⟨g'', proc', fd, hfd, m, hm⟩
    have hok : openDirectory t (max m (u.length + 2)) g' proc = some (g'', proc', fd) := hm _ (Nat.le_max_left ..)
    obtain ⟨d, hd, hd0⟩ := hcmp (max m (u.length + 2)) (Nat.le_max_right ..)
    obtain ⟨d', hd', hd0'⟩ := hcmp (max m (u.length + 2) + 1) (by omega)
    unfold openDirectory at hok
    simp only [hd, Option.bind_eq_bind, Option.bind_some] at hok
    by_cases hroot : u = [slash]
    · rw [if_pos (hd0.2 hroot), if_pos (by decide)] at hok
      obtain ⟨r, hopen, -⟩ := Option.bind_eq_some_iff.1 hok
      unfold Tarfs.doOpenDir at hopen
      simp only [hd', hd0'.2 hroot, Option.bind_eq_bind, Option.bind_some, if_true] at hopen
      exact ⟨(room_of_openFd hopen).1, .inl hroot⟩
    · rw [if_neg fun h0 => hroot (hd0.1 h0)] at hok
      obtain ⟨hkey, -⟩ := hv hroot
      obtain ⟨found, hfound, hok⟩ := Option.bind_eq_some_iff.1 hok
      split at hok
      · rename_i hne
        have hdir := Tarfs.dirAt_of_searchForDir hkey hfound hne
        obtain ⟨r, hopen, hret⟩ := Option.bind_eq_some_iff.1 hok
        unfold Tarfs.doOpenDir at hopen
        simp only [hd', Option.bind_eq_bind, Option.bind_some, if_neg fun h0 => hroot (hd0'.1 h0)] at hopen
        obtain ⟨r', hwalk, hr'⟩ := Option.bind_eq_some_iff.1 hopen
        rcases Tarfs.visits_of_tarWalk hkey hwalk with ⟨-, p, -, rfl⟩ | rfl
        · exact ⟨(room_of_openFd hr').1, .inr hdir⟩
        · cases hr'
          cases hret
          exact absurd rfl hfd
      · cases hok
        exact absurd rfl hfd
  · rintro ⟨hroom, hwhere⟩
    by_cases hroot : u = [slash]
    · obtain ⟨proc', hopen⟩ := openFd_of_room hroom t.tarEnd 0
      refine ⟨g', proc', _, hroom.fd_ne, .of_le (u.length + 2) fun fuel hf => ?_⟩
      obtain ⟨d, hd, hd0⟩ := hcmp fuel hf
      obtain ⟨d', hd', hd0'⟩ := hcmp (fuel + 1) (by omega)
      unfold openDirectory Tarfs.doOpenDir
      simp only [hd, hd', hd0.2 hroot, hd0'.2 hroot, Option.bind_eq_bind, Option.bind_some, if_true, hopen]
      rfl
    · obtain ⟨hkey, hne⟩ := hv hroot
      have hdir := hwhere.resolve_left hroot
      obtain ⟨n, hn⟩ := hdir.searchForDir hkey hne
      obtain ⟨p, hp, -⟩ := hdir
      obtain ⟨proc', hopen⟩ := openFd_of_room hroom p 0
      obtain ⟨m, hm⟩ := hp.tarWalk (fun p _ => Tarfs.openFd proc p 0) (some (proc, -1)) hkey hne
      refine ⟨g', proc', _, hroom.fd_ne, .of_le (max (max n m) (u.length + 2)) fun fuel hf => ?_⟩
      obtain ⟨d, hd, hd0⟩ := hcmp fuel (by omega)
      obtain ⟨d', hd', hd0'⟩ := hcmp (fuel + 1) (by omega)
      have hfound : t.searchForDir fuel g'.abspath = some 1 := hn fuel (by omega)
      have hwalk : t.tarWalk (Tarfs.skipSlash g'.abspath) (fun p _ => Tarfs.openFd proc p 0) (some (proc, -1)) fuel 0 =
          some (Tarfs.openFd proc p 0) := hm fuel (by omega)
      unfold openDirectory Tarfs.doOpenDir
      simp only [hd, hd', Option.bind_eq_bind, Option.bind_some, if_neg fun h0 => hroot (hd0.1 h0),
        if_neg fun h0 => hroot (hd0'.1 h0), hfound, hwalk, hopen]
      rfl

/-- `do_open` up to the slash it appends or not. -/
theorem doOpen_eq (hwd : Spells proc.wd base) (hp : Spells path rel) (hw : merged base rel = slash :: w)
    (hlen : (slash :: w).length < 100) (hcount : (slash :: w).count slash ≤ 13) :
    ∃ abspath tempPath n, Spells abspath (normalText (slash :: w)) ∧
      (normalText (slash :: w) = [] → Spells (Tarfs.skipSlash abspath) w) ∧ ∀ fuel, n ≤ fuel →
      doOpen t fuel g path oDirectory proc = openDirectory t fuel ⟨g.before,
        if (if (normalText (slash :: w)).length = 0 then g.before
            else abspath ((normalText (slash :: w)).length - 1)) ≠ slash then
          Function.update (Function.update abspath (normalText (slash :: w)).length slash)
            ((normalText (slash :: w)).length + 1) 0
        else abspath, tempPath⟩ proc := by
  obtain ⟨abspath, temp', n, hmerge, hspell, hrest⟩ := pathMerge_spells hwd hp hw hlen hcount g
  refine ⟨abspath, temp', max n ((normalText (slash :: w)).length + 2), hspell, hrest, fun fuel hf => ?_⟩
  unfold doOpen
  rw [hmerge fuel (by omega)]
  simp only [Option.bind_eq_bind, Option.bind_some, if_neg (show oDirectory ≠ oRdonly by decide), if_true,
    hspell.kstrlen (show (normalText (slash :: w)).length < fuel by omega)]

/-- Whether `do_open` finds a directory: for the root spelled `/` always, for its empty spelling depending
on what lies around it, and else as `do_chdir`. -/
theorem openOk_iff (hwd : Spells proc.wd base) (hp : Spells path rel) (hw : merged base rel = slash :: w)
    (hlen : (slash :: w).length < 100) (hcount : (slash :: w).count slash ≤ 13) :
    OpenOk t g path proc ↔ Room proc ∧
      if slash :: w = [slash] then True
      else if normalText (slash :: w) = [] then g.before ≠ slash ∨ t.DirAt w
      else t.DirAt (normalText (slash :: w) ++ [slash]).tail := by
  obtain ⟨abspath, temp', n, hspell, hrest, hrun⟩ := doOpen_eq (t := t) (g := g) hwd hp hw hlen hcount
  have hvia : ∀ {g' : PathBuf} {u v : List Byte},
      (∀ fuel, n ≤ fuel → doOpen t fuel g path oDirectory proc = openDirectory t fuel g' proc) →
      Spells g'.abspath u → (u ≠ [slash] → Spells (Tarfs.skipSlash g'.abspath) v ∧ v ≠ []) →
      (OpenOk t g path proc ↔ Room proc ∧ (u = [slash] ∨ t.DirAt v)) := by
    intro g' u v hrun hu hv
    rw [← openDirectory_iff hu hv]
    constructor
    · rintro ⟨g'', proc', fd, hfd, m, hm⟩
      refine ⟨g'', proc', fd, hfd, .of_le (max n m) fun fuel hf => ?_⟩
      have hok : doOpen t fuel g path oDirectory proc = _ := hm fuel (by omega)
      rwa [hrun fuel (by omega)] at hok
    · rintro ⟨g'', proc', fd, hfd, m, hm⟩
      refine ⟨g'', proc', fd, hfd, .of_le (max n m) fun fuel hf => ?_⟩
      have hok : openDirectory t fuel g' proc = _ := hm fuel (by omega)
      rwa [← hrun fuel (by omega)] at hok
  by_cases hroot : slash :: w = [slash]
  · have hnt : normalText (slash :: w) = [slash] := if_pos hroot
    rw [hnt] at hspell
    have hlast : abspath 0 = slash := hspell.chars 0 (by simp)
    simp only [hnt, List.length_singleton, Nat.one_ne_zero, if_false, Nat.sub_self, hlast, ne_eq, not_true,
      if_false] at hrun
    rw [if_pos hroot, hvia (v := []) hrun hspell fun h => absurd rfl h]
    simp
  · rw [if_neg hroot]
    by_cases hempty : normalText (slash :: w) = []
    · rw [if_pos hempty]
      have hwne : w ≠ [] := fun he => hroot (by rw [he])
      rw [hempty] at hspell
      simp only [hempty, List.length_nil, if_true] at hrun
      by_cases hbefore : g.before = slash
      · simp only [hbefore, ne_eq, not_true, if_false] at hrun
        rw [hvia (v := w) hrun hspell fun _ => ⟨hrest hempty, hwne⟩]
        simp [hbefore]
      · simp only [ne_eq, hbefore, not_false_eq_true, if_true] at hrun
        have hone : Spells (Function.update (Function.update abspath 0 slash) (0 + 1) 0) [slash] :=
          spells_append_slash hspell
        rw [hvia (v := []) hrun hone fun h => absurd rfl h]
        simp [hbefore]
    · rw [if_neg hempty]
      have hpos := List.length_pos_of_ne_nil hempty
      have hnt : normalText (slash :: w) = absolute (normalParts (slash :: w)) := if_neg hroot
      have hlast : abspath ((normalText (slash :: w)).length - 1) ≠ slash := by
        rw [hspell.chars _ (by omega), ← List.getLast_eq_getElem hempty]
        intro he
        refine getLast?_absolute_ne (w := slash :: w) ?_
        rw [← hnt, List.getLast?_eq_some_getLast hempty, he]
      have hne : (normalText (slash :: w)).length ≠ 0 := by omega
      simp only [hne, if_false, ne_eq, hlast, not_false_eq_true, if_true] at hrun
      have hdir := spells_append_slash hspell
      rw [hvia hrun hdir fun _ => ⟨spells_tail hdir (by simp), tail_append_ne_nil hempty⟩]
      simp [hempty]

/-- `do_chdir` succeeds exactly at the root and at a directory the walk comes to, `do_open` exactly then, and a
`do_chdir` that fails leaves the working directory alone. -/
structure DirAgree (t : Tarfs) (g : PathBuf) (path : Nat → Byte) (proc : Pcb) (parts : List (List Byte)) : Prop where
  chdir : ChdirOk t g path proc ↔ parts = [] ∨ t.DirAt (parts.flatMap (· ++ [slash]))
  openDir : OpenOk t g path proc ↔ ChdirOk t g path proc
  fails : ∀ g' proc' ret, Returns (fun fuel => doChdir t fuel g path proc) (g', proc', ret) → ret ≠ 0 →
    proc'.map Pcb.wd = some proc.wd

theorem chdir_fails (hwd : Spells proc.wd base) (hp : Spells path rel) (hw : merged base rel = slash :: w)
    (hlen : (slash :: w).length < 100) (hcount : (slash :: w).count slash ≤ 13) {g' : PathBuf} {proc' : Option Pcb}
    {ret : Word} (h : Returns (fun fuel => doChdir t fuel g path proc) (g', proc', ret)) (hret : ret ≠ 0) :
    proc' = some proc := by
  rcases doChdir_cases hwd hp hw hlen hcount h with ⟨hproc, -⟩ | ⟨-, h0, -⟩
  · exact hproc
  · exact absurd h0 hret

theorem merged_cons (hbase : [slash] <+: base) (rel : List Byte) : ∃ w, merged base rel = slash :: w := by
  obtain ⟨v, rfl⟩ := hbase
  unfold merged
  split
  · obtain ⟨u, hu⟩ := ‹[slash] <+: rel›
    exact ⟨u, hu.symm⟩
  · split <;> exact ⟨_, rfl⟩

/-- **Changing to and opening a directory** agree with the archive exactly when: a root spelled `/` is
doubled into a name that the archive has as a directory; for any other spelling of the root, the byte in
front of `abspath` is no slash, or what is left of the text names a directory; and `fd_table` has a slot
when there is a directory to open. -/
theorem chdir_open_agree (hwd : Spells proc.wd base) (hbase : [slash] <+: base) (hp : Spells path rel)
    (hlen : (merged base rel).length < 100) (hcount : (merged base rel).count slash ≤ 13) :
    DirAgree t g path proc (normalParts (merged base rel)) ↔
      (merged base rel = [slash] → t.DirAt [slash]) ∧
      (merged base rel ≠ [slash] → normalParts (merged base rel) = [] →
        g.before ≠ slash ∨ t.DirAt (merged base rel).tail) ∧
      (normalParts (merged base rel) = [] ∨
          t.DirAt ((normalParts (merged base rel)).flatMap (· ++ [slash])) → Room proc) := by
  obtain ⟨w, hw⟩ := merged_cons hbase rel
  rw [hw] at hlen hcount ⊢
  have hchdir := chdirOk_iff (t := t) (g := g) hwd hp hw hlen hcount
  have hopen := openOk_iff (t := t) (g := g) hwd hp hw hlen hcount
  have hagree : DirAgree t g path proc (normalParts (slash :: w)) ↔
      (ChdirOk t g path proc ↔
          normalParts (slash :: w) = [] ∨ t.DirAt ((normalParts (slash :: w)).flatMap (· ++ [slash]))) ∧
        (OpenOk t g path proc ↔ ChdirOk t g path proc) :=
    ⟨fun h => ⟨h.chdir, h.openDir⟩, fun h => ⟨h.1, h.2, fun g' proc' ret hr hret => by
      rw [chdir_fails hwd hp hw hlen hcount hr hret]
      rfl⟩⟩
  rw [hagree, hopen, hchdir]
  by_cases hroot : slash :: w = [slash]
  · obtain rfl : w = [] := (List.cons.inj hroot).2
    have hnt : normalText [slash] = [slash] := rfl
    have hparts : normalParts [slash] = [] := by
      rw [normalParts, splitOn_slash, List.splitOn_nil]; rfl
    simp only [hnt, hparts, List.cons_append, List.tail_cons, List.nil_append]
    simp only [reduceCtorEq, false_or, true_or, iff_true, true_implies, and_true, ne_eq, not_true, false_implies,
      if_true, List.flatMap_nil, true_and]
    exact ⟨fun h => ⟨h.1, h.2.2 h.1⟩, fun h => ⟨h.1, fun _ => h.1, fun _ => h.2⟩⟩
  · have hnt : normalText (slash :: w) = absolute (normalParts (slash :: w)) := if_neg hroot
    by_cases hparts : normalParts (slash :: w) = []
    · rw [hnt, hparts]
      simp only [absolute, List.flatMap_nil, if_neg hroot, if_true, true_or, List.tail_cons]
      simp [hroot, and_comm]
    · have hempty : normalText (slash :: w) ≠ [] := by
        obtain ⟨part, parts, hpp⟩ := List.exists_cons_of_ne_nil hparts
        rw [hnt, hpp]
        exact List.cons_ne_nil _ _
      have hkey : (normalText (slash :: w) ++ [slash]).tail =
          (normalParts (slash :: w)).flatMap (· ++ [slash]) := by
        rw [hnt, ← slash_cons_flatMap, List.tail_cons]
      rw [if_neg hroot, if_neg hempty, hkey]
      simp only [hempty, hparts, false_or, ne_eq, hroot, false_implies, implies_true, true_and]
      exact ⟨fun h hdir => (h.2 hdir).1, fun h => ⟨And.right, fun hdir => ⟨h hdir, hdir⟩⟩⟩

end calls

/-- A process in the root directory, as `init` leaves the shell. -/
def inRoot : Pcb := (Pcb.fresh 2 0 0 default).copyWd (cString "/")

theorem inRoot_wd : Spells inRoot.wd [slash] := by
  rw [inRoot, Pcb.copyWd_wd, spells_slash.kstrcpy (by decide)]
  exact spells_overwrite spells_slash.ne_zero

/-- `..` leads from the root to the root, in both calls. -/
theorem chdir_open_agree_up :
    DirAgree default ⟨0, fun _ => 0, fun _ => 0⟩ (cString "..") inRoot (normalParts (merged [slash] [dot, dot])) :=
  (chdir_open_agree inRoot_wd (List.prefix_refl _) spells_dotDot (by decide) (by decide)).2
    ⟨fun h => absurd h (by decide), fun _ _ => .inl (by decide), fun _ => ⟨by decide, by decide⟩⟩

/-- With no archive at all, `chdir("/")` fails in the root directory. -/
theorem chdir_slash_fails :
    ¬DirAgree default ⟨0, fun _ => 0, fun _ => 0⟩ (cString "/") inRoot (normalParts (merged [slash] [slash])) := by
  intro h
  have hok := h.chdir.2 (.inl (by decide))
  rw [chdirOk_iff (w := []) inRoot_wd spells_slash (by decide) (by decide) (by decide)] at hok
  rcases hok with hempty | ⟨p, hp, -⟩
  · exact absurd hempty (by decide)
  · have hnone : ∀ offset : Word, ¬(default : Tarfs).tarStart + offset < (default : Tarfs).tarEnd := by
      intro offset hlt
      exact Nat.not_lt_zero _ hlt
    cases hp with
    | here hlt _ => exact hnone _ hlt
    | next hlt _ _ _ _ => exact hnone _ hlt

end Sbuos
