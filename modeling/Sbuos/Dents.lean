import Sbuos.Chdir
import Sbuos.UserHeap
/-!
# Listing a directory (sys/tarfs.c:168-208, sys/systemcall.c:233-234, libc/stdlib.c:134-173)

The kernel writes an entry for each name in the directory and marks the end with a `d_ino` of 0, but only if
the walk runs to `_tar_end`: at the empty name behind the last member it returns at once. The bound it would
use there is the buffer's address, which the dispatcher passes in place of the size. `readdir` goes on until
it meets a 0.

`Tarfs.Passes` says which headers of a directory the walk comes by before an empty name.

**`readdir_lists`**: a listing ends at the last entry exactly when the buffer happened to hold a 0 there.
-/
namespace Sbuos
open Lib

/-- `struct dirent` (dirent.h:7-14) and its size. -/
structure Dirent where
  ino : Word
  off : Word
  reclen : BitVec 16
  name : Nat → Byte

def direntSize : Nat := 280

/-- `NAME_MAX` (dirent.h:6) and `MAX_DIR_SIZE` (stdlib.h:11). -/
def nameMax : Int := 255
def maxDirSize : Nat := 2048

/-- `for (int i = l; i < ll-1; ++i) if (name[i]=='/') c++;` -/
def slashCount (name : Nat → Byte) (l ll : Nat) : Nat :=
  (List.range' l (ll - 1 - l)).countP fun i => name i = slash

/-- The stores for entry `entC` (tarfs.c:187-189). -/
def Dirent.record (name : Nat → Byte) (l entC : Nat) (d : Dirent) : Dirent :=
  { d with
    ino := BitVec.ofNat 64 (entC + 1)
    reclen := BitVec.ofNat 16 direntSize
    name := (kstrcpy d.name (shift l name) nameMax).1 }

/-- What a listing leaves: the buffer, the number of entries recorded, and how many it has written to. -/
structure Listing where
  buffer : Nat → Dirent
  entries : Nat
  written : Nat

namespace Tarfs

/-- The loop of `_fill_dents_by_path` (tarfs.c:175-195); with it, whether it left through the `return` at an
empty name. -/
def fillDentsFrom (t : Tarfs) (path : Nat → Byte) (l : Nat) :
    Nat → Word → Nat → (Nat → Dirent) → Option (Listing × Bool)
  | 0, _, _, _ => none
  | fuel + 1, offset, entC, buffer =>
    let p := t.tarStart + offset
    if p < t.tarEnd then do
      let ll ← kstrlen (fuel + 1) (t.view p)
      if ll = 0 then some (⟨buffer, entC, entC⟩, true)
      else
        let starts ← kstrstartswith (fuel + 1) (t.view p) path
        if starts ≠ 0 ∧ slashCount (t.view p) l ll = 0 then
          fillDentsFrom t path l fuel (t.nextOffset offset) (entC + 1)
            (Function.update buffer entC ((buffer entC).record (t.view p) l entC))
        else fillDentsFrom t path l fuel (t.nextOffset offset) entC buffer
    else some (⟨buffer, entC, entC⟩, false)

/-- `_fill_dents_by_path` (tarfs.c:168-201). Behind the loop an `int` counts up to `dir_size`; from 2^31 on it
overflows, which is undefined behaviour. -/
def fillDentsByPath (t : Tarfs) (fuel : Nat) (path : Nat → Byte) (buffer : Nat → Dirent) (dirSize : Word) :
    Option Listing := do
  let l ← kstrlen fuel path
  let (r, atEmpty) ← t.fillDentsFrom path l fuel 0 0 buffer
  if atEmpty then some r
  else if dirSize.toNat < 2 ^ 31 then
    some { r with
      buffer := fun i => if r.entries ≤ i ∧ i < dirSize.toNat then { r.buffer i with ino := 0 } else r.buffer i
      written := max r.entries dirSize.toNat }
  else none

/-- The path that `fill_dents` passes on (tarfs.c:203-208). -/
def dirName (t : Tarfs) (fileStart : Word) : Nat → Byte :=
  if fileStart = t.tarEnd then cString "" else t.view fileStart

/-- `fill_dents` (tarfs.c:203-208). -/
def fillDents (t : Tarfs) (fuel : Nat) (fileStart : Word) (buffer : Nat → Dirent) (size : Word) : Option Listing :=
  t.fillDentsByPath fuel (t.dirName fileStart) buffer size

/-- `SYS_getdents` for a descriptor that starts at `fileStart`: `do_getdents(arg1, arg2, arg2)`
(systemcall.c:233-234). The third argument of the call is not used. -/
def sysGetdents (t : Tarfs) (fuel : Nat) (fileStart arg2 : Word) (buffer : Nat → Dirent) : Option Listing :=
  t.fillDents fuel fileStart buffer arg2

end Tarfs

/-- `DIR` (dirent.h:17-22), with the entries that `dents` points to. -/
structure Dir where
  dents : Nat → Dirent
  offset : Nat

/-- `readdir` (stdlib.c:154-171). A `struct dirent` that straddles two entries, which only a stale `d_reclen`
leads to, is not modelled. -/
def readdir (d : Dir) : Option (Option Dirent × Dir) :=
  if d.offset % direntSize = 0 then
    let res := d.dents (d.offset / direntSize)
    if res.ino = 0 then some (none, d) else some (some res, { d with offset := d.offset + res.reclen.toNat })
  else none

/-- `while ((e = readdir(dir)) != NULL)`. -/
def readAll : Nat → Dir → Option (List Dirent)
  | 0, _ => none
  | fuel + 1, d => do
    let (res, d) ← readdir d
    if h : res.isSome then
      let rest ← readAll fuel d
      some (res.get h :: rest)
    else some []

/-- A directory opened at `fileStart`, with a buffer at `addr` that held `stale`, is listed: the call returns,
writes no entry from `MAX_DIR_SIZE` on, and `readdir` returns the entries recorded, in order, and then NULL. -/
def DirListed (t : Tarfs) (fileStart addr : Word) (stale : Nat → Dirent) : Prop :=
  ∃ r, Returns (fun fuel => t.sysGetdents fuel fileStart addr stale) r ∧ r.written ≤ maxDirSize ∧
    Returns (fun fuel => readAll fuel ⟨r.buffer, 0⟩) ((List.range r.entries).map r.buffer)

/-! ## Which headers are listed -/

/-- The name lies in the directory, and in none below it. -/
def InDir (w name : List Byte) : Prop := w <+: name ∧ slash ∉ (name.drop w.length).dropLast

instance (w name : List Byte) : Decidable (InDir w name) := inferInstanceAs (Decidable (_ ∧ _))

/-- From `offset` on the walk visits these headers, with these names, and then comes to an empty name (`true`) or to
the bound of the archive. -/
inductive Tarfs.Visited (t : Tarfs) : Word → List (Word × List Byte) → Bool → Prop
  | empty {offset : Word} : t.tarStart + offset < t.tarEnd → Spells (t.view (t.tarStart + offset)) [] →
      Visited t offset [] true
  | bound {offset : Word} : ¬t.tarStart + offset < t.tarEnd → Visited t offset [] false
  | header {offset : Word} {name : List Byte} {vs : List (Word × List Byte)} {atEmpty : Bool} :
      t.tarStart + offset < t.tarEnd → Spells (t.view (t.tarStart + offset)) name → name ≠ [] →
      Visited t (t.nextOffset offset) vs atEmpty → Visited t offset ((t.tarStart + offset, name) :: vs) atEmpty

/-- The headers that the loop makes an entry for. -/
def headersIn (w : List Byte) (vs : List (Word × List Byte)) : List Word :=
  (vs.filter fun v => InDir w v.2).map Prod.fst

/-- From `offset` the walk comes to an empty name, and `ps` are the headers of directory `w` before it. -/
inductive Tarfs.Passes (t : Tarfs) (w : List Byte) : Word → List Word → Prop
  | stop {offset : Word} : t.tarStart + offset < t.tarEnd → Spells (t.view (t.tarStart + offset)) [] →
      Passes t w offset []
  | listed {offset : Word} {name : List Byte} {ps : List Word} : t.tarStart + offset < t.tarEnd →
      Spells (t.view (t.tarStart + offset)) name → name ≠ [] → InDir w name →
      Passes t w (t.nextOffset offset) ps → Passes t w offset ((t.tarStart + offset) :: ps)
  | other {offset : Word} {name : List Byte} {ps : List Word} : t.tarStart + offset < t.tarEnd →
      Spells (t.view (t.tarStart + offset)) name → name ≠ [] → ¬InDir w name →
      Passes t w (t.nextOffset offset) ps → Passes t w offset ps

/-! ## The walk of the listing -/

theorem kstrstartswithFrom_mono {target pre : Nat → Byte} {fuel fuel' i : Nat} {d : Int}
    (h : kstrstartswithFrom target pre fuel i = some d) (hle : fuel ≤ fuel') :
    kstrstartswithFrom target pre fuel' i = some d := by
  induction fuel generalizing i fuel' with
  | zero => cases h
  | succ fuel ih =>
    obtain ⟨fuel', rfl⟩ : ∃ f, fuel' = f + 1 := ⟨fuel' - 1, by omega⟩
    rw [kstrstartswithFrom] at h ⊢
    split at h
    · rw [if_pos ‹_›]; exact h
    · rw [if_neg ‹_›]
      split at h
      · rw [if_pos ‹_›]; exact h
      · rw [if_neg ‹_›]
        exact ih h (by omega)

/-- Whatever `kstrstartswith` answers says whether the string is a prefix. -/
theorem kstrstartswith_ne_zero {target pre : Nat → Byte} {u w : List Byte} (h : Spells target w) (hp : Spells pre u)
    {fuel : Nat} {d : Int} (hd : kstrstartswith fuel target pre = some d) : d ≠ 0 ↔ u <+: w := by
  have hlt : u.length < max fuel (u.length + 1) := by omega
  obtain ⟨d', hd', hiff⟩ := kstrstartswith_iff h hp hlt
  have hsame := kstrstartswithFrom_mono hd (Nat.le_max_left fuel (u.length + 1))
  rw [kstrstartswith] at hd'
  rw [← hiff, Option.some.inj (hsame.symm.trans hd')]

theorem slashCount_eq_zero {name : Nat → Byte} {w : List Byte} (h : Spells name w) (l : Nat) :
    slashCount name l w.length = 0 ↔ slash ∉ (w.drop l).dropLast := by
  rw [slashCount, List.countP_eq_zero, List.mem_iff_getElem]
  simp only [List.mem_range'_1, decide_eq_true_eq, List.length_dropLast, List.length_drop, List.getElem_dropLast,
    List.getElem_drop]
  constructor
  · rintro hno ⟨i, hi, he⟩
    refine hno (l + i) (by omega) ?_
    rw [h.chars _ (by omega)]
    exact he
  · rintro hno i hi he
    refine hno ⟨i - l, by omega, ?_⟩
    rw [← he, h.chars i (by omega)]
    congr 1
    omega

section walk
variable {t : Tarfs} {path : Nat → Byte} {w : List Byte} {offset : Word} {ps : List Word}

/-- The entries for the headers `ps`, from number `entC` on. -/
def recordAll (t : Tarfs) (l : Nat) : List Word → Nat → (Nat → Dirent) → Nat → Dirent
  | [], _, buffer => buffer
  | p :: ps, entC, buffer =>
    recordAll t l ps (entC + 1) (Function.update buffer entC ((buffer entC).record (t.view p) l entC))

theorem recordAll_of_lt {l entC i : Nat} {buffer : Nat → Dirent} (h : i < entC) :
    recordAll t l ps entC buffer i = buffer i := by
  induction ps generalizing entC buffer with
  | nil => rfl
  | cons p ps ih => rw [recordAll, ih (by omega), Function.update_of_ne (by omega)]

theorem recordAll_of_ge {l entC i : Nat} {buffer : Nat → Dirent} (h : entC + ps.length ≤ i) :
    recordAll t l ps entC buffer i = buffer i := by
  induction ps generalizing entC buffer with
  | nil => rfl
  | cons p ps ih =>
    rw [List.length_cons] at h
    rw [recordAll, ih (by omega), Function.update_of_ne (by omega)]

/-- Each header's entry is the one it recorded. -/
theorem recordAll_get (t : Tarfs) (l : Nat) : ∀ (ps : List Word) (entC i : Nat) (buffer : Nat → Dirent) {p : Word},
    ps[i]? = some p → recordAll t l ps entC buffer (entC + i) = (buffer (entC + i)).record (t.view p) l (entC + i)
  | [], _, _, _, _, h => by cases h
  | q :: ps, entC, 0, buffer, p, h => by
    obtain rfl : q = p := Option.some.inj h
    have hlt : entC < entC + 1 := Nat.lt_succ_self entC
    rw [recordAll]
    exact (recordAll_of_lt hlt).trans (Function.update_self ..)
  | q :: ps, entC, i + 1, buffer, p, h => by
    have hrest := recordAll_get t l ps (entC + 1) i
      (Function.update buffer entC ((buffer entC).record (t.view q) l entC)) h
    rw [show entC + 1 + i = entC + (i + 1) by omega, Function.update_of_ne (by omega)] at hrest
    exact hrest

/-- Entry `i` has number `i + 1` and the length of a `struct dirent`. -/
theorem recordAll_entry {l i : Nat} {buffer : Nat → Dirent} (h : i < ps.length) :
    (recordAll t l ps 0 buffer i).ino = BitVec.ofNat 64 (i + 1) ∧
      (recordAll t l ps 0 buffer i).reclen = BitVec.ofNat 16 direntSize := by
  have hget := recordAll_get t l ps 0 i buffer (List.getElem?_eq_getElem h)
  rw [Nat.zero_add] at hget
  rw [hget]
  exact ⟨rfl, rfl⟩

theorem headersIn_cons_of_inDir {p : Word} {name : List Byte} {vs : List (Word × List Byte)} (h : InDir w name) :
    headersIn w ((p, name) :: vs) = p :: headersIn w vs := by
  rw [headersIn, List.filter_cons_of_pos (by simpa using h), List.map_cons]
  rfl

theorem headersIn_cons_of_not_inDir {p : Word} {name : List Byte} {vs : List (Word × List Byte)} (h : ¬InDir w name) :
    headersIn w ((p, name) :: vs) = headersIn w vs := by
  rw [headersIn, List.filter_cons_of_neg (by simpa using h)]
  rfl

/-- One turn, at a header with a name. -/
theorem fillDentsFrom_header {name : List Byte} (hpath : Spells path w) (hlt : t.tarStart + offset < t.tarEnd)
    (hs : Spells (t.view (t.tarStart + offset)) name) (hne : name ≠ []) {fuel : Nat}
    (hf : max name.length w.length < fuel + 1) (entC : Nat) (buffer : Nat → Dirent) :
    t.fillDentsFrom path w.length (fuel + 1) offset entC buffer =
      if InDir w name then
        t.fillDentsFrom path w.length fuel (t.nextOffset offset) (entC + 1)
          (Function.update buffer entC ((buffer entC).record (t.view (t.tarStart + offset)) w.length entC))
      else t.fillDentsFrom path w.length fuel (t.nextOffset offset) entC buffer := by
  have hlen : name.length ≠ 0 := mt List.length_eq_zero_iff.1 hne
  obtain ⟨d, hd, hd0⟩ := kstrstartswith_iff hs hpath (show w.length < fuel + 1 by omega)
  rw [Tarfs.fillDentsFrom, if_pos hlt, hs.kstrlen (by omega)]
  simp only [Option.bind_eq_bind, Option.bind_some, if_neg hlen, hd]
  exact if_congr (and_congr hd0 (slashCount_eq_zero hs _)) rfl rfl

/-- A walk records the headers it visits in the directory. -/
theorem Tarfs.Visited.fillDentsFrom {vs : List (Word × List Byte)} {atEmpty : Bool} (h : t.Visited offset vs atEmpty)
    (hpath : Spells path w) (entC : Nat) (buffer : Nat → Dirent) :
    Returns (fun fuel => t.fillDentsFrom path w.length fuel offset entC buffer)
      (⟨recordAll t w.length (headersIn w vs) entC buffer, entC + (headersIn w vs).length,
        entC + (headersIn w vs).length⟩, atEmpty) := by
  induction h generalizing entC buffer with
  | empty hlt hs =>
    refine .of_le 1 fun fuel hf => ?_
    obtain ⟨fuel, rfl⟩ : ∃ f, fuel = f + 1 := ⟨fuel - 1, by omega⟩
    rw [Tarfs.fillDentsFrom, if_pos hlt, hs.kstrlen (Nat.succ_pos fuel)]
    rfl
  | bound hge =>
    refine .of_le 1 fun fuel hf => ?_
    obtain ⟨fuel, rfl⟩ : ∃ f, fuel = f + 1 := ⟨fuel - 1, by omega⟩
    rw [Tarfs.fillDentsFrom, if_neg hge]
    rfl
  | @header offset name vs atEmpty hlt hs hne _ ih =>
    by_cases hin : InDir w name
    · obtain ⟨n, hn⟩ := ih (entC + 1)
        (Function.update buffer entC ((buffer entC).record (t.view (t.tarStart + offset)) w.length entC))
      refine .of_le (max n (max name.length w.length) + 1) fun fuel hf => ?_
      obtain ⟨fuel, rfl⟩ : ∃ f, fuel = f + 1 := ⟨fuel - 1, by omega⟩
      rw [fillDentsFrom_header hpath hlt hs hne (by omega), if_pos hin, headersIn_cons_of_inDir hin]
      have hrest : t.fillDentsFrom path w.length fuel (t.nextOffset offset) (entC + 1) _ = _ := hn fuel (by omega)
      rw [hrest, List.length_cons, Nat.add_assoc, Nat.add_comm 1]
      rfl
    · obtain ⟨n, hn⟩ := ih entC buffer
      refine .of_le (max n (max name.length w.length) + 1) fun fuel hf => ?_
      obtain ⟨fuel, rfl⟩ : ∃ f, fuel = f + 1 := ⟨fuel - 1, by omega⟩
      rw [fillDentsFrom_header hpath hlt hs hne (by omega), if_neg hin, headersIn_cons_of_not_inDir hin]
      exact hn fuel (by omega)

/-- A listing that the loop made has visited headers. -/
theorem visited_of_fillDentsFrom {fuel entC : Nat} {buffer : Nat → Dirent} {r : Listing} {atEmpty : Bool}
    (hpath : Spells path w) (h : t.fillDentsFrom path w.length fuel offset entC buffer = some (r, atEmpty)) :
    ∃ vs, t.Visited offset vs atEmpty ∧ r = ⟨recordAll t w.length (headersIn w vs) entC buffer,
      entC + (headersIn w vs).length, entC + (headersIn w vs).length⟩ := by
  induction fuel generalizing offset entC buffer with
  | zero => cases h
  | succ fuel ih =>
    rw [Tarfs.fillDentsFrom] at h
    split at h
    · rename_i hlt
      obtain ⟨ll, hll, h⟩ := Option.bind_eq_some_iff.1 h
      obtain ⟨name, hs, rfl⟩ := exists_spells_of_kstrlen hll
      split at h
      · rename_i hempty
        cases h
        obtain rfl := List.length_eq_zero_iff.1 hempty
        exact ⟨[], .empty hlt hs, rfl⟩
      · rename_i hne
        have hne : name ≠ [] := mt List.length_eq_zero_iff.2 hne
        obtain ⟨d, hd, h⟩ := Option.bind_eq_some_iff.1 h
        have hstarts := kstrstartswith_ne_zero hs hpath hd
        split at h
        · rename_i hboth
          obtain ⟨vs, hvs, rfl⟩ := ih h
          have hin : InDir w name := ⟨hstarts.1 hboth.1, (slashCount_eq_zero hs _).1 hboth.2⟩
          refine ⟨_, .header hlt hs hne hvs, ?_⟩
          rw [headersIn_cons_of_inDir hin, List.length_cons, recordAll, Nat.add_assoc, Nat.add_comm 1]
        · rename_i hnot
          obtain ⟨vs, hvs, rfl⟩ := ih h
          have hout : ¬InDir w name := fun hin =>
            hnot ⟨hstarts.2 hin.1, (slashCount_eq_zero hs _).2 hin.2⟩
          refine ⟨_, .header hlt hs hne hvs, ?_⟩
          rw [headersIn_cons_of_not_inDir hout]
    · cases h
      exact ⟨[], .bound ‹_›, rfl⟩

theorem Tarfs.Passes.visited (h : t.Passes w offset ps) : ∃ vs, t.Visited offset vs true ∧ headersIn w vs = ps := by
  induction h with
  | stop hlt hs => exact ⟨[], .empty hlt hs, rfl⟩
  | listed hlt hs hne hin _ ih =>
    obtain ⟨vs, hvs, rfl⟩ := ih
    exact ⟨_, .header hlt hs hne hvs, headersIn_cons_of_inDir hin⟩
  | other hlt hs hne hout _ ih =>
    obtain ⟨vs, hvs, rfl⟩ := ih
    exact ⟨_, .header hlt hs hne hvs, headersIn_cons_of_not_inDir hout⟩

theorem Tarfs.Visited.passes {vs : List (Word × List Byte)} (h : t.Visited offset vs true) (w : List Byte) :
    t.Passes w offset (headersIn w vs) := by
  generalize hb : true = atEmpty at h
  induction h with
  | empty hlt hs => exact .stop hlt hs
  | bound _ => cases hb
  | @header _ name _ _ hlt hs hne _ ih =>
    by_cases hin : InDir w name
    · rw [headersIn_cons_of_inDir hin]
      exact .listed hlt hs hne hin (ih hb)
    · rw [headersIn_cons_of_not_inDir hin]
      exact .other hlt hs hne hin (ih hb)

end walk

/-! ## Reading the entries -/

section reading
variable {b : Nat → Dirent} {i k fuel : Nat}

theorem readAll_zero (h : (b i).ino = 0) : readAll (fuel + 1) ⟨b, direntSize * i⟩ = some [] := by
  have hdiv : direntSize * i / direntSize = i := Nat.mul_div_cancel_left i (by decide)
  simp [readAll, readdir, hdiv, h]

theorem readAll_succ (h0 : (b i).ino ≠ 0) (hlen : (b i).reclen = BitVec.ofNat 16 direntSize) :
    readAll (fuel + 1) ⟨b, direntSize * i⟩ = (readAll fuel ⟨b, direntSize * (i + 1)⟩).map (b i :: ·) := by
  have hdiv : direntSize * i / direntSize = i := Nat.mul_div_cancel_left i (by decide)
  have hnext : direntSize * i + (b i).reclen.toNat = direntSize * (i + 1) := by
    rw [hlen]
    rfl
  simp only [readAll, readdir, Nat.mul_mod_right, if_true, hdiv, if_neg h0, hnext, Option.bind_eq_bind,
    Option.bind_some, Option.isSome_some, dite_true, Option.get_some]
  cases readAll fuel ⟨b, direntSize * (i + 1)⟩ <;> rfl

/-- Over entries of the right length `readdir` goes from one to the next. -/
theorem readAll_entries (k i : Nat) (hent : ∀ j, i ≤ j → j < i + k →
      (b j).ino ≠ 0 ∧ (b j).reclen = BitVec.ofNat 16 direntSize) :
    readAll (fuel + k) ⟨b, direntSize * i⟩ =
      (readAll fuel ⟨b, direntSize * (i + k)⟩).map ((List.range' i k).map b ++ ·) := by
  induction k generalizing i with
  | zero => cases readAll fuel ⟨b, direntSize * i⟩ <;> rfl
  | succ k ih =>
    obtain ⟨h0, hlen⟩ := hent i (Nat.le_refl i) (by omega)
    rw [← Nat.add_assoc, readAll_succ h0 hlen, ih (i + 1) fun j hlo hhi => hent j (by omega) (by omega),
      Nat.add_assoc, Nat.add_comm 1, List.range'_succ]
    cases readAll fuel ⟨b, direntSize * (i + (k + 1))⟩ <;> rfl

/-- `readdir` stops behind `k` entries exactly where it meets a 0. -/
theorem readAll_iff (hent : ∀ j < k, (b j).ino ≠ 0 ∧ (b j).reclen = BitVec.ofNat 16 direntSize) :
    Returns (fun fuel => readAll fuel ⟨b, 0⟩) ((List.range k).map b) ↔ (b k).ino = 0 := by
  have hstart (fuel : Nat) := @readAll_entries b fuel k 0 fun j _ hj => hent j (by omega)
  rw [Nat.zero_add, ← List.range_eq_range'] at hstart
  constructor
  · rintro ⟨n, hn⟩
    have hread : readAll (n + 1 + k) ⟨b, direntSize * 0⟩ = some ((List.range k).map b) := hn (n + 1 + k) (by omega)
    rw [hstart] at hread
    obtain ⟨rest, hrest, happ⟩ := Option.map_eq_some_iff.1 hread
    obtain rfl : rest = [] := by simpa using happ
    by_contra hne
    -- an entry there would be returned
    simp only [readAll, readdir, Nat.mul_mod_right, if_true, Nat.mul_div_cancel_left k (show 0 < direntSize by decide),
      if_neg hne, Option.bind_eq_bind, Option.bind_some, Option.isSome_some, dite_true] at hrest
    obtain ⟨_, -, hcons⟩ := Option.bind_eq_some_iff.1 hrest
    cases hcons
  · intro h
    refine .of_le (k + 1) fun fuel hf => ?_
    obtain ⟨m, rfl⟩ : ∃ m, fuel = m + 1 + k := ⟨fuel - 1 - k, by omega⟩
    change readAll (m + 1 + k) ⟨b, direntSize * 0⟩ = _
    rw [hstart, readAll_zero h]
    simp

end reading

section listing
variable {t : Tarfs} {fileStart addr : Word} {w : List Byte} {stale : Nat → Dirent} {ps : List Word}

/-- What a listing that came to an empty name leaves is read back as far as the stale entry behind it allows. -/
theorem readAll_recordAll (hle : ps.length ≤ maxDirSize) :
    Returns (fun fuel => readAll fuel ⟨recordAll t w.length ps 0 stale, 0⟩)
        ((List.range ps.length).map (recordAll t w.length ps 0 stale)) ↔ (stale ps.length).ino = 0 := by
  have hbehind : recordAll t w.length ps 0 stale ps.length = stale ps.length :=
    recordAll_of_ge (Nat.le_of_eq (Nat.zero_add _))
  rw [← hbehind]
  refine readAll_iff fun j hj => ?_
  have hentry : (recordAll t w.length ps 0 stale j).ino = BitVec.ofNat 64 (j + 1) ∧ _ :=
    recordAll_entry hj
  refine ⟨fun h0 => ?_, hentry.2⟩
  rw [hentry.1] at h0
  have := congrArg BitVec.toNat h0
  rw [BitVec.toNat_ofNat, Nat.mod_eq_of_lt (by unfold maxDirSize at hle; omega)] at this
  cases this

theorem DirListed.zero_behind (h : DirListed t fileStart addr stale) (hpath : Spells (t.dirName fileStart) w)
    (haddr : heapStart ≤ addr) :
    ∃ ps, t.Passes w 0 ps ∧ ps.length ≤ maxDirSize ∧ (stale ps.length).ino = 0 := by
  obtain ⟨r, ⟨n, hn⟩, hwritten, hlist⟩ := h
  have hget := hn (max n (w.length + 1)) (Nat.le_max_left ..)
  obtain ⟨l, hl, hget⟩ := Option.bind_eq_some_iff.1 hget
  rw [hpath.kstrlen (by omega)] at hl
  obtain rfl := Option.some.inj hl
  obtain ⟨⟨r', atEmpty⟩, hfill, hget⟩ := Option.bind_eq_some_iff.1 hget
  dsimp only at hget
  split at hget
  · rename_i hempty
    cases hget
    subst hempty
    obtain ⟨vs, hvs, rfl⟩ := visited_of_fillDentsFrom hpath hfill
    simp only [Nat.zero_add] at hwritten hlist
    exact ⟨_, hvs.passes w, hwritten, (readAll_recordAll hwritten).1 hlist⟩
  · -- the loop behind the walk would count up to the address
    have : heapStart.toNat ≤ addr.toNat := haddr
    have htop : heapStart.toNat = 0x0000700000000000 := rfl
    rw [if_neg (by omega)] at hget
    cases hget

theorem Tarfs.Passes.dirListed (hps : t.Passes w 0 ps) (hpath : Spells (t.dirName fileStart) w)
    (hle : ps.length ≤ maxDirSize) (hzero : (stale ps.length).ino = 0) : DirListed t fileStart addr stale := by
  obtain ⟨vs, hvs, rfl⟩ := hps.visited
  obtain ⟨n, hn⟩ := hvs.fillDentsFrom hpath 0 stale
  refine ⟨⟨recordAll t w.length (headersIn w vs) 0 stale, (headersIn w vs).length, (headersIn w vs).length⟩,
    .of_le (max n (w.length + 1)) fun fuel hf => ?_, hle, (readAll_recordAll hle).2 hzero⟩
  have hfill : t.fillDentsFrom (t.dirName fileStart) w.length fuel 0 0 stale = _ := hn fuel (by omega)
  unfold Tarfs.sysGetdents Tarfs.fillDents Tarfs.fillDentsByPath
  rw [hpath.kstrlen (by omega)]
  simp only [Option.bind_eq_bind, Option.bind_some, hfill, if_true, Nat.zero_add]

/-- **Directory iteration**: with the buffer in the heap, `readdir` returns the entries recorded and then NULL,
and no entry from `MAX_DIR_SIZE` on is written, exactly when the walk comes to an empty name, having recorded
at most `MAX_DIR_SIZE` entries, and the `d_ino` behind the last of them was 0 before. -/
theorem readdir_lists (hpath : Spells (t.dirName fileStart) w) (haddr : heapStart ≤ addr) :
    DirListed t fileStart addr stale ↔
      ∃ ps, t.Passes w 0 ps ∧ ps.length ≤ maxDirSize ∧ (stale ps.length).ino = 0 :=
  ⟨fun h => h.zero_behind hpath haddr, fun ⟨_, hps, hle, hzero⟩ => hps.dirListed hpath hle hzero⟩

end listing

/-- One empty file `a` and the zero block behind it. -/
def oneFile : Tarfs where
  mem a := if a = 0x1000 then 0x61 else if 0x1000 + 124 ≤ a ∧ a < 0x1000 + 135 then 0x30 else 0
  tarStart := 0x1000
  tarEnd := 0x1400

theorem oneFile_dirName : Spells (oneFile.dirName oneFile.tarEnd) [] := spells_nil rfl

theorem oneFile_passes : oneFile.Passes [] 0 [0x1000] := by
  have hname : Spells (oneFile.view (oneFile.tarStart + 0)) [0x61] := spells_singleton (by decide) rfl
  refine .listed (by decide) hname (by decide) ⟨List.nil_prefix, List.not_mem_nil⟩
    (.stop (by decide) (spells_nil rfl))

/-- In a buffer of zeros the root's one entry is found, and then the end. -/
theorem readdir_lists_zero : DirListed oneFile oneFile.tarEnd heapStart fun _ => ⟨0, 0, 0, fun _ => 0⟩ :=
  (readdir_lists oneFile_dirName (BitVec.le_refl _)).2 ⟨_, oneFile_passes, by decide, rfl⟩

/-- In a buffer of stale entries `readdir` does not stop behind it. -/
theorem readdir_lists_stale : ¬DirListed oneFile oneFile.tarEnd heapStart fun _ => ⟨1, 0, 280, fun _ => 0⟩ := by
  intro h
  obtain ⟨ps, -, -, hzero⟩ := h.zero_behind oneFile_dirName (BitVec.le_refl _)
  exact absurd hzero (show (1 : Word) ≠ 0 by decide)

end Sbuos
