import Sbuos.Lookups
import Sbuos.Output
import Sbuos.ReadFile
import Sbuos.WorkingDir
import Mathlib.Data.List.TakeWhile
/-!
# cat (bin/cat/cat.c)

`cat` copies its argument, opens it and prints what each `read` delivers with `%s`: up to a newline, at most 1023
bytes, and of these only what stands in front of a NUL (`shown`).

**`cat_prints`**: on an archive of files, whatever path `cat` is given, it prints that file, or says that it could
not open it; it stores to its own buffer only, and in the kernel only the number of the next descriptor has changed.
-/
namespace Sbuos
open Lib

/-- `strcpy` of cat (cat.c:4-12), whose answer is dropped. -/
def strcpyCat (s : Nat → Byte) : Nat → Nat → (Nat → Byte) → Option (Nat → Byte)
  | 0, _, _ => none
  | fuel + 1, i, t =>
    if s i = 0 then some (Function.update t i 0)
    else
      let t := Function.update t i (s i)
      if i ≥ 1024 then some t else strcpyCat s fuel (i + 1) t

/-- The loop of `main` (cat.c:31-37). -/
def catLoop (fd : BitVec 32) (rsp : Word) : Nat → Program → (Nat → Byte) → Option (Program × (Nat → Byte))
  | 0, _, _ => none
  | fuel + 1, p, buffer => do
    let (p, buffer, i) ← p.read fd buffer 1024 fuel rsp
    if (i.setWidth 32).toInt ≤ 0 then some (p, buffer)
    else
      let p ← p.printf fuel (cString "%s") [.str buffer]
      catLoop fd rsp fuel p buffer

/-- `main` once the file is open (cat.c:31-39). -/
def catFile (fd : BitVec 32) (fuel : Nat) (rsp : Word) (p : Program) (buffer : Nat → Byte) :
    Option (Program × (Nat → Byte) × BitVec 32) := do
  let (p, buffer) ← catLoop fd rsp fuel p buffer
  let (p, _) ← p.close fd
  some (p, buffer, 0)

/-- `main` (cat.c:19-40), with `argv[1]` and what `buffer` holds. -/
def catMain (argc : BitVec 32) (argv1 : Nat → Byte) (fuel : Nat) (rsp : Word) (p : Program) (buffer : Nat → Byte) :
    Option (Program × (Nat → Byte) × BitVec 32) :=
  if 2 ≤ argc.toInt then do
    let buffer ← strcpyCat argv1 fuel 0 buffer
    let (p, fd) ← p.openPath buffer oRdonly fuel
    if fd.toInt < 0 then
      let p ← p.printf fuel (cString "cat: %s: Failed to open.\n") [.str argv1]
      some (p, buffer, -1)
    else catFile fd fuel rsp p buffer
  else catFile 0 fuel rsp p buffer

/-! ## What is shown of a file -/

namespace Tarfs

theorem copied_pos (n : Nat) (c : Byte) (l : List Byte) : 0 < copied (n + 1) (c :: l) := by
  rw [copied, List.length_cons]
  omega

/-- The characters in front of the first NUL. -/
def upToNul (l : List Byte) : List Byte := l.takeWhile (· != 0)

/-- What comes out for the bytes of a file: each piece that a `read` delivers, up to its first NUL. -/
def shown : List Byte → List Byte
  | [] => []
  | c :: l => upToNul ((c :: l).take (copied 1023 (c :: l))) ++ shown ((c :: l).drop (copied 1023 (c :: l)))
termination_by l => l.length
decreasing_by
  have hpos : 0 < copied 1023 (c :: l) := copied_pos 1022 c l
  rw [List.length_drop, List.length_cons]
  omega

theorem ne_zero_of_mem_upToNul {l : List Byte} : ∀ c ∈ upToNul l, c ≠ 0 := by
  intro c hc
  simpa using List.mem_takeWhile_imp hc

theorem upToNul_eq_self {l : List Byte} (h : ∀ c ∈ l, c ≠ 0) : upToNul l = l :=
  List.takeWhile_eq_self_iff.2 fun c hc => by simpa using h c hc

theorem ne_zero_of_mem_shown {l : List Byte} : ∀ c ∈ shown l, c ≠ 0 := by
  induction l using shown.induct with
  | case1 => simp [shown]
  | case2 c l ih =>
    rw [shown]
    intro v hv
    rcases List.mem_append.1 hv with hv | hv
    · exact ne_zero_of_mem_upToNul v hv
    · exact ih v hv

/-- **The whole file** is shown exactly if no NUL is in it. -/
theorem shown_eq_self {l : List Byte} : shown l = l ↔ ∀ c ∈ l, c ≠ 0 := by
  refine ⟨fun h => h ▸ ne_zero_of_mem_shown, fun h => ?_⟩
  induction l using shown.induct with
  | case1 => rw [shown]
  | case2 c l ih =>
    rw [shown, upToNul_eq_self fun v hv => h v (List.mem_of_mem_take hv), ih fun v hv => h v (List.mem_of_mem_drop hv),
      List.take_append_drop]

/-- Behind them is a NUL, of the text or put behind it. -/
theorem getElem_upToNul (l : List Byte) : (l ++ [0])[(upToNul l).length]? = some 0 := by
  induction l with
  | nil => rfl
  | cons c l ih =>
    by_cases hc : c = 0
    · simp [upToNul, hc]
    · have hcons : upToNul (c :: l) = c :: upToNul l := List.takeWhile_cons_of_pos (by simpa using hc)
      rw [hcons, List.length_cons, List.cons_append, List.getElem?_cons_succ]
      exact ih

/-- A piece with its NUL, as a string. -/
theorem spells_piece (l : List Byte) (buffer : Nat → Byte) :
    Spells (Stdin.storeAt buffer 0 (l ++ [0])) (upToNul l) := by
  have hpre : upToNul l <+: l := List.takeWhile_prefix _
  have hle := hpre.length_le
  have hlen : (l ++ [0]).length = l.length + 1 := List.length_append
  refine ⟨fun i hi => ?_, ne_zero_of_mem_upToNul, ?_⟩
  · rw [Stdin.storeAt_zero_get buffer (show i < (l ++ [0]).length by omega), List.getElem_append_left (by omega)]
    exact (hpre.getElem hi).symm
  · rw [Stdin.storeAt_zero_get buffer (show (upToNul l).length < (l ++ [0]).length by omega)]
    exact (List.getElem?_eq_some_iff.1 (getElem_upToNul l)).2

end Tarfs

/-! ## The loop -/

section loop
variable {p : Program} {fd : BitVec 32} {i : Fin 15} {rsp : Word} {buffer : Nat → Byte}
open Tarfs

/-- What a `read` of 1024 bytes answers before the end of the file. -/
theorem turns_pos_int (l : List Byte) : 0 < ((BitVec.ofNat 64 (turns 1023 l)).setWidth 32).toInt := by
  have hpos := turns_pos (n := 1023) (l := l)
  have hle : turns 1023 l ≤ 1024 := by
    rw [turns]
    split <;> rw [copied] <;> omega
  have hnat : ((BitVec.ofNat 64 (turns 1023 l)).setWidth 32).toNat = turns 1023 l := by
    rw [BitVec.toNat_setWidth, BitVec.toNat_ofNat]
    omega
  rw [BitVec.toInt_eq_toNat_of_lt (by omega), hnat]
  exact Int.natCast_pos.2 hpos

/-- `%s` of a string. -/
theorem printf_string {s : Nat → Byte} {w : List Byte} (h : Spells s w) (p : Program) :
    ∃ printBuffer, Returns (fun fuel => p.printf fuel (cString "%s") [.str s])
      { p with screen := p.screen.writes w, printBuffer := printBuffer } := by
  have hformat : Spells (cString "%s") [percent, 0x73] := spells_cString rfl (by decide)
  have htext : [Item.str s w h].flatMap Item.text = w := List.append_nil w
  have hprint := @Program.printf_eq p _ [.str s w h] hformat ⟨trivial, nofun, trivial⟩
  rwa [htext] at hprint

/-- A turn before the end of the file `f`, with `l` left of it. -/
theorem catLoop_turn {f : Fd} {l : List Byte} (rsp : Word) (buffer : Nat → Byte)
    (hi : (fd.signExtend 64).toNat = i) (hf : p.kernel.fd i = f) (hl : p.kernel.archive.rest f = l)
    (hfile : f.fileStartAddress ≠ 0) (hlt : f.fileOffset < f.fileSize) :
    ∃ printBuffer buffer' n, (∀ fuel, n ≤ fuel → catLoop fd rsp (fuel + 1) p buffer = catLoop fd rsp fuel
        { p with
          kernel := p.kernel.withFd i (skip f (copied 1023 l))
          screen := p.screen.writes (upToNul (l.take (copied 1023 l)))
          printBuffer := printBuffer } buffer') ∧ ∀ j, 1024 ≤ j → buffer' j = buffer j := by
  have hroom : copied 1023 l ≤ 1023 := by
    rw [copied]
    omega
  obtain ⟨printBuffer, n, hprint⟩ := printf_string (spells_piece (l.take (copied 1023 l)) buffer)
    { p with kernel := p.kernel.withFd i (skip f (copied 1023 l)) }
  refine ⟨printBuffer, Stdin.storeAt buffer 0 (l.take (copied 1023 l) ++ [0]), max n (turns 1023 l),
    fun fuel hfuel => ?_, fun j hj => Stdin.storeAt_ge _ _ _ _ ?_⟩
  · have hturns : turns 1023 (p.kernel.archive.rest f) ≤ fuel := by
      rw [hl]
      omega
    have hread := readToBuffer_eq hlt (show 1 ≤ (1024 : Word).toNat by decide) hturns buffer
    have hcount : p.kernel.archive.count f 1024 = copied 1023 l := hl ▸ rfl
    rw [hcount, hl, show (1024 : Word).toNat - 1 = 1023 from rfl] at hread
    subst hf
    rw [catLoop, Program.read_file hi hfile hread]
    have hmore := turns_pos_int l
    have hprint := hprint fuel (by omega)
    dsimp only at hprint
    simp only [Option.bind_eq_bind, Option.bind_some]
    rw [if_neg (Int.not_le.2 hmore), hprint]
    rfl
  · -- the piece and its NUL fit
    rw [List.length_append, List.length_take, List.length_singleton]
    omega

/-- **The loop prints the rest of the file.** By induction on what is left of it. -/
theorem catLoop_eq (rsp : Word) (hi : (fd.signExtend 64).toNat = i) {l : List Byte} :
    ∀ (p : Program) {f : Fd} (buffer : Nat → Byte), p.kernel.fd i = f → p.kernel.archive.rest f = l →
      f.fileStartAddress ≠ 0 → ∃ printBuffer buffer', Returns (fun fuel => catLoop fd rsp fuel p buffer)
          ({ p with
              kernel := p.kernel.withFd i (skip f l.length)
              screen := p.screen.writes (shown l)
              printBuffer := printBuffer }, buffer') ∧ ∀ j, 1024 ≤ j → buffer' j = buffer j := by
  induction l using shown.induct with
  | case1 =>
    intro p f buffer hf hl hfile
    -- the read answers 0
    have heof : f.fileSize ≤ f.fileOffset := by
      have hlen := length_rest p.kernel.archive f
      rw [hl, List.length_nil] at hlen
      rw [BitVec.le_def]
      omega
    subst hf
    refine ⟨p.printBuffer, buffer, .of_le 1 fun fuel hfuel => ?_, fun _ _ => rfl⟩
    obtain ⟨fuel, rfl⟩ : ∃ f, fuel = f + 1 := ⟨fuel - 1, by omega⟩
    rw [catLoop, Program.read_file hi hfile (readToBuffer_eof heof fuel buffer 1024), List.length_nil, skip_zero, shown]
    rfl
  | case2 c l ih =>
    intro p f buffer hf hl hfile
    have hle : copied 1023 (c :: l) ≤ (c :: l).length := by
      rw [copied]
      omega
    have hlt : f.fileOffset < f.fileSize := by
      have hlen := length_rest p.kernel.archive f
      rw [hl, List.length_cons] at hlen
      rw [BitVec.lt_def]
      omega
    obtain ⟨printBuffer₁, buffer₁, n, hturn, hsame⟩ := catLoop_turn rsp buffer hi hf hl hfile hlt
    rw [shown]
    generalize copied 1023 (c :: l) = k at *
    have hrest : p.kernel.archive.rest (skip f k) = (c :: l).drop k := by rw [rest_skip (hl ▸ hle), hl]
    obtain ⟨printBuffer₂, buffer₂, ⟨m, hloop⟩, hsame₂⟩ := ih
      { p with
        kernel := p.kernel.withFd i (skip f k)
        screen := p.screen.writes (upToNul ((c :: l).take k))
        printBuffer := printBuffer₁ } buffer₁ Kernel.withFd_fd hrest hfile
    refine ⟨printBuffer₂, buffer₂, .of_le (max n m + 1) fun fuel hfuel => ?_,
      fun j hj => (hsame₂ j hj).trans (hsame j hj)⟩
    obtain ⟨fuel, rfl⟩ : ∃ f, fuel = f + 1 := ⟨fuel - 1, by omega⟩
    rw [hturn fuel (by omega)]
    have hloop := hloop fuel (by omega)
    dsimp only at hloop
    have hskip : skip (skip f k) ((c :: l).drop k).length = skip f (c :: l).length := by
      rw [skip, skip, skip, BitVec.add_assoc, ← BitVec.ofNat_add, List.length_drop, Nat.add_sub_cancel' hle]
    rw [hloop, Kernel.withFd_withFd, hskip, Screen.writes_writes]

end loop

/-! ## The argument and the open -/

/-- The copy in front of its NUL, from `i` on. -/
theorem strcpyCat_eq {s : Nat → Byte} {w : List Byte} (h : Spells s w) (hlen : w.length ≤ 1024) (k : Nat) :
    ∀ {fuel i : Nat} {t : Nat → Byte}, i + k = w.length → k < fuel →
      strcpyCat s fuel i t = some (Stdin.storeAt t i (w.drop i ++ [0])) := by
  induction k with
  | zero =>
    intro fuel i t hi hfuel
    obtain ⟨fuel, rfl⟩ := Nat.exists_eq_add_of_lt hfuel
    have hnul : s i = 0 := by rw [show i = w.length by omega]; exact h.nul
    rw [Nat.zero_add, strcpyCat, if_pos hnul, List.drop_of_length_le (by omega)]
    rfl
  | succ k ih =>
    intro fuel i t hi hfuel
    obtain ⟨fuel, rfl⟩ : ∃ f, fuel = f + 1 := ⟨fuel - 1, by omega⟩
    have hlt : i < w.length := by omega
    rw [strcpyCat, if_neg (h.apply_ne_zero hlt), if_neg (by omega), ih (by omega) (by omega), h.chars i hlt,
      List.drop_eq_getElem_cons hlt]
    rfl

namespace Tarfs

/-- The name that an open looks for, given the path it normalises: behind an empty normal form the rest of that path
is still there. -/
def fileName (w : List Byte) : List Byte :=
  if normalText (slash :: w) = [] then w else (normalText (slash :: w)).tail

/-- The content of the member of that name; a directory and a name that is not there have none. -/
def contentOf (ms : List Member) (name : List Byte) : List Byte :=
  (ms.find? fun m => m.name = name).elim [] Member.content

section lookup
variable {t : Tarfs} {ms : List Member} {m : Member} {bs : List Byte} {off : Nat} {p a : Word}

/-- The contents lie behind address 0. -/
theorem Rest.content_ne_zero (h : Rest t off ms bs)
    (hm : (m, p) ∈ ms.zip (headerAddrs (t.tarStart + BitVec.ofNat 64 off) ms)) : p + 512 ≠ 0 := by
  induction ms generalizing off bs with
  | nil => cases hm
  | cons m' ms ih =>
    obtain ⟨-, -, bs', hrest⟩ := h.cons_inv
    rw [headerAddrs, List.zip_cons_cons, List.mem_cons] at hm
    rcases hm with hm | hm
    · cases hm
      have hend := hrest.end_eq
      have hlt := t.tarEnd.isLt
      rw [laidOut] at hend
      intro h0
      have h0' := congrArg BitVec.toNat h0
      simp only [BitVec.toNat_add, BitVec.toNat_ofNat, BitVec.ofNat_eq_ofNat] at h0'
      omega
    · rw [BitVec.add_assoc, ← BitVec.ofNat_add] at hm
      exact ih hrest hm

theorem contentOf_cases (ms : List Member) (name : List Byte) (a : Word) :
    (∃ m p, (m, p) ∈ ms.zip (headerAddrs a ms) ∧ m.name = name ∧ contentOf ms name = m.content) ∨
      name ∉ ms.map Member.name ∧ contentOf ms name = [] := by
  cases hfind : ms.find? fun m => m.name = name with
  | none =>
    refine .inr ⟨fun hmem => ?_, by rw [contentOf, hfind]; rfl⟩
    obtain ⟨m, hm, he⟩ := List.mem_map.1 hmem
    exact List.find?_eq_none.1 hfind m hm (decide_eq_true he)
  | some m =>
    obtain ⟨p, hp⟩ := exists_header (a := a) (List.mem_of_find?_eq_some hfind)
    exact .inl ⟨m, p, hp, by simpa using List.find?_some hfind, by rw [contentOf, hfind]; rfl⟩

/-- The file at `a`, of this content. -/
theorem rest_of_holds {content : List Byte} (hlen : content.length < 2 ^ 64) (h : t.Holds a content) :
    t.rest ⟨a, BitVec.ofNat 64 content.length, 0⟩ = content := by
  refine List.ext_getElem ?_ fun i hi hi' => ?_
  · rw [length_rest, BitVec.toNat_ofNat, Nat.mod_eq_of_lt hlen]
    rfl
  · simp only [rest, List.getElem_map, List.getElem_range]
    rw [← h i hi', view, BitVec.ofNat_eq_ofNat, BitVec.zero_add]

end lookup

/-- A number that `fd_table` has, through the types of `open` and `read`. -/
theorem fd_casts : ∀ i : Fin 15, (((BitVec.ofInt 64 (i : Int)).setWidth 32).signExtend 64).toNat = i ∧
    0 ≤ ((BitVec.ofInt 64 (i : Int)).setWidth 32).toInt := by
  decide

end Tarfs

/-- The process with a file opened at `i`. -/
def Pcb.opened (i : Fin 15) (f : Fd) (p : Pcb) : Pcb := { p.setFd i f with nextFd := p.nextFd + 1 }

theorem opened_fd (i : Fin 15) (f : Fd) (k : Kernel) : (k.withPcb (Pcb.opened i f)).fd i = f := by
  rw [Kernel.fd, Kernel.withPcb_activePcb]
  exact Function.update_self ..

theorem opened_withFd (i : Fin 15) (f g : Fd) (k : Kernel) :
    (k.withPcb (Pcb.opened i f)).withFd i g = k.withPcb (Pcb.opened i g) := by
  rw [Kernel.withFd, Kernel.withPcb_withPcb]
  congr 1
  funext proc
  simp [Pcb.opened, Pcb.setFd]

theorem openFd_opened {proc : Pcb} (hroom : Room proc) (a n : Word) :
    ∃ i : Fin 15, (i : Int) = proc.nextFd ∧ Tarfs.openFd proc a n = some (proc.opened i ⟨a, n, 0⟩, (i : Int)) := by
  have hroom' : 0 ≤ proc.nextFd ∧ proc.nextFd < 15 := hroom
  have hi : ((proc.nextFd.toNat : Nat) : Int) = proc.nextFd := Int.toNat_of_nonneg hroom.1
  refine ⟨⟨proc.nextFd.toNat, by omega⟩, hi, ?_⟩
  rw [Tarfs.openFd, dif_pos hroom']
  exact congrArg some (Prod.ext rfl hi.symm)

/-- A path that a process can use: merged and with the base it is no longer than `abspath` and has no more parts than
`parts`. `w` is the path behind its first slash. -/
structure Usable (proc : Pcb) (path : Nat → Byte) (rel w : List Byte) : Prop where
  spells : Spells path rel
  merged : ∃ base, Spells proc.wd base ∧ Sbuos.merged base rel = slash :: w
  length_lt : (slash :: w).length < 100
  count_le : (slash :: w).count slash ≤ 13

section openPath
variable {ms : List Member} {bs rel w : List Byte} {p : Program} {path : Nat → Byte} {proc : Pcb}
open Tarfs

theorem spells_fileName {abspath : Nat → Byte} (h : Spells abspath (normalText (slash :: w)))
    (hrest : normalText (slash :: w) = [] → Spells (skipSlash abspath) w) :
    Spells (skipSlash abspath) (fileName w) := by
  rw [fileName]
  split
  · exact hrest ‹_›
  · obtain ⟨v, hv⟩ := exists_cons_of_normalText ‹_›
    rw [hv] at h ⊢
    exact spells_skipSlash h

/-- `do_open` of a file up to the lookups. -/
theorem doOpen_file {t : Tarfs} (hpath : Usable proc path rel w) (g : PathBuf) :
    ∃ g', Spells (skipSlash g'.abspath) (fileName w) ∧ ∃ n, ∀ fuel, n ≤ fuel →
      doOpen t fuel g path oRdonly proc = (t.searchFileOpen fuel g'.abspath).bind fun found =>
        if found ≠ 0 then (t.doOpenFile fuel proc g'.abspath).map fun r => (g', r.1, BitVec.ofInt 64 r.2)
        else some (g', proc, -1) := by
  obtain ⟨base, hwd, hmerged⟩ := hpath.merged
  obtain ⟨abspath, temp', n, hmerge, hspell, hrest⟩ :=
    pathMerge_spells hwd hpath.spells hmerged hpath.length_lt hpath.count_le g
  refine ⟨⟨g.before, abspath, temp'⟩, ?_, n, fun fuel hf => ?_⟩
  · exact spells_fileName hspell hrest
  · unfold doOpen
    rw [hmerge fuel hf]
    simp only [Option.bind_eq_bind, Option.bind_some, if_true]
    cases hfound : t.searchFileOpen fuel abspath with
    | none => rfl
    | some found =>
      simp only [Option.bind_some]
      split
      · cases t.doOpenFile fuel proc abspath <;> rfl
      · rfl

/-- An open that does not find its file changes the buffers only. -/
theorem openPath_fails {g : PathBuf} {fuel : Nat}
    (h : doOpen p.kernel.archive fuel p.paths path oRdonly p.kernel.activePcb = some (g, p.kernel.activePcb, -1)) :
    p.openPath path oRdonly fuel = some ({ p with paths := g }, -1) := by
  have hsame : (p.kernel.withPcb fun _ => p.kernel.activePcb) = p.kernel := Kernel.withPcb_id
  rw [Program.openPath, h]
  simp only [Option.bind_eq_bind, Option.bind_some, hsame]
  rfl

/-- **An open for reading** finds the files that have content, and no others. -/
theorem openPath_file (h : p.kernel.archive.Laid ms bs) (heven : ∀ m ∈ ms.dropLast, m.Even)
    (hroom : Room p.kernel.activePcb) (hpath : Usable p.kernel.activePcb path rel w) :
    (contentOf ms (fileName w) = [] ∧
        ∃ g, Returns (fun fuel => p.openPath path oRdonly fuel) ({ p with paths := g }, -1)) ∨
      contentOf ms (fileName w) ≠ [] ∧ ∃ g i f, ((i : Fin 15) : Int) = p.kernel.activePcb.nextFd ∧
        f.fileStartAddress ≠ 0 ∧ p.kernel.archive.rest f = contentOf ms (fileName w) ∧
        Returns (fun fuel => p.openPath path oRdonly fuel)
          ({ p with kernel := p.kernel.withPcb (Pcb.opened i f), paths := g }, (BitVec.ofInt 64 i).setWidth 32) := by
  obtain ⟨g, hspell, n, hopen⟩ := doOpen_file (t := p.kernel.archive) hpath p.paths
  have hwalk : ∀ {α : Type} (found : Word → Word → α) (absent : α) (fuel : Nat),
      ms.length + 100 + (fileName w).length < fuel →
      p.kernel.archive.tarWalk (skipSlash g.abspath) found absent fuel 0 =
        some (lookup found absent (fileName w) p.kernel.archive.tarStart ms) := by
    intro α found absent fuel hfuel
    simpa using h.rest.tarWalk found absent heven hspell hfuel
  rcases contentOf_cases ms (fileName w) p.kernel.archive.tarStart with
    ⟨m, q, hm, hname, hcontent⟩ | ⟨habsent, hcontent⟩
  · have hmem := (List.of_mem_zip hm).1
    have hlookup : ∀ {α : Type} (found : Word → Word → α) (absent : α),
        lookup found absent (fileName w) p.kernel.archive.tarStart ms = found q (BitVec.ofNat 64 m.content.length) :=
      fun found absent => hname ▸ lookup_found h.distinct hm
    rw [hcontent]
    by_cases hnil : m.content = []
    · -- a member without content is passed over
      refine .inl ⟨hnil, g, .of_le (max n (ms.length + 101 + (fileName w).length)) fun fuel hfuel => ?_⟩
      refine openPath_fails ?_
      rw [hopen fuel (by omega), searchFileOpen, hwalk _ _ fuel (by omega), hlookup, hnil]
      rfl
    · have hvalid := h.valid m hmem
      obtain ⟨i, hi, hslot⟩ := openFd_opened hroom (q + 512) (BitVec.ofNat 64 m.content.length)
      refine .inr ⟨hnil, g, i, ⟨q + 512, BitVec.ofNat 64 m.content.length, 0⟩, hi,
        h.rest.content_ne_zero (by simpa using hm),
        rest_of_holds (Nat.lt_trans hvalid.size_lt (by decide)) (h.rest.holds_content (by simpa using hm)),
        .of_le (max n (ms.length + 101 + (fileName w).length)) fun fuel hfuel => ?_⟩
      rw [Program.openPath, hopen fuel (by omega), searchFileOpen, hwalk _ _ fuel (by omega), hlookup,
        if_neg (ofNat_length_ne_zero hvalid hnil), doOpenFile, hwalk _ _ fuel (by omega), hlookup]
      simp only [Option.bind_eq_bind, Option.bind_some, hslot]
      rfl
  · refine .inl ⟨hcontent, g, .of_le (max n (ms.length + 101 + (fileName w).length)) fun fuel hfuel => ?_⟩
    refine openPath_fails ?_
    rw [hopen fuel (by omega), searchFileOpen, hwalk _ _ fuel (by omega), lookup_absent habsent]
    rfl

end openPath

/-! ## The program -/

/-- The message for a file that it cannot open. -/
def catFailed (rel : List Byte) : List Byte := ascii "cat: " ++ rel ++ ascii ": Failed to open.\n"

/-- What `cat` prints when its argument is `rel` and the file has this content. -/
def catText (rel content : List Byte) : List Byte := if content = [] then catFailed rel else Tarfs.shown content

theorem printf_catFailed {s : Nat → Byte} {rel : List Byte} (h : Spells s rel) (p : Program) :
    ∃ printBuffer, Returns (fun fuel => p.printf fuel (cString "cat: %s: Failed to open.\n") [.str s])
      { p with screen := p.screen.writes (catFailed rel), printBuffer := printBuffer } := by
  have hformat : Spells (cString "cat: %s: Failed to open.\n")
      (ascii "cat: " ++ [percent, 0x73] ++ ascii ": Failed to open.\n") :=
    spells_cString (by decide +kernel) (by decide +kernel)
  exact Program.printf_message _ _ (by decide +kernel) (by decide +kernel) hformat h p

section main
variable {ms : List Member} {bs rel w : List Byte} {p : Program} {path : Nat → Byte} {argc : BitVec 32}
  {text : List Byte} {rsp : Word}
open Tarfs

/-- A path is shorter than the buffer of cat. -/
theorem Usable.length_rel_lt {proc : Pcb} (h : Usable proc path rel w) : rel.length < 1024 := by
  obtain ⟨base, -, hmerged⟩ := h.merged
  have hlen := h.length_lt
  rw [← hmerged, Sbuos.merged] at hlen
  split at hlen
  · omega
  · split at hlen <;> simp only [List.length_append, List.length_drop] at hlen <;> omega

/-- Its copy in that buffer. -/
theorem strcpyCat_copies (h : Spells path rel) (hlen : rel.length < 1024) (buffer : Nat → Byte) :
    ∃ buffer₁, (∀ fuel, rel.length < fuel → strcpyCat path fuel 0 buffer = some buffer₁) ∧ Spells buffer₁ rel ∧
      ∀ j, 1024 ≤ j → buffer₁ j = buffer j := by
  refine ⟨Stdin.storeAt buffer 0 (rel ++ [0]), fun fuel hf => ?_, ?_, fun j hj => Stdin.storeAt_ge _ _ _ _ ?_⟩
  · rw [strcpyCat_eq h (Nat.le_of_lt hlen) rel.length (Nat.zero_add _) hf, List.drop_zero]
  · have hpiece := spells_piece rel buffer
    rwa [upToNul_eq_self h.ne_zero] at hpiece
  · rw [List.length_append, List.length_singleton]
    omega

/-- **cat prints the file it is given**, byte for byte up to the NULs in it, or that it could not open it. The screen
shows what was there and then that; `cat` stores to its buffer and to rows above the status line only, and the kernel
is as before, but for the slot that is free again and the next descriptor. -/
theorem cat_prints (h : p.kernel.archive.Laid ms bs) (heven : ∀ m ∈ ms.dropLast, m.Even)
    (hroom : Room p.kernel.activePcb) (hpath : Usable p.kernel.activePcb path rel w) (hargc : 2 ≤ argc.toInt)
    (hshows : Screen.Before text p.screen) (hcol : p.screen.col < 80) (buffer : Nat → Byte) :
    ∃ p' buffer' ret, Returns (fun fuel => catMain argc path fuel rsp p buffer) (p', buffer', ret) ∧
      Screen.Before ((catText rel (contentOf ms (fileName w))).foldl Screen.feed text) p'.screen ∧
      Screen.Above p.screen p'.screen ∧ (∀ j, 1024 ≤ j → buffer' j = buffer j) ∧
      (ret = 0 ↔ contentOf ms (fileName w) ≠ []) ∧
      (shown (contentOf ms (fileName w)) = contentOf ms (fileName w) ↔ ∀ c ∈ contentOf ms (fileName w), c ≠ 0) ∧
      ∃ i : Fin 15, (i : Int) = p.kernel.activePcb.nextFd ∧ p'.kernel =
        if contentOf ms (fileName w) = [] then p.kernel else p.kernel.withPcb (Pcb.opened i ⟨0, 0, 0⟩) := by
  have hlen := hpath.length_rel_lt
  obtain ⟨buffer₁, hcopy, hspells, hsame₁⟩ := strcpyCat_copies hpath.spells hlen buffer
  have hpath₁ : Usable p.kernel.activePcb buffer₁ rel w := { hpath with spells := hspells }
  rcases openPath_file h heven hroom hpath₁ with ⟨hnil, g, n, hopen⟩ | ⟨hne, g, i, f, hi, hfile, hrest, n, hopen⟩
  · -- not found
    obtain ⟨printBuffer, m, hprint⟩ := printf_catFailed hpath.spells { p with paths := g }
    obtain ⟨hbefore, -, habove⟩ := hshows.shows hcol (catFailed rel)
    obtain ⟨i, hi, -⟩ := openFd_opened hroom 0 0
    refine ⟨{ p with paths := g, screen := p.screen.writes (catFailed rel), printBuffer := printBuffer }, buffer₁, -1,
      .of_le (max (rel.length + 1) (max n m)) fun fuel hfuel => ?_, ?_, ?_, hsame₁, ?_, shown_eq_self, i, hi, ?_⟩
    · have hopen := hopen fuel (by omega)
      have hprint := hprint fuel (by omega)
      dsimp only at hopen hprint
      rw [catMain, if_pos hargc, hcopy fuel (by omega)]
      simp only [Option.bind_eq_bind, Option.bind_some, hopen]
      rw [if_pos (by decide), hprint]
      rfl
    · rw [catText, if_pos hnil]
      dsimp only
      exact hbefore
    · dsimp only
      exact habove
    · exact iff_of_false (by decide) fun hne => hne hnil
    · rw [if_pos hnil]
  · -- opened at the next slot
    obtain ⟨hindex, hpos⟩ := fd_casts i
    obtain ⟨printBuffer, buffer₂, ⟨m, hloop⟩, hsame₂⟩ := catLoop_eq rsp hindex
      { p with kernel := p.kernel.withPcb (Pcb.opened i f), paths := g } buffer₁ (opened_fd i f _) hrest hfile
    obtain ⟨hbefore, -, habove⟩ := hshows.shows hcol (shown (contentOf ms (fileName w)))
    refine ⟨{ p with
        kernel := p.kernel.withPcb (Pcb.opened i ⟨0, 0, 0⟩)
        paths := g
        screen := p.screen.writes (shown (contentOf ms (fileName w)))
        printBuffer := printBuffer }, buffer₂, 0, .of_le (max (rel.length + 1) (max n m)) fun fuel hfuel => ?_, ?_,
      ?_, fun j hj => (hsame₂ j hj).trans (hsame₁ j hj), iff_of_true rfl hne, shown_eq_self, i, hi,
      (if_neg hne).symm⟩
    · have hopen := hopen fuel (by omega)
      have hloop := hloop fuel (by omega)
      dsimp only at hopen hloop
      rw [catMain, if_pos hargc, hcopy fuel (by omega)]
      simp only [Option.bind_eq_bind, Option.bind_some, hopen]
      rw [if_neg (Int.not_lt.2 hpos), catFile, hloop]
      simp only [Option.bind_eq_bind, Option.bind_some, Program.close_eq hindex, opened_withFd]
    · rw [catText, if_neg hne]
      dsimp only
      exact hbefore
    · dsimp only
      exact habove

end main

/-- A file of one line. -/
def oneLine : Member := ⟨[0x62], [0x68, 0x69, 10]⟩

theorem oneLine_laid : (Tarfs.pack [oneLine]).Laid [oneLine] (archiveBytes [oneLine]) := by
  have hvalid : oneLine.Valid := ⟨by decide, by decide, by decide, by decide⟩
  refine Tarfs.pack_laid (by simpa using hvalid) (by decide) ?_
  simp only [archiveBytes, List.length_append, List.length_replicate, hvalid.isHeader.length_eq, padding]
  decide

/-- A process in `/` with the first descriptor free, and an empty screen. -/
def catInRoot : Program where
  kernel := ⟨{ (default : Sched) with pcbs := fun _ => { inRoot with nextFd := 3 } }, .init, 0, Tarfs.pack [oneLine]⟩
  paths := ⟨0, fun _ => 0, fun _ => 0⟩
  screen := Screen.top fun _ => 0
  printBuffer := fun _ => 0

/-- `cat b`, in the root. -/
theorem cat_prints_line : ∃ p' buffer', Returns (fun fuel => catMain 2 (cString "b") fuel 0 catInRoot fun _ => 0)
    (p', buffer', 0) ∧ Screen.Before ([0x68, 0x69, 10].foldl Screen.feed []) p'.screen := by
  have hpath : Usable catInRoot.kernel.activePcb (cString "b") [0x62] [0x62] :=
    { spells := spells_cString rfl (by decide)
      merged := ⟨[slash], inRoot_wd, by decide⟩
      length_lt := by decide
      count_le := by decide }
  have hroom : Room catInRoot.kernel.activePcb := ⟨by decide, by decide⟩
  have hcontent : Tarfs.contentOf [oneLine] (Tarfs.fileName [0x62]) = [0x68, 0x69, 10] := by decide
  obtain ⟨p', buffer', ret, hrun, hbefore, -, -, hret, hall, -⟩ := @cat_prints _ _ _ _ catInRoot _ 2 _ 0 oneLine_laid
    (by simp) hroom hpath (by decide) (Screen.Before.top _) (by decide) fun _ => 0
  rw [hcontent] at hret hall hbefore
  obtain rfl := hret.2 (by decide)
  rw [catText, if_neg (by decide), hall.2 (by decide)] at hbefore
  exact ⟨p', buffer', hrun, hbefore⟩

end Sbuos
