import Sbuos.PathSearch
import Sbuos.Prompt
import Sbuos.WorkingDir
/-!
# A command of the shell (bin/sbush/sbushell.c:113-210, bin/sbush/strutil.c:48-53)

`do_command` takes a line to be a change of directory, the end of the shell, an assignment or a program, which a child
looks for while the shell waits, or does not where a `&` ends the line. The line stands in the memory of the shell
below its heap; the child has a copy of that memory. What `fork` and `waitpid` answer is an argument.

`Command.parse` says what a line means, `Does` what is to be done for it.

**`command_meant`**: `do_command` does what its line means.
-/
namespace Sbuos
open Lib

def ampersand : Byte := 0x26

/-- `strprefix` (strutil.c:48-53). -/
def strprefix (pref str : Nat → Byte) : Int :=
  if (List.range (strlen pref).toNat).any fun i => pref i != str i then 0 else -1

/-- `chdir` (stdlib.c:98-100). -/
def Program.chdir (path : Nat → Byte) (fuel : Nat) (p : Program) : Option (Program × Word) := do
  let (paths, proc, ret) ← doChdir p.kernel.archive fuel p.paths path p.kernel.activePcb
  let proc ← proc
  some ({ p with kernel := p.kernel.withPcb fun _ => proc, paths := paths }, ret)

/-- The shell: its variables and memory, and what is below it. -/
structure Shell where
  store : VarStore
  program : Program
  exitYet : Bool

/-- How `do_command` ends: it returns to the loop of the shell, or it was the child. -/
inductive Ending
  | returns (status : BitVec 32) (s : Shell)
  | child (p : Program) (executes : Option Pcb)

/-- `bg`, and the line without its `&` (sbushell.c:131-136). -/
def takeBg (command : Nat) (mem : Nat → Byte) : Bool × (Nat → Byte) :=
  let l := strlen (shift command mem)
  let last := (command + l - 1).toNat
  if mem last = ampersand then (true, Function.update mem last 0) else (false, mem)

/-- `do_command` (sbushell.c:113-210) on the line at `command`. `pid` is what `fork` returns, `waited` the status that
`waitpid` stores. -/
def doCommand (command joinedFilename slashLiteral : Nat) (pid waited : BitVec 32) (userSp : Word) (fuel : Nat)
    (s : Shell) : Option Ending :=
  let mem := s.store.heap.mem
  if strprefix (cString "cd ") (shift command mem) ≠ 0 then do
    let dir := shift (command + 3) mem
    let (p, ret) ← s.program.chdir dir fuel
    if ret.setWidth 32 ≠ (0 : BitVec 32) then do
      let p ← p.printf fuel (cString "Directory '%s' not found!\n") [.str dir]
      some (.returns (-1) { s with program := p })
    else some (.returns 0 { s with program := p })
  else if strcomp (cString "exit") (shift command mem) = 0 then some (.returns 0 { s with exitYet := true })
  else do
    let (bg, mem) := takeBg command mem
    let (argv, y) ← strsplit fuel command blank { s.store.heap with mem := mem }
    let store : VarStore := { s.store with heap := y.heap }
    let argv0 := ptrRead y.heap.mem argv
    let pos := strsearch (shift argv0 y.heap.mem) assign
    if pos ≠ -1 then some (.returns 0 { s with store := store.doAssignment argv0 pos.toNat })
    else do
      let (_, h) ← getEnvp store.vars store.heap
      let store : VarStore := { store with heap := h }
      if pid ≠ 0 then some (.returns (if bg then 0 else waited) { s with store := store })
      else do
        let (p, executes) ← runChild command argv0 joinedFilename slashLiteral userSp fuel store s.program
        some (.child p executes)

/-! ## What a line means -/

inductive Command
  | cd (dir : List Byte)
  | exit
  | assign (name value : List Byte)
  | run (background : Bool) (argv0 : List Byte)
  deriving DecidableEq

namespace Command

/-- The line without a last `&`, and whether there was one. -/
def stripBg (line : List Byte) : Bool × List Byte :=
  if line.getLast? = some ampersand then (true, line.dropLast) else (false, line)

def parse (line : List Byte) : Command :=
  if ascii "cd " <+: line then .cd (line.drop 3)
  else if line = ascii "exit" then .exit
  else
    match splitLine (firstWord (stripBg line).2) with
    | some (name, value) => .assign name value
    | none => .run (stripBg line).1 (firstWord (stripBg line).2)

end Command

/-! ## The functions on strings -/

section strings
variable {f g : Nat → Byte} {u w : List Byte}

theorem strprefix_ne_zero (hf : Spells f u) (hu : u.length < maxStrLen) (hg : Spells g w) :
    strprefix f g ≠ 0 ↔ u <+: w := by
  have hall : strprefix f g ≠ 0 ↔ ∀ i < u.length, f i = g i := by
    unfold strprefix
    rw [hf.strlen hu, Int.toNat_natCast]
    split
    · rename_i hany
      obtain ⟨i, hi, hne⟩ := List.any_eq_true.1 hany
      refine iff_of_false (by simp) fun h => ?_
      exact absurd (h i (List.mem_range.1 hi)) (by simpa using hne)
    · rename_i hany
      refine iff_of_true (by decide) fun i hi => ?_
      by_contra hne
      exact hany (List.any_eq_true.2 ⟨i, List.mem_range.2 hi, by simpa using hne⟩)
  rw [hall]
  constructor
  · intro h
    -- the NUL of the text is no character of the prefix
    have hle : u.length ≤ w.length := by
      by_contra hlt
      exact hf.apply_ne_zero (show w.length < u.length by omega) ((h _ (by omega)).trans hg.nul)
    rw [List.prefix_iff_eq_take]
    refine List.ext_getElem (by rw [List.length_take]; omega) fun i hi hi' => ?_
    rw [List.getElem_take, ← hf.chars i hi, ← hg.chars i (by omega)]
    exact h i hi
  · intro h i hi
    rw [hf.chars i hi, hg.chars i (Nat.lt_of_lt_of_le hi h.length_le)]
    exact h.getElem hi

end strings

namespace Tarfs

/-- Whether there is a directory at that path. -/
def directoryAt (t : Tarfs) (ms : List Member) (base dir : List Byte) : Bool :=
  decide (normalText (merged base dir) = []) ||
    lookup (fun _ n => decide (n = 0)) false (normalText (merged base dir) ++ [slash]).tail t.tarStart ms

end Tarfs
open Tarfs

/-- What the memory of the shell has of a line that is to be done, and what fits of its meaning. -/
structure Ready (s : Shell) (command joined lit : Nat) (ms : List Member) (bs base line path : List Byte)
    (vs : List Var) : Prop where
  laid : s.program.kernel.archive.Laid ms bs
  even : ∀ m ∈ ms.dropLast, m.Even
  wd : Spells s.program.kernel.activePcb.wd base
  first : [slash] <+: base
  spells : Spells (shift command s.store.heap.mem) line
  short : line.length < bufferSize
  before : line = [] → s.store.heap.mem (command - 1) ≠ ampersand
  command_below : command + bufferSize ≤ s.store.heap.brk
  vars : s.store.vars = vs.map Var.node
  reads : ∀ v ∈ vs, s.store.heap.Reads v.node v.binding
  apart : ∀ v ∈ vs, command + bufferSize ≤ v.node.varname ∧ command + bufferSize ≤ v.node.varval
  few : vs.length ≤ 15
  bound : lookupKey (ascii "PATH") (vs.map Var.binding) = some path
  literal : Spells (shift lit s.store.heap.mem) [slash]
  lit_below : lit + 1 < s.store.heap.brk
  lit_apart : lit + 1 < command ∨ command + bufferSize ≤ lit
  lit_joined : lit + 1 < joined ∨ joined + 250 ≤ lit
  joined_below : joined + 250 ≤ s.store.heap.brk
  room : s.store.heap.brk + splitRoom blank (Command.stripBg line).2 + 1500 + splitRoom colon path < 2 ^ 64
  cd : ∀ dir, Command.parse line = .cd dir → Short base dir ∧
    (s.program.kernel.archive.directoryAt ms base dir → (normalText (merged base dir) ++ [slash]).length < 50)
  assign : ∀ value, Command.parse line ≠ .assign [] value
  run : ∀ background argv0, Command.parse line = .run background argv0 → ∀ name ∈ Command.names path argv0,
    Short base name

/-! ## The branches -/

section branches
variable {ms : List Member} {bs base line path dir : List Byte} {vs : List Var} {s : Shell} {p : Program}
  {command joined lit : Nat}

theorem takeBg_eq {mem : Nat → Byte} (h : Spells (shift command mem) line) (hlen : line.length < maxStrLen)
    (hbefore : line = [] → mem (command - 1) ≠ ampersand) :
    (takeBg command mem).1 = (Command.stripBg line).1 ∧
      Spells (shift command (takeBg command mem).2) (Command.stripBg line).2 ∧
      ∀ x, x < command ∨ command + line.length ≤ x → (takeBg command mem).2 x = mem x := by
  have hlast : (command + strlen (shift command mem) - 1).toNat = command + line.length - 1 := by
    rw [h.strlen hlen]
    omega
  rw [takeBg, hlast, Command.stripBg]
  rcases List.eq_nil_or_concat line with rfl | ⟨u, c, rfl⟩
  · rw [List.length_nil, Nat.add_zero, if_neg (hbefore rfl)]
    exact ⟨rfl, h, fun _ _ => rfl⟩
  · rw [List.concat_eq_append] at h ⊢
    have hu : command + (u ++ [c]).length - 1 = command + u.length := by simp
    have hc : mem (command + u.length) = c := by
      have hchar := h.chars u.length (by simp)
      rwa [List.getElem_concat_length rfl] at hchar
    rw [hu, hc, List.getLast?_concat, List.dropLast_concat]
    by_cases hamp : c = ampersand
    · rw [if_pos hamp, if_pos (congrArg some hamp)]
      refine ⟨rfl, ?_, fun x hx => ?_⟩
      · exact {
          chars := fun j (hj : j < u.length) => by
            have hchar := h.chars j (by rw [List.length_append]; omega)
            rw [List.getElem_append_left hj] at hchar
            rw [← hchar]
            exact Function.update_of_ne (show command + j ≠ command + u.length by omega) _ _
          nul := Function.update_self _ _ _
          ne_zero := fun b hb => h.ne_zero b (List.mem_append_left _ hb) }
      · rw [List.length_append, List.length_singleton] at hx
        exact Function.update_of_ne (by omega) _ _
    · rw [if_neg hamp, if_neg fun heq => hamp (Option.some_inj.1 heq)]
      exact ⟨rfl, h, fun _ _ => rfl⟩

theorem Command.length_stripBg_le (line : List Byte) : (Command.stripBg line).2.length ≤ line.length := by
  rw [Command.stripBg]
  split
  · simp
  · exact Nat.le_refl _

/-- The first of the pieces. -/
theorem SplitInto.first {h y : Heap} {w : List Byte} {args : List Nat} (hy : SplitInto h blank w args y)
    (hlen : w.length < maxStrLen) :
    h.brk ≤ ptrRead y.mem h.brk ∧ y.Holds (ptrRead y.mem h.brk) (Command.firstWord w) := by
  have hpos : 0 < (w.splitOn blank).length := List.length_pos_of_ne_nil (List.splitOnP_ne_nil _ _)
  have hargs : 0 < args.length := by rwa [hy.array.strings.length_eq]
  have hfirst : (w.splitOn blank)[0] = Command.firstWord w := by
    rw [Command.firstWord, List.headD_eq_head?_getD, List.head?_eq_getElem?, List.getElem?_eq_getElem hpos]
    rfl
  have hptr : ptrRead y.mem h.brk = args[0] := hy.array.ptrs 0 hargs
  have hbelow := hy.below.get hargs hpos
  have hspells : Spells (shift args[0] y.mem) (w.splitOn blank)[0] := hy.array.strings.get hargs hpos
  have hshort := Command.length_firstWord_le w
  rw [List.get_eq_getElem, List.get_eq_getElem, hfirst] at hbelow
  rw [hptr]
  exact ⟨hbelow.1, hfirst ▸ hspells, by omega, hbelow.2⟩

/-- The line in pieces: the variables and the literal are where they were. -/
theorem Ready.split (h : Ready s command joined lit ms bs base line path vs) :
    ∃ y args, Returns (fun fuel => strsplit fuel command blank
        { s.store.heap with mem := (takeBg command s.store.heap.mem).2 }) (s.store.heap.brk, y) ∧
      SplitInto { s.store.heap with mem := (takeBg command s.store.heap.mem).2 } blank (Command.stripBg line).2 args
        y.heap ∧
      s.store.Keeps { s.store with heap := y.heap } ∧
      Spells (shift command y.heap.mem) (Command.stripBg line).2 ∧ Spells (shift lit y.heap.mem) [slash] := by
  have hmax : maxStrLen = 2040 := rfl
  have hbuffer : bufferSize = 250 := rfl
  have hshort := h.short
  have hcommand := h.command_below
  have hlit := h.lit_below
  have hle := Command.length_stripBg_le line
  obtain ⟨-, hspells, hsame⟩ := takeBg_eq h.spells (by omega) h.before
  have hroom := h.room
  obtain ⟨y, args, hret, hy⟩ := strsplit_eq
    (h := { s.store.heap with mem := (takeBg command s.store.heap.mem).2 }) blank hspells (by omega)
    (by dsimp only; omega) (by dsimp only; omega)
  have hbrk : s.store.heap.brk ≤ y.heap.brk := hy.le
  have hmem : ∀ x, command + bufferSize ≤ x ∨ x < command → x < s.store.heap.brk →
      y.heap.mem x = s.store.heap.mem x := fun x hx hlt => (hy.same x hlt).trans (hsame x (by omega))
  refine ⟨y, args, hret, hy, ⟨rfl, fun node hnode p hr => ?_⟩, ?_, ?_⟩
  · obtain ⟨v, hv, rfl⟩ := List.mem_map.1 (h.vars ▸ hnode)
    obtain ⟨hname, hvalue⟩ := h.apart v hv
    have hbelow := hr.1.below
    have hbelow' := hr.2.below
    exact ⟨⟨hr.1.spells.congr fun i _ => hmem _ (.inl (by omega)) (by omega), hr.1.short, by dsimp only; omega⟩,
      ⟨hr.2.spells.congr fun i _ => hmem _ (.inl (by omega)) (by omega), hr.2.short, by dsimp only; omega⟩⟩
  · exact hspells.congr fun i _ => hy.same _ (by dsimp only; omega)
  · refine h.literal.congr fun i hi => hmem _ ?_ ?_
    · rw [List.length_singleton] at hi
      rcases h.lit_apart with hl | hl <;> omega
    · rw [List.length_singleton] at hi
      omega

theorem VarStore.Keeps.trans {s s' s'' : VarStore} (h : s.Keeps s') (h' : s'.Keeps s'') : s.Keeps s'' where
  vars := h'.vars.trans h.vars
  reads node hnode p hr := h'.reads node (h.vars ▸ hnode) p (h.reads node hnode p hr)

end branches

section main
variable {ms : List Member} {bs base line path : List Byte} {vs : List Var} {s : Shell} {command joined lit : Nat}

theorem Ready.length_lt (h : Ready s command joined lit ms bs base line path vs) : line.length < maxStrLen := by
  have hshort := h.short
  have hbuffer : bufferSize = 250 := rfl
  have hmax : maxStrLen = 2040 := rfl
  omega

theorem Ready.cd_iff (h : Ready s command joined lit ms bs base line path vs) :
    strprefix (cString "cd ") (shift command s.store.heap.mem) ≠ 0 ↔ ascii "cd " <+: line :=
  strprefix_ne_zero (spells_cString rfl (by decide +kernel)) (by decide +kernel) h.spells

theorem Ready.exit_iff (h : Ready s command joined lit ms bs base line path vs) :
    strcomp (cString "exit") (shift command s.store.heap.mem) = 0 ↔ line = ascii "exit" :=
  (Spells.strcomp_eq_zero (spells_cString rfl (by decide +kernel)) h.spells (by decide +kernel) h.length_lt).trans
    eq_comm

/-- What is left of `do_command` once the line is in words. -/
theorem Ready.turn (h : Ready s command joined lit ms bs base line path vs) (hcd : ¬ascii "cd " <+: line)
    (hexit : line ≠ ascii "exit") {pid waited : BitVec 32} {userSp : Word} {argv fuel : Nat} {y : Split}
    (hsplit : strsplit fuel command blank { s.store.heap with mem := (takeBg command s.store.heap.mem).2 } =
      some (argv, y)) :
    doCommand command joined lit pid waited userSp fuel s =
      (let argv0 := ptrRead y.heap.mem argv
      let pos := strsearch (shift argv0 y.heap.mem) Sbuos.assign
      if pos ≠ -1 then
        some (.returns 0 { s with store := VarStore.doAssignment argv0 pos.toNat { s.store with heap := y.heap } })
      else do
        let (_, hp) ← getEnvp s.store.vars y.heap
        let store : VarStore := { s.store with heap := hp }
        if pid ≠ 0 then some (.returns (if (Command.stripBg line).1 then 0 else waited) { s with store := store })
        else do
          let (p, executes) ← runChild command argv0 joined lit userSp fuel store s.program
          some (.child p executes)) := by
  obtain ⟨hbg, -, -⟩ := takeBg_eq h.spells h.length_lt h.before
  simp only [doCommand, if_neg (mt h.cd_iff.1 hcd), if_neg (mt h.exit_iff.1 hexit), hsplit, Option.bind_eq_bind,
    Option.bind_some, hbg]

end main
end Sbuos
