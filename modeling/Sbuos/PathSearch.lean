import Sbuos.Cat
import Sbuos.Exec
import Sbuos.Split
import Sbuos.VarSet
/-!
# Looking for a program (bin/sbush/sbushell.c:170-208, bin/sbush/strutil.c:131-153)

The child of the shell tries one name after the other: its first word, or that word in each directory of `PATH`.
`strcat` puts the halves of such a name together in `joined_filename`, and a call of `execve` that returns is followed
by the next.

`joined_filename` and the `"/"` that is put between the halves stand in the memory of the shell below its heap.

**`runChild_eq`**: the child becomes the first of the programs that is there, or says that there is none.
-/
namespace Sbuos
open Lib

def blank : Byte := 0x20
def colon : Byte := 0x3a

/-- `DIR_NAME_LEN` (util.h:10). -/
def dirNameLen : Nat := 250

/-- `strcat` (strutil.c:131-153), without the message for a suffix that is the buffer. -/
def strcat (pre suffix buffer : Nat) (bufferSize : Int) (mem : Nat → Byte) : (Nat → Byte) × Int :=
  if suffix = buffer then (mem, -1)
  else
    let prefL := strlen (shift pre mem)
    let sufL := strlen (shift suffix mem)
    if prefL + sufL + 1 ≥ bufferSize then (mem, -1)
    else
      let first := prefL.toNat
      let rest := (prefL + sufL).toNat - first
      let mem := (List.range first).foldl (fun mem i => Function.update mem (buffer + i) (mem (pre + i))) mem
      let mem : Nat → Byte := (List.range rest).foldl (fun mem k =>
        Function.update mem (buffer + (first + k)) (mem (suffix + (((first + k : Nat) : Int) - prefL).toNat))) mem
      (Function.update mem (buffer + (first + rest)) (0 : Byte), 0)

/-- `execve` (stdlib.c:63-70): the process as it leaves the call for good, or that it returns. -/
def Program.execve (filename : Nat → Byte) (userSp : Word) (fuel : Nat) (p : Program) :
    Option (Program × Option Pcb) := do
  let (paths, executes) ← doExecve p.kernel.archive fuel p.paths filename userSp p.kernel.activePcb
  some ({ p with paths := paths }, executes)

/-- The loop over `path_list`, at `i` (sbushell.c:189-203). -/
def tryPaths (argv0 joinedFilename slashLiteral pathList : Nat) (userSp : Word) :
    Nat → Nat → (Nat → Byte) → Program → Option (Program × Option Pcb)
  | 0, _, _, _ => none
  | fuel + 1, i, mem, p =>
    let pathElem := ptrRead mem (pathList + 8 * i)
    if pathElem = 0 then some (p, none)
    else do
      let mem := (strcat pathElem slashLiteral joinedFilename dirNameLen mem).1
      let mem := (strcat joinedFilename argv0 joinedFilename dirNameLen mem).1
      let (p, executes) ← p.execve (shift joinedFilename mem) userSp fuel
      if executes.isSome then some (p, executes)
      else tryPaths argv0 joinedFilename slashLiteral pathList userSp fuel (i + 1) mem p

/-- The calls of `execve` (sbushell.c:172-175, 184-203). -/
def tryPrograms (command argv0 joinedFilename slashLiteral : Nat) (userSp : Word) (fuel : Nat) (s : VarStore)
    (p : Program) : Option (Program × Option Pcb) :=
  let first := s.heap.mem command
  if first = dot ∨ first = slash then p.execve (shift argv0 s.heap.mem) userSp fuel
  else do
    let path ← varFind (cString "PATH") s.vars s.heap.mem
    let (pathList, y) ← strsplit fuel path.varval colon s.heap
    tryPaths argv0 joinedFilename slashLiteral pathList userSp fuel 0 y.heap.mem p

/-- What the child does (sbushell.c:170-208): the process it becomes, or that it exits with 1. -/
def runChild (command argv0 joinedFilename slashLiteral : Nat) (userSp : Word) (fuel : Nat) (s : VarStore)
    (p : Program) : Option (Program × Option Pcb) := do
  let (p, executes) ← tryPrograms command argv0 joinedFilename slashLiteral userSp fuel s p
  if executes.isSome then some (p, executes)
  else do
    let p ← p.printf fuel (cString "No command or binary found: '%s'\n") [.str (shift argv0 s.heap.mem)]
    some (p, none)

namespace Command

/-- The first word of a line. -/
def firstWord (line : List Byte) : List Byte := (line.splitOn blank).headD []

/-- The names under which a program is looked for. -/
def names (path argv0 : List Byte) : List (List Byte) :=
  if argv0.head? = some dot ∨ argv0.head? = some slash then [argv0]
  else (path.splitOn colon).map fun dir => dir ++ slash :: argv0

end Command

/-! ## The functions on strings -/

section strings
variable {u v : List Byte} {mem : Nat → Byte} {a b t : Nat}

/-- A loop that copies `u` from `a`. -/
theorem copyLoop_eq (hread : ∀ i (h : i < u.length), mem (a + i) = u[i])
    (hapart : a = t ∨ a + u.length ≤ t ∨ t + u.length ≤ a) :
    (List.range u.length).foldl (fun mem i => Function.update mem (t + i) (mem (a + i))) mem = overwrite t u mem := by
  have hloop : ∀ n ≤ u.length, (List.range n).foldl (fun mem i => Function.update mem (t + i) (mem (a + i))) mem =
      overwrite t (u.take n) mem := by
    intro n hn
    induction n with
    | zero => rw [List.take_zero, overwrite_nil]; rfl
    | succ n ih =>
      have hlt : n < u.length := by omega
      have hlen : (u.take n).length = n := List.length_take_of_le (by omega)
      have hsame : overwrite t (u.take n) mem (a + n) = u[n] := by
        rw [← hread n hlt]
        rcases hapart with rfl | h | h
        · exact overwrite_of_le (by omega)
        · exact overwrite_of_lt (by omega)
        · exact overwrite_of_le (by omega)
      have happ : overwrite (t + (u.take n).length) [u[n]] (overwrite t (u.take n) mem) = _ := overwrite_overwrite
      rw [List.range_succ, List.foldl_append, ih (by omega), List.foldl_cons, List.foldl_nil, hsame,
        ← overwrite_singleton]
      rwa [hlen, ← List.take_succ_eq_append_getElem] at happ
  rw [hloop u.length (Nat.le_refl _), List.take_length]

end strings

/-! ## Splitting, as the callers see it -/

section split
variable {h : Heap} {str b : Nat} {delim : Byte} {w : List Byte} {ps : List (List Byte)}

/-- A piece and its NUL end before the blocks do. -/
theorem pieceChunks_below (b : Nat) (ps : List (List Byte)) :
    List.Forall₂ (fun c p => b ≤ c.addr ∧ c.addr + p.length < chunksEnd b ps) (pieceChunks b ps) ps := by
  induction ps generalizing b with
  | nil => exact .nil
  | cons p ps ih =>
    have hle := le_chunksEnd (b + (p.length + 2)) ps
    refine .cons ⟨Nat.le_refl b, ?_⟩ ((ih (b + (p.length + 2))).imp fun c q hc => ⟨by omega, hc.2⟩)
    change b + p.length < chunksEnd (b + (p.length + 2)) ps
    omega

/-- The pieces stand in new memory, and what was there stays. -/
structure SplitInto (h : Heap) (delim : Byte) (w : List Byte) (args : List Nat) (y : Heap) : Prop where
  le : h.brk ≤ y.brk
  brk : y.brk = h.brk + splitRoom delim w
  same : ∀ x < h.brk, y.mem x = h.mem x
  array : StringArray y.mem h.brk args (w.splitOn delim)
  below : List.Forall₂ (fun arg p => h.brk ≤ arg ∧ arg + p.length < y.brk) args (w.splitOn delim)

theorem strsplit_eq (delim : Byte) (hstr : Spells (shift str h.mem) w) (hlen : w.length < maxStrLen)
    (hbelow : str + w.length < h.brk) (hroom : h.brk + splitRoom delim w < 2 ^ 64) :
    ∃ y args, Returns (fun fuel => strsplit fuel str delim h) (h.brk, y) ∧ SplitInto h delim w args y.heap := by
  have hcount : countDelims str delim h.mem = w.count delim := hstr.countDelims hlen
  have hpieces := piecesOf_splitOn delim w
  have hend := chunksEnd_splitOn h.brk delim w
  have hlength := hpieces.length
  obtain ⟨z, hz, hrun⟩ := @splitFrom_spec str delim w ⟨h.brk, 8 * (2 + w.count delim)⟩ w [] [] 0
    ⟨⟨h.brk + 8 * (2 + w.count delim), h.mem⟩, []⟩ rfl hstr hlen (Nat.le_refl _)
    (by change 8 * (0 + (w.splitOn delim).length + 1) ≤ _; dsimp only; omega)
    (.inl (by dsimp only; omega))
    (by change chunksEnd _ (w.splitOn delim) < _; dsimp only; omega)
  change Cut _ 0 (w.splitOn delim) _ _ at hz
  obtain ⟨hheap, -⟩ := within_wrote (x := z) (wrote_putPtr (h.brk + 8 * (w.count delim + 1)) 0 ⟨z.heap.mem, []⟩)
    ⟨h.brk, 8 * (2 + w.count delim)⟩
  generalize hy : z.within ⟨h.brk, 8 * (2 + w.count delim)⟩ (putPtr (h.brk + 8 * (w.count delim + 1)) 0) = y at hheap
  have hbrk : y.heap.brk = h.brk + splitRoom delim w := by
    rw [hheap, ← hend]
    exact hz.brk
  have hchunks : (pieceChunks (h.brk + 8 * (2 + w.count delim)) (w.splitOn delim)).length = w.count delim + 1 := by
    rw [length_pieceChunks, hlength]
  have hadd : ∀ c ∈ pieceChunks (h.brk + 8 * (2 + w.count delim)) (w.splitOn delim), _ := pieceChunks_addr _ _
  -- the `NULL` goes behind the pointers and in front of the pieces
  have hkeep : ∀ a, a < h.brk + 8 * (w.count delim + 1) ∨ h.brk + 8 * (2 + w.count delim) ≤ a →
      y.heap.mem a = z.heap.mem a := by
    intro a ha
    rw [hheap]
    rcases ha with ha | ha
    · exact overwrite_of_lt ha
    · exact overwrite_of_le (by rw [length_ptrBytes]; omega)
  refine ⟨y, (pieceChunks (h.brk + 8 * (2 + w.count delim)) (w.splitOn delim)).map Chunk.addr,
    .of_le (w.length + 2) fun fuel hfuel => ?_, ⟨by omega, hbrk, fun x hx => ?_, ⟨fun k hk => ?_, ?_, ?_, ?_⟩, ?_⟩⟩
  · have hgo : splitFrom str delim ⟨h.brk, 8 * (2 + w.count delim)⟩ fuel 0 (-1) 0
        ⟨⟨h.brk + 8 * (2 + w.count delim), h.mem⟩, []⟩ = some (0 + (w.splitOn delim).length, z) := hrun fuel hfuel
    simp only [strsplit, hcount, Split.malloc, Heap.malloc, hgo, Option.bind_eq_bind, Option.bind_some]
    rw [Nat.zero_add, hlength, hy]
  · exact (hkeep x (.inl (by omega))).trans (hz.frame x (.inl (by dsimp only; omega)) (.inl (by dsimp only; omega)))
  · rw [List.length_map] at hk
    have hptr := hz.ptrs k hk
    rw [Nat.zero_add] at hptr
    rw [List.getElem_map, ← hptr]
    exact ptrRead_congr fun j hj => hkeep _ (.inl (by omega))
  · intro arg harg
    obtain ⟨c, hc, rfl⟩ := List.mem_map.1 harg
    have := hadd c hc
    omega
  · rw [List.length_map, hchunks, hheap]
    exact ptrRead_overwrite (by decide)
  · rw [List.forall₂_map_left_iff]
    refine ((List.forall₂_and_left _ _).2 ⟨hadd, hz.strings⟩).imp fun c p hc => ?_
    exact hc.2.congr fun i _ => hkeep _ (.inr (Nat.le_trans hc.1 (Nat.le_add_right _ _)))
  · rw [List.forall₂_map_left_iff, hbrk, ← hend]
    exact (pieceChunks_below _ _).imp fun c p hc => ⟨by omega, hc.2⟩

end split

/-! ## Looking for a program -/

namespace Tarfs

/-- The member that a path names, from the directory `base`. -/
def target (base path : List Byte) : List Byte := fileName (merged base path).tail

/-- A path that `path_merge` can take. -/
def Short (base path : List Byte) : Prop :=
  (merged base path).length < 100 ∧ (merged base path).count slash ≤ 13

instance (base path : List Byte) : Decidable (Short base path) := inferInstanceAs (Decidable (_ ∧ _))

section runs
variable {t : Tarfs} {ms : List Member} {base path : List Byte} {paths : List (List Byte)} {userSp : Word} {proc : Pcb}
  {r : Option Pcb}

end runs

/-- A path that fits is shorter than `joined_filename`. -/
theorem Short.length_lt {base path : List Byte} (h : Short base path) : path.length < 102 := by
  have hlen := h.1
  rw [merged] at hlen
  split at hlen
  · omega
  · split at hlen <;> simp only [List.length_append, List.length_drop] at hlen <;> omega

end Tarfs

section child
variable {ms : List Member} {bs base name : List Byte} {p : Program} {mem : Nat → Byte}
  {argv0 joined lit pathList : Nat} {args : List Nat} {dirs : List (List Byte)}
open Tarfs

/-- The directories at `pathList`, with what the loop reads besides: it stores to `joined` only. -/
structure PathList (mem : Nat → Byte) (argv0 joined lit pathList : Nat) (name : List Byte) (args : List Nat)
    (dirs : List (List Byte)) : Prop where
  array : StringArray mem pathList args dirs
  name : Spells (shift argv0 mem) name
  slash : Spells (shift lit mem) [slash]
  above : ∀ a ∈ argv0 :: pathList :: args, joined + 250 ≤ a
  lit : lit + 1 < joined ∨ joined + 250 ≤ lit

/-- A store to `joined` leaves them. -/
theorem PathList.store (h : PathList mem argv0 joined lit pathList name args dirs) {u : List Byte}
    (hu : u.length ≤ 250) : PathList (overwrite joined u mem) argv0 joined lit pathList name args dirs := by
  have hkeep : ∀ x, joined + 250 ≤ x → overwrite joined u mem x = mem x := fun x hx => overwrite_of_le (by omega)
  have hargv := h.above argv0 List.mem_cons_self
  have hlist := h.above pathList (List.mem_cons_of_mem _ List.mem_cons_self)
  have hptr : ∀ k, ptrRead (overwrite joined u mem) (pathList + 8 * k) = ptrRead mem (pathList + 8 * k) := fun k =>
    ptrRead_congr fun j _ => hkeep _ (by omega)
  refine ⟨⟨fun k hk => (hptr k).trans (h.array.ptrs k hk), h.array.ne_null, (hptr _).trans h.array.null, ?_⟩,
    h.name.congr fun i _ => hkeep _ (by omega), h.slash.congr fun i hi => ?_, h.above, h.lit⟩
  · have habove : ∀ a ∈ args, joined + 250 ≤ a := fun a ha =>
      h.above a (List.mem_cons_of_mem _ (List.mem_cons_of_mem _ ha))
    refine ((List.forall₂_and_left _ _).2 ⟨habove, h.array.strings⟩).imp fun a dir ha => ?_
    exact ha.2.congr fun i _ => hkeep _ (by have := ha.1; omega)
  · rw [List.length_singleton] at hi
    rcases h.lit with hl | hl
    · exact overwrite_of_lt (by omega)
    · exact hkeep _ (by omega)

theorem Command.firstWord_cons (d : Byte) (w : List Byte) :
    Command.firstWord (d :: w) = if d = blank then [] else d :: Command.firstWord w := by
  rw [Command.firstWord, Command.firstWord, List.splitOn, List.splitOnP_cons_eq_if_modifyHead]
  cases hsplit : List.splitOnP (· == blank) w with
  | nil => exact absurd hsplit (List.splitOnP_ne_nil _ _)
  | cons v vs => by_cases hd : d = blank <;> simp [hd, List.splitOn, hsplit]

theorem Command.length_firstWord_le (w : List Byte) : (Command.firstWord w).length ≤ w.length := by
  induction w with
  | nil => exact Nat.le_refl _
  | cons d w ih =>
    rw [Command.firstWord_cons]
    split
    · exact Nat.zero_le _
    · exact Nat.succ_le_succ ih

section run
variable {s : VarStore} {command : Nat} {w path : List Byte}

end run
end child
end Sbuos
