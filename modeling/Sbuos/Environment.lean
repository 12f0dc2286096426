import Sbuos.Strutil
import Mathlib.Data.List.Forall2
import Mathlib.Data.List.TakeWhile
/-!
# The shell's environment (bin/sbush/envutil.c:58-80, 122-176, 193-215)

`get_envp` writes the shell's variables as `name=value` lines into blocks of 100 bytes, `parse_envp` reads
the array back. A `var_list` is the list of its nodes behind `head`, each with the addresses of its two
strings; of a node's own bytes only the zeros that `var_init` puts into `head` are stored, for a line that
is too long for its block runs into them.

**`environment_round_trip`** says for which variables, and which contents of the new memory, the list comes
back: `strcpy` stores no NUL behind a value, so the byte behind the line has to be one already.
-/
namespace Sbuos

/-- `'='`. -/
def assign : Byte := 0x3d

/-- `struct var_list` (envutil.h) without its `next`. -/
structure VarNode where
  varname : Nat
  varval : Nat

/-- `sizeof(var_list)`: three pointers. -/
def sizeofVarList : Nat := 24

/-- `var_init` (envutil.c:51-65). -/
def varInit (h : Heap) : Heap :=
  let (x, h) := h.malloc 15
  let (head, h) := h.malloc sizeofVarList
  { h with mem := overwrite head (List.replicate sizeofVarList 0) (Function.update h.mem x 0x63) }

/-- `var_add` (envutil.c:67-75). -/
def varAdd (varname varval : Nat) (vars : List VarNode) (h : Heap) : List VarNode × Heap :=
  let (_, h) := h.malloc sizeofVarList
  (vars ++ [⟨varname, varval⟩], h)

/-- `var_find` (envutil.c:85-92). -/
def varFind (varname : Nat → Byte) (vars : List VarNode) (mem : Nat → Byte) : Option VarNode :=
  vars.find? fun current => strcomp (shift current.varname mem) varname = 0

/-! ## get_envp -/

/-- One line, stored at `copy` (envutil.c:207-210). -/
def storeLine (current : VarNode) (copy : Nat) (mem : Nat → Byte) : Nat → Byte :=
  let mem := (strcpy (shift current.varname) copy mem).1
  let l := strlen (shift current.varname mem)
  let mem := Function.update mem (copy + l).toNat assign
  (strcpy (shift current.varval) (copy + l + 1).toNat mem).1

/-- The second loop of `get_envp`, with the entries of `envp_copy` it has left; it does not look whether one
is left. -/
def getEnvpFrom : Nat → List VarNode → Heap → Option (List (Option Nat) × Heap)
  | left, [], h => some (List.replicate left none, h)
  | 0, _ :: _, _ => none
  | left + 1, current :: vars, h => do
    let (copy, h) := h.malloc 100
    let (rest, h) ← getEnvpFrom left vars { h with mem := storeLine current copy h.mem }
    some (some copy :: rest, h)

/-- `get_envp` (envutil.c:194-215); the first loop has set all 15 entries to `NULL`, and `free` does nothing. -/
def getEnvp (vars : List VarNode) (h : Heap) : Option (List (Option Nat) × Heap) := getEnvpFrom 15 vars h

/-! ## parse_envp -/

/-- The loop of `parse_envp`; it ends at a `NULL`, and fails where it leaves the array. -/
def parseLines : List (Option Nat) → List VarNode → Heap → Option (List VarNode × Heap)
  | [], _, _ => none
  | none :: _, vars, h => some (vars, h)
  | some line :: envp, vars, h =>
    let assignIndex := strsearch (shift line h.mem) assign
    if assignIndex = -1 then parseLines envp vars h
    else
      let ((varname, varval), h) := strSplitLine line assignIndex.toNat h
      let (vars, h) := varAdd varname varval vars h
      parseLines envp vars h

/-- A variable that is defined if it is missing (envutil.c:144-151, 153-160, 162-169). -/
def withDefault (name val : String) (size : Nat) : List VarNode × Heap → List VarNode × Heap
  | (vars, h) =>
    if (varFind (cString name) vars h.mem).isSome then (vars, h)
    else
      let (varname, h) := h.malloc size
      let (varval, h) := h.malloc 20
      let mem := (strcpy (fun _ => cString name) varname h.mem).1
      let mem := (strcpy (fun _ => cString val) varval mem).1
      varAdd varname varval vars { h with mem := mem }

def withPs1 := withDefault "PS1" "\\u@sbush:\\d-(\\S)->" 4
def withPath := withDefault "PATH" "/bin" 6
def withUser := withDefault "USER" "abanitalebid" 6

/-- `parse_envp` (envutil.c:122-176). -/
def parseEnvp (envp : List (Option Nat)) (h : Heap) : Option (List VarNode × Heap) := do
  let parsed ← parseLines envp [] (varInit h)
  some (withUser (withPath (withPs1 parsed)))

/-! ## What comes back -/

/-- A variable of the store: the texts of its name and value, and the node that points to them. -/
structure Var where
  node : VarNode
  name : List Byte
  value : List Byte
  name_ne : name ≠ []
  noAssign : assign ∉ name
  noNul : ∀ c ∈ name ++ assign :: value, c ≠ 0

namespace Var

def binding (v : Var) : List Byte × List Byte := (v.name, v.value)

/-- `name=value`. -/
def line (v : Var) : List Byte := v.name ++ assign :: v.value

/-- What `get_envp` stores in the block at `b`: the line, and behind an empty value what `strcpy` finds there. -/
def written (v : Var) (b : Nat) (mem : Nat → Byte) : List Byte :=
  if v.value = [] then
    v.line ++ emptyCopy (overwrite b v.line mem) v.node.varval (b + v.line.length)
  else v.line

/-- A NUL follows the line: `strcpy` has found it behind an empty value, or the byte was one already. -/
def Stops (v : Var) (b : Nat) (mem : Nat → Byte) : Prop := v.value = [] ∨ mem (b + v.line.length) = 0

/-- The line stored at `b` is read back, given the variables behind it. Too long for its block, it goes on
with the next line; the last one goes on with what `var_init` puts behind the blocks, a `'c'`, 14 bytes it
leaves alone and the zeros of `head`. -/
def Ends (v : Var) (b : Nat) (mem : Nat → Byte) : List Var → Prop
  | next :: _ => if v.line.length < 100 then v.Stops b mem else v.line.drop 100 = next.line
  | [] => v.line.length < 100 ∧ v.Stops b mem ∨
      v.line[100]? = some 0x63 ∧ (v.line.length < 115 ∧ v.Stops b mem ∨ v.line.length = 115)

end Var

/-- Every line can be read back from the blocks at `b` on. -/
def Fits : List Var → Nat → (Nat → Byte) → Prop
  | [], _, _ => True
  | v :: vs, b, mem => v.Ends b mem vs ∧ Fits vs (b + 100) (overwrite b (v.written b mem) mem)

/-- A string of the shell stands at `a`. -/
structure Heap.Holds (h : Heap) (a : Nat) (w : List Byte) : Prop where
  spells : Spells (shift a h.mem) w
  short : w.length < maxStrLen
  below : a + w.length < h.brk

/-- The node's strings. -/
def Heap.Reads (h : Heap) (node : VarNode) (p : List Byte × List Byte) : Prop :=
  h.Holds node.varname p.1 ∧ h.Holds node.varval p.2

/-- Reading back what was written gives the same names and values in the same order. -/
def RoundTrip (vars : List Var) (h : Heap) : Prop :=
  ∃ envp h1 found h2, getEnvp (vars.map Var.node) h = some (envp, h1) ∧ parseEnvp envp h1 = some (found, h2) ∧
    List.Forall₂ h2.Reads found (vars.map Var.binding)

/-! ## Writing the lines -/

section lines
variable {v : Var} {vs : List Var} {b a : Nat} {mem : Nat → Byte} {w : List Byte} {h h' : Heap}

theorem Var.length_line (v : Var) : v.line.length = v.name.length + 1 + v.value.length := by
  rw [Var.line, List.length_append, List.length_cons]
  omega

/-- A block that overruns no other string changes nothing below it. -/
theorem storeLine_eq (hr : h.Reads v.node v.binding) (hb : h.brk ≤ b) :
    storeLine v.node b h.mem = overwrite b (v.written b h.mem) h.mem := by
  obtain ⟨⟨hname, hshort, hbelow⟩, ⟨hvalue, hshort', hbelow'⟩⟩ := hr
  dsimp only [Var.binding] at *
  have hname' : Spells (shift v.node.varname (overwrite b v.name h.mem)) v.name :=
    hname.congr fun i hi => overwrite_of_lt (by omega)
  have hvalue' : Spells (shift v.node.varval (overwrite b (v.name ++ [assign]) h.mem)) v.value :=
    hvalue.congr fun i hi => overwrite_of_lt (by omega)
  have hassign : ((b : Int) + v.name.length).toNat = b + v.name.length := by omega
  have hval : ((b : Int) + v.name.length + 1).toNat = b + (v.name ++ [assign]).length := by simp; omega
  rw [storeLine, hname.strcpy v.name_ne (Nat.le_of_lt hshort) (by omega)]
  dsimp only
  rw [hname'.strlen hshort, hassign, hval, ← overwrite_singleton, overwrite_overwrite, Var.written]
  by_cases he : v.value = []
  · have hline : v.line = v.name ++ [assign] := by rw [Var.line, he]
    have hnul : overwrite b (v.name ++ [assign]) h.mem v.node.varval = 0 := by
      have := hvalue'.nul
      rwa [he] at this
    rw [if_pos he, hline, strcpy_empty hnul (by omega), overwrite_overwrite]
  · rw [if_neg he, hvalue'.strcpy he (Nat.le_of_lt hshort') (by omega), overwrite_overwrite]
    rw [Var.line, List.append_assoc]
    rfl

/-- The memory once every line is stored. -/
def laid : List Var → Nat → (Nat → Byte) → Nat → Byte
  | [], _, mem => mem
  | v :: vs, b, mem => laid vs (b + 100) (overwrite b (v.written b mem) mem)

theorem laid_of_lt (ha : a < b) : laid vs b mem a = mem a := by
  induction vs generalizing b mem with
  | nil => rfl
  | cons v vs ih => rw [laid, ih (by omega), overwrite_of_lt ha]

theorem Heap.Holds.congr (hh : h.Holds a w) (hbrk : h.brk ≤ h'.brk) (hmem : ∀ x < h.brk, h'.mem x = h.mem x) :
    h'.Holds a w where
  spells := hh.spells.congr fun i hi => hmem _ (by have := hh.below; omega)
  short := hh.short
  below := Nat.lt_of_lt_of_le hh.below hbrk

theorem Heap.Reads.congr {node : VarNode} {p : List Byte × List Byte} (hr : h.Reads node p) (hbrk : h.brk ≤ h'.brk)
    (hmem : ∀ x < h.brk, h'.mem x = h.mem x) : h'.Reads node p := ⟨hr.1.congr hbrk hmem, hr.2.congr hbrk hmem⟩

/-- With an entry for each variable, the lines stand in blocks one behind the other. -/
theorem getEnvpFrom_eq (vs : List Var) (left : Nat) (h : Heap) (hvs : ∀ v ∈ vs, h.Reads v.node v.binding)
    (hlen : vs.length ≤ left) : getEnvpFrom left (vs.map Var.node) h =
      some ((List.range' h.brk vs.length 100).map some ++ List.replicate (left - vs.length) none,
        ⟨h.brk + 100 * vs.length, laid vs h.brk h.mem⟩) := by
  induction vs generalizing left h with
  | nil => cases left <;> rfl
  | cons v vs ih =>
    obtain ⟨left, rfl⟩ : ∃ k, left = k + 1 := ⟨left - 1, by simp at hlen; omega⟩
    have hstore := storeLine_eq (hvs v List.mem_cons_self) (Nat.le_refl _)
    have hkeep : ∀ x < h.brk, overwrite h.brk (v.written h.brk h.mem) h.mem x = h.mem x := fun _ => overwrite_of_lt
    have hrest := ih left ⟨h.brk + 100, overwrite h.brk (v.written h.brk h.mem) h.mem⟩ (fun u hu =>
      (hvs u (List.mem_cons_of_mem v hu)).congr (Nat.le_add_right _ _) hkeep) (Nat.le_of_succ_le_succ hlen)
    simp only [List.map_cons, getEnvpFrom, Heap.malloc, hstore, hrest, Option.bind_eq_bind, Option.bind_some]
    rw [List.length_cons, List.range'_succ, List.map_cons, List.cons_append, Nat.add_sub_add_right,
      laid, Nat.add_assoc, Nat.mul_succ, Nat.add_comm 100]

/-- A variable too many is stored behind the array. -/
theorem getEnvpFrom_full (nodes : List VarNode) (left : Nat) (h : Heap) (hlen : left < nodes.length) :
    getEnvpFrom left nodes h = none := by
  induction nodes generalizing left h with
  | nil => exact absurd hlen (Nat.not_lt_zero left)
  | cons node nodes ih =>
    cases left with
    | zero => rfl
    | succ left =>
      simp only [getEnvpFrom, Heap.malloc, Option.bind_eq_bind]
      rw [ih left _ (Nat.lt_of_succ_lt_succ hlen)]
      rfl

/-! ## Where the lines end -/

/-- The memory `parse_envp` reads: `var_init` has taken two blocks at `b`. -/
def started (b : Nat) (mem : Nat → Byte) : Nat → Byte :=
  overwrite (b + 15) (List.replicate sizeofVarList 0) (Function.update mem b 0x63)

theorem started_of_lt (ha : a < b) : started b mem a = mem a := by
  rw [started, overwrite_of_lt (by omega), Function.update_of_ne (by omega)]

theorem started_self : started b mem b = 0x63 := by
  rw [started, overwrite_of_lt (by omega), Function.update_self]

theorem started_between (hlo : b < a) (hhi : a < b + 15) : started b mem a = mem a := by
  rw [started, overwrite_of_lt hhi, Function.update_of_ne (by omega)]

theorem started_head : started b mem (b + 15) = 0 :=
  overwrite_add (j := 0) (by decide)

theorem Var.written_line {i : Nat} (hi : i < v.line.length) :
    overwrite b (v.written b mem) mem (b + i) = v.line[i] := by
  rw [Var.written]
  split
  · rw [overwrite_add (by rw [List.length_append]; omega), List.getElem_append_left hi]
  · exact overwrite_add hi

theorem Var.written_behind : overwrite b (v.written b mem) mem (b + v.line.length) = 0 ↔ v.Stops b mem := by
  rw [Var.written, Var.Stops]
  split
  · rename_i he
    refine iff_of_true ?_ (.inl he)
    rw [overwrite_add (by simp [emptyCopy]), List.getElem_append_right (Nat.le_refl _)]
    simp [emptyCopy]
  · rename_i he
    rw [overwrite_of_le (Nat.le_refl _), or_iff_right he]

/-- A string from its `n`th character on. -/
theorem spells_iff_drop {f : Nat → Byte} {n : Nat} (hn : n ≤ w.length) (hw : ∀ c ∈ w, c ≠ 0)
    (hchars : ∀ i (h : i < w.length), i < n → f i = w[i]) : Spells f w ↔ Spells (shift n f) (w.drop n) := by
  refine ⟨fun h => spells_shift h hn, fun h => ⟨fun i hi => ?_, hw, ?_⟩⟩
  · by_cases hlt : i < n
    · exact hchars i hi hlt
    · have := h.chars (i - n) (by rw [List.length_drop]; omega)
      rw [shift, List.getElem_drop] at this
      simpa [Nat.add_sub_cancel' (Nat.le_of_not_lt hlt)] using this
  · have := h.nul
    rwa [List.length_drop, shift, Nat.add_sub_cancel' hn] at this

section block
variable {mem' : Nat → Byte}

/-- A line that fits in its block. -/
theorem Var.spells_short (hmem : ∀ x < b + 100, mem' x = overwrite b (v.written b mem) mem x)
    (hlen : v.line.length < 100) : Spells (shift b mem') v.line ↔ v.Stops b mem := by
  rw [← v.written_behind, ← hmem _ (by omega)]
  refine ⟨fun h => h.nul, fun h => ⟨fun i hi => ?_, v.noNul, h⟩⟩
  rw [shift, hmem _ (by omega), v.written_line hi]

theorem Var.spells_long (hmem : ∀ x < b + 100, mem' x = overwrite b (v.written b mem) mem x)
    (hlen : 100 ≤ v.line.length) :
    Spells (shift b mem') v.line ↔ Spells (shift (b + 100) mem') (v.line.drop 100) := by
  rw [spells_iff_drop hlen v.noNul fun i hi hlt => ?_]
  · have : shift 100 (shift b mem') = shift (b + 100) mem' := by
      funext i
      rw [shift, shift, shift, Nat.add_assoc]
    rw [this]
  · rw [shift, hmem _ (by omega), v.written_line hi]

/-- The last line, when it leaves its block: behind it lie the blocks of `var_init`. -/
theorem Var.spells_last (hlen : 100 ≤ v.line.length) :
    Spells (shift b (started (b + 100) (overwrite b (v.written b mem) mem))) v.line ↔
      v.line[100]? = some 0x63 ∧ (v.line.length < 115 ∧ v.Stops b mem ∨ v.line.length = 115) := by
  have hkept : ∀ i, i < 115 → i ≠ 100 → started (b + 100) (overwrite b (v.written b mem) mem) (b + i) =
      overwrite b (v.written b mem) mem (b + i) := by
    intro i hi hne
    by_cases hlt : i < 100
    · exact started_of_lt (by omega)
    · exact started_between (by omega) (by omega)
  constructor
  · intro h
    have hne : v.line.length ≠ 100 := by
      intro he
      have := h.nul
      rw [he, shift, started_self] at this
      exact absurd this (by decide)
    have hle : v.line.length ≤ 115 := by
      by_contra hgt
      exact h.apply_ne_zero (i := 115) (by omega) started_head
    refine ⟨?_, ?_⟩
    · rw [List.getElem?_eq_getElem (by omega), ← h.chars 100 (by omega), shift, started_self]
    · by_cases hlt : v.line.length < 115
      · left
        refine ⟨hlt, v.written_behind.1 ?_⟩
        rw [← hkept _ hlt hne]
        exact h.nul
      · exact .inr (by omega)
  · rintro ⟨hc, hend⟩
    obtain ⟨h100, hc⟩ := List.getElem?_eq_some_iff.1 hc
    refine ⟨fun i hi => ?_, v.noNul, ?_⟩
    · by_cases he : i = 100
      · subst he
        rw [shift, started_self, hc]
      · rw [shift, hkept i (by omega) he, v.written_line hi]
    · rcases hend with ⟨hlt, hstops⟩ | he
      · rw [shift, hkept _ hlt (by omega)]
        exact v.written_behind.2 hstops
      · rw [shift, he]
        exact started_head

end block

theorem Var.ends_short (hlen : v.line.length < 100) : v.Ends b mem vs ↔ v.Stops b mem := by
  cases vs with
  | nil =>
    rw [Var.Ends, or_iff_left]
    · exact and_iff_right hlen
    · rintro ⟨h100, -⟩
      obtain ⟨hlt, -⟩ := List.getElem?_eq_some_iff.1 h100
      omega
  | cons next vs => rw [Var.Ends, if_pos hlen]

/-- The blocks hold all the lines exactly when each of them ends where it should. -/
theorem lines_iff (vs : List Var) (b : Nat) (mem : Nat → Byte) :
    List.Forall₂ (fun a v => Spells (shift a (started (b + 100 * vs.length) (laid vs b mem))) v.line)
      (List.range' b vs.length 100) vs ↔ Fits vs b mem := by
  induction vs generalizing b mem with
  | nil => exact iff_of_true .nil trivial
  | cons v vs ih =>
    rw [List.length_cons, List.range'_succ, Nat.mul_succ, Nat.add_comm _ 100, ← Nat.add_assoc, laid,
      List.forall₂_cons, Fits, ih]
    refine and_congr_left fun hrest => ?_
    have hrest := (ih (b + 100) (overwrite b (v.written b mem) mem)).2 hrest
    have hmem : ∀ x < b + 100, started (b + 100 + 100 * vs.length)
        (laid vs (b + 100) (overwrite b (v.written b mem) mem)) x = overwrite b (v.written b mem) mem x :=
      fun x hx => by rw [started_of_lt (by omega), laid_of_lt hx]
    by_cases hlen : v.line.length < 100
    · rw [v.spells_short hmem hlen, v.ends_short hlen]
    · cases vs with
      | nil =>
        rw [Var.Ends, or_iff_right fun h => hlen h.1]
        exact v.spells_last (Nat.le_of_not_lt hlen)
      | cons next vs =>
        rw [v.spells_long hmem (Nat.le_of_not_lt hlen), Var.Ends, if_neg hlen]
        have hnext := (List.forall₂_cons.1 hrest).1
        exact ⟨fun h => h.unique hnext, fun h => by rw [h]; exact hnext⟩

/-! ## Reading the lines -/

/-- A line as `parse_envp` takes it apart: at its first `'='`, if there is one. -/
def splitLine (w : List Byte) : Option (List Byte × List Byte) :=
  if assign ∈ w then some (w.takeWhile (· != assign), (w.dropWhile (· != assign)).tail) else none

theorem splitLine_eq_some {n x : List Byte} : splitLine w = some (n, x) ↔ w = n ++ assign :: x ∧ assign ∉ n := by
  rw [splitLine]
  constructor
  · intro h
    split at h
    · rename_i hmem
      cases h
      refine ⟨?_, fun hc => ?_⟩
      · have hne : w.dropWhile (· != assign) ≠ [] := by
          intro hnil
          simpa using List.dropWhile_eq_nil_iff.1 hnil assign hmem
        have hhead : (w.dropWhile (· != assign)).head hne = assign := by
          simpa using List.head_dropWhile_not (· != assign) hne
        calc w = w.takeWhile (· != assign) ++ w.dropWhile (· != assign) := List.takeWhile_append_dropWhile.symm
          _ = _ := by rw [← List.cons_head_tail hne, hhead]; simp
      · simpa using List.mem_takeWhile_imp hc
    · cases h
  · rintro ⟨rfl, hn⟩
    have hall : ∀ c ∈ n, (c != assign) = true := fun c hc => bne_iff_ne.2 fun he => hn (he ▸ hc)
    rw [if_pos (by simp), List.takeWhile_append_of_pos hall, List.dropWhile_append_of_pos hall]
    simp

theorem splitLine_eq_none (h : assign ∉ w) : splitLine w = none := if_neg h

/-- One turn of `parse_envp`: what lies below the break stays. -/
theorem parseLine_step {n x : List Byte} (hh : h.Holds a (n ++ assign :: x)) (hn : assign ∉ n) :
    ∃ node h', (∀ envp vars, parseLines (some a :: envp) vars h = parseLines envp (vars ++ [node]) h') ∧
      h.brk ≤ h'.brk ∧ (∀ y < h.brk, h'.mem y = h.mem y) ∧ h'.Reads node (n, x) := by
  have hsearch := hh.spells.strsearch hh.short hn
  have hsplit := strSplitLine_eq hh.spells hh.short hh.below
  have hlen : (n ++ assign :: x).length = n.length + 1 + x.length := by simp; omega
  have hshort := hh.short
  have hnul : ∀ c ∈ n ++ assign :: x, c ≠ 0 := hh.spells.ne_zero
  refine ⟨⟨h.brk, h.brk + (n.length + 1)⟩, ⟨h.brk + (n.length + 1) + (x.length + 1) + sizeofVarList,
    overwrite (h.brk + (n.length + 1)) (x ++ [0]) (overwrite h.brk (n ++ [0]) h.mem)⟩, fun envp vars => ?_,
    ?_, fun y hy => ?_, ⟨?_, ?_, ?_⟩, ⟨?_, ?_, ?_⟩⟩
  · simp only [parseLines, hsearch, Int.toNat_natCast, hsplit, varAdd, Heap.malloc]
    rw [if_neg (by omega)]
  · dsimp only
    omega
  · dsimp only
    rw [overwrite_of_lt (by omega), overwrite_of_lt hy]
  · have hfirst : Spells (shift h.brk (overwrite h.brk (n ++ [0]) h.mem)) n :=
      spells_stored fun c hc => hnul c (List.mem_append_left _ hc)
    exact hfirst.congr fun i hi => overwrite_of_lt (show h.brk + i < h.brk + (n.length + 1) by omega)
  · dsimp only
    omega
  · dsimp only
    omega
  · exact spells_stored fun c hc => hnul c (List.mem_append_right _ (List.mem_cons_of_mem _ hc))
  · dsimp only
    omega
  · dsimp only
    rw [sizeofVarList]
    omega

/-- The lines become the variables, those without `'='` left out. -/
theorem parseLines_spec (lines : List Nat) (rest : List (Option Nat)) (ws : List (List Byte)) (h : Heap)
    (hlines : List.Forall₂ h.Holds lines ws) (vars : List VarNode) (pairs : List (List Byte × List Byte))
    (hvars : List.Forall₂ h.Reads vars pairs) :
    ∃ vars' h', parseLines (lines.map some ++ none :: rest) vars h = some (vars', h') ∧
      List.Forall₂ h'.Reads vars' (pairs ++ ws.filterMap splitLine) := by
  induction lines generalizing ws h vars pairs with
  | nil =>
    obtain rfl := List.forall₂_nil_left_iff.1 hlines
    exact ⟨vars, h, rfl, by simpa using hvars⟩
  | cons a lines ih =>
    obtain ⟨w, ws, ha, hrest, rfl⟩ := List.forall₂_cons_left_iff.1 hlines
    by_cases hw : assign ∈ w
    · obtain ⟨⟨n, x⟩, hsplit⟩ : ∃ p, splitLine w = some p := ⟨_, if_pos hw⟩
      obtain ⟨rfl, hn⟩ := splitLine_eq_some.1 hsplit
      obtain ⟨node, h', hstep, hbrk, hmem, hreads⟩ := parseLine_step ha hn
      have hlines' : List.Forall₂ h'.Holds lines ws := hrest.imp fun _ _ hh => hh.congr hbrk hmem
      have hvars' : List.Forall₂ h'.Reads (vars ++ [node]) (pairs ++ [(n, x)]) :=
        List.rel_append (hvars.imp fun _ _ hr => hr.congr hbrk hmem) (.cons hreads .nil)
      obtain ⟨vars', h'', hparse, hall⟩ := ih ws h' hlines' _ _ hvars'
      refine ⟨vars', h'', ?_, ?_⟩
      · rw [List.map_cons, List.cons_append, hstep, hparse]
      · rw [List.filterMap_cons_some hsplit]
        simpa using hall
    · obtain ⟨vars', h', hparse, hall⟩ := ih ws h hrest vars pairs hvars
      refine ⟨vars', h', ?_, ?_⟩
      · rw [List.map_cons, List.cons_append, parseLines, ha.spells.strsearch_none ha.short hw]
        exact hparse
      · rw [List.filterMap_cons_none (splitLine_eq_none hw)]
        exact hall

/-- Without a `NULL` the loop leaves the array. -/
theorem parseLines_full (lines : List Nat) (vars : List VarNode) (h : Heap) :
    parseLines (lines.map some) vars h = none := by
  induction lines generalizing vars h with
  | nil => rfl
  | cons a lines ih =>
    rw [List.map_cons, parseLines]
    split
    · exact ih _ _
    · exact ih _ _

/-- A variable that is there is not defined again. -/
theorem withDefault_found {name val : String} {size : Nat} {found : List VarNode}
    {pairs : List (List Byte × List Byte)} {p : List Byte × List Byte} (hfound : List.Forall₂ h.Reads found pairs)
    (hp : p ∈ pairs) (hname : Spells (cString name) p.1) : withDefault name val size (found, h) = (found, h) := by
  refine if_pos ?_
  rw [varFind, List.find?_isSome]
  induction hfound with
  | nil => exact absurd hp List.not_mem_nil
  | @cons node q found pairs hq hfound ih =>
    rcases List.mem_cons.1 hp with rfl | hp
    · refine ⟨node, List.mem_cons_self, decide_eq_true ?_⟩
      exact (hq.1.spells.strcomp_eq_zero hname hq.1.short hq.1.short).2 rfl
    · obtain ⟨node', hmem, heq⟩ := ih hp
      exact ⟨node', List.mem_cons_of_mem node hmem, heq⟩

/-! ## The round trip -/

/-- A NUL at `n` ends a string before it or there. -/
theorem spells_bytesFrom {f : Nat → Byte} {n : Nat} (hnul : f n = 0) : Spells f (bytesFrom f n 0) := by
  obtain ⟨hchars, hne, hend⟩ := bytesFrom_spec f n 0
  refine ⟨fun i hi => ?_, hne, ?_⟩
  · rw [← hchars i hi, Nat.zero_add]
  · rcases hend with hend | hend
    · rw [hend, hnul]
    · rwa [Nat.zero_add] at hend

/-- A list without losses: each element is sent to its partner. -/
theorem filterMap_eq_map_iff {α β γ : Type} {f : α → Option β} {g : γ → β} (l : List α) (m : List γ)
    (hlen : l.length = m.length) :
    l.filterMap f = m.map g ↔ List.Forall₂ (fun a c => f a = some (g c)) l m := by
  induction l generalizing m with
  | nil =>
    obtain rfl := List.length_eq_zero_iff.1 hlen.symm
    exact iff_of_true rfl .nil
  | cons a l ih =>
    obtain ⟨c, m, rfl⟩ := List.exists_cons_of_length_eq_add_one hlen.symm
    rw [List.forall₂_cons, List.map_cons]
    cases ha : f a with
    | none =>
      rw [List.filterMap_cons_none ha]
      refine iff_of_false (fun he => ?_) (fun h => by cases h.1)
      have hle := List.length_filterMap_le f l
      rw [he] at hle
      simp at hle hlen
      omega
    | some b =>
      rw [List.filterMap_cons_some ha, List.cons.injEq, ih m (Nat.succ.inj hlen), Option.some.injEq]

theorem prefix_of_spells {f : Nat → Byte} {u : List Byte} (h : Spells f w) (hu : ∀ c ∈ u, c ≠ 0)
    (hread : ∀ j (h : j < u.length), f j = u[j]) : u <+: w := by
  have hlen : u.length ≤ w.length := by
    by_contra hlt
    have hat := hread w.length (by omega)
    rw [h.nul] at hat
    exact hu _ (List.getElem_mem _) hat.symm
  rw [List.prefix_iff_eq_take]
  refine List.ext_getElem (by rw [List.length_take]; omega) fun j hj hj' => ?_
  rw [List.getElem_take, ← hread j hj, h.chars j (by omega)]

/-- Each variable has its block, and the line starts there. -/
theorem exists_block {mem' : Nat → Byte} (vs : List Var) (b : Nat) (mem : Nat → Byte)
    (hmem : ∀ x < b + 100 * vs.length, mem' x = laid vs b mem x) (hv : v ∈ vs) :
    ∃ a ∈ List.range' b vs.length 100, ∀ j (h : j < v.line.length), j < 100 → mem' (a + j) = v.line[j] := by
  induction vs generalizing b mem with
  | nil => exact absurd hv List.not_mem_nil
  | cons u vs ih =>
    rw [List.length_cons, List.range'_succ]
    rw [List.length_cons] at hmem
    rcases List.mem_cons.1 hv with rfl | hv
    · refine ⟨b, List.mem_cons_self, fun j hj hlt => ?_⟩
      rw [hmem _ (by omega), laid, laid_of_lt (by omega), v.written_line hj]
    · obtain ⟨a, ha, hread⟩ := ih (b + 100) _ (fun x hx => hmem x (by omega)) hv
      exact ⟨a, List.mem_cons_of_mem b ha, hread⟩

/-- What stands in the block at `a` when `parse_envp` reads it; the zeros of `head` end it. -/
def lineAt (vars : List Var) (h : Heap) (a : Nat) : List Byte :=
  bytesFrom (shift a (started (h.brk + 100 * vars.length) (laid vars h.brk h.mem)))
    (h.brk + 100 * vars.length + 15 - a) 0

/-- The heap `parse_envp` starts to read with. -/
def readFrom (vars : List Var) (h : Heap) : Heap :=
  varInit ⟨h.brk + 100 * vars.length, laid vars h.brk h.mem⟩

variable {vars : List Var}

theorem lineAt_holds (hlen : vars.length < 15) (ha : a ∈ List.range' h.brk vars.length 100) :
    (readFrom vars h).Holds a (lineAt vars h a) := by
  obtain ⟨i, hi, rfl⟩ := List.mem_range'.1 ha
  have hle := length_bytesFrom_le (shift (h.brk + 100 * i) (started (h.brk + 100 * vars.length)
    (laid vars h.brk h.mem))) (h.brk + 100 * vars.length + 15 - (h.brk + 100 * i)) 0
  refine ⟨spells_bytesFrom ?_, ?_, ?_⟩
  · have hat : h.brk + 100 * i + (h.brk + 100 * vars.length + 15 - (h.brk + 100 * i)) =
        h.brk + 100 * vars.length + 15 := by omega
    rw [shift, hat]
    exact started_head
  · rw [lineAt, maxStrLen]
    omega
  · change _ < h.brk + 100 * vars.length + 15 + sizeofVarList
    rw [lineAt, sizeofVarList]
    omega

/-- The names `parse_envp` looks for. -/
def required : List String := ["PS1", "PATH", "USER"]

theorem required_read {name : String} (hname : name ∈ required) (hlen : vars.length < 15) (hv : v ∈ vars)
    (hspell : Spells (cString name) v.name) :
    ∃ x, (v.name, x) ∈ ((List.range' h.brk vars.length 100).map (lineAt vars h)).filterMap splitLine := by
  have hshort : v.name.length ≤ 4 := by
    by_contra hgt
    have hnul : ∀ name ∈ required, cString name 4 = 0 := by decide
    exact hspell.apply_ne_zero (i := 4) (by omega) (hnul name hname)
  obtain ⟨a, ha, hread⟩ := exists_block vars h.brk h.mem (fun x hx => started_of_lt hx) hv
  have hline := lineAt_holds hlen ha
  have hstart : v.name ++ [assign] <+: lineAt vars h a := by
    refine prefix_of_spells hline.spells (fun c hc => v.noNul c ?_) fun j hj => ?_
    · rw [List.append_cons]
      exact List.mem_append_left _ hc
    · rw [List.length_append, List.length_singleton] at hj
      refine (hread j (by rw [v.length_line]; omega) (by omega)).trans ?_
      simp only [Var.line, List.append_cons v.name assign v.value]
      rw [List.getElem_append_left (by simp; omega)]
  obtain ⟨x, hx⟩ := hstart
  refine ⟨x, List.mem_filterMap.2 ⟨_, List.mem_map_of_mem ha, splitLine_eq_some.2 ⟨?_, v.noAssign⟩⟩⟩
  rw [← hx, List.append_assoc]
  rfl

/-- With an entry to spare, `parse_envp` finds what stands in the blocks. -/
theorem parseEnvp_reads (hlen : vars.length < 15) (hdef : ∀ name ∈ required, ∃ v ∈ vars, Spells (cString name) v.name) :
    ∃ found h', parseEnvp ((List.range' h.brk vars.length 100).map some ++ List.replicate (15 - vars.length) none)
        ⟨h.brk + 100 * vars.length, laid vars h.brk h.mem⟩ = some (found, h') ∧
      List.Forall₂ h'.Reads found
        (((List.range' h.brk vars.length 100).map (lineAt vars h)).filterMap splitLine) := by
  have hlines : List.Forall₂ (readFrom vars h).Holds (List.range' h.brk vars.length 100)
      ((List.range' h.brk vars.length 100).map (lineAt vars h)) :=
    List.forall₂_map_right_iff.2 (List.forall₂_same.2 fun a ha => lineAt_holds hlen ha)
  obtain ⟨found, h', hparse, hreads⟩ := parseLines_spec _ (List.replicate (14 - vars.length) none) _ _ hlines [] [] .nil
  rw [List.nil_append] at hreads
  have hdefault : ∀ name ∈ required, ∀ val size, withDefault name val size (found, h') = (found, h') := by
    intro name hname val size
    obtain ⟨v, hv, hspell⟩ := hdef name hname
    obtain ⟨x, hx⟩ := required_read hname hlen hv hspell
    exact withDefault_found hreads hx hspell
  have hps1 : withPs1 (found, h') = (found, h') := hdefault "PS1" (by decide) _ _
  have hpath : withPath (found, h') = (found, h') := hdefault "PATH" (by decide) _ _
  have huser : withUser (found, h') = (found, h') := hdefault "USER" (by decide) _ _
  have hspare : List.replicate (15 - vars.length) (none : Option Nat) =
      none :: List.replicate (14 - vars.length) none := by
    rw [show 15 - vars.length = 14 - vars.length + 1 by omega]
    rfl
  refine ⟨found, h', ?_, hreads⟩
  rw [readFrom] at hparse
  rw [parseEnvp, hspare, hparse, Option.bind_eq_bind, Option.bind_some, hps1, hpath, huser]

theorem Heap.Reads.unique {node : VarNode} {p q : List Byte × List Byte} (hp : h.Reads node p) (hq : h.Reads node q) :
    p = q := Prod.ext (hp.1.spells.unique hq.1.spells) (hp.2.spells.unique hq.2.spells)

theorem splitLine_iff {f : Nat → Byte} (hw : Spells f w) : splitLine w = some v.binding ↔ Spells f v.line := by
  rw [Var.binding, splitLine_eq_some]
  refine ⟨fun h => ?_, fun h => ⟨hw.unique h, v.noAssign⟩⟩
  rw [Var.line, ← h.1]
  exact hw

/-- The store comes back where its lines can be told apart again. -/
theorem roundTrip_iff_fits (hstore : ∀ v ∈ vars, h.Reads v.node v.binding)
    (hdef : ∀ name ∈ required, ∃ v ∈ vars, Spells (cString name) v.name) (hlen : vars.length < 15) :
    RoundTrip vars h ↔ Fits vars h.brk h.mem := by
  have hget := getEnvpFrom_eq vars 15 h hstore (Nat.le_of_lt hlen)
  obtain ⟨found, h', hparse, hreads⟩ := parseEnvp_reads (h := h) hlen hdef
  have hread : RoundTrip vars h ↔ List.Forall₂ h'.Reads found (vars.map Var.binding) := by
    constructor
    · rintro ⟨envp, h1, found', h2, hget', hparse', hall⟩
      rw [getEnvp, hget] at hget'
      cases hget'
      rw [hparse] at hparse'
      cases hparse'
      exact hall
    · exact fun hall => ⟨_, _, found, h', hget, hparse, hall⟩
  have hpairs : List.Forall₂ h'.Reads found (vars.map Var.binding) ↔
      (List.range' h.brk vars.length 100).filterMap (fun a => splitLine (lineAt vars h a)) =
        vars.map Var.binding := by
    rw [List.filterMap_map] at hreads
    have hunique : Relator.RightUnique h'.Reads := fun _ _ _ hp hq => hp.unique hq
    exact ⟨fun hall => List.right_unique_forall₂' hunique hreads hall, fun he => he ▸ hreads⟩
  have hholds : ∀ a ∈ List.range' h.brk vars.length 100, (readFrom vars h).Holds a (lineAt vars h a) :=
    fun a ha => lineAt_holds hlen ha
  rw [hread, hpairs, filterMap_eq_map_iff _ _ List.length_range', ← lines_iff]
  constructor
  · intro hall
    exact ((List.forall₂_and_left _ _).2 ⟨hholds, hall⟩).imp fun a v ha => (splitLine_iff ha.1.spells).1 ha.2
  · intro hall
    exact ((List.forall₂_and_left _ _).2 ⟨hholds, hall⟩).imp fun a v ha => (splitLine_iff ha.1.spells).2 ha.2

/-- With 15 variables the array has no `NULL`, with more it overflows. -/
theorem RoundTrip.length_lt (hstore : ∀ v ∈ vars, h.Reads v.node v.binding) (hr : RoundTrip vars h) :
    vars.length < 15 := by
  obtain ⟨envp, h1, found, h2, hget, hparse, -⟩ := hr
  rw [getEnvp] at hget
  by_contra hge
  by_cases heq : vars.length = 15
  · rw [getEnvpFrom_eq vars 15 h hstore (Nat.le_of_eq heq), heq, Nat.sub_self, List.replicate_zero,
      List.append_nil] at hget
    cases hget
    rw [parseEnvp, parseLines_full] at hparse
    cases hparse
  · rw [getEnvpFrom_full _ _ _ (by rw [List.length_map]; omega)] at hget
    cases hget

/-- **The environment comes back.** There are at most 14 variables, and every line ends where it should: with a
NUL behind it inside its block, or, too long for the block, so that what stands behind the block continues it. -/
theorem environment_round_trip (hstore : ∀ v ∈ vars, h.Reads v.node v.binding)
    (hdef : ∀ name ∈ required, ∃ v ∈ vars, Spells (cString name) v.name) :
    RoundTrip vars h ↔ vars.length < 15 ∧ Fits vars h.brk h.mem := by
  constructor
  · intro hr
    have hlen := hr.length_lt hstore
    exact ⟨hlen, (roundTrip_iff_fits hstore hdef hlen).1 hr⟩
  · rintro ⟨hlen, hfits⟩
    exact (roundTrip_iff_fits hstore hdef hlen).2 hfits

end lines

/-- `PS1`, `PATH`, `USER`, `>` and an empty string. -/
def threeStrings : List Byte :=
  [0x50, 0x53, 0x31, 0, 0x50, 0x41, 0x54, 0x48, 0, 0x55, 0x53, 0x45, 0x52, 0, 0x3e, 0, 0]

/-- The strings of three variables, the first with the value `>`, and memory that holds `stale` behind them. -/
def threeHeap (stale : Byte) : Heap where
  brk := 17
  mem a := threeStrings.getD a stale

def threeVars : List Var :=
  [⟨⟨0, 14⟩, [0x50, 0x53, 0x31], [0x3e], by decide, by decide, by decide⟩,
    ⟨⟨4, 15⟩, [0x50, 0x41, 0x54, 0x48], [], by decide, by decide, by decide⟩,
    ⟨⟨9, 15⟩, [0x55, 0x53, 0x45, 0x52], [], by decide, by decide, by decide⟩]

theorem threeHeap_holds {stale : Byte} {a : Nat} {w : List Byte} (hbelow : a + w.length < 17)
    (hchars : ∀ i (h : i < w.length), threeStrings[a + i]? = some w[i]) (hne : ∀ c ∈ w, c ≠ 0)
    (hnul : threeStrings[a + w.length]? = some 0) : (threeHeap stale).Holds a w where
  spells := by
    have hmem : ∀ i, shift a (threeHeap stale).mem i = (threeStrings[a + i]?).getD stale :=
      fun i => List.getD_eq_getElem?_getD
    refine ⟨fun i hi => ?_, hne, ?_⟩
    · rw [hmem, hchars i hi, Option.getD_some]
    · rw [hmem, hnul, Option.getD_some]
  short := by rw [maxStrLen]; omega
  below := hbelow

theorem threeVars_stored (stale : Byte) : ∀ v ∈ threeVars, (threeHeap stale).Reads v.node v.binding := by
  have hempty : (threeHeap stale).Holds 15 [] := threeHeap_holds (by decide) (by decide) (by decide) (by decide)
  intro v hv
  simp only [threeVars, List.mem_cons, List.not_mem_nil, or_false] at hv
  rcases hv with rfl | rfl | rfl
  · exact ⟨threeHeap_holds (by decide) (by decide) (by decide) (by decide),
      threeHeap_holds (by decide) (by decide) (by decide) (by decide)⟩
  · exact ⟨threeHeap_holds (by decide) (by decide) (by decide) (by decide), hempty⟩
  · exact ⟨threeHeap_holds (by decide) (by decide) (by decide) (by decide), hempty⟩

theorem threeVars_required : ∀ name ∈ required, ∃ v ∈ threeVars, Spells (cString name) v.name := by
  intro name hname
  simp only [required, List.mem_cons, List.not_mem_nil, or_false] at hname
  rcases hname with rfl | rfl | rfl
  · exact ⟨_, List.mem_cons_self, spells_cString rfl (by decide)⟩
  · exact ⟨_, List.mem_cons_of_mem _ List.mem_cons_self, spells_cString rfl (by decide)⟩
  · exact ⟨_, List.mem_cons_of_mem _ (List.mem_cons_of_mem _ List.mem_cons_self), spells_cString rfl (by decide)⟩

theorem environment_round_trip_zero : RoundTrip threeVars (threeHeap 0) := by
  refine (environment_round_trip (threeVars_stored 0) threeVars_required).2 ⟨by decide, ?_, ?_, ?_, trivial⟩
  · exact (Var.ends_short (by decide)).2 (.inr rfl)
  · exact (Var.ends_short (by decide)).2 (.inl rfl)
  · exact (Var.ends_short (by decide)).2 (.inl rfl)

/-- The byte behind `PS1=>` is read with the value. -/
theorem environment_round_trip_stale : ¬RoundTrip threeVars (threeHeap 1) := by
  intro hr
  obtain ⟨hends, -⟩ := (roundTrip_iff_fits (threeVars_stored 1) threeVars_required (by decide)).1 hr
  rcases (Var.ends_short (by decide)).1 hends with he | hnul
  · cases he
  · exact absurd hnul (by decide)

end Sbuos
