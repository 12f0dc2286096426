import Sbuos.Environment
import Sbuos.Lib.Assoc
/-!
# Setting variables (bin/sbush/envutil.c:67-121, bin/sbush/sbushell.c:145-153)

`var_set` gives a variable that is there a new value, and adds one that is not. Both copy with the shell's
`strcpy` into blocks that have room for the NUL, which `strcpy` does not store: the string ends there only if the
new memory has a zero at that place.

**`var_store_is_map`**: whatever runs between the calls, the store is a map after each of them exactly when each
finds those zeros.
-/
namespace Sbuos
open Lib

/-- The list of variables, and the heap that has their strings. -/
structure VarStore where
  vars : List VarNode
  heap : Heap

namespace VarStore

/-- `var_find` as a place in the list. -/
def varIndex (s : VarStore) (varname : Nat → Byte) : Nat :=
  s.vars.findIdx fun current => strcomp (shift current.varname s.heap.mem) varname = 0

/-- `var_set` (envutil.c:94-121); `process_val` returns its argument, and `free` does nothing. -/
def varSet (varname varval : Nat) (s : VarStore) : VarStore :=
  let i := s.varIndex (shift varname s.heap.mem)
  match s.vars[i]? with
  | some target =>
    let l := strlen (shift varval s.heap.mem) + 1
    let (copy, h) := s.heap.malloc l.toNat
    ⟨s.vars.set i { target with varval := copy }, { h with mem := (strcpy (shift varval) copy h.mem).1 }⟩
  | none =>
    let lr := strlen (shift varname s.heap.mem) + 1
    let ll := strlen (shift varval s.heap.mem) + 1
    let (myVarname, h) := s.heap.malloc lr.toNat
    let h := { h with mem := (strcpy (shift varname) myVarname h.mem).1 }
    let (myVarval, h) := h.malloc ll.toNat
    let h := { h with mem := (strcpy (shift varval) myVarval h.mem).1 }
    let (vars, h) := varAdd myVarname myVarval s.vars h
    ⟨vars, h⟩

/-- The assignment of `do_command` (sbushell.c:145-153), with the `'='` at `pos`. -/
def doAssignment (line pos : Nat) (s : VarStore) : VarStore :=
  let ((varname, varval), h) := strSplitLine line pos s.heap
  varSet varname varval ⟨s.vars, h⟩

/-! ## What the store says -/

/-- The variables read as these pairs. -/
def Stored (s : VarStore) (pairs : List (List Byte × List Byte)) : Prop := List.Forall₂ s.heap.Reads s.vars pairs

/-- `var_find` of the name has this value. -/
def Binds (s : VarStore) (name value : List Byte) : Prop := ∀ varname, Spells varname name →
  ∃ node, varFind varname s.vars s.heap.mem = some node ∧ Spells (shift node.varval s.heap.mem) value

/-- `var_find` of the name has nothing. -/
def Lacks (s : VarStore) (name : List Byte) : Prop := ∀ varname, Spells varname name →
  varFind varname s.vars s.heap.mem = none

/-- The name is in the list once. -/
def Once (s : VarStore) (name : List Byte) : Prop := ∀ varname, Spells varname name →
  s.vars.countP (fun node => strcomp (shift node.varname s.heap.mem) varname = 0) = 1

/-- Other code has run: it may have allocated and stored what it likes, but not over the strings of the store. -/
structure Keeps (s s' : VarStore) : Prop where
  vars : s'.vars = s.vars
  reads : ∀ node ∈ s.vars, ∀ p, s.heap.Reads node p → s'.heap.Reads node p

end VarStore

/-- A call of `var_set`. -/
structure VarCall where
  before : VarStore
  varname : Nat
  varval : Nat
  name : List Byte
  value : List Byte

namespace VarCall

def after (c : VarCall) : VarStore := c.before.varSet c.varname c.varval

def binding (c : VarCall) : List Byte × List Byte := (c.name, c.value)

/-- The strings it is given. -/
structure Given (c : VarCall) : Prop where
  name : c.before.heap.Holds c.varname c.name
  value : c.before.heap.Holds c.varval c.value
  name_ne : c.name ≠ []

/-- A copy of the string at `a` will end where it should. -/
def Ends (mem : Nat → Byte) (a : Nat) (w : List Byte) : Prop := w = [] ∨ mem (a + w.length) = 0

/-- The new memory has the zeros that `strcpy` does not store. -/
def Clean (c : VarCall) : Prop :=
  let h := c.before.heap
  match varFind (shift c.varname h.mem) c.before.vars h.mem with
  | some _ => Ends h.mem h.brk c.value
  | none => Ends h.mem h.brk c.name ∧ Ends h.mem (h.brk + (c.name.length + 1)) c.value

end VarCall

/-- What the last of the calls leaves. -/
def varsAfter (s : VarStore) (calls : List VarCall) : VarStore := (calls.getLast?.map VarCall.after).getD s

/-- One call after the other, with other code between them. -/
inductive VarCalls (s : VarStore) : List VarCall → Prop
  | start : VarCalls s []
  | call {calls : List VarCall} {c : VarCall} : VarCalls s calls → (varsAfter s calls).Keeps c.before → c.Given →
      VarCalls s (calls ++ [c])

/-- From `s` to `s'` these pairs have been set. -/
structure Maps (s s' : VarStore) (pairs : List (List Byte × List Byte)) : Prop where
  last : ∀ name value, lookupKey name pairs.reverse = some value → s'.Binds name value
  others : ∀ name value, lookupKey name pairs = none → (s'.Binds name value ↔ s.Binds name value)
  once : ∀ name, s.Lacks name → lookupKey name pairs ≠ none → s'.Once name

/-! ## Reading -/

section reading
variable {h : Heap} {vars : List VarNode} {pairs : List (List Byte × List Byte)} {f : Nat → Byte} {n w : List Byte}
  {a t : Nat}

/-- A string too long for `strlen` is no name of the store. -/
theorem Heap.Holds.strcomp_eq_zero (hh : h.Holds a w) (hf : Spells f n) :
    strcomp (shift a h.mem) f = 0 ↔ w = n := by
  by_cases hn : n.length < maxStrLen
  · exact hh.spells.strcomp_eq_zero hf hh.short hn
  · have hlong : strlen f = -1 := firstIndex_none fun j hj => hf.apply_ne_zero (by omega)
    have hshort := hh.short
    rw [strcomp, hh.spells.strlen hshort, hlong, if_pos (by omega)]
    refine iff_of_false (by omega) ?_
    rintro rfl
    exact hn hshort

theorem eq_zero_of_strlen {l : Nat} (h : strlen f = l) : f l = 0 := by
  rw [strlen, firstIndex] at h
  split at h
  · rename_i i hi
    have := List.find?_some hi
    rw [← Int.ofNat_inj.1 h]
    exact eq_of_beq this
  · omega

/-- What compares equal to a string is that string. -/
theorem spells_of_strcomp {g : Nat → Byte} (hf : Spells f n) (hn : n.length < maxStrLen) (h : strcomp g f = 0) :
    Spells g n := by
  rw [strcomp, hf.strlen hn] at h
  split at h
  · omega
  · rename_i hlen
    have hlen : strlen g = n.length := by omega
    rw [hlen, Int.toNat_natCast] at h
    have hsame : ∀ i < n.length, g i = f i := by
      split at h
      · rename_i i hi
        have hne := List.find?_some hi
        exact absurd h (Spells.charDiff_ne_zero (by simpa using hne))
      · rename_i hnone
        intro i hi
        simpa using List.find?_range_eq_none.1 hnone i hi
    exact ⟨fun i hi => (hsame i hi).trans (hf.chars i hi), hf.ne_zero, eq_zero_of_strlen hlen⟩

/-- The names of the list. -/
def Heap.Names (h : Heap) (vars : List VarNode) (pairs : List (List Byte × List Byte)) : Prop :=
  List.Forall₂ (fun node p => h.Holds node.varname p.1) vars pairs

theorem VarStore.Stored.names {s : VarStore} (hs : s.Stored pairs) : s.heap.Names s.vars pairs :=
  hs.imp fun _ _ hr => hr.1

theorem varFind_cons (f : Nat → Byte) (node : VarNode) (vars : List VarNode) (mem : Nat → Byte) :
    varFind f (node :: vars) mem =
      if strcomp (shift node.varname mem) f = 0 then some node else varFind f vars mem := by
  rw [varFind, List.find?_cons]
  split
  · rename_i heq
    rw [if_pos (of_decide_eq_true heq)]
  · rename_i heq
    rw [if_neg (of_decide_eq_false heq)]
    rfl

/-- `var_find` finds a name that is there. -/
theorem Heap.Names.varFind_eq_none (hs : h.Names vars pairs) (hf : Spells f n) :
    varFind f vars h.mem = none ↔ lookupKey n pairs = none := by
  induction hs with
  | nil => exact iff_of_true rfl rfl
  | cons hp _ ih =>
    rw [varFind_cons, lookupKey_cons]
    simp only [hp.strcomp_eq_zero hf]
    split
    · exact iff_of_false (Option.some_ne_none _) (Option.some_ne_none _)
    · exact ih

theorem Heap.Names.varFind_isSome (hs : h.Names vars pairs) (hf : Spells f n) :
    (varFind f vars h.mem).isSome ↔ lookupKey n pairs ≠ none :=
  Option.isSome_iff_ne_none.trans (not_congr (hs.varFind_eq_none hf))

/-- And what it finds is the value. -/
theorem VarStore.Stored.varFind {s : VarStore} (hs : s.Stored pairs) (hf : Spells f n) :
    (∃ node, varFind f s.vars s.heap.mem = some node ∧ Spells (shift node.varval s.heap.mem) w) ↔
      lookupKey n pairs = some w := by
  obtain ⟨vars, h⟩ := s
  have hs : List.Forall₂ h.Reads vars pairs := hs
  induction hs with
  | nil => exact iff_of_false (fun ⟨_, hc, _⟩ => by cases hc) (fun hc => by cases hc)
  | @cons node p vars pairs hp hrest ih =>
    rw [lookupKey_cons]
    dsimp only at *
    simp only [varFind_cons, hp.1.strcomp_eq_zero hf]
    split
    · constructor
      · rintro ⟨node', hnode, hw⟩
        cases hnode
        rw [hw.unique hp.2.spells]
      · intro hw
        cases hw
        exact ⟨node, rfl, hp.2.spells⟩
    · exact ih hrest

theorem VarStore.Stored.countP {s : VarStore} (hs : s.Stored pairs) (hf : Spells f n) :
    s.vars.countP (fun node => strcomp (shift node.varname s.heap.mem) f = 0) = countKey n pairs := by
  obtain ⟨vars, h⟩ := s
  have hs : List.Forall₂ h.Reads vars pairs := hs
  induction hs with
  | nil => rfl
  | cons hp hrest ih =>
    rw [countKey_cons, ← ih hrest, List.countP_cons]
    simp only [decide_eq_true_eq, hp.1.strcomp_eq_zero hf]

/-! ## Copying -/

/-- A copy changes nothing below it, and ends where it should if the zero is there. -/
theorem Heap.Holds.copied (hh : h.Holds a w) (ht : h.brk ≤ t) :
    (∀ x < t, (strcpy (shift a) t h.mem).1 x = h.mem x) ∧
      (Spells (shift t (strcpy (shift a) t h.mem).1) w ↔ VarCall.Ends h.mem t w) ∧
        (w ≠ [] → (strcpy (shift a) t h.mem).1 = overwrite t w h.mem) := by
  have hbelow := hh.below
  by_cases hw : w = []
  · subst hw
    have hnul : h.mem a = 0 := hh.spells.nul
    rw [strcpy_empty hnul (by rw [List.length_nil] at hbelow; omega)]
    refine ⟨fun x hx => overwrite_of_lt hx, iff_of_true (spells_nil ?_) (.inl rfl), fun hne => absurd rfl hne⟩
    rw [shift, overwrite_add (Nat.succ_pos _)]
    rfl
  · rw [hh.spells.strcpy hw (Nat.le_of_lt hh.short) (by omega)]
    have hbehind : shift t (overwrite t w h.mem) w.length = h.mem (t + w.length) := overwrite_of_le (Nat.le_refl _)
    refine ⟨fun x hx => overwrite_of_lt hx, ?_, fun _ => rfl⟩
    rw [VarCall.Ends, or_iff_right hw]
    refine ⟨fun hs => hbehind ▸ hs.nul, fun hnul => ⟨fun i hi => overwrite_add hi, hh.spells.ne_zero, ?_⟩⟩
    rw [hbehind, hnul]

/-! ## One call -/

/-- The first variable of the name gets a new value. -/
theorem VarStore.Stored.set {s : VarStore} {h' : Heap} {copy : Nat} {v : List Byte} (hs : s.Stored pairs)
    (hf : Spells f n) (hkeep : ∀ x < s.heap.brk, h'.mem x = s.heap.mem x) (hbrk : s.heap.brk ≤ h'.brk)
    (hv : h'.Holds copy v) (hin : lookupKey n pairs ≠ none) :
    ∃ target, s.vars[s.varIndex f]? = some target ∧
      List.Forall₂ h'.Reads (s.vars.set (s.varIndex f) { target with varval := copy }) (setKey n v pairs) := by
  obtain ⟨vars, h⟩ := s
  have hs : List.Forall₂ h.Reads vars pairs := hs
  induction hs with
  | nil => exact absurd rfl hin
  | @cons node p vars pairs hp hrest ih =>
    have hp' := hp.congr hbrk hkeep
    have hrest' := hrest.imp fun _ _ hr => hr.congr hbrk hkeep
    dsimp only [varIndex] at *
    rw [setKey, List.findIdx_cons]
    rw [lookupKey_cons] at hin
    have hcomp := hp.1.strcomp_eq_zero hf
    by_cases hname : p.1 = n
    · rw [if_pos hname, decide_eq_true (hcomp.2 hname)]
      exact ⟨node, rfl, .cons ⟨hname ▸ hp'.1, hv⟩ hrest'⟩
    · rw [if_neg hname] at hin
      rw [if_neg hname, decide_eq_false (mt hcomp.1 hname)]
      obtain ⟨target, htarget, hset⟩ := ih hin hrest hkeep hbrk
      exact ⟨target, htarget, .cons hp' hset⟩

/-- The changed variable is the one that is found. -/
theorem VarStore.Stored.varFind_set {s : VarStore} {h' : Heap} {copy : Nat} {target : VarNode} (hs : s.Stored pairs)
    (hf : Spells f n) (hkeep : ∀ x < s.heap.brk, h'.mem x = s.heap.mem x) (hbrk : s.heap.brk ≤ h'.brk)
    (htarget : s.vars[s.varIndex f]? = some target) :
    Sbuos.varFind f (s.vars.set (s.varIndex f) { target with varval := copy }) h'.mem =
      some { target with varval := copy } := by
  obtain ⟨vars, h⟩ := s
  have hs : List.Forall₂ h.Reads vars pairs := hs
  induction hs with
  | nil => cases htarget
  | @cons node p vars pairs hp hrest ih =>
    have hp' := hp.congr hbrk hkeep
    dsimp only [varIndex] at *
    rw [List.findIdx_cons] at htarget ⊢
    have hcomp := hp.1.strcomp_eq_zero hf
    have hcomp' := hp'.1.strcomp_eq_zero hf
    by_cases hname : p.1 = n
    · rw [decide_eq_true (hcomp.2 hname)] at htarget ⊢
      cases htarget
      exact (varFind_cons _ _ _ _).trans (if_pos (hcomp'.2 hname))
    · rw [decide_eq_false (mt hcomp.1 hname)] at htarget ⊢
      exact (varFind_cons _ _ _ _).trans ((if_neg (mt hcomp'.1 hname)).trans (ih hrest hkeep hbrk htarget))

/-- A name that is not there goes to the end. -/
theorem setKey_of_lookupKey {v : List Byte} (h : lookupKey n pairs = none) : setKey n v pairs = pairs ++ [(n, v)] := by
  induction pairs with
  | nil => rfl
  | cons p pairs ih =>
    rw [lookupKey_cons] at h
    split at h
    · cases h
    · rename_i hp
      rw [setKey, if_neg hp, ih h, List.cons_append]

end reading

namespace VarCall
variable {c : VarCall} {pairs : List (List Byte × List Byte)}

/-- Whether the name is there decides which branch a call takes. -/
theorem Given.varFind_eq_none (hc : c.Given) (hs : c.before.Stored pairs) :
    varFind (shift c.varname c.before.heap.mem) c.before.vars c.before.heap.mem = none ↔
      lookupKey c.name pairs = none := hs.names.varFind_eq_none hc.name.spells

theorem varFind_eq_getElem? (s : VarStore) (f : Nat → Byte) : varFind f s.vars s.heap.mem = s.vars[s.varIndex f]? :=
  List.find?_eq_getElem?_findIdx

/-- The heap after the value has been copied. -/
def updated (c : VarCall) : Heap where
  brk := c.before.heap.brk + (c.value.length + 1)
  mem := (strcpy (shift c.varval) c.before.heap.brk c.before.heap.mem).1

/-- The heap after both have been copied. -/
def inserted (c : VarCall) : Heap :=
  let h := c.before.heap
  let mem := (strcpy (shift c.varname) h.brk h.mem).1
  ⟨h.brk + (c.name.length + 1) + (c.value.length + 1) + sizeofVarList,
    (strcpy (shift c.varval) (h.brk + (c.name.length + 1)) mem).1⟩

theorem Given.after_of_some (hc : c.Given) {target : VarNode}
    (hfind : c.before.vars[c.before.varIndex (shift c.varname c.before.heap.mem)]? = some target) :
    c.after = ⟨c.before.vars.set (c.before.varIndex (shift c.varname c.before.heap.mem))
      { target with varval := c.before.heap.brk }, c.updated⟩ := by
  have hlen : ((c.value.length : Int) + 1).toNat = c.value.length + 1 := rfl
  simp only [after, VarStore.varSet, hfind, hc.value.spells.strlen hc.value.short, Heap.malloc, hlen, updated]

theorem Given.after_of_none (hc : c.Given)
    (hfind : c.before.vars[c.before.varIndex (shift c.varname c.before.heap.mem)]? = none) :
    c.after = ⟨c.before.vars ++ [⟨c.before.heap.brk, c.before.heap.brk + (c.name.length + 1)⟩], c.inserted⟩ := by
  have hlen : ((c.value.length : Int) + 1).toNat = c.value.length + 1 := rfl
  have hlen' : ((c.name.length : Int) + 1).toNat = c.name.length + 1 := rfl
  simp only [after, VarStore.varSet, hfind, hc.value.spells.strlen hc.value.short,
    hc.name.spells.strlen hc.name.short, Heap.malloc, hlen, hlen', varAdd, inserted]

theorem Given.updated (hc : c.Given) : (∀ x < c.before.heap.brk, c.updated.mem x = c.before.heap.mem x) ∧
    (Spells (shift c.before.heap.brk c.updated.mem) c.value ↔ Ends c.before.heap.mem c.before.heap.brk c.value) := by
  obtain ⟨hkeep, hends, -⟩ := hc.value.copied (Nat.le_refl c.before.heap.brk)
  exact ⟨hkeep, hends⟩

theorem Given.inserted (hc : c.Given) : (∀ x < c.before.heap.brk, c.inserted.mem x = c.before.heap.mem x) ∧
    (Spells (shift c.before.heap.brk c.inserted.mem) c.name ↔ Ends c.before.heap.mem c.before.heap.brk c.name) ∧
      (Spells (shift (c.before.heap.brk + (c.name.length + 1)) c.inserted.mem) c.value ↔
        Ends c.before.heap.mem (c.before.heap.brk + (c.name.length + 1)) c.value) := by
  obtain ⟨hkeep, hname, hstored⟩ := hc.name.copied (Nat.le_refl c.before.heap.brk)
  have hstored := hstored hc.name_ne
  -- the value is copied from below the two blocks
  have hvalue : Heap.Holds ⟨c.before.heap.brk + (c.name.length + 1),
      (strcpy (shift c.varname) c.before.heap.brk c.before.heap.mem).1⟩ c.varval c.value :=
    hc.value.congr (Nat.le_add_right _ _) hkeep
  obtain ⟨hkeep', hvalue', -⟩ := hvalue.copied (Nat.le_refl _)
  refine ⟨fun x hx => (hkeep' x (Nat.lt_add_right _ hx)).trans (hkeep x hx), ?_, hvalue'.trans ?_⟩
  · rw [← hname]
    have hsame : ∀ i ≤ c.name.length, shift c.before.heap.brk c.inserted.mem i =
        shift c.before.heap.brk (strcpy (shift c.varname) c.before.heap.brk c.before.heap.mem).1 i :=
      fun i hi => hkeep' _ (show c.before.heap.brk + i < c.before.heap.brk + (c.name.length + 1) by omega)
    exact ⟨fun hs => hs.congr fun i hi => (hsame i hi).symm, fun hs => hs.congr hsame⟩
  · rw [Ends, Ends, hstored]
    dsimp only
    rw [overwrite_of_le (by omega)]

/-- **One call** sets the name, if it finds the zeros. -/
theorem Given.stored_after (hc : c.Given) (hs : c.before.Stored pairs) (hclean : c.Clean) :
    c.after.Stored (setKey c.name c.value pairs) := by
  rw [Clean] at hclean
  split at hclean
  · rename_i target hfind
    have hin : lookupKey c.name pairs ≠ none := by
      rw [ne_eq, ← hc.varFind_eq_none hs, hfind]
      exact Option.some_ne_none _
    obtain ⟨hkeep, hends⟩ := hc.updated
    have hcopy : c.updated.Holds c.before.heap.brk c.value :=
      ⟨hends.2 hclean, hc.value.short, by rw [VarCall.updated]; dsimp only; omega⟩
    obtain ⟨target, htarget, hset⟩ := hs.set hc.name.spells hkeep (Nat.le_add_right _ _) hcopy hin
    rw [hc.after_of_some htarget]
    exact hset
  · rename_i hfind
    have hnot := (hc.varFind_eq_none hs).1 hfind
    obtain ⟨hkeep, hname, hvalue⟩ := hc.inserted
    rw [varFind_eq_getElem?] at hfind
    rw [hc.after_of_none hfind, setKey_of_lookupKey hnot]
    have hbrk : c.inserted.brk = c.before.heap.brk + (c.name.length + 1) + (c.value.length + 1) + sizeofVarList := rfl
    have hold : List.Forall₂ c.inserted.Reads c.before.vars pairs := hs.imp fun _ _ hr => hr.congr (by omega) hkeep
    refine List.rel_append hold
      (.cons ⟨⟨hname.2 hclean.1, hc.name.short, ?_⟩, hvalue.2 hclean.2, hc.value.short, ?_⟩ .nil)
    · dsimp only
      omega
    · dsimp only
      rw [hbrk, sizeofVarList]
      omega

/-- A call whose pair can be read back has found them. -/
theorem Given.clean_of_binds (hc : c.Given) (hs : c.before.Stored pairs) (hb : c.after.Binds c.name c.value) :
    c.Clean := by
  obtain ⟨node, hnode, hread⟩ := hb _ hc.name.spells
  rw [Clean]
  split
  · rename_i target hfind
    rw [varFind_eq_getElem?] at hfind
    obtain ⟨hkeep, hends⟩ := hc.updated
    have hfound : varFind (shift c.varname c.before.heap.mem) (c.before.vars.set _
        { target with varval := c.before.heap.brk }) c.updated.mem = some _ :=
      hs.varFind_set hc.name.spells hkeep (Nat.le_add_right _ _) hfind
    rw [hc.after_of_some hfind] at hnode hread
    cases hfound.symm.trans hnode
    exact hends.1 hread
  · rename_i hfind
    have hnot := (hc.varFind_eq_none hs).1 hfind
    obtain ⟨hkeep, hname, hvalue⟩ := hc.inserted
    rw [varFind_eq_getElem?] at hfind
    rw [hc.after_of_none hfind] at hnode hread
    -- none of the old variables is found
    have hold : varFind (shift c.varname c.before.heap.mem) c.before.vars c.inserted.mem = none := by
      have hnames : c.inserted.Names c.before.vars pairs :=
        hs.names.imp fun _ _ hh => hh.congr (by rw [VarCall.inserted]; dsimp only; omega) hkeep
      exact (hnames.varFind_eq_none hc.name.spells).2 hnot
    have hnew := hnode
    dsimp only at hnew
    rw [varFind, List.find?_append, ← varFind, hold, Option.none_or, ← varFind, varFind_cons] at hnew
    split at hnew
    · rename_i hcomp
      cases hnew
      exact ⟨hname.1 (spells_of_strcomp hc.name.spells hc.name.short hcomp), hvalue.1 hread⟩
    · cases hnew

end VarCall

/-! ## The run -/

section run
variable {s s' : VarStore} {calls done : List VarCall} {c : VarCall} {pairs cs : List (List Byte × List Byte)}

theorem varsAfter_append (s : VarStore) (calls : List VarCall) (c : VarCall) :
    varsAfter s (calls ++ [c]) = c.after := by
  rw [varsAfter, List.getLast?_concat]
  rfl

theorem VarStore.Keeps.stored (hk : s.Keeps s') (hs : s.Stored pairs) : s'.Stored pairs := by
  rw [Stored, hk.vars]
  exact ((List.forall₂_and_left _ _).2 ⟨fun _ hnode => hnode, hs⟩).imp fun node p h => hk.reads node h.1 p h.2

/-- **The run**: the calls set their pairs one after the other. -/
theorem VarCalls.stored (hrun : VarCalls s calls) (hs : s.Stored pairs) (hclean : ∀ c ∈ calls, c.Clean) :
    (varsAfter s calls).Stored (setKeys (calls.map VarCall.binding) pairs) := by
  induction hrun with
  | start => exact hs
  | @call calls c _ hkeep hgiven ih =>
    have hbefore := hkeep.stored (ih fun c' hc' => hclean c' (List.mem_append_left _ hc'))
    have hafter := hgiven.stored_after hbefore (hclean c (by simp))
    rw [varsAfter_append, List.map_append, setKeys, List.foldl_append]
    exact hafter

/-- What a store with these pairs says. -/
theorem VarStore.Stored.maps (hs : s.Stored pairs) (hs' : s'.Stored (setKeys cs pairs)) : Maps s s' cs where
  last name value hlast varname hspell := by
    rw [hs'.varFind hspell, lookupKey_setKeys, hlast]
    rfl
  others name value hnone := by
    have hrev : lookupKey name cs.reverse = none := by
      rw [lookupKey_eq_none] at hnone ⊢
      exact fun p hp => hnone p (List.mem_reverse.1 hp)
    refine forall_congr' fun varname => forall_congr' fun hspell => ?_
    rw [hs'.varFind hspell, hs.varFind hspell, lookupKey_setKeys, hrev]
    rfl
  once name hlacks hset varname hspell := by
    have hzero : countKey name pairs = 0 :=
      countKey_eq_zero.2 ((hs.names.varFind_eq_none hspell).1 (hlacks varname hspell))
    rw [hs'.countP hspell, countKey_setKeys, if_neg hset, hzero]
    rfl

theorem VarCalls.of_prefix (hrun : VarCalls s calls) (hdone : done <+: calls) : VarCalls s done := by
  induction hrun with
  | start => exact List.prefix_nil.1 hdone ▸ .start
  | call hprev hkeep hgiven ih =>
    rcases List.prefix_concat_iff.1 hdone with rfl | hdone
    · exact .call hprev hkeep hgiven
    · exact ih hdone

/-- **The store is a map** after each of the calls exactly when each finds the zeros that `strcpy` leaves out. -/
theorem var_store_is_map (hs : s.Stored pairs) (hrun : VarCalls s calls) :
    (∀ done, done <+: calls → Maps s (varsAfter s done) (done.map VarCall.binding)) ↔ ∀ c ∈ calls, c.Clean := by
  constructor
  · intro hmaps
    induction hrun with
    | start => exact fun c hc => absurd hc List.not_mem_nil
    | @call calls c hprev hkeep hgiven ih =>
      have hclean := ih fun done hdone => hmaps done (hdone.trans (List.prefix_append _ _))
      have hbinds := (hmaps _ (List.prefix_refl _)).last c.name c.value (by
        rw [List.map_append, List.reverse_append]
        exact (lookupKey_cons _ _ _).trans (if_pos rfl))
      rw [varsAfter_append] at hbinds
      have hlast := hgiven.clean_of_binds (hkeep.stored (hprev.stored hs hclean)) hbinds
      intro c' hc'
      rcases List.mem_append.1 hc' with hc' | hc'
      · exact hclean c' hc'
      · rwa [List.mem_singleton.1 hc']
  · intro hclean done hdone
    exact hs.maps ((hrun.of_prefix hdone).stored hs fun c hc => hclean c (hdone.subset hc))

end run

/-! ## The store that parse_envp builds -/

/-- The variable is there, or the new memory has the zeros behind what is added. -/
def DefaultClean (name val : String) (size : Nat) : List VarNode × Heap → Prop
  | (vars, h) => (varFind (cString name) vars h.mem).isSome ∨
      h.mem (h.brk + name.length) = 0 ∧ h.mem (h.brk + size + val.length) = 0

/-- A literal that fits into its block. -/
structure Literal (text : String) (w : List Byte) (size : Nat) : Prop where
  spells : Spells (cString text) w
  length : w.length = text.length
  ne : w ≠ []
  lt : w.length < size

section built
variable {vars : List VarNode} {h : Heap} {pairs : List (List Byte × List Byte)} {f : Nat → Byte} {w n v : List Byte}
  {name val : String} {size t : Nat} {mem : Nat → Byte}

/-- A literal with characters is stored without its NUL. -/
theorem strcpy_literal (hf : Spells f w) (hw : w ≠ []) (hlen : w.length ≤ maxStrLen) :
    (strcpy (fun _ => f) t mem).1 = overwrite t w mem := by
  have hloop : ∀ k turns l mem, l + (k + 1) = w.length → k < turns →
      (strcpyFrom (fun _ => f) t turns l mem).1 = overwrite (t + l) (w.drop l) mem := by
    intro k
    induction k with
    | zero =>
      intro turns l mem hl hturns
      obtain ⟨turns, rfl⟩ := Nat.exists_eq_add_of_lt hturns
      have hlast : w.drop l = [f l] := by
        rw [List.drop_eq_getElem_cons (by omega), hf.chars l (by omega), List.drop_eq_nil_of_le (by omega)]
      have hnul : f (l + 1) = 0 := by
        rw [hl]
        exact hf.nul
      rw [strcpyFrom, if_pos hnul, hlast, overwrite_singleton]
    | succ k ih =>
      intro turns l mem hl hturns
      obtain ⟨turns, rfl⟩ := Nat.exists_eq_add_of_lt hturns
      have hcons : w.drop l = f l :: w.drop (l + 1) := by
        rw [List.drop_eq_getElem_cons (by omega), hf.chars l (by omega)]
      rw [strcpyFrom, if_neg (hf.apply_ne_zero (by omega)), ih _ _ _ (by omega) (by omega), hcons,
        ← Nat.add_assoc, overwrite_update]
  have hpos := List.length_pos_iff.2 hw
  exact hloop (w.length - 1) maxStrLen 0 mem (by omega) (by omega)

/-- A default that is missing is added, and reads if its zeros are there. -/
theorem withDefault_missing (hn : Literal name n size) (hv : Literal val v 20) (hsize : size ≤ 20)
    (hs : VarStore.Stored ⟨vars, h⟩ pairs) (hnot : lookupKey n pairs = none) :
    ∃ s : VarStore, withDefault name val size (vars, h) = (s.vars, s.heap) ∧ s = ⟨vars ++ [⟨h.brk, h.brk + size⟩],
      ⟨h.brk + size + 20 + sizeofVarList, overwrite (h.brk + size) v (overwrite h.brk n h.mem)⟩⟩ ∧
      (h.mem (h.brk + name.length) = 0 → h.mem (h.brk + size + val.length) = 0 → s.Stored (pairs ++ [(n, v)])) := by
  have hmiss : ¬(varFind (cString name) vars h.mem).isSome :=
    fun hin => (hs.names.varFind_isSome hn.spells).1 hin hnot
  have hnlt := hn.lt
  have hvlt := hv.lt
  refine ⟨_, ?_, rfl, fun hzero hzero' => ?_⟩
  · rw [withDefault, if_neg hmiss]
    simp only [Heap.malloc, varAdd, strcpy_literal hn.spells hn.ne (by rw [maxStrLen]; omega),
      strcpy_literal hv.spells hv.ne (by rw [maxStrLen]; omega)]
  · have hkeep : ∀ x < h.brk, overwrite (h.brk + size) v (overwrite h.brk n h.mem) x = h.mem x := by
      intro x hx
      rw [overwrite_of_lt (by omega), overwrite_of_lt hx]
    refine List.rel_append (hs.imp fun _ _ hr => hr.congr (by dsimp only; omega) hkeep)
      (.cons ⟨⟨⟨fun i hi => ?_, hn.spells.ne_zero, ?_⟩, ?_, ?_⟩,
        ⟨⟨fun i hi => ?_, hv.spells.ne_zero, ?_⟩, ?_, ?_⟩⟩ .nil)
    · have hi : i < n.length := hi
      dsimp only [shift]
      rw [overwrite_of_lt (by omega), overwrite_add hi]
    · dsimp only [shift]
      rw [overwrite_of_lt (by omega), overwrite_of_le (Nat.le_refl _), hn.length, hzero]
    · rw [maxStrLen]
      dsimp only
      omega
    · dsimp only
      omega
    · exact overwrite_add hi
    · dsimp only [shift]
      rw [overwrite_of_le (Nat.le_refl _), overwrite_of_le (by omega), hv.length, hzero']
    · rw [maxStrLen]
      dsimp only
      omega
    · dsimp only
      omega

theorem withDefault_stored {parsed : List VarNode × Heap} (hn : Literal name n size) (hv : Literal val v 20)
    (hsize : size ≤ 20) (hs : VarStore.Stored ⟨parsed.1, parsed.2⟩ pairs) (hclean : DefaultClean name val size parsed) :
    ∃ pairs', VarStore.Stored ⟨(withDefault name val size parsed).1, (withDefault name val size parsed).2⟩ pairs' := by
  obtain ⟨vars, h⟩ := parsed
  by_cases hin : (varFind (cString name) vars h.mem).isSome
  · rw [withDefault, if_pos hin]
    exact ⟨pairs, hs⟩
  · obtain ⟨hzero, hzero'⟩ := hclean.resolve_left hin
    have hnot := (hs.names.varFind_eq_none hn.spells).1 (Option.not_isSome_iff_eq_none.1 hin)
    obtain ⟨s, heq, -, hstored⟩ := withDefault_missing hn hv hsize hs hnot
    rw [heq]
    exact ⟨_, hstored hzero hzero'⟩

theorem literal_ps1 : Literal "PS1" [0x50, 0x53, 0x31] 4 :=
  ⟨spells_cString rfl (by decide), rfl, by decide, by decide⟩

theorem literal_path : Literal "PATH" [0x50, 0x41, 0x54, 0x48] 6 :=
  ⟨spells_cString rfl (by decide), rfl, by decide, by decide⟩

theorem literal_user : Literal "USER" [0x55, 0x53, 0x45, 0x52] 6 :=
  ⟨spells_cString rfl (by decide), rfl, by decide, by decide⟩

theorem literal_ps1_val : Literal "\\u@sbush:\\d-(\\S)->"
    [0x5c, 0x75, 0x40, 0x73, 0x62, 0x75, 0x73, 0x68, 0x3a, 0x5c, 0x64, 0x2d, 0x28, 0x5c, 0x53, 0x29, 0x2d, 0x3e] 20 :=
  ⟨spells_cString rfl (by decide), rfl, by decide, by decide⟩

theorem literal_path_val : Literal "/bin" [0x2f, 0x62, 0x69, 0x6e] 20 :=
  ⟨spells_cString rfl (by decide), rfl, by decide, by decide⟩

theorem literal_user_val : Literal "abanitalebid"
    [0x61, 0x62, 0x61, 0x6e, 0x69, 0x74, 0x61, 0x6c, 0x65, 0x62, 0x69, 0x64] 20 :=
  ⟨spells_cString rfl (by decide), rfl, by decide, by decide⟩

/-- The store that `parse_envp` builds reads, if each default that it adds does. -/
theorem parseEnvp_stored {lines : List Nat} {rest : List (Option Nat)} {ws : List (List Byte)}
    (hlines : List.Forall₂ (varInit h).Holds lines ws)
    (hclean : ∀ parsed, parseLines (lines.map some ++ none :: rest) [] (varInit h) = some parsed →
      DefaultClean "PS1" "\\u@sbush:\\d-(\\S)->" 4 parsed ∧ DefaultClean "PATH" "/bin" 6 (withPs1 parsed) ∧
        DefaultClean "USER" "abanitalebid" 6 (withPath (withPs1 parsed))) :
    ∃ s pairs, parseEnvp (lines.map some ++ none :: rest) h = some (s.vars, s.heap) ∧ VarStore.Stored s pairs := by
  obtain ⟨vars, h', hparse, hreads⟩ := parseLines_spec lines rest ws (varInit h) hlines [] [] .nil
  obtain ⟨hps1, hpath, huser⟩ := hclean _ hparse
  have hstart : VarStore.Stored ⟨(vars, h').1, (vars, h').2⟩ _ := hreads
  obtain ⟨_, h1⟩ := withDefault_stored literal_ps1 literal_ps1_val (by decide) hstart hps1
  obtain ⟨_, h2⟩ := withDefault_stored literal_path literal_path_val (by decide) h1 hpath
  obtain ⟨pairs, h3⟩ := withDefault_stored literal_user literal_user_val (by decide) h2 huser
  refine ⟨_, pairs, ?_, h3⟩
  rw [parseEnvp, hparse]
  rfl

end built

/-! ## A store -/

/-- The strings `A` and `x`, room for what `parse_envp` allocates, and memory that holds `stale` behind it. -/
def startHeap (stale : Byte) : Heap where
  brk := 4
  mem a := if a = 0 then 0x41 else if a = 2 then 0x78 else if a < 191 then 0 else stale

theorem overwrite_of_apart {b a : Nat} {u : List Byte} {mem : Nat → Byte} (h : a < b ∨ b + u.length ≤ a) :
    overwrite b u mem a = mem a := h.elim overwrite_of_lt overwrite_of_le

/-- What `parse_envp` makes of an empty environment there. -/
theorem startHeap_built (stale : Byte) : ∃ s : VarStore, parseEnvp [none] (startHeap stale) = some (s.vars, s.heap) ∧
    (∃ pairs, s.Stored pairs ∧ lookupKey [0x41] pairs = none) ∧ s.heap.brk = 191 ∧
      ∀ a, a < 4 ∨ 191 ≤ a → s.heap.mem a = (startHeap stale).mem a := by
  have h0 : VarStore.Stored ⟨[], varInit (startHeap stale)⟩ [] := .nil
  obtain ⟨s1, heq1, rfl, hstored1⟩ := withDefault_missing literal_ps1 literal_ps1_val (by decide) h0 rfl
  obtain ⟨s2, heq2, rfl, hstored2⟩ := withDefault_missing literal_path literal_path_val (by decide)
    (hstored1 rfl rfl) (by decide)
  obtain ⟨s3, heq3, rfl, hstored3⟩ := withDefault_missing literal_user literal_user_val (by decide)
    (hstored2 rfl rfl) (by decide)
  refine ⟨_, ?_, ⟨_, hstored3 rfl rfl, by decide⟩, rfl, fun a ha => ?_⟩
  · have hparse : parseLines [none] [] (varInit (startHeap stale)) = some ([], varInit (startHeap stale)) := rfl
    rw [parseEnvp, hparse, Option.bind_eq_bind, Option.bind_some, withPs1, heq1, withPath, heq2, withUser, heq3]
  · have hapart : ∀ b u mem, 4 ≤ b → b + List.length u ≤ 191 → overwrite b u mem a = mem a :=
      fun b u mem hlo hhi => overwrite_of_apart (by omega)
    change overwrite 147 _ (overwrite 141 _ (overwrite 97 _ (overwrite 91 _ (overwrite 47 _ (overwrite 43 _
      (overwrite 19 _ (Function.update (startHeap stale).mem 4 0x63))))))) a = _
    rw [hapart 147 _ _ (by decide) (by decide), hapart 141 _ _ (by decide) (by decide),
      hapart 97 _ _ (by decide) (by decide), hapart 91 _ _ (by decide) (by decide),
      hapart 47 _ _ (by decide) (by decide), hapart 43 _ _ (by decide) (by decide),
      hapart 19 _ _ (by decide) (by decide), Function.update_of_ne (by omega)]

/-- `A=x`. -/
def startCall (s : VarStore) : VarCall := ⟨s, 0, 2, [0x41], [0x78]⟩

theorem startCall_given {s : VarStore} {stale : Byte} (hbrk : s.heap.brk = 191)
    (hmem : ∀ a, a < 4 ∨ 191 ≤ a → s.heap.mem a = (startHeap stale).mem a) : (startCall s).Given := by
  have hholds : ∀ a c, a < 3 → (startHeap stale).mem a = c → c ≠ 0 → (startHeap stale).mem (a + 1) = 0 →
      s.heap.Holds a [c] := by
    intro a c ha hc hne hnul
    have hfirst : shift a s.heap.mem 0 = c := (hmem a (.inl (by omega))).trans hc
    refine ⟨?_, (by decide : 1 < maxStrLen), ?_⟩
    · rw [← hfirst]
      exact spells_singleton (hfirst.symm ▸ hne) ((hmem (a + 1) (.inl (by omega))).trans hnul)
    · rw [hbrk, List.length_singleton]
      omega
  exact ⟨hholds 0 0x41 (by decide) rfl (by decide) rfl, hholds 2 0x78 (by decide) rfl (by decide) rfl,
    List.cons_ne_nil _ _⟩

/-- `A=A` after it. -/
def againCall (s : VarStore) : VarCall := ⟨(startCall s).after, 0, 0, [0x41], [0x41]⟩

/-- What the new variable leaves of the heap: 28 bytes are taken. -/
theorem startCall_after {s : VarStore} {pairs : List (List Byte × List Byte)} (hgiven : (startCall s).Given)
    (hs : s.Stored pairs) (hlacks : lookupKey [0x41] pairs = none) :
    (startCall s).after.heap.brk = s.heap.brk + 28 ∧
      ∀ x, x < s.heap.brk ∨ s.heap.brk + 28 ≤ x → (startCall s).after.heap.mem x = s.heap.mem x := by
  have hfind := (hgiven.varFind_eq_none hs).2 hlacks
  rw [VarCall.varFind_eq_getElem?] at hfind
  rw [hgiven.after_of_none hfind]
  refine ⟨rfl, fun x hx => ?_⟩
  rcases hx with hx | hx
  · exact hgiven.inserted.1 x hx
  · have hname := (hgiven.name.copied (Nat.le_refl _)).2.2 (List.cons_ne_nil _ _)
    have hvalue : Heap.Holds ⟨s.heap.brk + 2, (strcpy (shift 0) s.heap.brk s.heap.mem).1⟩ 2 [0x78] :=
      hgiven.value.congr (Nat.le_add_right _ _) (hgiven.name.copied (Nat.le_refl _)).1
    have hboth := (hvalue.copied (Nat.le_refl _)).2.2 (List.cons_ne_nil _ _)
    dsimp only [VarCall.inserted, startCall]
    exact (congrFun hboth x).trans ((overwrite_of_le (by simp; omega)).trans
      ((congrFun hname x).trans (overwrite_of_le (by simp [startCall]; omega))))

/-- In memory that is zero, `A` is new and then gets a second value. -/
theorem var_store_is_map_zero : ∃ s : VarStore, parseEnvp [none] (startHeap 0) = some (s.vars, s.heap) ∧
    Maps s (againCall s).after [([0x41], [0x78]), ([0x41], [0x41])] := by
  obtain ⟨s, hbuilt, ⟨pairs, hs, hlacks⟩, hbrk, hmem⟩ := startHeap_built 0
  have hgiven := startCall_given hbrk hmem
  obtain ⟨hbrk', hmem'⟩ := startCall_after hgiven hs hlacks
  have hagain : (againCall s).Given := by
    have hname : (startCall s).after.heap.Holds 0 [0x41] :=
      hgiven.name.congr (by rw [hbrk']; exact Nat.le_add_right _ _) fun x hx => hmem' x (.inl hx)
    exact ⟨hname, hname, List.cons_ne_nil _ _⟩
  have hzero : ∀ x, 191 ≤ x → s.heap.mem x = 0 := fun x hx => by
    rw [hmem x (.inr hx), startHeap]
    dsimp only
    rw [if_neg (by omega), if_neg (by omega), if_neg (by omega)]
  have hclean : (startCall s).Clean := by
    rw [VarCall.Clean]
    split
    · exact .inr (hzero _ (by rw [startCall, hbrk]; exact Nat.le_add_right _ _))
    · exact ⟨.inr (hzero _ (by rw [startCall, hbrk]; exact Nat.le_add_right _ _)),
        .inr (hzero _ (by rw [startCall, hbrk]; omega))⟩
  have hclean' : (againCall s).Clean := by
    have hbehind : ∀ k, (againCall s).before.heap.mem ((againCall s).before.heap.brk + k) = 0 := fun k => by
      rw [againCall, hbrk', hmem' _ (.inr (Nat.le_add_right _ _)), hbrk]
      exact hzero _ (by omega)
    rw [VarCall.Clean]
    split
    · exact .inr (hbehind _)
    · exact ⟨.inr (hbehind _), .inr (by rw [Nat.add_assoc]; exact hbehind _)⟩
  have hkeeps : ∀ s : VarStore, s.Keeps s := fun s => ⟨rfl, fun _ _ _ hr => hr⟩
  have hstart : VarCalls s [startCall s] := VarCalls.call .start (hkeeps s) hgiven
  have hrun : VarCalls s ([startCall s] ++ [againCall s]) :=
    hstart.call (hkeeps _) hagain
  refine ⟨s, hbuilt, (var_store_is_map hs hrun).2 (fun c hc => ?_) _ (List.prefix_refl _)⟩
  rcases List.mem_cons.1 hc with rfl | hc
  · exact hclean
  · rwa [List.mem_singleton.1 hc]

/-- In memory that is not zero, neither string ends. -/
theorem var_store_is_map_stale : ∃ s : VarStore, parseEnvp [none] (startHeap 1) = some (s.vars, s.heap) ∧
    (startCall s).Given ∧ ¬(startCall s).after.Binds [0x41] [0x78] := by
  obtain ⟨s, hbuilt, ⟨pairs, hs, -⟩, hbrk, hmem⟩ := startHeap_built 1
  have hgiven := startCall_given hbrk hmem
  refine ⟨s, hbuilt, hgiven, fun hb => ?_⟩
  have hclean := hgiven.clean_of_binds hs hb
  have h192 : s.heap.mem (s.heap.brk + 1) = 1 := by
    rw [hbrk]
    exact hmem 192 (.inr (by decide))
  have hends : ∀ w : List Byte, w.length = 1 → ¬VarCall.Ends s.heap.mem s.heap.brk w := by
    rintro w hw (rfl | hzero)
    · cases hw
    · rw [hw, h192] at hzero
      cases hzero
  rw [VarCall.Clean] at hclean
  split at hclean
  · exact hends [0x78] rfl hclean
  · exact hends [0x41] rfl hclean.1

end Sbuos
