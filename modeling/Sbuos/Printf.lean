import Sbuos.Numerals
import Sbuos.Lib.Run
/-!
# The library's printf (libc/printf.c:52-117)

Every conversion goes through `_buffer`, 30 bytes. `strArray` starts at its beginning and moves over each
numeral as that is written out, but is never set back, so the next numeral begins behind the last. A `%` at the
end of the format takes the NUL with it.

An `Item` is a piece of a format together with the argument it takes.

**`printf_exact`**: for which formats and arguments printf does what it should.
-/
namespace Sbuos
open Lib

/-- `'%'`. -/
def percent : Byte := 0x25

/-- An argument as the caller passes it. -/
inductive PrintfArg where
  | int (v : BitVec 32)
  | str (s : Nat → Byte)

/-- The state of a call: `_buffer` at 0 and what lies behind it, the cursor, what went to `write`, `printed`. -/
structure Printf where
  buffer : Stores
  strArray : Nat
  written : List Byte
  printed : Nat

namespace Printf

/-- `write(1, &_buffer[i], 1); printed++`. -/
def write (i : Nat) (p : Printf) : Printf :=
  { p with written := p.written ++ [p.buffer.mem i], printed := p.printed + 1 }

/-- `while (*strArray)` (printf.c:77-82, 89-94). -/
def flush : Nat → Printf → Option Printf
  | 0, _ => none
  | fuel + 1, p =>
    if p.buffer.mem p.strArray = 0 then some p
    else flush fuel { p.write p.strArray with strArray := p.strArray + 1 }

/-- `while (*strTemp != '\0')` (printf.c:101-107). -/
def putString (strTemp : Nat → Byte) : Nat → Nat → Printf → Option Printf
  | 0, _, _ => none
  | fuel + 1, i, p =>
    if strTemp i = 0 then some p
    else putString strTemp fuel (i + 1) (write 0 { p with buffer := p.buffer.put 0 (strTemp i) })

end Printf

/-- `va_arg(val, int)` and `va_arg(val, char*)`. -/
def vaInt : List PrintfArg → Option (BitVec 32 × List PrintfArg)
  | .int v :: val => some (v, val)
  | _ => none

def vaStr : List PrintfArg → Option ((Nat → Byte) × List PrintfArg)
  | .str s :: val => some (s, val)
  | _ => none

/-- The loop of `printf` at `format + i`: the state, and where in the format it has stopped. -/
def printfFrom (format : Nat → Byte) : Nat → Nat → List PrintfArg → Printf → Option (Printf × Nat)
  | 0, _, _, _ => none
  | fuel + 1, i, val, p =>
    if format i = 0 then some (p, i)
    else if format i = percent then
      if format (i + 1) = 0x63 then do
        let (v, val) ← vaInt val
        printfFrom format fuel (i + 2) val
          (Printf.write 0 { p with buffer := (p.buffer.put 0 (v.setWidth 8)).put 1 0 })
      else if format (i + 1) = 0x64 then do
        let (number, val) ← vaInt val
        let p ← Printf.flush fuel { p with buffer := formatD p.strArray number p.buffer }
        printfFrom format fuel (i + 2) val p
      else if format (i + 1) = 0x78 then do
        let (number, val) ← vaInt val
        let p ← Printf.flush fuel { p with buffer := itohPrintf p.strArray (number.signExtend 64) p.buffer }
        printfFrom format fuel (i + 2) val p
      else if format (i + 1) = 0x73 then do
        let (strTemp, val) ← vaStr val
        let p ← Printf.putString strTemp fuel 0 { p with buffer := p.buffer.put 1 0 }
        printfFrom format fuel (i + 2) val p
      else printfFrom format fuel (i + 2) val p
    else printfFrom format fuel (i + 1) val { p with written := p.written ++ [format i], printed := p.printed + 1 }

/-- `printf` (libc/printf.c:53-117) on a `_buffer` that holds `mem`. -/
def printf (fuel : Nat) (format : Nat → Byte) (args : List PrintfArg) (mem : Nat → Byte) : Option (Printf × Nat) :=
  printfFrom format fuel 0 args ⟨⟨mem, []⟩, 0, [], 0⟩

/-! ## Formats -/

/-- A piece of a format, with its argument. -/
inductive Item where
  | plain (c : Byte) (h0 : c ≠ 0) (hp : c ≠ percent)
  | chr (v : BitVec 32)
  | dec (v : BitVec 32)
  | hex (v : BitVec 32)
  | str (s : Nat → Byte) (w : List Byte) (h : Spells s w)

namespace Item

/-- What stands for it in the format. -/
def spelling : Item → List Byte
  | plain c _ _ => [c]
  | chr _ => [percent, 0x63]
  | dec _ => [percent, 0x64]
  | hex _ => [percent, 0x78]
  | str _ _ _ => [percent, 0x73]

def arg : Item → List PrintfArg
  | plain _ _ _ => []
  | chr v | dec v | hex v => [.int v]
  | str s _ _ => [.str s]

/-- The text it stands for. `%x` is the 32 bits of its argument. -/
def text : Item → List Byte
  | plain c _ _ => [c]
  | chr v => [v.setWidth 8]
  | dec v => decimalText v.toInt
  | hex v => numeralText 16 v.toNat
  | str _ w _ => w

/-- Its numeral is the right one: `%d` can do `INT_MIN` no good, and `%x` extends the sign to 64 bits. -/
def Proper : Item → Prop
  | dec v => v ≠ BitVec.intMin 32
  | hex v => 0 ≤ v.toInt
  | _ => True

/-- Whether it goes through the cursor. -/
def numeric : Item → Bool
  | dec _ | hex _ => true
  | _ => false

end Item

/-- The format of these items, with a lone `%` at the end or without. -/
def formatText (items : List Item) (lone : Bool) : List Byte :=
  items.flatMap Item.spelling ++ if lone then [percent] else []

/-- With the cursor at `n`: every numeral is right, and fits into what is left of `_buffer` with its NUL. -/
def NumeralsFit : Nat → List Item → Prop
  | _, [] => True
  | n, item :: items =>
    item.Proper ∧ (item.numeric → n + item.text.length < 30) ∧
      NumeralsFit (if item.numeric then n + item.text.length else n) items

/-- printf stops at the format's NUL, stores to `_buffer` only, and writes this text. -/
def PrintsExactly (format : Nat → Byte) (args : List PrintfArg) (mem : Nat → Byte) (stop : Nat) (text : List Byte) :
    Prop :=
  ∃ p, Returns (fun fuel => printf fuel format args mem) (p, stop) ∧ (∀ i ∈ p.buffer.log, i < 30) ∧ p.written = text

/-! ## What is written -/

/-- The text that comes out for an item. -/
def Item.output : Item → List Byte
  | dec v => if v = BitVec.intMin 32 then decimalText (-1562067968) else decimalText v.toInt
  | hex v => numeralText 16 (v.signExtend 64).toNat
  | item => item.text

/-- Where the cursor is behind an item. -/
def Item.next (item : Item) (n : Nat) : Nat := if item.numeric then n + item.output.length else n

/-- With the cursor at `n`, the numerals that come out stay in `_buffer`. -/
def BufferRoom : Nat → List Item → Prop
  | _, [] => True
  | n, item :: items => (item.numeric → n + item.output.length < 30) ∧ BufferRoom (item.next n) items

def Printf.Inside (p : Printf) : Prop := ∀ i ∈ p.buffer.log, i < 30

/-- From `p` to `q` printf has been through the items. -/
structure Printf.Did (p q : Printf) (items : List Item) : Prop where
  written : q.written = p.written ++ items.flatMap Item.output
  printed : q.printed = p.printed + (items.flatMap Item.output).length
  strArray : q.strArray = items.foldl (fun n item => item.next n) p.strArray
  inside : q.Inside ↔ p.Inside ∧ BufferRoom p.strArray items

section run
variable {p q r : Printf} {item : Item} {items : List Item} {w : List Byte} {format s : Nat → Byte} {i fuel : Nat}

theorem Printf.Did.refl (p : Printf) : p.Did p [] where
  written := (List.append_nil _).symm
  printed := rfl
  strArray := rfl
  inside := (and_iff_left trivial).symm

theorem Printf.Did.cons (h : p.Did q [item]) (h' : q.Did r items) : p.Did r (item :: items) where
  written := by
    rw [h'.written, h.written, List.append_assoc, ← List.flatMap_append]
    rfl
  printed := by
    have happ : (item :: items).flatMap Item.output = [item].flatMap Item.output ++ items.flatMap Item.output := by
      rw [← List.flatMap_append]
      rfl
    rw [h'.printed, h.printed, happ, List.length_append, Nat.add_assoc]
  strArray := by
    rw [h'.strArray, h.strArray]
    rfl
  inside := by
    rw [h'.inside, h.inside, h.strArray]
    exact ⟨fun h => ⟨h.1.1, h.1.2.1, h.2⟩, fun h => ⟨⟨h.1, h.2.1, trivial⟩, h.2.2⟩⟩

/-- A string at the cursor is written out, and the cursor comes to its NUL. -/
theorem Printf.flush_eq (h : Spells (shift p.strArray p.buffer.mem) w) (hfuel : w.length < fuel) :
    Printf.flush fuel p = some { p with
      strArray := p.strArray + w.length
      written := p.written ++ w
      printed := p.printed + w.length } := by
  induction w generalizing p fuel with
  | nil =>
    obtain ⟨fuel, rfl⟩ : ∃ k, fuel = k + 1 := ⟨fuel - 1, by simp at hfuel; omega⟩
    have hnul : p.buffer.mem p.strArray = 0 := h.nul
    rw [Printf.flush, if_pos hnul]
    simp
  | cons c w ih =>
    obtain ⟨fuel, rfl⟩ : ∃ k, fuel = k + 1 := ⟨fuel - 1, by simp at hfuel; omega⟩
    obtain ⟨hc, hne, hrest⟩ := spells_shift_cons h
    have hrun := ih (p := { p.write p.strArray with strArray := p.strArray + 1 }) hrest (Nat.lt_of_succ_lt_succ hfuel)
    rw [Printf.flush, if_neg (by rw [hc]; exact hne), hrun]
    simp only [Printf.write, hc, List.append_assoc, List.singleton_append, List.length_cons, Nat.add_assoc,
      Nat.add_comm 1]

theorem inside_put {b : Stores} {k : Nat} {c : Byte} (hk : k < 30) :
    (∀ i ∈ (b.put k c).log, i < 30) ↔ ∀ i ∈ b.log, i < 30 := by
  rw [Stores.put]
  exact List.forall_mem_cons.trans (and_iff_right hk)

theorem inside_wrote {b t : Stores} {a : Nat} {u : List Byte} (h : b.Wrote t a (u ++ [0])) :
    (∀ i ∈ t.log, i < 30) ↔ (∀ i ∈ b.log, i < 30) ∧ a + u.length < 30 := by
  constructor
  · intro hin
    refine ⟨fun i hi => hin i ((h.log i).2 (.inl hi)), hin _ ((h.log _).2 (.inr ?_))⟩
    rw [List.length_append, List.length_singleton]
    omega
  · rintro ⟨hin, hlt⟩ i hi
    rcases (h.log i).1 hi with hi | hi
    · exact hin i hi
    · rw [List.length_append, List.length_singleton] at hi
      omega

theorem Printf.putString_eq (h : Spells (shift i s) w) :
    ∃ q, (∀ fuel, w.length < fuel → Printf.putString s fuel i p = some q) ∧ q.written = p.written ++ w ∧
      q.printed = p.printed + w.length ∧ q.strArray = p.strArray ∧ (q.Inside ↔ p.Inside) := by
  induction w generalizing p i with
  | nil =>
    have hnul : s i = 0 := h.nul
    refine ⟨p, fun fuel hfuel => ?_, (List.append_nil _).symm, rfl, rfl, Iff.rfl⟩
    obtain ⟨fuel, rfl⟩ := Nat.exists_eq_add_of_lt hfuel
    rw [Printf.putString, if_pos hnul]
  | cons c w ih =>
    obtain ⟨hc, hne, hrest⟩ := spells_shift_cons h
    have hput : (Printf.write 0 { p with buffer := p.buffer.put 0 c }).written = p.written ++ [c] := by
      simp [Printf.write, Stores.put]
    obtain ⟨q, hq, hw, hn, hs, hin⟩ := ih (p := Printf.write 0 { p with buffer := p.buffer.put 0 c }) hrest
    refine ⟨q, fun fuel hfuel => ?_, ?_, ?_, hs, hin.trans (inside_put (by decide))⟩
    · obtain ⟨fuel, rfl⟩ : ∃ k, fuel = k + 1 := ⟨fuel - 1, by omega⟩
      rw [Printf.putString, hc, if_neg hne, hq fuel (Nat.lt_of_succ_lt_succ hfuel)]
    · rw [hw, hput, List.append_assoc]
      rfl
    · rw [hn, Printf.write, List.length_cons]
      dsimp only
      omega

/-! ## One item -/

/-- A numeral goes to the cursor and is written out. -/
theorem did_numeral {t : Stores} (h : p.buffer.Wrote t p.strArray (w ++ [0])) (hw : ∀ c ∈ w, c ≠ 0)
    (hout : item.output = w) (hnum : item.numeric = true) :
    ∃ q, p.Did q [item] ∧ ∀ fuel, w.length < fuel → Printf.flush fuel { p with buffer := t } = some q := by
  refine ⟨_, ?_, fun fuel hfuel => Printf.flush_eq (p := { p with buffer := t }) (h.spells hw) hfuel⟩
  refine ⟨by simp [hout], by simp [hout], by simp [Item.next, hnum, hout], ?_⟩
  rw [BufferRoom, hnum, hout]
  refine (inside_wrote h).trans (and_congr_right' ?_)
  exact ⟨fun h => ⟨fun _ => h, trivial⟩, fun h => h.1 rfl⟩

/-- An item that leaves the cursor alone. -/
theorem did_other (hw : q.written = p.written ++ item.output) (hn : q.printed = p.printed + item.output.length)
    (hs : q.strArray = p.strArray) (hin : q.Inside ↔ p.Inside) (hnum : item.numeric = false) : p.Did q [item] := by
  refine ⟨by simpa using hw, by simpa using hn, by simpa [Item.next, hnum] using hs, hin.trans ?_⟩
  rw [BufferRoom, hnum]
  exact (and_iff_left ⟨fun h => absurd h Bool.false_ne_true, trivial⟩).symm

/-- **One item** of the format. -/
theorem printfFrom_item (hread : ∀ j (h : j < item.spelling.length), format (i + j) = item.spelling[j])
    (val : List PrintfArg) (p : Printf) : ∃ q, p.Did q [item] ∧ ∃ n, ∀ fuel, n ≤ fuel →
      printfFrom format (fuel + 1) i (item.arg ++ val) p = printfFrom format fuel (i + item.spelling.length) val q := by
  cases item with
  | plain c h0 hp =>
    have hc : format i = c := hread 0 Nat.one_pos
    refine ⟨{ p with written := p.written ++ [c], printed := p.printed + 1 }, did_other rfl rfl rfl Iff.rfl rfl, 0,
      fun fuel _ => ?_⟩
    rw [printfFrom, hc, if_neg h0, if_neg hp]
    rfl
  | chr v =>
    have hc : format i = percent := hread 0 Nat.two_pos
    have hd : format (i + 1) = 0x63 := hread 1 Nat.one_lt_two
    refine ⟨Printf.write 0 { p with buffer := (p.buffer.put 0 (v.setWidth 8)).put 1 0 },
      did_other rfl rfl rfl ?_ rfl, 0, fun fuel _ => ?_⟩
    · exact (inside_put (by decide)).trans (inside_put (by decide))
    · rw [printfFrom, hc, hd, if_neg (by decide), if_pos rfl, if_pos rfl]
      rfl
  | dec v =>
    have hc : format i = percent := hread 0 Nat.two_pos
    have hd : format (i + 1) = 0x64 := hread 1 Nat.one_lt_two
    have hwrote : p.buffer.Wrote (formatD p.strArray v p.buffer) p.strArray ((Item.dec v).output ++ [0]) := by
      rw [Item.output]
      split
      · rename_i hmin
        rw [hmin]
        exact wrote_formatD_intMin _ _
      · rename_i hmin
        exact wrote_formatD _ _ hmin
    have hne : ∀ c ∈ (Item.dec v).output, c ≠ 0 := by
      rw [Item.output]
      split <;> exact decimalText_ne_zero _
    obtain ⟨q, hdid, hflush⟩ := did_numeral hwrote hne rfl rfl
    refine ⟨q, hdid, (Item.dec v).output.length + 1, fun fuel hfuel => ?_⟩
    rw [printfFrom, hc, hd, if_neg (by decide), if_pos rfl, if_neg (by decide), if_pos rfl]
    simp only [Item.arg, List.singleton_append, vaInt, hflush fuel hfuel, Option.bind_eq_bind, Option.bind_some]
    rfl
  | hex v =>
    have hc : format i = percent := hread 0 Nat.two_pos
    have hd : format (i + 1) = 0x78 := hread 1 Nat.one_lt_two
    obtain ⟨q, hdid, hflush⟩ := did_numeral (wrote_itohPrintf p.strArray p.buffer (v.signExtend 64))
      (numeralText_ne_zero (by decide) (by decide)) (rfl : (Item.hex v).output = _) rfl
    refine ⟨q, hdid, (Item.hex v).output.length + 1, fun fuel hfuel => ?_⟩
    rw [printfFrom, hc, hd, if_neg (by decide), if_pos rfl, if_neg (by decide), if_neg (by decide), if_pos rfl]
    simp only [Item.arg, List.singleton_append, vaInt, hflush fuel hfuel, Option.bind_eq_bind, Option.bind_some]
    rfl
  | str s w h =>
    have hc : format i = percent := hread 0 Nat.two_pos
    have hd : format (i + 1) = 0x73 := hread 1 Nat.one_lt_two
    have h0 : Spells (shift 0 s) w := by rwa [shift_zero]
    obtain ⟨q, hq, hw, hn, hs, hin⟩ := Printf.putString_eq (p := { p with buffer := p.buffer.put 1 0 }) h0
    refine ⟨q, did_other hw hn hs (hin.trans (inside_put (by decide))) rfl, w.length + 1, fun fuel hfuel => ?_⟩
    rw [printfFrom, hc, hd, if_neg (by decide), if_pos rfl, if_neg (by decide), if_neg (by decide), if_neg (by decide),
      if_pos rfl]
    simp only [Item.arg, List.singleton_append, vaStr, hq fuel hfuel, Option.bind_eq_bind, Option.bind_some]
    rfl

/-! ## A whole format -/

/-- The items in turn. -/
theorem printfFrom_items (items : List Item)
    (hread : ∀ j (h : j < (items.flatMap Item.spelling).length), format (i + j) = (items.flatMap Item.spelling)[j])
    (val : List PrintfArg) (p : Printf) : ∃ q, p.Did q items ∧ ∃ n, ∀ fuel, n ≤ fuel →
      printfFrom format (fuel + items.length) i (items.flatMap Item.arg ++ val) p =
        printfFrom format fuel (i + (items.flatMap Item.spelling).length) val q := by
  induction items generalizing i p with
  | nil => exact ⟨p, .refl p, 0, fun fuel _ => rfl⟩
  | cons item items ih =>
    rw [List.flatMap_cons] at hread
    have hhead : ∀ j (h : j < item.spelling.length), format (i + j) = item.spelling[j] :=
      fun j hj => (hread j (by rw [List.length_append]; omega)).trans (List.getElem_append_left hj)
    obtain ⟨q, hq, n, hn⟩ := printfFrom_item hhead (items.flatMap Item.arg ++ val) p
    have hrest : ∀ j (h : j < (items.flatMap Item.spelling).length),
        format (i + item.spelling.length + j) = (items.flatMap Item.spelling)[j] := by
      intro j hj
      have := hread (item.spelling.length + j) (by rw [List.length_append]; omega)
      rw [List.getElem_append_right (by omega)] at this
      simpa [Nat.add_assoc] using this
    obtain ⟨r, hr, m, hm⟩ := ih hrest q
    refine ⟨r, hq.cons hr, max n m, fun fuel hfuel => ?_⟩
    rw [List.length_cons, ← Nat.add_assoc, List.flatMap_cons, List.append_assoc, hn _ (by omega), hm _ (by omega),
      List.flatMap_cons, List.length_append, Nat.add_assoc]

/-- The loop never goes back in the format. -/
theorem le_of_printfFrom {val : List PrintfArg} {stop : Nat} (h : printfFrom format fuel i val p = some (q, stop)) :
    i ≤ stop := by
  induction fuel generalizing i val p with
  | zero => cases h
  | succ fuel ih =>
    have hbind : ∀ {β : Type} {o : Option β} {f : β → Option (Printf × Nat)}, o.bind f = some (q, stop) →
        ∃ b, f b = some (q, stop) := fun h => (Option.bind_eq_some_iff.1 h).imp fun _ h => h.2
    rw [printfFrom] at h
    simp only [Option.bind_eq_bind] at h
    split at h
    · cases h
      exact Nat.le_refl _
    · split at h
      · refine Nat.le_trans (Nat.le_add_right i 2) ?_
        split at h
        · obtain ⟨_, h⟩ := hbind h
          exact ih h
        · split at h
          · obtain ⟨_, h⟩ := hbind h
            obtain ⟨_, h⟩ := hbind h
            exact ih h
          · split at h
            · obtain ⟨_, h⟩ := hbind h
              obtain ⟨_, h⟩ := hbind h
              exact ih h
            · split at h
              · obtain ⟨_, h⟩ := hbind h
                obtain ⟨_, h⟩ := hbind h
                exact ih h
              · exact ih h
      · exact Nat.le_of_succ_le (ih h)

variable {mem : Nat → Byte} {text : List Byte}

/-- With a lone `%` at its end the format is read on behind its NUL. -/
theorem not_printsExactly_lone (h : Spells format (formatText items true)) :
    ¬PrintsExactly format (items.flatMap Item.arg) mem (formatText items true).length text := by
  have hlen : (formatText items true).length = (items.flatMap Item.spelling).length + 1 := by
    rw [formatText, List.length_append]
    rfl
  have hread : ∀ j (hj : j < (items.flatMap Item.spelling).length),
      format (0 + j) = (items.flatMap Item.spelling)[j] := by
    intro j hj
    rw [Nat.zero_add, h.chars j (by omega)]
    simp only [formatText]
    exact List.getElem_append_left hj
  have hpercent : format (items.flatMap Item.spelling).length = percent := by
    rw [h.chars _ (by omega)]
    simp [formatText]
  have hnul : format ((items.flatMap Item.spelling).length + 1) = 0 := hlen ▸ h.nul
  obtain ⟨q, -, n, hn⟩ := printfFrom_items items hread [] ⟨⟨mem, []⟩, 0, [], 0⟩
  rintro ⟨p, ⟨m, hm⟩, -, -⟩
  have hrun : printf (max n m + 1 + items.length) format (items.flatMap Item.arg) mem = some (p, _) := hm _ (by omega)
  have hstep := hn (max n m + 1) (by omega)
  rw [List.append_nil, Nat.zero_add] at hstep
  rw [printf, hstep, printfFrom, hpercent, hnul, if_neg (by decide), if_pos rfl, if_neg (by decide),
    if_neg (by decide), if_neg (by decide), if_neg (by decide), hlen] at hrun
  have := le_of_printfFrom hrun
  omega

/-- Without it printf stops at the NUL, with the text of every item written. -/
theorem printsExactly_iff (h : Spells format (formatText items false)) :
    PrintsExactly format (items.flatMap Item.arg) mem (formatText items false).length text ↔
      BufferRoom 0 items ∧ items.flatMap Item.output = text := by
  have htext : formatText items false = items.flatMap Item.spelling := List.append_nil _
  rw [htext] at h ⊢
  have hread : ∀ j (h : j < (items.flatMap Item.spelling).length),
      format (0 + j) = (items.flatMap Item.spelling)[j] := by
    intro j hj
    rw [Nat.zero_add]
    exact h.chars j hj
  obtain ⟨q, hq, n, hn⟩ := printfFrom_items items hread [] ⟨⟨mem, []⟩, 0, [], 0⟩
  have hret : Returns (fun fuel => printf fuel format (items.flatMap Item.arg) mem)
      (q, (items.flatMap Item.spelling).length) := by
    refine .of_le (n + 1 + items.length) fun fuel hfuel => ?_
    have hstep := hn (fuel - items.length) (by omega)
    obtain ⟨k, hk⟩ : ∃ k, fuel - items.length = k + 1 := ⟨fuel - items.length - 1, by omega⟩
    rw [Nat.sub_add_cancel (by omega), List.append_nil, Nat.zero_add, hk] at hstep
    rw [printf, hstep, printfFrom, if_pos h.nul]
  have hin : q.Inside ↔ BufferRoom 0 items := hq.inside.trans (and_iff_right fun i hi => absurd hi List.not_mem_nil)
  have hwr : q.written = items.flatMap Item.output := hq.written
  constructor
  · rintro ⟨p, hp, hins, hpw⟩
    obtain rfl : p = q := congrArg Prod.fst (hp.unique hret)
    exact ⟨hin.1 hins, hwr.symm.trans hpw⟩
  · rintro ⟨hroom, hout⟩
    exact ⟨q, hret, hin.2 hroom, hwr.trans hout⟩

/-! ## When the text is right -/

theorem Item.output_eq_text : item.output = item.text ↔ item.Proper := by
  cases item with
  | dec v =>
    rw [Item.output, Item.text, Item.Proper]
    split
    · rename_i hmin
      refine iff_of_false (fun h => ?_) (fun h => h hmin)
      have := congrArg readDecimal h
      rw [readDecimal_decimalText, readDecimal_decimalText, hmin] at this
      exact absurd this (by decide)
    · rename_i hmin
      exact iff_of_true rfl hmin
  | hex v =>
    rw [Item.output, Item.text, Item.Proper]
    constructor
    · intro h
      have hval := congrArg (readNumeral 16) h
      rw [readNumeral_numeralText (by decide) (by decide), readNumeral_numeralText (by decide) (by decide)] at hval
      have hint := BitVec.toInt_signExtend_of_le (x := v) (show 32 ≤ 64 by decide)
      have hlt := v.isLt
      rw [BitVec.toInt_eq_toNat_cond, hval, if_pos (by omega)] at hint
      omega
    · intro h
      rw [toNat_signExtend h]
      have := BitVec.toInt_eq_toNat_cond v
      have hlt := v.isLt
      split at this
      · rw [this, Int.natAbs_natCast]
      · omega
  | plain | chr | str => exact iff_of_true rfl trivial

/-- What comes out is never shorter than it should be. -/
theorem Item.length_text_le (item : Item) : item.text.length ≤ item.output.length := by
  cases item with
  | dec v =>
    rw [Item.output, Item.text]
    split
    · rename_i hmin
      rw [hmin]
      decide
    · exact Nat.le_refl _
  | hex v =>
    rw [Item.output, Item.text, numeralText, numeralText, List.length_map, List.length_map]
    refine length_numeral_mono ?_
    rw [BitVec.toNat_signExtend]
    have hlt := v.isLt
    rw [BitVec.toNat_setWidth, Nat.mod_eq_of_lt (by omega)]
    exact Nat.le_add_right _ _
  | plain | chr | str => exact Nat.le_refl _

/-- Pieces none of which is too short give the right whole only if each is right. -/
theorem forall_eq_of_flatMap_eq {α β : Type} {f g : α → List β} {l : List α} (hle : ∀ a, (g a).length ≤ (f a).length)
    (h : l.flatMap f = l.flatMap g) : ∀ a ∈ l, f a = g a := by
  have htotal : ∀ l : List α, (l.flatMap g).length ≤ (l.flatMap f).length := by
    intro l
    induction l with
    | nil => exact Nat.le_refl _
    | cons a l ih =>
      rw [List.flatMap_cons, List.flatMap_cons, List.length_append, List.length_append]
      exact Nat.add_le_add (hle a) ih
  induction l with
  | nil => exact fun a ha => absurd ha List.not_mem_nil
  | cons b l ih =>
    have hlen := congrArg List.length h
    rw [List.flatMap_cons, List.flatMap_cons] at h hlen
    rw [List.length_append, List.length_append] at hlen
    have := htotal l
    have := hle b
    obtain ⟨hb, hl⟩ := List.append_inj h (by omega)
    intro a ha
    rcases List.mem_cons.1 ha with rfl | ha
    · exact hb
    · exact ih hl a ha

theorem numeralsFit_iff {n : Nat} : NumeralsFit n items ↔ (∀ item ∈ items, item.Proper) ∧ BufferRoom n items := by
  induction items generalizing n with
  | nil => exact iff_of_true trivial ⟨fun item hi => absurd hi List.not_mem_nil, trivial⟩
  | cons item items ih =>
    rw [NumeralsFit, BufferRoom, List.forall_mem_cons, Item.next]
    constructor
    · rintro ⟨hp, hfit, hrest⟩
      rw [Item.output_eq_text.2 hp]
      obtain ⟨hps, hroom⟩ := ih.1 hrest
      exact ⟨⟨hp, hps⟩, hfit, hroom⟩
    · rintro ⟨⟨hp, hps⟩, hfit, hroom⟩
      rw [Item.output_eq_text.2 hp] at hfit hroom
      exact ⟨hp, hfit, ih.2 ⟨hps, hroom⟩⟩

/-- **printf does what it should** unless the format ends in a lone `%`, a numeral that is wrong comes out, or
the numerals fill `_buffer`. -/
theorem printf_exact {lone : Bool} (h : Spells format (formatText items lone)) :
    PrintsExactly format (items.flatMap Item.arg) mem (formatText items lone).length (items.flatMap Item.text) ↔
      lone = false ∧ NumeralsFit 0 items := by
  cases lone with
  | true => exact iff_of_false (not_printsExactly_lone h) fun hl => absurd hl.1 Bool.true_eq_false.mp
  | false =>
    rw [printsExactly_iff h, numeralsFit_iff, and_iff_right rfl, and_comm]
    refine and_congr_left fun _ => ⟨fun heq item hitem => ?_, fun hp => List.flatMap_congr fun item hitem => ?_⟩
    · exact Item.output_eq_text.1 (forall_eq_of_flatMap_eq Item.length_text_le heq item hitem)
    · exact Item.output_eq_text.2 (hp item hitem)

end run

theorem printf_exact_answer :
    PrintsExactly (cString "%d %s") [.int 42, .str (cString "ab")] (fun _ => 0) 5 [0x34, 0x32, 0x20, 0x61, 0x62] := by
  have hab : Spells (cString "ab") [0x61, 0x62] := spells_cString rfl (by decide)
  have hformat : Spells (cString "%d %s")
      (formatText [.dec 42, .plain 0x20 (by decide) (by decide), .str _ _ hab] false) :=
    spells_cString rfl (by decide : ∀ c ∈ ([0x25, 0x64, 0x20, 0x25, 0x73] : List Byte), c ≠ 0)
  have hfit : NumeralsFit 0 [.dec 42, .plain 0x20 (by decide) (by decide), .str _ _ hab] :=
    ⟨by rw [Item.Proper]; decide, fun _ => by decide, trivial, nofun, trivial, nofun, trivial⟩
  exact (printf_exact hformat).2 ⟨rfl, hfit⟩

/-- Three numbers of ten digits leave no room for the last NUL. -/
theorem printf_exact_full : ¬PrintsExactly (cString "%d%d%d") [.int 1234567890, .int 1234567890, .int 1234567890]
    (fun _ => 0) 6 (List.replicate 3 [0x31, 0x32, 0x33, 0x34, 0x35, 0x36, 0x37, 0x38, 0x39, 0x30]).flatten := by
  have hformat : Spells (cString "%d%d%d")
      (formatText [.dec 1234567890, .dec 1234567890, .dec 1234567890] false) := spells_cString rfl (by decide)
  intro h
  obtain ⟨⟨-, -, hlast, -⟩, -⟩ := (printsExactly_iff hformat).1 h
  exact absurd (hlast rfl) (by decide)

end Sbuos
