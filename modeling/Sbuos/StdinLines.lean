import Mathlib.Data.List.Induction
import Sbuos.Stdin
import Sbuos.Lib.Run
/-!
# Lines through the input ring

The ring refines a queue of lines: with `n` calls of `copy_input` made so far, it holds the typed
lines from number `n` on, followed by the line still being typed, and `input_count` is the number of
complete lines among them. `copy_input_delivers` reads the `n`-th line off this for any run, wherever
the two indices have wrapped to.
-/
namespace Sbuos.Stdin
open Lib

/-- The complete lines of a text, each with its newline, and the unfinished rest. -/
def splitLines (cs : List Byte) : List (List Byte) × List Byte :=
  cs.foldl (fun p c => if c = newline then (p.1 ++ [p.2 ++ [c]], []) else (p.1, p.2 ++ [c])) ([], [])

def lines (cs : List Byte) : List (List Byte) := (splitLines cs).1
def openLine (cs : List Byte) : List Byte := (splitLines cs).2

theorem lines_newline (cs : List Byte) : lines (cs ++ [newline]) = lines cs ++ [openLine cs ++ [newline]] := by
  simp [lines, openLine, splitLines, List.foldl_append]

theorem openLine_newline (cs : List Byte) : openLine (cs ++ [newline]) = [] := by
  simp [openLine, splitLines, List.foldl_append]

theorem lines_char (cs : List Byte) {c : Byte} (hc : c ≠ newline) : lines (cs ++ [c]) = lines cs := by
  simp [lines, splitLines, List.foldl_append, hc]

theorem openLine_char (cs : List Byte) {c : Byte} (hc : c ≠ newline) : openLine (cs ++ [c]) = openLine cs ++ [c] := by
  simp [openLine, splitLines, List.foldl_append, hc]

theorem lines_snoc_subset (cs : List Byte) (c : Byte) : lines cs ⊆ lines (cs ++ [c]) := by
  by_cases hc : c = newline
  · subst hc; rw [lines_newline]; exact List.subset_append_left _ _
  · rw [lines_char cs hc]; exact List.Subset.refl _

/-- Nothing is lost by splitting. -/
theorem flatten_lines (cs : List Byte) : (lines cs).flatten ++ openLine cs = cs := by
  induction cs using List.reverseRecOn with
  | nil => rfl
  | append_singleton cs c ih =>
    by_cases hc : c = newline
    · subst hc
      rw [lines_newline, openLine_newline]
      simp only [List.flatten_append, List.flatten_cons, List.flatten_nil, List.append_nil]
      rw [← List.append_assoc, ih]
    · rw [lines_char cs hc, openLine_char cs hc, ← List.append_assoc, ih]

theorem newline_not_mem_openLine (cs : List Byte) : newline ∉ openLine cs := by
  induction cs using List.reverseRecOn with
  | nil => simp [openLine, splitLines]
  | append_singleton cs c ih =>
    by_cases hc : c = newline
    · subst hc; simp [openLine_newline]
    · rw [openLine_char cs hc]
      simp [ih, Ne.symm hc]

/-- A line is text without newlines, then its newline. -/
theorem mem_lines {cs l : List Byte} (h : l ∈ lines cs) : ∃ pre, l = pre ++ [newline] ∧ newline ∉ pre := by
  induction cs using List.reverseRecOn with
  | nil => simp [lines, splitLines] at h
  | append_singleton cs c ih =>
    by_cases hc : c = newline
    · subst hc
      rw [lines_newline, List.mem_append, List.mem_singleton] at h
      rcases h with h | rfl
      · exact ih h
      · exact ⟨_, rfl, newline_not_mem_openLine cs⟩
    · rw [lines_char cs hc] at h; exact ih h

theorem mem_of_mem_line {cs l : List Byte} (h : l ∈ lines cs) {c : Byte} (hc : c ∈ l) : c ∈ cs := by
  rw [← flatten_lines cs]
  exact List.mem_append_left _ (List.mem_flatten.2 ⟨l, h, hc⟩)

/-! ## What a run has typed and read -/

def typed (is : List Op) : List Byte :=
  is.filterMap fun | .add c => some c | .copy _ _ => none

def copySizes (is : List Op) : List Int :=
  is.filterMap fun | .add _ => none | .copy _ size => some size

/-- Neither editing nor end of file is typed, and no key finds the ring full. -/
def PlainKeys (s : Stdin) : Op → Prop
  | .add c => c ≠ backspace ∧ c ≠ ctrlD ∧ (s.endPoint + 1).tmod bufferSize ≠ s.startPoint
  | .copy _ _ => True

/-- Every typed line has at most `size - 2` characters plus its newline. -/
def LinesFit (is : List Op) (size : Int) : Prop := ∀ l ∈ lines (typed is), (l.length : Int) + 1 ≤ size

structure QueueInv (is : List Op) (s : Stdin) : Prop where
  read_le : (copySizes is).length ≤ (lines (typed is)).length
  holds : Holds s (((lines (typed is)).drop (copySizes is).length).flatten ++ openLine (typed is))
  count : s.inputCount = (lines (typed is)).length - (copySizes is).length
  noCtrlD : ctrlD ∉ typed is

theorem typed_add (is : List Op) (c : Byte) : typed (is ++ [.add c]) = typed is ++ [c] := by simp [typed]
theorem typed_copy (is : List Op) (b : Nat → Byte) (size : Int) : typed (is ++ [.copy b size]) = typed is := by
  simp [typed]
theorem copySizes_add (is : List Op) (c : Byte) : copySizes (is ++ [.add c]) = copySizes is := by simp [copySizes]
theorem copySizes_copy (is : List Op) (b : Nat → Byte) (size : Int) :
    copySizes (is ++ [.copy b size]) = copySizes is ++ [size] := by simp [copySizes]

/-- `copy_input` on a ready ring: it returns, with the next line. -/
theorem QueueInv.copyInput {is : List Op} {s : Stdin} (I : QueueInv is s) (hr : bufferIsReady s = true)
    {size : Int} (hfit : LinesFit is size) (buffer : Nat → Byte) :
    ∃ line, (lines (typed is))[(copySizes is).length]? = some line ∧
      ∃ fuel st, copyInput fuel buffer size s = some ⟨st, storeAt buffer 0 (line ++ [0]), line.length⟩ ∧
        Holds st (((lines (typed is)).drop ((copySizes is).length + 1)).flatten ++ openLine (typed is)) ∧
        st.inputCount = s.inputCount - 1 := by
  have hlt : (copySizes is).length < (lines (typed is)).length := by
    have hc := I.count
    simp only [bufferIsReady, decide_eq_true_eq] at hr
    omega
  have hmem : (lines (typed is))[(copySizes is).length] ∈ lines (typed is) := List.getElem_mem hlt
  obtain ⟨pre, hpre, hnl⟩ := mem_lines hmem
  have hH := I.holds
  rw [List.drop_eq_getElem_cons hlt, List.flatten_cons, hpre] at hH
  simp only [List.append_assoc, List.cons_append] at hH
  have hlen := hfit _ hmem
  rw [hpre] at hlen
  simp only [List.length_append, List.length_singleton] at hlen
  obtain ⟨st, e, h1, h2⟩ := copyLoop_line size _ pre (pre.length + 1) buffer 0 s hH hnl (by omega) (by omega)
  -- the first pending character belongs to the line, so it is not `^D`
  obtain ⟨c, r, hcr⟩ : ∃ c r, pre ++ [newline] = c :: r := List.exists_cons_of_ne_nil (by simp)
  have hc : c ≠ ctrlD := by
    rintro rfl
    exact I.noCtrlD (mem_of_mem_line hmem (by rw [hpre, hcr]; exact List.mem_cons_self))
  have hH' := hH
  rw [List.append_cons, hcr, List.cons_append] at hH'
  refine ⟨pre ++ [newline], by rw [List.getElem?_eq_getElem hlt, hpre], pre.length + 1, st, ?_, h1, h2⟩
  rw [copyInput_eq_loop hH' hc, e]
  simp

theorem QueueInv.init : QueueInv [] Stdin.init :=
  ⟨by simp [copySizes], by simpa [typed, lines, openLine, splitLines] using Holds.init, rfl, by simp [typed]⟩

theorem QueueInv.step {is : List Op} {s t : Stdin} {i : Op} (I : QueueInv is s)
    (hfit : ∀ size ∈ copySizes (is ++ [i]), LinesFit is size) (hs : Guarded PlainKeys Step s i t) :
    QueueInv (is ++ [i]) t := by
  obtain ⟨hok, hs⟩ := hs
  cases hs with
  | @add c r e =>
    obtain ⟨hb, hd, hfull⟩ := hok
    have hf : (((lines (typed is)).drop (copySizes is).length).flatten ++ openLine (typed is)).length + 1 <
        bufferSize := by
      have := I.holds.length_lt
      rw [Ne, I.holds.full_iff] at hfull
      omega
    obtain ⟨r', e', hh, hcnt⟩ := addChar_append I.holds hf hb
    obtain rfl := Option.some.inj (e'.symm.trans e)
    by_cases hc : c = newline
    · subst hc
      refine ⟨?_, ?_, ?_, ?_⟩
      · rw [typed_add, copySizes_add, lines_newline, List.length_append]
        have := I.read_le; omega
      · rw [typed_add, copySizes_add, lines_newline, openLine_newline, List.drop_append_of_le_length I.read_le]
        simpa using hh
      · rw [typed_add, copySizes_add, lines_newline, hcnt, I.count]
        simp; omega
      · rw [typed_add, List.mem_append, List.mem_singleton]
        exact fun h => h.elim I.noCtrlD (Ne.symm hd)
    · refine ⟨?_, ?_, ?_, ?_⟩
      · rw [typed_add, copySizes_add, lines_char _ hc]; exact I.read_le
      · rw [typed_add, copySizes_add, lines_char _ hc, openLine_char _ hc, ← List.append_assoc]; exact hh
      · rw [typed_add, copySizes_add, lines_char _ hc, hcnt, I.count]; simp [hc, hd]
      · rw [typed_add, List.mem_append, List.mem_singleton]
        exact fun h => h.elim I.noCtrlD (Ne.symm hd)
  | @copy buffer size fuel r hr e =>
    rw [copySizes_copy] at hfit
    obtain ⟨line, hl, fuel', st, e', hh, hcnt⟩ := I.copyInput hr (hfit size (by simp)) buffer
    obtain rfl := copyInput_fuel e' e
    have hlt := (List.getElem?_eq_some_iff.1 hl).1
    refine ⟨?_, ?_, ?_, ?_⟩
    · rw [typed_copy, copySizes_copy, List.length_append]; exact hlt
    · rw [typed_copy, copySizes_copy]; simpa using hh
    · rw [typed_copy, copySizes_copy, hcnt, I.count]; simp; omega
    · rw [typed_copy]; exact I.noCtrlD

theorem lines_typed_snoc_subset (is : List Op) (i : Op) : lines (typed is) ⊆ lines (typed (is ++ [i])) := by
  cases i with
  | add c => rw [typed_add]; exact lines_snoc_subset _ _
  | copy b size => rw [typed_copy]; exact List.Subset.refl _

/-- Any run keeps the ring a queue of lines. -/
theorem queueInv_run {is : List Op} {t : Stdin} (hrun : Run (Guarded PlainKeys Step) Stdin.init is t)
    (hfit : ∀ size ∈ copySizes is, LinesFit is size) : QueueInv is t := by
  have h := hrun.history (fun is t => (∀ size ∈ copySizes is, LinesFit is size) → QueueInv is t)
    (fun _ => QueueInv.init) ?_
  · exact h hfit
  · intro is t i u ih hs hfit
    have hsub : ∀ size ∈ copySizes (is ++ [i]), LinesFit is size := fun size hsz l hl =>
      hfit size hsz l (lines_typed_snoc_subset is i hl)
    refine (ih fun size hsz => hsub size ?_).step hsub hs
    cases i with
    | add c => rw [copySizes_add]; exact hsz
    | copy b sz => rw [copySizes_copy]; exact List.mem_append_left _ hsz

/-- **Line delivery.** After any run of keys and reads, with `n` reads among them, the next
`copy_input` that finds the buffer ready returns, and whatever fuel it returns with, it has stored
the `n`-th typed line with its newline and a NUL, and its value is the line's length. -/
theorem copy_input_delivers {is : List Op} {t : Stdin} (hrun : Run (Guarded PlainKeys Step) Stdin.init is t)
    (buffer : Nat → Byte) (size : Int) (hfit : ∀ sz ∈ size :: copySizes is, LinesFit is sz)
    (hready : bufferIsReady t = true) :
    ∃ l, (lines (typed is))[(copySizes is).length]? = some l ∧
      (∃ fuel r, copyInput fuel buffer size t = some r) ∧
      ∀ fuel r, copyInput fuel buffer size t = some r →
        r.ret = l.length ∧ (∀ k (hk : k < l.length), r.buffer k = l[k]) ∧ r.buffer l.length = 0 := by
  have I := queueInv_run hrun fun sz hsz => hfit sz (List.mem_cons_of_mem _ hsz)
  obtain ⟨l, hl, fuel, st, e, -, -⟩ := I.copyInput hready (hfit size List.mem_cons_self) buffer
  refine ⟨l, hl, ⟨fuel, _, e⟩, fun fuel' r hr => ?_⟩
  obtain rfl := copyInput_fuel e hr
  refine ⟨rfl, fun k hk => ?_, ?_⟩
  · have hlen : k < (l ++ [0]).length := Nat.lt_of_lt_of_le hk (by simp)
    exact (storeAt_zero_get buffer hlen).trans (List.getElem_append_left hk)
  · have hlen : l.length < (l ++ [0]).length := by simp
    exact (storeAt_zero_get buffer hlen).trans (by simp)

instance (s : Stdin) : ∀ i, Decidable (PlainKeys s i)
  | .add c => inferInstanceAs (Decidable (c ≠ backspace ∧ c ≠ ctrlD ∧ (s.endPoint + 1).tmod bufferSize ≠ s.startPoint))
  | .copy _ _ => inferInstanceAs (Decidable True)

/-- A line of 200 letters is read while the next is typed, which goes round the end of the array. -/
def typedAhead : List Op :=
  (List.replicate 200 97).map .add ++ [.add newline, .add 98, .copy (fun _ => 0) 256] ++
    (List.replicate 99 98).map .add ++ [.add newline]

theorem copy_input_delivers_a : ∃ t fuel r, Run (Guarded PlainKeys Step) Stdin.init typedAhead t ∧
    t.endPoint < t.startPoint ∧ copyInput fuel (fun _ => 7) 256 t = some r ∧ r.ret = 101 ∧
    (∀ k < 100, r.buffer k = 98) ∧ r.buffer 100 = newline ∧ r.buffer 101 = 0 := by
  have hexec : ((runAll (fun i s => if PlainKeys s i then exec 201 i s else none) typedAhead Stdin.init).any fun t =>
      t.endPoint < t.startPoint ∧ bufferIsReady t) = true := by decide +kernel
  obtain ⟨t, ht, hround⟩ := (Option.any_eq_true _ _).1 hexec
  rw [decide_eq_true_eq] at hround
  have hrun : Run (Guarded PlainKeys Step) Stdin.init typedAhead t :=
    .of_runAll_guarded (fun _ _ _ h => .of_exec 201 h) ht
  have hlines : lines (typed typedAhead) =
      [List.replicate 200 97 ++ [newline], List.replicate 100 98 ++ [newline]] := by decide +kernel
  have hsizes : copySizes typedAhead = [256] := by decide +kernel
  have hfit : ∀ sz ∈ (256 : Int) :: copySizes typedAhead, LinesFit typedAhead sz := by
    intro sz hsz
    rw [hsizes] at hsz
    obtain rfl : sz = 256 := by simpa using hsz
    intro l hl
    rw [hlines] at hl
    rcases List.mem_cons.1 hl with rfl | hl
    · decide +kernel
    · obtain rfl := List.mem_singleton.1 hl
      decide +kernel
  obtain ⟨l, hl, ⟨fuel, r, e⟩, h⟩ := copy_input_delivers hrun (fun _ => 7) 256 hfit hround.2
  rw [hlines, hsizes] at hl
  obtain rfl : List.replicate 100 98 ++ [newline] = l := Option.some.inj hl
  have hlength : (List.replicate 100 (98 : Byte) ++ [newline]).length = 101 := by decide +kernel
  obtain ⟨hret, hline, hnul⟩ := h fuel r e
  rw [hlength] at hret hnul
  refine ⟨t, fuel, r, hrun, hround.1, e, hret, fun k hk => ?_, ?_, hnul⟩
  · rw [hline k (by rw [hlength]; omega), List.getElem_append_left (by rw [List.length_replicate]; exact hk),
      List.getElem_replicate]
  · rw [hline 100 (by rw [hlength]; omega)]
    exact List.getElem_concat_length (List.length_replicate.symm) _

end Sbuos.Stdin
