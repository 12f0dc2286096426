import Mathlib.Data.List.TakeWhile
import Sbuos.Stdin
import Sbuos.Lib.Run
/-!
# The line counter

`input_count` is meant to be the number of line ends, newlines and `^D`s, between the two indices.
Three paths take a line end out without counting it, or leave the array:

* a backspace erases a stored newline or `^D` (stdin.c:21-24) and leaves the counter as it was;
* the loop of `copy_input` copies a `^D` that is not the first character like any other;
* `(end_point-1)%STDIN_BUFFER_SIZE` is `-1` at `end_point = 0`, and `start_point++` after a `^D` is not
  wrapped, so an index leaves the array.

`CountSafe` says that a call takes none of them. Runs of such calls keep the counter exact.
-/
namespace Sbuos.Stdin
open Lib

/-- The characters stored between `start_point` and `end_point`. -/
def pending (s : Stdin) : List Byte :=
  Ring.window bufferSize s.buffer s.startPoint.toNat s.endPoint.toNat

def isEnd (c : Byte) : Bool := c == newline || c == ctrlD

/-- Every read asks for at least one character. -/
def SizePos : Op → Prop
  | .add _ => True
  | .copy _ size => 1 ≤ size

/-- A backspace finds the ring full, empty, or ending in an ordinary character that is not in slot
255; a read finds a `^D` in front, not in slot 255, or copies no `^D`. -/
def CountSafe (s : Stdin) : Op → Prop
  | .add c => c = backspace → (pending s).length + 1 ≠ bufferSize → ∀ d, (pending s).getLast? = some d →
      isEnd d = false ∧ s.endPoint ≠ 0
  | .copy _ size =>
    if (pending s).head? = some ctrlD then s.startPoint + 1 ≠ bufferSize
    else ctrlD ∉ ((pending s).takeWhile (· ≠ newline)).take size.toNat

structure CountInv (s : Stdin) : Prop where
  holds : Holds s (pending s)
  count : s.inputCount = (pending s).countP isEnd

theorem CountInv.of_holds {s : Stdin} {w : List Byte} (h : Holds s w) (hc : s.inputCount = w.countP isEnd) :
    CountInv s := by
  have e : pending s = w := h.window_eq
  exact ⟨e ▸ h, e ▸ hc⟩

theorem CountInv.init : CountInv Stdin.init := .of_holds Holds.init rfl

theorem countP_isEnd_eq_zero {w : List Byte} (hn : newline ∉ w) (hd : ctrlD ∉ w) : w.countP isEnd = 0 := by
  rw [List.countP_eq_zero]
  intro c hc
  simp only [isEnd, Bool.or_eq_true, beq_iff_eq]
  rintro (rfl | rfl)
  · exact hn hc
  · exact hd hc

theorem CountInv.addChar {s : Stdin} (I : CountInv s) {c : Byte} (hok : CountSafe s (.add c)) {r : Added}
    (e : addChar c s = some r) : CountInv r.st := by
  obtain ⟨h, hcnt⟩ := I
  by_cases hf : (pending s).length + 1 = bufferSize
  · obtain rfl := Option.some.inj ((addChar_full h hf c).symm.trans e)
    exact ⟨h, hcnt⟩
  have hf' : (pending s).length + 1 < bufferSize := by have := h.length_lt; omega
  by_cases hc : c = backspace
  · subst hc
    rcases List.eq_nil_or_concat (pending s) with hw | ⟨w, d, hw⟩
    · rw [hw] at h
      obtain rfl := Option.some.inj ((addChar_backspace_nil h).symm.trans e)
      exact ⟨hw ▸ h, hcnt⟩
    · rw [List.concat_eq_append] at hw
      obtain ⟨hd, h0⟩ := hok rfl hf d (by rw [hw, List.getLast?_concat])
      rw [hw] at h hf' hcnt
      obtain rfl := Option.some.inj ((addChar_backspace h hf').symm.trans e)
      refine .of_holds (h.drop_last h0) ?_
      rw [List.countP_append] at hcnt
      simpa [hd] using hcnt
  · obtain ⟨r', e', hh, hcnt'⟩ := addChar_append h hf' hc
    obtain rfl := Option.some.inj (e'.symm.trans e)
    refine .of_holds hh ?_
    rw [hcnt', hcnt, List.countP_append, List.countP_singleton]
    simp only [isEnd, Bool.or_eq_true, beq_iff_eq]
    split <;> simp

/-- A safe read returns, and takes out only pending characters. -/
theorem CountInv.copyInput {s : Stdin} (I : CountInv s) (hr : bufferIsReady s = true) (buffer : Nat → Byte)
    {size : Int} (hsize : 1 ≤ size) (hok : CountSafe s (.copy buffer size)) :
    ∃ fuel r taken, copyInput fuel buffer size s = some r ∧ pending s = taken ++ pending r.st ∧ CountInv r.st := by
  obtain ⟨h, hcnt⟩ := I
  have hpos : 0 < (pending s).countP isEnd := by
    simp only [bufferIsReady, decide_eq_true_eq] at hr; omega
  generalize hw : pending s = w at h hcnt hpos
  simp only [CountSafe, hw] at hok
  cases w with
  | nil => simp at hpos
  | cons c w =>
  by_cases hc : c = ctrlD
  · subst hc
    simp only [List.head?_cons, if_true] at hok
    have hlt : s.startPoint + 1 < bufferSize := by have := h.start_lt; omega
    have hh := h.advance (s.inputCount - 1)
    rw [Int.tmod_eq_of_lt (by have := h.start_nonneg; omega) hlt] at hh
    refine ⟨0, _, [ctrlD], copyInput_ctrlD h 0 buffer size, ?_, .of_holds hh ?_⟩
    · exact congrArg (ctrlD :: ·) hh.window_eq.symm
    · rw [hcnt]; simp [isEnd]
  · have hne : ¬ (c :: w).head? = some ctrlD := by simpa using hc
    rw [if_neg hne] at hok
    have hdecomp := List.takeWhile_append_dropWhile (p := (· ≠ newline)) (l := c :: w)
    generalize hpre : (c :: w).takeWhile (· ≠ newline) = pre at hok hdecomp
    have hnl : newline ∉ pre := by
      intro hm
      rw [← hpre] at hm
      simpa using List.mem_takeWhile_imp hm
    have htail : ∀ d rest, (c :: w).dropWhile (· ≠ newline) = d :: rest → d = newline := by
      intro d rest hdrop
      have := List.head_dropWhile_not (· ≠ newline) (by rw [hdrop]; exact List.cons_ne_nil d rest)
      simp only [hdrop, List.head_cons] at this
      simpa using this
    generalize (c :: w).dropWhile (· ≠ newline) = tail at hdecomp htail
    have hloop := fun fuel => copyInput_eq_loop h hc fuel buffer size
    by_cases hfull : size.toNat ≤ pre.length
    · -- the caller's buffer fills up before the line ends
      have htake : (pre.take size.toNat).length = size.toNat := by rw [List.length_take]; omega
      rw [← hdecomp, ← List.take_append_drop size.toNat pre, List.append_assoc] at h
      obtain ⟨st, e, hh, hst⟩ := copyLoop_full size _ (pre.take size.toNat) size.toNat buffer 0 s h
        (fun hm => hnl (List.mem_of_mem_take hm)) (fun e0 => by rw [e0] at htake; simp at htake; omega)
        (by omega) (by omega)
      refine ⟨size.toNat, _, pre.take size.toNat, (hloop _).trans e, ?_, .of_holds hh ?_⟩
      · rw [show pending st = _ from hh.window_eq, ← List.append_assoc, List.take_append_drop, hdecomp]
      · have hsplit : c :: w = pre.take size.toNat ++ (pre.drop size.toNat ++ tail) := by
          rw [← List.append_assoc, List.take_append_drop, hdecomp]
        rw [hst, hcnt, hsplit, List.countP_append,
          countP_isEnd_eq_zero (fun hm => hnl (List.mem_of_mem_take hm)) hok, Nat.zero_add]
    · rw [List.take_of_length_le (by omega)] at hok
      have hpre0 := countP_isEnd_eq_zero hnl hok
      cases tail with
      | nil =>
        rw [List.append_nil] at hdecomp
        rw [← hdecomp, hpre0] at hpos
        omega
      | cons d rest =>
        obtain rfl := htail d rest rfl
        rw [← hdecomp] at h
        obtain ⟨st, e, hh, hst⟩ := copyLoop_line size rest pre (pre.length + 1) buffer 0 s h hnl (by omega) (by omega)
        refine ⟨pre.length + 1, _, pre ++ [newline], (hloop _).trans e, ?_, .of_holds hh ?_⟩
        · rw [show pending st = _ from hh.window_eq, ← hdecomp, List.append_assoc, List.singleton_append]
        · rw [hst, hcnt, ← hdecomp, List.countP_append, hpre0, List.countP_cons]
          simp [isEnd]

theorem CountInv.step {s t : Stdin} {i : Op} (I : CountInv s) (hsize : SizePos i) (hok : CountSafe s i)
    (hs : Step s i t) : CountInv t := by
  cases hs with
  | add e => exact I.addChar hok e
  | @copy buffer size fuel r hr e =>
    obtain ⟨fuel', r', -, e', -, I'⟩ := I.copyInput hr buffer hsize hok
    obtain rfl := copyInput_fuel e' e
    exact I'

/-- **Safe runs keep the counter exact.** After any run of safe calls `input_count` is the number of
line ends between the indices, both indices are in the array, and the next safe read of a ready ring
returns, having taken out pending characters only. -/
theorem input_count_run {is : List Op} {t : Stdin}
    (hrun : Run (Guarded (fun s i => SizePos i ∧ CountSafe s i) Step) Stdin.init is t) :
    t.inputCount = (pending t).countP isEnd ∧
    (0 ≤ t.startPoint ∧ t.startPoint < bufferSize ∧ 0 ≤ t.endPoint ∧ t.endPoint < bufferSize) ∧
    ∀ buffer size, bufferIsReady t = true → SizePos (.copy buffer size) → CountSafe t (.copy buffer size) →
      (∃ fuel r, copyInput fuel buffer size t = some r) ∧
      ∀ fuel r, copyInput fuel buffer size t = some r → ∃ taken, pending t = taken ++ pending r.st := by
  have I : CountInv t := hrun.invariant CountInv CountInv.init
    fun t i u I hs => I.step hs.1.1 hs.1.2 hs.2
  refine ⟨I.count, ⟨I.holds.start_nonneg, I.holds.start_lt, I.holds.end_nonneg, I.holds.end_lt⟩, ?_⟩
  intro buffer size hr hsize hok
  obtain ⟨fuel, r, taken, e, ht, -⟩ := I.copyInput hr buffer hsize hok
  refine ⟨⟨fuel, r, e⟩, fun fuel' r' e' => ?_⟩
  obtain rfl := copyInput_fuel e e'
  exact ⟨taken, ht⟩

instance : ∀ i, Decidable (SizePos i)
  | .add _ => inferInstanceAs (Decidable True)
  | .copy _ size => inferInstanceAs (Decidable (1 ≤ size))

instance (s : Stdin) : ∀ i, Decidable (CountSafe s i)
  | .add c => inferInstanceAs (Decidable (c = backspace → (pending s).length + 1 ≠ bufferSize →
      ∀ d ∈ (pending s).getLast?, isEnd d = false ∧ s.endPoint ≠ 0))
  | .copy _ size => inferInstanceAs (Decidable (if (pending s).head? = some ctrlD then s.startPoint + 1 ≠ bufferSize
      else ctrlD ∉ ((pending s).takeWhile (· ≠ newline)).take size.toNat))

/-- A line of 200 letters, of which the 201st was taken back, is read. The next one goes round the end of the array. -/
def twoLines : List Op :=
  (List.replicate 201 97).map .add ++ [.add backspace, .add newline, .copy (fun _ => 0) 256] ++
    (List.replicate 100 97).map .add ++ [.add newline]

theorem input_count_run_a : ∃ t, Run (Guarded (fun s i => SizePos i ∧ CountSafe s i) Step) Stdin.init twoLines t ∧
    t.endPoint < t.startPoint ∧ t.inputCount = (pending t).countP isEnd := by
  have hexec : ((runAll (fun i s => if SizePos i ∧ CountSafe s i then exec 201 i s else none) twoLines
      Stdin.init).any fun t => t.endPoint < t.startPoint) = true := by decide +kernel
  obtain ⟨t, ht, hround⟩ := (Option.any_eq_true _ _).1 hexec
  have hrun : Run (Guarded (fun s i => SizePos i ∧ CountSafe s i) Step) Stdin.init twoLines t :=
    .of_runAll_guarded (fun _ _ _ h => .of_exec 201 h) ht
  exact ⟨t, hrun, of_decide_eq_true hround, (input_count_run hrun).1⟩

/-- Return and backspace: the newline is gone, the counter still says one line. -/
theorem input_count_backspace : ¬ ∀ is t, Run (Guarded (fun _ i => SizePos i) Step) Stdin.init is t →
    t.inputCount = (pending t).countP isEnd := by
  intro h
  have hrun : Run (Guarded (fun _ i => SizePos i) Step) Stdin.init [.add newline, .add backspace]
      ⟨Function.update (fun _ => 0) 0 newline, 0, 0, 1⟩ :=
    .cons ⟨trivial, .of_addChar rfl⟩ (.single ⟨trivial, .of_addChar rfl⟩)
  exact absurd (h _ _ hrun) (by decide)

end Sbuos.Stdin
