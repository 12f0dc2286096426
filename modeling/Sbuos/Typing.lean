import Sbuos.Console
/-!
# Typing a line (sys/stdin.c:16-61, :122-128, sys/unix_helpers.c:40-75)

What is typed goes to the ring and to the screen, by two pieces of code that know nothing of each other: `_add_char`
edits the ring at a backspace, `write_k` the cells. Between them `buffer_add_char` asks only whether `_add_char`
returned 0.

**`seen_is_read`**: what stands on the screen when return is pressed is what the reader gets, as long as nobody else
prints, the line is no longer than what is left of the ring up to its end, and no tab or control character is typed.
-/
namespace Sbuos
open Lib

/-- A line as it is typed: a backspace takes the last character back. -/
def edit (w : List Byte) (v : Byte) : List Byte := if v = Stdin.backspace then w.dropLast else w ++ [v]

/-- A character that has a cell of its own and no meaning. -/
def Ordinary (v : Byte) : Prop := v ≠ 0 ∧ v ≠ 8 ∧ v ≠ 9 ∧ v ≠ 10 ∧ v ≠ Stdin.ctrlD

instance (v : Byte) : Decidable (Ordinary v) := inferInstanceAs (Decidable (_ ∧ _))

/-- A character that is stored moves `end_point`, and 1 is returned. -/
theorem Stdin.addChar_stored {s : Stdin} {w : List Byte} {v : Byte} {added : Stdin.Added} (h : Stdin.Holds s w)
    (hroom : w.length + 1 < Stdin.bufferSize) (hv : v ≠ Stdin.backspace) (hadd : Stdin.addChar v s = some added) :
    added.ret = 1 ∧ added.st.endPoint = (s.endPoint + 1).tmod Stdin.bufferSize := by
  have hfull : (s.endPoint + 1).tmod Stdin.bufferSize ≠ s.startPoint := fun e => by
    have hlen := h.full_iff.1 e
    omega
  simp only [Stdin.addChar, hfull, hv, false_and, if_false] at hadd
  obtain ⟨s', hput, hadd⟩ := Option.bind_eq_some_iff.1 hadd
  have hend : s'.endPoint = s.endPoint := by
    unfold Stdin.put at hput
    split at hput <;> cases hput
    rfl
  rw [← hend]
  split at hadd <;> cases hadd <;> exact ⟨rfl, rfl⟩

namespace Console
variable {c c' : Console} {e : Event} {v b : Byte} {w t u : List Byte} {e₀ : Nat}

/-- The scan codes among the events. -/
def Event.keys : Event → List Byte
  | .key b _ _ => [b]
  | _ => []

/-- Keys and ticks. -/
def Event.interrupts : Event → Bool
  | .key .. | .tick => true
  | _ => false

/-- The line `w` stands after `t` on the screen, and in the ring, from place `e₀` on. -/
structure Typed (t : List Byte) (e₀ : Nat) (w : List Byte) (c : Console) : Prop where
  holds : Stdin.Holds c.kernel.stdin w
  endPoint : c.kernel.stdin.endPoint.toNat = e₀ + w.length
  inputCount : c.kernel.stdin.inputCount = 0
  col_lt : c.screen.col < 80
  screen : ∃ u, Tape.Rest 80 (t ++ w) u ∧ w.length ≤ u.length ∧ Screen.Before u c.screen

namespace Typed

/-- A character taken back, on the screen and in the ring. -/
theorem erased {x : Byte} (h : Typed t e₀ (w ++ [x]) c) (hroom : e₀ + w.length + 2 < 256) :
    ∃ added, c.kernel.stdin.addChar Stdin.backspace = some added ∧ added.ret = 1 ∧ Stdin.Holds added.st w ∧
      added.st.endPoint.toNat = e₀ + w.length ∧ added.st.inputCount = 0 := by
  obtain ⟨hholds, hend, hcount, -⟩ := h
  rw [List.length_append, List.length_singleton] at hend
  have hfull : (w ++ [x]).length + 1 < Stdin.bufferSize := by
    rw [List.length_append, List.length_singleton, Stdin.bufferSize]
    omega
  have hlt := hholds.end_lt
  have hpos : 0 < c.kernel.stdin.endPoint := by omega
  refine ⟨_, Stdin.addChar_backspace hholds hfull, rfl, hholds.drop_last (by omega), ?_, hcount⟩
  rw [Stdin.tmod_pred hpos hlt, Int.toNat_natCast, hend, Stdin.bufferSize]
  omega

/-- A character stored. -/
theorem stored (h : Typed t e₀ w c) (hroom : e₀ + w.length + 1 < 256) (hv : v ≠ Stdin.backspace) :
    ∃ added, c.kernel.stdin.addChar v = some added ∧ added.ret = 1 ∧ Stdin.Holds added.st (w ++ [v]) ∧
      added.st.endPoint.toNat = e₀ + (w ++ [v]).length ∧
      added.st.inputCount = if v = Stdin.newline ∨ v = Stdin.ctrlD then 1 else 0 := by
  obtain ⟨hholds, hend, hzero, -⟩ := h
  have hfull : w.length + 1 < Stdin.bufferSize := by
    rw [Stdin.bufferSize]
    omega
  obtain ⟨added, hadd, hheld, hcount⟩ := Stdin.addChar_append hholds hfull hv
  obtain ⟨hret, hnext⟩ := Stdin.addChar_stored hholds hfull hv hadd
  rw [hzero, Int.zero_add] at hcount
  refine ⟨added, hadd, hret, hheld, ?_, hcount⟩
  rw [hnext, Stdin.tmod_succ hholds.end_nonneg hholds.end_lt, Int.toNat_natCast, hend, Stdin.bufferSize,
    List.length_append, List.length_singleton]
  omega

/-- **One character** that is typed. -/
theorem char (h : Typed t e₀ w c) (hv : v = Stdin.backspace ∨ Ordinary v) (hroom : e₀ + w.length + 1 < 256)
    {added : Stdin.Added} (hadd : c.kernel.stdin.addChar v = some added) (hk : c'.kernel.stdin = added.st)
    (hs : c'.screen = if added.ret ≠ 0 then c.screen.writeK v else c.screen) : Typed t e₀ (edit w v) c' := by
  obtain ⟨u, hrest, hlen, hbefore⟩ := h.screen
  obtain ⟨hfed, hcol, -⟩ := hbefore.writeK h.col_lt v
  rw [edit]
  split
  case isTrue hb =>
    subst hb
    rcases List.eq_nil_or_concat' w with rfl | ⟨w, x, rfl⟩
    · -- nothing to take back, on neither side
      obtain rfl := Option.some.inj ((Stdin.addChar_backspace_nil h.holds).symm.trans hadd)
      rw [if_neg (by simp)] at hs
      exact ⟨hk ▸ h.holds, by rw [hk]; exact h.endPoint, by rw [hk]; exact h.inputCount, hs ▸ h.col_lt, u, hrest,
        hlen, hs ▸ hbefore⟩
    · rw [List.length_append, List.length_singleton] at hroom hlen
      obtain ⟨added, hadd', hret, hholds, hend, hcount⟩ := h.erased (by omega)
      obtain rfl := Option.some.inj (hadd'.symm.trans hadd)
      rw [if_pos (by rw [hret]; decide)] at hs
      rw [List.dropLast_concat]
      refine ⟨hk ▸ hholds, by rw [hk, hend], by rw [hk, hcount], hs ▸ hcol, u.dropLast, ?_, ?_, hs ▸ hfed⟩
      · refine Tape.Rest.dropLast (a := x) (by rw [List.append_assoc]; exact hrest) fun hu => ?_
        rw [hu, List.length_nil] at hlen
        omega
      · rw [List.length_dropLast]
        omega
  case isFalse hb =>
    obtain ⟨added, hadd', hret, hholds, hend, hcount⟩ := h.stored hroom hb
    obtain rfl := Option.some.inj (hadd'.symm.trans hadd)
    obtain ⟨h0, h8, h9, h10, h4⟩ := hv.resolve_left hb
    have hput : Screen.feed u v = Tape.put 80 23 u v := by rw [Screen.feed, if_neg h0, if_neg h10, if_neg h9, if_neg h8]
    rw [hput] at hfed
    rw [if_pos (by rw [hret]; decide)] at hs
    have hnotify : ¬(v = Stdin.newline ∨ v = Stdin.ctrlD) := not_or.2 ⟨h10, h4⟩
    rw [if_neg hnotify] at hcount
    refine ⟨hk ▸ hholds, by rw [hk, hend], by rw [hk, hcount], hs ▸ hcol, _, ?_, ?_, hs ▸ hfed⟩
    · rw [← List.append_assoc]
      exact hrest.put (by decide) v
    · -- what scrolls off is never the line
      have hlt := hbefore.length_lt h.col_lt
      have hlength : ∀ l : List Byte, (l ++ [v]).length = l.length + 1 := fun l => List.length_append
      rw [Tape.put, Tape.clip, hlength, hlength]
      split
      · rw [hlength]
        omega
      · rw [List.length_drop, hlength]
        omega

/-- Row 23 is not the line's. -/
theorem status (h : Typed t e₀ w c) (hk : c'.kernel.stdin = c.kernel.stdin) {p : Nat} {vs : List Byte}
    (hp : 160 * 23 ≤ p) (hs : c'.screen = c.screen.putCells p vs) : Typed t e₀ w c' := by
  obtain ⟨u, hrest, hlen, hbefore⟩ := h.screen
  refine ⟨hk ▸ h.holds, by rw [hk, h.endPoint], by rw [hk, h.inputCount], ?_, u, hrest, hlen, ?_⟩
  · rw [hs, Screen.putCells_cursor.2]
    exact h.col_lt
  · rw [hs]
    exact hbefore.putCells h.col_lt hp

end Typed

theorem putTimeLoop_cells {buff : Nat → Byte} {fuel i : Nat} {s s' : Screen}
    (h : putTimeLoop buff fuel i s = some s') : ∃ vs, s' = s.putCells (160 * 23 + 2 * (56 + i)) vs := by
  induction fuel generalizing i s with
  | zero => cases h
  | succ fuel ih =>
    rw [putTimeLoop] at h
    split at h
    · exact ⟨[], (Option.some.inj h).symm⟩
    · obtain ⟨vs, rfl⟩ := ih h
      exact ⟨buff i :: vs, rfl⟩

/-- A tick leaves the ring and the decoders alone, and stores to row 23 only. -/
theorem intTmrSrv_eq {fuel : Nat} {rsp : Word} (h : c.intTmrSrv fuel rsp = some c') :
    c'.kernel.stdin = c.kernel.stdin ∧ c'.decoders = c.decoders ∧
      ∃ p vs, 160 * 23 ≤ p ∧ c'.screen = c.screen.putCells p vs := by
  obtain ⟨c₁, h₁, h⟩ := Option.bind_eq_some_iff.1 h
  obtain ⟨sched, -, h⟩ := Option.bind_eq_some_iff.1 h
  obtain rfl := Option.some.inj h
  have hstdin : c.kernel.tickCount.stdin = c.kernel.stdin := by
    unfold Kernel.tickCount
    dsimp only
    split <;> rfl
  simp only [putTimeSinceBoot, tickCount] at h₁
  split at h₁
  · simp only [if_true] at h₁
    obtain ⟨screen, hloop, h₁⟩ := Option.bind_eq_some_iff.1 h₁
    obtain rfl := Option.some.inj h₁
    obtain ⟨vs, rfl⟩ := putTimeLoop_cells hloop
    exact ⟨hstdin, rfl, _, vs, by decide, rfl⟩
  · obtain rfl := Option.some.inj h₁
    exact ⟨hstdin, rfl, 160 * 23, [], Nat.le_refl _, rfl⟩

/-- The character that a key completes, if any. -/
def completes (c : Console) (b : Byte) : List (Option Byte) :=
  let fed := Keyboard.stdinKeyboardFeed b c.decoders.char
  if fed.ret = 1 then [fed.out.result] else []

/-- What the keys completed, one after the other. -/
theorem feedAll_snoc {bs : List Byte} {cs : List (Option Byte)}
    (h : Keyboard.feedAll bs Keyboard.init = (cs, c.decoders.char)) :
    Keyboard.feedAll (bs ++ [b]) Keyboard.init =
      (cs ++ c.completes b, (Keyboard.stdinKeyboardFeed b c.decoders.char).st) := by
  rw [Keyboard.feedAll_append, h, completes]
  simp only [Keyboard.feedAll]

theorem stdinKeyboardFeed_ret (b : Byte) (k : Keyboard) :
    (Keyboard.stdinKeyboardFeed b k).ret = 0 ∨ (Keyboard.stdinKeyboardFeed b k).ret = 1 := by
  unfold Keyboard.stdinKeyboardFeed
  extract_lets k' k'' out
  split
  · exact .inr rfl
  · exact .inl rfl

theorem keyboard_stdin {k k' : Kernel} {added : Stdin.Added} (hadd : k.stdin.addChar v = some added)
    (h : k.keyboard v = some k') : k'.stdin = added.st := by
  obtain ⟨added', hadd', h⟩ := Option.bind_eq_some_iff.1 h
  obtain rfl := Option.some.inj (hadd.symm.trans hadd')
  obtain rfl := Option.some.inj h
  split <;> rfl

/-- **A key** is displayed in row 23; then the character it completes, if any, goes to the ring and the screen. -/
theorem intKbdSrv_eq {beyond : Fin 4 → Byte} {beyond' : Byte} (hs : c.intKbdSrv b beyond beyond' = some c') :
    c'.decoders.char = (Keyboard.stdinKeyboardFeed b c.decoders.char).st ∧
      ∃ (c₁ : Console) (p : Nat) (vs : List Byte), 160 * 23 ≤ p ∧ c₁.screen = c.screen.putCells p vs ∧
        c₁.kernel.stdin = c.kernel.stdin ∧
        ((c.completes b = [] ∧ c'.kernel.stdin = c₁.kernel.stdin ∧ c'.screen = c₁.screen) ∨
          ∃ o added, c.completes b = [o] ∧ c₁.kernel.stdin.addChar (o.getD beyond') = some added ∧
            c'.kernel.stdin = added.st ∧
            c'.screen = if added.ret ≠ 0 then c₁.screen.writeK (o.getD beyond') else c₁.screen) := by
  obtain ⟨hscreen, hkernel, -, -, hchar⟩ := putPressedKey_eq c b beyond beyond'
  have hshown : ∃ (p : Nat) (vs : List Byte), 160 * 23 ≤ p ∧
      (c.putPressedKey b beyond).screen = c.screen.putCells p vs := by
    simp only [displayed] at hscreen
    split at hscreen
    · exact ⟨160 * 23, [], Nat.le_refl _, hscreen⟩
    · exact ⟨_, _, by decide, hscreen⟩
  obtain ⟨p, vs, hp, hcells⟩ := hshown
  have hstdin : (c.putPressedKey b beyond).kernel.stdin = c.kernel.stdin := by rw [hkernel]
  rw [intKbdSrv, bufferAddChar, hchar] at hs
  simp only [completes]
  rcases stdinKeyboardFeed_ret b c.decoders.char with hret | hret
  · rw [if_pos hret] at hs
    obtain rfl := Option.some.inj hs
    exact ⟨rfl, _, p, vs, hp, hcells, hstdin, .inl ⟨if_neg (by rw [hret]; decide), rfl, rfl⟩⟩
  · rw [if_neg (by rw [hret]; decide)] at hs
    rw [if_pos hret]
    obtain ⟨added, hadd, hs⟩ := Option.bind_eq_some_iff.1 hs
    obtain ⟨kernel, hkey, hs⟩ := Option.bind_eq_some_iff.1 hs
    obtain rfl := Option.some.inj hs
    have hstored := keyboard_stdin hadd hkey
    refine ⟨?_, _, p, vs, hp, hcells, hstdin, .inr ⟨_, added, rfl, hadd, ?_, ?_⟩⟩
    · split <;> rfl
    · split <;> exact hstored
    · split <;> rfl

/-! ## Runs -/

/-- The line `w` has been entered. -/
structure Entered (t w : List Byte) (c : Console) : Prop where
  holds : Stdin.Holds c.kernel.stdin (w ++ [Stdin.newline])
  inputCount : c.kernel.stdin.inputCount = 1
  col_lt : c.screen.col < 80
  screen : ∃ u, Tape.Rest 80 (t ++ w) u ∧ Screen.Before (Tape.newRow 80 23 32 u) c.screen

theorem Entered.status (h : Entered t w c) (hk : c'.kernel.stdin = c.kernel.stdin) {p : Nat} {vs : List Byte}
    (hp : 160 * 23 ≤ p) (hs : c'.screen = c.screen.putCells p vs) : Entered t w c' := by
  obtain ⟨u, hrest, hbefore⟩ := h.screen
  refine ⟨hk ▸ h.holds, by rw [hk, h.inputCount], ?_, u, hrest, ?_⟩
  · rw [hs, Screen.putCells_cursor.2]
    exact h.col_lt
  · rw [hs]
    exact hbefore.putCells h.col_lt hp

/-- Return is pressed. -/
theorem Typed.enter (h : Typed t e₀ w c) (hroom : e₀ + w.length + 1 < 256) {added : Stdin.Added}
    (hadd : c.kernel.stdin.addChar Stdin.newline = some added) (hk : c'.kernel.stdin = added.st)
    (hs : c'.screen = if added.ret ≠ 0 then c.screen.writeK Stdin.newline else c.screen) : Entered t w c' := by
  obtain ⟨u, hrest, -, hbefore⟩ := h.screen
  obtain ⟨hfed, hcol, -⟩ := hbefore.writeK h.col_lt Stdin.newline
  obtain ⟨added, hadd', hret, hholds, -, hcount⟩ := h.stored hroom (v := Stdin.newline) (by decide)
  obtain rfl := Option.some.inj (hadd'.symm.trans hadd)
  rw [if_pos (by rw [hret]; decide)] at hs
  exact ⟨hk ▸ hholds, by rw [hk, hcount, if_pos (.inl rfl)], hs ▸ hcol, u, hrest, hs ▸ hfed⟩

theorem length_edits_le (cs w : List Byte) : (cs.foldl edit w).length ≤ w.length + cs.length := by
  induction cs generalizing w with
  | nil => exact Nat.le_refl _
  | cons v cs ih =>
    have hlen : (edit w v).length ≤ w.length + 1 := by
      rw [edit]
      split
      · rw [List.length_dropLast]
        omega
      · rw [List.length_append, List.length_singleton]
    have hrest := ih (edit w v)
    rw [List.foldl_cons, List.length_cons]
    omega

/-- What is left of a line is ordinary. -/
theorem ordinary_of_mem_edits {cs w : List Byte} (hok : ∀ v ∈ cs, v = Stdin.backspace ∨ Ordinary v)
    (hw : ∀ v ∈ w, Ordinary v) : ∀ v ∈ cs.foldl edit w, Ordinary v := by
  induction cs generalizing w with
  | nil => exact hw
  | cons v cs ih =>
    obtain ⟨hv, hok⟩ := List.forall_mem_cons.1 hok
    refine ih hok fun x hx => ?_
    rw [edit] at hx
    split at hx
    case isTrue => exact hw x (List.mem_of_mem_dropLast hx)
    case isFalse hb =>
      rcases List.mem_append.1 hx with hx | hx
      · exact hw x hx
      · obtain rfl := List.mem_singleton.1 hx
        exact hv.resolve_left hb

theorem eq_snoc_of_map_some {before : List (Option Byte)} {o : Option Byte} {cs : List Byte}
    (h : before ++ [o] = cs.map some) : ∃ cs' v, cs = cs' ++ [v] ∧ before = cs'.map some ∧ o = some v := by
  rcases List.eq_nil_or_concat' cs with rfl | ⟨cs, v, rfl⟩
  · simp at h
  · rw [List.map_append, List.map_singleton] at h
    obtain ⟨hbefore, ho⟩ := List.append_inj' h rfl
    exact ⟨cs, v, rfl, hbefore, (List.cons.inj ho).1⟩

/-- What the characters completed so far have done. -/
structure Progress (t : List Byte) (e₀ : Nat) (es : List Event) (c : Console) : Prop where
  decoder : c.decoders.char = (Keyboard.feedAll (es.flatMap Event.keys) Keyboard.init).2
  typed : ∀ cs : List Byte, (Keyboard.feedAll (es.flatMap Event.keys) Keyboard.init).1 = cs.map some →
    (∀ v ∈ cs, v = Stdin.backspace ∨ Ordinary v) → e₀ + cs.length + 1 < 256 → Typed t e₀ (cs.foldl edit []) c
  entered : ∀ cs : List Byte,
    (Keyboard.feedAll (es.flatMap Event.keys) Keyboard.init).1 = (cs ++ [Stdin.newline]).map some →
    (∀ v ∈ cs, v = Stdin.backspace ∨ Ordinary v) → e₀ + cs.length + 1 < 256 → Entered t (cs.foldl edit []) c

namespace Progress

/-- A tick. -/
theorem tick {es : List Event} (h : Progress t e₀ es c) {fuel : Nat} {rsp : Word}
    (hs : c.intTmrSrv fuel rsp = some c') : Progress t e₀ (es ++ [.tick]) c' := by
  obtain ⟨hstdin, hdec, p, vs, hp, hscreen⟩ := intTmrSrv_eq hs
  have hkeys : (es ++ [Event.tick]).flatMap Event.keys = es.flatMap Event.keys := by
    rw [List.flatMap_append, List.flatMap_singleton, Event.keys, List.append_nil]
    all_goals exact fun _ _ _ e => by cases e
  constructor
  · rw [hkeys, hdec, h.decoder]
  · intro cs hcs hok hroom
    exact (h.typed cs (hkeys ▸ hcs) hok hroom).status hstdin hp hscreen
  · intro cs hcs hok hroom
    exact (h.entered cs (hkeys ▸ hcs) hok hroom).status hstdin hp hscreen

/-- A key. -/
theorem key {es : List Event} (h : Progress t e₀ es c) {beyond : Fin 4 → Byte} {beyond' : Byte}
    (hs : c.intKbdSrv b beyond beyond' = some c') : Progress t e₀ (es ++ [.key b beyond beyond']) c' := by
  obtain ⟨hdec, c₁, p, vs, hp, hcells, hstdin, hcases⟩ := intKbdSrv_eq hs
  have hfeed : Keyboard.feedAll ((es ++ [Event.key b beyond beyond']).flatMap Event.keys) Keyboard.init =
      ((Keyboard.feedAll (es.flatMap Event.keys) Keyboard.init).1 ++ c.completes b,
        (Keyboard.stdinKeyboardFeed b c.decoders.char).st) := by
    rw [List.flatMap_append, List.flatMap_singleton, Event.keys]
    exact feedAll_snoc (Prod.ext rfl h.decoder.symm)
  generalize hbefore : (Keyboard.feedAll (es.flatMap Event.keys) Keyboard.init).1 = before at hfeed
  have htyped := h.typed
  have hentered := h.entered
  rw [hbefore] at htyped hentered
  -- the line before this key, with the key displayed
  have hline : ∀ cs : List Byte, before = cs.map some → (∀ v ∈ cs, v = Stdin.backspace ∨ Ordinary v) →
      e₀ + cs.length + 1 < 256 →
      Typed t e₀ (cs.foldl edit []) c₁ ∧ e₀ + (cs.foldl edit []).length + 1 < 256 := by
    intro cs hcs hok hroom
    have hlen := length_edits_le cs []
    rw [List.length_nil] at hlen
    exact ⟨(htyped cs hcs hok hroom).status hstdin hp hcells, by omega⟩
  refine ⟨by rw [hfeed, hdec], fun cs hcs hok hroom => ?_, fun cs hcs hok hroom => ?_⟩
  · rw [hfeed] at hcs
    rcases hcases with ⟨hnone, hstdin', hscreen⟩ | ⟨o, added, hone, hadd, hstdin', hscreen⟩
    · rw [hnone, List.append_nil] at hcs
      exact (htyped cs hcs hok hroom).status (hstdin'.trans hstdin) hp (hscreen.trans hcells)
    · rw [hone] at hcs
      obtain ⟨cs, v, rfl, hcs', rfl⟩ := eq_snoc_of_map_some hcs
      rw [List.length_append, List.length_singleton] at hroom
      obtain ⟨hline, hroom'⟩ := hline cs hcs' (fun x hx => hok x (List.mem_append_left _ hx)) (by omega)
      rw [List.foldl_append]
      exact hline.char (hok v (List.mem_append_right _ List.mem_cons_self)) hroom' hadd hstdin' hscreen
  · rw [hfeed] at hcs
    rcases hcases with ⟨hnone, hstdin', hscreen⟩ | ⟨o, added, hone, hadd, hstdin', hscreen⟩
    · rw [hnone, List.append_nil] at hcs
      exact (hentered cs hcs hok hroom).status (hstdin'.trans hstdin) hp (hscreen.trans hcells)
    · rw [hone] at hcs
      obtain ⟨cs', v, hsnoc, hcs', rfl⟩ := eq_snoc_of_map_some hcs
      obtain ⟨rfl, hv⟩ := List.append_inj' hsnoc rfl
      obtain rfl := (List.cons.inj hv).1
      obtain ⟨hline, hroom'⟩ := hline cs hcs' hok hroom
      exact hline.enter hroom' hadd hstdin' hscreen

end Progress

/-- **A read** of a line that has been entered. -/
theorem Entered.reads (h : Entered t w c) (hw : ∀ v ∈ w, Ordinary v) (hreads : Kernel.ReadsStdin c.kernel.activePcb 0)
    {size : Word} {fuel : Nat} (hsize : w.length + 2 ≤ (size.setWidth 32).toInt) (hfuel : w.length < fuel)
    (buffer : Nat → Byte) (rsp : Word) : ∃ k', c.kernel.doRead 0 size buffer fuel rsp =
      some (k', some (Stdin.storeAt buffer 0 (w ++ [Stdin.newline, 0]), BitVec.ofNat 64 (w.length + 1))) := by
  have hready : c.kernel.stdin.bufferIsReady = true := by
    rw [Stdin.bufferIsReady, h.inputCount]
    rfl
  obtain ⟨x, r, hcons, hx⟩ : ∃ x r, w ++ [Stdin.newline] = x :: r ∧ x ≠ Stdin.ctrlD := by
    cases w with
    | nil => exact ⟨_, [], rfl, by decide⟩
    | cons x w => exact ⟨x, w ++ [Stdin.newline], rfl, (hw x List.mem_cons_self).2.2.2.2⟩
  have hheld := h.holds
  rw [hcons] at hheld
  obtain ⟨st, hcopy, -⟩ := Stdin.copyLoop_line (size.setWidth 32).toInt [] w fuel buffer 0 c.kernel.stdin h.holds
    (fun hmem => (hw _ hmem).2.2.2.1 rfl) (by omega) hfuel
  rw [← Stdin.copyInput_eq_loop hheld hx] at hcopy
  refine ⟨{ c.kernel with stdin := st }, ?_⟩
  have hkeyboard : (0 : Word) = 0 ∧ (c.kernel.activePcb.fdTable 0).fileStartAddress = 0 := hreads
  rw [Kernel.doRead, if_pos hkeyboard, if_pos hready, hcopy]
  have hret : BitVec.ofInt 64 (((0 : Nat) : Int) + w.length + 1) = BitVec.ofNat 64 (w.length + 1) := by
    rw [← BitVec.ofInt_natCast]
    congr 1
    omega
  rw [← hret]
  rfl

/-- Whole strokes decode to their characters. -/
theorem chars_typed (strokes : List Keyboard.Stroke) :
    (Keyboard.feedAll (strokes.flatMap Keyboard.Stroke.bytes) Keyboard.init).1 =
      (strokes.map Keyboard.Stroke.char).map some := by
  induction strokes with
  | nil => rfl
  | cons s strokes ih =>
    rw [List.flatMap_cons, Keyboard.feedAll_append, Keyboard.feedAll_stroke, List.map_cons, List.map_cons, ← ih]
    rfl

/-- **What is seen is what is read.** A line is typed from where the ring and the decoder are idle, with backspaces and
ticks in between, and entered. Then the screen shows what was there and the line, but for rows scrolled off the top,
and a new row; and a read from the keyboard returns that line and its newline. -/
theorem seen_is_read {c₀ : Console} {strokes : List Keyboard.Stroke} {ret : Keyboard.Stroke} {es : List Event}
    {k : Nat} {size : Word} (hstart : Typed t e₀ [] c₀) (hdec : c₀.decoders.char = Keyboard.init)
    (hstrokes : ∀ s ∈ strokes, s.char = Stdin.backspace ∨ Ordinary s.char) (hret : ret.char = Stdin.newline)
    (hroom : e₀ + strokes.length + 1 < 256) (hes : ∀ e ∈ es, e.interrupts)
    (hkeys : es.flatMap Event.keys = (strokes ++ [ret]).flatMap Keyboard.Stroke.bytes) (hrun : Run Step c₀ es c)
    (hreads : Kernel.ReadsStdin c.kernel.activePcb 0) (hsize : strokes.length + 2 ≤ (size.setWidth 32).toInt)
    (hk : strokes.length < k) (buffer : Nat → Byte) (rsp : Word) :
    let w := (strokes.map Keyboard.Stroke.char).foldl edit []
    (∃ u, Tape.Rest 80 (t ++ w) u ∧ Screen.Before (Tape.newRow 80 23 32 u) c.screen) ∧
      ∃ k', c.kernel.doRead 0 size buffer k rsp =
        some (k', some (Stdin.storeAt buffer 0 (w ++ [Stdin.newline, 0]), BitVec.ofNat 64 (w.length + 1))) := by
  intro w
  have hguarded : Run (Guarded (fun _ e => e.interrupts) Step) c₀ es c := hrun.guard fun e he _ => hes e he
  have hprogress : Progress t e₀ es c := by
    refine hguarded.history (Progress t e₀) ⟨hdec, fun cs hcs _ _ => ?_, fun cs hcs _ _ => ?_⟩ ?_
    · rw [List.map_eq_nil_iff.1 hcs.symm]
      exact hstart
    · rw [List.map_append] at hcs
      exact absurd hcs.symm (List.append_ne_nil_of_right_ne_nil _ (List.cons_ne_nil _ _))
    · rintro es c e c' h ⟨he, fuel, rsp, hs⟩
      cases e with
      | key b beyond beyond' => exact h.key hs
      | tick => exact h.tick hs
      | write v => cases he
      | kernel e => cases he
  have hfeed : (Keyboard.feedAll (es.flatMap Event.keys) Keyboard.init).1 =
      (strokes.map Keyboard.Stroke.char ++ [Stdin.newline]).map some := by
    rw [hkeys, chars_typed]
    simp [hret]
  have hok : ∀ v ∈ strokes.map Keyboard.Stroke.char, v = Stdin.backspace ∨ Ordinary v := fun v hv => by
    obtain ⟨s, hs, rfl⟩ := List.mem_map.1 hv
    exact hstrokes s hs
  have hentered := hprogress.entered _ hfeed hok (by rw [List.length_map]; exact hroom)
  have hlen : w.length ≤ strokes.length := by
    have hle := length_edits_le (strokes.map Keyboard.Stroke.char) []
    rw [List.length_nil, List.length_map, Nat.zero_add] at hle
    exact hle
  have hsize' : w.length + 2 ≤ (size.setWidth 32).toInt := by omega
  have hordinary : ∀ v ∈ w, Ordinary v := ordinary_of_mem_edits hok fun v hv => by cases hv
  have hfuel : w.length < k := by omega
  exact ⟨hentered.screen, hentered.reads hordinary hreads hsize' hfuel buffer rsp⟩

/-- At boot, with the keyboard open. -/
def idle : Console := boot ⟨default, .init, 0, default⟩ fun _ => 0

theorem idle_typed : Typed [] 0 [] idle :=
  ⟨.init, rfl, rfl, Nat.zero_lt_succ 79, [], .refl 80 [], Nat.le_refl 0, .top _⟩

/-- The keys `a`, `b` and backspace, and return. -/
def threeKeys : List Keyboard.Stroke :=
  [.plain ⟨0x1e, by decide, by decide⟩ 0, .plain ⟨0x30, by decide, by decide⟩ 0, .plain ⟨0x0e, by decide, by decide⟩ 0]

def returnKey : Keyboard.Stroke := .plain ⟨0x1c, by decide, by decide⟩ 0

/-- They come in before and after a tick. -/
def presses : List Event :=
  [0x1e, 0, 0x30, 0].map (fun b => .key b (fun _ => 0) 0) ++
    .tick :: [0x0e, 0, 0x1c, 0].map fun b => .key b (fun _ => 0) 0

/-- An `a` is left. -/
theorem seen_is_read_a : ∃ c : Console,
    (∃ u, Tape.Rest 80 [0x61] u ∧ Screen.Before (Tape.newRow 80 23 32 u) c.screen) ∧
      ∃ k', c.kernel.doRead 0 512 (fun _ => 0) 8 0 =
        some (k', some (Stdin.storeAt (fun _ => 0) 0 [0x61, 0x0a, 0], 2)) := by
  have hruns : ((runAll (fun e c => c.handle 8 0 e) presses idle).any fun c =>
      decide ((c.kernel.activePcb.fdTable 0).fileStartAddress = 0)) = true := by decide +kernel
  obtain ⟨c, hc, hfd⟩ := Option.any_eq_true _ _ |>.1 hruns
  have hrun : Run Step idle presses c := .of_runAll (fun _ _ _ h => ⟨8, 0, h⟩) hc
  have hkeys : presses.flatMap Event.keys = (threeKeys ++ [returnKey]).flatMap Keyboard.Stroke.bytes := by decide
  exact ⟨c, seen_is_read idle_typed rfl (by decide) rfl (by decide) (by decide) hkeys hrun
    ⟨rfl, of_decide_eq_true hfd⟩ (by decide) (by decide) _ 0⟩

end Console
end Sbuos
