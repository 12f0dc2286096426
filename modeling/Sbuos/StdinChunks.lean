import Sbuos.StdinIndices
import Sbuos.Sysutil
/-!
# Reads near the size of the buffer (sys/stdin.c:46-60)

The loop of `copy_input` compares with `size - 1` only behind a character it has stored, and the newline and the NUL
behind it are stored without a test. A line of `size - 1` characters is therefore followed by a NUL one byte behind
the buffer (`read_in_buffer`), and of a longer one each read drops the character in whose place it puts its NUL
(`long_line_loses`).
-/
namespace Sbuos.Stdin
open Lib

section line
variable {s : Stdin} {pre rest w : List Byte} {size : Int}

theorem copyInput_front (h : Holds s (pre ++ newline :: rest)) (hd : ctrlD ∉ pre) (fuel : Nat) (buffer : Nat → Byte)
    (size : Int) : copyInput fuel buffer size s = copyLoop fuel buffer size 0 s := by
  rcases pre with _ | ⟨c, pre⟩
  · exact copyInput_eq_loop h (by decide) fuel buffer size
  · exact copyInput_eq_loop h (by rintro rfl; exact hd List.mem_cons_self) fuel buffer size

/-- A line of less than `size` characters is taken out whole. -/
theorem copyInput_fits (h : Holds s (pre ++ newline :: rest)) (hn : newline ∉ pre) (hd : ctrlD ∉ pre)
    (hlen : (pre.length : Int) < size) (buffer : Nat → Byte) :
    ∃ fuel st, copyInput fuel buffer size s = some ⟨st, storeAt buffer 0 (pre ++ [newline, 0]), pre.length + 1⟩ ∧
      Holds st rest ∧ st.inputCount = s.inputCount - 1 := by
  obtain ⟨st, e, hst, hcount⟩ := copyLoop_line size rest pre (pre.length + 1) buffer 0 s h hn (by simpa using hlen)
    (Nat.lt_succ_self _)
  refine ⟨pre.length + 1, st, ?_, hst, hcount⟩
  rw [copyInput_front h hd, e]
  simp

/-- Of a longer one, `size` characters are, the last of which becomes a NUL. -/
theorem copyInput_fills (h : Holds s (pre ++ newline :: rest)) (hn : newline ∉ pre) (hd : ctrlD ∉ pre)
    (hsize : 1 ≤ size) (hlen : size ≤ pre.length) (buffer : Nat → Byte) :
    ∃ fuel st, copyInput fuel buffer size s =
        some ⟨st, Function.update (storeAt buffer 0 (pre.take size.toNat)) (size.toNat - 1) 0, size⟩ ∧
      Holds st (pre.drop size.toNat ++ newline :: rest) ∧ st.inputCount = s.inputCount := by
  have htake : (pre.take size.toNat).length = size.toNat := List.length_take_of_le (by omega)
  have h' : Holds s (pre.take size.toNat ++ (pre.drop size.toNat ++ newline :: rest)) := by
    rwa [← List.append_assoc, List.take_append_drop]
  obtain ⟨st, e, hst, hcount⟩ := copyLoop_full size _ (pre.take size.toNat) size.toNat buffer 0 s h'
    (fun hm => hn (List.mem_of_mem_take hm)) (fun e0 => by rw [e0] at htake; simp at htake; omega) (by omega) (by omega)
  refine ⟨size.toNat, st, ?_, hst, hcount⟩
  rw [copyInput_front h hd, e, htake, Nat.zero_add]

/-- A newline and what stands before it. -/
theorem exists_line {w : List Byte} (h : newline ∈ w) :
    ∃ pre rest, w = pre ++ newline :: rest ∧ newline ∉ pre ∧ w.takeWhile (· ≠ newline) = pre := by
  induction w with
  | nil => cases h
  | cons c w ih =>
    by_cases hc : c = newline
    · subst hc
      exact ⟨[], w, rfl, by simp, by simp⟩
    · obtain ⟨pre, rest, rfl, hn, htake⟩ := ih ((List.mem_cons.1 h).resolve_left (Ne.symm hc))
      refine ⟨c :: pre, rest, rfl, by simp [hn, Ne.symm hc], ?_⟩
      rw [List.takeWhile_cons_of_pos (by simpa using hc), htake]

end line

/-! ## Inside of the buffer -/

/-- Ordinary characters and newlines. -/
def OrdinaryKeys (_ : Stdin) : Op → Prop
  | .add c => c ≠ backspace ∧ c ≠ ctrlD
  | .copy _ _ => True

/-- No end of file is pending, and the counter is exact. -/
structure OrdinaryInv (s : Stdin) : Prop where
  count : CountInv s
  noCtrlD : ctrlD ∉ pending s

theorem OrdinaryInv.step {s t : Stdin} {i : Op} (h : OrdinaryInv s) (hsize : SizePos i) (hok : OrdinaryKeys s i)
    (hs : Step s i t) : OrdinaryInv t := by
  cases hs with
  | @add c r e =>
    have hsafe : CountSafe s (.add c) := fun hb => absurd hb hok.1
    refine ⟨h.count.addChar hsafe e, ?_⟩
    by_cases hf : (pending s).length + 1 = bufferSize
    · obtain rfl := Option.some.inj ((addChar_full h.count.holds hf c).symm.trans e)
      exact h.noCtrlD
    · have hlt := h.count.holds.length_lt
      obtain ⟨r', e', hr, -⟩ := addChar_append h.count.holds (by omega) hok.1
      obtain rfl := Option.some.inj (e'.symm.trans e)
      rw [show pending r'.st = pending s ++ [c] from hr.window_eq]
      simp [h.noCtrlD, Ne.symm hok.2]
  | @copy buffer size fuel r hr e =>
    have hsafe : CountSafe s (.copy buffer size) := by
      rw [CountSafe]
      split
      · rename_i hhead
        exact absurd (List.mem_of_head? hhead) h.noCtrlD
      · exact fun hm => h.noCtrlD ((List.takeWhile_prefix _).subset (List.mem_of_mem_take hm))
    obtain ⟨fuel', r', taken, e', hpending, hcount⟩ := h.count.copyInput hr buffer hsize hsafe
    obtain rfl := copyInput_fuel e' e
    refine ⟨hcount, fun hm => h.noCtrlD ?_⟩
    rw [hpending]
    exact List.mem_append_right _ hm

/-- **A read stays in the buffer exactly when the line does not end where the buffer does.** In every state that
ordinary characters, newlines and reads lead to and that holds a line, a read with room for `size` characters returns
at most `size`, and whatever the buffer held it leaves what is behind it alone, if and only if the line has not
exactly `size - 1` characters before its newline. -/
theorem read_in_buffer {is : List Op} {t : Stdin}
    (hrun : Run (Guarded (fun s i => SizePos i ∧ OrdinaryKeys s i) Step) Stdin.init is t) (hline : newline ∈ pending t)
    {size : Int} (hsize : 1 ≤ size) :
    (∀ buffer, ∃ fuel r, copyInput fuel buffer size t = some r) ∧
    ((∀ buffer fuel r, copyInput fuel buffer size t = some r →
        (∀ j : Nat, size ≤ j → r.buffer j = buffer j) ∧ r.ret ≤ size) ↔
      (((pending t).takeWhile (· ≠ newline)).length : Int) ≠ size - 1) := by
  have hinit : OrdinaryInv Stdin.init := ⟨CountInv.init, by decide⟩
  have h : OrdinaryInv t := hrun.invariant OrdinaryInv hinit fun _ _ _ h hs => h.step hs.1.1 hs.1.2 hs.2
  obtain ⟨pre, rest, hw, hn, htake⟩ := exists_line hline
  have hd : ctrlD ∉ pre := fun hm => h.noCtrlD (by rw [hw]; exact List.mem_append_left _ hm)
  have hholds : Holds t (pre ++ newline :: rest) := hw ▸ h.count.holds
  rw [htake]
  by_cases hfit : (pre.length : Int) < size
  · have hread := copyInput_fits hholds hn hd hfit
    refine ⟨fun buffer => ?_, fun hin hlast => ?_, fun hne buffer fuel r e => ?_⟩
    · obtain ⟨fuel, st, e, -⟩ := hread buffer
      exact ⟨fuel, _, e⟩
    · -- the NUL behind the newline
      obtain ⟨fuel, st, e, -⟩ := hread fun _ => 1
      have hbehind := (hin _ _ _ e).1 (pre.length + 1) (by omega)
      have hlen : pre.length + 1 < (pre ++ [newline, 0]).length := by simp
      have hnul := storeAt_zero_get (fun _ => 1) hlen
      simp only [hnul] at hbehind
      simp at hbehind
    · obtain ⟨fuel', st, e', -⟩ := hread buffer
      obtain rfl := copyInput_fuel e' e
      refine ⟨fun j hj => storeAt_ge _ _ _ _ (by simp; omega), ?_⟩
      change (pre.length : Int) + 1 ≤ size
      omega
  · have hread := copyInput_fills hholds hn hd hsize (by omega)
    refine ⟨fun buffer => ?_, iff_of_true (fun buffer fuel r e => ?_) (by omega)⟩
    · obtain ⟨fuel, st, e, -⟩ := hread buffer
      exact ⟨fuel, _, e⟩
    · obtain ⟨fuel', st, e', -⟩ := hread buffer
      obtain rfl := copyInput_fuel e' e
      refine ⟨fun j hj => ?_, Int.le_refl size⟩
      change Function.update _ _ _ _ = _
      rw [Function.update_of_ne (by omega)]
      exact storeAt_ge _ _ _ _ (by rw [List.length_take]; omega)

/-- `a` and return. -/
def lineA : Stdin := ⟨Function.update (Function.update (fun _ => 0) 0 97) 1 newline, 0, 2, 1⟩

theorem lineA_run : Run (Guarded (fun s i => SizePos i ∧ OrdinaryKeys s i) Step) Stdin.init
    [.add 97, .add newline] lineA :=
  .cons ⟨⟨trivial, by decide, by decide⟩, .of_addChar rfl⟩
    (.single ⟨⟨trivial, by decide, by decide⟩, .of_addChar rfl⟩)

theorem read_in_buffer_a : ∃ fuel r, copyInput fuel (fun _ => 1) 3 lineA = some r ∧ r.buffer 3 = 1 := by
  obtain ⟨hreturns, hin⟩ := read_in_buffer lineA_run (by decide) (show (1 : Int) ≤ 3 by decide)
  obtain ⟨fuel, r, e⟩ := hreturns fun _ => 1
  exact ⟨fuel, r, e, ((hin.2 (by decide)) _ fuel r e).1 3 (by decide)⟩

/-- With room for two the NUL comes behind the buffer. -/
theorem read_behind_buffer : Run (Guarded (fun s i => SizePos i ∧ OrdinaryKeys s i) Step) Stdin.init
      [.add 97, .add newline] lineA ∧ newline ∈ pending lineA ∧
    (copyInput 2 (fun _ => 1) 2 lineA).map (fun r => r.buffer 2) = some 0 :=
  ⟨lineA_run, by decide, rfl⟩

/-! ## A line in pieces -/

/-- The strings that successive reads produce, up to the one that stores the newline. -/
inductive Chunks (size : Int) : Stdin → List (List Byte) → Prop
  | last {s : Stdin} {buffer : Nat → Byte} {fuel : Nat} {r : Copied} {w : List Byte} : bufferIsReady s = true →
      copyInput fuel buffer size s = some r → r.buffer (r.ret.toNat - 1) = newline → Spells r.buffer w →
      Chunks size s [w]
  | more {s : Stdin} {buffer : Nat → Byte} {fuel : Nat} {r : Copied} {w : List Byte} {ws : List (List Byte)} :
      bufferIsReady s = true → copyInput fuel buffer size s = some r → r.buffer (r.ret.toNat - 1) ≠ newline →
      Spells r.buffer w → Chunks size r.st ws → Chunks size s (w :: ws)

section chunks
variable {s : Stdin} {pre rest w : List Byte} {ws : List (List Byte)} {size : Int} {b : Nat → Byte} {n : Nat}

/-- A string ends at its first NUL. -/
theorem length_le_of_nul (h : Spells b w) (h0 : b n = 0) : w.length ≤ n := by
  by_contra hlt
  exact h.apply_ne_zero (Nat.lt_of_not_le hlt) h0

/-- The buffer behind a line that fits: its newline, and a NUL. -/
theorem storeAt_line (buffer : Nat → Byte) (pre : List Byte) :
    storeAt buffer 0 (pre ++ [newline, 0]) pre.length = newline ∧
      storeAt buffer 0 (pre ++ [newline, 0]) (pre.length + 1) = 0 := by
  rw [storeAt_zero_get buffer (by simp), storeAt_zero_get buffer (by simp)]
  simp

/-- A word stored with a NUL behind it. -/
theorem spells_storeAt (buffer : Nat → Byte) (h0 : 0 ∉ w) : Spells (storeAt buffer 0 (w ++ [0])) w := by
  refine ⟨fun i hi => ?_, fun c hc => ?_, ?_⟩
  · rw [storeAt_zero_get buffer (by rw [List.length_append]; omega), List.getElem_append_left hi]
  · rintro rfl
    exact h0 hc
  · rw [storeAt_zero_get buffer (by simp)]
    simp

variable (h : Holds s (pre ++ newline :: rest)) (hn : newline ∉ pre) (hd : ctrlD ∉ pre)
include h hn hd

/-- A line that fits takes one read. -/
theorem exists_chunks_fits (hcount : 0 < s.inputCount) (hlen : (pre.length : Int) < size) :
    ∃ ws, Chunks size s ws := by
  obtain ⟨fuel, st, e, -⟩ := copyInput_fits h hn hd hlen fun _ => 0
  obtain ⟨hnl, hnul⟩ := storeAt_line (fun _ => 0) pre
  obtain ⟨w, hw⟩ := exists_spells_of_nul hnul
  exact ⟨[w], .last (by simpa [bufferIsReady] using hcount) e hnl hw⟩

theorem chunks_fits (hlen : (pre.length : Int) < size) (hws : Chunks size s ws) :
    ∃ w buffer, ws = [w] ∧ Spells (storeAt buffer 0 (pre ++ [newline, 0])) w := by
  cases hws with
  | @last _ buffer _ _ _ _ e _ hw =>
    obtain ⟨fuel, st, e', -⟩ := copyInput_fits h hn hd hlen buffer
    obtain rfl := copyInput_fuel e' e
    exact ⟨_, _, rfl, hw⟩
  | @more _ buffer _ _ _ _ _ e hmore _ _ =>
    obtain ⟨fuel, st, e', -⟩ := copyInput_fits h hn hd hlen buffer
    obtain rfl := copyInput_fuel e' e
    exact absurd (storeAt_line buffer pre).1 hmore

/-- Of a longer line a read delivers less than it takes. -/
theorem exists_chunks_fills (hcount : 0 < s.inputCount) (hsize : 1 ≤ size) (hlen : size ≤ pre.length)
    (hrest : ∀ t, Holds t (pre.drop size.toNat ++ newline :: rest) → 0 < t.inputCount → ∃ ws, Chunks size t ws) :
    ∃ ws, Chunks size s ws := by
  obtain ⟨fuel, st, e, hst, hc⟩ := copyInput_fills h hn hd hsize hlen fun _ => 0
  obtain ⟨ws, hws⟩ := hrest st hst (by omega)
  have hlast : Function.update (storeAt (fun _ => 0) 0 (pre.take size.toNat)) (size.toNat - 1) 0 (size.toNat - 1) = 0 :=
    Function.update_self _ _ _
  obtain ⟨w, hw⟩ := exists_spells_of_nul hlast
  exact ⟨w :: ws, .more (by simpa [bufferIsReady] using hcount) e
    (fun hnl => absurd (hlast.symm.trans hnl) (by decide)) hw hws⟩

theorem chunks_fills (hsize : 1 ≤ size) (hlen : size ≤ pre.length) (hws : Chunks size s ws) :
    ∃ w vs t, ws = w :: vs ∧ (w.length : Int) < size ∧ Holds t (pre.drop size.toNat ++ newline :: rest) ∧
      Chunks size t vs := by
  have hlast : ∀ buffer, Function.update (storeAt buffer 0 (pre.take size.toNat)) (size.toNat - 1) 0
      (size.toNat - 1) = 0 := fun buffer => Function.update_self _ _ _
  cases hws with
  | @last _ buffer _ _ _ _ e hnl _ =>
    obtain ⟨fuel, st, e', -⟩ := copyInput_fills h hn hd hsize hlen buffer
    obtain rfl := copyInput_fuel e' e
    exact absurd ((hlast buffer).symm.trans hnl) (by decide)
  | @more _ buffer _ _ w vs _ e _ hw htail =>
    obtain ⟨fuel, st, e', hst, -⟩ := copyInput_fills h hn hd hsize hlen buffer
    obtain rfl := copyInput_fuel e' e
    have hle := length_le_of_nul hw (hlast buffer)
    exact ⟨w, vs, st, rfl, by omega, hst, htail⟩

omit h hn hd

theorem exists_chunks (hsize : 1 ≤ size) : ∀ (n : Nat) {s : Stdin} {pre : List Byte}, pre.length = n →
    Holds s (pre ++ newline :: rest) → newline ∉ pre → ctrlD ∉ pre → 0 < s.inputCount → ∃ ws, Chunks size s ws := by
  intro n
  induction n using Nat.strongRecOn with
  | ind n ih =>
    rintro s pre rfl h hn hd hcount
    by_cases hfit : (pre.length : Int) < size
    · exact exists_chunks_fits h hn hd hcount hfit
    · refine exists_chunks_fills h hn hd hcount hsize (by omega) fun t ht hc => ?_
      exact ih (pre.drop size.toNat).length (by rw [List.length_drop]; omega) rfl ht
        (fun hm => hn (List.mem_of_mem_drop hm)) (fun hm => hd (List.mem_of_mem_drop hm)) hc

/-- The pieces have no more characters than the line with its newline. -/
theorem length_chunks (hsize : 1 ≤ size) : ∀ (n : Nat) {s : Stdin} {pre : List Byte}, pre.length = n →
    Holds s (pre ++ newline :: rest) → newline ∉ pre → ctrlD ∉ pre → ∀ {ws}, Chunks size s ws →
    ws.flatten.length ≤ pre.length + 1 ∧ (size ≤ pre.length → ws.flatten.length ≤ pre.length) := by
  intro n
  induction n using Nat.strongRecOn with
  | ind n ih =>
    rintro s pre rfl h hn hd ws hws
    by_cases hfit : (pre.length : Int) < size
    · obtain ⟨w, buffer, rfl, hw⟩ := chunks_fits h hn hd hfit hws
      have hle := length_le_of_nul hw (storeAt_line buffer pre).2
      rw [List.flatten_singleton]
      exact ⟨hle, fun hlen => by omega⟩
    · obtain ⟨w, vs, t, rfl, hw, ht, hvs⟩ := chunks_fills h hn hd hsize (by omega) hws
      have hrest := (ih (pre.drop size.toNat).length (by rw [List.length_drop]; omega) rfl ht
        (fun hm => hn (List.mem_of_mem_drop hm)) (fun hm => hd (List.mem_of_mem_drop hm)) hvs).1
      rw [List.length_drop] at hrest
      rw [List.flatten_cons, List.length_append]
      exact ⟨by omega, fun _ => by omega⟩

/-- No piece holds a NUL. -/
theorem zero_not_mem_chunks (hws : Chunks size s ws) : 0 ∉ ws.flatten := by
  induction hws with
  | last _ _ _ hw =>
    rw [List.flatten_singleton]
    exact fun hm => hw.ne_zero 0 hm rfl
  | more _ _ _ hw _ ih =>
    rw [List.flatten_cons, List.mem_append, not_or]
    exact ⟨fun hm => hw.ne_zero 0 hm rfl, ih⟩

/-- The pieces make up the line exactly when it fits and holds no NUL. -/
theorem chunks_flatten_iff (h : Holds s (pre ++ [newline])) (hn : newline ∉ pre) (hd : ctrlD ∉ pre) (hsize : 1 ≤ size)
    (hws : Chunks size s ws) : ws.flatten = pre ++ [newline] ↔ (pre.length : Int) < size ∧ 0 ∉ pre := by
  constructor
  · intro hflat
    constructor
    · by_contra hlong
      have hlost := (length_chunks hsize _ rfl h hn hd hws).2 (by omega)
      rw [hflat, List.length_append, List.length_singleton] at hlost
      omega
    · intro h0
      refine zero_not_mem_chunks hws ?_
      rw [hflat]
      exact List.mem_append_left _ h0
  · rintro ⟨hfit, h0⟩
    obtain ⟨w, buffer, rfl, hw⟩ := chunks_fits h hn hd hfit hws
    have hspells : Spells (storeAt buffer 0 (pre ++ [newline] ++ [0])) (pre ++ [newline]) :=
      spells_storeAt buffer fun hm => (List.mem_append.1 hm).elim h0 (by decide)
    rw [List.append_assoc] at hspells
    rw [List.flatten_singleton, hw.unique hspells]

/-- A line typed into an empty ring. -/
theorem typing_line (h : Holds s []) (hcount : s.inputCount = 0) (hn : newline ∉ pre) (hd : ctrlD ∉ pre)
    (hb : backspace ∉ pre) (hfits : pre.length + 1 < bufferSize) : ∃ t, runAll typeKey (pre ++ [newline]) s = some t ∧
      Holds t (pre ++ [newline]) ∧ 0 < t.inputCount := by
  have hb' : backspace ∉ pre ++ [newline] := fun hm => (List.mem_append.1 hm).elim hb (by decide)
  obtain ⟨t, hall, -, ht, hc⟩ := typing h hb' (by
    rw [List.length_append, List.length_singleton]; simpa using hfits)
  refine ⟨t, hall, ht, ?_⟩
  rw [hc, hcount, List.countP_append, countP_isEnd_eq_zero hn hd]
  decide

end chunks

/-- **A line of `size` characters or more loses some.** A line of ordinary characters that fits is typed with its
newline into an empty ring, wherever its indices stand. Reads with room for `size` then produce strings up to the one
with the newline, and these make up the line as typed if and only if it has less than `size` characters, none of
them a NUL. -/
theorem long_line_loses {s : Stdin} (h : Holds s []) (hcount : s.inputCount = 0) {line : List Byte}
    (hline : newline ∉ line ∧ ctrlD ∉ line ∧ backspace ∉ line) (hfits : line.length + 1 < bufferSize) {size : Int}
    (hsize : 2 ≤ size) :
    ∃ t, runAll typeKey (line ++ [newline]) s = some t ∧ (∃ ws, Chunks size t ws) ∧
      ∀ ws, Chunks size t ws → (ws.flatten = line ++ [newline] ↔ (line.length : Int) < size ∧ 0 ∉ line) := by
  obtain ⟨hn, hd, hb⟩ := hline
  obtain ⟨t, hall, ht, hpos⟩ := typing_line h hcount hn hd hb hfits
  exact ⟨t, hall, exists_chunks (by omega) _ rfl ht hn hd hpos,
    fun ws hws => chunks_flatten_iff ht hn hd (by omega) hws⟩

/-- `a`, read with room for two. -/
theorem long_line_loses_a : ∃ t, runAll typeKey [97, newline] Stdin.init = some t ∧
    ∀ ws, Chunks 2 t ws → ws.flatten = [97, newline] := by
  obtain ⟨t, hall, -, hws⟩ := long_line_loses Holds.init rfl
    (show newline ∉ [97] ∧ ctrlD ∉ [97] ∧ backspace ∉ [97] by decide) (by decide) (show (2 : Int) ≤ 2 by decide)
  exact ⟨t, hall, fun ws h => (hws ws h).2 (by decide)⟩

/-- `ab`, read with room for two: the `b` is lost. -/
theorem long_line_loses_b : ∃ t, runAll typeKey [97, 98, newline] Stdin.init = some t ∧ (∃ ws, Chunks 2 t ws) ∧
    ∀ ws, Chunks 2 t ws → ws.flatten ≠ [97, 98, newline] := by
  obtain ⟨t, hall, ht, hpos⟩ := typing_line Holds.init rfl (show newline ∉ [97, 98] by decide) (by decide)
    (by decide) (by decide)
  refine ⟨t, hall, exists_chunks (show (1 : Int) ≤ 2 by decide) _ rfl ht (by decide) (by decide) hpos, fun ws hws => ?_⟩
  rw [Ne, show [97, 98, newline] = [97, 98] ++ [newline] from rfl,
    chunks_flatten_iff ht (by decide) (by decide) (by decide) hws]
  decide

end Sbuos.Stdin
