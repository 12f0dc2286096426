import Sbuos.Numerals
/-!
# The shell's prompt (bin/sbush/sbushell.c:20-100)

`get_formatted_prompt` copies `PS1` to `prompt` and expands `\u`, `\d` and `\S` on the way. It never compares
`buffer_index` with the size of `prompt`.

**`prompt_expanded`**: the prompt is right, and inside its buffer, exactly when what it expands to fits.
-/
namespace Sbuos

/-- `BUFFERSIZE` (ioutil.h:4), the size of `prompt`. -/
def bufferSize : Nat := 250

def backslash : Byte := 0x5c

/-- `prompt`, at 0, with what lies behind it, and `buffer_index`. -/
structure Prompt where
  prompt : Stores
  bufferIndex : Nat

/-- The strings that a prompt is made of: `ps1`, `user_name_str`, `cwd` and `status_str`. -/
structure PromptStrings where
  ps1 : Nat → Byte
  userNameStr : Nat → Byte
  cwd : Nat → Byte
  statusStr : Nat → Byte

/-- `prompt[buffer_index] = c; buffer_index++`. -/
def Prompt.putChar (c : Byte) (p : Prompt) : Prompt := ⟨p.prompt.put p.bufferIndex c, p.bufferIndex + 1⟩

/-- `format_with` for the character behind a backslash, if `formatting` is set (sbushell.c:71-82). -/
def PromptStrings.formatWith (g : PromptStrings) (c : Byte) : Option (Nat → Byte) :=
  if c = 0x75 then some g.userNameStr
  else if c = 0x64 then some g.cwd
  else if c = 0x53 then some g.statusStr
  else none

/-- The inner loop (sbushell.c:85-89). -/
def Prompt.putString (s : Nat → Byte) (p : Prompt) : Prompt :=
  (List.range (strlen s).toNat).foldl (fun p i => p.putChar (s i)) p

/-- The loop of `get_formatted_prompt` at `format_index` (sbushell.c:67-97). -/
def formatFrom (g : PromptStrings) (formatIndex : Nat) (p : Prompt) : Prompt :=
  if formatIndex < strlen g.ps1 then
    match if g.ps1 formatIndex = backslash then g.formatWith (g.ps1 (formatIndex + 1)) else none with
    | some s => formatFrom g (formatIndex + 2) (p.putString s)
    | none => formatFrom g (formatIndex + 1) (p.putChar (g.ps1 formatIndex))
  else p
termination_by (strlen g.ps1 - formatIndex).toNat

/-- `get_formatted_prompt` (sbushell.c:47-100) on a `prompt` that holds `mem`. -/
def getFormattedPrompt (g : PromptStrings) (mem : Nat → Byte) : Stores :=
  let p := formatFrom g 0 ⟨⟨mem, []⟩, 0⟩
  p.prompt.put p.bufferIndex 0

/-! ## What it should be -/

/-- The texts of the user name, the directory and the status. -/
structure PromptTexts where
  user : List Byte
  dir : List Byte
  status : List Byte

/-- The text for the character behind a backslash. -/
def PromptTexts.of (t : PromptTexts) (c : Byte) : Option (List Byte) :=
  if c = 0x75 then some t.user
  else if c = 0x64 then some t.dir
  else if c = 0x53 then some t.status
  else none

/-- `PS1` with its escapes replaced. -/
def PromptTexts.expand (t : PromptTexts) : List Byte → List Byte
  | [] => []
  | [c] => [c]
  | c :: d :: w =>
    match if c = backslash then t.of d else none with
    | some text => text ++ t.expand w
    | none => c :: t.expand (d :: w)

/-- The strings hold these texts, and `ps1` holds `w`. -/
structure PromptStrings.Hold (g : PromptStrings) (w : List Byte) (t : PromptTexts) : Prop where
  ps1 : Spells g.ps1 w
  user : Spells g.userNameStr t.user
  dir : Spells g.cwd t.dir
  status : Spells g.statusStr t.status
  ps1_short : w.length < maxStrLen
  user_short : t.user.length < maxStrLen
  dir_short : t.dir.length < maxStrLen
  status_short : t.status.length < maxStrLen

/-- `prompt` holds this text, cut off if need be, and nothing was stored outside it. -/
def PromptIs (s : Stores) (text : List Byte) : Prop :=
  (∀ i ∈ s.log, i < bufferSize) ∧ Spells (shift 0 s.mem) (text.take (bufferSize - 1))

section
variable {g : PromptStrings} {t : PromptTexts} {p q r : Prompt} {w u v : List Byte} {s : Nat → Byte} {i : Nat}
  {c : Byte}

/-- From `p` to `q` the text `u` was put into the prompt. -/
structure Prompt.Put (p q : Prompt) (u : List Byte) : Prop where
  wrote : p.prompt.Wrote q.prompt p.bufferIndex u
  index : q.bufferIndex = p.bufferIndex + u.length

theorem Prompt.put_putChar (p : Prompt) (c : Byte) : p.Put (p.putChar c) [c] := ⟨Stores.wrote_put _ _ _, rfl⟩

theorem Prompt.Put.trans (h : p.Put q u) (h' : q.Put r v) : p.Put r (u ++ v) where
  wrote := h.wrote.trans (h.index ▸ h'.wrote)
  index := by rw [h'.index, h.index, List.length_append, Nat.add_assoc]

theorem Prompt.put_putString (p : Prompt) (h : Spells s u) (hlen : u.length < maxStrLen) : p.Put (p.putString s) u := by
  rw [Prompt.putString, h.strlen hlen, Int.toNat_natCast]
  have hloop : ∀ n ≤ u.length, p.Put ((List.range n).foldl (fun p i => p.putChar (s i)) p) (u.take n) := by
    intro n
    induction n with
    | zero => exact fun _ => ⟨.refl _ _, rfl⟩
    | succ n ih =>
      intro hn
      rw [List.range_succ, List.foldl_append, List.foldl_cons, List.foldl_nil, List.take_succ_eq_append_getElem hn,
        h.chars n hn]
      exact (ih (Nat.le_of_succ_le hn)).trans (Prompt.put_putChar _ _)
  have := hloop u.length (Nat.le_refl _)
  rwa [List.take_length] at this

theorem formatWith_none (c : Byte) (h : t.of c = none) : g.formatWith c = none := by
  revert h
  simp only [PromptTexts.of, PromptStrings.formatWith]
  split_ifs <;> simp

/-- An escape has a string exactly when it has a text, and the string holds it. -/
theorem PromptStrings.Hold.formatWith (h : g.Hold w t) {text : List Byte} (ht : t.of c = some text) :
    ∃ s, g.formatWith c = some s ∧ Spells s text ∧ text.length < maxStrLen := by
  rw [PromptTexts.of] at ht
  rw [PromptStrings.formatWith]
  split_ifs at ht with h1 h2 h3
  · cases ht
    exact ⟨_, if_pos h1, h.user, h.user_short⟩
  · cases ht
    exact ⟨_, by rw [if_neg h1, if_pos h2], h.dir, h.dir_short⟩
  · cases ht
    exact ⟨_, by rw [if_neg h1, if_neg h2, if_pos h3], h.status, h.status_short⟩

theorem formatFrom_end (h : ¬(i : Int) < strlen g.ps1) : formatFrom g i p = p := by
  unfold formatFrom
  exact if_neg h

theorem formatFrom_escape (h : (i : Int) < strlen g.ps1) (hi : g.ps1 i = backslash)
    (hs : g.formatWith (g.ps1 (i + 1)) = some s) : formatFrom g i p = formatFrom g (i + 2) (p.putString s) := by
  conv_lhs => unfold formatFrom
  rw [if_pos h, if_pos hi, hs]

theorem formatFrom_char (h : (i : Int) < strlen g.ps1)
    (hi : g.ps1 i = backslash → g.formatWith (g.ps1 (i + 1)) = none) :
    formatFrom g i p = formatFrom g (i + 1) (p.putChar (g.ps1 i)) := by
  conv_lhs => unfold formatFrom
  have hnone : (if g.ps1 i = backslash then g.formatWith (g.ps1 (i + 1)) else none) = none := by
    split_ifs with hb
    · exact hi hb
    · rfl
  rw [if_pos h, hnone]

/-- What is left of `PS1` is put into the prompt, expanded. -/
theorem put_formatFrom (h : g.Hold w t) (hv : Spells (shift i g.ps1) v) (hi : i + v.length = w.length) (p : Prompt) :
    p.Put (formatFrom g i p) (t.expand v) := by
  have hstrlen : strlen g.ps1 = w.length := h.ps1.strlen h.ps1_short
  fun_induction PromptTexts.expand t v generalizing i p with
  | case1 =>
    rw [List.length_nil] at hi
    rw [formatFrom_end (by omega)]
    exact ⟨.refl _ _, rfl⟩
  | case2 c =>
    obtain ⟨hc, -, hnul⟩ := spells_shift_cons hv
    have h0 : g.ps1 (i + 1) = 0 := hnul.nul
    rw [List.length_singleton] at hi
    rw [formatFrom_char (by omega) fun _ => by rw [h0]; rfl, hc, formatFrom_end (by omega)]
    exact Prompt.put_putChar p c
  | case3 c d v text ht ih =>
    obtain ⟨hc, -, hrest⟩ := spells_shift_cons hv
    obtain ⟨hd, -, hrest'⟩ := spells_shift_cons hrest
    rw [List.length_cons, List.length_cons] at hi
    split_ifs at ht with hb
    obtain ⟨s, hs, hspells, hshort⟩ := h.formatWith ht
    rw [formatFrom_escape (by omega) (hc.trans hb) (hd ▸ hs)]
    exact (Prompt.put_putString p hspells hshort).trans (ih hrest' (by omega) _)
  | case4 c d v hn ih =>
    obtain ⟨hc, -, hrest⟩ := spells_shift_cons hv
    obtain ⟨hd, -, -⟩ := spells_shift_cons hrest
    rw [List.length_cons] at hi
    have hchar : g.ps1 i = backslash → g.formatWith (g.ps1 (i + 1)) = none := by
      intro hb
      rw [if_pos (hc ▸ hb)] at hn
      exact hd ▸ formatWith_none d hn
    rw [formatFrom_char (by omega) hchar, hc]
    exact (Prompt.put_putChar p c).trans (ih hrest (by omega) _)

/-- All of it, with a NUL behind. -/
theorem wrote_prompt (h : g.Hold w t) (mem : Nat → Byte) :
    Stores.Wrote ⟨mem, []⟩ (getFormattedPrompt g mem) 0 (t.expand w ++ [0]) := by
  have h0 : Spells (shift 0 g.ps1) w := by
    rw [shift_zero]
    exact h.ps1
  have hput := put_formatFrom h h0 (Nat.zero_add _) ⟨⟨mem, []⟩, 0⟩
  have hindex : (formatFrom g 0 ⟨⟨mem, []⟩, 0⟩).bufferIndex = 0 + (t.expand w).length := hput.index
  refine hput.wrote.trans ?_
  rw [← hindex]
  exact Stores.wrote_put _ _ _

theorem expand_ne_zero (h : g.Hold w t) (hv : ∀ c ∈ v, c ≠ 0) : ∀ c ∈ t.expand v, c ≠ 0 := by
  fun_induction PromptTexts.expand t v with
  | case1 => exact hv
  | case2 c => exact hv
  | case3 c d v text ht ih =>
    split_ifs at ht
    obtain ⟨s, -, hspells, -⟩ := h.formatWith ht
    have hrest := ih fun c hc => hv c (List.mem_cons_of_mem _ (List.mem_cons_of_mem _ hc))
    exact fun c hc => (List.mem_append.1 hc).elim (hspells.ne_zero c) (hrest c)
  | case4 c d v hn ih =>
    have hrest := ih fun c hc => hv c (List.mem_cons_of_mem _ hc)
    exact List.forall_mem_cons.2 ⟨hv c List.mem_cons_self, hrest⟩

/-- The NUL is stored inside only if the text is short enough. -/
theorem length_expand_lt (h : g.Hold w t) {mem : Nat → Byte} (hp : PromptIs (getFormattedPrompt g mem) (t.expand w)) :
    (t.expand w).length < bufferSize := by
  refine hp.1 _ (((wrote_prompt h mem).log _).2 (.inr ?_))
  rw [List.length_append, List.length_singleton]
  omega

/-- **The prompt is expanded within its buffer** exactly when the expanded text and its NUL fit. -/
theorem prompt_expanded (h : g.Hold w t) (mem : Nat → Byte) :
    PromptIs (getFormattedPrompt g mem) (t.expand w) ↔ (t.expand w).length < bufferSize := by
  have hwrote := wrote_prompt h mem
  refine ⟨length_expand_lt h, fun hlen => ⟨fun i hi => ?_, ?_⟩⟩
  · rcases (hwrote.log i).1 hi with hi | hi
    · exact absurd hi List.not_mem_nil
    · rw [List.length_append, List.length_singleton] at hi
      omega
  · rw [List.take_of_length_le (by omega)]
    exact hwrote.spells (expand_ne_zero h h.ps1.ne_zero)

end

/-- The default `PS1`. -/
def defaultPs1 : List Byte :=
  [0x5c, 0x75, 0x40, 0x73, 0x62, 0x75, 0x73, 0x68, 0x3a, 0x5c, 0x64, 0x2d, 0x28, 0x5c, 0x53, 0x29, 0x2d, 0x3e]

/-- A string of these characters. -/
def charsOf (w : List Byte) : Nat → Byte := overwrite 0 (w ++ [0]) fun _ => 0

theorem prompt_expanded_default : PromptIs
    (getFormattedPrompt ⟨charsOf defaultPs1, charsOf [0x72, 0x6f], charsOf [0x2f], charsOf [0x30]⟩ fun _ => 0)
    (PromptTexts.expand ⟨[0x72, 0x6f], [0x2f], [0x30]⟩ defaultPs1) :=
  (prompt_expanded ⟨spells_overwrite (by decide), spells_overwrite (by decide), spells_overwrite (by decide),
    spells_overwrite (by decide), by decide, by decide, by decide, by decide⟩ _).2 (by decide)

/-- Six times a directory of 49 characters is too long. -/
theorem prompt_expanded_long : ¬PromptIs
    (getFormattedPrompt ⟨charsOf (List.replicate 6 [0x5c, 0x64]).flatten, charsOf [0x72, 0x6f],
      charsOf (0x2f :: List.replicate 48 0x61), charsOf [0x30]⟩ fun _ => 0)
    (PromptTexts.expand ⟨[0x72, 0x6f], 0x2f :: List.replicate 48 0x61, [0x30]⟩
      (List.replicate 6 [0x5c, 0x64]).flatten) := by
  intro h
  refine absurd (length_expand_lt ⟨spells_overwrite (by decide), spells_overwrite (by decide), spells_overwrite ?_,
    spells_overwrite (by decide), by decide, by decide, by decide, by decide⟩ h) (by decide +kernel)
  exact List.forall_mem_cons.2 ⟨by decide, fun c hc => by rw [List.eq_of_mem_replicate hc]; decide⟩

end Sbuos
