import Sbuos.PathAccess
import Mathlib.Data.List.Flatten
/-!
# What merging a path writes to the buffer (sys/sysutil.c:9-17, :37-45, :91-114, sys/systemcall.c:114-163)

`path_merge` puts the text together in the callers' buffer of 100 bytes, `cleanup_path` writes the components back
there, each with a slash behind it, and `do_chdir` and `do_open` write a slash and a NUL more. `kstrcat` does not
look at its `size` at all, and `kstrcpy` writes one byte at it.

**`path_merge_in_buffer`**: which paths stay within the buffer.
-/
namespace Sbuos
open Lib

/-- The bytes of the components that the folding keeps if there is no `..`, each with its slash. -/
def plainBytes (w : List Byte) : Nat := (absolute ((w.splitOn slash).filter fun part => ¬Special part)).length

/-- The components with a slash before each: one byte more than the path. -/
theorem length_absolute_splitOn (w : List Byte) : (absolute (w.splitOn slash)).length = w.length + 1 := by
  rw [absolute_eq_intercalate (List.splitOn_ne_nil slash w), List.intercalate_splitOn, List.length_cons]

theorem length_absolute_le {parts parts' : List (List Byte)} (h : parts.Sublist parts') :
    (absolute parts).length ≤ (absolute parts').length :=
  (h.flatMap fun part => slash :: part).length_le

/-- Without `..` the folding is a filter. -/
theorem foldl_pushPart_filter : ∀ (todo done : List (List Byte)), [dot, dot] ∉ todo →
    todo.foldl pushPart done = done ++ todo.filter fun part => ¬Special part
  | [], done, _ => by simp
  | part :: todo, done, h => by
    have hpart : part ≠ [dot, dot] := fun he => h (he ▸ List.mem_cons_self)
    have hrest := foldl_pushPart_filter todo (pushPart done part) fun hm => h (List.mem_cons_of_mem part hm)
    rw [List.foldl_cons, hrest, pushPart]
    by_cases hskip : part = [] ∨ part = [dot]
    · have hspecial : Special part := hskip.imp_right .inl
      rw [if_pos hskip, List.filter_cons_of_neg (by simpa using hspecial)]
    · have hplain : ¬Special part := fun hs => hs.elim (fun he => hskip (.inl he))
        (Or.rec (fun he => hskip (.inr he)) hpart)
      rw [if_neg hskip, if_neg hpart, List.filter_cons_of_pos (by simpa using hplain), List.append_assoc,
        List.singleton_append]

theorem length_normalParts_le (w : List Byte) : (absolute (normalParts w)).length ≤ plainBytes w := by
  have hkept : (normalParts w).filter (fun part => ¬Special part) = normalParts w :=
    List.filter_eq_self.2 fun part hpart => decide_eq_true (not_special_of_mem_normalParts hpart)
  have hsub := (normalParts_sublist w).filter fun part => ¬Special part
  rw [hkept] at hsub
  exact length_absolute_le hsub

/-- A `..` takes three bytes of the text. -/
theorem plainBytes_of_dotDot {w : List Byte} (h : [dot, dot] ∈ w.splitOn slash) : plainBytes w + 2 ≤ w.length := by
  have hperm := (List.perm_cons_erase h).flatMap_right fun part => slash :: part
  have hlen := hperm.length_eq
  rw [List.flatMap_cons, List.length_append] at hlen
  have htotal := length_absolute_splitOn w
  rw [absolute, hlen] at htotal
  have hsub : ((w.splitOn slash).filter fun part => ¬Special part).Sublist ((w.splitOn slash).erase [dot, dot]) := by
    have hnot : [dot, dot] ∉ (w.splitOn slash).filter fun part => ¬Special part := by simp [Special]
    rw [← List.erase_of_not_mem hnot]
    exact List.filter_sublist.erase [dot, dot]
  have hle := length_absolute_le hsub
  simp only [List.length_cons, List.length_nil] at htotal
  rw [absolute, absolute] at hle
  rw [plainBytes, absolute]
  omega

/-- In a text that fits, only plain components can come close to the end of the buffer. -/
theorem length_normalParts_le_iff {w : List Byte} {m : Nat} (hlen : w.length < 100) (hm : 97 ≤ m) :
    (absolute (normalParts w)).length ≤ m ↔ plainBytes w ≤ m := by
  refine ⟨fun h => ?_, (length_normalParts_le w).trans⟩
  by_cases hdots : [dot, dot] ∈ w.splitOn slash
  · have := plainBytes_of_dotDot hdots
    omega
  · rwa [plainBytes, ← List.nil_append (List.filter ..), ← foldl_pushPart_filter _ [] hdots]

/-! ## The copies -/

section copies
variable {src st1 st2 base relative buffer tempPath : Nat → Byte} {w w1 w2 wb wr : List Byte} {fuel i j k : Nat}
  {turns : Nat} {size : Int}

theorem Spells.kstrcpyStores_from {n : Nat} (h : Spells src w) : ∀ (turns i : Nat), i + turns = n + 1 →
    i ≤ w.length → i ≤ n → Sbuos.kstrcpyStores src n turns i = List.range' i (min w.length n + 1 - i)
  | 0, i, hturns, _, hn => by omega
  | turns + 1, i, hturns, hi, hn => by
    rw [Sbuos.kstrcpyStores]
    by_cases hend : i = w.length
    · subst hend
      rw [if_pos h.nul, Nat.min_eq_left hn, Nat.add_sub_cancel_left]
      rfl
    · have hlt : i < w.length := Nat.lt_of_le_of_ne hi hend
      rw [if_neg (h.apply_ne_zero hlt)]
      by_cases hlast : n = i
      · subst hlast
        rw [if_pos (Int.le_refl _), Nat.min_eq_right hi, Nat.add_sub_cancel_left]
        rfl
      · have hrest := h.kstrcpyStores_from (n := n) turns (i + 1) (by omega) (by omega) (by omega)
        have hcount : min w.length n + 1 - i = min w.length n + 1 - (i + 1) + 1 := by omega
        have hmore : ¬(n : Int) ≤ i := by omega
        rw [if_neg hmore, hrest, hcount, List.range'_succ]

/-- `kstrcpy` writes the string and its NUL, but if they go beyond its `size`, up to the byte there. -/
theorem Spells.kstrcpyStores (h : Spells src w) (n : Nat) :
    Sbuos.kstrcpyStores src n (n + 1) 0 = List.range (min w.length n + 1) := by
  rw [h.kstrcpyStores_from (n + 1) 0 (Nat.zero_add _) (Nat.zero_le _) (Nat.zero_le _), List.range_eq_range']
  rfl

theorem le_of_mem_kstrcatStores (h : Spells src w) (hj : j ≤ w.length) (hk : k ∈ kstrcatStores src fuel i j) :
    k + j < i + w.length := by
  induction fuel generalizing i j with
  | zero => cases hk
  | succ fuel ih =>
    rw [kstrcatStores] at hk
    split at hk
    · cases hk
    · rename_i hchar
      have hlt : j < w.length := Nat.lt_of_le_of_ne hj fun he => hchar (he ▸ h.nul)
      rcases List.mem_cons.1 hk with rfl | hk
      · omega
      · have := ih hlt hk
        omega

/-- `kstrcat` writes the two strings and a NUL, however long they are. -/
theorem kstrcatLog_store (h1 : Spells st1 w1) (h2 : Spells st2 w2) (hf1 : w1.length < fuel) (hf2 : w2.length < fuel)
    (buffer : Nat → Byte) :
    (∀ k, .store k ∈ (kstrcatLog fuel st1 st2 buffer).log → k ≤ (w1 ++ w2).length) ∧
      .store (w1 ++ w2).length ∈ (kstrcatLog fuel st1 st2 buffer).log := by
  have hfirst : kstrcatFrom st1 fuel 0 0 buffer = some (overwrite 0 w1 buffer, w1.length) := by
    rw [kstrcatFrom_eq h1 w1.length fuel 0 0 (by omega) hf1, List.drop_zero, Nat.zero_add]
  have hsecond : kstrcatFrom st2 fuel w1.length 0 (overwrite 0 w1 buffer) =
      some (overwrite w1.length w2 (overwrite 0 w1 buffer), w1.length + w2.length) := by
    rw [kstrcatFrom_eq h2 w2.length fuel w1.length 0 (by omega) hf2, List.drop_zero]
  rw [List.length_append]
  simp only [kstrcatLog, kstrcatFromLog, Logged.mem_log_bind, Logged.log_touch, Logged.result_bind,
    Logged.result_touch, Logged.log_lift, Logged.result_lift, Logged.log_pure, Option.bind_some, hfirst, hsecond,
    Option.some.injEq, exists_eq_left', List.not_mem_nil, and_false, exists_false, or_false, List.mem_singleton,
    List.mem_map, Access.store.injEq, exists_eq_right, or_true, and_true]
  rintro k (hk | hk | hk)
  · have := le_of_mem_kstrcatStores h1 (Nat.zero_le _) hk
    omega
  · have := le_of_mem_kstrcatStores h2 (Nat.zero_le _) hk
    omega
  · exact Nat.le_of_eq hk

/-- `path_merge` up to the call of `cleanup_path`: what it writes, and what the buffer then holds. -/
structure Copied (x : Logged Access ((Nat → Byte) × (Nat → Byte))) (fuel : Nat) (tempPath : Nat → Byte) (w : List Byte)
    (es : List Access) (buffer' : Nat → Byte) : Prop where
  log : x.log = es ++ (cleanupPathLog fuel buffer' tempPath 100).log
  result : x.result = (cleanupPathLog fuel buffer' tempPath 100).result
  le : ∀ k, .store k ∈ es → k ≤ w.length
  reaches : ∃ k, .store k ∈ es ∧ min w.length 100 ≤ k
  spells : w.length < 100 → Spells buffer' w

theorem Copied.of_bind {copy : Logged Access (Nat → Byte)} {buffer' : Nat → Byte}
    (hresult : copy.result = some buffer') (hle : ∀ k, .store k ∈ copy.log → k ≤ w.length)
    (hreaches : ∃ k, .store k ∈ copy.log ∧ min w.length 100 ≤ k) (hspells : w.length < 100 → Spells buffer' w) :
    Copied (copy >>= fun buffer => cleanupPathLog fuel buffer tempPath 100) fuel tempPath w copy.log buffer' := by
  refine ⟨?_, ?_, hle, hreaches, hspells⟩
  · simp only [bind, hresult]
  · simp only [bind, hresult]

theorem copied_kstrcat (hne : ∀ c ∈ w, c ≠ 0) (h1 : Spells st1 w1) (h2 : Spells st2 w2) (hw : w1 ++ w2 = w)
    (hf1 : w1.length < fuel) (hf2 : w2.length < fuel) (buffer : Nat → Byte) :
    ∃ es buffer', Copied (kstrcatLog fuel st1 st2 buffer >>= fun buffer => cleanupPathLog fuel buffer tempPath 100) fuel
      tempPath w es buffer' := by
  obtain ⟨hle, hend⟩ := kstrcatLog_store h1 h2 hf1 hf2 buffer
  rw [hw] at hle hend
  have hresult := kstrcatLog_result fuel st1 st2 buffer
  rw [kstrcat_eq h1 h2 hf1 hf2, hw] at hresult
  exact ⟨_, _, .of_bind hresult hle ⟨_, hend, Nat.min_le_left ..⟩ fun _ => spells_overwrite hne⟩

/-- All three branches. -/
theorem pathMergeLog_copied (hb : Spells base wb) (hr : Spells relative wr) (hw : merged wb wr = w)
    (hf : wb.length + wr.length + 20 ≤ fuel) (buffer tempPath : Nat → Byte) :
    ∃ es buffer', Copied (pathMergeLog fuel base relative buffer tempPath 100) fuel tempPath w es buffer' := by
  have hne := hw ▸ merged_ne_zero hb.ne_zero hr.ne_zero
  obtain ⟨d, hd, hd1⟩ := kstrstartswith_iff hr spells_slash (show _ < fuel by simp; omega)
  obtain ⟨d', hd', hd1'⟩ := kstrstartswith_iff hr spells_here (show _ < fuel by simp; omega)
  unfold merged at hw
  rw [pathMergeLog, hd, Logged.lift_some_bind]
  by_cases habs : [slash] <+: wr
  · rw [if_pos habs] at hw
    subst hw
    rw [if_pos (hd1.2 habs)]
    have hstores : kstrcpyStores relative 100 101 0 = List.range (min wr.length 100 + 1) := hr.kstrcpyStores 100
    refine ⟨_, _, .of_bind rfl (fun k hk => ?_) ⟨min wr.length 100, ?_, Nat.le_refl _⟩ fun hlen => ?_⟩
    · obtain ⟨i, hi, hik⟩ : ∃ i ∈ kstrcpyStores relative 100 101 0, Access.store (0 + i) = .store k := by
        simpa [kstrcpyLog] using hk
      cases hik
      rw [hstores, List.mem_range] at hi
      omega
    · have hlast : min wr.length 100 ∈ kstrcpyStores relative 100 101 0 := by
        rw [hstores]
        exact List.self_mem_range_succ
      simpa [kstrcpyLog] using hlast
    · rw [hr.kstrcpy (by omega)]
      exact spells_overwrite hr.ne_zero
  · rw [if_neg habs] at hw
    rw [if_neg fun h => habs (hd1.1 h), hd', Logged.lift_some_bind]
    by_cases hdot : [dot, slash] <+: wr
    · rw [if_pos hdot] at hw
      rw [if_pos (hd1'.2 hdot)]
      exact copied_kstrcat hne hb (spells_shift hr hdot.length_le) hw (by omega) (by simp; omega) buffer
    · rw [if_neg hdot] at hw
      rw [if_neg fun h => hdot (hd1'.1 h)]
      exact copied_kstrcat hne hb hr hw (by omega) (by omega) buffer

end copies

/-! ## Writing the components back -/

section cleanup
variable {buffer tempPath : Nat → Byte} {parts : Parts} {w : List Byte} {fuel i k : Nat}

theorem joinPartsLog_store : ∀ (todo done : List (List Byte)) (fuel i : Nat) (buffer : Nat → Byte),
    PartsTo tempPath parts (done ++ todo) → .store k ∈ (joinPartsLog tempPath parts fuel done.length i buffer).log →
    k < i + (todo.flatMap (· ++ [slash])).length
  | _, _, 0, _, _, _, h => by cases h
  | [], done, fuel + 1, i, buffer, hto, h => by
    rw [List.append_nil] at hto
    have hlen := hto.length_le
    rw [joinPartsLog, if_pos (show done.length < 15 by omega)] at h
    simp [hto.apply_nil] at h
  | part :: todo, done, fuel + 1, i, buffer, hto, h => by
    have hlen := hto.length_le
    simp only [List.length_append, List.length_cons] at hlen
    obtain ⟨p, hp, hspell⟩ := hto.apply_cons
    rw [List.flatMap_cons, List.length_append, List.length_append, List.length_singleton]
    rw [joinPartsLog, if_pos (show done.length < 15 by omega)] at h
    simp only [hp] at h
    rcases Logged.mem_log_bind.1 h with h | ⟨-, -, h⟩
    · simp at h
    rcases Logged.mem_log_bind.1 h with h | ⟨l, hl, h⟩
    · cases h
    obtain ⟨u, hu, rfl⟩ := exists_spells_of_kstrlen hl
    obtain rfl := hu.unique hspell
    rcases Logged.mem_log_bind.1 h with h | ⟨copy, -, h⟩
    · obtain ⟨j, hj, hjk⟩ : ∃ j ∈ kstrcpyStores (shift p tempPath) u.length (u.length + 1) 0,
          Access.store (i + j) = .store k := by simpa [kstrcpyLog] using h
      cases hjk
      rw [hspell.kstrcpyStores, List.mem_range] at hj
      omega
    rcases Logged.mem_log_bind.1 h with h | ⟨-, -, h⟩
    · obtain rfl : k = i + u.length := by simpa using h
      omega
    · have hrest := joinPartsLog_store todo (done ++ [u]) fuel (i + u.length + 1) _ (by simpa using hto)
        (by simpa using h)
      omega

/-- `cleanup_path` writes up to the NUL behind the normal form. -/
theorem cleanupPathLog_store (h : Spells buffer w) (hlen : w.length < 100) (hcount : w.count slash ≤ 13)
    (hroot : w ≠ [slash]) (hf : w.length + 20 ≤ fuel) (tempPath : Nat → Byte) :
    (∀ k, .store k ∈ (cleanupPathLog fuel buffer tempPath 100).log → k ≤ (absolute (normalParts w)).length) ∧
      .store (absolute (normalParts w)).length ∈ (cleanupPathLog fuel buffer tempPath 100).log := by
  obtain ⟨d, hd, hd0⟩ := kstrcmp_slash h hroot (show w.length < fuel by omega) (by omega)
  obtain ⟨temp', parts, hsplit, hparts⟩ := splitParts_parts h hlen (by omega) tempPath
  have hto := hparts.partsTo (by rw [length_splitOn]; omega)
  obtain ⟨parts', hfold, hto'⟩ := foldParts_normal hto hf
  have hwords := congrArg List.length (slash_cons_flatMap (normalParts w))
  rw [List.length_cons, List.length_append, List.length_singleton] at hwords
  have hjoin := joinParts_spec (m := w.length + 2) (normalParts w) [] fuel 1 (Function.update buffer 0 slash) hto'
    (fun part hpart => Nat.le_add_right_of_le (length_le_of_mem_splitOn (mem_of_mem_normalParts hpart)))
    (by have := hto'.length_le; omega)
  refine ⟨fun k hk => ?_, ?_⟩
  · rcases (mem_cleanupPathLog hd hd0).1 hk with hk | hk | ⟨temp₁, parts₁, hsplit₁, hk⟩
    · simp at hk
    · rw [splitPartsLog_cleanup h hlen] at hk
      simp at hk
    · obtain ⟨rfl, rfl⟩ := Prod.mk.inj (Option.some.inj (hsplit₁.symm.trans hsplit))
      rcases hk with hk | ⟨parts₂, hfold₂, hk | hk | ⟨buffer', i, hjoin₂, hk⟩⟩
      · obtain ⟨j, -, hj⟩ := foldPartsLog_mem hk
        cases hj
      · cases hk
        exact Nat.zero_le _
      · obtain rfl := Option.some.inj (hfold₂.symm.trans hfold)
        have := joinPartsLog_store (normalParts w) [] fuel 1 _ hto' hk
        omega
      · obtain rfl := Option.some.inj (hfold₂.symm.trans hfold)
        obtain ⟨-, rfl⟩ := Prod.mk.inj (Option.some.inj (hjoin₂.symm.trans hjoin))
        cases hk
        omega
  · refine (mem_cleanupPathLog hd hd0).2 (.inr (.inr ⟨temp', parts, hsplit, .inr ⟨parts', hfold, .inr (.inr
      ⟨_, _, hjoin, ?_⟩)⟩⟩))
    congr 1
    omega

/-- A path spelled `/` is left alone. -/
theorem cleanupPathLog_root (h : Spells buffer [slash]) (hf : 1 < fuel) :
    (cleanupPathLog fuel buffer tempPath 100).log = [] := by
  obtain ⟨d, hd, hd0⟩ := h.kstrcmp spells_slash (show [slash].length < fuel from hf) hf
  rw [cleanupPathLog, hd, Logged.lift_some_bind, if_pos (hd0.2 rfl)]
  rfl

end cleanup

/-! ## What stays within the buffer -/

/-- `abspath[l] = '/'; abspath[l+1] = '\0'` (systemcall.c:130-132). -/
def appendSlashLog (fuel : Nat) (r : (Nat → Byte) × (Nat → Byte)) : Logged Access ((Nat → Byte) × (Nat → Byte)) := do
  let l ← .lift (kstrlen fuel r.1)
  .touch [.store l, .store (l + 1)]
  pure (Function.update (Function.update r.1 l slash) (l + 1) 0, r.2)

/-- The same unless a slash is there (systemcall.c:159-163). -/
def appendMissingSlashLog (before : Byte) (fuel : Nat) (r : (Nat → Byte) × (Nat → Byte)) :
    Logged Access ((Nat → Byte) × (Nat → Byte)) := do
  let l ← .lift (kstrlen fuel r.1)
  if (if l = 0 then before else r.1 (l - 1)) ≠ slash then do
    .touch [.store l, .store (l + 1)]
    pure (Function.update (Function.update r.1 l slash) (l + 1) 0, r.2)
  else pure r

/-- `do_chdir` up to its lookup (systemcall.c:129-132). -/
def chdirPathLog (fuel : Nat) (wd dirname abspath tempPath : Nat → Byte) :
    Logged Access ((Nat → Byte) × (Nat → Byte)) :=
  pathMergeLog fuel wd dirname abspath tempPath 100 >>= appendSlashLog fuel

/-- `do_open` of a directory up to its lookup (systemcall.c:152, :159-163). -/
def openPathLog (fuel : Nat) (before : Byte) (wd path abspath tempPath : Nat → Byte) :
    Logged Access ((Nat → Byte) × (Nat → Byte)) :=
  pathMergeLog fuel wd path abspath tempPath 100 >>= appendMissingSlashLog before fuel

theorem doChdir_log (t : Tarfs) (fuel : Nat) (g : PathBuf) (dirname : Nat → Byte) (proc : Pcb) :
    doChdir t fuel g dirname proc =
      (chdirPathLog fuel proc.wd dirname g.abspath g.tempPath).result.bind (fun r => do
        let d ← kstrcmp fuel r.1 (cString "/")
        let found ← if d = 0 then some 1 else t.searchForDir fuel r.1
        if found ≠ 0 then some ({ g with abspath := r.1, tempPath := r.2 }, proc.changeWd r.1, 0)
        else some ({ g with abspath := r.1, tempPath := r.2 }, some proc, 1)) := by
  rw [chdirPathLog, Logged.result_bind, pathMergeLog_result, doChdir]
  cases pathMerge fuel proc.wd dirname g.abspath g.tempPath 100 with
  | none => rfl
  | some r => cases hl : kstrlen fuel r.1 <;> simp [appendSlashLog, hl]

theorem doOpen_log (t : Tarfs) (fuel : Nat) (g : PathBuf) (path : Nat → Byte) (proc : Pcb) :
    doOpen t fuel g path oDirectory proc =
      (openPathLog fuel g.before proc.wd path g.abspath g.tempPath).result.bind fun r =>
        openDirectory t fuel { g with abspath := r.1, tempPath := r.2 } proc := by
  rw [openPathLog, Logged.result_bind, pathMergeLog_result, doOpen]
  cases pathMerge fuel proc.wd path g.abspath g.tempPath 100 with
  | none => rfl
  | some r =>
    cases hl : kstrlen fuel r.1 with
    | none => simp [appendMissingSlashLog, hl, oDirectory, oRdonly]
    | some l =>
      by_cases hs : (if l = 0 then g.before else r.1 (l - 1)) = slash
      · simp [appendMissingSlashLog, hl, hs, oDirectory, oRdonly]
      · simp [appendMissingSlashLog, hl, hs, oDirectory, oRdonly]

/-- The call returns, with every byte it writes to the buffer among the 100 and a NUL there. -/
def InBuffer (x : Nat → Logged Access ((Nat → Byte) × (Nat → Byte))) : Prop :=
  ∃ abspath tempPath n, (∀ fuel, n ≤ fuel → (x fuel).result = some (abspath, tempPath) ∧
    ∀ i, .store i ∈ (x fuel).log → i < 100) ∧ ∃ l < 100, abspath l = 0

/-- The text fits, has no more components than `parts` has room for, and the plain ones leave room behind them. -/
structure PathFits (w : List Byte) (room : Nat) : Prop where
  length_lt : w.length < 100
  slashes : w.count slash ≤ 13
  plain : plainBytes w ≤ room

section buffer
variable {base relative buffer tempPath : Nat → Byte} {w wb wr : List Byte} {fuel : Nat}

/-- A call that returns has put the text together and the components back. -/
theorem pathMergeLog_fits (hb : Spells base wb) (hr : Spells relative wr) (hw : merged wb wr = w)
    {r : (Nat → Byte) × (Nat → Byte)} (hf : wb.length + wr.length + 20 ≤ fuel)
    (hres : (pathMergeLog fuel base relative buffer tempPath 100).result = some r)
    (hlog : ∀ i, .store i ∈ (pathMergeLog fuel base relative buffer tempPath 100).log → i < 100) :
    w.length < 100 ∧ w.count slash ≤ 13 := by
  obtain ⟨es, buffer', hcopy⟩ := pathMergeLog_copied hb hr hw hf buffer tempPath
  have hlen : w.length < 100 := by
    obtain ⟨k, hk, hle⟩ := hcopy.reaches
    have := hlog k (hcopy.log ▸ List.mem_append_left _ hk)
    omega
  refine ⟨hlen, ?_⟩
  by_contra hmany
  rw [hcopy.result, cleanupPathLog_result, cleanupPath_none (hcopy.spells hlen) hlen (by omega)] at hres
  cases hres

theorem length_merged_le : (merged wb wr).length ≤ wb.length + wr.length := by
  unfold merged
  split
  · omega
  · split
    · rw [List.length_append, List.length_drop]
      omega
    · rw [List.length_append]

/-- What `path_merge` writes for a text that fits, and what it leaves. -/
theorem pathMergeLog_spec (hb : Spells base wb) (hr : Spells relative wr) (hw : merged wb wr = w)
    (hlen : w.length < 100) (hcount : w.count slash ≤ 13) (buffer tempPath : Nat → Byte) :
    ∃ abspath temp', Spells abspath (normalText w) ∧ ∀ fuel, wb.length + wr.length + 20 ≤ fuel →
      (pathMergeLog fuel base relative buffer tempPath 100).result = some (abspath, temp') ∧
      (∀ k, .store k ∈ (pathMergeLog fuel base relative buffer tempPath 100).log →
        k ≤ max w.length (normalText w).length) ∧
      (w ≠ [slash] → .store (normalText w).length ∈ (pathMergeLog fuel base relative buffer tempPath 100).log) := by
  have hne := hw ▸ merged_ne_zero hb.ne_zero hr.ne_zero
  obtain ⟨temp', hmerge⟩ := path_merge_normal hb hr hw hlen hcount buffer tempPath
  refine ⟨overwrite 0 (normalText w ++ [0]) (overwrite 0 (w ++ [0]) buffer), temp',
    spells_overwrite (normalText_ne_zero hne), fun fuel hf => ?_⟩
  have hwf : w.length ≤ wb.length + wr.length := hw ▸ length_merged_le
  obtain ⟨es, buffer', hcopy⟩ := pathMergeLog_copied hb hr hw hf buffer tempPath
  have hspell := hcopy.spells hlen
  rw [hcopy.log]
  by_cases hroot : w = [slash]
  · subst hroot
    refine ⟨(pathMergeLog_result ..).trans (hmerge fuel hf), fun k hk => ?_, fun h => absurd rfl h⟩
    rw [cleanupPathLog_root hspell (by omega), List.append_nil] at hk
    exact (hcopy.le k hk).trans (Nat.le_max_left ..)
  · obtain ⟨hle, hmem⟩ := cleanupPathLog_store hspell hlen hcount hroot (show w.length + 20 ≤ fuel by omega) tempPath
    rw [normalText, if_neg hroot]
    refine ⟨?_, fun k hk => ?_, fun _ => List.mem_append_right es hmem⟩
    · rw [pathMergeLog_result, hmerge fuel hf, normalText, if_neg hroot]
    · rcases List.mem_append.1 hk with hk | hk
      · exact (hcopy.le k hk).trans (Nat.le_max_left ..)
      · exact (hle k hk).trans (Nat.le_max_right ..)

theorem length_normalText_le_iff {m : Nat} (hlen : w.length < 100) (hm : 97 ≤ m) :
    (normalText w).length ≤ m ↔ plainBytes w ≤ m := by
  by_cases hroot : w = [slash]
  · have hzero : plainBytes [slash] = 0 := by decide
    rw [hroot, hzero]
    exact iff_of_true (show 1 ≤ m by omega) (Nat.zero_le m)
  · rw [normalText, if_neg hroot, length_normalParts_le_iff hlen hm]

/-- `path_merge` alone needs room for a NUL. -/
theorem inBuffer_pathMergeLog (hb : Spells base wb) (hr : Spells relative wr) (hw : merged wb wr = w)
    (buffer tempPath : Nat → Byte) :
    InBuffer (fun fuel => pathMergeLog fuel base relative buffer tempPath 100) ↔ PathFits w 99 := by
  constructor
  · rintro ⟨abspath, temp', n, hn, -⟩
    obtain ⟨hres, hlog⟩ := hn (max n (wb.length + wr.length + 20)) (Nat.le_max_left ..)
    obtain ⟨hlen, hcount⟩ := pathMergeLog_fits hb hr hw (Nat.le_max_right ..) hres hlog
    obtain ⟨_, _, -, hspec⟩ := pathMergeLog_spec hb hr hw hlen hcount buffer tempPath
    obtain ⟨-, -, hmem⟩ := hspec _ (Nat.le_max_right n _)
    refine ⟨hlen, hcount, (length_normalText_le_iff hlen (by decide)).1 ?_⟩
    by_cases hroot : w = [slash]
    · rw [hroot]
      decide
    · exact Nat.le_of_lt_succ (hlog _ (hmem hroot))
  · rintro ⟨hlen, hcount, hplain⟩
    have hshort := (length_normalText_le_iff hlen (by decide)).2 hplain
    obtain ⟨abspath, temp', hspell, hspec⟩ := pathMergeLog_spec hb hr hw hlen hcount buffer tempPath
    refine ⟨abspath, temp', _, fun fuel hf => ⟨(hspec fuel hf).1, fun i hi => ?_⟩, _, Nat.lt_succ_of_le hshort,
      hspell.nul⟩
    have := (hspec fuel hf).2.1 i hi
    omega

/-- Only the root keeps a slash at its end. -/
theorem eq_slash_of_getLast? (h : (normalText w).getLast? = some slash) : normalText w = [slash] := by
  unfold normalText at h ⊢
  split at h
  · rw [if_pos ‹_›]
  · exact absurd h getLast?_absolute_ne

/-- What a caller does behind the string: it writes a slash and a NUL, or nothing if there is a slash. -/
def Appends (f : Nat → (Nat → Byte) × (Nat → Byte) → Logged Access ((Nat → Byte) × (Nat → Byte))) : Prop :=
  ∀ abspath tempPath u, Spells abspath u → ∃ abspath', ∀ fuel, u.length < fuel →
    (f fuel (abspath, tempPath)).result = some (abspath', tempPath) ∧
    ((f fuel (abspath, tempPath)).log = [.store u.length, .store (u.length + 1)] ∧ abspath' (u.length + 1) = 0 ∨
      (u = [] ∨ u.getLast? = some slash) ∧ (f fuel (abspath, tempPath)).log = [] ∧ abspath' u.length = 0)

theorem inBuffer_append (hb : Spells base wb) (hr : Spells relative wr) (hw : merged wb wr = w)
    {f : Nat → (Nat → Byte) × (Nat → Byte) → Logged Access ((Nat → Byte) × (Nat → Byte))} (hf : Appends f)
    (buffer tempPath : Nat → Byte) :
    InBuffer (fun fuel => pathMergeLog fuel base relative buffer tempPath 100 >>= f fuel) ↔ PathFits w 98 := by
  constructor
  · rintro ⟨_, _, n, hn, -⟩
    obtain ⟨fuel, hfuel, hlarge, hnfuel⟩ : ∃ fuel, wb.length + wr.length + 20 ≤ fuel ∧ 200 ≤ fuel ∧ n ≤ fuel :=
      ⟨n + (wb.length + wr.length + 200), by omega, by omega, by omega⟩
    obtain ⟨hres, hlog⟩ := hn fuel hnfuel
    rw [Logged.result_bind] at hres
    obtain ⟨r, hr', -⟩ := Option.bind_eq_some_iff.1 hres
    obtain ⟨hlen, hcount⟩ := pathMergeLog_fits hb hr hw hfuel hr' fun i hi => hlog i (Logged.mem_log_bind.2 (.inl hi))
    obtain ⟨abspath, temp', hspell, hspec⟩ := pathMergeLog_spec hb hr hw hlen hcount buffer tempPath
    obtain ⟨hmerge, hle, hmem⟩ := hspec fuel hfuel
    refine ⟨hlen, hcount, (length_normalText_le_iff hlen (by decide)).1 ?_⟩
    obtain ⟨abspath', hf⟩ := hf abspath temp' _ hspell
    have hshort : (normalText w).length < 200 := by
      by_cases hroot : w = [slash]
      · rw [hroot]
        decide
      · exact (hlog _ (Logged.mem_log_bind.2 (.inl (hmem hroot)))).trans (by decide)
    obtain ⟨-, ⟨hwrites, -⟩ | ⟨hslash, -⟩⟩ := hf fuel (by omega)
    · have hlast := hlog ((normalText w).length + 1)
        (Logged.mem_log_bind.2 (.inr ⟨_, hmerge, hwrites ▸ List.mem_cons_of_mem _ (List.mem_singleton_self _)⟩))
      omega
    · rcases hslash with hnil | hlast
      · rw [hnil]
        decide
      · rw [eq_slash_of_getLast? hlast]
        decide
  · rintro ⟨hlen, hcount, hplain⟩
    have hshort := (length_normalText_le_iff hlen (by decide)).2 hplain
    obtain ⟨abspath, temp', hspell, hspec⟩ := pathMergeLog_spec hb hr hw hlen hcount buffer tempPath
    obtain ⟨abspath', hf⟩ := hf abspath temp' _ hspell
    refine ⟨abspath', temp', wb.length + wr.length + 200, fun fuel hfuel => ?_, ?_⟩
    · obtain ⟨hmerge, hle, -⟩ := hspec fuel (by omega)
      obtain ⟨hres, hend⟩ := hf fuel (by omega)
      refine ⟨by rw [Logged.result_bind, hmerge, Option.bind_some, hres], fun i hi => ?_⟩
      rcases Logged.mem_log_bind.1 hi with hi | ⟨r, hr', hi⟩
      · have := hle i hi
        omega
      · obtain rfl := Option.some.inj (hr'.symm.trans hmerge)
        rcases hend with ⟨hwrites, -⟩ | ⟨-, hwrites, -⟩
        · rw [hwrites] at hi
          simp at hi
          omega
        · rw [hwrites] at hi
          cases hi
    · obtain ⟨-, ⟨-, hnul⟩ | ⟨-, -, hnul⟩⟩ := hf _ (Nat.lt_succ_self _)
      · exact ⟨_, by omega, hnul⟩
      · exact ⟨_, by omega, hnul⟩

theorem appends_slash : Appends appendSlashLog := by
  intro abspath tempPath u hu
  refine ⟨Function.update (Function.update abspath u.length slash) (u.length + 1) 0, fun fuel hf => ?_⟩
  simp only [appendSlashLog, hu.kstrlen hf, Logged.lift_some_bind]
  exact ⟨rfl, .inl ⟨rfl, Function.update_self ..⟩⟩

theorem appends_missingSlash (before : Byte) : Appends (appendMissingSlashLog before) := by
  intro abspath tempPath u hu
  by_cases hslash : (if u.length = 0 then before else abspath (u.length - 1)) = slash
  · refine ⟨abspath, fun fuel hf => ?_⟩
    simp only [appendMissingSlashLog, hu.kstrlen hf, Logged.lift_some_bind, if_neg (not_not.2 hslash)]
    refine ⟨rfl, .inr ⟨?_, rfl, hu.nul⟩⟩
    by_cases hnil : u = []
    · exact .inl hnil
    · have hpos : 0 < u.length := List.length_pos_of_ne_nil hnil
      rw [if_neg (by omega), hu.chars _ (by omega)] at hslash
      rw [List.getLast?_eq_getElem?, List.getElem?_eq_getElem (by omega), hslash]
      exact .inr rfl
  · refine ⟨Function.update (Function.update abspath u.length slash) (u.length + 1) 0, fun fuel hf => ?_⟩
    simp only [appendMissingSlashLog, hu.kstrlen hf, Logged.lift_some_bind, if_pos (show ¬_ = slash from hslash)]
    exact ⟨rfl, .inl ⟨rfl, Function.update_self ..⟩⟩

/-- **Merging stays within the buffer** for exactly these paths: `path_merge` itself, as `do_execve` and `do_open`
of a file call it, and with the slash that `do_chdir` and `do_open` of a directory append. -/
theorem path_merge_in_buffer (hb : Spells base wb) (hr : Spells relative wr) (buffer tempPath : Nat → Byte)
    (before : Byte) :
    (InBuffer (fun fuel => pathMergeLog fuel base relative buffer tempPath 100) ↔ PathFits (merged wb wr) 99) ∧
    (InBuffer (fun fuel => chdirPathLog fuel base relative buffer tempPath) ↔ PathFits (merged wb wr) 98) ∧
    (InBuffer (fun fuel => openPathLog fuel before base relative buffer tempPath) ↔ PathFits (merged wb wr) 98) :=
  ⟨inBuffer_pathMergeLog hb hr rfl buffer tempPath, inBuffer_append hb hr rfl appends_slash buffer tempPath,
    inBuffer_append hb hr rfl (appends_missingSlash before) buffer tempPath⟩

/-- `bin` from the root. -/
theorem path_merge_in_buffer_bin :
    InBuffer (fun fuel => chdirPathLog fuel (cString "/") (cString "bin") (fun _ => 0) fun _ => 0) := by
  have hbin : Spells (cString "bin") [0x62, 0x69, 0x6e] := spells_cString rfl (by decide)
  exact (path_merge_in_buffer spells_slash hbin (fun _ => 0) (fun _ => 0) 0).2.1.2
    ⟨by decide, by decide, by decide⟩

/-- A path of 100 bytes. -/
theorem path_merge_overruns : ¬∀ (base relative buffer tempPath : Nat → Byte) (before : Byte) (wb wr : List Byte),
    Spells base wb → wb.length < 50 → Spells relative wr →
    InBuffer (fun fuel => pathMergeLog fuel base relative buffer tempPath 100) ∧
    InBuffer (fun fuel => chdirPathLog fuel base relative buffer tempPath) ∧
    InBuffer (fun fuel => openPathLog fuel before base relative buffer tempPath) := by
  intro hall
  have hlong : Spells (overwrite 0 (slash :: List.replicate 99 0x61 ++ [0]) fun _ => 0)
      (slash :: List.replicate 99 0x61) :=
    spells_overwrite (List.forall_mem_cons.2 ⟨by decide, fun c hc => by rw [List.eq_of_mem_replicate hc]; decide⟩)
  obtain ⟨hmerge, -, -⟩ := hall _ _ (fun _ => 0) (fun _ => 0) 0 _ _ spells_slash (by decide) hlong
  have hfits := ((inBuffer_pathMergeLog spells_slash hlong rfl _ _).1 hmerge).length_lt
  exact absurd hfits (by decide)

end buffer

end Sbuos
