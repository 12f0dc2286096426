import Mathlib.Logic.Function.Basic
import Mathlib.Data.List.Induction
/-!
# Walks through a memory of tables

A memory of tables maps a node and an index to an entry; `child` says which node an entry leads to, if
any. `walk` follows a path of indices from a node. What a store changes about the walks depends only on
the entries a walk reads: `walk_congr` is the one frame rule, and the others are instances of it.
-/
namespace Lib.Radix

variable {φ ι ε : Type} (child : ε → Option φ)

def walk (m : φ → ι → ε) : φ → List ι → Option φ
  | r, [] => some r
  | r, i :: p => (child (m r i)).bind fun f => walk m f p

variable {child} {m m' : φ → ι → ε} {r f g : φ} {p q : List ι} {i j : ι} {e : ε}

@[simp] theorem walk_nil : walk child m r [] = some r := rfl

theorem walk_cons : walk child m r (i :: p) = (child (m r i)).bind fun f => walk child m f p := rfl

theorem walk_append : walk child m r (p ++ q) = (walk child m r p).bind fun f => walk child m f q := by
  induction p generalizing r with
  | nil => rfl
  | cons i p ih =>
    rw [List.cons_append, walk_cons, walk_cons]
    cases child (m r i) with
    | none => rfl
    | some f => exact ih

theorem walk_snoc : walk child m r (p ++ [i]) = (walk child m r p).bind fun f => child (m f i) := by
  rw [walk_append]
  cases walk child m r p with
  | none => rfl
  | some f => simp [walk_cons]

theorem walk_append_cons : walk child m r (p ++ i :: q) =
    (walk child m r p).bind fun f => (child (m f i)).bind fun g => walk child m g q := walk_append

/-- Every prefix of a walk that arrives is one that arrives. -/
theorem exists_walk_prefix (h : walk child m r (p ++ q) = some f) :
    ∃ g, walk child m r p = some g ∧ walk child m g q = some f := by
  rw [walk_append] at h
  exact Option.bind_eq_some_iff.1 h

/-- **Frame rule**: a walk depends on the entries it reads. -/
theorem walk_congr (h : ∀ q i f, q ++ [i] <+: p → walk child m r q = some f → child (m' f i) = child (m f i)) :
    walk child m' r p = walk child m r p := by
  induction p using List.reverseRecOn with
  | nil => rfl
  | append_singleton p i ih =>
    have hp : walk child m' r p = walk child m r p := ih fun q j f hq hw =>
      h q j f (hq.trans (List.prefix_append p [i])) hw
    rw [walk_snoc, walk_snoc, hp]
    cases hw : walk child m r p with
    | none => rfl
    | some f => simpa using h p i f (List.prefix_refl _) hw

/-- Where a walk that does not arrive breaks off. -/
theorem exists_break (h : walk child m r p = none) :
    ∃ q j u f, p = q ++ j :: u ∧ walk child m r q = some f ∧ child (m f j) = none := by
  induction p generalizing r with
  | nil => cases h
  | cons i p ih =>
    rw [walk_cons] at h
    cases hc : child (m r i) with
    | none => exact ⟨[], i, p, r, rfl, rfl, hc⟩
    | some g =>
      rw [hc, Option.bind_some] at h
      obtain ⟨q, j, u, f, rfl, hq, hj⟩ := ih h
      exact ⟨i :: q, j, u, f, rfl, by rw [walk_cons, hc, Option.bind_some, hq], hj⟩

/-- Around a loop of one node. -/
theorem walk_replicate (h : child (m r i) = some r) (n : Nat) : walk child m r (List.replicate n i) = some r := by
  induction n with
  | zero => rfl
  | succ n ih => rw [List.replicate_succ, walk_cons, h, Option.bind_some, ih]

/-! ## How far a node leads -/

/-- Some path of `k` indices from the node arrives. -/
def Leads (child : ε → Option φ) (m : φ → ι → ε) (k : Nat) (g : φ) : Prop :=
  ∃ u : List ι, u.length = k ∧ ∃ f, walk child m g u = some f

theorem leads_zero : Leads child m 0 g := ⟨[], rfl, g, rfl⟩

theorem leads_succ {k : Nat} : Leads child m (k + 1) g ↔ ∃ i f, child (m g i) = some f ∧ Leads child m k f := by
  constructor
  · rintro ⟨u, hu, f, hf⟩
    obtain ⟨i, u, rfl⟩ := List.exists_cons_of_length_eq_add_one hu
    obtain ⟨g', hg', hw⟩ := Option.bind_eq_some_iff.1 hf
    exact ⟨i, g', hg', u, by simpa using hu, f, hw⟩
  · rintro ⟨i, f, hf, u, hu, z, hz⟩
    exact ⟨i :: u, by rw [List.length_cons, hu], z, by rw [walk_cons, hf, Option.bind_some, hz]⟩

theorem leads_of_loop (h : child (m r i) = some r) (k : Nat) : Leads child m k r :=
  ⟨List.replicate k i, List.length_replicate, r, walk_replicate h k⟩

/-- A node with a link to one that leads everywhere does so too. -/
theorem leads_of_link (h : child (m g i) = some r) (hr : ∀ k, Leads child m k r) (k : Nat) : Leads child m k g := by
  cases k with
  | zero => exact leads_zero
  | succ k => exact leads_succ.2 ⟨i, r, h, hr k⟩

/-- Memories whose links agree but for nodes that lead everywhere in both. -/
theorem leads_congr {ε' : Type} {child' : ε' → Option φ} {m' : φ → ι → ε'}
    (h : ∀ g, (∀ i, child (m g i) = child' (m' g i)) ∨ ∀ k, Leads child m k g ∧ Leads child' m' k g) (k : Nat) (g : φ) :
    Leads child m k g ↔ Leads child' m' k g := by
  induction k generalizing g with
  | zero => exact iff_of_true leads_zero leads_zero
  | succ k ih =>
    rcases h g with heq | hall
    · simp only [leads_succ, heq, ih]
    · exact iff_of_true (hall (k + 1)).1 (hall (k + 1)).2

section store
variable [DecidableEq φ]

/-- A change inside a node that the walk does not pass through. -/
theorem walk_update_of_avoids {t : ι → ε} (h : ∀ q i, q ++ [i] <+: p → walk child m r q ≠ some f) :
    walk child (Function.update m f t) r p = walk child m r p :=
  walk_congr fun q i g hq hw => by
    rw [Function.update_of_ne]
    rintro rfl
    exact h q i hq hw

/-- Storing the same entry everywhere in a node. -/
def fill (m : φ → ι → ε) (f : φ) (e : ε) : φ → ι → ε := Function.update m f fun _ => e

@[simp] theorem fill_self : fill m f e f i = e := by simp [fill]

theorem fill_of_ne (h : g ≠ f) : fill m f e g = m g := by simp [fill, h]

theorem walk_fill_of_avoids (h : ∀ q i, q ++ [i] <+: p → walk child m r q ≠ some f) :
    walk child (fill m f e) r p = walk child m r p := walk_update_of_avoids h

variable [DecidableEq ι]

/-- Storing one entry. -/
def set (m : φ → ι → ε) (f : φ) (i : ι) (e : ε) : φ → ι → ε :=
  Function.update m f (Function.update (m f) i e)

@[simp] theorem set_self : set m f i e f i = e := by simp [set]

theorem set_of_ne_index (h : j ≠ i) : set m f i e f j = m f j := by simp [set, h]

theorem set_of_ne (h : g ≠ f) : set m f i e g = m g := by simp [set, h]

theorem set_apply : set m f i e g j = if g = f ∧ j = i then e else m g j := by
  by_cases hg : g = f
  · subst hg
    by_cases hj : j = i
    · subst hj; simp
    · simp [set_of_ne_index hj, hj]
  · simp [set_of_ne hg, hg]

@[simp] theorem set_set {e' : ε} : set (set m f i e) f i e' = set m f i e' := by simp [set]

theorem walk_set_of_avoids (h : ∀ q i, q ++ [i] <+: p → walk child m r q ≠ some f) :
    walk child (set m f i e) r p = walk child m r p := walk_update_of_avoids h

/-- A store that changes no link that a walk along `p` takes. -/
theorem walk_set_of_same_child
    (h : ∀ q, q ++ [i] <+: p → walk child m r q = some f → child e = child (m f i)) :
    walk child (set m f i e) r p = walk child m r p := by
  refine walk_congr fun q j g hq hw => ?_
  rw [set_apply]
  split
  · rename_i heq
    obtain ⟨rfl, rfl⟩ := heq
    exact h q hq hw
  · rfl

/-- An entry that leads nowhere is on no walk that arrives. -/
theorem walk_set_of_none (hc : child (m f i) = none) (hw : walk child m r p = some g) :
    walk child (set m f i e) r p = some g := by
  rw [← hw]
  refine walk_set_of_same_child fun q hq hf => ?_
  obtain ⟨s, rfl⟩ := hq
  have hstep : walk child m r (q ++ [i]) = none := by rw [walk_snoc, hf, Option.bind_some, hc]
  rw [walk_append, hstep] at hw
  cases hw

end store

/-! ## Forests

`P r p` says which roots and paths are in use; it is closed under prefixes. In a forest no two of them
lead to one node, so a store below one path is seen by no other. -/

/-- No two paths in use lead to one node. -/
def Forest (child : ε → Option φ) (m : φ → ι → ε) (P : φ → List ι → Prop) : Prop :=
  ∀ r p s q f, P r p → P s q → walk child m r p = some f → walk child m s q = some f → r = s ∧ p = q

/-- `g` is on no path in use. -/
def Fresh (child : ε → Option φ) (m : φ → ι → ε) (P : φ → List ι → Prop) (g : φ) : Prop :=
  ∀ r p, P r p → walk child m r p ≠ some g

section forest
variable {P : φ → List ι → Prop} {s : φ}

/-- `m'` is `m` with the entry `i` of `f`, which led nowhere, linked to a node `g` that leads nowhere. -/
structure Grafted (child : ε → Option φ) (P : φ → List ι → Prop) (m : φ → ι → ε) (r : φ) (q : List ι)
    (f : φ) (i : ι) (g : φ) (m' : φ → ι → ε) : Prop where
  used : P r (q ++ [i])
  arrives : walk child m r q = some f
  unlinked : child (m f i) = none
  fresh : Fresh child m P g
  linked : child (m' f i) = some g
  frame : ∀ h j, h ≠ g → ¬(h = f ∧ j = i) → m' h j = m h j
  blank : ∀ j, P r (q ++ [i] ++ [j]) → child (m' g j) = none

/-- A graft adds the one path to `g` and no other. -/
theorem Grafted.walk_eq (hP : ∀ r p q, P r (p ++ q) → P r p) (hm : Forest child m P)
    (h : Grafted child P m r q f i g m') {p : List ι} (hp : P s p) (hne : ¬(s = r ∧ p = q ++ [i])) :
    walk child m' s p = walk child m s p := by
  by_cases hpre : s = r ∧ q ++ [i] <+: p
  · -- below the new entry there is nothing, before and after
    obtain ⟨rfl, t, rfl⟩ := hpre
    obtain ⟨j, t, rfl⟩ := List.exists_cons_of_ne_nil (l := t) (by rintro rfl; exact hne ⟨rfl, by simp⟩)
    have harr : walk child m' s q = some f := by
      rw [← h.arrives]
      refine walk_congr fun q' j' f' hq' hf' => ?_
      have hq'P : P s q' := by
        obtain ⟨u, hu⟩ := hq'
        refine hP s q' ([j'] ++ u ++ [i] ++ j :: t) ?_
        rw [← hu] at hp
        simpa using hp
      rw [h.frame f' j' (fun hg => h.fresh s q' hq'P (hg ▸ hf'))]
      rintro ⟨rfl, rfl⟩
      obtain ⟨u, hu⟩ := hq'
      have := h.arrives
      rw [← hu, walk_append, walk_snoc, hf', Option.bind_some, h.unlinked] at this
      cases this
    have hj : P s (q ++ [i] ++ [j]) := hP s _ t (by simpa using hp)
    have hnew : walk child m' s (q ++ [i]) = some g := by rw [walk_snoc, harr, Option.bind_some, h.linked]
    have hold : walk child m s (q ++ [i]) = none := by
      rw [walk_snoc, h.arrives, Option.bind_some, h.unlinked]
    rw [walk_append (p := q ++ [i]), hnew, walk_append (p := q ++ [i]), hold, Option.bind_some,
      Option.bind_none, walk_cons, h.blank j hj, Option.bind_none]
  · refine walk_congr fun q' j f' hq' hf' => ?_
    obtain ⟨u, rfl⟩ := hq'
    have hq'P : P s q' := hP s q' ([j] ++ u) (by simpa using hp)
    rw [h.frame f' j fun hg => h.fresh s q' hq'P (hg ▸ hf')]
    rintro ⟨rfl, rfl⟩
    obtain ⟨rfl, rfl⟩ := hm s q' r q f' hq'P (hP r q [j] h.used) hf' h.arrives
    exact hpre ⟨rfl, u, rfl⟩

theorem Grafted.walk_new (hP : ∀ r p q, P r (p ++ q) → P r p) (hm : Forest child m P)
    (h : Grafted child P m r q f i g m') : walk child m' r (q ++ [i]) = some g := by
  have hq : walk child m' r q = some f := by
    rw [h.walk_eq hP hm (hP r q [i] h.used) (by simp), h.arrives]
  rw [walk_snoc, hq, Option.bind_some, h.linked]

/-- What was reached still is. -/
theorem Grafted.walk_mono (hP : ∀ r p q, P r (p ++ q) → P r p) (hm : Forest child m P)
    (h : Grafted child P m r q f i g m') {p : List ι} {f' : φ} (hp : P s p)
    (hw : walk child m s p = some f') : walk child m' s p = some f' := by
  rw [h.walk_eq hP hm hp, hw]
  rintro ⟨rfl, rfl⟩
  rw [walk_snoc, h.arrives, Option.bind_some, h.unlinked] at hw
  cases hw

theorem Grafted.forest (hP : ∀ r p q, P r (p ++ q) → P r p) (hm : Forest child m P)
    (h : Grafted child P m r q f i g m') : Forest child m' P := by
  have key : ∀ s p f', P s p → walk child m' s p = some f' →
      (s = r ∧ p = q ++ [i] ∧ f' = g) ∨ (f' ≠ g ∧ walk child m s p = some f') := by
    intro s p f' hp hw
    by_cases hsp : s = r ∧ p = q ++ [i]
    · obtain ⟨rfl, rfl⟩ := hsp
      rw [h.walk_new hP hm] at hw
      exact .inl ⟨rfl, rfl, (Option.some.inj hw).symm⟩
    · rw [h.walk_eq hP hm hp hsp] at hw
      exact .inr ⟨fun hg => h.fresh s p hp (hg ▸ hw), hw⟩
  intro s p s' p' f' hp hp' hw hw'
  rcases key s p f' hp hw with ⟨rfl, rfl, rfl⟩ | ⟨hg, hw⟩
  · rcases key s' p' f' hp' hw' with ⟨rfl, rfl, -⟩ | ⟨hg', -⟩
    · exact ⟨rfl, rfl⟩
    · exact absurd rfl hg'
  · rcases key s' p' f' hp' hw' with ⟨-, -, rfl⟩ | ⟨-, hw'⟩
    · exact absurd rfl hg
    · exact hm s p s' p' f' hp hp' hw hw'

/-- Another node that was on no path stays so. -/
theorem Grafted.fresh_of_ne (hP : ∀ r p q, P r (p ++ q) → P r p) (hm : Forest child m P)
    (h : Grafted child P m r q f i g m') {g' : φ} (hg' : Fresh child m P g') (hne : g' ≠ g) :
    Fresh child m' P g' := by
  intro s p hp hw
  by_cases hsp : s = r ∧ p = q ++ [i]
  · obtain ⟨rfl, rfl⟩ := hsp
    rw [h.walk_new hP hm] at hw
    exact hne (Option.some.inj hw).symm
  · rw [h.walk_eq hP hm hp hsp] at hw
    exact hg' s p hp hw

/-- `m'` is `m` with the nodes `gs` hung in, one below the other, where the path `t` from `r` broke off. -/
structure Extended (child : ε → Option φ) (P : φ → List ι → Prop) (m : φ → ι → ε) (r : φ) (t : List ι)
    (gs : List φ) (m' : φ → ι → ε) : Prop where
  forest : Forest child m' P
  arrives : ∃ f, walk child m' r t = some f
  mono : ∀ s p f, P s p → walk child m s p = some f → walk child m' s p = some f
  off : ∀ s p, P s p → ¬(s = r ∧ p <+: t) → walk child m' s p = walk child m s p
  taken : ∀ s p f, P s p → walk child m' s p = some f → walk child m s p = some f ∨ f ∈ gs
  contents : ∀ f j, f ∉ gs → m' f j ≠ m f j →
    child (m f j) = none ∧ ∃ p, p ++ [j] <+: t ∧ walk child m' r p = some f
  /-- The last new node is as it was. -/
  last : walk child m r t = none → ∃ hs g, gs = hs ++ [g] ∧ walk child m' r t = some g ∧ m' g = m g

namespace Extended

theorem refl (hm : Forest child m P) (h : walk child m r q = some f) : Extended child P m r q [] m where
  forest := hm
  arrives := ⟨f, h⟩
  mono _ _ _ _ hw := hw
  off _ _ _ _ := rfl
  taken _ _ _ _ hw := .inl hw
  contents _ _ _ hne := absurd rfl hne
  last hn := by rw [h] at hn; cases hn

/-- A frame on no path and not taken is on no path afterwards, and as it was. -/
theorem fresh {t : List ι} {gs : List φ} (h : Extended child P m r t gs m') (hg : Fresh child m P g) (hgs : g ∉ gs) :
    Fresh child m' P g := by
  intro s p hp hw
  rcases h.taken s p g hp hw with hw | hw
  · exact hg s p hp hw
  · exact hgs hw

/-- A node whose path goes no further keeps its contents. -/
theorem max_eq (hP : ∀ r p q, P r (p ++ q) → P r p) {t : List ι} {gs : List φ} (h : Extended child P m r t gs m')
    (ht : P r t) (hgs : ∀ g ∈ gs, Fresh child m P g) (hp : P s p) (hmax : ∀ j, ¬P s (p ++ [j]))
    (hw : walk child m s p = some f) : m' f = m f := by
  funext j
  by_contra hne
  have hfgs : f ∉ gs := fun hf => hgs f hf s p hp hw
  obtain ⟨-, q, ⟨u, hu⟩, hq⟩ := h.contents f j hfgs hne
  have hqj : P r (q ++ [j]) := hP r _ u (by rwa [hu])
  obtain ⟨rfl, rfl⟩ := h.forest s p r q f hp (hP r q [j] hqj) (h.mono s p f hp hw) hq
  exact hmax j hqj

end Extended

/-- One graft, and then the rest. -/
theorem Grafted.extended (hP : ∀ r p q, P r (p ++ q) → P r p) (hm : Forest child m P) {m₁ : φ → ι → ε}
    (h : Grafted child P m r q f i g m₁) {u : List ι} {gs : List φ} (ht : P r (q ++ [i] ++ u)) (hgs : g ∉ gs)
    (hfresh : ∀ g' ∈ gs, Fresh child m P g') (hblank : ∀ j v, u = j :: v → child (m₁ g j) = none)
    (hkeep : u = [] → m₁ g = m g) (hgs0 : u = [] → gs = [])
    (he : Extended child P m₁ r (q ++ [i] ++ u) gs m') : Extended child P m r (q ++ [i] ++ u) (g :: gs) m' := by
  have hq : P r q := hP r q [i] h.used
  have hnew : walk child m₁ r (q ++ [i]) = some g := h.walk_new hP hm
  refine ⟨he.forest, he.arrives, ?_, ?_, ?_, ?_, ?_⟩
  · intro s p f' hp hw
    exact he.mono s p f' hp (h.walk_mono hP hm hp hw)
  · intro s p hp hoff
    rw [he.off s p hp hoff, h.walk_eq hP hm hp]
    rintro ⟨rfl, rfl⟩
    exact hoff ⟨rfl, List.prefix_append _ _⟩
  · intro s p f' hp hw
    rcases he.taken s p f' hp hw with hw | hw
    · by_cases hsp : s = r ∧ p = q ++ [i]
      · obtain ⟨rfl, rfl⟩ := hsp
        rw [hnew] at hw
        exact .inr (by simp [Option.some.inj hw])
      · rw [h.walk_eq hP hm hp hsp] at hw
        exact .inl hw
    · exact .inr (List.mem_cons_of_mem _ hw)
  · intro f' j hf' hne
    rw [List.mem_cons, not_or] at hf'
    by_cases hfj : f' = f ∧ j = i
    · obtain ⟨rfl, rfl⟩ := hfj
      refine ⟨h.unlinked, q, List.prefix_append _ _, ?_⟩
      exact he.mono r q f' hq (h.walk_mono hP hm hq h.arrives)
    · have heq := h.frame f' j hf'.1 hfj
      rw [← heq] at hne ⊢
      exact he.contents f' j hf'.2 hne
  · intro hn
    rcases u with _ | ⟨j, v⟩
    · obtain rfl := hgs0 rfl
      refine ⟨[], g, rfl, ?_, ?_⟩
      · exact he.mono r _ g (by simpa using h.used) (by simpa using hnew)
      · funext j
        rw [← hkeep rfl]
        by_contra hne
        obtain ⟨-, p, ⟨w, hw⟩, hp⟩ := he.contents g j hgs hne
        have hpq : p ++ [j] <+: q ++ [i] := ⟨w, by simpa using hw⟩
        have hPp : P r p := hP r p ([j] ++ w) (by rw [← List.append_assoc, hw]; exact ht)
        have hg' := he.mono r (q ++ [i]) g h.used hnew
        obtain ⟨-, rfl⟩ := he.forest r p r (q ++ [i]) g hPp h.used hp hg'
        have hlen := hpq.length_le
        simp at hlen
    · have hn₁ : walk child m₁ r (q ++ [i] ++ j :: v) = none := by
        rw [walk_append, hnew, Option.bind_some, walk_cons, hblank j v rfl, Option.bind_none]
      obtain ⟨hs, g', rfl, hw, heq⟩ := he.last hn₁
      refine ⟨g :: hs, g', rfl, hw, heq.trans ?_⟩
      have hg' : g' ≠ g := by rintro rfl; exact hgs (by simp)
      funext k
      refine h.frame g' k hg' ?_
      rintro ⟨rfl, -⟩
      exact hfresh g' (by simp) r q hq h.arrives

end forest

/-! ## Following a path, with the missing nodes supplied -/

/-- How many nodes of a path from `f` are missing. -/
def missing (child : ε → Option φ) (m : φ → ι → ε) : φ → List ι → Nat
  | _, [] => 0
  | f, i :: p =>
    match child (m f i) with
    | some g => missing child m g p
    | none => p.length + 1

/-- The path `p` from `f`, with a node of `gs` hung in where one is missing; all but the last are blanked. -/
def descend [DecidableEq φ] [DecidableEq ι] (child : ε → Option φ) (entry : φ → ε) (zero : ε) :
    (φ → ι → ε) → φ → List ι → List φ → φ → ι → ε
  | m, _, [], _ => m
  | m, f, i :: p, gs =>
    match child (m f i) with
    | some g => descend child entry zero m g p gs
    | none =>
      match gs with
      | [] => m
      | g :: gs =>
        let m := set m f i (entry g)
        descend child entry zero (if p = [] then m else fill m g zero) g p gs

theorem missing_eq_zero : missing child m f p = 0 ↔ ∃ g, walk child m f p = some g := by
  induction p generalizing f with
  | nil => simp [missing]
  | cons i p ih =>
    rw [missing, walk_cons]
    cases child (m f i) with
    | none => simp
    | some g => exact ih

theorem missing_of_blank (h : ∀ i, child (m f i) = none) : missing child m f p = p.length := by
  cases p with
  | nil => rfl
  | cons i p => rw [missing, h i, List.length_cons]

theorem missing_le_length (f : φ) (p : List ι) : missing child m f p ≤ p.length := by
  induction p generalizing f with
  | nil => exact Nat.le_refl 0
  | cons i p ih =>
    rw [missing]
    split
    · exact Nat.le_succ_of_le (ih _)
    · exact Nat.le_refl _

section descend
variable [DecidableEq φ] [DecidableEq ι] {P : φ → List ι → Prop} {entry : φ → ε} {zero : ε}

/-- Hanging a blanked node in; a node at the end of all paths need not be blanked. -/
theorem grafted_set (hP : ∀ r p q, P r (p ++ q) → P r p) (hzero : child zero = none)
    (hentry : ∀ g, child (entry g) = some g) {u : List ι} (hu : P r (q ++ [i] ++ u))
    (hmax : ∀ j, ¬P r (q ++ [i] ++ u ++ [j])) (hw : walk child m r q = some f) (hc : child (m f i) = none)
    (hg : Fresh child m P g) :
    Grafted child P m r q f i g (if u = [] then set m f i (entry g) else fill (set m f i (entry g)) g zero) := by
  have hqi : P r (q ++ [i]) := hP r _ u hu
  have hfg : f ≠ g := by rintro rfl; exact hg r q (hP r q [i] hqi) hw
  refine ⟨hqi, hw, hc, hg, ?_, ?_, ?_⟩
  · split
    · rw [set_self, hentry]
    · rw [fill_of_ne hfg, set_self, hentry]
  · intro h j hhg hfi
    split
    · rw [set_apply, if_neg hfi]
    · rw [fill_of_ne hhg, set_apply, if_neg hfi]
  · intro j hj
    split
    case isTrue h => subst h; exact absurd (by simpa using hj) (hmax j)
    case isFalse => rw [fill_self, hzero]

theorem descend_extended (hP : ∀ r p q, P r (p ++ q) → P r p) (hzero : child zero = none)
    (hentry : ∀ g, child (entry g) = some g) (u : List ι) : ∀ (m : φ → ι → ε) (q : List ι) (f : φ) (gs : List φ),
      Forest child m P → walk child m r q = some f → P r (q ++ u) → (∀ j, ¬P r (q ++ u ++ [j])) → gs.Nodup →
      (∀ g ∈ gs, Fresh child m P g) → missing child m f u ≤ gs.length →
      Extended child P m r (q ++ u) (gs.take (missing child m f u)) (descend child entry zero m f u gs) := by
  induction u with
  | nil =>
    intro m q f gs hm hw _ _ _ _ _
    rw [List.append_nil]
    exact Extended.refl hm hw
  | cons i u ih =>
    intro m q f gs hm hw hu hmax hnd hfresh hlen
    have hsplit : q ++ i :: u = q ++ [i] ++ u := by simp
    rw [hsplit] at hu hmax ⊢
    cases hc : child (m f i) with
    | some g =>
      have hg : walk child m r (q ++ [i]) = some g := by rw [walk_snoc, hw, Option.bind_some, hc]
      simp only [missing, descend, hc] at hlen ⊢
      exact ih m (q ++ [i]) g gs hm hg hu hmax hnd hfresh hlen
    | none =>
      simp only [missing, descend, hc] at hlen ⊢
      obtain ⟨g, gs, rfl⟩ := List.exists_cons_of_ne_nil (l := gs) (by rintro rfl; simp at hlen)
      have hgs : g ∉ gs := (List.nodup_cons.1 hnd).1
      have hG := grafted_set hP hzero hentry hu hmax hw hc (hfresh g (by simp))
      generalize hm₁ : (if u = [] then set m f i (entry g) else fill (set m f i (entry g)) g zero) = m₁ at hG
      have hfresh₁ : ∀ g' ∈ gs, Fresh child m₁ P g' := fun g' hg' =>
        hG.fresh_of_ne hP hm (hfresh g' (List.mem_cons_of_mem g hg')) (by rintro rfl; exact hgs hg')
      have hblank : u ≠ [] → ∀ j, child (m₁ g j) = none := by
        intro hu' j
        rw [← hm₁, if_neg hu', fill_self, hzero]
      have hmiss : missing child m₁ g u = u.length := by
        rcases u with _ | ⟨j, v⟩
        · rfl
        · exact missing_of_blank (hblank (by simp))
      have he := ih m₁ (q ++ [i]) g gs (hG.forest hP hm) (hG.walk_new hP hm) hu hmax (List.nodup_cons.1 hnd).2
        hfresh₁ (by rw [hmiss]; simpa using hlen)
      rw [hmiss] at he
      simp only [hm₁, List.take_succ_cons]
      refine hG.extended hP hm hu (fun h => hgs (List.mem_of_mem_take h)) ?_ ?_ ?_ ?_ he
      · exact fun g' hg' => hfresh g' (List.mem_cons_of_mem g (List.mem_of_mem_take hg'))
      · rintro j v rfl
        exact hblank (by simp) j
      · rintro rfl
        have hfg : f ≠ g := by
          rintro rfl
          exact hfresh f (by simp) r q (hP r q [i] hG.used) hw
        rw [← hm₁, if_pos rfl, set_of_ne hfg.symm]
      · rintro rfl
        rfl

end descend

end Lib.Radix
