import Mathlib.Data.Finset.Card
import Mathlib.Data.List.Infix
import Sbuos.Lib.Radix
/-!
# The nodes missing on several paths

`absent child m r ps` are the places along the paths `ps` from `r` where there is no node. Paths share their
beginnings, so they are fewer than the nodes missing on each path together: `card_absent_cons` counts them path by
path, each in the memory in which those before it are complete.
-/
namespace Lib.Radix

variable {φ ι ε : Type} [DecidableEq ι] {child : ε → Option φ} {m m' : φ → ι → ε} {r f : φ} {p q t : List ι}
  {ps ts : List (List ι)}

def absent (child : ε → Option φ) (m : φ → ι → ε) (r : φ) (ps : List (List ι)) : Finset (List ι) :=
  (ps.flatMap List.inits).toFinset.filter fun q => (walk child m r q).isNone

theorem mem_absent : q ∈ absent child m r ps ↔ (∃ p ∈ ps, q <+: p) ∧ walk child m r q = none := by
  simp [absent, List.mem_inits]

theorem mem_absent_single : q ∈ absent child m r [p] ↔ q <+: p ∧ walk child m r q = none := by
  simp [mem_absent]

theorem card_inits (p : List ι) : p.inits.toFinset.card = p.length + 1 := by
  induction p with
  | nil => rfl
  | cons i p ih =>
    have hcons : (i :: p).inits.toFinset = insert [] (p.inits.toFinset.image (i :: ·)) := by
      ext q
      simp
    rw [hcons, Finset.card_insert_of_notMem (by simp), Finset.card_image_of_injective _ List.cons_injective, ih,
      List.length_cons]

/-- On one path they are as many as nodes are missing. -/
theorem card_absent_single : (absent child m f [p]).card = missing child m f p := by
  induction p generalizing f with
  | nil =>
    rw [missing, Finset.card_eq_zero, Finset.eq_empty_iff_forall_notMem]
    intro q hq
    obtain ⟨hpre, hw⟩ := mem_absent_single.1 hq
    rw [List.prefix_nil.1 hpre] at hw
    cases hw
  | cons i p ih =>
    rw [missing]
    cases hc : child (m f i) with
    | some g =>
      have himage : absent child m f [i :: p] = (absent child m g [p]).image (i :: ·) := by
        ext q
        rw [Finset.mem_image, mem_absent_single]
        constructor
        · rintro ⟨hpre, hw⟩
          rcases q with _ | ⟨j, q⟩
          · cases hw
          · obtain ⟨rfl, hq⟩ := List.cons_prefix_cons.1 hpre
            rw [walk_cons, hc, Option.bind_some] at hw
            exact ⟨q, mem_absent_single.2 ⟨hq, hw⟩, rfl⟩
        · rintro ⟨q, hq, rfl⟩
          obtain ⟨hpre, hw⟩ := mem_absent_single.1 hq
          exact ⟨List.cons_prefix_cons.2 ⟨rfl, hpre⟩, by rw [walk_cons, hc, Option.bind_some, hw]⟩
      rw [himage, Finset.card_image_of_injective _ List.cons_injective]
      exact ih
    | none =>
      have himage : absent child m f [i :: p] = p.inits.toFinset.image (i :: ·) := by
        ext q
        rw [Finset.mem_image, mem_absent_single]
        constructor
        · rintro ⟨hpre, hw⟩
          rcases q with _ | ⟨j, q⟩
          · cases hw
          · obtain ⟨rfl, hq⟩ := List.cons_prefix_cons.1 hpre
            exact ⟨q, List.mem_toFinset.2 ((List.mem_inits q p).2 hq), rfl⟩
        · rintro ⟨q, hq, rfl⟩
          have hpre := (List.mem_inits q p).1 (List.mem_toFinset.1 hq)
          exact ⟨List.cons_prefix_cons.2 ⟨rfl, hpre⟩, by rw [walk_cons, hc, Option.bind_none]⟩
      rw [himage, Finset.card_image_of_injective _ List.cons_injective, card_inits]

theorem missing_le_card_absent : missing child m r t ≤ (absent child m r (t :: ts)).card := by
  rw [← card_absent_single]
  refine Finset.card_le_card fun q hq => ?_
  obtain ⟨hpre, hw⟩ := mem_absent_single.1 hq
  exact mem_absent.2 ⟨⟨t, List.mem_cons_self, hpre⟩, hw⟩

/-- **Completing one path** takes the nodes missing on it, and leaves those that the others still lack. -/
theorem card_absent_cons (h : ∀ p ∈ ts, ∀ q, q <+: p →
    (walk child m' r q = none ↔ walk child m r q = none ∧ ¬ q <+: t)) :
    (absent child m r (t :: ts)).card = missing child m r t + (absent child m' r ts).card := by
  have hunion : absent child m r (t :: ts) = absent child m r [t] ∪ absent child m' r ts := by
    ext q
    rw [Finset.mem_union, mem_absent, mem_absent_single, mem_absent]
    constructor
    · rintro ⟨⟨p, hp, hpre⟩, hw⟩
      by_cases hq : q <+: t
      · exact .inl ⟨hq, hw⟩
      · rcases List.mem_cons.1 hp with rfl | hp
        · exact absurd hpre hq
        · exact .inr ⟨⟨p, hp, hpre⟩, (h p hp q hpre).2 ⟨hw, hq⟩⟩
    · rintro (⟨hpre, hw⟩ | ⟨⟨p, hp, hpre⟩, hw⟩)
      · exact ⟨⟨t, List.mem_cons_self, hpre⟩, hw⟩
      · exact ⟨⟨p, List.mem_cons_of_mem t hp, hpre⟩, ((h p hp q hpre).1 hw).1⟩
  have hdisj : Disjoint (absent child m r [t]) (absent child m' r ts) := by
    rw [Finset.disjoint_left]
    intro q hq hq'
    obtain ⟨⟨p, hp, hpre⟩, hw⟩ := mem_absent.1 hq'
    exact ((h p hp q hpre).1 hw).2 (mem_absent_single.1 hq).1
  rw [hunion, Finset.card_union_of_disjoint hdisj, card_absent_single]

end Lib.Radix
