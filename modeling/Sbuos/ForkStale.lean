import Mathlib.Data.List.Zip
import Sbuos.AddressSpaces
/-!
# What the child of a fork maps besides (sys/memory_helpers.c:305-330)

`_do_mark_COW` fills a frame it has taken for a table of the child only where the parent's table has an entry; the
other slots hold what they held. `overlay` reads the memory before the fork with these frames in place.

**`fork_maps_nothing_extra`**: the child maps no page that the parent does not map exactly when no such slot leads
to a page.
-/
namespace Sbuos
open Lib

section stale
variable {m m' : PMem} {r c f g : Frame} {gs gs' : List Frame} {p q u : List Index} {i j x : Index} {k : Nat}

/-- The frame a fork takes for the table behind `q`: frames are taken in order. -/
def takenFor (m : PMem) (r : Frame) (gs : List Frame) (q : List Index) : Option Frame :=
  ((tablePaths m 3 [] r).zip gs).lookup q

/-- The table that the frame is taken for. -/
def takenAs (m : PMem) (r : Frame) (gs : List Frame) (g : Frame) : Option (List Index) :=
  (gs.zip (tablePaths m 3 [] r)).lookup g

/-- Where an entry leads when the frames taken have the parent's entries in place. -/
def overlay (m : PMem) (r : Frame) (gs : List Frame) (h : Frame) (x : Index) : Option Frame :=
  match takenAs m r gs h with
  | none => child (m h x)
  | some q =>
    if leaf m r q x = 0 then child (m h x)
    else if q.length < 3 then takenFor m r gs (q ++ [x])
    else child (leaf m r q x)

/-- No slot that stays as it was in a frame taken leads to a page. -/
def NoneStale (m : PMem) (r : Frame) (gs : List Frame) : Prop :=
  ∀ q g j h, (q, g) ∈ (tablePaths m 3 [] r).zip gs → leaf m r q j = 0 → child (m g j) = some h →
    ¬Radix.Leads id (overlay m r gs) (3 - q.length) h

/-- Each slot that stays as it was in a frame taken is zero. -/
def Unstale (m : PMem) (r : Frame) (gs : List Frame) : Prop :=
  ∀ q g j, (q, g) ∈ (tablePaths m 3 [] r).zip gs → leaf m r q j = 0 → m g j = 0

theorem leaf_of_walk (hf : walk m r q = some f) : leaf m r q x = m f x := by
  rw [leaf, pageEntry, hf, Option.map_some, Option.getD_some]

/-! ## The tables taken -/

namespace Marking
variable {τ : List Index → Frame} {fr : Frames}

theorem mapped_of_reached (hr : Reached (Mapped m r) (q ++ [i])) : Mapped m r q i :=
  not_not.1 fun hm => not_reached hm hr

/-- What the parent's walks reach has been done. -/
theorem reached_of_walk (hp : p.length ≤ 3) (hlow : Low p) (hf : walk m r p = some f) : Reached (Mapped m r) p := by
  cases p using List.reverseRecOn with
  | nil => exact .inl rfl
  | append_singleton p i =>
    rw [List.length_append, List.length_singleton] at hp
    rw [walk, Radix.walk_snoc] at hf
    obtain ⟨g, hg, hc⟩ := Option.bind_eq_some_iff.1 hf
    exact .inr ⟨p, i, rfl, hp, by omega, hlow, g, hg, (child_eq_some hc).1⟩

theorem walk_of_reached (ht : Tree m r) (hp : Reached (Mapped m r) p) : ∃ f, walk m r p = some f := by
  rcases hp with rfl | ⟨q, i, rfl, hq, hm⟩
  · exact ⟨r, rfl⟩
  · obtain ⟨-, -, f, hf, -⟩ := id hm
    obtain ⟨-, g, -, hg⟩ := hm.walk ht hq hf
    exact ⟨g, hg⟩

variable (ht : Tree m r) (h : Marking m r c (Mapped m r) τ gs' m' fr)
include ht h

theorem mem_tablePaths_below (k : Nat) : ∀ (q : List Index) (f : Frame), q.length + k = 3 → Reached (Mapped m r) q →
    walk m r q = some f →
    (p ∈ tablePaths m k q f ↔ q <+: p ∧ q.length < p.length ∧ Reached (Mapped m r) p) := by
  induction k with
  | zero =>
    intro q f hq _ _
    refine iff_of_false (by simp [tablePaths]) fun ⟨_, hlt, hp⟩ => ?_
    have hle := (h.reached_low hp).1
    omega
  | succ k ih =>
    intro q f hq hr hf
    -- the tables below one entry
    have hbelow : ∀ i, Mapped m r q i → (p ∈ tablePaths m k (q ++ [i]) (frameOf (m f i)) ↔
        q ++ [i] <+: p ∧ (q ++ [i]).length < p.length ∧ Reached (Mapped m r) p) := by
      intro i hm
      obtain ⟨-, g, hg, hwg⟩ := hm.walk ht (by omega) hf
      rw [(child_eq_some hg).2]
      exact ih (q ++ [i]) g (by simp; omega) (.inr ⟨q, i, rfl, by omega, hm⟩) hwg
    rw [tablePaths, List.mem_flatMap]
    constructor
    · rintro ⟨i, hi, hp⟩
      split at hp
      · cases hp
      · rename_i h0
        have hlow : Low (q ++ [i]) := by
          rcases q with _ | ⟨j, q⟩
          · intro i' hi'
            obtain rfl := Option.some.inj hi'
            exact mem_entries.1 hi (by simpa using hq)
          · exact (h.reached_low hr).2.concat (by simp) i
        have hm : Mapped m r q i := ⟨by omega, hlow, f, hf, h0⟩
        rcases List.mem_cons.1 hp with rfl | hp
        · exact ⟨List.prefix_append q [i], by simp, .inr ⟨q, i, rfl, by omega, hm⟩⟩
        · obtain ⟨hpre, hlt, hrp⟩ := (hbelow i hm).1 hp
          rw [List.length_append] at hlt
          exact ⟨(List.prefix_append q [i]).trans hpre, by omega, hrp⟩
    · rintro ⟨⟨u, rfl⟩, hlt, hp⟩
      obtain ⟨i, u, rfl⟩ := List.exists_cons_of_ne_nil (l := u) (by rintro rfl; simp at hlt)
      have hpre : q ++ [i] <+: q ++ i :: u := ⟨u, by simp⟩
      have hm : Mapped m r q i := mapped_of_reached (h.reached_prefix hpre hp)
      refine ⟨i, mem_entries.2 fun hk => ?_, ?_⟩
      · obtain rfl := List.length_eq_zero_iff.1 (show q.length = 0 by omega)
        exact hm.2.1 i rfl
      · rw [if_neg (hm.ne_zero hf), List.mem_cons]
        by_cases hu : u = []
        · exact .inl (by rw [hu])
        · have hpos := List.length_pos_iff.2 hu
          exact .inr ((hbelow i hm).2 ⟨hpre, by simp; omega, hp⟩)

theorem mem_tablePaths : p ∈ tablePaths m 3 [] r ↔ p ≠ [] ∧ Reached (Mapped m r) p := by
  rw [h.mem_tablePaths_below ht 3 [] r rfl (.inl rfl) rfl, List.length_nil, List.length_pos_iff]
  exact ⟨fun hp => hp.2, fun hp => ⟨List.nil_prefix, hp⟩⟩

end Marking

/-! ## The links of the child's tables -/

namespace Marking
variable {τ : List Index → Frame} {fr : Frames}

variable (ht : Tree m r) (h : Marking m r c (Mapped m r) τ gs' m' fr)
  (htaken : (tablePaths m 3 [] r).map τ = gs.take (tablesBelow m 3 r))
include htaken

/-- The frames taken are the child's tables. -/
theorem zip_taken : (tablePaths m 3 [] r).zip gs = (tablePaths m 3 [] r).map fun q => (q, τ q) := by
  have hsplit : gs = (tablePaths m 3 [] r).map τ ++ gs.drop (tablesBelow m 3 r) := by
    rw [htaken, List.take_append_drop]
  calc (tablePaths m 3 [] r).zip gs
      = (tablePaths m 3 [] r ++ []).zip ((tablePaths m 3 [] r).map τ ++ gs.drop (tablesBelow m 3 r)) := by
        rw [← hsplit, List.append_nil]
    _ = (tablePaths m 3 [] r).zip ((tablePaths m 3 [] r).map τ) := by
        rw [List.zip_append (by simp), List.zip_nil_left, List.append_nil]
    _ = (tablePaths m 3 [] r).map fun q => (q, τ q) := List.map_prod_left_eq_zip.symm

theorem zip_taken_swap : gs.zip (tablePaths m 3 [] r) = (tablePaths m 3 [] r).map fun q => (τ q, q) := by
  rw [← List.zip_swap, zip_taken htaken, List.map_map]
  rfl

theorem mem_zip_taken : (q, g) ∈ (tablePaths m 3 [] r).zip gs ↔ q ∈ tablePaths m 3 [] r ∧ τ q = g := by
  rw [zip_taken htaken, List.mem_map]
  constructor
  · rintro ⟨q', hq', e⟩
    obtain ⟨rfl, rfl⟩ := Prod.mk.inj e
    exact ⟨hq', rfl⟩
  · rintro ⟨hq, rfl⟩
    exact ⟨q, hq, rfl⟩

theorem takenFor_eq (hq : q ∈ tablePaths m 3 [] r) : takenFor m r gs q = some (τ q) := by
  rw [takenFor, zip_taken htaken]
  exact List.lookup_graph τ hq

theorem takenAs_none (hg : ∀ q ∈ tablePaths m 3 [] r, τ q ≠ g) : takenAs m r gs g = none := by
  rw [takenAs, zip_taken_swap htaken, List.lookup_eq_none_iff]
  intro e he
  obtain ⟨q, hq, rfl⟩ := List.mem_map.1 he
  exact bne_iff_ne.2 (hg q hq).symm

include ht h

theorem takenAs_eq (hq : q ∈ tablePaths m 3 [] r) : takenAs m r gs (τ q) = some q := by
  cases hl : takenAs m r gs (τ q) with
  | none =>
    rw [takenAs, zip_taken_swap htaken, List.lookup_eq_none_iff] at hl
    exact absurd rfl (bne_iff_ne.1 (hl (τ q, q) (List.mem_map.2 ⟨q, hq, rfl⟩)))
  | some q' =>
    rw [takenAs, zip_taken_swap htaken] at hl
    obtain ⟨l₁, l₂, hsplit, -⟩ := List.lookup_eq_some_iff.1 hl
    have hmem : (τ q, q') ∈ (tablePaths m 3 [] r).map fun q => (τ q, q) := by
      rw [hsplit]
      simp
    obtain ⟨a, ha, e⟩ := List.mem_map.1 hmem
    obtain ⟨hτ, rfl⟩ := Prod.mk.inj e
    rw [h.inj a q ((h.mem_tablePaths ht).1 ha).2 ((h.mem_tablePaths ht).1 hq).2 hτ]

/-- An entry that the parent's table does not have is zero in the child's. -/
theorem zero_of_unstale (hstale : Unstale m r gs) (hreach : Reached (Mapped m r) q) (hq : q ≠ [])
    (hlow : Low (q ++ [j])) (hd : ¬Mapped m r q j) : m (τ q) j = 0 := by
  obtain ⟨f, hf⟩ := walk_of_reached ht hreach
  refine hstale q (τ q) j ((mem_zip_taken htaken).2 ⟨(h.mem_tablePaths ht).2 ⟨hq, hreach⟩, rfl⟩) ?_
  rw [leaf_of_walk hf]
  by_contra hne
  exact hd ⟨(h.reached_low hreach).1, hlow, f, hf, hne⟩

/-- The child's tables and the parent's link as `overlay` says; the two PML4s aside. -/
theorem child_eq_overlay (hr : g ≠ r) (hc : g ≠ c) (x : Index) : child (m' g x) = overlay m r gs g x := by
  by_cases hq : ∃ q ∈ tablePaths m 3 [] r, τ q = g
  · obtain ⟨q, hq, rfl⟩ := hq
    obtain ⟨hne, hreach⟩ := (h.mem_tablePaths ht).1 hq
    obtain ⟨hlen, hlow⟩ := h.reached_low hreach
    obtain ⟨f, hf⟩ := walk_of_reached ht hreach
    rw [overlay, h.takenAs_eq ht htaken hq]
    simp only [leaf_of_walk hf]
    by_cases h0 : m f x = 0
    · rw [if_pos h0, h.rest q x hreach (fun hm => hm.ne_zero hf h0) fun e => hne e.1]
    · have hm : Mapped m r q x := ⟨hlen, hlow.concat hne x, f, hf, h0⟩
      rw [if_neg h0]
      by_cases hlt : q.length < 3
      · have hmem : q ++ [x] ∈ tablePaths m 3 [] r := (h.mem_tablePaths ht).2 ⟨by simp, .inr ⟨q, x, rfl, hlt, hm⟩⟩
        rw [if_pos hlt, h.link q x hm hlt, child_link, takenFor_eq htaken hmem]
      · rw [if_neg hlt, h.mark q x f hm (by omega) hf, child_cowEntry]
  · have hq' : ∀ q ∈ tablePaths m 3 [] r, τ q ≠ g := fun q hq' e => hq ⟨q, hq', e⟩
    rw [overlay, takenAs_none htaken hq']
    by_cases hp : ∃ p, Plain p ∧ walk m r p = some g
    · obtain ⟨p, hp, hw⟩ := hp
      have hne : ¬(p = [] ∧ x = 509) := by
        rintro ⟨rfl, -⟩
        exact hr (Option.some.inj hw).symm
      obtain ⟨hsame, hmarked⟩ := h.parent p g x hp hw hne
      by_cases hd : p.length = 3 ∧ Mapped m r p x
      · rw [hmarked hd.1 hd.2, child_cowEntry]
      · rw [hsame hd]
    · rw [h.same g (fun q hq e => ?_) fun p hp' hw => hp ⟨p, hp', hw⟩]
      by_cases hne : q = []
      · rw [hne, h.top] at e
        exact hc e.symm
      · exact hq' q ((h.mem_tablePaths ht).2 ⟨hne, hq⟩) e

/-- A node leads as far after the fork as `overlay` says. -/
theorem leads_overlay (hcr : takenAs m r gs r = none) (hcc : takenAs m r gs c = none)
    (hself : child (m c 510) = some c ∨ m c 510 = m r 510) (k : Nat) (g : Frame) :
    Radix.Leads child m' k g ↔ Radix.Leads id (overlay m r gs) k g := by
  have hr510 : child (m' r 510) = some r := h.selfMapped ht
  have hc510 : m' c 510 = m c 510 := by
    rw [← h.top]
    exact h.rest [] 510 (.inl rfl) (fun hm => absurd (hm.2.1 510 rfl) (by decide)) (by simp)
  refine Radix.leads_congr (fun g => ?_) k g
  have hroot : ∀ k, Radix.Leads child m' k r ∧ Radix.Leads id (overlay m r gs) k r := by
    refine fun k => ⟨Radix.leads_of_loop hr510 k, Radix.leads_of_loop (i := 510) ?_ k⟩
    rw [overlay, hcr]
    exact ht.self
  by_cases hr : g = r
  · rw [hr]
    exact .inr hroot
  · by_cases hc : g = c
    · have hover : overlay m r gs c 510 = child (m c 510) := by rw [overlay, hcc]
      subst hc
      rcases hself with hself | hself
      · exact .inr fun k => ⟨Radix.leads_of_loop (by rw [hc510, hself]) k,
          Radix.leads_of_loop (i := 510) (by rw [id, hover, hself]) k⟩
      · have hlink : child (m g 510) = some r := by rw [hself]; exact ht.self
        exact .inr fun k => ⟨Radix.leads_of_link (by rw [hc510, hlink]) (fun k => (hroot k).1) k,
          Radix.leads_of_link (i := 510) (by rw [id, hover, hlink]) (fun k => (hroot k).2) k⟩
    · exact .inl (h.child_eq_overlay ht htaken hr hc)

/-- A slot left as it was: the parent's walk through it breaks off, the child's goes on. -/
theorem walk_left (hmem : (q, g) ∈ (tablePaths m 3 [] r).zip gs) (h0 : leaf m r q j = 0) (u : List Index) :
    walk m r (q ++ j :: u) = none ∧
      walk m' c (q ++ j :: u) = (child (m g j)).bind fun h => walk m' h u := by
  obtain ⟨hq, rfl⟩ := (mem_zip_taken htaken).1 hmem
  obtain ⟨hne, hreach⟩ := (h.mem_tablePaths ht).1 hq
  obtain ⟨f, hf⟩ := walk_of_reached ht hreach
  rw [leaf_of_walk hf] at h0
  have hold : m' (τ q) j = m (τ q) j := h.rest q j hreach (fun hm => hm.ne_zero hf h0) fun e => hne e.1
  constructor
  · rw [walk, Radix.walk_append_cons, ← walk, hf, Option.bind_some, h0, child_zero, Option.bind_none]
  · rw [walk, Radix.walk_append_cons, ← walk, h.walk_child hreach, Option.bind_some, hold]

section pages
variable (hcr : takenAs m r gs r = none) (hcc : takenAs m r gs c = none)
  (hself : child (m c 510) = some c ∨ m c 510 = m r 510)
include hcr hcc hself

theorem noneStale_of_maps (hnone : ∀ p, p.length = 4 → Low p → walk m r p = none → walk m' c p = none) :
    NoneStale m r gs := by
  intro q g j h' hmem h0 hc' hl
  obtain ⟨hne, hreach⟩ := (h.mem_tablePaths ht).1 ((mem_zip_taken htaken).1 hmem).1
  obtain ⟨hlen, hlow⟩ := h.reached_low hreach
  obtain ⟨u, hu, z, hz⟩ := (h.leads_overlay ht htaken hcr hcc hself _ _).2 hl
  obtain ⟨hparent, hchild⟩ := h.walk_left ht htaken hmem h0 u
  have hlow' : Low (q ++ j :: u) := by
    obtain ⟨a, q, rfl⟩ := List.exists_cons_of_ne_nil hne
    exact hlow
  rw [hnone _ (by simp; omega) hlow' hparent, hc', Option.bind_some, walk, hz] at hchild
  cases hchild

theorem maps_of_noneStale (hcopy : ∀ i, i < 509 → m c i = m r i) (hstale : NoneStale m r gs) (hp : p.length = 4)
    (hlow : Low p) (hnone : walk m r p = none) : walk m' c p = none := by
  obtain ⟨q, j, u, f, rfl, hf : walk m r q = some f, hbreak⟩ := Radix.exists_break hnone
  rw [List.length_append, List.length_cons] at hp
  have hreach : Reached (Mapped m r) q := reached_of_walk (by omega) hlow.of_append hf
  have hj : Low (q ++ [j]) := Low.of_append (q := u) (by simpa using hlow)
  have hwalk : walk m' c (q ++ j :: u) = (child (m' (τ q) j)).bind fun g => walk m' g u := by
    rw [walk, Radix.walk_append_cons, ← walk, h.walk_child hreach, Option.bind_some]
  by_cases h0 : m f j = 0
  · by_cases hne : q = []
    · -- the PML4 is a copy
      subst hne
      obtain rfl := Option.some.inj hf
      rw [hwalk, h.rest [] j hreach (fun hm => hm.ne_zero hf h0) hj.ne, h.top, hcopy j (hj j rfl), h0, child_zero,
        Option.bind_none]
    · have hmem : (q, τ q) ∈ (tablePaths m 3 [] r).zip gs :=
        (mem_zip_taken htaken).2 ⟨(h.mem_tablePaths ht).2 ⟨hne, hreach⟩, rfl⟩
      have h0' : leaf m r q j = 0 := by rw [leaf_of_walk hf, h0]
      rw [(h.walk_left ht htaken hmem h0' u).2]
      by_contra hsome
      obtain ⟨z, hz⟩ := Option.ne_none_iff_exists'.1 hsome
      obtain ⟨h', hc', hz⟩ := Option.bind_eq_some_iff.1 hz
      exact hstale q (τ q) j h' hmem h0' hc'
        ((h.leads_overlay ht htaken hcr hcc hself _ _).1 ⟨u, by omega, z, hz⟩)
  · -- an entry of the parent's that leads nowhere is a page's
    have hm : Mapped m r q j := ⟨by omega, hj, f, hf, h0⟩
    by_cases hlt : q.length < 3
    · obtain ⟨-, g, hg, -⟩ := hm.walk ht hlt hf
      rw [hg] at hbreak
      cases hbreak
    · rw [hwalk, h.mark q j f hm (by omega) hf, child_cowEntry, hbreak, Option.bind_none]

end pages
end Marking

variable {s : Vm}

/-- `forkTables_eq`, with what the child maps. -/
theorem forkTables_maps (parentPml4 : Word) (htree : Tree s.mem s.root)
    (hchild : ∀ p, Plain p → walk s.mem s.root p ≠ some c) (hfree : s.frames.Free gs) (hnd : gs.Nodup)
    (hdisj : ∀ g ∈ gs, g ≠ c ∧ ∀ p, Plain p → walk s.mem s.root p ≠ some g)
    (hlen : tablesBelow s.mem 3 s.root ≤ gs.length)
    (hcopy : ∀ i, i < 509 → s.mem c i = s.mem s.root i)
    (hself : child (s.mem c 510) = some c ∨ s.mem c 510 = s.mem s.root 510) :
    ∃ s', s.forkTables Vm.write parentPml4 (baseOf c) = some s' ∧
      ((∀ p, p.length = 4 → Low p → walk s.mem s.root p = none → walk s'.mem c p = none) ↔
        NoneStale s.mem s.root gs) ∧
      ∀ q g j, (q, g) ∈ (tablePaths s.mem 3 [] s.root).zip gs → leaf s.mem s.root q j = 0 →
        walk s'.mem c (q ++ [j]) = child (s.mem g j) := by
  obtain ⟨m', fr', τ, hrun, h, htaken, -⟩ := forkTables_eq htree hchild hfree hnd hdisj hlen parentPml4
  have hτ : ∀ q ∈ tablePaths s.mem 3 [] s.root, τ q ∈ gs := fun q hq =>
    List.mem_of_mem_take (htaken ▸ List.mem_map_of_mem hq)
  have hplain : Plain [] := ⟨by simp, by simp, by simp⟩
  have hcr : takenAs s.mem s.root gs s.root = none :=
    Marking.takenAs_none htaken fun q hq e => (hdisj _ (hτ q hq)).2 [] hplain (by rw [e]; rfl)
  have hcc : takenAs s.mem s.root gs c = none := Marking.takenAs_none htaken fun q hq e => (hdisj _ (hτ q hq)).1 e
  refine ⟨_, hrun _ (storesOutside_write _ _), ⟨?_, ?_⟩, ?_⟩
  · exact h.noneStale_of_maps htree htaken hcr hcc hself
  · exact fun hstale p => h.maps_of_noneStale htree htaken hcr hcc hself hcopy hstale
  · intro q g j hmem h0
    rw [(h.walk_left htree htaken hmem h0 []).2]
    exact Option.bind_fun_some _

/-- **A forked child maps nothing extra exactly when nothing stale leads to a page.** From a tree of tables, a PML4
for the child that is a copy of the parent's but for its own slot 510, and enough free frames whatever they hold, the
fork returns. Every page below slot 509 that the parent does not map is then unmapped in the child if and only if no
slot for which the parent has no entry, in a frame taken, leads to a page through what it held. -/
theorem fork_maps_nothing_extra (parentPml4 : Word) (htree : Tree s.mem s.root)
    (hchild : ∀ p, Plain p → walk s.mem s.root p ≠ some c) (hfree : s.frames.Free gs) (hnd : gs.Nodup)
    (hdisj : ∀ g ∈ gs, g ≠ c ∧ ∀ p, Plain p → walk s.mem s.root p ≠ some g)
    (hlen : tablesBelow s.mem 3 s.root ≤ gs.length)
    (hcopy : ∀ i, i < 509 → s.mem c i = s.mem s.root i)
    (hself : child (s.mem c 510) = some c ∨ s.mem c 510 = s.mem s.root 510) :
    ∃ s', s.forkTables Vm.write parentPml4 (baseOf c) = some s' ∧
      ((∀ p, p.length = 4 → Low p → walk s.mem s.root p = none → walk s'.mem c p = none) ↔
        NoneStale s.mem s.root gs) := by
  obtain ⟨s', hrun, hiff, -⟩ := forkTables_maps parentPml4 htree hchild hfree hnd hdisj hlen hcopy hself
  exact ⟨s', hrun, hiff⟩

/-- A memory with the tables of the tree as they are. -/
theorem Tree.congr (ht : Tree m r) (hm : ∀ p f, Plain p → walk m r p = some f → m' f = m f) :
    Tree m' r ∧ ∀ p, Plain p → walk m' r p = walk m r p := by
  have hw : ∀ p, Plain p → walk m' r p = walk m r p := fun p hp =>
    Radix.walk_congr fun q i f hq hf => by
      obtain ⟨u, rfl⟩ := hq
      rw [hm q f hp.of_append.of_append hf]
  refine ⟨⟨?_, ?_, ?_⟩, hw⟩
  · rw [SelfMapped, hm [] r ⟨by simp, by simp, by simp⟩ rfl]
    exact ht.self
  · intro p i f hp hf
    rw [hw p hp.of_append] at hf
    rw [hm p f hp.of_append hf]
    exact ht.present p i f hp hf
  · rintro r' p r'' q f ⟨rfl, hp⟩ ⟨rfl, hq⟩ hf hf'
    exact ht.distinct _ p _ q f ⟨rfl, hp⟩ ⟨rfl, hq⟩ ((hw p hp).symm.trans hf) ((hw q hq).symm.trans hf')

end stale

namespace Vm

theorem onePage_copy (i : Index) (hi : i < 509) : onePage.mem 5 i = onePage.mem onePage.root i := by
  by_cases h0 : i = 0
  · rw [h0]
    decide
  · have h5 : i ≠ 510 := by
      rintro rfl
      exact absurd hi (by decide)
    rw [onePage_zero h0 h5, onePage_zero h0 h5]

/-- What `onePage` is for a fork, with free frames that hold something. -/
theorem onePage_aged {m : PMem} (hm : ∀ f, f ∉ ([6, 7, 8] : List Frame) → m f = onePage.mem f) :
    Tree m onePage.root ∧
      (∀ g ∈ ([5, 6, 7, 8] : List Frame), ∀ p, Plain p → walk m onePage.root p ≠ some g) ∧
        ∀ i, i < 509 → m 5 i = m onePage.root i := by
  have hoff : ∀ p f, Plain p → walk onePage.mem onePage.root p = some f → m f = onePage.mem f := fun p f hp hf =>
    hm f fun hf' => onePage_disjoint (List.mem_cons_of_mem 5 hf') hp hf
  obtain ⟨htree, hwalk⟩ := onePage_tree.congr hoff
  refine ⟨htree, fun g hg p hp hw => onePage_disjoint hg hp ((hwalk p hp).symm.trans hw), fun i hi => ?_⟩
  rw [hm 5 (by decide), hm onePage.root (by decide)]
  exact onePage_copy i hi

/-- `onePage`, where the third free frame was once a page table: its slot 1 leads to frame 10. -/
def stalePage : Vm := { onePage with mem := Radix.set onePage.mem 8 1 0xa007 }

theorem stalePage_mem {f : Frame} (hf : f ∉ ([6, 7, 8] : List Frame)) : stalePage.mem f = onePage.mem f := by
  change Radix.set onePage.mem 8 1 0xa007 f = _
  exact Radix.set_of_ne fun h8 => hf (by simp [h8])

/-- `onePage`, where the free frames 7 and 8 hold an entry for frame 10, which is no table, and one without its present
bit. -/
def harmlessPage : Vm := { onePage with mem := Radix.set (Radix.set onePage.mem 8 1 0xa006) 7 1 0xa007 }

theorem harmlessPage_mem {f : Frame} (hf : f ∉ ([6, 7, 8] : List Frame)) : harmlessPage.mem f = onePage.mem f := by
  change Radix.set (Radix.set onePage.mem 8 1 0xa006) 7 1 0xa007 f = _
  rw [Radix.set_of_ne fun h7 => hf (by simp [h7]), Radix.set_of_ne fun h8 => hf (by simp [h8])]

/-- What a free frame leads to there. -/
theorem harmlessPage_child {g h : Frame} {j : Index} (hg : g ∈ ([6, 7, 8] : List Frame))
    (hc : child (harmlessPage.mem g j) = some h) : g = 7 ∧ h = 10 := by
  have hset : harmlessPage.mem g j = if g = 7 ∧ j = 1 then 0xa007 else if g = 8 ∧ j = 1 then 0xa006 else
      onePage.mem g j := by
    change Radix.set (Radix.set onePage.mem 8 1 0xa006) 7 1 0xa007 g j = _
    rw [Radix.set_apply, Radix.set_apply]
  have hblank : onePage.mem g j = 0 := by
    have hcases : g = 6 ∨ g = 7 ∨ g = 8 := by simpa using hg
    by_cases h0 : j = 0
    · subst h0
      rcases hcases with rfl | rfl | rfl <;> decide
    · by_cases h5 : j = 510
      · subst h5
        rcases hcases with rfl | rfl | rfl <;> decide
      · exact onePage_zero h0 h5
  rw [hset, hblank] at hc
  split at hc
  · rename_i h7
    cases hc
    exact ⟨h7.1, by decide⟩
  · split at hc <;> cases hc

/-- The entry leads to no page: frame 10 is empty. -/
theorem harmlessPage_noneStale : NoneStale harmlessPage.mem harmlessPage.root [6, 7, 8] := by
  intro q g j h hmem _ hc hl
  obtain ⟨rfl, rfl⟩ := harmlessPage_child (List.of_mem_zip hmem).2 hc
  have hpaths : tablePaths harmlessPage.mem 3 [] harmlessPage.root = [[0], [0, 0], [0, 0, 0]] := by decide +kernel
  rw [hpaths] at hmem
  have hq : q = [0, 0] := by simpa using hmem
  rw [hq] at hl
  have hl : Radix.Leads id (overlay harmlessPage.mem harmlessPage.root [6, 7, 8]) (0 + 1) 10 := hl
  obtain ⟨i, f, hf, -⟩ := Radix.leads_succ.1 hl
  have hnot : takenAs harmlessPage.mem harmlessPage.root [6, 7, 8] 10 = none := by decide +kernel
  have hempty : onePage.mem 10 i = 0 := by
    by_cases h0 : i = 0
    · rw [h0]
      decide
    · by_cases h5 : i = 510
      · rw [h5]
        decide
      · exact onePage_zero h0 h5
  have hnone : overlay harmlessPage.mem harmlessPage.root [6, 7, 8] 10 i = none := by
    simp only [overlay, hnot]
    rw [harmlessPage_mem (by decide), hempty, child_zero]
  rw [id, hnone] at hf
  cases hf

end Vm

/-- What the frames held is not followed: the child has the page 0 of its parent, and no other. -/
theorem fork_maps_nothing_extra_one : ∃ s', Vm.harmlessPage.forkTables Vm.write 0x1000 (baseOf 5) = some s' ∧
    ∀ p, p.length = 4 → Low p → walk Vm.harmlessPage.mem 1 p = none → walk s'.mem 5 p = none := by
  obtain ⟨htree, hoff, hcopy⟩ := Vm.onePage_aged fun _ => Vm.harmlessPage_mem
  obtain ⟨s', hrun, hiff⟩ := fork_maps_nothing_extra 0x1000 htree (hoff 5 (by decide)) Vm.onePage_free (by decide)
    (fun g hg => ⟨by rintro rfl; exact absurd hg (by decide), hoff g (List.mem_cons_of_mem 5 hg)⟩)
    (by decide +kernel) hcopy (.inl (by decide))
  exact ⟨s', hrun, hiff.2 Vm.harmlessPage_noneStale⟩

/-- **A stale slot is followed**: the page 1, which the parent does not map, is frame 10 in the child. -/
theorem fork_maps_stale_page : ∃ s', Vm.stalePage.forkTables Vm.write 0x1000 (baseOf 5) = some s' ∧
    walk Vm.stalePage.mem Vm.stalePage.root [0, 0, 0, 1] = none ∧ walk s'.mem 5 [0, 0, 0, 1] = some 10 := by
  obtain ⟨htree, hoff, hcopy⟩ := Vm.onePage_aged fun _ => Vm.stalePage_mem
  obtain ⟨s', hrun, -, hleft⟩ := forkTables_maps (s := Vm.stalePage) 0x1000 htree (hoff 5 (by decide))
    Vm.onePage_free (by decide)
    (fun g hg => ⟨by rintro rfl; exact absurd hg (by decide), hoff g (List.mem_cons_of_mem 5 hg)⟩)
    (by decide +kernel) hcopy (.inl (by decide))
  exact ⟨s', hrun, by decide, hleft [0, 0, 0] 8 1 (by decide +kernel) (by decide)⟩

end Sbuos
