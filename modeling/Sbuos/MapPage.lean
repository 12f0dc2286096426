import Sbuos.Paging
/-!
# `map_page` (sys/memory_helpers.c:84-105)

The loop edits tables through their recursive addresses; `mapPageLoop_eq` says that it does to physical
memory what `Radix.descend` does. What that means for the tree of tables is `Radix.Extended`.

A new table is cleared on the iteration after the one that made it, so the last one, the page table, never
is. `map_page_frame_law` says when this shows.
-/
namespace Sbuos
open Lib

/-! ## The supply of frames -/

/-- The frame number of a page-aligned base below 2^52. -/
def baseOf (g : Frame) : Word := g.setWidth 64 <<< 12

theorem getLsbD_baseOf (g : Frame) {k : Nat} (hk : k < 64) :
    (baseOf g).getLsbD k = (decide (12 ≤ k) && g.getLsbD (k - 12)) := by
  rw [baseOf, BitVec.getLsbD_shiftLeft, BitVec.getLsbD_setWidth, decide_eq_true hk, Bool.true_and,
    decide_eq_true (show k - 12 < 64 by omega), Bool.true_and]
  by_cases h : k < 12
  · simp [h]
  · simp [h, Nat.le_of_not_lt h]

theorem frameOf_baseOf (g : Frame) : frameOf (baseOf g) = g := by
  apply BitVec.eq_of_getLsbD_eq
  intro k hk
  rw [frameOf, BitVec.getLsbD_extractLsb', getLsbD_baseOf g (by omega), decide_eq_true hk,
    decide_eq_true (Nat.le_add_right 12 k), Nat.add_sub_cancel_left, Bool.true_and, Bool.true_and]

/-- The free list supplies the frames `gs`, in this order. -/
def Frames.Free (fr : Frames) (gs : List Frame) : Prop :=
  ∃ free used, fr.WF free used ∧ free.map fr.base = gs.map baseOf

theorem Vm.getFreePage_free {s : Vm} {g : Frame} {gs : List Frame} (h : s.frames.Free (g :: gs)) :
    ∃ fr, s.getFreePage = (baseOf g, { s with frames := fr }) ∧ fr.Free gs := by
  obtain ⟨free, used, hwf, hb⟩ := h
  obtain ⟨i, free, rfl⟩ := List.exists_cons_of_ne_nil (l := free) (by rintro rfl; simp at hb)
  obtain ⟨h1, h2, h3⟩ := Frames.getFreePage_spec hwf
  rw [List.map_cons, List.map_cons, List.cons.injEq] at hb
  refine ⟨s.frames.getFreePage.2, ?_, free, used ++ [i], h2, ?_⟩
  · rw [Vm.getFreePage]
    simp only [h1, h3, hb.1]
  · rw [← hb.2]
    exact List.map_congr_left fun j _ => h3 j

/-- The entry for a new table, by the table's frame. -/
def link (g : Frame) : Word := Vm.tableEntry (baseOf g)

theorem child_link (g : Frame) : child (link g) = some g := by
  have hp : link g &&& present ≠ 0 := by
    intro h
    have hbit := congrArg (fun x : Word => x.getLsbD 0) h
    simp [link, Vm.tableEntry, baseOf, present, readWrite, userAccessible] at hbit
  rw [child, if_neg hp]
  congr 1
  apply BitVec.eq_of_getLsbD_eq
  intro k hk
  simp only [frameOf, link, Vm.tableEntry, baseOf, present, readWrite, userAccessible]
  interval_cases k <;> simp

theorem child_zero : child 0 = none := rfl

/-! ## The loop -/

/-- The table indices of an address below level `k + 1`. -/
def upper (virt : Word) : Nat → List Index
  | 0 => []
  | k + 1 => virt.extractLsb' (12 + (k + 1) * 9) 9 :: upper virt k

/-- The path to the page table of an address, and the page's index in it. -/
def tablePath (virt : Word) : List Index := upper virt 3
def pageIndex (virt : Word) : Index := virt.extractLsb' 12 9

theorem pathOf_eq (virt : Word) : pathOf virt = tablePath virt ++ [pageIndex virt] := rfl

/-- Below `f` along `p`, an entry that is not zero leads to a table. -/
def LinksPresent (m : PMem) (f : Frame) (p : List Index) : Prop :=
  ∀ q i g, q ++ [i] <+: p → walk m f q = some g → m g i ≠ 0 → child (m g i) ≠ none

/-- No part of the path `p` leads to `g`. -/
def OffPath (m : PMem) (r : Frame) (p : List Index) (g : Frame) : Prop := ∀ q, q <+: p → walk m r q ≠ some g

/-- The entry that `map_page` stores (memory_helpers.c:102). -/
def leafEntry (phys flags : Word) : Word := (phys &&& 0xffffffffff000) ||| flags

/-- A page's entry leads to its frame. -/
theorem child_leafEntry {flags : Word} (phys : Word)
    (hflags : flags = present ||| readWrite ∨ flags = present ||| readWrite ||| userAccessible) :
    child (leafEntry phys flags) = some (frameOf phys) := by
  have hp : leafEntry phys flags &&& present ≠ 0 := by
    intro h
    have hbit := congrArg (fun x : Word => x.getLsbD 0) h
    rcases hflags with rfl | rfl <;> simp [leafEntry, present, readWrite, userAccessible] at hbit
  rw [child, if_neg hp]
  congr 1
  apply BitVec.eq_of_getLsbD_eq
  intro k hk
  rcases hflags with rfl | rfl <;> simp only [frameOf, leafEntry, present, readWrite, userAccessible] <;>
    interval_cases k <;> simp

/-- What `map_page` does to the tables above the page. -/
def descend : PMem → Frame → List Index → List Frame → PMem := Radix.descend child link 0
def missing : PMem → Frame → List Index → Nat := Radix.missing child

section links
variable {m : PMem} {r f g : Frame} {q p : List Index} {i : Index}

theorem SelfMapped.set (h : SelfMapped m r) (hc : child (m f i) = none) (e : Word) :
    SelfMapped (Radix.set m f i e) r := by
  rw [SelfMapped, Radix.set_apply, if_neg]
  · exact h
  · rintro ⟨rfl, rfl⟩
    rw [h] at hc
    cases hc

theorem SelfMapped.fill (h : SelfMapped m r) (hr : r ≠ g) : SelfMapped (Radix.fill m g 0) r := by
  rw [SelfMapped, Radix.fill_of_ne hr]
  exact h

/-- Linking a new node: the walk to it, and the nodes it passes through. -/
theorem walk_link (hw : walk m r q = some f) (hc : child (m f i) = none) :
    walk (Radix.set m f i (link g)) r (q ++ [i]) = some g ∧
    ∀ p, p <+: q → walk (Radix.set m f i (link g)) r p = walk m r p := by
  have hpre : ∀ p, p <+: q → walk (Radix.set m f i (link g)) r p = walk m r p := by
    rintro p ⟨u, rfl⟩
    obtain ⟨x, hx, -⟩ := Radix.exists_walk_prefix hw
    exact (Radix.walk_set_of_none hc hx).trans hx.symm
  refine ⟨?_, hpre⟩
  rw [walk, Radix.walk_snoc, ← walk, hpre q List.prefix_rfl, hw, Option.bind_some, Radix.set_self, child_link]

theorem prefix_of_concat {j : Index} (h : p ++ [j] <+: q ++ [i]) : p <+: q := by
  rcases List.prefix_concat_iff.1 h with h | h
  · exact (List.append_inj' h rfl).1 ▸ List.prefix_rfl
  · exact (List.prefix_append p [j]).trans h

/-- Blanking the new node as well. -/
theorem walk_hang (hw : walk m r q = some f) (hc : child (m f i) = none) (hg : ∀ p, p <+: q → walk m r p ≠ some g) :
    walk (Radix.fill (Radix.set m f i (link g)) g 0) r (q ++ [i]) = some g ∧
    ∀ p, p <+: q → walk (Radix.fill (Radix.set m f i (link g)) g 0) r p = walk m r p := by
  obtain ⟨hnew, hpre⟩ := walk_link (g := g) hw hc
  have hoff : ∀ p, p <+: q → walk (Radix.set m f i (link g)) r p ≠ some g := fun p hp => by
    rw [hpre p hp]
    exact hg p hp
  refine ⟨?_, fun p hp => ?_⟩
  · exact (Radix.walk_fill_of_avoids fun p j hp => hoff p (prefix_of_concat hp)).trans hnew
  · exact (Radix.walk_fill_of_avoids fun p' j hp' =>
      hoff p' ((List.prefix_append p' [j]).trans (hp'.trans hp))).trans (hpre p hp)

theorem OffPath.hang {u : List Index} {h : Frame} (hw : walk m r q = some f) (hc : child (m f i) = none)
    (hg : ∀ p, p <+: q → walk m r p ≠ some g) (hh : OffPath m r (q ++ [i] ++ u) h) (hne : h ≠ g) :
    OffPath (Radix.fill (Radix.set m f i (link g)) g 0) r (q ++ [i] ++ u) h := by
  obtain ⟨hnew, hpre⟩ := walk_hang hw hc hg
  intro p hp hwp
  rcases List.prefix_or_prefix_of_prefix hp (List.prefix_append (q ++ [i]) u) with hpq | ⟨v, rfl⟩
  · rcases List.prefix_concat_iff.1 hpq with rfl | hpq
    · rw [hnew] at hwp
      exact hne (Option.some.inj hwp).symm
    · rw [hpre p hpq] at hwp
      exact hh p hp hwp
  · rw [walk, Radix.walk_append, ← walk, hnew, Option.bind_some] at hwp
    rcases v with _ | ⟨j, v⟩
    · exact hne (Option.some.inj hwp).symm
    · rw [walk, Radix.walk_cons, Radix.fill_self, child_zero] at hwp
      cases hwp

theorem LinksPresent.blank (u : List Index) : LinksPresent (Radix.fill m g 0) g u := by
  intro p j h _ hh hne
  rcases p with _ | ⟨j', p⟩
  · obtain rfl := Option.some.inj hh
    exact absurd Radix.fill_self hne
  · rw [walk, Radix.walk_cons, Radix.fill_self, child_zero] at hh
    cases hh

end links

namespace Vm

theorem mapPageLoop_new (virt table : Word) (k : Nat) (s : Vm) :
    mapPageLoop virt (k + 1) table true s = (s.zeroOut table).bind (mapPageLoop virt (k + 1) table false) := rfl

/-- **The loop** below the table behind `q`, in terms of physical memory. -/
theorem mapPageLoop_eq (virt : Word) (k : Nat) : ∀ (q : List Index) (f : Frame) (gs : List Frame) (s : Vm),
    SelfMapped s.mem s.root → walk s.mem s.root q = some f → q.length + k = 3 →
    LinksPresent s.mem f (upper virt k) → s.frames.Free gs → gs.Nodup →
    (∀ g ∈ gs, OffPath s.mem s.root (q ++ upper virt k) g) → missing s.mem f (upper virt k) ≤ gs.length →
    ∃ fr, mapPageLoop virt k (recAddr q) false s =
        some (recAddr (q ++ upper virt k), ⟨descend s.mem f (upper virt k) gs, s.cr3, fr⟩) ∧
      fr.Free (gs.drop (missing s.mem f (upper virt k))) ∧
      SelfMapped (descend s.mem f (upper virt k) gs) s.root ∧
      ∃ f', walk (descend s.mem f (upper virt k) gs) s.root (q ++ upper virt k) = some f' := by
  induction k with
  | zero =>
    intro q f gs s hs hw _ _ hfree _ _ _
    rw [upper, List.append_nil]
    exact ⟨s.frames, rfl, hfree, hs, f, hw⟩
  | succ k ih =>
    intro q f gs s hs hw hk hlinks hfree hnd hoff hlen
    rw [upper] at hlinks hoff hlen ⊢
    generalize hi : virt.extractLsb' (12 + (k + 1) * 9) 9 = i at hlinks hoff hlen ⊢
    have hsplit : q ++ i :: upper virt k = q ++ [i] ++ upper virt k := by simp
    rw [hsplit] at hoff ⊢
    have hsees : s.Sees (recAddr q) f := Sees.recAddr hs (.inl (by omega)) hw
    have hindex : (virt >>> (12 + (k + 1) * 9)) &&& 0x1ff = i.setWidth 64 := by rw [shift_and_index, hi]
    rw [mapPageLoop]
    simp only [hindex, Bool.false_eq_true, if_false, Option.bind_eq_bind, Option.bind_some, hsees.read,
      nextTable_recAddr (show q.length ≤ 3 by omega)]
    cases hc : child (s.mem f i) with
    | some g =>
      have hne : s.mem f i ≠ 0 := by intro h0; rw [h0, child_zero] at hc; cases hc
      have hg : walk s.mem s.root (q ++ [i]) = some g := by
        rw [walk, Radix.walk_snoc, ← walk, hw, Option.bind_some, hc]
      have hlinks' : LinksPresent s.mem g (upper virt k) := fun p j h hp hh =>
        hlinks (i :: p) j h (by simpa using hp) (by rw [walk, Radix.walk_cons, hc, Option.bind_some]; exact hh)
      simp only [missing, descend, Radix.missing, Radix.descend, hc] at hlen ⊢
      rw [if_neg hne]
      exact ih (q ++ [i]) g gs s hs hg (by simp; omega) hlinks' hfree hnd hoff hlen
    | none =>
      have h0 : s.mem f i = 0 := by
        by_contra hne
        exact hlinks [] i f (by simp) rfl hne hc
      simp only [missing, descend, Radix.missing, Radix.descend, hc] at hlen ⊢
      obtain ⟨g, gs, rfl⟩ := List.exists_cons_of_ne_nil (l := gs) (by rintro rfl; simp at hlen)
      obtain ⟨fr, hget, hfree'⟩ := getFreePage_free hfree
      obtain ⟨hnew, hpre⟩ := walk_link (g := g) hw hc
      have hoffg : ∀ p, p <+: q → walk s.mem s.root p ≠ some g := fun p hp =>
        hoff g (by simp) p (hp.trans ((List.prefix_append _ _).trans (List.prefix_append _ _)))
      have hr : s.root ≠ g := fun e => hoffg [] (List.nil_prefix) (by rw [e]; rfl)
      have hs₁ : SelfMapped (Radix.set s.mem f i (link g)) s.root := hs.set hc _
      rw [if_pos h0, hget]
      have hsees' : Sees { s with frames := fr } (recAddr q) f := ⟨hsees.aligned, hsees.canonical, hsees.walks⟩
      simp only [hsees'.write, Option.bind_some, show tableEntry (baseOf g) = link g from rfl]
      cases k with
      | zero =>
        simp only [upper, List.append_nil, List.length_nil, Nat.zero_add, List.drop_succ_cons, List.drop_zero,
          Radix.descend, if_true]
        exact ⟨fr, rfl, hfree', hs₁, g, hnew⟩
      | succ k =>
        have hne : upper virt (k + 1) ≠ [] := by simp [upper]
        obtain ⟨hnew₂, -⟩ := walk_hang hw hc hoffg
        have hoff₂ := fun g' (hg' : g' ∈ gs) => (hoff g' (List.mem_cons_of_mem g hg')).hang hw hc hoffg
          (by rintro rfl; exact (List.nodup_cons.1 hnd).1 hg')
        have hlinks₂ : LinksPresent (Radix.fill (Radix.set s.mem f i (link g)) g 0) g (upper virt (k + 1)) := .blank _
        have hs₂ := hs₁.fill hr
        have hmiss : missing (Radix.fill (Radix.set s.mem f i (link g)) g 0) g (upper virt (k + 1)) =
            (upper virt (k + 1)).length := Radix.missing_of_blank fun j => by rw [Radix.fill_self]; rfl
        obtain ⟨fr', hloop, hfr', hrest⟩ := ih (q ++ [i]) g gs
          ⟨Radix.fill (Radix.set s.mem f i (link g)) g 0, s.cr3, fr⟩ hs₂ hnew₂ (by simp; omega) hlinks₂ hfree'
          (List.nodup_cons.1 hnd).2 hoff₂ (by rw [hmiss]; simpa using hlen)
        have hsees₁ : Sees ⟨Radix.set s.mem f i (link g), s.cr3, fr⟩ (recAddr (q ++ [i])) g :=
          Sees.recAddr hs₁ (.inl (by simp; omega)) hnew
        have hav : Avoids ⟨Radix.set s.mem f i (link g), s.cr3, fr⟩ (recAddr (q ++ [i])) g :=
          Avoids.recAddr hs₁ (.inl (by simp; omega)) hr.symm fun p j hp e =>
            hoffg p (prefix_of_concat hp) ((hpre p (prefix_of_concat hp)).symm.trans e)
        rw [hmiss] at hfr'
        simp only [if_neg hne, List.drop_succ_cons]
        refine ⟨fr', ?_, hfr', hrest⟩
        rw [mapPageLoop_new, hsees₁.zeroOut hav, Option.bind_some, hloop]
        rfl

/-- **`map_page`**: the tables of the path are completed, and then one entry is stored. -/
theorem mapPage_eq (phys virt flags : Word) {s : Vm} {gs : List Frame} (hs : SelfMapped s.mem s.root)
    (hlinks : LinksPresent s.mem s.root (tablePath virt)) (hfree : s.frames.Free gs) (hnd : gs.Nodup)
    (hoff : ∀ g ∈ gs, OffPath s.mem s.root (tablePath virt) g)
    (hlen : missing s.mem s.root (tablePath virt) ≤ gs.length) :
    ∃ fr f, walk (descend s.mem s.root (tablePath virt) gs) s.root (tablePath virt) = some f ∧
      s.mapPage phys virt flags = some (⟨Radix.set (descend s.mem s.root (tablePath virt) gs) f (pageIndex virt)
        (leafEntry phys flags), s.cr3, fr⟩, virt + BitVec.ofNat 64 pageSize) ∧
      fr.Free (gs.drop (missing s.mem s.root (tablePath virt))) := by
  obtain ⟨fr, hloop, hfr, hs', f, hf⟩ := mapPageLoop_eq virt 3 [] s.root gs s hs rfl rfl hlinks hfree hnd hoff hlen
  refine ⟨fr, f, hf, ?_, hfr⟩
  have hsees : Sees ⟨descend s.mem s.root (upper virt 3) gs, s.cr3, fr⟩ (recAddr ([] ++ upper virt 3)) f :=
    Sees.recAddr hs' (.inl (by simp [upper])) hf
  rw [mapPage, pml4Addr_eq, hloop]
  simp only [Option.bind_eq_bind, Option.bind_some, shift_and_index, hsees.write]
  rfl

end Vm

/-! ## The law -/

/-- The entry of the page `d` in the page table behind `p`, if there is such a table. -/
def pageEntry (m : PMem) (r : Frame) (p : List Index) (d : Index) : Option Word := (walk m r p).map fun f => m f d

/-- A page without a table reads as one with a zero entry. -/
def leaf (m : PMem) (r : Frame) (p : List Index) (d : Index) : Word := (pageEntry m r p d).getD 0

/-- The paths of tables outside the slots 509 and 510. -/
def Plain (p : List Index) : Prop := p.length ≤ 3 ∧ p.head? ≠ some 509 ∧ p.head? ≠ some 510

instance (p : List Index) : Decidable (Plain p) := inferInstanceAs (Decidable (_ ∧ _))

/-- A page-table tree: slot 510 leads back to the root, an entry above the pages is zero or leads to a
table, and no two paths lead to one table. -/
structure Tree (m : PMem) (r : Frame) : Prop where
  self : SelfMapped m r
  present : ∀ p i f, Plain (p ++ [i]) → walk m r p = some f → m f i ≠ 0 → child (m f i) ≠ none
  distinct : Radix.Forest child m fun r' p => r' = r ∧ Plain p

/-- The page of `virt` has the entry asked for, and every other page the entry it had. -/
def MapsOnly (phys virt flags : Word) (m m' : PMem) (r : Frame) : Prop :=
  pageEntry m' r (tablePath virt) (pageIndex virt) = some (leafEntry phys flags) ∧
  ∀ p d, p.length = 3 → Plain p → (p, d) ≠ (tablePath virt, pageIndex virt) → leaf m' r p d = leaf m r p d

/-- The paths of the one tree at `r`. -/
def TreePath (r : Frame) (r' : Frame) (p : List Index) : Prop := r' = r ∧ Plain p

section law
variable {m m' : PMem} {r f : Frame} {t p : List Index} {gs : List Frame}

/-- A path that does not start in a slot has no part that does. -/
theorem head?_ne_of_append {q : List Index} {i : Index} (h : (p ++ q).head? ≠ some i) : p.head? ≠ some i := by
  rcases p with _ | ⟨j, p⟩
  · exact nofun
  · exact h

theorem Plain.of_append {q : List Index} (h : Plain (p ++ q)) : Plain p := by
  obtain ⟨h1, h2, h3⟩ := h
  rw [List.length_append] at h1
  exact ⟨by omega, head?_ne_of_append h2, head?_ne_of_append h3⟩

theorem TreePath.closed (r : Frame) : ∀ r' p q, TreePath r r' (p ++ q) → TreePath r r' p :=
  fun _ _ _ h => ⟨h.1, h.2.of_append⟩

/-- Page tables are the last level. -/
theorem TreePath.max {r' : Frame} (hp : p.length = 3) (i : Index) : ¬TreePath r r' (p ++ [i]) := by
  rintro ⟨-, h, -⟩
  rw [List.length_append, List.length_singleton] at h
  omega

/-- The leaf entries after the missing tables of `t` have been hung in and one entry has been stored. -/
theorem leaf_set (he : Radix.Extended child (TreePath r) m r t gs m')
    (hgs : ∀ g ∈ gs, Radix.Fresh child m (TreePath r) g) (ht : t.length = 3) (htp : Plain t)
    (hf : walk m' r t = some f) (hp : p.length = 3) (hpp : Plain p) (d d' : Index) (e : Word) :
    pageEntry (Radix.set m' f d e) r p d' =
      if p = t then some (if d' = d then e else m' f d') else pageEntry m r p d' := by
  -- the store is in a page table, which no walk passes through
  have hwalk : walk (Radix.set m' f d e) r p = walk m' r p := by
    refine Radix.walk_set_of_avoids fun q i hq hw => ?_
    have hlen := hq.length_le
    rw [List.length_append, List.length_singleton] at hlen
    obtain ⟨u, rfl⟩ := hq
    obtain ⟨-, rfl⟩ := he.forest r q r t f ⟨rfl, hpp.of_append.of_append⟩ ⟨rfl, htp⟩ hw hf
    omega
  rw [pageEntry, hwalk]
  split
  case isTrue h =>
    subst h
    rw [hf, Option.map_some, Radix.set_apply]
    simp
  case isFalse h =>
    have hoff : walk m' r p = walk m r p := by
      refine he.off r p ⟨rfl, hpp⟩ ?_
      rintro ⟨-, hpre⟩
      exact h (hpre.eq_of_length (hp.trans ht.symm))
    rw [pageEntry, hoff]
    cases hw : walk m r p with
    | none => rfl
    | some g =>
      have hgf : g ≠ f := by
        rintro rfl
        exact h (he.forest r p r t g ⟨rfl, hpp⟩ ⟨rfl, htp⟩ (hoff.trans hw) hf).2
      rw [Option.map_some, Option.map_some, Radix.set_of_ne hgf,
        he.max_eq (TreePath.closed r) ⟨rfl, htp⟩ hgs ⟨rfl, hpp⟩ (TreePath.max hp) hw]

end law

/-- **What `map_page` does to the pages of a tree.** With enough free frames outside the tree it returns; the
other entries of a new page table are what the frame taken for it holds. -/
theorem Vm.mapPage_leaf (phys virt flags : Word) {s : Vm} {gs : List Frame} (htree : Tree s.mem s.root)
    (hplain : Plain (tablePath virt)) (hfree : s.frames.Free gs) (hnd : gs.Nodup)
    (hdisj : ∀ g ∈ gs, ∀ p, Plain p → walk s.mem s.root p ≠ some g)
    (hlen : missing s.mem s.root (tablePath virt) ≤ gs.length) :
    ∃ s', s.mapPage phys virt flags = some (s', virt + BitVec.ofNat 64 pageSize) ∧
      pageEntry s'.mem s.root (tablePath virt) (pageIndex virt) = some (leafEntry phys flags) ∧
      (∀ p d, p.length = 3 → Plain p → p ≠ tablePath virt → pageEntry s'.mem s.root p d = pageEntry s.mem s.root p d) ∧
      (∀ d, d ≠ pageIndex virt → missing s.mem s.root (tablePath virt) = 0 →
        pageEntry s'.mem s.root (tablePath virt) d = pageEntry s.mem s.root (tablePath virt) d) ∧
      ∀ g, missing s.mem s.root (tablePath virt) ≠ 0 →
        gs[missing s.mem s.root (tablePath virt) - 1]? = some g →
        ∀ d, d ≠ pageIndex virt → pageEntry s'.mem s.root (tablePath virt) d = some (s.mem g d) := by
  have hfresh : ∀ g ∈ gs, Radix.Fresh child s.mem (TreePath s.root) g := by
    rintro g hg r' p ⟨rfl, hp⟩
    exact hdisj g hg p hp
  have hlinks : LinksPresent s.mem s.root (tablePath virt) := by
    rintro q i f ⟨u, hu⟩ hf hne
    refine htree.present q i f ?_ hf hne
    rw [← hu] at hplain
    exact hplain.of_append
  have hoff : ∀ g ∈ gs, OffPath s.mem s.root (tablePath virt) g := by
    rintro g hg q ⟨u, hu⟩
    refine hdisj g hg q ?_
    rw [← hu] at hplain
    exact hplain.of_append
  have ht : (tablePath virt).length = 3 := rfl
  have he : Radix.Extended child (TreePath s.root) s.mem s.root (tablePath virt)
      (gs.take (missing s.mem s.root (tablePath virt))) (descend s.mem s.root (tablePath virt) gs) :=
    Radix.descend_extended (TreePath.closed s.root) child_zero child_link (tablePath virt) s.mem [] s.root gs
      htree.distinct rfl ⟨rfl, hplain⟩ (TreePath.max ht) hnd hfresh hlen
  obtain ⟨fr, f, hf, hrun, -⟩ := s.mapPage_eq phys virt flags htree.self hlinks hfree hnd hoff hlen
  have hleaf := fun {p} (hp : p.length = 3) (hpp : Plain p) {d' : Index} =>
    leaf_set he (fun g hg => hfresh g (List.mem_of_mem_take hg)) ht hplain hf hp hpp (pageIndex virt) d'
      (leafEntry phys flags)
  refine ⟨_, hrun, ?_, ?_, ?_, ?_⟩ <;> dsimp only
  · rw [hleaf ht hplain, if_pos rfl, if_pos rfl]
  · intro p d hp hpp hne
    rw [hleaf hp hpp, if_neg hne]
  · intro d hd hmiss
    obtain ⟨g, hg⟩ := Radix.missing_eq_zero.1 hmiss
    obtain rfl : g = f := Option.some.inj ((he.mono s.root _ g ⟨rfl, hplain⟩ hg).symm.trans hf)
    rw [hleaf ht hplain, if_pos rfl, if_neg hd, pageEntry, show walk s.mem s.root (tablePath virt) = some g from hg,
      Option.map_some, he.max_eq (TreePath.closed s.root) ⟨rfl, hplain⟩ (fun g hg => hfresh g (List.mem_of_mem_take hg))
        ⟨rfl, hplain⟩ (TreePath.max ht) hg]
  · intro g hmiss hget d hd
    have hnone : walk s.mem s.root (tablePath virt) = none := by
      by_contra hne
      obtain ⟨g', hg'⟩ := Option.ne_none_iff_exists'.1 hne
      exact hmiss (Radix.missing_eq_zero.2 ⟨g', hg'⟩)
    obtain ⟨hs, g', hgs, hw, heq⟩ := he.last hnone
    have hg' : g' = g := by
      have hlast := congrArg List.getLast? hgs
      rw [List.getLast?_concat, List.getLast?_take, if_neg hmiss, hget] at hlast
      exact (Option.some.inj hlast).symm
    subst hg'
    obtain rfl : g' = f := Option.some.inj (hw.symm.trans hf)
    rw [hleaf ht hplain, if_pos rfl, if_neg hd, heq]

/-- **Mapping a page.** For a well-formed tree and enough free frames outside it, `map_page` maps the page and
leaves every other page alone iff the page table exists already or the frame that becomes the page table (the
last of those taken) holds zeros: it is never cleared. -/
theorem map_page_frame_law (phys virt flags : Word) {s : Vm} {gs : List Frame} (htree : Tree s.mem s.root)
    (hplain : Plain (tablePath virt)) (hfree : s.frames.Free gs) (hnd : gs.Nodup)
    (hdisj : ∀ g ∈ gs, ∀ p, Plain p → walk s.mem s.root p ≠ some g)
    (hlen : missing s.mem s.root (tablePath virt) ≤ gs.length) :
    (∃ s' ret, s.mapPage phys virt flags = some (s', ret) ∧ MapsOnly phys virt flags s.mem s'.mem s.root) ↔
      missing s.mem s.root (tablePath virt) = 0 ∨
        ∀ g, gs[missing s.mem s.root (tablePath virt) - 1]? = some g → ∀ d, d ≠ pageIndex virt → s.mem g d = 0 := by
  obtain ⟨s', hrun, hpage, hother, hold, hnew⟩ := s.mapPage_leaf phys virt flags htree hplain hfree hnd hdisj hlen
  have hnone : missing s.mem s.root (tablePath virt) ≠ 0 → walk s.mem s.root (tablePath virt) = none := by
    intro hmiss
    by_contra hne
    obtain ⟨g, hg⟩ := Option.ne_none_iff_exists'.1 hne
    exact hmiss (Radix.missing_eq_zero.2 ⟨g, hg⟩)
  constructor
  · rintro ⟨s'', ret, hrun', -, hframe⟩
    obtain ⟨rfl, -⟩ := Prod.mk.inj (Option.some.inj (hrun'.symm.trans hrun))
    rw [or_iff_not_imp_left]
    intro hmiss g hg d hd
    have hd' := hframe (tablePath virt) d rfl hplain fun e => hd (Prod.mk.inj e).2
    rw [leaf, leaf, hnew g hmiss hg d hd, pageEntry, hnone hmiss] at hd'
    exact hd'
  · intro hcond
    refine ⟨s', _, hrun, hpage, fun p d hp hpp hne => ?_⟩
    by_cases hpt : p = tablePath virt
    · subst hpt
      have hd : d ≠ pageIndex virt := fun e => hne (by rw [e])
      by_cases hmiss : missing s.mem s.root (tablePath virt) = 0
      · rw [leaf, leaf, hold d hd hmiss]
      · obtain ⟨g, hg⟩ : ∃ g, gs[missing s.mem s.root (tablePath virt) - 1]? = some g := by
          rw [List.getElem?_eq_getElem (by omega)]
          exact ⟨_, rfl⟩
        rw [leaf, leaf, hnew g hmiss hg d hd, pageEntry, hnone hmiss]
        exact (hcond.resolve_left hmiss) g hg d hd
    · rw [leaf, leaf, hother p d hp hpp hpt]

/-- A PML4 with nothing but its own entry, and the frames 2, 3 and 4 free; `stale` is what frame 4 holds at
index 5. -/
def Vm.threeFree (stale : Word) : Vm where
  mem f i := if f = 1 ∧ i = 510 then 0x1003 else if f = 4 ∧ i = 5 then stale else 0
  cr3 := 0x1000
  frames := ⟨fun i => ⟨BitVec.ofNat 64 ((i + 1) * 4096), if i < 3 then i + 1 else 0⟩, 1, 3, 0, 0⟩

section threeFree
variable (stale : Word)

theorem Vm.threeFree_root : (threeFree stale).root = 1 := by
  change frameOf 0x1000 = 1
  decide

theorem Vm.threeFree_walk {p : List Index} {f : Frame} (hp : p.head? ≠ some 510)
    (hw : walk (threeFree stale).mem (threeFree stale).root p = some f) : p = [] ∧ f = 1 := by
  rw [threeFree_root] at hw
  rcases p with _ | ⟨i, p⟩
  · exact ⟨rfl, (Option.some.inj hw).symm⟩
  · have hi : i ≠ 510 := fun e => hp (by rw [e]; rfl)
    rw [walk, Radix.walk_cons, threeFree] at hw
    simp only [hi, and_false, if_false, show ¬((1 : Frame) = 4) by decide, false_and] at hw
    cases hw

theorem Vm.threeFree_tree : Tree (threeFree stale).mem (threeFree stale).root where
  self := by
    rw [threeFree_root]
    change child (if _ then 0x1003 else _) = some 1
    rw [if_pos ⟨rfl, rfl⟩]
    decide
  present := by
    intro p i f hp hw hne
    obtain ⟨rfl, rfl⟩ := threeFree_walk stale (hp.of_append).2.2 hw
    have hi : i ≠ 510 := fun e => hp.2.2 (by rw [e]; rfl)
    refine absurd ?_ hne
    simpa [threeFree] using hi
  distinct := by
    rintro r p r' q f ⟨rfl, hp⟩ ⟨rfl, hq⟩ hw hw'
    exact ⟨rfl, (threeFree_walk stale hp.2.2 hw).1.trans (threeFree_walk stale hq.2.2 hw').1.symm⟩

theorem Vm.threeFree_free : (threeFree stale).frames.Free [2, 3, 4] :=
  ⟨[1, 2, 3], [], ⟨⟨rfl, by decide, rfl, by decide, rfl, by decide, rfl⟩, rfl, by decide, rfl⟩, rfl⟩

theorem Vm.threeFree_disjoint {g : Frame} (hg : g ∈ [2, 3, 4]) {p : List Index} (hp : Plain p) :
    walk (threeFree stale).mem (threeFree stale).root p ≠ some g := by
  intro hw
  obtain ⟨-, rfl⟩ := threeFree_walk stale hp.2.2 hw
  revert hg
  decide

end threeFree

/-- A first page, with frame 4 cleared. -/
theorem map_page_frame_law_first : ∃ s' ret, (Vm.threeFree 0).mapPage 0x7000 0 3 = some (s', ret) ∧
    MapsOnly 0x7000 0 3 (Vm.threeFree 0).mem s'.mem (Vm.threeFree 0).root :=
  (map_page_frame_law 0x7000 0 3 (Vm.threeFree_tree 0) (by decide) (Vm.threeFree_free 0) (by decide)
    (fun _ hg _ hp => Vm.threeFree_disjoint 0 hg hp) (by decide)).2 (.inr fun g hg d _ => by
      obtain rfl : g = 4 := (Option.some.inj hg).symm
      simp [Vm.threeFree])

/-- With an entry left in frame 4, the same call maps the page of 0x5000 as well. -/
theorem map_page_stale_table :
    (Tree (Vm.threeFree 0x9003).mem (Vm.threeFree 0x9003).root ∧ Canonical 0 ∧ Plain (tablePath 0) ∧
      (Vm.threeFree 0x9003).frames.Free [2, 3, 4] ∧ [(2 : Frame), 3, 4].Nodup ∧
      (∀ g ∈ [(2 : Frame), 3, 4], ∀ p, Plain p → walk (Vm.threeFree 0x9003).mem (Vm.threeFree 0x9003).root p ≠ some g) ∧
      missing (Vm.threeFree 0x9003).mem (Vm.threeFree 0x9003).root (tablePath 0) ≤ [(2 : Frame), 3, 4].length) ∧
    ¬∃ s' ret, (Vm.threeFree 0x9003).mapPage 0x7000 0 3 = some (s', ret) ∧
      MapsOnly 0x7000 0 3 (Vm.threeFree 0x9003).mem s'.mem (Vm.threeFree 0x9003).root := by
  have hyps : Tree (Vm.threeFree 0x9003).mem (Vm.threeFree 0x9003).root ∧ Canonical 0 ∧ Plain (tablePath 0) ∧
      (Vm.threeFree 0x9003).frames.Free [2, 3, 4] ∧ [(2 : Frame), 3, 4].Nodup ∧
      (∀ g ∈ [(2 : Frame), 3, 4], ∀ p, Plain p → walk (Vm.threeFree 0x9003).mem (Vm.threeFree 0x9003).root p ≠ some g) ∧
      missing (Vm.threeFree 0x9003).mem (Vm.threeFree 0x9003).root (tablePath 0) ≤ [(2 : Frame), 3, 4].length :=
    ⟨Vm.threeFree_tree _, by decide, by decide, Vm.threeFree_free _, by decide,
      fun _ hg _ hp => Vm.threeFree_disjoint _ hg hp, by decide⟩
  refine ⟨hyps, ?_⟩
  rintro ⟨s', ret, hrun, -, hframe⟩
  obtain ⟨h1, -, h2, h3, h4, h5, h6⟩ := hyps
  obtain ⟨s'', hrun', -, -, -, hnew⟩ := Vm.mapPage_leaf 0x7000 0 3 h1 h2 h3 h4 h5 h6
  obtain ⟨rfl, -⟩ := Prod.mk.inj (Option.some.inj (hrun.symm.trans hrun'))
  have hd := hframe (tablePath 0) 5 rfl h2 (by decide)
  rw [leaf, hnew 4 (by decide) (by decide) 5 (by decide)] at hd
  revert hd
  decide

end Sbuos
