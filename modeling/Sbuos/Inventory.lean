import Mathlib.Algebra.GroupWithZero.Nat
import Mathlib.Data.List.Nodup
import Mathlib.Data.List.Pairwise
import Sbuos.Boot
/-!
# When the boot inventory is the memory map's

By `startSmap_spec` the free list shows the first `n` of the pages the regions start, `n` being the
number of pages the last region starts. That is exactly the whole pages of the map only for maps with
at most one region of non-zero base, of a length divisible by the page size, and for two coincidences:
a one-page region in front of regions shorter than a page, and a one-page region in front of a single
region that ends in the middle of a page.
-/
namespace Sbuos
open Lib

/-- Every whole page of every region of non-zero base is listed once, and every listed page lies
inside one of the regions. -/
def Inventory (rs : List SmapEntry) (bases : List Word) : Prop :=
  (∀ r ∈ rs, r.base ≠ 0 → ∀ k < r.whole, bases.count (r.base + BitVec.ofNat 64 (4096 * k)) = 1) ∧
  ∀ b ∈ bases, ∃ r ∈ rs, r.base.toNat ≤ b.toNat ∧ b.toNat + 4096 ≤ r.top

/-- The boot ends and leaves a free chain that is the map's inventory. -/
def BootInventory (rs : List SmapEntry) (s₀ : Frames) : Prop :=
  ∃ fuel physfree s chain, bootFrames fuel rs s₀ = some (physfree, s) ∧
    Linked s.next 0 s.freeHead chain ∧ Inventory rs (chain.map s.base)

def SmapEntry.Disjoint (r r' : SmapEntry) : Prop := r.top ≤ r'.base.toNat ∨ r'.top ≤ r.base.toNat

/-- A memory map: available regions, page-aligned, pairwise disjoint. -/
structure MemoryMap (rs : List SmapEntry) : Prop where
  valid : ∀ r ∈ rs, r.Valid
  disjoint : rs.Pairwise SmapEntry.Disjoint

/-- The memory maps the boot lists correctly. -/
def InventoryOk (rs : List SmapEntry) : Prop :=
  (∀ r ∈ rs, r.base ≠ 0 → r.top + 4096 ≤ 2 ^ 64) ∧
  match rs.filter fun r => r.base ≠ 0 with
  | [] => True
  | [r] => r.length.toNat % 4096 = 0
  | r :: rest => (r.whole = 1 ∧ ∀ r' ∈ rest, r'.whole = 0) ∨
      ∃ r', rest = [r'] ∧ r.length.toNat = 4096 ∧ 0 < r'.whole ∧ r'.length.toNat % 4096 ≠ 0

/-! ## Marked pages -/

variable {rs : List SmapEntry}

instance : Std.Symm SmapEntry.Disjoint := ⟨fun _ _ => Or.symm⟩

theorem MemoryMap.eq_of_overlap (h : MemoryMap rs) {r r' : SmapEntry} (hr : r ∈ rs) (hr' : r' ∈ rs) {a : Nat}
    (h1 : r.base.toNat ≤ a) (h2 : a < r.top) (h3 : r'.base.toNat ≤ a) (h4 : a < r'.top) : r = r' := by
  by_contra hne
  rcases h.disjoint.forall hr hr' hne with hd | hd <;> omega

theorem SmapEntry.started_eq (r : SmapEntry) :
    r.started = r.whole + if r.length.toNat % 4096 = 0 then 0 else 1 := by
  unfold SmapEntry.started SmapEntry.whole
  split <;> omega

theorem SmapEntry.page_toNat {r : SmapEntry} (hv : r.Valid) {i : Nat} (hi : i < r.started) :
    (r.base + BitVec.ofNat 64 (4096 * i)).toNat = r.base.toNat + 4096 * i := by
  have htop : r.top = r.base.toNat + r.length.toNat := rfl
  have hs : r.started = (r.length.toNat + 4095) / 4096 := rfl
  have hle := hv.top_le
  rw [BitVec.toNat_add, BitVec.toNat_ofNat, Nat.mod_eq_of_lt (show 4096 * i < 2 ^ 64 by omega)]
  exact Nat.mod_eq_of_lt (by omega)

/-- A page the loop visits starts inside its region; it is marked iff it ends there too. -/
theorem SmapEntry.mem_pages {r : SmapEntry} (hv : r.Valid) {x : Word × Bool} (hx : x ∈ r.pages) :
    r.base.toNat ≤ x.1.toNat ∧ x.1.toNat < r.top ∧ (x.2 = true ↔ x.1.toNat + 4096 ≤ r.top) := by
  unfold SmapEntry.pages at hx
  split at hx
  · simp at hx
  obtain ⟨i, hi, rfl⟩ := List.mem_map.1 hx
  have hi := List.mem_range.1 hi
  have htop : r.top = r.base.toNat + r.length.toNat := rfl
  have hs : r.started = (r.length.toNat + 4095) / 4096 := rfl
  have hw : r.whole = r.length.toNat / 4096 := rfl
  simp only [SmapEntry.page_toNat hv hi, decide_eq_true_eq]
  omega

theorem SmapEntry.nodup_pages {r : SmapEntry} (hv : r.Valid) : (r.pages.map Prod.fst).Nodup := by
  unfold SmapEntry.pages
  split
  · simp
  rw [List.map_map, List.nodup_map_iff_inj_on List.nodup_range]
  intro i hi j hj e
  have e' := congrArg BitVec.toNat e
  simp only [Function.comp, SmapEntry.page_toNat hv (List.mem_range.1 hi),
    SmapEntry.page_toNat hv (List.mem_range.1 hj)] at e'
  omega

theorem mem_bootPages {x : Word × Bool} : x ∈ bootPages rs ↔ ∃ r ∈ rs, r.base ≠ 0 ∧ x ∈ r.pages := by
  simp [bootPages, List.mem_flatMap, and_assoc]

theorem MemoryMap.nodup (h : MemoryMap rs) : ((bootPages rs).map Prod.fst).Nodup := by
  rw [bootPages, List.map_flatMap, List.nodup_flatMap]
  refine ⟨fun r hr => SmapEntry.nodup_pages (h.valid r (List.mem_of_mem_filter hr)), ?_⟩
  refine (h.disjoint.filter _).imp_of_mem fun {r r'} hr hr' hd => ?_
  change List.Disjoint _ _
  intro b hb hb'
  obtain ⟨x, hx, rfl⟩ := List.mem_map.1 hb
  obtain ⟨x', hx', e⟩ := List.mem_map.1 hb'
  have h1 := SmapEntry.mem_pages (h.valid r (List.mem_of_mem_filter hr)) hx
  have h2 := SmapEntry.mem_pages (h.valid r' (List.mem_of_mem_filter hr')) hx'
  rw [e] at h2
  rcases hd with hd | hd <;> omega

/-- A page is marked iff it lies inside a region. -/
theorem MemoryMap.marked_iff (h : MemoryMap rs) {x : Word × Bool} (hx : x ∈ bootPages rs) :
    x.2 = true ↔ ∃ r ∈ rs, r.base.toNat ≤ x.1.toNat ∧ x.1.toNat + 4096 ≤ r.top := by
  obtain ⟨r, hr, -, hx⟩ := mem_bootPages.1 hx
  obtain ⟨h1, h2, h3⟩ := SmapEntry.mem_pages (h.valid r hr) hx
  rw [h3]
  constructor
  · intro h4; exact ⟨r, hr, h1, h4⟩
  · rintro ⟨r', hr', h4, h5⟩
    rw [h.eq_of_overlap hr hr' h1 h2 h4 (by omega)]
    exact h5

theorem SmapEntry.mem_pages_of_lt {r : SmapEntry} (htop : r.top ≠ 2 ^ 64) {k : Nat} (hk : k < r.whole) :
    (r.base + BitVec.ofNat 64 (4096 * k), true) ∈ r.pages := by
  unfold SmapEntry.pages
  rw [if_neg htop]
  refine List.mem_map.2 ⟨k, List.mem_range.2 ?_, by simp [hk]⟩
  rw [r.started_eq]
  omega

/-- The first `n` pages are the inventory iff no region ends with the address space, these pages are
marked, and no later one is. -/
theorem MemoryMap.inventory_take_iff (h : MemoryMap rs) (n : Nat) :
    Inventory rs (((bootPages rs).take n).map Prod.fst) ↔
      (∀ r ∈ rs, r.base ≠ 0 → r.top ≠ 2 ^ 64) ∧
      (∀ x ∈ (bootPages rs).take n, x.2 = true) ∧ ∀ x ∈ (bootPages rs).drop n, x.2 = false := by
  have hnd := h.nodup
  rw [← List.take_append_drop n (bootPages rs), List.map_append, List.nodup_append] at hnd
  obtain ⟨hnd1, -, hdis⟩ := hnd
  constructor
  · rintro ⟨hcount, hin⟩
    have hlisted : ∀ r ∈ rs, r.base ≠ 0 → ∀ k < r.whole, ∃ x ∈ (bootPages rs).take n,
        x.1 = r.base + BitVec.ofNat 64 (4096 * k) := by
      intro r hr hb k hk
      have hmem := List.count_pos_iff.1 (by rw [hcount r hr hb k hk]; exact Nat.one_pos)
      exact List.mem_map.1 hmem
    refine ⟨fun r hr hb htop => ?_, fun x hx => ?_, fun x hx => ?_⟩
    · -- the top page of such a region is visited in no region
      have hv := h.valid r hr
      have hal := hv.aligned
      have hlen := hv.length_pos
      have htopdef : r.top = r.base.toNat + r.length.toNat := rfl
      have hw : r.whole = r.length.toNat / 4096 := rfl
      obtain ⟨x, hx, e⟩ := hlisted r hr hb 0 (by omega)
      obtain ⟨r', hr', -, hx'⟩ := mem_bootPages.1 (List.mem_of_mem_take hx)
      obtain ⟨h1, h2, -⟩ := SmapEntry.mem_pages (h.valid r' hr') hx'
      have e' : x.1 = r.base := by simpa using e
      obtain rfl := h.eq_of_overlap hr hr' (Nat.le_of_eq (by rw [e'])) (by rw [e']; omega) h1 h2
      simp [SmapEntry.pages, htop] at hx'
    · exact (h.marked_iff (List.mem_of_mem_take hx)).2 (hin x.1 (List.mem_map_of_mem hx))
    · by_contra hne
      have htrue : x.2 = true := by simpa using hne
      have hx0 := List.mem_of_mem_drop hx
      obtain ⟨r, hr, hb, hxr⟩ := mem_bootPages.1 hx0
      unfold SmapEntry.pages at hxr
      split at hxr
      · simp at hxr
      obtain ⟨i, -, rfl⟩ := List.mem_map.1 hxr
      obtain ⟨y, hy, e⟩ := hlisted r hr hb i (by simpa using htrue)
      exact hdis _ (List.mem_map_of_mem hy) _ (List.mem_map_of_mem hx) e
  · rintro ⟨htop, htake, hdrop⟩
    refine ⟨fun r hr hb k hk => ?_, fun b hb => ?_⟩
    · have hmem := mem_bootPages.2 ⟨r, hr, hb, SmapEntry.mem_pages_of_lt (htop r hr hb) hk⟩
      rw [← List.take_append_drop n (bootPages rs), List.mem_append] at hmem
      rcases hmem with hmem | hmem
      · exact List.count_eq_one_of_mem hnd1 (List.mem_map.2 ⟨_, hmem, rfl⟩)
      · exact absurd (hdrop _ hmem) (by simp)
    · obtain ⟨x, hx, rfl⟩ := List.mem_map.1 hb
      exact (h.marked_iff (List.mem_of_mem_take hx)).1 (htake x hx)

/-! ## Marks only -/

/-- Marks of a region's pages: the whole ones, then the one it ends in, if any. -/
def SmapEntry.marks (r : SmapEntry) : List Bool :=
  List.replicate r.whole true ++ List.replicate (r.started - r.whole) false

theorem SmapEntry.pages_marks {r : SmapEntry} (htop : r.top ≠ 2 ^ 64) : r.pages.map Prod.snd = r.marks := by
  have hs := r.started_eq
  unfold SmapEntry.pages SmapEntry.marks
  rw [if_neg htop, List.map_map]
  apply List.ext_getElem (by simp; omega)
  intro i h1 h2
  simp only [List.getElem_map, List.getElem_range, Function.comp, List.getElem_append, List.length_replicate,
    List.getElem_replicate]
  split <;> simp_all

/-- The first `n` marks are set and no later one is. -/
def MarkedPrefix (gs : List Bool) (n : Nat) : Prop := (∀ g ∈ gs.take n, g = true) ∧ ∀ g ∈ gs.drop n, g = false

theorem MarkedPrefix.of_append_true {as bs : List Bool} {n : Nat} (h : MarkedPrefix (as ++ true :: bs) n) :
    ∀ a ∈ as, a = true := by
  have hn : as.length < n := by
    by_contra hle
    have := h.2 true (by rw [List.drop_append_of_le_length (by omega)]; simp)
    simp at this
  intro a ha
  refine h.1 a ?_
  rw [List.take_append, List.take_of_length_le (by omega)]
  exact List.mem_append_left _ ha

theorem MarkedPrefix.mk_append {ts fs : List Bool} (ht : ∀ g ∈ ts, g = true) (hf : ∀ g ∈ fs, g = false) :
    MarkedPrefix (ts ++ fs) ts.length :=
  ⟨by rw [List.take_left]; exact ht, by rw [List.drop_left]; exact hf⟩

theorem MarkedPrefix.count {gs : List Bool} {n : Nat} (h : MarkedPrefix gs n) (hn : n ≤ gs.length) :
    gs.count true = n := by
  rw [← List.take_append_drop n gs, List.count_append, List.count_eq_length.2 (fun b hb => (h.1 b hb).symm),
    List.count_eq_zero.2 (fun hm => by simpa using h.2 true hm), List.length_take]
  omega

theorem SmapEntry.count_marks (r : SmapEntry) : r.marks.count true = r.whole := by
  simp [SmapEntry.marks, List.count_append, List.count_replicate]

theorem SmapEntry.length_marks (r : SmapEntry) : r.marks.length = r.started := by
  have := r.started_eq
  simp [SmapEntry.marks]
  omega

theorem SmapEntry.marks_of_whole_eq_zero {r : SmapEntry} (h : r.whole = 0) :
    r.marks = List.replicate r.started false := by
  rw [SmapEntry.marks, h, List.replicate_zero, List.nil_append, Nat.sub_zero]

theorem SmapEntry.false_mem_marks {r : SmapEntry} (h : r.whole < r.started) : false ∈ r.marks :=
  List.mem_append_right _ (List.mem_replicate.2 ⟨Nat.sub_ne_zero_of_lt h, rfl⟩)

theorem count_flatMap_marks (rs : List SmapEntry) :
    (rs.flatMap SmapEntry.marks).count true = (rs.map SmapEntry.whole).sum := by
  induction rs with
  | nil => rfl
  | cons r rs ih => simp [List.flatMap_cons, List.count_append, SmapEntry.count_marks, ih]

/-- One region. -/
theorem markedPrefix_single (r : SmapEntry) : MarkedPrefix r.marks r.started ↔ r.length.toNat % 4096 = 0 := by
  have hs := r.started_eq
  have hl := r.length_marks
  unfold MarkedPrefix
  rw [List.take_of_length_le (by omega), List.drop_of_length_le (by omega)]
  constructor
  · rintro ⟨h, -⟩
    by_contra hne
    rw [if_neg hne] at hs
    have := h false (SmapEntry.false_mem_marks (by omega))
    simp at this
  · intro he
    rw [if_pos he] at hs
    simp [SmapEntry.marks, hs]

/-- Several regions, the chain cut to the length of the last one. -/
theorem markedPrefix_several {r l : SmapEntry} {mid : List SmapEntry}
    (hmid : ∀ r' ∈ r :: (mid ++ [l]), 0 < r'.started) :
    MarkedPrefix ((r :: (mid ++ [l])).flatMap SmapEntry.marks) l.started ↔
      (r.whole = 1 ∧ ∀ r' ∈ mid ++ [l], r'.whole = 0) ∨
      ∃ r', mid ++ [l] = [r'] ∧ r.length.toNat = 4096 ∧ 0 < r'.whole ∧ r'.length.toNat % 4096 ≠ 0 := by
  have hsr := r.started_eq
  have hsl := l.started_eq
  have hposr := hmid r List.mem_cons_self
  have hposl := hmid l (by simp)
  have hgs : (r :: (mid ++ [l])).flatMap SmapEntry.marks = (r.marks ++ mid.flatMap SmapEntry.marks) ++ l.marks := by
    simp [List.flatMap_append]
  rw [hgs]
  constructor
  · intro h
    have hcount := h.count (by simp [SmapEntry.length_marks]; omega)
    simp only [List.count_append, count_flatMap_marks, SmapEntry.count_marks] at hcount
    have hwr : 0 < r.whole := by
      by_contra h0
      obtain ⟨k, hk⟩ : ∃ k, r.started = k + 1 := ⟨r.started - 1, by omega⟩
      obtain ⟨n, hn⟩ : ∃ n, l.started = n + 1 := ⟨l.started - 1, by omega⟩
      have hrm := SmapEntry.marks_of_whole_eq_zero (Nat.eq_zero_of_not_pos h0)
      have := h.1 false (by simp [hrm, hk, hn, List.replicate_succ])
      simp at this
    have hmod : l.length.toNat % 4096 ≠ 0 := fun e => by rw [if_pos e] at hsl; omega
    rw [if_neg hmod] at hsl
    have hsum : (mid.map SmapEntry.whole).sum = 0 := by omega
    have hmid0 : ∀ m ∈ mid, m.whole = 0 := by
      intro m hm
      exact List.sum_eq_zero_iff_forall_eq_nat.1 hsum _ (List.mem_map_of_mem hm)
    by_cases hwl : l.whole = 0
    · left
      refine ⟨by omega, fun r' hr' => ?_⟩
      rcases List.mem_append.1 hr' with hr' | hr'
      · exact hmid0 r' hr'
      · rw [List.mem_singleton.1 hr']; exact hwl
    · -- a whole page of the last region: every mark before it is set
      right
      obtain ⟨w, hw⟩ : ∃ w, l.whole = w + 1 := ⟨l.whole - 1, by omega⟩
      have hlm : l.marks = true :: (List.replicate w true ++ List.replicate (l.started - l.whole) false) := by
        rw [SmapEntry.marks, hw, List.replicate_succ]; rfl
      rw [hlm] at h
      have htrue := h.of_append_true
      have hnil : mid = [] := by
        rcases mid with _ | ⟨m, ms⟩
        · rfl
        · have hm0 := hmid0 m List.mem_cons_self
          have hmp := hmid m (by simp)
          have hmem : false ∈ m.marks := SmapEntry.false_mem_marks (by omega)
          have := htrue false (by simp [List.flatMap_cons, hmem])
          simp at this
      subst hnil
      have hr0 : r.length.toNat % 4096 = 0 := by
        by_contra hne
        rw [if_neg hne] at hsr
        have hmem : false ∈ r.marks := SmapEntry.false_mem_marks (by omega)
        have := htrue false (by simp [hmem])
        simp at this
      have hwdef : r.whole = r.length.toNat / 4096 := rfl
      simp only [List.map_nil, List.sum_nil] at hcount
      exact ⟨l, rfl, by omega, by omega, hmod⟩
  · rintro (⟨hr1, hrest⟩ | ⟨r', he, hlen, hw, hmod⟩)
    · have hl0 := hrest l (by simp)
      have hl1 : l.started = 1 := by split at hsl <;> omega
      have hrm : r.marks = [true] ++ List.replicate (r.started - 1) false := by
        rw [SmapEntry.marks, hr1]; rfl
      rw [hl1, hrm, List.append_assoc, List.append_assoc]
      refine MarkedPrefix.mk_append (by simp) fun g hg => ?_
      simp only [List.mem_append, List.mem_flatMap, List.mem_replicate] at hg
      rcases hg with ⟨-, rfl⟩ | ⟨m, hm, hg⟩ | hg
      · rfl
      · rw [SmapEntry.marks_of_whole_eq_zero (hrest m (List.mem_append_left _ hm))] at hg
        exact (List.mem_replicate.1 hg).2
      · rw [SmapEntry.marks_of_whole_eq_zero hl0] at hg
        exact (List.mem_replicate.1 hg).2
    · obtain ⟨rfl, rfl⟩ : mid = [] ∧ l = r' := by
        rcases mid with _ | ⟨m, ms⟩
        · simpa using he
        · simp at he
      have hwr : r.whole = r.length.toNat / 4096 := rfl
      rw [if_neg hmod] at hsl
      rw [if_pos (by omega)] at hsr
      have hrm : r.marks = [true] := by
        rw [SmapEntry.marks, hsr, show r.whole = 1 by omega]; rfl
      have hlm : l.marks = List.replicate l.whole true ++ [false] := by
        rw [SmapEntry.marks, hsl]; simp
      have hcut := @MarkedPrefix.mk_append ([true] ++ List.replicate l.whole true) [false] (by simp) (by simp)
      rw [hrm, hlm, hsl]
      simpa [Nat.add_comm] using hcut

/-! ## The exact condition -/

/-- The listed bases are the first `n` written. -/
theorem BootInv.listed {s : Frames} {physfree n : Nat} {bases : List Word} (h : BootInv s physfree bases n) :
    (List.range' 1 n).map s.base = bases.take n := by
  have hn := h.n_le
  apply List.ext_getElem (by simp; omega)
  intro i h1 h2
  simp only [List.getElem_map, List.getElem_range', Nat.one_mul, List.getElem_take]
  rw [Nat.add_comm]
  exact h.base_eq i (by simp at h1; omega)

theorem relink_foldl : ∀ (rs : List SmapEntry) (n : Nat), (∀ r ∈ rs, r.base ≠ 0 → r.pages ≠ []) →
    rs.foldl SmapEntry.relink n = (((rs.filter fun r => r.base ≠ 0).getLast?).map fun r => r.pages.length).getD n
  | [], _, _ => rfl
  | r :: rs, n, h => by
    have ih := relink_foldl rs (r.relink n) fun r' hr' => h r' (List.mem_cons_of_mem _ hr')
    rw [List.foldl_cons, ih]
    by_cases hb : r.base = 0
    · rw [List.filter_cons_of_neg (by simpa using hb), SmapEntry.relink, if_pos (Or.inl hb)]
    · rw [List.filter_cons_of_pos (by simpa using hb), SmapEntry.relink,
        if_neg (fun e => e.elim hb (h r List.mem_cons_self hb)), List.getLast?_cons]
      cases (rs.filter fun r => r.base ≠ 0).getLast? <;> rfl

/-- The marks of all pages against the chain's length, for maps that stay below the last page. -/
theorem markedPrefix_iff (hv : ∀ r ∈ rs, r.Valid) (htop : ∀ r ∈ rs, r.base ≠ 0 → r.top + 4096 ≤ 2 ^ 64) :
    MarkedPrefix ((bootPages rs).map Prod.snd) (rs.foldl SmapEntry.relink 0) ↔ InventoryOk rs := by
  have hne : ∀ r ∈ rs, r.base ≠ 0 → r.top ≠ 2 ^ 64 := fun r hr hb => by have := htop r hr hb; omega
  have hlen : ∀ r ∈ rs, r.base ≠ 0 → r.pages.length = r.started := by
    intro r hr hb
    rw [← r.length_marks, ← SmapEntry.pages_marks (hne r hr hb), List.length_map]
  have hpages : ∀ r ∈ rs, r.base ≠ 0 → r.pages ≠ [] := by
    intro r hr hb e
    have h1 := hlen r hr hb
    have h2 := (hv r hr).started_pos
    rw [e] at h1
    simp at h1
    omega
  have hmarks : (bootPages rs).map Prod.snd = (rs.filter fun r => r.base ≠ 0).flatMap SmapEntry.marks := by
    rw [bootPages, List.map_flatMap]
    refine List.flatMap_congr fun r hr => ?_
    obtain ⟨hr, hb⟩ := List.mem_filter.1 hr
    exact SmapEntry.pages_marks (hne r hr (by simpa using hb))
  rw [relink_foldl rs 0 hpages, hmarks, InventoryOk, and_iff_right htop]
  have hL : ∀ r ∈ rs.filter fun r => r.base ≠ 0, 0 < r.started ∧ r.pages.length = r.started := by
    intro r hr
    obtain ⟨hr, hb⟩ := List.mem_filter.1 hr
    exact ⟨(hv r hr).started_pos, hlen r hr (by simpa using hb)⟩
  generalize (rs.filter fun r => r.base ≠ 0) = L at hL
  rcases L with _ | ⟨r, _ | ⟨r', rest⟩⟩
  · simp [MarkedPrefix]
  · simpa [(hL r (by simp)).2] using markedPrefix_single r
  · obtain ⟨mid, l, hml⟩ : ∃ mid l, r' :: rest = mid ++ [l] :=
      ⟨_, _, (List.dropLast_append_getLast (List.cons_ne_nil r' rest)).symm⟩
    have hlast : (r :: r' :: rest).getLast? = some l := by rw [hml]; simp [List.getLast?_cons]
    have hseveral := @markedPrefix_several r l mid fun r'' hr'' => (hL r'' (by rw [hml]; exact hr'')).1
    rw [← hml] at hseveral
    rw [hlast]
    simp only [Option.map_some, Option.getD_some, (hL l (List.mem_of_getLast? hlast)).2]
    exact hseveral

/-- A boot that ends leaves the first pages of the map on the free list. -/
theorem bootInventory_iff_take (h : MemoryMap rs)
    (hends : ∀ r ∈ rs, r.base ≠ 0 → r.top = 2 ^ 64 ∨ r.top + 4096 ≤ 2 ^ 64) (s₀ : Frames) :
    BootInventory rs s₀ ↔ Inventory rs (((bootPages rs).take (rs.foldl SmapEntry.relink 0)).map Prod.fst) := by
  -- no region starts more pages than the address space has
  have hfuel : ∀ r ∈ rs, r.started < 2 ^ 53 := by
    intro r _
    have := r.length.isLt
    unfold SmapEntry.started
    omega
  obtain ⟨p, s, e, B⟩ := startSmap_spec rs (fun r hr => ⟨h.valid r hr, hfuel r hr, hends r hr⟩) (BootInv.init s₀)
  rw [List.nil_append] at B
  rw [List.map_take, ← B.listed]
  constructor
  · rintro ⟨fuel, p', s', chain, e', hl, hinv⟩
    obtain ⟨rfl, rfl⟩ := Prod.mk.inj (startSmap_fuel _ _ _ _ _ e' e)
    rwa [hl.unique B.chain] at hinv
  · exact fun hinv => ⟨_, p, s, _, e, B.chain, hinv⟩

/-- **Boot frame inventory.** For every memory map and whatever the node array held before, the boot
leaves the map's inventory on the free list exactly when the map is one of `InventoryOk`. -/
theorem boot_inventory_iff (h : MemoryMap rs) (s₀ : Frames) : BootInventory rs s₀ ↔ InventoryOk rs := by
  by_cases hdiv : ∃ r ∈ rs, r.base ≠ 0 ∧ r.top ≠ 2 ^ 64 ∧ 2 ^ 64 < r.top + 4096
  · constructor
    · rintro ⟨fuel, p, s, -, e, -⟩
      rw [bootFrames, startSmap_diverges rs h.valid hdiv] at e
      cases e
    · rintro ⟨htop, -⟩
      obtain ⟨r, hr, hb, -, hlt⟩ := hdiv
      have := htop r hr hb
      omega
  · have hends : ∀ r ∈ rs, r.base ≠ 0 → r.top = 2 ^ 64 ∨ r.top + 4096 ≤ 2 ^ 64 := by
      intro r hr hb
      by_contra hne
      exact hdiv ⟨r, hr, hb, by omega, by omega⟩
    have hmark := fun hok => markedPrefix_iff h.valid hok
    simp only [MarkedPrefix, ← List.map_take, ← List.map_drop, List.forall_mem_map] at hmark
    rw [bootInventory_iff_take h hends, h.inventory_take_iff]
    constructor
    · rintro ⟨htop, htake, hdrop⟩
      exact (hmark fun r hr hb => (hends r hr hb).resolve_left (htop r hr hb)).1 ⟨htake, hdrop⟩
    · intro hok
      exact ⟨fun r hr hb => by have := hok.1 r hr hb; omega, (hmark hok.1).2 hok⟩

/-- One region of two pages. -/
theorem boot_inventory_iff_one : BootInventory [⟨0x100000, 0x2000, 1⟩] ⟨fun _ => ⟨0, 0⟩, 0, 0, 0, 0⟩ := by
  refine (boot_inventory_iff ⟨?_, by simp⟩ _).2 ⟨?_, ?_⟩
  · intro r hr
    rw [List.mem_singleton.1 hr]
    exact ⟨rfl, by decide, by decide, by decide⟩
  · intro r hr _
    rw [List.mem_singleton.1 hr]
    decide
  · show (0x2000 : Word).toNat % 4096 = 0
    decide

/-- Two pages at `0x1000` and one at `0x5000`: the second call makes the list the single frame `0x1000`. -/
theorem boot_inventory_two_regions : ¬ ∀ rs s₀, MemoryMap rs → BootInventory rs s₀ := by
  intro hall
  have hmap : MemoryMap [⟨0x1000, 0x2000, 1⟩, ⟨0x5000, 0x1000, 1⟩] := by
    refine ⟨fun r hr => ?_, ?_⟩
    · simp only [List.mem_cons, List.not_mem_nil, or_false] at hr
      rcases hr with rfl | rfl <;> exact ⟨rfl, by decide, by decide, by decide⟩
    · simp only [List.pairwise_cons, List.mem_singleton, forall_eq, List.not_mem_nil, false_imp_iff, implies_true,
        List.Pairwise.nil, and_true]
      exact Or.inl (by decide)
  have h := hall _ ⟨fun _ => ⟨0, 0⟩, 0, 0, 0, 0⟩ hmap
  rw [bootInventory_iff_take hmap, hmap.inventory_take_iff] at h
  · exact absurd (h.2.2 (0x2000, true) (by decide)) (by decide)
  · intro r hr _
    simp only [List.mem_cons, List.not_mem_nil, or_false] at hr
    rcases hr with rfl | rfl <;> decide

end Sbuos
