import Sbuos.MarkCow
/-!
# The address spaces of all processes

`Spaces m R P K gs`: the PML4s in `R` root trees of tables that share nothing but the kernel's half, the tables
behind `K` in slot 511; the frames in `gs` are free, and the frames that pages are mapped to are neither tables nor
free. Slot 509 of a PML4 leads to that of a fork partner, which maps whatever is read-only here.

Nothing is said of what a free frame holds. A fork takes frames for the child's tables without clearing them, so that
a table may have entries that nobody put there: `P r` are the paths that count in the tree at `r`, and `Spaces` says
nothing of the others.

The kernel changes the tables in four ways, and each keeps this: it hangs a frame into its own half
(`Spaces.hang`), stores where no table is (`Spaces.congr`), gives a page another entry (`Spaces.setPage`), and
shares all pages with a new process (`Sharing.share`).
-/
namespace Sbuos
open Lib

/-- A page below slot 509: the path to its page table, and its index there. -/
structure Page where
  path : List Index
  index : Index
  low : Low path
  length_eq : path.length = 3
  deriving DecidableEq

/-- The entry of a page; 0 if there is no page table for it. -/
def Page.leaf (m : PMem) (r : Frame) (x : Page) : Word := Sbuos.leaf m r x.path x.index

/-- What a leaf entry says: the frame, and whether it may be written. -/
def mappingOf (e : Word) : Option (Frame × Bool) := (child e).map fun f => (f, e &&& readWrite ≠ 0)

def Page.mapping (m : PMem) (r : Frame) (x : Page) : Option (Frame × Bool) := mappingOf (x.leaf m r)

/-- The MMU lets a user write through a table entry. -/
def Passes (e : Word) : Prop := e &&& readWrite ≠ 0 ∧ e &&& userAccessible ≠ 0

/-- Paths below slot 509 that a process has, to its tables and its pages. -/
structure Paths where
  has : List Index → Prop
  nil : has []
  closed : ∀ p q, has (p ++ q) → has p
  low : ∀ p, has p → Low p

theorem low_nil : Low [] := fun _ hi => (Option.some_ne_none _ hi.symm).elim

namespace Paths

/-- All of them. -/
def all : Paths where
  has := Low
  nil := low_nil
  closed _ _ h := h.of_append
  low _ h := h

def page (Q : Paths) (x : Page) : Prop := Q.has (x.path ++ [x.index])

theorem page_path {Q : Paths} {x : Page} (h : Q.page x) : Q.has x.path := Q.closed x.path [x.index] h

theorem all_page (x : Page) : all.page x :=
  x.low.concat (fun e => absurd (e ▸ x.length_eq) (by decide)) x.index

/-- Those along the entries of the tree at `r`. -/
def mapped (m : PMem) (r : Frame) : Paths where
  has p := Low p ∧ ∀ q i, q ++ [i] <+: p → Mapped m r q i
  nil := ⟨low_nil, fun q i h => by simp at h⟩
  closed _ q h := ⟨h.1.of_append, fun q' i hq => h.2 q' i (hq.trans (List.prefix_append _ q))⟩
  low _ h := h.1

variable {m : PMem} {r : Frame} {p : List Index} {i : Index}

theorem mapped_of_has (h : (mapped m r).has (p ++ [i])) : Mapped m r p i := h.2 p i List.prefix_rfl

theorem has_mapped (h : Mapped m r p i) : (mapped m r).has (p ++ [i]) := by
  refine ⟨h.2.1, fun q j hq => ?_⟩
  rcases List.prefix_concat_iff.1 hq with e | hq
  · obtain ⟨rfl, hij⟩ := List.append_inj' e rfl
    obtain rfl := List.singleton_inj.1 hij
    exact h
  · -- the walk to the entry passes through this one
    obtain ⟨hlen, hlow, f, hf, -⟩ := h
    obtain ⟨u, rfl⟩ := hq
    obtain ⟨g, hg, -⟩ := Radix.exists_walk_prefix hf
    rw [Radix.walk_snoc] at hg
    obtain ⟨f', hf', hchild⟩ := Option.bind_eq_some_iff.1 hg
    have hle : q.length ≤ 3 := by
      rw [List.length_append, List.length_append] at hlen
      omega
    exact ⟨hle, hlow.of_append.of_append, f', hf', (child_eq_some hchild).1⟩

end Paths

/-- All paths count in all trees. -/
abbrev whole : Frame → Paths := fun _ => .all

/-- The paths to tables: from each PML4 those that count, and from `K` those of the kernel's half. -/
def Owned (R : Frame → Prop) (P : Frame → Paths) (K r : Frame) (p : List Index) : Prop :=
  (R r ∧ (P r).has p ∧ p.length ≤ 3) ∨ (r = K ∧ p.length ≤ 2)

structure Spaces (m : PMem) (R : Frame → Prop) (P : Frame → Paths) (K : Frame) (gs : List Frame) : Prop where
  self : ∀ r, R r → SelfMapped m r
  kernel : ∀ r, R r → child (m r 511) = some K
  apart : ¬R K
  present : ∀ r p i f, Owned R P K r (p ++ [i]) → walk m r p = some f → m f i ≠ 0 →
    child (m f i) ≠ none ∧ (R r → Passes (m f i))
  distinct : Radix.Forest child m (Owned R P K)
  pages : ∀ r x, R r → (P r).page x → Page.leaf m r x ≠ 0 →
    ∃ g, child (x.leaf m r) = some g ∧ Radix.Fresh child m (Owned R P K) g ∧ g ∉ gs
  partner : ∀ r, R r → m r 509 = 0 ∨ ∃ r', R r' ∧ r' ≠ r ∧ child (m r 509) = some r' ∧
    ∀ x g, (P r).page x → Page.mapping m r x = some (g, false) → (P r').page x ∧ Page.mapping m r' x ≠ none
  nodup : gs.Nodup
  fresh : ∀ g ∈ gs, Radix.Fresh child m (Owned R P K) g

section owned
variable {R : Frame → Prop} {P : Frame → Paths} {K r : Frame} {p q : List Index} {x : Page}

theorem Owned.closed : ∀ r p q, Owned R P K r (p ++ q) → Owned R P K r p := by
  rintro r p q (⟨hr, hpq, hlen⟩ | ⟨hr, hlen⟩)
  · rw [List.length_append] at hlen
    exact .inl ⟨hr, (P r).closed p q hpq, by omega⟩
  · rw [List.length_append] at hlen
    exact .inr ⟨hr, by omega⟩

theorem Owned.root (hr : R r) : Owned R P K r [] := .inl ⟨hr, (P r).nil, Nat.zero_le 3⟩

theorem Owned.kernel (hp : p.length ≤ 2) : Owned R P K K p := .inr ⟨rfl, hp⟩

theorem Owned.of_has (hr : R r) (hp : (P r).has p) (hlen : p.length ≤ 3) : Owned R P K r p := .inl ⟨hr, hp, hlen⟩

/-- Where all paths count. -/
theorem Owned.low (hr : R r) (hall : P r = .all) (hp : Low p) (hlen : p.length ≤ 3) : Owned R P K r p :=
  .of_has hr (hall ▸ hp) hlen

theorem Owned.page (hr : R r) (hx : (P r).page x) : Owned R P K r x.path :=
  .of_has hr (Paths.page_path hx) x.length_eq.le

/-- From a PML4 the paths are those that count there. -/
theorem Owned.of_root (hK : ¬R K) (hr : R r) (h : Owned R P K r p) : (P r).has p ∧ p.length ≤ 3 := by
  rcases h with ⟨-, h⟩ | ⟨rfl, -⟩
  · exact h
  · exact absurd hr hK

theorem Owned.low_of_root (hK : ¬R K) (hr : R r) (h : Owned R P K r p) : Low p := (P r).low p (h.of_root hK hr).1

/-- Page tables are the last level. -/
theorem Owned.max_page (hK : ¬R K) (hr : R r) (x : Page) (i : Index) : ¬Owned R P K r (x.path ++ [i]) := by
  intro h
  have hlen := (Owned.of_root hK hr h).2
  rw [List.length_append, List.length_singleton, x.length_eq] at hlen
  omega

end owned

/-! ## Bits of an entry -/

section bits
variable (e : Word)

theorem and_present : e &&& present = if e.getLsbD 0 then present else 0 := by
  rw [show present = BitVec.twoPow 64 0 by decide, BitVec.and_twoPow]
  rfl

theorem and_readWrite : e &&& readWrite = if e.getLsbD 1 then readWrite else 0 := by
  rw [show readWrite = BitVec.twoPow 64 1 by decide, BitVec.and_twoPow]
  rfl

theorem and_readWrite_ne_zero : e &&& readWrite ≠ 0 ↔ e.getLsbD 1 = true := by
  rw [and_readWrite]
  cases e.getLsbD 1 <;> decide

theorem child_cowEntry : child (cowEntry e) = child e := by
  have hp : cowEntry e &&& present = e &&& present := by
    rw [and_present, and_present]
    simp [cowEntry, readWrite, cow]
  have hf : frameOf (cowEntry e) = frameOf e := by
    apply BitVec.eq_of_getLsbD_eq
    intro k hk
    simp only [frameOf, cowEntry, readWrite, cow]
    interval_cases k <;> simp
  rw [child, child, hp, hf]

theorem cowEntry_readOnly : cowEntry e &&& readWrite = 0 := by
  rw [and_readWrite]
  simp [cowEntry, readWrite, cow]

theorem cowEntry_cow : cowEntry e &&& cow ≠ 0 := by
  intro h
  have hbit := congrArg (fun x : Word => x.getLsbD 9) h
  simp [cowEntry, readWrite, cow] at hbit

end bits

/-- What `_do_mark_COW` makes of a leaf entry. -/
def sharedEntry (e : Word) : Word := if e = 0 then 0 else cowEntry e

theorem mappingOf_sharedEntry (e : Word) : mappingOf (sharedEntry e) = (mappingOf e).map fun t => (t.1, false) := by
  unfold sharedEntry
  split
  case isTrue h =>
    subst h
    rfl
  case isFalse =>
    rw [mappingOf, mappingOf, child_cowEntry, cowEntry_readOnly]
    cases child e <;> rfl

namespace Page
variable {m m' : PMem} {r f g : Frame} {x : Page} {e : Word} {w : Bool}

theorem leaf_of_walk (hf : walk m r x.path = some f) : x.leaf m r = m f x.index := by
  rw [leaf, Sbuos.leaf, pageEntry, hf]
  rfl

/-- A page with an entry has a page table. -/
theorem exists_table (h : x.leaf m r ≠ 0) : ∃ f, walk m r x.path = some f ∧ x.leaf m r = m f x.index := by
  cases hf : walk m r x.path with
  | none =>
    refine absurd ?_ h
    rw [leaf, Sbuos.leaf, pageEntry, hf]
    rfl
  | some f => exact ⟨f, rfl, leaf_of_walk hf⟩

theorem leaf_congr (hw : walk m' r x.path = walk m r x.path)
    (hf : ∀ f, walk m r x.path = some f → m' f x.index = m f x.index) : x.leaf m' r = x.leaf m r := by
  rw [leaf, leaf, Sbuos.leaf, Sbuos.leaf, pageEntry, pageEntry, hw]
  cases h : walk m r x.path with
  | none => rfl
  | some f => rw [Option.map_some, Option.map_some, hf f h]

theorem mapping_eq_some : x.mapping m r = some (g, w) ↔
    child (x.leaf m r) = some g ∧ w = decide (x.leaf m r &&& readWrite ≠ 0) := by
  rw [mapping, mappingOf, Option.map_eq_some_iff]
  constructor
  · rintro ⟨g', hg, heq⟩
    obtain ⟨rfl, rfl⟩ := Prod.mk.inj heq
    exact ⟨hg, rfl⟩
  · rintro ⟨hg, rfl⟩
    exact ⟨g, hg, rfl⟩

theorem leaf_ne_zero (h : x.mapping m r = some (g, w)) : x.leaf m r ≠ 0 := (child_eq_some (mapping_eq_some.1 h).1).1

theorem ext_iff' {y : Page} : x = y ↔ x.path = y.path ∧ x.index = y.index := by
  cases x
  cases y
  simp

end Page

namespace Spaces
variable {m m' : PMem} {R : Frame → Prop} {P : Frame → Paths} {K r r' f g : Frame} {gs gs' : List Frame}
  {p q : List Index} {i : Index} {x y : Page} {e : Word} {w : Bool}

/-- The frame of a page is no table, and not free. -/
theorem fresh_of_mapping (h : Spaces m R P K gs) (hr : R r) (hpage : (P r).page x)
    (hx : x.mapping m r = some (g, w)) : Radix.Fresh child m (Owned R P K) g ∧ g ∉ gs := by
  obtain ⟨g', hg', hfresh, hfree⟩ := h.pages r x hr hpage (Page.leaf_ne_zero hx)
  obtain rfl := Option.some.inj ((Page.mapping_eq_some.1 hx).1.symm.trans hg')
  exact ⟨hfresh, hfree⟩

theorem mapping_ne_none (h : Spaces m R P K gs) (hr : R r) (hpage : (P r).page x) (hx : x.leaf m r ≠ 0) :
    x.mapping m r ≠ none := by
  obtain ⟨g, hg, -, -⟩ := h.pages r x hr hpage hx
  rw [Page.mapping, mappingOf, hg]
  exact Option.some_ne_none _

/-! ## One tree -/

/-- Slot 511 leads into the kernel's half. -/
theorem walk_kernel (h : Spaces m R P K gs) (hr : R r) (p : List Index) : walk m r (511 :: p) = walk m K p := by
  rw [walk, Radix.walk_cons, h.kernel r hr, Option.bind_some]

/-- A path outside the slots 509 and 510. -/
theorem plain_cases (hp : Plain p) : Low p ∨ ∃ q, p = 511 :: q := by
  obtain ⟨-, h9, h10⟩ := hp
  rcases p with _ | ⟨i, q⟩
  · exact .inl low_nil
  · by_cases h11 : i = 511
    · exact .inr ⟨q, by rw [h11]⟩
    · refine .inl fun j hj => ?_
      obtain rfl := Option.some.inj hj
      have hne9 : i ≠ 509 := fun e => h9 (by rw [e]; rfl)
      have hne10 : i ≠ 510 := fun e => h10 (by rw [e]; rfl)
      bv_omega

/-! A tree in which all paths count. -/

section whole
variable (h : Spaces m R P K gs) (hr : R r) (hall : P r = .all)
include h hr hall

/-- A path of the tree at `r`, as one of the forest. -/
theorem owned_of_plain (hp : Plain p) :
    ∃ s q, Owned R P K s q ∧ walk m s q = walk m r p ∧ ((s = r ∧ q = p) ∨ (s = K ∧ p = 511 :: q)) := by
  obtain hlow | ⟨q, rfl⟩ := plain_cases hp
  · exact ⟨r, p, .low hr hall hlow hp.1, rfl, .inl ⟨rfl, rfl⟩⟩
  · have hlen := hp.1
    rw [List.length_cons] at hlen
    exact ⟨K, q, .kernel (by omega), (h.walk_kernel hr q).symm, .inr ⟨rfl, rfl⟩⟩

/-- The PML4 roots a tree. -/
theorem tree : Tree m r where
  self := h.self r hr
  present := by
    intro p i f hp hw hne
    obtain hlow | ⟨q, hq⟩ := plain_cases hp
    · exact (h.present r p i f (.low hr hall hlow hp.1) hw hne).1
    · have hlen := hp.1
      rcases p with _ | ⟨j, p⟩
      · obtain rfl := (List.cons.inj hq).1
        obtain rfl := Option.some.inj hw
        rw [h.kernel r hr]
        exact Option.some_ne_none K
      · obtain rfl := (List.cons.inj hq).1
        rw [h.walk_kernel hr] at hw
        rw [List.length_append, List.length_cons, List.length_singleton] at hlen
        refine (h.present K p i f (.kernel ?_) hw hne).1
        rw [List.length_append, List.length_singleton]
        omega
  distinct := by
    rintro r₁ p r₂ q f ⟨rfl, hp⟩ ⟨rfl, hq⟩ hwp hwq
    refine ⟨rfl, ?_⟩
    obtain ⟨s, p', hs, hws, hcase⟩ := h.owned_of_plain hr hall hp
    obtain ⟨t, q', ht, hwt, hcase'⟩ := h.owned_of_plain hr hall hq
    obtain ⟨rfl, rfl⟩ := h.distinct s p' t q' f hs ht (hws.trans hwp) (hwt.trans hwq)
    rcases hcase with ⟨rfl, rfl⟩ | ⟨hk, rfl⟩ <;> rcases hcase' with ⟨hk', rfl⟩ | ⟨hk', rfl⟩
    · rfl
    · exact absurd (hk' ▸ hr) h.apart
    · exact absurd (hk ▸ hk' ▸ hr) h.apart
    · rfl

/-- A frame on no path is in none of the trees. -/
theorem not_walk_of_fresh (hg : Radix.Fresh child m (Owned R P K) g) (hp : Plain p) : walk m r p ≠ some g := by
  obtain ⟨s, q, hs, hw, -⟩ := h.owned_of_plain hr hall hp
  rw [← hw]
  exact hg s q hs

end whole

/-- A frame in use that no process has as a table or a page. -/
structure Spare (m : PMem) (R : Frame → Prop) (P : Frame → Paths) (K : Frame) (gs : List Frame) (g : Frame) : Prop where
  fresh : Radix.Fresh child m (Owned R P K) g
  not_free : g ∉ gs
  not_page : ∀ s x, R s → (P s).page x → child (Page.leaf m s x) ≠ some g

/-- A free frame is one once it is taken. -/
theorem spare_of_free (h : Spaces m R P K (g :: gs)) : Spare m R P K gs g where
  fresh := h.fresh g List.mem_cons_self
  not_free := (List.nodup_cons.1 h.nodup).1
  not_page s x hs hpage hx := by
    obtain ⟨g', hg', -, hfree⟩ := h.pages s x hs hpage (child_eq_some hx |>.1)
    obtain rfl := Option.some.inj (hx.symm.trans hg')
    exact hfree List.mem_cons_self

/-- The partner has what is read-only here, also in a memory with the same entries. -/
theorem partner_congr (h : Spaces m R P K gs) (hr : R r)
    (hleaf : ∀ s x, R s → (P s).page x → Page.leaf m' s x = x.leaf m s) :
    m r 509 = 0 ∨ ∃ r', R r' ∧ r' ≠ r ∧ child (m r 509) = some r' ∧
      ∀ x g, (P r).page x → Page.mapping m' r x = some (g, false) → (P r').page x ∧ Page.mapping m' r' x ≠ none := by
  rcases h.partner r hr with h0 | ⟨r', hr', hne, hc, hmap⟩
  · exact .inl h0
  · refine .inr ⟨r', hr', hne, hc, fun x g hpage hx => ?_⟩
    rw [Page.mapping, hleaf r x hr hpage] at hx
    obtain ⟨hpage', hx'⟩ := hmap x g hpage hx
    rw [Page.mapping, hleaf r' x hr' hpage']
    exact ⟨hpage', hx'⟩

/-! ## Stores outside the tables -/

section congr
variable (h : Spaces m R P K gs)
  (hm : ∀ s p f, Owned R P K s p → walk m s p = some f → ¬(s = K ∧ p.length = 2) → m' f = m f)
include h hm

theorem walk_congr' {s : Frame} (hp : Owned R P K s p) : walk m' s p = walk m s p := by
  refine Radix.walk_congr fun q i f hq hf => ?_
  obtain ⟨u, rfl⟩ := hq
  have hqi := Owned.closed s (q ++ [i]) u hp
  rw [hm s q f (Owned.closed s q [i] hqi) hf]
  rintro ⟨rfl, hlen⟩
  rcases hqi with ⟨hr, -, -⟩ | ⟨-, hle⟩
  · exact h.apart hr
  · rw [List.length_append, List.length_singleton] at hle
    omega

theorem leaf_congr' (hr : R r) (hx : (P r).page x) : x.leaf m' r = x.leaf m r := by
  refine Page.leaf_congr (h.walk_congr' hm (.page hr hx)) fun f hf => ?_
  rw [hm r x.path f (.page hr hx) hf]
  rintro ⟨rfl, -⟩
  exact h.apart hr

/-- Stores to frames of no table (the kernel's page tables apart), and taking frames off the supply. -/
theorem congr (hsub : gs'.Sublist gs) : Spaces m' R P K gs' := by
  have hwalk := fun {s p} => h.walk_congr' hm (s := s) (p := p)
  have hleaf := fun {r x} => h.leaf_congr' hm (r := r) (x := x)
  have hroot : ∀ r, R r → m' r = m r := fun r hr =>
    hm r [] r (.root hr) rfl fun e => h.apart (e.1 ▸ hr)
  have hfresh : ∀ g, Radix.Fresh child m (Owned R P K) g → Radix.Fresh child m' (Owned R P K) g := fun g hg s p hp hw =>
    hg s p hp ((hwalk hp).symm.trans hw)
  refine
    { self := fun r hr => by rw [SelfMapped, hroot r hr]; exact h.self r hr
      kernel := fun r hr => by rw [hroot r hr]; exact h.kernel r hr
      apart := h.apart
      present := fun s p i f hp hf hne => ?_
      distinct := fun s p s' p' f hp hp' hw hw' =>
        h.distinct s p s' p' f hp hp' ((hwalk hp).symm.trans hw) ((hwalk hp').symm.trans hw')
      pages := fun r x hr hpage hx => ?_
      partner := fun r hr => ?_
      nodup := h.nodup.sublist hsub
      fresh := fun g hg => hfresh g (h.fresh g (hsub.subset hg)) }
  · have hq := Owned.closed s p [i] hp
    have hold := (hwalk hq).symm.trans hf
    have hlevel : ¬(s = K ∧ p.length = 2) := by
      rintro ⟨rfl, hlen⟩
      rcases hp with ⟨hr, -, -⟩ | ⟨-, hle⟩
      · exact h.apart hr
      · rw [List.length_append, List.length_singleton] at hle
        omega
    rw [hm s p f hq hold hlevel] at hne ⊢
    exact h.present s p i f hp hold hne
  · rw [hleaf hr hpage] at hx ⊢
    obtain ⟨g, hg, hg', hgs'⟩ := h.pages r x hr hpage hx
    exact ⟨g, hg, hfresh g hg', fun hmem => hgs' (hsub.subset hmem)⟩
  · rw [hroot r hr]
    exact h.partner_congr hr fun s x hs hpage => hleaf hs hpage

end congr

/-- What free frames hold does not matter. -/
theorem of_free (h : Spaces m R P K gs) (hm : ∀ f ∉ gs, m' f = m f) : Spaces m' R P K gs ∧
    (∀ r x, R r → (P r).page x → Page.leaf m' r x = x.leaf m r) ∧ ∀ r, R r → m' r = m r := by
  have hnode : ∀ s p f, Owned R P K s p → walk m s p = some f → m' f = m f := fun s p f hp hw =>
    hm f fun hf => h.fresh f hf s p hp hw
  exact ⟨h.congr (fun s p f hp hw _ => hnode s p f hp hw) (.refl gs),
    fun r x hr hx => h.leaf_congr' (fun s p f hp hw _ => hnode s p f hp hw) hr hx,
    fun r hr => hnode r [] r (.root hr) rfl⟩

/-! ## What the kernel takes for itself -/

/-- `m'` is `m` with frames of `gs` used by the kernel: the processes have their tables, and what is neither a table
nor free is as it was. -/
structure Keeps (m : PMem) (R : Frame → Prop) (P : Frame → Paths) (K : Frame) (gs : List Frame) (m' : PMem) : Prop where
  node : ∀ r p f, R r → Owned R P K r p → walk m r p = some f → m' f = m f
  data : ∀ f, Radix.Fresh child m (Owned R P K) f → f ∉ gs → Radix.Fresh child m' (Owned R P K) f ∧ m' f = m f

namespace Keeps

theorem refl (m : PMem) (R : Frame → Prop) (P : Frame → Paths) (K : Frame) (gs : List Frame) : Keeps m R P K gs m :=
  ⟨fun _ _ _ _ _ _ => rfl, fun _ hf _ => ⟨hf, rfl⟩⟩

variable (h : Keeps m R P K gs m')
include h

theorem walk_eq (hr : R r) (hp : Owned R P K r p) : walk m' r p = walk m r p := by
  refine Radix.walk_congr fun q i f hq hf => ?_
  obtain ⟨u, rfl⟩ := hq
  rw [h.node r q f hr (Owned.closed r q [i] (Owned.closed r (q ++ [i]) u hp)) hf]

theorem leaf_eq (hr : R r) (hx : (P r).page x) : x.leaf m' r = x.leaf m r :=
  Page.leaf_congr (h.walk_eq hr (.page hr hx)) fun f hf => by rw [h.node r x.path f hr (.page hr hx) hf]

theorem root_eq (hr : R r) : m' r = m r := h.node r [] r hr (.root hr) rfl

theorem trans {m'' : PMem} (h' : Keeps m' R P K gs' m'') (hsub : gs' ⊆ gs) : Keeps m R P K gs m'' where
  node r p f hr hp hf := by
    rw [h'.node r p f hr hp ((h.walk_eq hr hp).trans hf), h.node r p f hr hp hf]
  data f hf hgs := by
    obtain ⟨h1, h2⟩ := h.data f hf hgs
    obtain ⟨h3, h4⟩ := h'.data f h1 fun hmem => hgs (hsub hmem)
    exact ⟨h3, h4.trans h2⟩

theorem spare (hg : Spare m R P K gs g) (hsub : gs' ⊆ gs) : Spare m' R P K gs' g where
  fresh := (h.data g hg.fresh hg.not_free).1
  not_free hmem := hg.not_free (hsub hmem)
  not_page s x hs hx := by
    rw [h.leaf_eq hs hx]
    exact hg.not_page s x hs hx

end Keeps

/-! ## More tables -/

/-- `m'` is `m` with frames of `gs` hung into the tree at `s`: the other trees, the pages and the upper slots are as
they were, and so is what is neither a table nor free. -/
structure Grown (m : PMem) (R : Frame → Prop) (P : Frame → Paths) (K s : Frame) (gs : List Frame) (m' : PMem) :
    Prop where
  node : ∀ r p f, R r → r ≠ s → Owned R P K r p → walk m r p = some f → m' f = m f
  leaf : ∀ r x, R r → (P r).page x → Page.leaf m' r x = x.leaf m r
  upper : ∀ r j, R r → 509 ≤ j → m' r j = m r j
  data : ∀ f, Radix.Fresh child m (Owned R P K) f → f ∉ gs → Radix.Fresh child m' (Owned R P K) f ∧ m' f = m f

namespace Grown
variable {s : Frame}

theorem refl (m : PMem) (R : Frame → Prop) (P : Frame → Paths) (K s : Frame) (gs : List Frame) :
    Grown m R P K s gs m :=
  ⟨fun _ _ _ _ _ _ _ => rfl, fun _ _ _ _ => rfl, fun _ _ _ _ => rfl, fun _ hf _ => ⟨hf, rfl⟩⟩

theorem walk_eq (h : Grown m R P K s gs m') (hr : R r) (hne : r ≠ s) (hp : Owned R P K r p) :
    walk m' r p = walk m r p := by
  refine Radix.walk_congr fun q i f hq hf => ?_
  obtain ⟨u, rfl⟩ := hq
  rw [h.node r q f hr hne (Owned.closed r q [i] (Owned.closed r (q ++ [i]) u hp)) hf]

theorem trans {m'' : PMem} (h : Grown m R P K s gs m') (h' : Grown m' R P K s gs' m'') (hsub : gs' ⊆ gs) :
    Grown m R P K s gs m'' where
  node r p f hr hne hp hf := by
    rw [h'.node r p f hr hne hp ((h.walk_eq hr hne hp).trans hf), h.node r p f hr hne hp hf]
  leaf r x hr hx := (h'.leaf r x hr hx).trans (h.leaf r x hr hx)
  upper r j hr hj := (h'.upper r j hr hj).trans (h.upper r j hr hj)
  data f hf hgs := by
    obtain ⟨h1, h2⟩ := h.data f hf hgs
    obtain ⟨h3, h4⟩ := h'.data f h1 fun hmem => hgs (hsub hmem)
    exact ⟨h3, h4.trans h2⟩

/-- In the kernel's half. -/
theorem keeps (h : Grown m R P K K gs m') (hK : ¬R K) : Keeps m R P K gs m' where
  node r p f hr := h.node r p f hr fun e => hK (e ▸ hr)
  data := h.data

end Grown

section graft
variable {m₁ : PMem} {s : Frame} (h : Spaces m R P K (g :: gs))
  (hG : Radix.Grafted child (Owned R P K) m s q f i g m₁)
include h hG

theorem graft_fresh {g' : Frame} (hg' : Radix.Fresh child m (Owned R P K) g') (hne : g' ≠ g) :
    Radix.Fresh child m₁ (Owned R P K) g' := hG.fresh_of_ne Owned.closed h.distinct hg' hne

omit h in
/-- What is on no path stays, the frame taken apart. -/
theorem graft_other {g' : Frame} (hg' : Radix.Fresh child m (Owned R P K) g') (hne : g' ≠ g) : m₁ g' = m g' := by
  refine funext fun j => hG.frame g' j hne ?_
  rintro ⟨rfl, -⟩
  exact hg' s q (Owned.closed s q [i] hG.used) hG.arrives

/-- The new entry is below slot 509 of a PML4. -/
theorem graft_upper {j : Index} (hr : R r) (hj : 509 ≤ j) : m₁ r j = m r j := by
  refine hG.frame r j (fun e => hG.fresh r [] (.root hr) (e ▸ rfl)) ?_
  rintro ⟨rfl, rfl⟩
  obtain ⟨rfl, rfl⟩ := h.distinct r [] s q r (.root hr) (Owned.closed s q [j] hG.used) rfl hG.arrives
  have hj' := Owned.low_of_root h.apart hr hG.used j rfl
  bv_omega

variable (hpages : ∀ x, R s → (P s).page x → x.path = q ++ [i] → m₁ g x.index = 0)
include hpages

/-- No page is there yet behind the new table. -/
theorem graft_leaf (hr : R r) (hpage : (P r).page x) : x.leaf m₁ r = x.leaf m r := by
  by_cases hx : r = s ∧ x.path = q ++ [i]
  · obtain ⟨rfl, hpath⟩ := hx
    have hold : walk m r x.path = none := by
      rw [hpath, walk, Radix.walk_snoc, hG.arrives, Option.bind_some, hG.unlinked]
    have hnew := hG.walk_new Owned.closed h.distinct
    rw [← hpath] at hnew
    rw [Page.leaf_of_walk hnew, hpages x hr hpage hpath, Page.leaf, leaf, pageEntry, hold]
    rfl
  · refine Page.leaf_congr (hG.walk_eq Owned.closed h.distinct (.page hr hpage) hx) fun f' hf' => ?_
    refine hG.frame f' x.index (fun e => hG.fresh r x.path (.page hr hpage) (e ▸ hf')) ?_
    rintro ⟨rfl, -⟩
    obtain ⟨rfl, hpath⟩ := h.distinct r x.path s q f' (.page hr hpage) (Owned.closed s q [i] hG.used) hf' hG.arrives
    exact Owned.max_page h.apart hr x i (hpath ▸ hG.used)

theorem graft_grown : Grown m R P K s (g :: gs) m₁ where
  node r p f' hr hne hp hf' := by
    funext j
    refine hG.frame f' j (fun e => hG.fresh r p hp (e ▸ hf')) ?_
    rintro ⟨rfl, -⟩
    exact hne (h.distinct r p s q f' hp (Owned.closed s q [i] hG.used) hf' hG.arrives).1
  leaf r x hr hx := h.graft_leaf hG hpages hr hx
  upper r j hr hj := h.graft_upper hG hr hj
  data f' hf' hgs := by
    have hne : f' ≠ g := fun e => hgs (e ▸ List.mem_cons_self)
    exact ⟨h.graft_fresh hG hf' hne, graft_other hG hf' hne⟩

/-- A frame is hung into one of the trees; what counts of the new table is blank. -/
theorem graft_spaces (hpasses : R s → Passes (m₁ f i))
    (hblank : ∀ j, Owned R P K s (q ++ [i] ++ [j]) → m₁ g j = 0) : Spaces m₁ R P K gs := by
  have hleaf := fun r x hr hx => h.graft_leaf hG hpages (r := r) (x := x) hr hx
  have hupper := fun {r j} (hr : R r) => h.graft_upper hG (j := j) hr
  refine
    { self := fun r hr => by rw [SelfMapped, hupper hr (by decide)]; exact h.self r hr
      kernel := fun r hr => by rw [hupper hr (by decide)]; exact h.kernel r hr
      apart := h.apart
      present := fun r p j f' hp hf' hne => ?_
      distinct := hG.forest Owned.closed h.distinct
      pages := fun r x hr hpage hx => ?_
      partner := fun r hr => ?_
      nodup := (List.nodup_cons.1 h.nodup).2
      fresh := fun g' hg' => h.graft_fresh hG (h.fresh g' (List.mem_cons_of_mem g hg'))
        (by rintro rfl; exact (List.nodup_cons.1 h.nodup).1 hg') }
  · have hpo := Owned.closed r p [j] hp
    by_cases hnew : r = s ∧ p = q ++ [i]
    · obtain ⟨rfl, rfl⟩ := hnew
      obtain rfl := Option.some.inj ((hG.walk_new Owned.closed h.distinct).symm.trans hf')
      exact absurd (hblank j hp) hne
    · replace hf' : walk m r p = some f' := (hG.walk_eq Owned.closed h.distinct hpo hnew).symm.trans hf'
      by_cases hfj : f' = f ∧ j = i
      · obtain ⟨rfl, rfl⟩ := hfj
        obtain ⟨rfl, rfl⟩ := h.distinct r p s q f' hpo (Owned.closed s q [j] hG.used) hf' hG.arrives
        rw [hG.linked]
        exact ⟨Option.some_ne_none g, hpasses⟩
      · rw [hG.frame f' j (fun e => hG.fresh r p hpo (e ▸ hf')) hfj] at hne ⊢
        exact h.present r p j f' hp hf' hne
  · rw [hleaf r x hr hpage] at hx ⊢
    obtain ⟨g', hg', hg'f, hg'gs⟩ := h.pages r x hr hpage hx
    rw [List.mem_cons, not_or] at hg'gs
    exact ⟨g', hg', h.graft_fresh hG hg'f hg'gs.1, hg'gs.2⟩
  · rw [hupper hr (by decide)]
    exact h.partner_congr hr hleaf

end graft

theorem passes_link (g : Frame) : Passes (link g) := by
  constructor
  · rw [and_readWrite_ne_zero]
    simp [link, Vm.tableEntry, baseOf, readWrite, userAccessible]
  · intro e
    have hbit := congrArg (fun x : Word => x.getLsbD 2) e
    simp [link, Vm.tableEntry, baseOf, readWrite, userAccessible] at hbit

/-- The missing tables of a path that ends at a page table, or of the kernel's. Of a process's new page table the
entries that count have to be blank; the tables above it are cleared. -/
theorem descend {s : Frame} {u : List Index} : ∀ {m : PMem} {gs : List Frame} {q : List Index} {f : Frame},
    Spaces m R P K gs → Owned R P K s (q ++ u) → (∀ j, ¬Owned R P K s (q ++ u ++ [j])) → walk m s q = some f →
    missing m f u ≤ gs.length →
    (∀ g x, 0 < missing m f u → gs[missing m f u - 1]? = some g → R s → (P s).page x → x.path = q ++ u →
      m g x.index = 0) →
    Spaces (Sbuos.descend m f u gs) R P K (gs.drop (missing m f u)) ∧
      (∃ f', walk (Sbuos.descend m f u gs) s (q ++ u) = some f') ∧ Grown m R P K s gs (Sbuos.descend m f u gs) ∧
      ∀ g ∈ gs.drop (missing m f u), Sbuos.descend m f u gs g = m g := by
  induction u with
  | nil =>
    intro m gs q f h _ _ hw _ _
    rw [List.append_nil]
    exact ⟨h, ⟨f, hw⟩, .refl m R P K s gs, fun _ _ => rfl⟩
  | cons i u ih =>
    intro m gs q f h hu hmax hw hmiss hblank
    have hsplit : q ++ i :: u = q ++ [i] ++ u := by simp
    rw [hsplit] at hu hmax hblank ⊢
    cases hc : child (m f i) with
    | some g =>
      have hg : walk m s (q ++ [i]) = some g := by rw [walk, Radix.walk_snoc, ← walk, hw, Option.bind_some, hc]
      simp only [Sbuos.missing, Sbuos.descend, Radix.missing, Radix.descend, hc] at hmiss hblank ⊢
      exact ih h hu hmax hg hmiss hblank
    | none =>
      simp only [Sbuos.missing, Sbuos.descend, Radix.missing, Radix.descend, hc] at hmiss hblank ⊢
      obtain ⟨g, gs, rfl⟩ := List.exists_cons_of_ne_nil (l := gs) (by rintro rfl; simp at hmiss)
      have hG := Radix.grafted_set Owned.closed child_zero child_link hu hmax hw hc (h.fresh g List.mem_cons_self)
      have hgf : g ≠ f := fun e => hG.fresh s q (Owned.closed s q [i] hG.used) (e ▸ hw)
      generalize hm₁ : (if u = [] then Radix.set m f i (link g) else Radix.fill (Radix.set m f i (link g)) g 0) = m₁
        at hG
      have hcleared : u ≠ [] → ∀ j, m₁ g j = 0 := fun hne j => by rw [← hm₁, if_neg hne, Radix.fill_self]
      have hlast : u = [] → m₁ g = m g := fun he => by rw [← hm₁, if_pos he, Radix.set_of_ne hgf]
      have hpages : ∀ x, R s → (P s).page x → x.path = q ++ [i] → m₁ g x.index = 0 := by
        intro x hs hpage hpath
        by_cases he : u = []
        · subst he
          rw [hlast rfl]
          exact hblank g x (Nat.succ_pos _) rfl hs hpage (by rw [hpath, List.append_nil])
        · exact hcleared he x.index
      have hentry : m₁ f i = link g := by
        rw [← hm₁]
        split
        · exact Radix.set_self
        · rw [Radix.fill_of_ne hgf.symm, Radix.set_self]
      have hrest : ∀ j, Owned R P K s (q ++ [i] ++ [j]) → m₁ g j = 0 := by
        intro j hj
        by_cases he : u = []
        · subst he
          rw [List.append_nil] at hmax
          exact absurd hj (hmax j)
        · exact hcleared he j
      have h₁ := h.graft_spaces hG hpages (fun _ => hentry ▸ passes_link g) hrest
      have hgrown := h.graft_grown hG hpages
      have hmissing : missing m₁ g u = u.length := by
        by_cases he : u = []
        · subst he
          rfl
        · exact Radix.missing_of_blank fun j => by rw [hcleared he j, child_zero]
      rw [List.length_cons] at hmiss
      have hother : ∀ g' ∈ gs, m₁ g' = m g' := fun g' hmem =>
        graft_other hG (h.fresh g' (List.mem_cons_of_mem g hmem)) (by
          rintro rfl
          exact (List.nodup_cons.1 h.nodup).1 hmem)
      have hblank₁ : ∀ g' x, 0 < missing m₁ g u → gs[missing m₁ g u - 1]? = some g' → R s → (P s).page x →
          x.path = q ++ [i] ++ u → m₁ g' x.index = 0 := by
        intro g' x hpos hg' hs hpage hpath
        rw [hmissing] at hpos hg'
        rw [hother g' (List.mem_of_getElem? hg')]
        refine hblank g' x (Nat.succ_pos _) ?_ hs hpage hpath
        rw [Nat.add_sub_cancel, ← Nat.sub_add_cancel hpos, List.getElem?_cons_succ, hg']
      obtain ⟨h₂, hw₂, hgrown₂, hrest₂⟩ :=
        ih h₁ hu hmax (hG.walk_new Owned.closed h.distinct) (by rw [hmissing]; omega) hblank₁
      rw [hmissing] at h₂ hrest₂
      simp only [hm₁, List.drop_succ_cons]
      refine ⟨h₂, hw₂, hgrown.trans hgrown₂ (List.subset_cons_self g gs), fun g' hg' => ?_⟩
      exact (hrest₂ g' hg').trans (hother g' (List.mem_of_mem_drop hg'))

/-! ## Another entry for a page -/

/-- `m'` is `m` with the entry `e` for the page `x` of the process `r`. -/
structure Remapped (m : PMem) (R : Frame → Prop) (P : Frame → Paths) (K : Frame) (gs : List Frame) (r : Frame)
    (x : Page) (e : Word) (m' : PMem) : Prop where
  spaces : Spaces m' R P K gs
  new : x.leaf m' r = e
  other : ∀ s y, R s → (P s).page y → ¬(s = r ∧ y = x) → Page.leaf m' s y = y.leaf m s
  partners : ∀ s, R s → m' s 509 = m s 509
  data : ∀ f, Radix.Fresh child m (Owned R P K) f → Radix.Fresh child m' (Owned R P K) f ∧ m' f = m f

/-- A page that may be written from now on. -/
theorem setPage (h : Spaces m R P K gs) (hr : R r) (hx : (P r).page x) (hf : walk m r x.path = some f)
    (he : child e = some g) (hg : Radix.Fresh child m (Owned R P K) g) (hgs : g ∉ gs) (hwrite : e &&& readWrite ≠ 0) :
    Remapped m R P K gs r x e (Radix.set m f x.index e) := by
  -- no walk passes through a page table
  have hwalk : ∀ {s p}, Owned R P K s p → walk (Radix.set m f x.index e) s p = walk m s p := by
    intro s p hp
    refine Radix.walk_set_of_avoids fun q j hq hw => ?_
    obtain ⟨u, rfl⟩ := hq
    have hqj := Owned.closed s (q ++ [j]) u hp
    obtain ⟨rfl, rfl⟩ := h.distinct s q r x.path f (Owned.closed s q [j] hqj) (.page hr hx) hw hf
    exact Owned.max_page h.apart hr x j hqj
  have hnode : ∀ {s p f'}, Owned R P K s p → walk m s p = some f' → ¬(s = r ∧ p = x.path) →
      Radix.set m f x.index e f' = m f' := by
    intro s p f' hp hf' hne
    refine Radix.set_of_ne ?_
    rintro rfl
    exact hne (h.distinct s p r x.path f' hp (.page hr hx) hf' hf)
  have hroot : ∀ s, R s → Radix.set m f x.index e s = m s := by
    intro s hs
    refine hnode (.root hs) rfl ?_
    rintro ⟨-, hnil⟩
    have hlen := x.length_eq
    rw [← hnil] at hlen
    cases hlen
  have hnew : x.leaf (Radix.set m f x.index e) r = e := by
    rw [Page.leaf_of_walk ((hwalk (.page hr hx)).trans hf), Radix.set_self]
  have hother : ∀ r' y, R r' → (P r').page y → ¬(r' = r ∧ y = x) →
      Page.leaf (Radix.set m f x.index e) r' y = y.leaf m r' := by
    intro r' y hr' hy hne
    refine Page.leaf_congr (hwalk (.page hr' hy)) fun f' hf' => ?_
    by_cases hsame : r' = r ∧ y.path = x.path
    · refine Radix.set_apply.trans (if_neg ?_)
      rintro ⟨-, hi⟩
      exact hne ⟨hsame.1, Page.ext_iff'.2 ⟨hsame.2, hi⟩⟩
    · rw [hnode (.page hr' hy) hf' hsame]
  have hfresh : ∀ g', Radix.Fresh child m (Owned R P K) g' →
      Radix.Fresh child (Radix.set m f x.index e) (Owned R P K) g' := fun g' hg' s p hp hw =>
    hg' s p hp ((hwalk hp).symm.trans hw)
  have hmapped : ∀ r' y, R r' → (P r').page y → Page.mapping m r' y ≠ none →
      Page.mapping (Radix.set m f x.index e) r' y ≠ none := by
    intro r' y hr' hy hne
    by_cases hxy : r' = r ∧ y = x
    · obtain ⟨rfl, rfl⟩ := hxy
      rw [Page.mapping, hnew, mappingOf, he]
      exact Option.some_ne_none _
    · rwa [Page.mapping, hother r' y hr' hy hxy]
  have hkeep : ∀ f', Radix.Fresh child m (Owned R P K) f' → Radix.set m f x.index e f' = m f' := by
    intro f' hf'
    refine Radix.set_of_ne ?_
    rintro rfl
    exact hf' r x.path (.page hr hx) hf
  refine ⟨?_, hnew, hother, fun s hs => by rw [hroot s hs], fun f' hf' => ⟨hfresh f' hf', hkeep f' hf'⟩⟩
  refine
    { self := fun s hs => by rw [SelfMapped, hroot s hs]; exact h.self s hs
      kernel := fun s hs => by rw [hroot s hs]; exact h.kernel s hs
      apart := h.apart
      present := fun s p j f' hp hf' hne => ?_
      distinct := fun s p s' p' f' hp hp' hw hw' =>
        h.distinct s p s' p' f' hp hp' ((hwalk hp).symm.trans hw) ((hwalk hp').symm.trans hw')
      pages := fun r' y hr' hpage hy => ?_
      partner := fun s hs => ?_
      nodup := h.nodup
      fresh := fun g' hg' => hfresh g' (h.fresh g' hg') }
  · have hpo := Owned.closed s p [j] hp
    have hold := (hwalk hpo).symm.trans hf'
    have hne' : ¬(s = r ∧ p = x.path) := by
      rintro ⟨rfl, rfl⟩
      exact Owned.max_page h.apart hr x j hp
    rw [hnode hpo hold hne'] at hne ⊢
    exact h.present s p j f' hp hold hne
  · by_cases hxy : r' = r ∧ y = x
    · obtain ⟨rfl, rfl⟩ := hxy
      rw [hnew]
      exact ⟨g, he, hfresh g hg, hgs⟩
    · rw [hother r' y hr' hpage hxy] at hy ⊢
      obtain ⟨g', hg', hg'f, hg'gs⟩ := h.pages r' y hr' hpage hy
      exact ⟨g', hg', hfresh g' hg'f, hg'gs⟩
  · rw [hroot s hs]
    rcases h.partner s hs with h0 | ⟨s', hs', hne, hc, hmap⟩
    · exact .inl h0
    · refine .inr ⟨s', hs', hne, hc, fun y g' hpage hy => ?_⟩
      have hold : y.mapping m s = some (g', false) := by
        by_cases hxy : s = r ∧ y = x
        · obtain ⟨rfl, rfl⟩ := hxy
          have hro := (Page.mapping_eq_some.1 hy).2
          rw [hnew] at hro
          exact absurd hwrite (of_decide_eq_false hro.symm)
        · rwa [Page.mapping, hother s y hs hpage hxy] at hy
      obtain ⟨hpage', hy'⟩ := hmap y g' hpage hold
      exact ⟨hpage', hmapped s' y hs' hpage' hy'⟩

/-! ## Sharing with a new process -/

section share
variable {c : Frame} {τ : List Index → Frame} {n : Nat} {fr : Frames}

/-- `c` holds what `get_new_page_table` leaves there: the PML4 `r`, with a slot 510 of its own. -/
structure CopyOf (m : PMem) (R : Frame → Prop) (P : Frame → Paths) (K : Frame) (gs : List Frame) (r c : Frame) : Prop
    extends Spare m R P K gs c where
  self : SelfMapped m c
  copied : ∀ i, i ≠ 510 → m c i = m r i

theorem mapping_shared (x : Page) {s : Frame} (hx : x.leaf m' s = sharedEntry (x.leaf m r)) :
    x.mapping m' s = (x.mapping m r).map fun t => (t.1, false) := by
  rw [Page.mapping, hx, mappingOf_sharedEntry]
  rfl

theorem leaf_ne_zero_of_shared {e : Word} (h : sharedEntry e ≠ 0) : e ≠ 0 ∧ sharedEntry e = cowEntry e := by
  have he : e ≠ 0 := by
    rintro rfl
    exact h (if_pos rfl)
  exact ⟨he, if_neg he⟩

/-- `m'` is `m` after `mark_COW` has shared the pages of `r` with the copy `c`; the new tables `τ` come off the
free list. `Q` are paths that `c` has then: all those that `r` has, and others only if nothing stale is there. -/
structure Sharing (m : PMem) (R : Frame → Prop) (P : Frame → Paths) (K : Frame) (gs : List Frame) (r c : Frame)
    (Q : Paths) (τ : List Index → Frame) (n : Nat) (m' : PMem) (fr : Frames) : Prop where
  spaces : Spaces m R P K gs
  root : R r
  all : P r = .all
  copy : CopyOf m R P K gs r c
  marking : Marking m r c (Mapped m r) τ (gs.drop n) m' fr
  taken : ∀ p, τ p = c ∨ τ p ∈ gs
  covers : ∀ p i, Mapped m r p i → Q.has (p ++ [i])
  zero : ∀ p i, Q.has (p ++ [i]) → Reached (Mapped m r) p → p ≠ [] → ¬Mapped m r p i → m (τ p) i = 0

/-- The roots and the paths after a fork. -/
abbrev rootsWith (R : Frame → Prop) (c : Frame) : Frame → Prop := fun s => R s ∨ s = c

namespace Sharing
variable {Q : Paths} (h : Sharing m R P K gs r c Q τ n m' fr) {s : Frame}
include h

theorem not_root : ¬R c := fun e => h.copy.fresh c [] (.root e) rfl

theorem ne_root : c ≠ r := fun e => h.not_root (e ▸ h.root)

theorem ne_of_root (hs : R s) : s ≠ c := fun e => h.not_root (e ▸ hs)

theorem ne_kernel : c ≠ K := fun e => h.copy.fresh K [] (.kernel (Nat.zero_le 2)) (e ▸ rfl)

omit h in
theorem paths_new : Function.update P c Q c = Q := Function.update_self ..

theorem paths_old (hs : R s) : Function.update P c Q s = P s := Function.update_of_ne (h.ne_of_root hs) _ _

/-! ### The old trees -/

/-- A new table is on none of the old paths. -/
theorem fresh_new (p : List Index) : Radix.Fresh child m (Owned R P K) (τ p) := by
  rcases h.taken p with e | hg
  · rw [e]
    exact h.copy.fresh
  · exact h.spaces.fresh _ hg

/-- The tables keep their entries; those of the pages that are shared, and slot 509 of the parent, apart. -/
theorem node_old (hs : Owned R P K s p) (hw : walk m s p = some f)
    (hne : ¬(s = r ∧ (p.length = 3 ∨ (p = [] ∧ i = 509)))) : m' f i = m f i := by
  have hk : ∀ q, q.length ≤ 2 → walk m K q = some f → m' f i = m f i := by
    intro q hq hw
    have hplain : Plain (511 :: q) := by
      refine ⟨?_, ?_, ?_⟩
      · rw [List.length_cons]
        omega
      · rw [List.head?_cons]
        decide
      · rw [List.head?_cons]
        decide
    have hwalk := (h.spaces.walk_kernel h.root q).trans hw
    refine (h.marking.parent (511 :: q) f i hplain hwalk fun e => by cases e.1).1 fun hd => ?_
    exact absurd (hd.2.2.1 511 rfl) (by decide)
  rcases hs with ⟨hs, hhas, hlen⟩ | ⟨rfl, hlen⟩
  · by_cases hsr : s = r
    · subst hsr
      rw [and_iff_right rfl, not_or] at hne
      exact (h.marking.parent p f i (((P s).low p hhas).plain hlen) hw hne.2).1 fun e => hne.1 e.1
    · -- neither a new table nor one of the parent's
      refine congrFun (h.marking.same f (fun q _ e => ?_) fun q hq hw' => ?_) i
      · exact h.fresh_new q s p (.of_has hs hhas hlen) (e ▸ hw)
      · obtain ⟨s', q', hs', hwq, hcase⟩ := h.spaces.owned_of_plain h.root h.all hq
        obtain ⟨rfl, -⟩ := h.spaces.distinct s p s' q' f (.of_has hs hhas hlen) hs' hw (hwq.trans hw')
        rcases hcase with ⟨e, -⟩ | ⟨rfl, -⟩
        · exact hsr e
        · exact h.spaces.apart hs
  · exact hk p hlen hw

/-- The walks are those there were. -/
theorem walk_old (hs : Owned R P K s p) : walk m' s p = walk m s p := by
  refine Radix.walk_congr fun q i f hq hf => ?_
  obtain ⟨u, rfl⟩ := hq
  have hqi := Owned.closed s (q ++ [i]) u hs
  rw [h.node_old (Owned.closed s q [i] hqi) hf]
  rintro ⟨rfl, hlen | ⟨rfl, rfl⟩⟩
  · have hle := (Owned.of_root h.spaces.apart h.root hqi).2
    rw [List.length_append, List.length_singleton] at hle
    omega
  · exact (Owned.low_of_root h.spaces.apart h.root hqi).ne ⟨rfl, rfl⟩

theorem root_old (hs : R s) (hne : ¬(s = r ∧ i = 509)) : m' s i = m s i := by
  refine h.node_old (.root hs) rfl ?_
  rintro ⟨rfl, hlen | ⟨-, rfl⟩⟩
  · cases hlen
  · exact hne ⟨rfl, rfl⟩

theorem leaf_other {x : Page} (hs : R s) (hx : (P s).page x) (hsr : s ≠ r) : x.leaf m' s = x.leaf m s :=
  Page.leaf_congr (h.walk_old (.page hs hx)) fun _ hf => h.node_old (.page hs hx) hf fun e => hsr e.1

/-! ### The new tree -/

/-- An entry that counts and is not marked is zero. -/
theorem zero_new (hreach : Reached (Mapped m r) p) (hQ : Q.has (p ++ [i])) (hd : ¬Mapped m r p i) : m' (τ p) i = 0 := by
  have hm := h.marking
  have hlow := Q.low _ hQ
  rw [hm.rest p i hreach hd hlow.ne]
  by_cases hp : p = []
  · subst hp
    have hi : i ≠ 510 := by
      rintro rfl
      exact absurd (hlow 510 rfl) (by decide)
    rw [hm.top, h.copy.copied i hi]
    by_contra hne
    exact hd ⟨Nat.zero_le 3, hlow, r, rfl, hne⟩
  · exact h.zero p i hQ hreach hp hd

/-- The tables are those that the marking made. -/
theorem walk_new (hQ : Q.has p) (hlen : p.length ≤ 3) (hw : walk m' c p = some f) :
    Reached (Mapped m r) p ∧ τ p = f := by
  induction p using List.reverseRecOn generalizing f with
  | nil => exact ⟨.inl rfl, h.marking.top.trans (Option.some.inj hw)⟩
  | append_singleton p i ih =>
    rw [List.length_append, List.length_singleton] at hlen
    rw [walk, Radix.walk_snoc] at hw
    obtain ⟨f', hf', hchild⟩ := Option.bind_eq_some_iff.1 hw
    obtain ⟨hreach, rfl⟩ := ih (Q.closed p [i] hQ) (by omega) hf'
    by_cases hd : Mapped m r p i
    · rw [h.marking.link p i hd (by omega), child_link] at hchild
      exact ⟨.inr ⟨p, i, rfl, by omega, hd⟩, Option.some.inj hchild⟩
    · rw [h.zero_new hreach hQ hd, child_zero] at hchild
      cases hchild

/-- The upper slots are the parent's. -/
theorem root_new (hi : ¬i < 509) (hne : i ≠ 509) (hne' : i ≠ 510) : m' c i = m r i := by
  have hd : ¬Mapped m r [] i := fun hd => hi (hd.2.1 i rfl)
  have hrest := h.marking.rest [] i (.inl rfl) hd fun e => hne e.2
  rw [h.marking.top] at hrest
  rw [hrest, h.copy.copied i hne']

omit h in
/-- A page with an entry is mapped. -/
theorem mapped_page {x : Page} (hx : x.leaf m r ≠ 0) : Mapped m r x.path x.index := by
  obtain ⟨f, hf, hleaf⟩ := Page.exists_table hx
  exact ⟨x.length_eq.le, Paths.all_page x, f, hf, hleaf ▸ hx⟩

theorem page_of_leaf {x : Page} (hx : x.leaf m r ≠ 0) : Q.page x := h.covers _ _ (mapped_page hx)

/-- The entries of a page that the parent has. -/
theorem leaf_marked {x : Page} (hx : x.leaf m r ≠ 0) :
    x.leaf m' r = sharedEntry (x.leaf m r) ∧ x.leaf m' c = sharedEntry (x.leaf m r) := by
  obtain ⟨f, hf, hleaf⟩ := Page.exists_table hx
  have he : pageEntry m r x.path x.index = some (x.leaf m r) := by rw [pageEntry, hf, Option.map_some, hleaf]
  obtain ⟨hp, hc⟩ := h.marking.leaf_shared x.length_eq x.low he hx
  rw [sharedEntry, if_neg hx]
  constructor
  · rw [Page.leaf, Sbuos.leaf, hp]
    rfl
  · rw [Page.leaf, Sbuos.leaf, hc]
    rfl

/-- Each page of the parent, in the parent. -/
theorem leaf_parent (x : Page) : x.leaf m' r = sharedEntry (x.leaf m r) := by
  by_cases h0 : x.leaf m r = 0
  · rw [sharedEntry, if_pos h0, Page.leaf, Sbuos.leaf,
      h.marking.leaf_unmapped x.length_eq (x.low.plain x.length_eq.le) h0]
    exact h0
  · exact (h.leaf_marked h0).1

/-- Each page that counts, in the new process. -/
theorem leaf_child {x : Page} (hx : Q.page x) : x.leaf m' c = sharedEntry (x.leaf m r) := by
  by_cases h0 : x.leaf m r = 0
  · rw [sharedEntry, if_pos h0]
    by_contra hne
    obtain ⟨f, hf, hleaf⟩ := Page.exists_table hne
    obtain ⟨hreach, rfl⟩ := h.walk_new (Paths.page_path hx) x.length_eq.le hf
    have hd : ¬Mapped m r x.path x.index := by
      rintro ⟨-, -, f', hf', hne'⟩
      exact hne' ((Page.leaf_of_walk hf').symm.trans h0)
    exact hne (hleaf.trans (h.zero_new hreach hx hd))
  · exact (h.leaf_marked h0).2

/-! ### All trees -/

/-- The paths from `c`, and the old ones. -/
theorem owned_cases (hs : Owned (rootsWith R c) (Function.update P c Q) K s p) :
    (s = c ∧ Q.has p ∧ p.length ≤ 3) ∨ (s ≠ c ∧ Owned R P K s p) := by
  rcases hs with ⟨hs | rfl, hhas, hlen⟩ | ⟨rfl, hlen⟩
  · rw [h.paths_old hs] at hhas
    exact .inr ⟨h.ne_of_root hs, .of_has hs hhas hlen⟩
  · rw [paths_new] at hhas
    exact .inl ⟨rfl, hhas, hlen⟩
  · exact .inr ⟨h.ne_kernel.symm, .kernel hlen⟩

theorem walk_cases (hs : Owned (rootsWith R c) (Function.update P c Q) K s p) (hw : walk m' s p = some f) :
    (s = c ∧ Reached (Mapped m r) p ∧ τ p = f) ∨ (s ≠ c ∧ Owned R P K s p ∧ walk m s p = some f) := by
  rcases h.owned_cases hs with ⟨rfl, hhas, hlen⟩ | ⟨hsc, hs⟩
  · exact .inl ⟨rfl, h.walk_new hhas hlen hw⟩
  · exact .inr ⟨hsc, hs, (h.walk_old hs).symm.trans hw⟩

theorem fresh_share (hg : Radix.Fresh child m (Owned R P K) g) (hτ : ∀ p, Reached (Mapped m r) p → τ p ≠ g) :
    Radix.Fresh child m' (Owned (rootsWith R c) (Function.update P c Q) K) g := by
  intro s p hs hw
  rcases h.walk_cases hs hw with ⟨-, hreach, e⟩ | ⟨-, hs, hw⟩
  · exact hτ p hreach e
  · exact hg s p hs hw

/-- A new table is `c` or was free. -/
theorem new_ne (hgc : g ≠ c) (hgs : g ∉ gs) (p : List Index) : τ p ≠ g := by
  rintro rfl
  exact (h.taken p).elim hgc hgs

/-- What is in no table stays. -/
theorem data (hf : Radix.Fresh child m (Owned R P K) f) (hfc : f ≠ c) (hfgs : f ∉ gs) : m' f = m f :=
  h.marking.same f (fun p _ => h.new_ne hfc hfgs p) fun _ hq =>
    h.spaces.not_walk_of_fresh h.root h.all hf hq

/-- What is free stays as it is. -/
theorem rest (hg : g ∈ gs.drop n) : m' g = m g :=
  h.marking.same g (h.marking.supply g hg).1 fun _ hq =>
    h.spaces.not_walk_of_fresh h.root h.all (h.spaces.fresh g (List.drop_subset n gs hg)) hq

/-- The frame of an old page. -/
theorem page (hs : R s) {x : Page} (hpage : (P s).page x) (hx : x.leaf m s ≠ 0) : ∃ g, child (x.leaf m s) = some g ∧
    Radix.Fresh child m' (Owned (rootsWith R c) (Function.update P c Q) K) g ∧ g ∉ gs.drop n := by
  obtain ⟨g, hg, hfresh, hgs⟩ := h.spaces.pages s x hs hpage hx
  have hgc : g ≠ c := fun e => h.copy.not_page s x hs hpage (e ▸ hg)
  exact ⟨g, hg, h.fresh_share hfresh fun p _ => h.new_ne hgc hgs p, fun hmem => hgs (List.drop_subset n gs hmem)⟩

theorem page_shared {x : Page} (hs : x.leaf m' s = sharedEntry (x.leaf m r)) (hx : x.leaf m' s ≠ 0) :
    ∃ g, child (x.leaf m' s) = some g ∧
      Radix.Fresh child m' (Owned (rootsWith R c) (Function.update P c Q) K) g ∧ g ∉ gs.drop n := by
  rw [hs] at hx ⊢
  obtain ⟨h0, hcow⟩ := leaf_ne_zero_of_shared hx
  rw [hcow, child_cowEntry]
  exact h.page h.root (h.all ▸ Paths.all_page x) h0

theorem mapping_ne_none {x : Page} (hs : R s) (hpage : (P s).page x) (hx : x.mapping m s ≠ none) :
    x.mapping m' s ≠ none := by
  by_cases hsr : s = r
  · subst hsr
    rw [mapping_shared x (h.leaf_parent x)]
    simpa using hx
  · rwa [Page.mapping, h.leaf_other hs hpage hsr]

/-- The entries of a tree. -/
theorem present_share (hp : Owned (rootsWith R c) (Function.update P c Q) K s (p ++ [i])) (hw : walk m' s p = some f)
    (hne : m' f i ≠ 0) : child (m' f i) ≠ none ∧ (R s ∨ s = c → Passes (m' f i)) := by
  have hlast := h.owned_cases hp
  rcases h.walk_cases (Owned.closed s p [i] hp) hw with ⟨rfl, hreach, rfl⟩ | ⟨hsc, hs, hw⟩
  · have hp' : Q.has (p ++ [i]) ∧ (p ++ [i]).length ≤ 3 := (hlast.resolve_right fun e => e.1 rfl).2
    have hlen := hp'.2
    rw [List.length_append, List.length_singleton] at hlen
    by_cases hd : Mapped m r p i
    · rw [h.marking.link p i hd (by omega), child_link]
      exact ⟨Option.some_ne_none _, fun _ => passes_link _⟩
    · exact absurd (h.zero_new hreach hp'.1 hd) hne
  · have hp' : Owned R P K s (p ++ [i]) := (hlast.resolve_left fun e => hsc e.1).2
    have hkeep : m' f i = m f i := by
      refine h.node_old hs hw ?_
      rintro ⟨rfl, hlen | ⟨rfl, rfl⟩⟩
      · have hle := (Owned.of_root h.spaces.apart h.root hp').2
        rw [List.length_append, List.length_singleton] at hle
        omega
      · exact (Owned.low_of_root h.spaces.apart h.root hp').ne ⟨rfl, rfl⟩
    rw [hkeep] at hne ⊢
    obtain ⟨h1, h2⟩ := h.spaces.present s p i f hp' hw hne
    exact ⟨h1, fun e => h2 (e.resolve_right hsc)⟩

theorem distinct_share : Radix.Forest child m' (Owned (rootsWith R c) (Function.update P c Q) K) := by
  intro s p s' p' f hs hs' hw hw'
  rcases h.walk_cases hs hw with ⟨rfl, hreach, rfl⟩ | ⟨hsc, hold, hwold⟩ <;>
    rcases h.walk_cases hs' hw' with ⟨rfl, hreach', e⟩ | ⟨hsc', hold', hwold'⟩
  · exact ⟨rfl, h.marking.inj p p' hreach hreach' e.symm⟩
  · exact absurd hwold' (h.fresh_new p s' p' hold')
  · subst e
    exact absurd hwold (h.fresh_new p' s p hold)
  · exact h.spaces.distinct s p s' p' f hold hold' hwold hwold'

/-- The parent has the child behind slot 509 and the child the parent. -/
theorem partner_share (hslot : child (m' c 509) = some r) (hs : R s ∨ s = c) :
    m' s 509 = 0 ∨ ∃ s', (R s' ∨ s' = c) ∧ s' ≠ s ∧ child (m' s 509) = some s' ∧
      ∀ x g, (Function.update P c Q s).page x → Page.mapping m' s x = some (g, false) →
        (Function.update P c Q s').page x ∧ Page.mapping m' s' x ≠ none := by
  rcases hs with hs | rfl
  · by_cases hsr : s = r
    · subst hsr
      refine .inr ⟨c, .inr rfl, h.ne_root, h.marking.cross, fun x g _ hx => ?_⟩
      rw [mapping_shared x (h.leaf_parent x)] at hx
      have hne : x.leaf m s ≠ 0 := by
        obtain ⟨t, ht, -⟩ := Option.map_eq_some_iff.1 hx
        exact Page.leaf_ne_zero (g := t.1) (w := t.2) ht
      have hpage := h.page_of_leaf hne
      rw [paths_new, mapping_shared x (h.leaf_child hpage), hx]
      exact ⟨hpage, Option.some_ne_none _⟩
    · rw [h.root_old hs fun e => hsr e.1]
      rcases h.spaces.partner s hs with h0 | ⟨s', hs', hne, hchild, hmap⟩
      · exact .inl h0
      · refine .inr ⟨s', .inl hs', hne, hchild, fun x g hpage hx => ?_⟩
        rw [h.paths_old hs] at hpage
        rw [Page.mapping, h.leaf_other hs hpage hsr] at hx
        obtain ⟨hpage', hx'⟩ := hmap x g hpage hx
        rw [h.paths_old hs']
        exact ⟨hpage', h.mapping_ne_none hs' hpage' hx'⟩
  · refine .inr ⟨r, .inl h.root, h.ne_root.symm, hslot, fun x g hpage hx => ?_⟩
    rw [paths_new] at hpage
    rw [mapping_shared x (h.leaf_child hpage)] at hx
    rw [h.paths_old h.root, h.all, mapping_shared x (h.leaf_parent x), hx]
    exact ⟨Paths.all_page x, Option.some_ne_none _⟩

/-- **A fork**: all pages of `r` are shared with `c`. -/
theorem share (hslot : child (m' c 509) = some r) :
    Spaces m' (rootsWith R c) (Function.update P c Q) K (gs.drop n) where
  self s hs := by
    rcases hs with hs | rfl
    · rw [SelfMapped, h.root_old hs (by simp)]
      exact h.spaces.self s hs
    · have hd : ¬Mapped m r [] 510 := fun hd => absurd (hd.2.1 510 rfl) (by decide)
      have hrest := h.marking.rest [] 510 (.inl rfl) hd (by simp)
      rw [h.marking.top] at hrest
      rw [SelfMapped, hrest]
      exact h.copy.self
  kernel s hs := by
    rcases hs with hs | rfl
    · rw [h.root_old hs (by simp)]
      exact h.spaces.kernel s hs
    · rw [h.root_new (by decide) (by decide) (by decide)]
      exact h.spaces.kernel r h.root
  apart e := e.elim h.spaces.apart fun e => h.ne_kernel e.symm
  present _ _ _ _ hp hw hne := h.present_share hp hw hne
  distinct := h.distinct_share
  pages s x hs hpage hx := by
    rcases hs with hs | rfl
    · rw [h.paths_old hs] at hpage
      by_cases hsr : s = r
      · subst hsr
        exact h.page_shared (h.leaf_parent x) hx
      · rw [h.leaf_other hs hpage hsr] at hx ⊢
        exact h.page hs hpage hx
    · rw [paths_new] at hpage
      exact h.page_shared (h.leaf_child hpage) hx
  partner s hs := h.partner_share hslot hs
  nodup := h.spaces.nodup.sublist (List.drop_sublist n gs)
  fresh g hg := h.fresh_share (h.spaces.fresh g (List.drop_subset n gs hg)) (h.marking.supply g hg).1

end Sharing

/-- `m'` is `m` after all pages of `r` have been shared with a new process, whose PML4 is `c` and which has the
paths `Q`. -/
structure Forked (m : PMem) (R : Frame → Prop) (P : Frame → Paths) (K : Frame) (gs : List Frame) (r : Frame)
    (m' : PMem) (gs' : List Frame) (c : Frame) (Q : Paths) : Prop where
  spaces : Spaces m' (rootsWith R c) (Function.update P c Q) K gs'
  suffix : gs' <:+ gs
  new : ¬R c
  parent : ∀ x, Page.leaf m' r x = sharedEntry (x.leaf m r)
  child : ∀ x, Q.page x → Page.leaf m' c x = sharedEntry (x.leaf m r)
  other : ∀ s x, R s → (P s).page x → s ≠ r → Page.leaf m' s x = x.leaf m s
  upper : ∀ s p f i, R s → (P s).has (p ++ [i]) → p.length < 3 → walk m s p = some f → m' f i = m f i
  partners : ∀ s, R s → s ≠ r → m' s 509 = m s 509
  cross : Sbuos.child (m' r 509) = some c
  back : Sbuos.child (m' c 509) = some r
  data : ∀ f, Radix.Fresh Sbuos.child m (Owned R P K) f → f ∉ gs → m' f = m f
  rest : ∀ g ∈ gs', m' g = m g

end share

end Spaces
end Sbuos
