import Sbuos.ForkStale
import Sbuos.KernelHeap
/-!
# What a fork allocates (sys/memory_helpers.c:116-136, :254-269, sys/process_helpers.c:143-178)

The kernel maps its pages behind slot 511, in tables that all processes share. `takePage_eq` says what one page
costs: a frame for the page and one for each table that is missing on the way to it.
-/
namespace Sbuos
open Lib
open Spaces (Keeps Spare CopyOf)

/-- A page behind slot 511. -/
structure KernelPage (v : Word) : Prop where
  aligned : Aligned v
  upper : 0xffffff8000000000 ≤ v

namespace KernelPage
variable {v : Word} (h : KernelPage v)
include h

theorem toNat_le : 0xffffff8000000000 ≤ v.toNat := h.upper

theorem tablePath_eq : tablePath v = [511, v.extractLsb' 30 9, v.extractLsb' 21 9] := by
  have htop : v.extractLsb' 39 9 = 511 := by
    apply BitVec.eq_of_toNat_eq
    have hle := h.toNat_le
    have hlt := v.isLt
    rw [BitVec.extractLsb'_toNat, Nat.shiftRight_eq_div_pow]
    simp only [BitVec.ofNat_eq_ofNat, BitVec.toNat_ofNat]
    omega
  rw [tablePath, Sbuos.upper, Sbuos.upper, Sbuos.upper, Sbuos.upper, htop]

theorem canonical : Canonical v := by
  right
  apply BitVec.eq_of_toNat_eq
  have hle := h.toNat_le
  have hlt := v.isLt
  rw [BitVec.extractLsb'_toNat, Nat.shiftRight_eq_div_pow, BitVec.toNat_allOnes]
  omega

end KernelPage

theorem missing_le (m : PMem) (f : Frame) (p : List Index) : missing m f p ≤ p.length := by
  induction p generalizing f with
  | nil => exact Nat.le_refl 0
  | cons i p ih =>
    rw [missing, Radix.missing]
    split
    · exact Nat.le_succ_of_le (ih _)
    · exact Nat.le_refl _

section spaces
variable {m m' : PMem} {R : Frame → Prop} {P : Frame → Paths} {K r f g : Frame} {gs : List Frame} {v e : Word}
  {i : Index}

theorem Spaces.tail (h : Spaces m R P K (g :: gs)) : Spaces m R P K gs :=
  h.congr (fun _ _ _ _ _ _ => rfl) (List.sublist_cons_self g gs)

/-- An entry of a page table of the kernel's. -/
theorem Spaces.setKernelPage (h : Spaces m R P K gs) {q : List Index} (hq : q.length = 2) (hf : walk m K q = some f) :
    Spaces (Radix.set m f i e) R P K gs ∧ Keeps m R P K gs (Radix.set m f i e) ∧
      walk (Radix.set m f i e) K (q ++ [i]) = child e := by
  have hm : ∀ s p f', Owned R P K s p → walk m s p = some f' → ¬(s = K ∧ p.length = 2) →
      Radix.set m f i e f' = m f' := by
    intro s p f' hp hf' hne
    refine Radix.set_of_ne ?_
    rintro rfl
    obtain ⟨rfl, rfl⟩ := h.distinct s p K q f' hp (.kernel hq.le) hf' hf
    exact hne ⟨rfl, hq⟩
  have hfresh : ∀ f', Radix.Fresh child m (Owned R P K) f' → f' ≠ f := by
    rintro f' hf' rfl
    exact hf' K q (.kernel hq.le) hf
  refine ⟨h.congr hm (.refl gs), ⟨?_, ?_⟩, ?_⟩
  · intro r p f' hr hp hf'
    exact hm r p f' hp hf' fun hk => h.apart (hk.1 ▸ hr)
  · intro f' hf' _
    exact ⟨fun s p hp hw => hf' s p hp ((h.walk_congr' hm hp).symm.trans hw), Radix.set_of_ne (hfresh f' hf')⟩
  · rw [walk, Radix.walk_snoc, ← walk, h.walk_congr' hm (.kernel hq.le), hf, Option.bind_some, Radix.set_self]

end spaces

theorem Frames.Free.unique {fr : Frames} {gs gs' : List Frame} (h : fr.Free gs) (h' : fr.Free gs') : gs = gs' := by
  obtain ⟨free, used, hwf, hb⟩ := h
  obtain ⟨free', used', hwf', hb'⟩ := h'
  obtain rfl := hwf.freeChain.unique hwf'.freeChain
  have hinj : Function.Injective baseOf := fun g g' e => by
    rw [← frameOf_baseOf g, e, frameOf_baseOf]
  exact List.map_injective_iff.2 hinj (hb.symm.trans hb')

namespace KernelMem
variable {s : KernelMem} {R : Frame → Prop} {P : Frame → Paths} {K g : Frame} {gs : List Frame} {flags : Word}

/-- One page at the cursor. -/
theorem takePage_eq (h : Spaces s.vm.mem R P K (g :: gs)) (hr : R s.vm.root) (hall : P s.vm.root = .all)
    (hfree : s.vm.frames.Free (g :: gs))
    (hv : KernelPage s.availableVirtMem) (hlen : 2 ≤ gs.length)
    (hflags : child (leafEntry (baseOf g) flags) = some g) :
    ∃ n m' fr, n ≤ 2 ∧ s.takePage flags = some (baseOf g, { s with
        vm := ⟨m', s.vm.cr3, fr⟩
        availableVirtMem := s.availableVirtMem + BitVec.ofNat 64 pageSize
        mapped := s.availableVirtMem :: s.mapped }) ∧
      Spaces m' R P K (gs.drop n) ∧ fr.Free (gs.drop n) ∧ Keeps s.vm.mem R P K gs m' ∧
      (∀ g' ∈ gs.drop n, m' g' = s.vm.mem g') ∧ walk m' s.vm.root (pathOf s.availableVirtMem) = some g := by
  obtain ⟨fr₀, hget, hfree₀⟩ := Vm.getFreePage_free hfree
  have htail := h.tail
  have hplain : Plain (tablePath s.availableVirtMem) := by
    rw [hv.tablePath_eq]
    exact ⟨by simp, by simp, by simp⟩
  have hlinks : LinksPresent s.vm.mem s.vm.root (tablePath s.availableVirtMem) := by
    rintro q i f ⟨u, hu⟩ hf hne
    rw [← hu] at hplain
    exact (h.tree hr hall).present q i f hplain.of_append hf hne
  have hoff : ∀ g' ∈ gs, OffPath s.vm.mem s.vm.root (tablePath s.availableVirtMem) g' := by
    rintro g' hg' q ⟨u, hu⟩
    rw [← hu] at hplain
    exact htail.not_walk_of_fresh hr hall (htail.fresh g' hg') hplain.of_append
  have hdesc : ∀ m : PMem, child (m s.vm.root 511) = some K →
      missing m s.vm.root (tablePath s.availableVirtMem) =
        missing m K [s.availableVirtMem.extractLsb' 30 9, s.availableVirtMem.extractLsb' 21 9] ∧
      descend m s.vm.root (tablePath s.availableVirtMem) gs =
        descend m K [s.availableVirtMem.extractLsb' 30 9, s.availableVirtMem.extractLsb' 21 9] gs := by
    intro m hm
    constructor
    · rw [hv.tablePath_eq, missing, Radix.missing, hm]
    · simp only [hv.tablePath_eq, descend, Radix.descend, hm]
  obtain ⟨hmiss, hmem⟩ := hdesc s.vm.mem (h.kernel _ hr)
  have hle : missing s.vm.mem K [s.availableVirtMem.extractLsb' 30 9, s.availableVirtMem.extractLsb' 21 9] ≤ 2 :=
    missing_le _ _ _
  obtain ⟨fr, f, hf, hrun, hfr⟩ := Vm.mapPage_eq (baseOf g) s.availableVirtMem flags
    (s := { s.vm with frames := fr₀ }) (h.self _ hr) hlinks hfree₀ htail.nodup hoff
    (by rw [show Vm.root { s.vm with frames := fr₀ } = s.vm.root from rfl, hmiss]; omega)
  rw [show Vm.root { s.vm with frames := fr₀ } = s.vm.root from rfl] at hf hrun hfr
  rw [hmiss] at hfr
  rw [hmem] at hf hrun
  obtain ⟨h₁, -, hgrown, hrest⟩ := htail.descend (q := []) (s := K) (u := [_, _]) (f := K) (.kernel le_rfl)
    (fun j hj => by
      rcases hj with ⟨hK, -⟩ | ⟨-, hlen⟩
      · exact h.apart hK
      · simp at hlen)
    rfl (hle.trans hlen) fun _ _ _ _ hK => absurd hK h.apart
  have hkeeps := hgrown.keeps h.apart
  have hfK := hf
  rw [hv.tablePath_eq, h₁.walk_kernel hr] at hfK
  obtain ⟨h₂, hkeeps₂, hpage⟩ := h₁.setKernelPage (i := pageIndex s.availableVirtMem) (e := leafEntry (baseOf g) flags)
    rfl hfK
  refine ⟨_, _, fr, hle, ?_, h₂, hfr, hkeeps.trans hkeeps₂ (List.drop_subset _ gs),
    fun g' hg' => ?_, ?_⟩
  · rw [takePage]
    simp only [hget, hrun, Option.bind_eq_bind, Option.bind_some]
  · rw [Radix.set_of_ne, hrest g' hg']
    rintro rfl
    exact h₁.fresh g' hg' K _ (.kernel le_rfl) hfK
  · rw [pathOf_eq, hv.tablePath_eq]
    exact (h₂.walk_kernel hr _).trans (hpage.trans hflags)

/-! ## The four allocations -/

/-- The kernel can take `k` pages, and then `n` more frames. -/
structure Ready (R : Frame → Prop) (P : Frame → Paths) (K : Frame) (k n : Nat) (gs : List Frame) (s : KernelMem) :
    Prop where
  spaces : Spaces s.vm.mem R P K gs
  free : s.vm.frames.Free gs
  root : R s.vm.root
  all : P s.vm.root = .all
  page : KernelPage s.availableVirtMem
  room : s.availableVirtMem.toNat + k * pageSize < 2 ^ 64
  enough : 3 * k + n ≤ gs.length

/-- `s'` is `s` after the kernel has taken frames for itself. -/
structure Took (R : Frame → Prop) (P : Frame → Paths) (K : Frame) (s : KernelMem) (gs : List Frame) (s' : KernelMem)
    (gs' : List Frame) : Prop where
  cr3 : s'.vm.cr3 = s.vm.cr3
  suffix : gs' <:+ gs
  keeps : Keeps s.vm.mem R P K gs s'.vm.mem
  rest : ∀ g ∈ gs', s'.vm.mem g = s.vm.mem g

theorem Took.trans {s' s'' : KernelMem} {gs' gs'' : List Frame} (h : Took R P K s gs s' gs')
    (h' : Took R P K s' gs' s'' gs'') : Took R P K s gs s'' gs'' :=
  ⟨h'.cr3.trans h.cr3, h'.suffix.trans h.suffix, h.keeps.trans h'.keeps h.suffix.subset,
    fun g hg => (h'.rest g hg).trans (h.rest g (h'.suffix.subset hg))⟩

variable {k n : Nat}

theorem takePage_ready (h : Ready R P K (k + 1) n gs s) (flags : Word)
    (hflags : ∀ g, child (leafEntry (baseOf g) flags) = some g) :
    ∃ g gs' s', s.takePage flags = some (baseOf g, s') ∧ Ready R P K k n gs' s' ∧ Took R P K s gs s' gs' ∧
      Spare s'.vm.mem R P K gs' g ∧ s'.vm.Sees s.availableVirtMem g ∧
      s'.vm.Avoids s.availableVirtMem g ∧ g ∈ gs := by
  have henough := h.enough
  obtain ⟨g, gs, rfl⟩ := List.exists_cons_of_ne_nil (l := gs) (by rintro rfl; simp at henough)
  rw [List.length_cons] at henough
  obtain ⟨d, m', fr, hd, hrun, hspaces, hfree, hkeeps, hrest, hwalk⟩ :=
    takePage_eq h.spaces h.root h.all h.free h.page (by omega) (hflags g)
  have hspare := h.spaces.spare_of_free
  have hspare' : Spare m' R P K (gs.drop d) g := hkeeps.spare hspare (List.drop_subset d gs)
  have hroom := h.room
  have hnext : (s.availableVirtMem + BitVec.ofNat 64 pageSize).toNat = s.availableVirtMem.toNat + pageSize := by
    rw [BitVec.toNat_add, BitVec.toNat_ofNat]
    simp only [pageSize] at *
    omega
  refine ⟨g, gs.drop d, _, hrun, ?_, ⟨rfl, ?_, ?_, hrest⟩, hspare', ⟨h.page.aligned, h.page.canonical, hwalk⟩, ?_,
    List.mem_cons_self⟩
  · refine ⟨hspaces, hfree, h.root, h.all, ⟨aligned_add h.page.aligned, ?_⟩, ?_, ?_⟩
    · have hle := h.page.toNat_le
      rw [BitVec.le_def, hnext]
      exact Nat.le_add_right_of_le hle
    · simp only [hnext]
      simp only [pageSize] at *
      omega
    · rw [List.length_drop]
      omega
  · exact (List.drop_suffix d gs).trans (List.suffix_cons g gs)
  · exact ⟨hkeeps.node, fun f hf hgs => hkeeps.data f hf fun hmem => hgs (List.mem_cons_of_mem g hmem)⟩
  · -- the tables on the way are in the tree of `s`
    intro q i hq hw
    have hplain : Plain q := by
      rw [pathOf_eq, h.page.tablePath_eq] at hq
      have hq' := prefix_of_concat hq
      obtain ⟨u, hu⟩ := hq'
      refine Plain.of_append (q := u) ?_
      rw [hu]
      exact ⟨by simp, by simp, by simp⟩
    exact hspaces.not_walk_of_fresh h.root h.all hspare'.fresh hplain hw

theorem child_takenEntry (g : Frame)
    (hflags : flags = present ||| readWrite ∨ flags = present ||| readWrite ||| userAccessible) :
    child (leafEntry (baseOf g) flags) = some g := by
  rw [child_leafEntry (baseOf g) hflags, frameOf_baseOf]

theorem getNewPageV_ready (h : Ready R P K (k + 1) n gs s) :
    ∃ a gs' s', s.getNewPageV = some (a, s') ∧ Ready R P K k n gs' s' ∧ Took R P K s gs s' gs' := by
  obtain ⟨g, gs', s', hrun, hready, htook, -⟩ := takePage_ready h (present ||| readWrite ||| userAccessible)
    fun g => child_takenEntry g (.inr rfl)
  refine ⟨s.availableVirtMem, gs', s', ?_, hready, htook⟩
  rw [getNewPageV, hrun]
  rfl

theorem Ready.weaken (h : Ready R P K (k + 1) n gs s) : Ready R P K k n gs s := by
  have hroom := h.room
  have henough := h.enough
  have hk : k * pageSize ≤ (k + 1) * pageSize := Nat.mul_le_mul_right pageSize (Nat.le_succ k)
  exact ⟨h.spaces, h.free, h.root, h.all, h.page, by omega, by omega⟩

theorem kmalloc_ready (h : Ready R P K (k + 1) n gs s) {bytes : Word} (hbytes : bytes ≤ BitVec.ofNat 64 pageSize) :
    ∃ a gs' s', s.kmalloc bytes = some (a, s') ∧ Ready R P K k n gs' s' ∧ Took R P K s gs s' gs' := by
  rw [kmalloc, if_neg (BitVec.not_lt.2 hbytes)]
  split
  · obtain ⟨g, gs', s', hrun, hready, htook, -⟩ := takePage_ready h (present ||| readWrite)
      fun g => child_takenEntry g (.inl rfl)
    simp only [hrun, Option.map_some, Option.bind_eq_bind, Option.bind_some]
    refine ⟨_, gs', _, rfl, ?_, ?_⟩
    · exact ⟨hready.spaces, hready.free, hready.root, hready.all, hready.page, hready.room, hready.enough⟩
    · exact ⟨htook.cr3, htook.suffix, htook.keeps, htook.rest⟩
  · simp only [Option.bind_eq_bind, Option.bind_some]
    refine ⟨_, gs, _, rfl, ?_, ?_⟩
    · obtain ⟨h1, h2, h3, h4, h5, h6, h7⟩ := h.weaken
      exact ⟨h1, h2, h3, h4, h5, h6, h7⟩
    · exact ⟨rfl, List.suffix_rfl, .refl _ R P K gs, fun _ _ => rfl⟩

/-- `copy_kernel_pml4` of the PML4 in force, into the page of a frame outside its tables, whatever that holds. -/
theorem copyKernelPml4_eq {t : Vm} {v : Word} (hself : SelfMapped t.mem t.root) (hv : t.Sees v g) (hav : t.Avoids v g)
    (hne : g ≠ t.root) (u : Index → Word) : Vm.copyKernelPml4 v { t with mem := Function.update t.mem g u } =
      some { t with mem := Function.update t.mem g (t.mem t.root) } := by
  have hroot : t.Sees (recAddr []) t.root := Vm.Sees.recAddr hself (.inl (Nat.zero_le 3)) rfl
  have hroot' : t.Avoids (recAddr []) g := Vm.Avoids.recAddr hself (.inl (Nat.zero_le 3)) hne fun p i hp => by
    simp at hp
  refine (Vm.foldlM_indices (f := g) (t.mem t.root) fun c i => ?_).trans ?_
  · simp only [Function.update_idem, pml4Addr_eq, (hroot.update hroot' c).read, Option.bind_eq_bind, Option.bind_some,
      Function.update_of_ne hne.symm, (hv.update hav c).write, Radix.set, Function.update_self]
  · simp only [Function.update_idem]

/-- `get_new_page_table`: a copy of the PML4 in force. -/
theorem getNewPageTable_ready (h : Ready R P K (k + 1) n gs s) :
    ∃ g gs' s', s.getNewPageTable = some (baseOf g, s') ∧ Ready R P K k n gs' s' ∧ Took R P K s gs s' gs' ∧
      CopyOf s'.vm.mem R P K gs' s.vm.root g ∧ g ∈ gs := by
  obtain ⟨g, gs', s₁, hrun, hready, htook, hspare, hsees, hav, hg⟩ :=
    takePage_ready h (present ||| readWrite ||| userAccessible) fun g => child_takenEntry g (.inr rfl)
  have hroot : s₁.vm.root = s.vm.root := congrArg frameOf htook.cr3
  have hne : g ≠ s₁.vm.root := fun e => hspare.fresh s₁.vm.root [] (.root hready.root) (e ▸ rfl)
  have hzero := hsees.zeroOut hav
  have hcopy := copyKernelPml4_eq (hready.spaces.self _ hready.root) hsees hav hne fun _ => 0
  have hsees' := hsees.update hav (s₁.vm.mem s₁.vm.root)
  have hslot := hsees'.write 510 (baseOf g ||| present ||| readWrite ||| userAccessible)
  generalize hm : Radix.set (Function.update s₁.vm.mem g (s₁.vm.mem s₁.vm.root)) g 510
    (baseOf g ||| present ||| readWrite ||| userAccessible) = m₂ at hslot
  -- only the new frame has changed
  have hother : ∀ f, f ≠ g → m₂ f = s₁.vm.mem f := by
    intro f hf
    rw [← hm, Radix.set_of_ne hf, Function.update_of_ne hf]
  have hnode : ∀ s p f, Owned R P K s p → walk s₁.vm.mem s p = some f → ¬(s = K ∧ p.length = 2) → m₂ f = s₁.vm.mem f :=
    fun s p f hp hf _ => hother f fun e => hspare.fresh s p hp (e ▸ hf)
  have hspaces : Spaces m₂ R P K gs' := hready.spaces.congr hnode (.refl gs')
  have hfresh : ∀ f, Radix.Fresh child s₁.vm.mem (Owned R P K) f → Radix.Fresh child m₂ (Owned R P K) f :=
    fun f hf s p hp hw => hf s p hp ((hready.spaces.walk_congr' hnode hp).symm.trans hw)
  refine ⟨g, gs', { s₁ with vm := { s₁.vm with mem := m₂ } }, ?_, ?_, ?_, ?_⟩
  · rw [getNewPageTable]
    simp only [hrun, hzero, Radix.fill, hcopy, Option.bind_eq_bind, Option.bind_some]
    rw [show (510 : Word) = (510 : Index).setWidth 64 by decide, hslot]
    rfl
  · exact ⟨hspaces, hready.free, hready.root, hready.all, hready.page, hready.room, hready.enough⟩
  · refine ⟨htook.cr3, htook.suffix, ⟨fun r p f hr hp hf => ?_, fun f hf hgs => ?_⟩, fun g' hg' => ?_⟩
    · have hf₁ := (htook.keeps.walk_eq hr hp).trans hf
      rw [← htook.keeps.node r p f hr hp hf]
      exact hother f fun e => hspare.fresh r p hp (e ▸ hf₁)
    · obtain ⟨h1, h2⟩ := htook.keeps.data f hf hgs
      exact ⟨hfresh f h1, (hother f fun e => hgs (e ▸ hg)).trans h2⟩
    · exact (hother g' fun e => hspare.not_free (e ▸ hg')).trans (htook.rest g' hg')
  · refine ⟨⟨⟨hfresh g hspare.fresh, hspare.not_free, fun t x ht hx => ?_⟩, ?_, fun i hi => ?_⟩, hg⟩
    · rw [hready.spaces.leaf_congr' hnode ht hx]
      exact hspare.not_page t x ht hx
    · change child (m₂ g 510) = some g
      rw [← hm, Radix.set_self]
      exact child_link g
    · have hr' : s.vm.root ≠ g := fun e => hne (e.symm.trans hroot.symm)
      change m₂ g i = m₂ s.vm.root i
      rw [hother _ hr', ← hm, Radix.set_apply, if_neg fun e => hi e.2, Function.update_self, hroot]

end KernelMem

/-! ## The fork -/

/-- Entries that stay as they are keep the number of tables. -/
theorem tablesBelow_congr {m m' : PMem} (k : Nat) : ∀ (f : Frame),
    (∀ p g i, (k = 3 → Low (p ++ [i])) → p.length < k → walk m f p = some g → m' g i = m g i) → k ≤ 3 →
    (∀ p g i, (k = 3 → Low (p ++ [i])) → p.length < k → walk m f p = some g → m g i ≠ 0 → child (m g i) ≠ none) →
    tablesBelow m' k f = tablesBelow m k f := by
  induction k with
  | zero => exact fun _ _ _ _ => rfl
  | succ k ih =>
    intro f hkeep hk hpresent
    rw [tablesBelow, tablesBelow]
    congr 1
    refine List.map_congr_left fun i hi => ?_
    have hlow : k + 1 = 3 → ∀ p, Low (i :: p) := by
      intro h3 p j hj
      obtain rfl := Option.some.inj hj
      exact Marking.mem_entries.1 hi (by omega)
    rw [hkeep [] f i (fun h3 => hlow h3 []) (Nat.succ_pos k) rfl]
    split
    case isTrue => rfl
    case isFalse hne =>
      obtain ⟨g, hg⟩ := Option.ne_none_iff_exists'.1 (hpresent [] f i (fun h3 => hlow h3 []) (Nat.succ_pos k) rfl hne)
      rw [(child_eq_some hg).2]
      congr 1
      have hcons : ∀ p, walk m f (i :: p) = walk m g p := fun p => by
        rw [walk, Radix.walk_cons, hg, Option.bind_some]
      refine ih g (fun p g' j _ hp hw => ?_) (by omega) fun p g' j _ hp hw => ?_
      · refine hkeep (i :: p) g' j (fun h3 => hlow h3 (p ++ [j])) ?_ ((hcons p).trans hw)
        rw [List.length_cons]
        omega
      · refine hpresent (i :: p) g' j (fun h3 => hlow h3 (p ++ [j])) ?_ ((hcons p).trans hw)
        rw [List.length_cons]
        omega

/-- For the trees of the processes. -/
theorem Spaces.tablesBelow_eq {m m' : PMem} {R : Frame → Prop} {P : Frame → Paths} {K r : Frame} {gs : List Frame}
    (hs : Spaces m R P K gs) (hr : R r) (hall : P r = .all)
    (h : ∀ p f i, Low (p ++ [i]) → p.length < 3 → walk m r p = some f → m' f i = m f i) :
    tablesBelow m' 3 r = tablesBelow m 3 r := by
  refine tablesBelow_congr 3 r (fun p f i hlow hp hw => h p f i (hlow rfl) hp hw) le_rfl fun p f i hlow hp hw hne => ?_
  refine (hs.present r p i f (.low hr hall (hlow rfl) ?_) hw hne).1
  rw [List.length_append, List.length_singleton]
  omega

/-- `sizeof(pcb)` (process_helpers.h:24-47). -/
def pcbSize : Word := 568

theorem pcbSize_le : pcbSize ≤ BitVec.ofNat 64 pageSize := by decide

/-- What `get_forked_pcb` allocates (process_helpers.c:143-176): the block for the pcb, the kernel stack, the table that
`_get_new_pcb` allocates and the one that replaces it. The three words go into the pcb; what is in the stacks is
not modelled. -/
def KernelMem.forkPages (s : KernelMem) : Option ((Word × Word × Word) × KernelMem) := do
  let (_, s) ← s.kmalloc pcbSize
  let (kernelStack, s) ← s.getNewPageV
  let (pml4, s) ← s.getNewPageTable
  let (pml4', s) ← s.getNewPageTable
  some ((kernelStack, pml4, pml4'), s)

/-- What `get_forked_pcb` does to memory (process_helpers.c:143-178): the allocations, and then the tables are
shared. -/
def KernelMem.forkMemory (parentPml4 : Word) (s : KernelMem) : Option ((Word × Word × Word) × KernelMem) := do
  let (r, s) ← s.forkPages
  let vm ← s.vm.forkTables Vm.write parentPml4 r.2.2
  some (r, { s with vm := vm })

/-- Where the parent's tables have no entry, the frames that the fork takes for the child's tables are zero. -/
def KernelMem.CleanFork (s : KernelMem) : Prop :=
  ∀ r s' gs, s.forkPages = some (r, s') → s'.vm.frames.Free gs → Unstale s'.vm.mem s'.vm.root gs

/-- Paths that count in the child: all, if the frames for its tables are clean, and those along the parent's entries in
any case. -/
def KernelMem.Offers (s : KernelMem) (Q : Paths) : Prop :=
  (Q = .all ∧ s.CleanFork) ∨ Q = .mapped s.vm.mem s.vm.root

theorem KernelMem.Offers.page {s : KernelMem} {Q : Paths} (h : s.Offers Q) {x : Page}
    (hx : x.leaf s.vm.mem s.vm.root ≠ 0) : Q.page x := by
  obtain ⟨rfl, -⟩ | rfl := h
  · exact Paths.all_page x
  · exact Paths.has_mapped (Spaces.Sharing.mapped_page hx)

/-- The entry for the other side's PML4 (memory_helpers.c:414, :416). -/
theorem child_crossEntry (e : Word) : child (e ||| readWrite ||| present ||| userAccessible) = some (frameOf e) := by
  have hp : (e ||| readWrite ||| present ||| userAccessible) &&& present ≠ 0 := by
    intro h
    have hbit := congrArg (fun x : Word => x.getLsbD 0) h
    simp [present, readWrite, userAccessible] at hbit
  rw [child, if_neg hp]
  congr 1
  apply BitVec.eq_of_getLsbD_eq
  intro k hk
  simp only [frameOf, present, readWrite, userAccessible]
  interval_cases k <;> simp

section fork
variable {s : KernelMem} {R : Frame → Prop} {P : Frame → Paths} {K : Frame} {gs : List Frame}

/-- The allocations. -/
theorem KernelMem.forkPages_eq {k n : Nat} (h : Ready R P K (k + 4) n gs s) :
    ∃ kernelStack pml4 c gs' s', s.forkPages = some ((kernelStack, pml4, baseOf c), s') ∧ Ready R P K k n gs' s' ∧
      Took R P K s gs s' gs' ∧ CopyOf s'.vm.mem R P K gs' s.vm.root c ∧ c ∈ gs := by
  obtain ⟨a, gs₁, s₁, hrun₁, h₁, htook₁⟩ := kmalloc_ready h pcbSize_le
  obtain ⟨kernelStack, gs₂, s₂, hrun₂, h₂, htook₂⟩ := getNewPageV_ready h₁
  obtain ⟨c₀, gs₃, s₃, hrun₃, h₃, htook₃, -⟩ := getNewPageTable_ready h₂
  obtain ⟨c, gs₄, s₄, hrun₄, h₄, htook₄, hcopy, hc⟩ := getNewPageTable_ready h₃
  have htook₀ := (htook₁.trans htook₂).trans htook₃
  have hroot₃ : s₃.vm.root = s.vm.root := congrArg frameOf htook₀.cr3
  rw [hroot₃] at hcopy
  refine ⟨kernelStack, baseOf c₀, c, gs₄, s₄, ?_, h₄, htook₀.trans htook₄, hcopy, htook₀.suffix.subset hc⟩
  rw [forkPages]
  simp only [hrun₁, hrun₂, hrun₃, hrun₄, Option.bind_eq_bind, Option.bind_some]

/-- Frames that hold only zeros are clean. -/
theorem KernelMem.cleanFork_of_blank {k n : Nat} (h : Ready R P K (k + 4) n gs s)
    (hblank : ∀ g ∈ gs, ∀ j, s.vm.mem g j = 0) : s.CleanFork := by
  obtain ⟨_, _, c, gs', s', hpages, h', htook, -⟩ := forkPages_eq h
  intro r s'' gs'' hrun hfree q g j hmem _
  obtain ⟨-, rfl⟩ := Prod.mk.inj (Option.some.inj (hpages.symm.trans hrun))
  obtain rfl := hfree.unique h'.free
  have hg := (List.of_mem_zip hmem).2
  rw [htook.rest g hg]
  exact hblank g (htook.suffix.subset hg) j

/-- **A fork's memory**: with the frames for it there is a new address space `c` that shares all pages. What is left
over is enough for what it was enough for. -/
theorem KernelMem.forkMemory_eq {k n : Nat} (h : Ready R P K (k + 4) (tablesBelow s.vm.mem 3 s.vm.root + n) gs s)
    {Q : Paths} (hQ : s.Offers Q) {parentPml4 : Word} (hparent : frameOf parentPml4 = s.vm.root) :
    ∃ kernelStack pml4 c gs' s', s.forkMemory parentPml4 = some ((kernelStack, pml4, baseOf c), s') ∧
      s'.vm.cr3 = s.vm.cr3 ∧ s'.vm.frames.Free gs' ∧ KernelPage s'.availableVirtMem ∧
      Spaces.Forked s.vm.mem R P K gs s.vm.root s'.vm.mem gs' c Q ∧
      s'.availableVirtMem.toNat + k * pageSize < 2 ^ 64 ∧ 3 * k + n ≤ gs'.length := by
  obtain ⟨kernelStack, pml4, c, gs₄, s₄, hpages, h₄, htook, hcopy, hc⟩ := forkPages_eq h
  have hroot : s₄.vm.root = s.vm.root := congrArg frameOf htook.cr3
  have hr : R s.vm.root := h.root
  have henough := h₄.enough
  have hnode : ∀ p f i, Low (p ++ [i]) → p.length ≤ 3 → walk s.vm.mem s.vm.root p = some f →
      s₄.vm.mem f i = s.vm.mem f i := fun p f i hlow hp hw =>
    congrFun (htook.keeps.node _ p f hr (.low hr h.all hlow.of_append hp) hw) i
  have htables : tablesBelow s₄.vm.mem 3 s.vm.root = tablesBelow s.vm.mem 3 s.vm.root :=
    h.spaces.tablesBelow_eq hr h.all fun p f i hlow hp hw => hnode p f i hlow hp.le hw
  have hmapped : ∀ p i, Mapped s₄.vm.mem s.vm.root p i ↔ Mapped s.vm.mem s.vm.root p i := by
    intro p i
    refine and_congr_right fun hlen => and_congr_right fun hlow => ?_
    rw [htook.keeps.walk_eq hr (.low hr h.all hlow.of_append hlen)]
    refine exists_congr fun f => and_congr_right fun hw => ?_
    rw [hnode p f i hlow hlen hw]
  have hplain : ∀ g, Radix.Fresh child s₄.vm.mem (Owned R P K) g → ∀ p, Plain p →
      walk s₄.vm.mem s₄.vm.root p ≠ some g :=
    fun g hg p hp => h₄.spaces.not_walk_of_fresh h₄.root h₄.all hg hp
  have htree := h₄.spaces.tree h₄.root h₄.all
  obtain ⟨m', fr', τ, hrun, hmark, hzip, htaken, hslot⟩ := forkTables_eq htree (hplain c hcopy.fresh) h₄.free
    h₄.spaces.nodup (fun g hg => ⟨fun e => hcopy.not_free (e ▸ hg), hplain g (h₄.spaces.fresh g hg)⟩) (by
      rw [hroot, htables]
      omega) parentPml4
  have hclean : s.CleanFork → Unstale s₄.vm.mem s.vm.root gs₄ := fun hclean => hroot ▸ hclean _ _ gs₄ hpages h₄.free
  rw [hroot] at hmark hzip htree
  have hback : child (m' c 509) = some s.vm.root := by rw [hslot, child_crossEntry, hparent]
  have hsharing : Spaces.Sharing s₄.vm.mem R P K gs₄ s.vm.root c Q τ (tablesBelow s₄.vm.mem 3 s.vm.root) m' fr' := by
    refine ⟨h₄.spaces, hr, h.all, hcopy, hmark, htaken, fun p i hd => ?_, fun p i hQp hreach hp hd => ?_⟩
    · obtain ⟨rfl, -⟩ | rfl := hQ
      · exact hd.2.1
      · exact Paths.has_mapped ((hmapped p i).1 hd)
    · obtain ⟨rfl, hfork⟩ | rfl := hQ
      · exact hmark.zero_of_unstale htree hzip (hclean hfork) hreach hp hQp hd
      · exact absurd ((hmapped p i).2 (Paths.mapped_of_has hQp)) hd
  have hleaf := fun x => htook.keeps.leaf_eq (x := x) hr (h.all ▸ Paths.all_page x)
  refine ⟨kernelStack, pml4, c, _, { s₄ with vm := ⟨m', s₄.vm.cr3, fr'⟩ }, ?_, htook.cr3, hmark.free, h₄.page, ?_,
    h₄.room, ?_⟩
  · rw [forkMemory]
    simp only [hpages, hrun _ (storesOutside_write _ _), Option.bind_eq_bind, Option.bind_some]
  · exact
      { spaces := hsharing.share hback
        suffix := (List.drop_suffix _ gs₄).trans htook.suffix
        new := hsharing.not_root
        parent := fun x => (hsharing.leaf_parent x).trans (congrArg sharedEntry (hleaf x))
        child := fun x hx => (hsharing.leaf_child hx).trans (congrArg sharedEntry (hleaf x))
        other := fun t x ht hx hne => (hsharing.leaf_other ht hx hne).trans (htook.keeps.leaf_eq ht hx)
        upper := fun t p f i ht hhas hp hw => by
          have hpath : Owned R P K t p := .of_has ht ((P t).closed p [i] hhas) hp.le
          rw [← congrFun (htook.keeps.node t p f ht hpath hw) i]
          refine hsharing.node_old hpath ((htook.keeps.walk_eq ht hpath).trans hw) ?_
          rintro ⟨-, hlen | hcross⟩
          · omega
          · exact ((P t).low _ hhas).ne hcross
        partners := fun t ht hne =>
          (hsharing.root_old ht fun e => hne e.1).trans (congrFun (htook.keeps.root_eq ht) 509)
        cross := hmark.cross
        back := hback
        data := fun f hf hgs => by
          obtain ⟨h1, h2⟩ := htook.keeps.data f hf hgs
          have hfc : f ≠ c := fun e => hgs (e ▸ hc)
          exact (hsharing.data h1 hfc fun hmem => hgs (htook.suffix.subset hmem)).trans h2
        rest := fun g hg => (hsharing.rest hg).trans (htook.rest g (List.drop_subset _ gs₄ hg)) }
  · rw [List.length_drop, htables]
    omega

end fork
end Sbuos
