import Sbuos.AddressSpaces
import Sbuos.Syscall
/-!
# Copy-on-write faults (sys/memory_helpers.c:337-410)

`handle_COW` gives the faulting process a copy of the page if it finds the process's child or parent in the
ready queue, and in any case makes the page writable for the process behind slot 509. The two entries are
reached by address arithmetic: `ownEntry_eq` and `partnerEntry_eq` say which recursive addresses these are.
-/
namespace Sbuos
open Lib

/-- An address of the lower half. -/
def UserAddr (a : Word) : Prop := a.extractLsb' 47 17 = 0

instance (a : Word) : Decidable (UserAddr a) := inferInstanceAs (Decidable (_ = _))

namespace Vm

/-- `cross_off_COW` (memory_helpers.c:337-355). -/
def crossOffCow (virt : Word) (s : Vm) : Option Vm := do
  let e ← s.read (slot pml4Addr 509)
  if e = 0 then some s
  else
    let virt := virt &&& 0xfffffffffffff000
    let virt := virt ||| 0xffff000000000000
    let virt := virt &&& 0xfffdffffffffffff
    let ptr := (virt >>> 9) ||| 0xffff000000000000
    let temp ← s.read ptr
    let temp := temp &&& ~~~cow
    let temp := temp ||| readWrite
    s.write ptr temp

/-- `map_page_COW` (memory_helpers.c:359-381), a word at a time. `temp_page` is filled before it is read. -/
def mapPageCow (phys vAddr flags currentTable : Word) (s : Vm) : Option Vm := do
  let virt := vAddr &&& 0xfffffffffffff000
  let tempPage ← indices.foldlM (fun (t : Index → Word) i => do
    let x ← s.read (slot virt (i.setWidth 64))
    some (Function.update t i x)) fun _ => 0
  let virt := virt ||| 0xffff000000000000
  let virt := virt &&& 0xfffeffffffffffff
  let ptr := (virt >>> 9) ||| 0xffff000000000000
  let s ← s.write ptr (phys ||| flags)
  let s := { s with cr3 := currentTable }
  let virt := vAddr &&& 0xfffffffffffff000
  indices.foldlM (fun s i => s.write (slot virt (i.setWidth 64)) (tempPage i)) s

/-- `do_COW` (memory_helpers.c:383-387). -/
def doCow (pml4 vAddr : Word) (s : Vm) : Option Vm :=
  let (base, s) := s.getFreePage
  s.mapPageCow base vAddr (userAccessible ||| readWrite ||| present) pml4

/-- `handle_COW` (memory_helpers.c:388-410). -/
def handleCow (address : Word) (k : Sched) (s : Vm) : Option Vm :=
  let proc := k.pcbs k.active
  if proc.ppid = 0 then
    let child := k.findPcbByPpid proc.pid
    if child = 0 then s.crossOffCow address
    else do
      let s ← s.doCow proc.pml4 address
      s.crossOffCow address
  else
    let parent := k.findPcbByPid proc.ppid
    if parent = 0 then s.crossOffCow address
    else do
      let s ← s.doCow proc.pml4 address
      s.crossOffCow address

end Vm

/-- The process that `handle_COW` looks for in the queue: the first child of a process without a parent, or the
parent; 0 if it is not there. -/
def Sched.relative (k : Sched) : Nat :=
  if (k.pcbs k.active).ppid = 0 then k.findPcbByPpid (k.pcbs k.active).pid else k.findPcbByPid (k.pcbs k.active).ppid

theorem Vm.handleCow_eq (a : Word) (k : Sched) (s : Vm) :
    s.handleCow a k = if k.relative = 0 then s.crossOffCow a
      else (s.doCow (k.pcbs k.active).pml4 a).bind (Vm.crossOffCow a) := by
  rw [Vm.handleCow, Sched.relative]
  split
  · rfl
  · rfl

/-! ## Addresses -/

section address
variable {a : Word}

/-- The page's address. -/
theorem pageBase_aligned (a : Word) : Aligned (a &&& 0xfffffffffffff000) := by
  apply BitVec.eq_of_getLsbD_eq
  intro k hk
  interval_cases k <;> simp

theorem extractLsb'_pageBase (a : Word) {n len : Nat} (hn : 12 ≤ n) (hlen : n + len ≤ 64) :
    (a &&& 0xfffffffffffff000).extractLsb' n len = a.extractLsb' n len := by
  apply BitVec.eq_of_getLsbD_eq
  intro k hk
  have hbit : ∀ j, 12 ≤ j → j < 64 → (0xfffffffffffff000 : Word).getLsbD j = true := by
    intro j h1 h2
    interval_cases j <;> rfl
  rw [BitVec.getLsbD_extractLsb', BitVec.getLsbD_extractLsb', BitVec.getLsbD_and, hbit (n + k) (by omega) (by omega),
    Bool.and_true]

theorem pathOf_pageBase (a : Word) : pathOf (a &&& 0xfffffffffffff000) = pathOf a := by
  simp only [pathOf, extractLsb'_pageBase a (by decide : 12 ≤ 39) (by decide : 39 + 9 ≤ 64),
    extractLsb'_pageBase a (by decide : 12 ≤ 30) (by decide : 30 + 9 ≤ 64),
    extractLsb'_pageBase a (by decide : 12 ≤ 21) (by decide : 21 + 9 ≤ 64),
    extractLsb'_pageBase a (by decide : 12 ≤ 12) (by decide : 12 + 9 ≤ 64)]

theorem UserAddr.pageBase_canonical (h : UserAddr a) : Canonical (a &&& 0xfffffffffffff000) := by
  left
  rw [extractLsb'_pageBase a (by decide) (by decide)]
  exact h

/-- The entry that `map_page_COW` stores to. -/
theorem ownEntry_eq (a : Word) :
    ((((a &&& 0xfffffffffffff000) ||| 0xffff000000000000) &&& 0xfffeffffffffffff) >>> 9) ||| 0xffff000000000000 =
      Vm.slot (recAddr (tablePath a)) ((pageIndex a).setWidth 64) := by
  rw [slot_eq_or (recAddr_aligned _)]
  apply BitVec.eq_of_getLsbD_eq
  intro k hk
  simp only [tablePath, upper, recAddr, pageAddr, pageIndex]
  interval_cases k <;> simp

/-- The entry that `cross_off_COW` edits. -/
theorem partnerEntry_eq (a : Word) :
    ((((a &&& 0xfffffffffffff000) ||| 0xffff000000000000) &&& 0xfffdffffffffffff) >>> 9) ||| 0xffff000000000000 =
      Vm.slot (recAddr (509 :: tablePath a)) ((pageIndex a).setWidth 64) := by
  rw [slot_eq_or (recAddr_aligned _)]
  apply BitVec.eq_of_getLsbD_eq
  intro k hk
  simp only [tablePath, upper, recAddr, pageAddr, pageIndex]
  interval_cases k <;> simp

/-- The page of an address. -/
def Page.of (a : Word) (h : UserAddr a) : Page where
  path := tablePath a
  index := pageIndex a
  low := by
    intro i hi
    obtain rfl := Option.some.inj hi
    rw [BitVec.lt_def]
    have hbits := congrArg BitVec.toNat h
    rw [BitVec.extractLsb'_toNat, Nat.shiftRight_eq_div_pow] at hbits
    rw [BitVec.extractLsb'_toNat, Nat.shiftRight_eq_div_pow]
    simp only [BitVec.ofNat_eq_ofNat, BitVec.toNat_ofNat] at hbits ⊢
    omega
  length_eq := rfl

end address

/-! ## The two helpers -/

/-- The entry that `do_COW` gives the faulting process. -/
def copiedEntry (g : Frame) : Word := baseOf g ||| (userAccessible ||| readWrite ||| present)

/-- What `cross_off_COW` makes of an entry. -/
def crossedEntry (e : Word) : Word := (e &&& ~~~cow) ||| readWrite

theorem child_copiedEntry (g : Frame) : child (copiedEntry g) = some g := by
  have hp : copiedEntry g &&& present ≠ 0 := by
    intro h
    have hbit := congrArg (fun x : Word => x.getLsbD 0) h
    simp [copiedEntry, baseOf, present, readWrite, userAccessible] at hbit
  rw [child, if_neg hp]
  congr 1
  apply BitVec.eq_of_getLsbD_eq
  intro k hk
  simp only [frameOf, copiedEntry, baseOf, present, readWrite, userAccessible]
  interval_cases k <;> simp

theorem child_crossedEntry (e : Word) : child (crossedEntry e) = child e := by
  have hp : crossedEntry e &&& present = e &&& present := by
    rw [and_present, and_present]
    simp [crossedEntry, readWrite, cow]
  have hf : frameOf (crossedEntry e) = frameOf e := by
    apply BitVec.eq_of_getLsbD_eq
    intro k hk
    simp only [frameOf, crossedEntry, readWrite, cow]
    interval_cases k <;> simp
  rw [child, child, hp, hf]

theorem copiedEntry_writable (g : Frame) : copiedEntry g &&& readWrite ≠ 0 := by
  rw [and_readWrite_ne_zero]
  simp [copiedEntry, baseOf, present, readWrite, userAccessible]

theorem crossedEntry_writable (e : Word) : crossedEntry e &&& readWrite ≠ 0 := by
  rw [and_readWrite_ne_zero]
  simp [crossedEntry, readWrite]

theorem copiedEntry_not_cow (g : Frame) : copiedEntry g &&& cow = 0 := by
  rw [show cow = BitVec.twoPow 64 9 by decide, BitVec.and_twoPow]
  simp [copiedEntry, baseOf, present, readWrite, userAccessible]

theorem crossedEntry_not_cow (e : Word) : crossedEntry e &&& cow = 0 := by
  rw [show cow = BitVec.twoPow 64 9 by decide, BitVec.and_twoPow]
  simp [crossedEntry, readWrite, cow]

theorem copiedEntry_user (g : Frame) : copiedEntry g &&& userAccessible ≠ 0 := by
  intro h
  have hbit := congrArg (fun x : Word => x.getLsbD 2) h
  simp [copiedEntry, baseOf, present, readWrite, userAccessible] at hbit

theorem crossedEntry_user (e : Word) : crossedEntry e &&& userAccessible = e &&& userAccessible := by
  rw [show userAccessible = BitVec.twoPow 64 2 by decide, BitVec.and_twoPow, BitVec.and_twoPow]
  simp [crossedEntry, readWrite, cow]

namespace Vm
variable {s : Vm} {f t g : Frame} {a v : Word}

/-- The loop that fills `temp_page`. -/
theorem Sees.readPage (h : s.Sees v f) : indices.foldlM (fun (t : Index → Word) i => do
    let x ← s.read (slot v (i.setWidth 64))
    some (Function.update t i x)) (fun _ => 0) = some (s.mem f) := by
  have key : ∀ (L : List Index) (t : Index → Word), L.foldlM (fun (t : Index → Word) i => do
      let x ← s.read (slot v (i.setWidth 64))
      some (Function.update t i x)) t = some fun i => if i ∈ L then s.mem f i else t i := by
    intro L
    induction L with
    | nil => intro t; simp
    | cons i L ih =>
      intro t
      rw [List.foldlM_cons, h.read]
      simp only [Option.bind_eq_bind, Option.bind_some] at ih ⊢
      rw [ih]
      congr 1
      funext j
      by_cases hj : j = i
      · subst hj; simp
      · simp [hj]
  simpa [mem_indices] using key indices fun _ => 0

theorem Sees.of_walk (ha : UserAddr a) (ht : walk s.mem s.root (tablePath a) = some t)
    (hf : child (s.mem t (pageIndex a)) = some f) : s.Sees (a &&& 0xfffffffffffff000) f := by
  refine ⟨pageBase_aligned a, ha.pageBase_canonical, ?_⟩
  rw [pathOf_pageBase, show pathOf a = tablePath a ++ [pageIndex a] from rfl, walk, Radix.walk_snoc, ← walk, ht,
    Option.bind_some, hf]

end Vm

/-! ## The fault -/

section fault
variable {R : Frame → Prop} {P : Frame → Paths} {K g f : Frame} {gs : List Frame} {s : Vm} {a : Word}

/-- Contents that belong to no table. -/
theorem Spaces.setData {m : PMem} (h : Spaces m R P K gs) (hg : Radix.Fresh child m (Owned R P K) g)
    (t : Index → Word) : Spaces (Function.update m g t) R P K gs ∧
      (∀ r x, R r → (P r).page x → Page.leaf (Function.update m g t) r x = x.leaf m r) ∧
      (∀ f, Radix.Fresh child m (Owned R P K) f → Radix.Fresh child (Function.update m g t) (Owned R P K) f) ∧
      ∀ r, R r → Function.update m g t r = m r := by
  have hnode : ∀ s p f, Owned R P K s p → walk m s p = some f → ¬(s = K ∧ p.length = 2) →
      Function.update m g t f = m f := by
    intro s p f hp hf _
    refine Function.update_of_ne ?_ _ _
    rintro rfl
    exact hg s p hp hf
  refine ⟨h.congr hnode (.refl gs), fun r x hr hx => h.leaf_congr' hnode hr hx, fun f hf s p hp hw => ?_,
    fun r hr => ?_⟩
  · exact hf s p hp ((h.walk_congr' hnode hp).symm.trans hw)
  · exact hnode r [] r (.root hr) rfl fun e => h.apart (e.1 ▸ hr)

/-- The process behind slot 509. -/
theorem Spaces.partner_root {m : PMem} {r r' : Frame} (h : Spaces m R P K gs) (hr : R r)
    (hp : child (m r 509) = some r') :
    R r' ∧ r' ≠ r ∧
      ∀ x g, (P r).page x → Page.mapping m r x = some (g, false) → (P r').page x ∧ Page.mapping m r' x ≠ none := by
  rcases h.partner r hr with h0 | ⟨r'', hr'', hne, hc, hmap⟩
  · rw [h0, child_zero] at hp
    cases hp
  · obtain rfl := Option.some.inj (hp.symm.trans hc)
    exact ⟨hr'', hne, hmap⟩

namespace Vm

theorem crossOffCow_unlinked (h : Spaces s.mem R P K gs) (hr : R s.root) (h0 : s.mem s.root 509 = 0) (a : Word) :
    s.crossOffCow a = some s := by
  have hroot : s.Sees (recAddr []) s.root := Sees.recAddr (h.self _ hr) (.inl (Nat.zero_le 3)) rfl
  rw [crossOffCow, pml4Addr_eq, show (509 : Word) = (509 : Index).setWidth 64 by decide, hroot.read]
  simp only [Option.bind_eq_bind, Option.bind_some, h0, if_true]

/-- `cross_off_COW` gives the partner's entry back its READ_WRITE. -/
theorem crossOffCow_linked {r' : Frame} (h : Spaces s.mem R P K gs) (hr : R s.root) (ha : UserAddr a)
    (hp : child (s.mem s.root 509) = some r') (hpage : (P r').page (Page.of a ha))
    (hmapped : (Page.of a ha).mapping s.mem r' ≠ none) :
    ∃ m', s.crossOffCow a = some { s with mem := m' } ∧
      Spaces.Remapped s.mem R P K gs r' (Page.of a ha) (crossedEntry ((Page.of a ha).leaf s.mem r')) m' := by
  obtain ⟨hr', -, -⟩ := h.partner_root hr hp
  obtain ⟨⟨g, w⟩, hg⟩ := Option.ne_none_iff_exists'.1 hmapped
  obtain ⟨t, ht, hleaf⟩ := Page.exists_table (Page.leaf_ne_zero hg)
  have hroot : s.Sees (recAddr []) s.root := Sees.recAddr (h.self _ hr) (.inl (Nat.zero_le 3)) rfl
  have htable : s.Sees (recAddr (509 :: tablePath a)) t := by
    refine Sees.recAddr (h.self _ hr) (.inr ⟨_, rfl, le_rfl⟩) ?_
    rw [walk, Radix.walk_cons, hp, Option.bind_some]
    exact ht
  have hne : s.mem s.root 509 ≠ 0 := (child_eq_some hp).1
  obtain ⟨hfresh, hgs⟩ := h.fresh_of_mapping hr' hpage hg
  refine ⟨_, ?_, h.setPage hr' hpage ht ((child_crossedEntry _).trans (Page.mapping_eq_some.1 hg).1) hfresh hgs
    (crossedEntry_writable _)⟩
  rw [crossOffCow, pml4Addr_eq, show (509 : Word) = (509 : Index).setWidth 64 by decide, hroot.read]
  simp only [Option.bind_eq_bind, Option.bind_some, if_neg hne, partnerEntry_eq, htable.read, htable.write, hleaf]
  rfl

/-- `do_COW` gives the process a copy of its page, in a frame that was free. -/
theorem doCow_eq (h : Spaces s.mem R P K (g :: gs)) (hr : R s.root) (hfree : s.frames.Free (g :: gs)) (ha : UserAddr a)
    (hpage : (P s.root).page (Page.of a ha)) (hx : child ((Page.of a ha).leaf s.mem s.root) = some f) {pml4 : Word}
    (hpml4 : frameOf pml4 = s.root) :
    ∃ m₁ fr, s.doCow pml4 a = some ⟨Function.update m₁ g (s.mem f), pml4, fr⟩ ∧ fr.Free gs ∧
      Spaces.Remapped s.mem R P K gs s.root (Page.of a ha) (copiedEntry g) m₁ := by
  obtain ⟨fr, hget, hfree'⟩ := getFreePage_free hfree
  obtain ⟨t, ht, hleaf⟩ := Page.exists_table (child_eq_some hx).1
  have htail : Spaces s.mem R P K gs := h.congr (fun _ _ _ _ _ _ => rfl) (List.sublist_cons_self g gs)
  have hfresh := h.fresh g List.mem_cons_self
  have hgs : g ∉ gs := (List.nodup_cons.1 h.nodup).1
  have hm := htail.setPage hr hpage ht (child_copiedEntry g) hfresh hgs (copiedEntry_writable g)
  refine ⟨_, fr, ?_, hfree', hm⟩
  have hold : Sees { s with frames := fr } (a &&& 0xfffffffffffff000) f := Sees.of_walk ha ht (hleaf ▸ hx)
  have htable : Sees { s with frames := fr } (recAddr (tablePath a)) t :=
    Sees.recAddr (s := { s with frames := fr }) (h.self _ hr) (.inl le_rfl) ht
  generalize hm₁ : Radix.set s.mem t (Page.of a ha).index (copiedEntry g) = m₁ at hm
  have hwrite := htable.write (pageIndex a) (copiedEntry g)
  rw [show Radix.set (Vm.mem { s with frames := fr }) t (pageIndex a) (copiedEntry g) = m₁ from hm₁] at hwrite
  -- behind the new entry lies the new frame
  have hroot : Vm.root ⟨m₁, pml4, fr⟩ = s.root := hpml4
  obtain ⟨t', ht', hleaf'⟩ := Page.exists_table (m := m₁) (r := s.root) (x := Page.of a ha)
    (by rw [hm.new]; exact (child_eq_some (child_copiedEntry g)).1)
  have hnew : Sees ⟨m₁, pml4, fr⟩ (a &&& 0xfffffffffffff000) g := by
    refine Sees.of_walk ha (t := t') ?_ ?_
    · rw [hroot]
      exact ht'
    · refine Eq.trans (congrArg child ?_) (child_copiedEntry g)
      exact hleaf'.symm.trans hm.new
  have hav : Avoids ⟨m₁, pml4, fr⟩ (a &&& 0xfffffffffffff000) g := by
    intro q i hq hw
    rw [pathOf_pageBase, show pathOf a = (Page.of a ha).path ++ [pageIndex a] from rfl] at hq
    obtain ⟨u, hu⟩ := prefix_of_concat hq
    rw [hroot] at hw
    have hpath : Owned R P K s.root (Page.of a ha).path := .page hr hpage
    rw [← hu] at hpath
    exact (hm.data g hfresh).1 _ _ (Owned.closed _ q u hpath) hw
  have hread := hold.readPage
  have hstore : indices.foldlM
      (fun (s' : Vm) i => s'.write (slot (a &&& 0xfffffffffffff000) (i.setWidth 64)) (s.mem f i))
      ⟨m₁, pml4, fr⟩ = some ⟨Function.update m₁ g (s.mem f), pml4, fr⟩ := hnew.storePage hav _ fun _ _ => rfl
  simp only [Option.bind_eq_bind] at hread
  rw [doCow, hget]
  simp only [mapPageCow, ownEntry_eq, Option.bind_eq_bind, hread, Option.bind_some]
  rw [show baseOf g ||| (userAccessible ||| readWrite ||| present) = copiedEntry g from rfl, hwrite, Option.bind_some]
  exact hstore

end Vm

/-- `m'` is `m` after a fault of the process `r` at the page `x`, which now has the entry `own`. -/
structure Spaces.Faulted (m : PMem) (R : Frame → Prop) (P : Frame → Paths) (K : Frame) (gs : List Frame) (r : Frame)
    (x : Page) (own : Word) (m' : PMem) (gs' : List Frame) : Prop where
  spaces : Spaces m' R P K gs'
  own : x.leaf m' r = own
  partner : ∀ r', child (m r 509) = some r' → x.leaf m' r' = crossedEntry (x.leaf m r')
  other : ∀ s y, R s → (P s).page y → ¬(s = r ∧ y = x) → ¬(child (m r 509) = some s ∧ y = x) →
    Page.leaf m' s y = y.leaf m s
  partners : ∀ s, R s → m' s 509 = m s 509
  data : ∀ f, Radix.Fresh child m (Owned R P K) f → f ∉ gs → Radix.Fresh child m' (Owned R P K) f ∧ m' f = m f

/-- `cross_off_COW`, after `m₀` has become `s.mem` by a copy or not at all. -/
theorem Spaces.Faulted.crossOff (m₀ : PMem) (gs₀ : List Frame) {own : Word} (hr : R s.root) (ha : UserAddr a)
    (hpage : (P s.root).page (Page.of a ha)) (h : Spaces s.mem R P K gs)
    (hown : (Page.of a ha).leaf s.mem s.root = own)
    (hother : ∀ r y, R r → (P r).page y → ¬(r = s.root ∧ y = Page.of a ha) → Page.leaf s.mem r y = y.leaf m₀ r)
    (hpartners : ∀ r, R r → s.mem r 509 = m₀ r 509)
    (hdata : ∀ f, Radix.Fresh child m₀ (Owned R P K) f → f ∉ gs₀ →
      Radix.Fresh child s.mem (Owned R P K) f ∧ s.mem f = m₀ f)
    (hmapped : ∀ r', child (s.mem s.root 509) = some r' →
      (P r').page (Page.of a ha) ∧ (Page.of a ha).mapping s.mem r' ≠ none) :
    ∃ m', s.crossOffCow a = some { s with mem := m' } ∧
      Spaces.Faulted m₀ R P K gs₀ s.root (Page.of a ha) own m' gs ∧
      ∀ f, Radix.Fresh child s.mem (Owned R P K) f → m' f = s.mem f := by
  rcases h.partner s.root hr with h0 | ⟨r', hr', hne, hp, -⟩
  · refine ⟨s.mem, Vm.crossOffCow_unlinked h hr h0 a, ⟨h, hown, ?_, fun r y hr hy hxy _ => hother r y hr hy hxy,
      hpartners, hdata⟩, fun _ _ => rfl⟩
    intro r' hp
    rw [← hpartners _ hr, h0, child_zero] at hp
    cases hp
  · obtain ⟨hpage', hmapped'⟩ := hmapped r' hp
    obtain ⟨m', hrun, hm⟩ := Vm.crossOffCow_linked h hr ha hp hpage' hmapped'
    have hp₀ : child (m₀ s.root 509) = some r' := by rw [← hpartners _ hr, hp]
    refine ⟨m', hrun, ⟨hm.spaces, ?_, ?_, ?_, ?_, ?_⟩, fun f hf => (hm.data f hf).2⟩
    · rw [hm.other _ _ hr hpage fun e => hne e.1.symm]
      exact hown
    · intro r'' hr''
      obtain rfl := Option.some.inj (hp₀.symm.trans hr'')
      rw [hm.new, hother _ _ hr' hpage' fun e => hne e.1]
    · intro r y hr'' hy hxy hpy
      rw [hm.other r y hr'' hy fun e => hpy ⟨by rw [hp₀, e.1], e.2⟩]
      exact hother r y hr'' hy hxy
    · intro r hr''
      rw [hm.partners r hr'', hpartners r hr'']
    · intro f hf hgs
      obtain ⟨h1, h2⟩ := hdata f hf hgs
      obtain ⟨h3, h4⟩ := hm.data f h1
      exact ⟨h3, h4.trans h2⟩

/-- **No relative found**: the faulting process's entry stays as it is. -/
theorem Vm.handleCow_crossed (h : Spaces s.mem R P K gs) (hr : R s.root) (ha : UserAddr a) {k : Sched}
    (hk : k.relative = 0) (hpage : (P s.root).page (Page.of a ha))
    (hx : (Page.of a ha).mapping s.mem s.root = some (f, false)) :
    ∃ m', s.handleCow a k = some { s with mem := m' } ∧
      Spaces.Faulted s.mem R P K gs s.root (Page.of a ha) ((Page.of a ha).leaf s.mem s.root) m' gs ∧
      m' f = s.mem f := by
  obtain ⟨m', hrun, hm, hkeep⟩ := Spaces.Faulted.crossOff s.mem gs hr ha hpage h rfl (fun _ _ _ _ _ => rfl)
    (fun _ _ => rfl) (fun _ hf _ => ⟨hf, rfl⟩) fun r' hp => (h.partner_root hr hp).2.2 _ f hpage hx
  refine ⟨m', ?_, hm, hkeep f (h.fresh_of_mapping hr hpage hx).1⟩
  rw [handleCow_eq, if_pos hk, hrun]

/-- **A relative found**: the faulting process has a copy of the page in the next free frame. -/
theorem Vm.handleCow_copied (h : Spaces s.mem R P K (g :: gs)) (hr : R s.root) (hfree : s.frames.Free (g :: gs))
    (ha : UserAddr a) {k : Sched} (hk : k.relative ≠ 0) (hpml4 : frameOf (k.pcbs k.active).pml4 = s.root)
    (hpage : (P s.root).page (Page.of a ha)) (hx : (Page.of a ha).mapping s.mem s.root = some (f, false)) :
    ∃ m' fr, s.handleCow a k = some ⟨m', (k.pcbs k.active).pml4, fr⟩ ∧ fr.Free gs ∧
      Spaces.Faulted s.mem R P K (g :: gs) s.root (Page.of a ha) (copiedEntry g) m' gs ∧ m' g = s.mem f := by
  obtain ⟨m₁, fr, hrun₁, hfr, hm₁⟩ := doCow_eq h hr hfree ha hpage (Page.mapping_eq_some.1 hx).1 hpml4
  have hg₁ := (hm₁.data g (h.fresh g List.mem_cons_self)).1
  obtain ⟨h₂, hleaf, hfresh, hroots⟩ := hm₁.spaces.setData hg₁ (s.mem f)
  generalize hs₂ : Vm.mk (Function.update m₁ g (s.mem f)) (k.pcbs k.active).pml4 fr = s₂ at hrun₁
  have hmem : s₂.mem = Function.update m₁ g (s.mem f) := by rw [← hs₂]
  have hroot : s₂.root = s.root := by rw [← hpml4, ← hs₂, Vm.root]
  rw [← hmem] at h₂ hleaf hfresh hroots
  have hother : ∀ r y, R r → (P r).page y → ¬(r = s₂.root ∧ y = Page.of a ha) →
      Page.leaf s₂.mem r y = y.leaf s.mem r := by
    intro r y hr' hy hxy
    rw [hroot] at hxy
    exact (hleaf r y hr' hy).trans (hm₁.other r y hr' hy hxy)
  have hpartners : ∀ r, R r → s₂.mem r 509 = s.mem r 509 := fun r hr' => by
    rw [hroots r hr', hm₁.partners r hr']
  have hdata : ∀ f', Radix.Fresh child s.mem (Owned R P K) f' → f' ∉ g :: gs →
      Radix.Fresh child s₂.mem (Owned R P K) f' ∧ s₂.mem f' = s.mem f' := by
    intro f' hf' hgs'
    obtain ⟨h1, h2⟩ := hm₁.data f' hf'
    have hne : f' ≠ g := by
      rintro rfl
      exact hgs' List.mem_cons_self
    exact ⟨hfresh f' h1, by rw [hmem, Function.update_of_ne hne, h2]⟩
  have hmapped : ∀ r', child (s₂.mem s₂.root 509) = some r' →
      (P r').page (Page.of a ha) ∧ (Page.of a ha).mapping s₂.mem r' ≠ none := by
    intro r' hp
    rw [hroot, hpartners _ hr] at hp
    obtain ⟨hr', hne, hmap⟩ := h.partner_root hr hp
    obtain ⟨hpage', hmap'⟩ := hmap _ f hpage hx
    rw [Page.mapping, hother r' _ hr' hpage' fun e => hne (e.1.trans hroot)]
    exact ⟨hpage', hmap'⟩
  have hown : (Page.of a ha).leaf s₂.mem s₂.root = copiedEntry g := by
    rw [hroot, hleaf _ _ hr hpage, hm₁.new]
  obtain ⟨m', hrun, hm, hkeep⟩ := Spaces.Faulted.crossOff s.mem (g :: gs) (hroot ▸ hr) ha (hroot ▸ hpage) h₂ hown hother
    hpartners hdata hmapped
  rw [hroot] at hm
  refine ⟨m', fr, ?_, hfr, hm, ?_⟩
  · rw [handleCow_eq, if_neg hk, hrun₁, Option.bind_some, hrun, ← hs₂]
  · rw [hkeep g (hfresh g hg₁), hmem, Function.update_self]

end fault
end Sbuos
