import Sbuos.Isolation
/-!
# Pages on demand (sys/memory_helpers.c:84-114, include/sys/idt.h:112-152)

An access to a page that is not mapped goes to `add_physical_page_in`, which gives the process a frame off the free
list and hangs in what tables are missing on the way to it. Forks, copies and new pages all draw on one list, and
nothing is put back on it.

**`demand_paging_progress`**: the access then goes through, and costs one frame and one for each new table.
**`frames_never_return`**: the free list only gets shorter.
-/
namespace Sbuos
open Lib

/-! ## `add_physical_page_in` -/

/-- `add_physical_page_in` (memory_helpers.c:108-114). `vma_register_page` is empty. -/
def Vm.addPhysicalPageIn (virt : Word) (s : Vm) : Option Vm := do
  let (base, s) := s.getFreePage
  let flags := present ||| readWrite ||| userAccessible
  let (s, _) ← s.mapPage base (virt &&& 0xfffffffffffff000) flags
  some s

/-- The entry it stores. -/
def addedEntry (g : Frame) : Word := leafEntry (baseOf g) (present ||| readWrite ||| userAccessible)

section added
variable (g : Frame)

theorem child_addedEntry : child (addedEntry g) = some g := by
  rw [addedEntry, child_leafEntry _ (.inr rfl), frameOf_baseOf]

theorem addedEntry_writable : addedEntry g &&& readWrite ≠ 0 := by
  rw [and_readWrite_ne_zero]
  simp [addedEntry, leafEntry, present, readWrite, userAccessible]

theorem addedEntry_user : addedEntry g &&& userAccessible ≠ 0 := by
  intro h
  have hbit := congrArg (fun x : Word => x.getLsbD 2) h
  simp [addedEntry, leafEntry, present, readWrite, userAccessible] at hbit

theorem mappingOf_addedEntry : mappingOf (addedEntry g) = some (g, true) := by
  rw [mappingOf, child_addedEntry, Option.map_some, decide_eq_true (addedEntry_writable g)]

end added

theorem upper_pageBase (a : Word) : ∀ k, k ≤ 3 → upper (a &&& 0xfffffffffffff000) k = upper a k
  | 0, _ => rfl
  | k + 1, hk => by
    rw [upper, upper, extractLsb'_pageBase a (by omega) (by omega), upper_pageBase a k (by omega)]

theorem pageIndex_pageBase (a : Word) : pageIndex (a &&& 0xfffffffffffff000) = pageIndex a :=
  extractLsb'_pageBase a (by decide) (by decide)

/-- `m'` is `m` after the process `r` was given the frame `g` at the page `x`, where it had none. -/
structure Spaces.Added (m : PMem) (R : Frame → Prop) (K : Frame) (gs : List Frame) (r : Frame) (x : Page) (g : Frame)
    (m' : PMem) (gs' : List Frame) : Prop where
  spaces : Spaces m' R whole K gs'
  own : x.leaf m' r = addedEntry g
  other : ∀ s y, R s → ¬(s = r ∧ y = x) → Page.leaf m' s y = y.leaf m s
  partners : ∀ s, R s → m' s 509 = m s 509
  data : ∀ f, Radix.Fresh child m (Owned R whole K) f → f ∉ gs →
    Radix.Fresh child m' (Owned R whole K) f ∧ m' f = m f
  contents : m' g = m g

/-- The last of the frames taken becomes the page table, if that is missing. It is not cleared: it has to be zero. -/
def CleanTable (m : PMem) (r : Frame) (a : Word) (gs : List Frame) : Prop :=
  0 < missing m r (tablePath a) → ∀ g, gs[missing m r (tablePath a)]? = some g → ∀ i, m g i = 0

/-- **A page more**: the first free frame, and the next ones for the tables that are missing. -/
theorem Vm.addPhysicalPageIn_eq {s : Vm} {R : Frame → Prop} {K g : Frame} {gs : List Frame} {a : Word}
    (h : Spaces s.mem R whole K (g :: gs)) (hr : R s.root) (hfree : s.frames.Free (g :: gs)) (ha : UserAddr a)
    (hlen : missing s.mem s.root (tablePath a) ≤ gs.length) (hclean : CleanTable s.mem s.root a (g :: gs)) :
    ∃ m' fr, s.addPhysicalPageIn a = some ⟨m', s.cr3, fr⟩ ∧
      fr.Free (gs.drop (missing s.mem s.root (tablePath a))) ∧
      Spaces.Added s.mem R K (g :: gs) s.root (Page.of a ha) g m' (gs.drop (missing s.mem s.root (tablePath a))) := by
  obtain ⟨fr₀, hget, hfree₀⟩ := Vm.getFreePage_free hfree
  have htail : Spaces s.mem R whole K gs := h.congr (fun _ _ _ _ _ _ => rfl) (List.sublist_cons_self g gs)
  have hspare := h.spare_of_free
  have htable : tablePath (a &&& 0xfffffffffffff000) = tablePath a := upper_pageBase a 3 le_rfl
  have hlow : Low (tablePath a) := (Page.of a ha).low
  have hlinks : LinksPresent s.mem s.root (tablePath a) := by
    rintro q i f ⟨u, hu⟩ hf hne
    rw [← hu] at hlow
    have hlen₃ := congrArg List.length hu
    rw [List.length_append, show (tablePath a).length = 3 from rfl] at hlen₃
    exact (h.present s.root q i f (.low hr rfl hlow.of_append (by omega)) hf hne).1
  have hpath : Owned R whole K s.root (tablePath a) := .page (x := Page.of a ha) hr (Paths.all_page _)
  have hoff : ∀ g' ∈ gs, OffPath s.mem s.root (tablePath a) g' := by
    rintro g' hg' q ⟨u, hu⟩
    exact htail.fresh g' hg' s.root q (Owned.closed _ q u (hu ▸ hpath))
  have hzero : ∀ t (x : Page), 0 < missing s.mem s.root (tablePath a) →
      gs[missing s.mem s.root (tablePath a) - 1]? = some t → s.mem t x.index = 0 := fun t x hpos ht => by
    refine hclean hpos t ?_ x.index
    obtain ⟨k, hk⟩ := Nat.exists_eq_add_one_of_ne_zero hpos.ne'
    rw [hk, Nat.add_sub_cancel] at ht
    rw [hk, List.getElem?_cons_succ, ht]
  obtain ⟨h₁, -, hgrown, -⟩ := htail.descend (u := tablePath a) (q := []) (f := s.root) hpath
    (Owned.max_page h.apart hr (Page.of a ha)) rfl hlen fun t x hpos ht _ _ _ => hzero t x hpos ht
  obtain ⟨fr, f, hf, hrun, hfr⟩ := Vm.mapPage_eq (baseOf g) (a &&& 0xfffffffffffff000)
    (present ||| readWrite ||| userAccessible) (s := { s with frames := fr₀ }) (h.self _ hr)
    (by rw [htable]; exact hlinks) hfree₀ htail.nodup (by rw [htable]; exact hoff) (by rw [htable]; exact hlen)
  rw [htable] at hf hrun hfr
  rw [show Vm.root { s with frames := fr₀ } = s.root from rfl] at hf hrun hfr
  rw [pageIndex_pageBase] at hrun
  obtain ⟨hg₁, hsame⟩ := hgrown.data g hspare.fresh hspare.not_free
  have hm := h₁.setPage (x := Page.of a ha) hr (Paths.all_page _) hf (child_addedEntry g) hg₁
    (fun hmem => hspare.not_free (List.mem_of_mem_drop hmem)) (addedEntry_writable g)
  refine ⟨_, fr, ?_, hfr, ⟨hm.spaces, hm.new, fun r y hr' hne => ?_, fun r hr' => ?_, fun f' hf' hgs => ?_, ?_⟩⟩
  · rw [addPhysicalPageIn, hget]
    simp only [Option.bind_eq_bind, Option.bind_some, hrun]
    rfl
  · exact (hm.other r y hr' (Paths.all_page y) hne).trans (hgrown.leaf r y hr' (Paths.all_page y))
  · exact (hm.partners r hr').trans (hgrown.upper r 509 hr' (by decide))
  · obtain ⟨h2, h3⟩ := hgrown.data f' hf' fun hmem => hgs (List.mem_cons_of_mem g hmem)
    obtain ⟨h4, h5⟩ := hm.data f' h2
    exact ⟨h4, h5.trans h3⟩
  · exact (hm.data g hg₁).2.trans hsame

/-! ## The fault handler -/

namespace Machine
variable {K f g : Frame} {gs gs' : List Frame} {M₀ M M' : Machine} {a : Word} {p q : Nat} {write user : Bool}

/-- What the processor pushes at a page fault: whether the page is present, is written to, and by the user. -/
def errorCode (present write user : Bool) : BitVec 32 :=
  (if present then 1 else 0) ||| (if write then 2 else 0) ||| (if user then 4 else 0)

/-- `int_pgflt_srv` (idt.h:112-152). Where it prints a message and stops there is no result. -/
def intPgfltSrv (error : BitVec 32) (address : Word) (M : Machine) : Option Machine :=
  if address = 0 then none
  else if error = 7 then do
    let vm ← M.vm.handleCow address M.kernel.sched
    some ((M.withVm vm).setCr3 M.kernel.activePcb.pml4)
  else if error &&& 5 = 0 ∨ error &&& 5 = 4 then do
    let vm ← M.vm.addPhysicalPageIn address
    some ((M.withVm vm).setCr3 M.kernel.activePcb.pml4)
  else none

/-- A user's write to a page that is present. -/
theorem intPgfltSrv_present (a : Word) : M.intPgfltSrv (errorCode true true true) a = M.pageFault a := rfl

/-- An access, by the user or the kernel, to a page that is not. -/
theorem intPgfltSrv_missing (write user : Bool) (a : Word) : M.intPgfltSrv (errorCode false write user) a =
    if a = 0 then none
    else (M.vm.addPhysicalPageIn a).map fun vm => (M.withVm vm).setCr3 M.kernel.activePcb.pml4 := by
  have hcode : errorCode false write user ≠ 7 ∧
      (errorCode false write user &&& 5 = 0 ∨ errorCode false write user &&& 5 = 4) := by
    cases write <;> cases user <;> decide
  rw [intPgfltSrv, if_neg hcode.1, if_pos hcode.2]
  cases M.vm.addPhysicalPageIn a <;> rfl

/-- What happens next, pages on demand included: an event of before, or an access of the active process, or of the
kernel for it, to a page that is not mapped. -/
inductive Happening
  | event (e : Event)
  | missing (write user : Bool) (a : Word)

/-- The pages on demand among the events. -/
def Happening.pages : Happening → Nat
  | .missing .. => 1
  | _ => 0

def handlePaged (fuel : Nat) (rsp : Word) : Happening → Machine → Option Machine
  | .event e, M => M.handle fuel rsp e
  | .missing write user a, M =>
    if UserAddr a ∧ walk M.vm.mem M.vm.root (pathOf a) = none then M.intPgfltSrv (errorCode false write user) a
    else none

def PagedStep (M : Machine) (e : Happening) (M' : Machine) : Prop := ∃ fuel rsp, M.handlePaged fuel rsp e = some M'

/-- There are frames for the page and its tables, and the one for a new page table is zero. -/
def PagedFits (M : Machine) : Happening → Prop
  | .event e => Fits M e
  | .missing _ _ a => ∃ gs, M.vm.frames.Free gs ∧ missing M.vm.mem M.vm.root (tablePath a) < gs.length ∧
      CleanTable M.vm.mem M.vm.root a gs

/-- The walk to a page, by its entry. -/
theorem walk_pathOf (m : PMem) (r : Frame) (ha : UserAddr a) :
    walk m r (pathOf a) = child ((Page.of a ha).leaf m r) := by
  rw [pathOf_eq, walk, Radix.walk_snoc, ← walk, Page.leaf, leaf, pageEntry]
  change _ = child (((walk m r (tablePath a)).map fun f => m f (pageIndex a)).getD 0)
  cases walk m r (tablePath a) with
  | none => exact child_zero.symm
  | some t => rfl

namespace Inv

/-- A page of which there is nothing. -/
theorem leaf_eq_zero (h : Inv whole K gs M) (ha : UserAddr a) (hx : walk M.vm.mem M.vm.root (pathOf a) = none) :
    (Page.of a ha).leaf M.vm.mem M.vm.root = 0 := by
  by_contra hne
  obtain ⟨f, hf, -⟩ := h.spaces.pages _ _ h.isRoot (Paths.all_page _) hne
  rw [walk_pathOf _ _ ha, hf] at hx
  cases hx

/-- The handler, at a page that is not mapped. -/
theorem adds (h : Inv whole K (g :: gs) M) (ha : UserAddr a) (ha0 : a ≠ 0)
    (hlen : missing M.vm.mem M.vm.root (tablePath a) ≤ gs.length) (hclean : CleanTable M.vm.mem M.vm.root a (g :: gs))
    (write user : Bool) :
    ∃ M', M.intPgfltSrv (errorCode false write user) a = some M' ∧ M'.kernel = M.kernel ∧
      Inv whole K (gs.drop (missing M.vm.mem M.vm.root (tablePath a))) M' ∧
      Spaces.Added M.vm.mem M.IsRoot K (g :: gs) M.vm.root (Page.of a ha) g M'.vm.mem
        (gs.drop (missing M.vm.mem M.vm.root (tablePath a))) := by
  obtain ⟨m', fr, hrun, hfr, hadded⟩ := Vm.addPhysicalPageIn_eq h.spaces h.isRoot h.free ha hlen hclean
  refine ⟨(M.withVm ⟨m', M.vm.cr3, fr⟩).setCr3 M.kernel.activePcb.pml4, ?_, rfl, ?_, hadded⟩
  · rw [intPgfltSrv_missing, if_neg ha0, hrun, Option.map_some]
  · exact h.congr h.kernel (.refl _) h.loaded h.loaded.symm hadded.spaces hfr rfl hadded.partners

/-- A page on demand. -/
theorem pageMissing (h : Inv whole K gs M) (hg : PagedFits M (.missing write user a))
    (hs : PagedStep M (.missing write user a) M') : ∃ ha g gs₁, gs = g :: gs₁ ∧
      (Page.of a ha).leaf M.vm.mem M.vm.root = 0 ∧ M'.kernel = M.kernel ∧
      Inv whole K (gs₁.drop (missing M.vm.mem M.vm.root (tablePath a))) M' ∧
      Spaces.Added M.vm.mem M.IsRoot K gs M.vm.root (Page.of a ha) g M'.vm.mem
        (gs₁.drop (missing M.vm.mem M.vm.root (tablePath a))) := by
  obtain ⟨gs₀, hfree, hlen, hclean⟩ := hg
  obtain rfl := hfree.unique h.free
  obtain ⟨g, gs₁, rfl⟩ := List.exists_cons_of_length_pos (Nat.zero_lt_of_lt hlen)
  obtain ⟨fuel, rsp, hs⟩ := hs
  simp only [handlePaged] at hs
  split at hs
  case isFalse => cases hs
  case isTrue hmiss =>
    obtain ⟨ha, hx⟩ := hmiss
    have ha0 : a ≠ 0 := by
      rintro rfl
      rw [intPgfltSrv_missing, if_pos rfl] at hs
      cases hs
    obtain ⟨M'', hrun, hk, h', hadded⟩ := h.adds ha ha0 (Nat.le_of_lt_succ hlen) hclean write user
    obtain rfl := Option.some.inj (hrun.symm.trans hs)
    exact ⟨ha, g, gs₁, rfl, h.leaf_eq_zero ha hx, hk, h', hadded⟩

/-- One event takes frames off the free list, or none. -/
theorem pagedStep (h : Inv whole K gs M) {e : Happening} (hg : PagedFits M e) (hs : PagedStep M e M') :
    ∃ gs', Inv whole K gs' M' ∧ gs' <:+ gs ∧ gs'.length + e.pages ≤ gs.length := by
  have hkept : ∀ {gs' : List Frame}, Inv whole K gs' M' → gs' <:+ gs → e.pages = 0 →
      ∃ gs', Inv whole K gs' M' ∧ gs' <:+ gs ∧ gs'.length + e.pages ≤ gs.length := fun h' hsuf h0 =>
    ⟨_, h', hsuf, by rw [h0]; exact hsuf.length_le⟩
  cases e with
  | missing write user a =>
    obtain ⟨ha, g, gs₁, rfl, -, -, h', -⟩ := h.pageMissing hg hs
    refine ⟨_, h', (List.drop_suffix _ gs₁).trans (List.suffix_cons g gs₁), ?_⟩
    rw [List.length_drop, List.length_cons]
    exact Nat.succ_le_succ (Nat.sub_le _ _)
  | event e =>
    cases e with
    | fork =>
      obtain ⟨gs', c, pml4, h', hforked, -⟩ := h.forkClean rfl hg hs
      exact hkept h' hforked.suffix rfl
    | kernel e => exact hkept (h.quiet hs).1 List.suffix_rfl rfl
    | load a => exact hkept (Step.eq_of_load hs ▸ h) List.suffix_rfl rfl
    | fault a =>
      obtain ⟨_, _, gs', _, -, -, h', -, hhandled⟩ := h.fault hg Within.whole hs
      obtain ⟨-, rfl, -⟩ | ⟨-, g, rfl, -⟩ := hhandled
      · exact hkept h' List.suffix_rfl rfl
      · exact hkept h' (List.suffix_cons g gs') rfl
    | store a x =>
      obtain ⟨-, -, -, -, h', -⟩ := h.store Within.whole hs
      exact hkept h' List.suffix_rfl rfl

end Inv

/-- **Frames never come back**: whatever happens between two states of a run, exits and kills included, the frames
that are free at the end are the last of those that were, and each page on demand has cost one of the others. -/
theorem frames_never_return (h₀ : Started K gs M₀) {before es : List Happening}
    (hbefore : Run (Guarded PagedFits PagedStep) M₀ before M) (hrun : Run (Guarded PagedFits PagedStep) M es M')
    {gs₁ gs₂ : List Frame} (hfree : M.vm.frames.Free gs₁) (hfree' : M'.vm.frames.Free gs₂) :
    gs₂ <:+ gs₁ ∧ gs₂.length + (es.map Happening.pages).sum ≤ gs₁.length := by
  obtain ⟨gs, h⟩ := hbefore.invariant (fun M => ∃ gs, Inv whole K gs M) ⟨gs, h₀.inv⟩ fun _ _ _ ⟨_, hi⟩ hs => by
    obtain ⟨gs', h', -⟩ := hi.pagedStep hs.1 hs.2
    exact ⟨gs', h'⟩
  obtain rfl := hfree.unique h.free
  have hinv := hrun.history
    (fun es M => ∃ gs', Inv whole K gs' M ∧ gs' <:+ gs₁ ∧ gs'.length + (es.map Happening.pages).sum ≤ gs₁.length)
    ⟨gs₁, h, List.suffix_rfl, Nat.le_refl _⟩ ?_
  · obtain ⟨gs', h', hsuf, hpaid⟩ := hinv
    obtain rfl := hfree'.unique h'.free
    exact ⟨hsuf, hpaid⟩
  · rintro es t e u ⟨gs', ht, hsuf, hpaid⟩ hs
    obtain ⟨gs'', hu, hsuf', hpaid'⟩ := ht.pagedStep hs.1 hs.2
    refine ⟨gs'', hu, hsuf'.trans hsuf, ?_⟩
    rw [List.map_append, List.sum_append, List.map_singleton, List.sum_singleton]
    omega

/-- The first page of the heap needs three tables, in the second to the fourth frame. The last has to be clean. -/
theorem aged_heap : missing (aged [19]).vm.mem (aged [19]).vm.root (tablePath 0x700000000000) = 3 ∧
    walk (aged [19]).vm.mem (aged [19]).vm.root (pathOf 0x700000000000) = none ∧
    CleanTable (aged [19]).vm.mem (aged [19]).vm.root 0x700000000000 Vm.loneFree := by
  have htables : missing (aged [19]).vm.mem (aged [19]).vm.root (tablePath 0x700000000000) = 3 := by decide +kernel
  refine ⟨htables, by decide +kernel, fun _ g hg i => ?_⟩
  rw [htables] at hg
  obtain rfl : 19 = g := Option.some.inj ((show Vm.loneFree[3]? = some 19 by decide).symm.trans hg)
  exact staleMem_of_clean (f := 19) (List.mem_singleton_self 19) (by decide) i

/-- Process 1 touches the first page of the heap. -/
theorem aged_touches : ∃ M, Guarded PagedFits PagedStep (aged [19]) (.missing true true 0x700000000000) M ∧
    Inv whole 5 (Vm.loneFree.drop 4) M := by
  obtain ⟨htables, hx, hclean⟩ := aged_heap
  have h := (aged_started [19]).inv
  obtain ⟨M, hrun, -, h', -⟩ := h.adds (g := 16) (a := 0x700000000000) (by decide) (by decide)
    (by rw [htables]; decide) hclean true true
  rw [htables] at h'
  refine ⟨M, ⟨⟨Vm.loneFree, Vm.lone_free, by rw [htables]; decide, hclean⟩, 0, 0, ?_⟩, h'⟩
  rw [handlePaged, if_pos ⟨by decide, hx⟩, hrun]

theorem frames_never_return_heap : ∃ (M : Machine) (gs : List Frame), M.vm.frames.Free gs ∧ gs <:+ Vm.loneFree ∧
    gs.length + 1 ≤ 32 := by
  obtain ⟨M, hs, h⟩ := aged_touches
  obtain ⟨hsuf, hlen⟩ := frames_never_return (aged_started [19]) .nil (.single hs) Vm.lone_free h.free
  exact ⟨M, _, h.free, hsuf, hlen⟩

/-- **A page on demand**: in every run from processes that share nothing, at every address of an unmapped page, given
frames for the page and the tables that are missing, that for a page table zero, the handler returns and the process
may read and write there. That has cost these frames and no more; the new page is one that nobody had, and everyone's
other pages are as they were. -/
theorem demand_paging_progress (h₀ : Started K gs M₀) {es : List Happening}
    (hrun : Run (Guarded PagedFits PagedStep) M₀ es M) (ha : UserAddr a) (ha0 : a ≠ 0)
    (hx : walk M.vm.mem M.vm.root (pathOf a) = none) {gs₁ : List Frame} (hfree : M.vm.frames.Free gs₁)
    (hlen : missing M.vm.mem M.vm.root (tablePath a) < gs₁.length) (hclean : CleanTable M.vm.mem M.vm.root a gs₁)
    (write user : Bool) :
    ∃ M' g, PagedStep M (.missing write user a) M' ∧ M'.mayRead a = true ∧ M'.mayWrite a = true ∧
      M'.vm.frames.Free (gs₁.drop (missing M.vm.mem M.vm.root (tablePath a) + 1)) ∧
      M'.maps M.kernel.sched.active (Page.of a ha) = some (g, true) ∧
      (∀ p x w, M.Created p → M.maps p x ≠ some (g, w)) ∧
      ∀ p x, M.Created p → ¬(p = M.kernel.sched.active ∧ x = Page.of a ha) → M'.maps p x = M.maps p x := by
  obtain ⟨gs, h⟩ := hrun.invariant (fun M => ∃ gs, Inv whole K gs M) ⟨gs, h₀.inv⟩ fun _ _ _ ⟨_, hi⟩ hs => by
    obtain ⟨gs', h', -⟩ := hi.pagedStep hs.1 hs.2
    exact ⟨gs', h'⟩
  obtain rfl := hfree.unique h.free
  obtain ⟨g, gs₁, rfl⟩ := List.exists_cons_of_length_pos (Nat.zero_lt_of_lt hlen)
  obtain ⟨M', hrun', hk, h', hadded⟩ := h.adds ha ha0 (Nat.le_of_lt_succ hlen) hclean write user
  have hroot : ∀ p, M'.root p = M.root p := fun p => by rw [root, pcb, hk, root, pcb]
  have hmapping : (Page.of a ha).mapping M'.vm.mem M'.vm.root = some (g, true) := by
    rw [h'.root_active, hk, hroot, ← h.root_active, Page.mapping, hadded.own, mappingOf_addedEntry]
  have huser : (Page.of a ha).leaf M'.vm.mem M'.vm.root &&& userAccessible ≠ 0 := by
    rw [h'.root_active, hk, hroot, ← h.root_active, hadded.own]
    exact addedEntry_user g
  obtain ⟨hread, hwrite⟩ := h'.mayRead_of_mapping ha (fun _ => Paths.all_page _) hmapping huser
  refine ⟨M', g, ⟨0, 0, ?_⟩, hread, hwrite, h'.free, ?_, fun p x w hp hpx => ?_, fun p x hp hne => ?_⟩
  · rw [handlePaged, if_pos ⟨ha, hx⟩, hrun']
  · rw [maps, ← hk, ← h'.root_active, hmapping]
  · exact (h.spaces.fresh_of_mapping ⟨p, hp, rfl⟩ (Paths.all_page x) hpx).2 List.mem_cons_self
  · rw [maps, maps, hroot, Page.mapping, Page.mapping, hadded.other _ x ⟨p, hp, rfl⟩]
    rintro ⟨hr, rfl⟩
    exact hne ⟨h.roots p _ hp h.active_created (hr.trans h.root_active), rfl⟩

/-- The first page of the heap, with its three tables. -/
theorem demand_paging_progress_heap : ∃ M g, PagedStep (aged [19]) (.missing true true 0x700000000000) M ∧
    M.mayRead 0x700000000000 = true ∧ M.mayWrite 0x700000000000 = true ∧ M.vm.frames.Free (Vm.loneFree.drop 4) ∧
    M.maps 1 (Page.of 0x700000000000 (by decide)) = some (g, true) := by
  obtain ⟨htables, hx, hclean⟩ := aged_heap
  obtain ⟨M, g, hs, hread, hwrite, hfree, hmaps, -⟩ := demand_paging_progress (aged_started [19]) .nil
    (a := 0x700000000000) (by decide) (by decide) hx Vm.lone_free (by rw [htables]; decide) hclean true true
  rw [htables] at hfree
  exact ⟨M, g, hs, hread, hwrite, hfree, hmaps⟩

end Machine
end Sbuos
