import Sbuos.Machine
import Sbuos.Lib.CopyOnWrite
/-!
# Copy-on-write isolation (sys/memory_helpers.c:305-417, sys/process_helpers.c:83-101)

The processes of a `Machine` are those of `Lib.CopyOnWrite`: `maps` is what their leaf entries say. A fork shares, a
fault grants; but `cross_off_COW` grants to the process behind slot 509 without asking who else has the frame.

**`cow_isolation`**: in every run in which nobody else has it (`NoThird`), what one process writes no other reads.
-/
namespace Sbuos
open Lib Lib.CopyOnWrite

namespace Machine
variable {K f : Frame} {gs : List Frame} {M₀ M M' : Machine} {es : List Event} {e : Event} {a b : Word} {p q : Nat}

def Live (M : Machine) (p : Nat) : Prop := M.Created p ∧ (M.pcb p).status ≠ .finished

/-- The frame that a process has for a page, and whether it may write there. -/
def maps (M : Machine) (p : Nat) (x : Page) : Option (Frame × Bool) := x.mapping M.vm.mem (M.root p)

/-- What the process reads at an address, with the word around it; nothing where the MMU refuses. -/
def reads (M : Machine) (p : Nat) (a : Word) : Option Word :=
  if UserAddr a ∧ allows userAccessible M.vm.mem (M.root p) (pathOf a) then
    (walk M.vm.mem (M.root p) (pathOf a)).map fun f => M.vm.mem f (wordOf a)
  else none

/-- The process behind slot 509, if it lives, has the frame at the page to itself, or with the active process alone,
which is about to be given a copy. -/
def NoThird (M : Machine) (a : Word) : Prop :=
  ∀ ha p q f w w', M.Live p → child (M.vm.mem M.vm.root 509) = some (M.root p) → M.maps p (Page.of a ha) = some (f, w) →
    M.Live q → q ≠ p → M.maps q (Page.of a ha) = some (f, w') →
      q = M.kernel.sched.active ∧ M.kernel.sched.relative ≠ 0

/-- The event finds what it needs, and a fault makes no page writable that a third process has. -/
def Isolating (M : Machine) (e : Event) : Prop := Fits M e ∧ ∀ a, e = .fault a → NoThird M a

/-- The child of process 1 shares with nobody else. -/
theorem LoneForked.noThird {m : PMem} {P : Frame → Paths} {Q : Paths} {c : Frame} (hl : LoneForked m P Q M gs c) :
    NoThird M 0x400000 := by
  intro ha p q f w w' hp hcross _ hq hne _
  have hcreated : ∀ p, M.Created p → p = 1 ∨ p = 2 := fun p hp => by
    rw [Created, hl.created] at hp
    omega
  have h2 : M.Created 2 := ⟨by decide, hl.created.ge⟩
  rw [hl.root_active, hl.forked.cross] at hcross
  obtain rfl := hl.inv.roots 2 p h2 hp.1 (hl.root_two.trans (Option.some.inj hcross))
  obtain rfl := (hcreated q hq.1).resolve_right hne
  refine ⟨hl.active.symm, ?_⟩
  rw [hl.relative]
  decide

/-- What keeps the processes apart. -/
structure Isolated (M : Machine) : Prop where
  exclusive : Exclusive M.Live M.maps
  onePage : OnePage M.Created M.maps

theorem Started.isolated (h : Started K gs M) : Isolated M where
  exclusive := by
    rintro p q x f hp hq hne hx ⟨y, w, hy⟩
    exact hne (h.distinct q p y x f w true hq.1 hp.1 hy hx).1
  onePage p q x y f w w' hp hq hx hy := (h.distinct p q x y f w w' hp hq hx hy).2

namespace Isolated

/-- Nobody has another frame, or is born or revived. -/
theorem congr (hi : Isolated M) (hcreated : ∀ p, M'.Created p → M.Created p) (hlive : ∀ p, M'.Live p → M.Live p)
    (hmaps : M'.maps = M.maps) : Isolated M' where
  exclusive := by
    rw [hmaps]
    exact hi.exclusive.congr hlive fun _ _ => rfl
  onePage := by
    rw [hmaps]
    exact hi.onePage.of_old fun q x f w hq hx => ⟨q, w, hcreated q hq, hx⟩

/-- A quiet event of the kernel. -/
theorem quiet (hi : Isolated M) (h : Inv whole K gs M) {e : Kernel.Event} (hs : Step M (.kernel e) M') :
    Isolated M' := by
  obtain ⟨-, hmem, hsame, hfinished⟩ := h.quiet hs
  have hcreated : ∀ p, M'.Created p → M.Created p := fun p hp => by
    rw [Created, hsame.created] at hp
    exact hp
  refine hi.congr hcreated (fun p hp => ⟨hcreated p hp.1, fun hf => hp.2 (hfinished p (hcreated p hp.1) hf)⟩) ?_
  funext p x
  have hroot : M'.root p = M.root p := congrArg frameOf (hsame.pml4 p)
  rw [maps, maps, hmem, hroot]

/-- A fork. -/
theorem fork (hi : Isolated M) (h : Inv whole K gs M) (hg : Fits M .fork) (hs : Step M .fork M') : Isolated M' := by
  obtain ⟨gs', c, pml4, h', hforked, hforks, hpml4⟩ := h.forkClean rfl hg hs
  have hact := h.active_created
  generalize hp : M.kernel.sched.active = p at hact
  generalize hn : M.kernel.sched.created + 1 = n
  have hpcb := fun q hq => pcb_of_forks hforks (p := q) hq
  have hroot := fun q hq => root_of_forks hforks (p := q) hq
  have hcreated := fun q => (created_iff_of_forks hforks (p := q)).1
  have hnew := (root_new hforks).trans hpml4
  rw [hn] at hnew
  simp only [hn] at hcreated
  have hrootp : M.vm.root = M.root p := by rw [h.root_active, hp]
  have hpc : ∀ q, q = p ∨ q = n → ∀ x f w, M'.maps q x = some (f, w) → w = false ∧ ∃ v, M.maps p x = some (f, v) := by
    intro q hq x f w hx
    have hshared : M'.maps q x = (M.maps p x).map fun t => (t.1, false) := by
      rw [maps, Page.mapping, maps, Page.mapping, ← mappingOf_sharedEntry, ← hrootp]
      rcases hq with rfl | rfl
      · rw [hroot q hact, ← hrootp, hforked.parent]
      · rw [hnew, hforked.child x (Paths.all_page x)]
    obtain ⟨⟨g, v⟩, hg, hgf⟩ := Option.map_eq_some_iff.1 (hshared.symm.trans hx)
    obtain ⟨rfl, rfl⟩ := Prod.mk.inj hgf
    exact ⟨rfl, v, hg⟩
  have hother : ∀ q, M'.Created q → q ≠ p → q ≠ n → M.Created q ∧ M'.maps q = M.maps q := by
    intro q hq hqp hqn
    have hq' := (hcreated q hq).resolve_right hqn
    refine ⟨hq', ?_⟩
    funext x
    rw [maps, Page.mapping, maps, Page.mapping, hroot q hq', hforked.other _ x ⟨q, hq', rfl⟩ (Paths.all_page x)]
    intro e
    exact hqp (h.roots q p hq' hact (e.trans hrootp))
  constructor
  · refine hi.exclusive.share (p := p) (c := n) ?_ ?_ (fun q hq x f w hx => ?_)
      fun q hq hqp hqn => (hother q hq.1 hqp hqn).2
    · exact ⟨hact, hp ▸ h.kernel.live⟩
    · intro q hq
      rcases hcreated q hq.1 with hq' | rfl
      · exact .inl ⟨hq', hpcb q hq' ▸ hq.2⟩
      · exact .inr rfl
    · obtain ⟨hw, v, hv⟩ := hpc q hq x f w hx
      exact ⟨hw, x, v, hv⟩
  · refine hi.onePage.of_old fun q x f w hq hx => ?_
    by_cases hqpn : q = p ∨ q = n
    · obtain ⟨-, v, hv⟩ := hpc q hqpn x f w hx
      exact ⟨p, v, hact, hv⟩
    · rw [not_or] at hqpn
      obtain ⟨hq', hmaps⟩ := hother q hq hqpn.1 hqpn.2
      rw [hmaps] at hx
      exact ⟨q, w, hq', hx⟩

/-- The page that a fault grants to the active process, if any. -/
theorem granted (hi : Isolated M) (h : Inv whole K gs M) {m' : PMem} {gs' : List Frame} {own : Word} {x : Page}
    {maps₁ : Nat → Page → Option (Frame × Bool)}
    (hhandled : Inv.Handled M.vm.mem M.kernel.sched (x.leaf M.vm.mem M.vm.root) f gs own m' gs')
    (hx : maps₁ M.kernel.sched.active x = mappingOf own)
    (hother : ∀ q y, ¬(q = M.kernel.sched.active ∧ y = x) → maps₁ q y = M.maps q y) :
    Exclusive M.Live maps₁ ∧ OnePage M.Created maps₁ := by
  obtain ⟨hk, -, rfl, -⟩ | ⟨hk, g, rfl, rfl, -⟩ := hhandled
  · have hsame : maps₁ = M.maps := by
      funext q y
      by_cases hqy : q = M.kernel.sched.active ∧ y = x
      · obtain ⟨rfl, rfl⟩ := hqy
        rw [hx, maps, Page.mapping, h.root_active]
      · exact hother q y hqy
    rw [hsame]
    exact ⟨hi.exclusive, hi.onePage⟩
  · -- nobody has the frame of the copy
    have hnew : ∀ q y w, M.Created q → M.maps q y ≠ some (g, w) := fun q y w hq hy =>
      (h.spaces.fresh_of_mapping ⟨q, hq, rfl⟩ (Paths.all_page y) hy).2 List.mem_cons_self
    rw [show mappingOf (copiedEntry g) = some (g, true) by
      rw [mappingOf, child_copiedEntry, Option.map_some, decide_eq_true (copiedEntry_writable g)]] at hx
    have hy : ∀ y, y ≠ x → maps₁ M.kernel.sched.active y = M.maps M.kernel.sched.active y :=
      fun y hy => hother _ y fun e => hy e.2
    have hq : ∀ q, q ≠ M.kernel.sched.active → maps₁ q = M.maps q :=
      fun q hq => funext fun y => hother q y fun e => hq e.1
    refine ⟨hi.exclusive.grant hx hy (fun q _ => hq q) ?_, hi.onePage.grant hx hy (fun q _ => hq q) ?_⟩
    · rintro - q hq - ⟨y, w, hy⟩
      exact hnew q y w hq.1 hy
    · intro q y w hq hy
      exact absurd hy (hnew q y w hq)

/-- A fault. -/
theorem fault (hi : Isolated M) (h : Inv whole K gs M) (hg : Isolating M (.fault a)) (hs : Step M (.fault a) M') :
    Isolated M' := by
  obtain ⟨ha, f, gs', own, hy, hk, h', hm, hhandled⟩ := h.fault hg.1 Within.whole hs
  have hthird := hg.2 a rfl ha
  have hact := h.active_created
  have hcreated : M'.Created = M.Created := by
    funext q
    rw [Created, Created, hk]
  have hlive : M'.Live = M.Live := by
    funext q
    rw [Live, Live, hcreated, pcb, pcb, hk]
  have hnew : ∀ q y, M'.maps q y = y.mapping M'.vm.mem (M.root q) := fun q y => by
    rw [maps, root, root, pcb, pcb, hk]
  generalize Page.of a ha = x at *
  -- first what the active process gets, then what its partner gets
  obtain ⟨maps₁, hmaps₁⟩ : ∃ maps₁ : Nat → Page → Option (Frame × Bool), ∀ q y,
      maps₁ q y = if q = M.kernel.sched.active ∧ y = x then M'.maps q y else M.maps q y := ⟨_, fun _ _ => rfl⟩
  have hown : maps₁ M.kernel.sched.active x = mappingOf own := by
    rw [hmaps₁, if_pos ⟨rfl, rfl⟩, hnew, Page.mapping, ← h.root_active, hm.own]
  obtain ⟨hexcl, hone⟩ := hi.granted h hhandled hown fun q y hqy => by rw [hmaps₁, if_neg hqy]
  have hother : ∀ q y, M.Created q → ¬(child (M.vm.mem M.vm.root 509) = some (M.root q) ∧ y = x) →
      M'.maps q y = maps₁ q y := by
    intro q y hq hqy
    rw [hmaps₁]
    split
    case isTrue => rfl
    case isFalse hne =>
      have hqa : ¬(M.root q = M.vm.root ∧ y = x) := fun e => hne ⟨h.roots q _ hq hact (e.1.trans h.root_active), e.2⟩
      rw [hnew, maps, Page.mapping, Page.mapping, hm.other _ y ⟨q, hq, rfl⟩ (Paths.all_page y) hqa hqy]
  suffices Exclusive M.Live M'.maps ∧ OnePage M.Created M'.maps from
    ⟨hlive.symm ▸ this.1, hcreated.symm ▸ this.2⟩
  by_cases hp : ∃ p, M.Created p ∧ child (M.vm.mem M.vm.root 509) = some (M.root p)
  · obtain ⟨p, hp, hcross⟩ := hp
    obtain ⟨-, hpa, hmapped⟩ := h.spaces.partner_root h.isRoot hcross
    obtain ⟨⟨g, w⟩, hgp⟩ := Option.ne_none_iff_exists'.1 ((hmapped x f (Paths.all_page x) hy).2)
    have hgp₁ : maps₁ p x = some (g, w) := by
      have hne : ¬(p = M.kernel.sched.active ∧ x = x) := fun e => hpa (e.1 ▸ h.root_active.symm)
      rw [hmaps₁, if_neg hne]
      exact hgp
    have hgp' : M'.maps p x = some (g, true) := by
      rw [hnew, Page.mapping, hm.partner _ hcross, mappingOf, child_crossedEntry, (Page.mapping_eq_some.1 hgp).1,
        Option.map_some, decide_eq_true (crossedEntry_writable _)]
    have hsame : ∀ y, y ≠ x → M'.maps p y = maps₁ p y := fun y hy => hother p y hp fun e => hy e.2
    have hrest : ∀ q, M.Created q → q ≠ p → M'.maps q = maps₁ q := fun q hq hqp => funext fun y =>
      hother q y hq fun e => hqp (h.roots q p hq hp (Option.some.inj (e.1.symm.trans hcross)))
    have honly : ∀ q y v, M.Created q → maps₁ q y = some (g, v) → y = x := fun q y v hq hy =>
      hone q p y x g v w hq hp hy hgp₁
    refine ⟨hexcl.grant hgp' hsame (fun q hq => hrest q hq.1) ?_, hone.grant hgp' hsame hrest honly⟩
    rintro hpl q hq hqp ⟨y, v, hy₁⟩
    obtain rfl := honly q y v hq.1 hy₁
    rw [hmaps₁] at hy₁
    split at hy₁
    case isTrue hqa =>
      obtain ⟨rfl, -⟩ := hqa
      rw [hnew, Page.mapping, ← h.root_active, hm.own] at hy₁
      obtain ⟨hk₀, -, rfl, -⟩ | ⟨-, g₀, rfl, rfl, -⟩ := hhandled
      · have hyg : M.maps M.kernel.sched.active y = some (g, v) := by rw [maps, Page.mapping, ← h.root_active, hy₁]
        exact (hthird p _ g w v hpl hcross hgp hq hqp hyg).2 hk₀
      · -- the frame of the copy was free
        obtain ⟨g', hg', hgv⟩ := Option.map_eq_some_iff.1 hy₁
        obtain ⟨rfl, -⟩ := Prod.mk.inj hgv
        obtain rfl := Option.some.inj ((child_copiedEntry g₀).symm.trans hg')
        exact (h.spaces.fresh_of_mapping ⟨p, hp, rfl⟩ (Paths.all_page _) hgp).2 List.mem_cons_self
    case isFalse hqa =>
      exact hqa ⟨(hthird p q g w v hpl hcross hgp hq hqp hy₁).1, rfl⟩
  · exact ⟨hexcl.congr (fun _ hq => hq) fun q hq => funext fun y => hother q y hq.1 fun e => hp ⟨q, hq.1, e.1⟩,
      hone.of_old fun q y f w hq hy => ⟨q, w, hq, hother q y hq (fun e => hp ⟨q, hq, e.1⟩) ▸ hy⟩⟩

/-- A store. -/
theorem store (hi : Isolated M) (h : Inv whole K gs M) {x : Word} (hs : Step M (.store a x) M') : Isolated M' := by
  obtain ⟨-, -, -, hk, -, -, hleaf, -⟩ := h.store Within.whole hs
  have hcreated : ∀ p, M'.Created p → M.Created p := fun p hp => by
    rw [Created, hk] at hp
    exact hp
  have hmaps : ∀ p, M.Created p → M'.maps p = M.maps p := by
    intro p hp
    funext y
    have hroot : M'.root p = M.root p := by rw [root, pcb, hk, root, pcb]
    rw [maps, maps, Page.mapping, Page.mapping, hroot, hleaf _ y ⟨p, hp, rfl⟩ (Paths.all_page y)]
  constructor
  · refine hi.exclusive.congr (fun p hp => ⟨hcreated p hp.1, ?_⟩) fun p hp => hmaps p (hcreated p hp.1)
    rw [pcb, ← hk]
    exact hp.2
  · exact hi.onePage.of_old fun q y f w hq hy => ⟨q, w, hcreated q hq, hmaps q (hcreated q hq) ▸ hy⟩

/-- One event. -/
theorem step (hi : Isolated M) (h : Inv whole K gs M) (hg : Isolating M e) (hs : Step M e M') : Isolated M' := by
  cases e with
  | fork => exact hi.fork h hg.1 hs
  | kernel e => exact hi.quiet h hs
  | load a => exact hs.eq_of_load ▸ hi
  | fault a => exact hi.fault h hg hs
  | store a x => exact hi.store h hs

end Isolated

/-- What a process reads, by the entry of the page and the contents of its frame. -/
theorem reads_eq (h : Inv whole K gs M) (hp : M.Created p) (hb : UserAddr b) :
    M.reads p b = if (Page.of b hb).leaf M.vm.mem (M.root p) &&& userAccessible ≠ 0 then
      (CopyOnWrite.reads M.maps M.vm.mem p (Page.of b hb)).map fun t => t (wordOf b) else none := by
  have hwalk : walk M.vm.mem (M.root p) (pathOf b) = child ((Page.of b hb).leaf M.vm.mem (M.root p)) := by
    rw [pathOf_eq, walk, Radix.walk_snoc, ← walk, Page.leaf, leaf, pageEntry]
    change _ = child (((walk M.vm.mem (M.root p) (tablePath b)).map fun f => M.vm.mem f (pageIndex b)).getD 0)
    cases walk M.vm.mem (M.root p) (tablePath b) with
    | none => exact child_zero.symm
    | some t => rfl
  rw [reads, hwalk, CopyOnWrite.reads, maps, Page.mapping, mappingOf, Option.map_map, Option.map_map]
  cases hchild : child ((Page.of b hb).leaf M.vm.mem (M.root p)) with
  | none => simp
  | some f =>
    have hpresent : child ((Page.of b hb).leaf M.vm.mem (M.root p)) ≠ none := hchild ▸ Option.some_ne_none f
    have hiff := h.spaces.allows_iff ⟨p, hp, rfl⟩ (Paths.all_page _) hpresent (.inr rfl)
    have hpath : pathOf b = (Page.of b hb).path ++ [(Page.of b hb).index] := rfl
    refine if_congr ?_ rfl rfl
    rw [hpath, hiff]
    exact and_iff_right hb

/-- **Isolation**: in every run from processes that share nothing, if no fault made a page writable that a third process
had, a write of the active process, be it a fault or a store, leaves what every other live process reads as it is. -/
theorem cow_isolation (h₀ : Started K gs M₀) (hrun : Run (Guarded Isolating Step) M₀ es M)
    (he : (∃ a, e = .fault a) ∨ ∃ a x, e = .store a x) (hstep : Guarded Isolating Step M e M') (hq : M.Live q)
    (hne : q ≠ M.kernel.sched.active) (b : Word) : M'.reads q b = M.reads q b := by
  have hinv : (∃ gs, Inv whole K gs M) ∧ Isolated M :=
    hrun.invariant (fun M => (∃ gs, Inv whole K gs M) ∧ Isolated M) ⟨⟨gs, h₀.inv⟩, h₀.isolated⟩
      fun _ _ _ ⟨⟨_, h⟩, hi⟩ ⟨hg, hs⟩ => ⟨h.step hg.1 Within.whole hs, hi.step h hg hs⟩
  obtain ⟨⟨gs, h⟩, hi⟩ := hinv
  have hact := h.active_created
  by_cases hb : UserAddr b
  case neg => rw [reads, reads, if_neg fun e => hb e.1, if_neg fun e => hb e.1]
  rcases he with ⟨a, rfl⟩ | ⟨a, x, rfl⟩
  · obtain ⟨ha, f, gs', own, hy, hk, h', hm, -⟩ := h.fault hstep.1.1 Within.whole hstep.2
    have hroot : M'.root q = M.root q := by rw [root, pcb, hk, root, pcb]
    have hq' : M'.Created q := by
      rw [Created, hk]
      exact hq.1
    -- its entry may have become writable
    have hleaf : ∀ y : Page, y.leaf M'.vm.mem (M.root q) = y.leaf M.vm.mem (M.root q) ∨
        y.leaf M'.vm.mem (M.root q) = crossedEntry (y.leaf M.vm.mem (M.root q)) := by
      intro y
      by_cases hp : child (M.vm.mem M.vm.root 509) = some (M.root q) ∧ y = Page.of a ha
      · rw [hp.2]
        exact .inr (hm.partner _ hp.1)
      · refine .inl (hm.other _ y ⟨q, hq.1, rfl⟩ (Paths.all_page y) (fun e => hne ?_) hp)
        exact h.roots q _ hq.1 hact (e.1.trans h.root_active)
    have hmaps : ∀ y : Page, (M'.maps q y).map Prod.fst = (M.maps q y).map Prod.fst := by
      intro y
      rw [maps, maps, Page.mapping, Page.mapping, mappingOf, mappingOf, hroot, Option.map_map, Option.map_map]
      rcases hleaf y with e | e
      · rw [e]
      · rw [e, child_crossedEntry]
        rfl
    have huser : ∀ y : Page,
        y.leaf M'.vm.mem (M.root q) &&& userAccessible = y.leaf M.vm.mem (M.root q) &&& userAccessible := by
      intro y
      rcases hleaf y with e | e
      · rw [e]
      · rw [e, crossedEntry_user]
    rw [reads_eq h' hq' hb, reads_eq h hq.1 hb, hroot, huser, reads_congr (hmaps _)]
    intro f w hf
    obtain ⟨hfresh, hfree⟩ := h.spaces.fresh_of_mapping ⟨q, hq.1, rfl⟩ (Paths.all_page _) hf
    exact (hm.data f hfresh hfree).2
  · obtain ⟨ha, f, hy, hk, h', hmem, hleaf, -⟩ := h.store Within.whole hstep.2
    have hroot : M'.root q = M.root q := by rw [root, pcb, hk, root, pcb]
    have hq' : M'.Created q := by
      rw [Created, hk]
      exact hq.1
    have hleafq := hleaf (M.root q) (Page.of b hb) ⟨q, hq.1, rfl⟩ (Paths.all_page _)
    have hmaps : M'.maps q (Page.of b hb) = M.maps q (Page.of b hb) := by
      rw [maps, maps, Page.mapping, Page.mapping, hroot, hleafq]
    have hown : M.maps M.kernel.sched.active (Page.of a ha) = some (f, true) := by rw [maps, ← h.root_active, hy]
    have hdata : ∀ g, g ≠ f → M'.vm.mem g = M.vm.mem g := fun g hg => by
      rw [hmem]
      exact Radix.set_of_ne hg
    have hreads : CopyOnWrite.reads M'.maps M'.vm.mem q (Page.of b hb) =
        CopyOnWrite.reads M.maps M.vm.mem q (Page.of b hb) := by
      rw [← hi.exclusive.reads_eq ⟨hact, h.kernel.live⟩ hq hne hown hdata, CopyOnWrite.reads, CopyOnWrite.reads, hmaps]
    rw [reads_eq h' hq' hb, reads_eq h hq.1 hb, hroot, hleafq, hreads]

/-! ## Process 1 and its children -/

section lone
variable {c : Frame}

/-- Process 1 forks, has its page copied and writes to it. -/
theorem cow_isolation_store : ∃ M M', Run (Guarded Isolating Step) lone [.fork, .fault 0x400000] M ∧
    Guarded Isolating Step M (.store 0x400000 42) M' ∧ M.Live 2 ∧ M'.reads 2 0x400000 = M.reads 2 0x400000 := by
  obtain ⟨M₁, gs, c, hfork, hl⟩ := lone_forks
  obtain ⟨g, gs, rfl⟩ := List.exists_cons_of_length_pos (lt_of_lt_of_le (by decide) hl.enough)
  have hfits : Fits M₁ (.fault 0x400000) := fun _ => ⟨g, gs, hl.inv.free⟩
  obtain ⟨M, hs⟩ := hl.inv.faults (a := 0x400000) (by decide) (by decide) Within.whole hl.mapping_page hl.user hfits
  obtain ⟨ha, f, gs', own, hx, hk, h, hm, hhandled⟩ := hl.inv.fault hfits Within.whole hs
  have hroot : M.vm.root = M₁.vm.root := by rw [h.root_active, hl.inv.root_active, root, pcb, hk, root, pcb]
  obtain ⟨hk₀, -⟩ | ⟨-, g', -, rfl, -⟩ := hhandled
  · rw [hl.relative] at hk₀
    cases hk₀
  have hleaf : (Page.of 0x400000 ha).leaf M.vm.mem M.vm.root = copiedEntry g' := by rw [hroot, hm.own]
  have hmapping : (Page.of 0x400000 ha).mapping M.vm.mem M.vm.root = some (g', true) := by
    rw [Page.mapping, hleaf, mappingOf, child_copiedEntry, Option.map_some, decide_eq_true (copiedEntry_writable g')]
  have huser : (Page.of 0x400000 ha).leaf M.vm.mem M.vm.root &&& userAccessible ≠ 0 := by
    rw [hleaf]
    exact copiedEntry_user g'
  obtain ⟨M', hs'⟩ := h.stores ha (by decide) (fun _ => Paths.all_page _) hmapping huser 42
  have hrun₁ : Run (Guarded Isolating Step) lone [.fork] M₁ := .single ⟨⟨hfork.1, fun a e => by cases e⟩, hfork.2⟩
  have hnoThird : ∀ a, Event.fault 0x400000 = .fault a → NoThird M₁ a := by
    rintro a ⟨rfl⟩
    exact hl.noThird
  have hrun : Run (Guarded Isolating Step) lone [.fork, .fault 0x400000] M := hrun₁.snoc ⟨⟨hfits, hnoThird⟩, hs⟩
  have hstep : Guarded Isolating Step M (.store 0x400000 42) M' := ⟨⟨trivial, fun a e => by cases e⟩, hs'⟩
  have hlive : M.Live 2 := by
    rw [Live, Created, pcb, hk]
    exact ⟨⟨by decide, hl.created.ge⟩, ne_of_eq_of_ne (hl.running 2 ⟨by decide, hl.created.ge⟩) (by decide)⟩
  have hne : 2 ≠ M.kernel.sched.active := by
    rw [hk, hl.active]
    decide
  exact ⟨M, M', hrun, hstep, hlive, cow_isolation lone_started hrun (.inr ⟨_, _, rfl⟩) hstep hlive hne _⟩

/-- Process 1 has forked processes 2 and 3, which have its page. -/
structure LoneForkedTwice (M : Machine) (c₂ c₃ g : Frame) : Prop where
  inv : ∃ gs, Inv whole 5 (g :: gs) M
  active : M.kernel.sched.active = 1
  created : M.kernel.sched.created = 3
  queue : M.kernel.sched.queue = [2, 3]
  running : ∀ p, M.Created p → (M.pcb p).status = .running
  ppid : (M.pcb 1).ppid = 0 ∧ (M.pcb 2).ppid = 1
  roots : M.root 1 = 1 ∧ M.root 2 = c₂ ∧ M.root 3 = c₃
  cross : child (M.vm.mem 1 509) = some c₃
  leaf : ∀ r, r = 1 ∨ r = c₂ ∨ r = c₃ → lonePage.leaf M.vm.mem r = 0x9205
  data : M.vm.mem 9 = fun _ => 0

theorem LoneForked.forks_again (hl : LoneForked Vm.lone.mem whole .all M gs c) :
    ∃ M' c₃ g, Guarded Fits Step M .fork M' ∧ LoneForkedTwice M' c c₃ g := by
  have htables : tablesBelow M.vm.mem 3 M.vm.root = 3 := by
    have hupper := fun p f i hlow hp hw => hl.forked.upper 1 p f i rfl hlow hp hw
    rw [hl.root_active, Vm.lone_spaces.tablesBelow_eq rfl rfl hupper]
    decide +kernel
  have hroom : M.kernel.sched.queue.length ≤ processQueueSize - 2 := by
    rw [hl.queue]
    decide
  have hpages : M.memory.availableVirtMem.toNat + (0 + 4) * pageSize < 2 ^ 64 := by
    rw [Nat.zero_add]
    exact hl.pages
  have hpid : M.kernel.sched.prevPid + 1 < 2 ^ 31 := by
    rw [hl.inv.kernel.sched.tidy.prevPid_eq, hl.created]
    decide
  have henough : 3 * (0 + 4) + (tablesBelow M.vm.mem 3 M.vm.root + 1) ≤ gs.length := by
    rw [htables]
    exact hl.enough
  have hclean : M.memory.CleanFork :=
    hl.inv.cleanFork rfl hpages (hl.enough.trans' (by decide)) fun _ hg i => hl.blank hg i
  obtain ⟨M', gs', c₃, hs, h, hforked, hforks, ⟨hqueue, hstatus⟩, -, hone⟩ :=
    hl.inv.forks rfl (.inl ⟨rfl, hclean⟩) hroom hpages henough hpid
  rw [hl.inv.update_all hforked.new] at h
  obtain ⟨g, gs', rfl⟩ := List.exists_cons_of_length_pos (l := gs') (by omega)
  rw [hl.root_active] at hforked
  have h1 : M.Created 1 := ⟨by decide, by rw [hl.created]; decide⟩
  have h2 : M.Created 2 := ⟨by decide, hl.created.ge⟩
  have hnew := (root_new hforks).trans (frameOf_baseOf c₃)
  rw [hl.created] at hnew
  have hc : M.IsRoot c := ⟨2, h2, hl.root_two⟩
  have hc1 : c ≠ 1 := fun e => by
    have := hl.inv.roots 1 2 h1 h2 (hl.root_one.trans (e.symm.trans hl.root_two.symm))
    cases this
  have hshared : sharedEntry 0x9205 = 0x9205 := by decide
  refine ⟨M', c₃, g, ⟨⟨hs.1, hclean⟩, hs.2⟩, ⟨gs', h⟩, hforks.active.trans hl.active, ?_, ?_, fun p hp => ?_, ⟨?_, ?_⟩,
    ⟨?_, ?_, hnew⟩, hforked.cross, ?_, ?_⟩
  · rw [hforks.created, hl.created]
  · rw [hqueue, hl.queue, hl.created]
    rfl
  · rcases (created_iff_of_forks hforks).1 hp with hp | rfl
    · rw [pcb_of_forks hforks hp, hl.running p hp]
    · exact hstatus
  · rw [pcb_of_forks hforks h1, hl.ppid_one]
  · rw [pcb_of_forks hforks h2, hl.ppid_two]
  · rw [root_of_forks hforks h1, hl.root_one]
  · rw [root_of_forks hforks h2, hl.root_two]
  · rintro r (rfl | rfl | rfl)
    · rw [hforked.parent, hl.leaf_page.1, hshared]
    · rw [hforked.other _ _ hc (Paths.all_page _) hc1, hl.leaf_page.2]
    · rw [hforked.child _ (Paths.all_page _), hl.leaf_page.1, hshared]
  · obtain ⟨hfresh, hfree⟩ := hl.inv.spaces.fresh_of_mapping hl.inv.isRoot (Paths.all_page _) hl.mapping_page
    have hfree₀ : (9 : Frame) ∉ Vm.loneFree := by decide
    rw [hforked.data 9 hfresh hfree, hl.forked.data 9 (Vm.lone_fresh (by decide)) hfree₀]
    funext i
    have hentry := fun h => Vm.lone_entry (f := 9) (i := i) h
    by_contra hne
    rcases hentry hne with ⟨h, -⟩ | ⟨h, -⟩ | ⟨h, -⟩ | ⟨h, -⟩ | ⟨h, -⟩ <;> exact absurd h (by decide)

namespace LoneForkedTwice
variable {c₂ c₃ g : Frame} (hl : LoneForkedTwice M c₂ c₃ g)
include hl

theorem created_of_le (hp : 0 < p) (hle : p ≤ 3) : M.Created p := ⟨hp, hl.created.ge.trans' hle⟩

/-- The fault of process 1 makes the page writable for process 3, while process 2 has it too. -/
theorem faults : ∃ M', Guarded Fits Step M (.fault 0x400000) M' ∧ M'.kernel = M.kernel ∧ (∃ gs, Inv whole 5 gs M') ∧
    lonePage.leaf M'.vm.mem c₂ = 0x9205 ∧ lonePage.leaf M'.vm.mem c₃ = 0x9007 ∧ M'.vm.mem 9 = fun _ => 0 := by
  obtain ⟨gs, h⟩ := hl.inv
  obtain ⟨hr1, hr2, hr3⟩ := hl.roots
  have h1 : M.Created 1 := hl.created_of_le (by decide) (by decide)
  have h2 : M.Created 2 := hl.created_of_le (by decide) (by decide)
  have h3 : M.Created 3 := hl.created_of_le (by decide) le_rfl
  have hroot : M.vm.root = 1 := by rw [h.root_active, hl.active, hr1]
  have hleaf := hl.leaf 1 (.inl rfl)
  have hmapping : lonePage.mapping M.vm.mem M.vm.root = some (9, false) := by
    rw [Page.mapping, hroot, hleaf]
    decide
  have huser : lonePage.leaf M.vm.mem M.vm.root &&& userAccessible ≠ 0 := by
    rw [hroot, hleaf]
    decide
  have hfits : Fits M (.fault 0x400000) := fun _ => ⟨g, gs, h.free⟩
  obtain ⟨M', hs⟩ := h.faults (a := 0x400000) (by decide) (by decide) Within.whole hmapping huser hfits
  obtain ⟨ha, f, gs', own, -, hk, h', hm, -⟩ := h.fault hfits Within.whole hs
  refine ⟨M', ⟨hfits, hs⟩, hk, ⟨gs', h'⟩, ?_, ?_, ?_⟩
  · refine (hm.other c₂ lonePage ⟨2, h2, hr2⟩ (Paths.all_page _) (fun e => ?_) fun e => ?_).trans
      (hl.leaf c₂ (.inr (.inl rfl)))
    · have h21 := h.roots 2 1 h2 h1 (hr2.trans (e.1.trans (hroot.trans hr1.symm)))
      cases h21
    · have hcross := Option.some.inj (hl.cross.symm.trans (hroot ▸ e.1))
      have h32 := h.roots 3 2 h3 h2 (hr3.trans (hcross.trans hr2.symm))
      cases h32
  · refine (hm.partner c₃ (hroot.symm ▸ hl.cross)).trans ?_
    rw [← lonePage, hl.leaf c₃ (.inr (.inr rfl))]
    decide
  · obtain ⟨hfresh, hfree⟩ := h.spaces.fresh_of_mapping h.isRoot (Paths.all_page _) hmapping
    rw [(hm.data 9 hfresh hfree).2, hl.data]

end LoneForkedTwice

/-- **Not in general**: process 1 forks twice and writes to its page; then a store of process 3 is read by process 2. -/
theorem cow_isolation_broken : ∃ M M',
    Run (Guarded Fits Step) lone [.fork, .fork, .fault 0x400000, .kernel .yield, .kernel .yield] M ∧
    Step M (.store 0x400000 42) M' ∧ M.kernel.sched.active = 3 ∧ M.Live 2 ∧
    M.reads 2 0x400000 = some 0 ∧ M'.reads 2 0x400000 = some 42 := by
  obtain ⟨M₁, gs, c₂, hs₁, hl₁⟩ := lone_forks
  obtain ⟨M₂, c₃, g, hs₂, hl⟩ := hl₁.forks_again
  obtain ⟨M₃, hs₃, hk₃, ⟨gs, h₃⟩, hleaf2, hleaf3, hdata⟩ := hl.faults
  have h2 : M₂.Created 2 := hl.created_of_le (by decide) (by decide)
  have h3 : M₂.Created 3 := hl.created_of_le (by decide) le_rfl
  -- two switches
  have hpcb₃ : ∀ p, M₃.pcb p = M₂.pcb p := fun p => by rw [pcb, hk₃, pcb]
  have hqueue₃ : M₃.kernel.sched.queue = 2 :: [3] := by rw [hk₃, hl.queue]
  obtain ⟨M₄, hs₄, -, hqueue₄, hstatus₄⟩ := h₃.yields hqueue₃ (by rw [hpcb₃, hl.running 2 h2])
  obtain ⟨h₄, hmem₄, hsame₄, -⟩ := h₃.quiet hs₄
  rw [hk₃, hl.active] at hqueue₄
  obtain ⟨M, hs₅, hact, -, hstatus₅⟩ := h₄.yields hqueue₄ (by rw [hstatus₄, hpcb₃, hl.running 3 h3])
  obtain ⟨h, hmem, hsame₅, -⟩ := h₄.quiet hs₅
  have hroot : ∀ p, M.root p = M₂.root p := fun p => by
    have hpml4 := (hsame₅.pml4 p).trans (hsame₄.pml4 p)
    rw [hk₃] at hpml4
    exact congrArg frameOf hpml4
  have hcreated : M.kernel.sched.created = 3 := by rw [hsame₅.created, hsame₄.created, hk₃, hl.created]
  have hactive : M.vm.root = c₃ := by rw [h.root_active, hact, hroot, hl.roots.2.2]
  rw [← hmem₄, ← hmem] at hleaf2 hleaf3 hdata
  rw [← hl.roots.2.1, ← hroot] at hleaf2
  rw [← hactive] at hleaf3
  -- the store
  have hmapping : lonePage.mapping M.vm.mem M.vm.root = some (9, true) := by
    rw [Page.mapping, hleaf3]
    decide
  have huser : lonePage.leaf M.vm.mem M.vm.root &&& userAccessible ≠ 0 := by
    rw [hleaf3]
    decide
  obtain ⟨M', hs⟩ := h.stores (a := 0x400000) (by decide) (by decide) (fun _ => Paths.all_page _) hmapping huser 42
  obtain ⟨ha, f, hf, hk, h', hmem', hleaf', -⟩ := h.store Within.whole hs
  obtain rfl : f = 9 := (Prod.mk.inj (Option.some.inj (hf.symm.trans hmapping))).1
  have hq : M.Created 2 := ⟨by decide, by rw [hcreated]; decide⟩
  have hq' : M'.Created 2 := ⟨by decide, by rw [hk, hcreated]; decide⟩
  have hroot' : M'.root 2 = M.root 2 := by rw [root, pcb, hk, root, pcb]
  have hreads : ∀ (N : Machine) {gs' : List Frame}, Inv whole 5 gs' N → N.Created 2 →
      lonePage.leaf N.vm.mem (N.root 2) = 0x9205 → N.reads 2 0x400000 = some (N.vm.mem 9 0) := by
    intro N gs' hN hN2 hleaf
    rw [reads_eq hN hN2 ha, CopyOnWrite.reads, maps, Page.mapping, ← lonePage, hleaf]
    rfl
  refine ⟨M, M', ?_, hs, hact, ⟨hq, ?_⟩, ?_, ?_⟩
  · have hrun : Run (Guarded Fits Step) lone [.fork] M₁ := .single hs₁
    have hyield₄ : Guarded Fits Step M₃ (.kernel .yield) M₄ := ⟨trivial, hs₄⟩
    have hyield₅ : Guarded Fits Step M₄ (.kernel .yield) M := ⟨trivial, hs₅⟩
    exact (((hrun.snoc hs₂).snoc hs₃).snoc hyield₄).snoc hyield₅
  · rw [hstatus₅, hstatus₄, hpcb₃, hl.running 2 h2]
    decide
  · rw [hreads M h hq hleaf2, hdata]
  · rw [hreads M' h' hq' (by rw [hroot', hleaf' _ _ ⟨2, hq, rfl⟩ (Paths.all_page _), hleaf2]), hmem']
    exact congrArg some Radix.set_self

end lone

end Machine
end Sbuos
