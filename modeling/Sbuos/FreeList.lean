import Mathlib.Algebra.GroupWithZero.Nat
import Mathlib.Data.List.TakeWhile
import Sbuos.Frames
import Sbuos.Lib.Run
/-!
# The ends of the free list (sys/memory_helpers.c:36-74, :192-214)

Slot 0 ends both chains, and its index stands for an empty list. `dequeue_page` means to return NULL there,
but the test looks at the pointer `list_tail` and not at what it points to: an empty list hands out slot 0,
on every call.

`filter_out_pages` takes the frames with a base in `[base, top)` off the free chain: its first loop advances
the head past a run of them, its second goes along the chain and unlinks the run behind each node. Both rely
on the base 0 of slot 0, which lies below `base`, to stop at the end of the chain.

**`exhaustion_reported_iff`** and **`filter_out_pages_filters`**.
-/
namespace Sbuos
open Lib

/-! ## Running out of frames -/

/-- `dequeue_page` with its NULL (memory_helpers.c:36-47); `listTail` is the pointer it tests. -/
def dequeuePageOrNull (listTail : Word) (p : Nat → MemPage) (head tail : Nat) : Option (Nat × Nat × Nat) :=
  if head = 0 ∧ listTail = 0 then none else some (dequeuePage p head tail)

namespace Frames

/-- `get_free_page` with its NULL (memory_helpers.c:66-74). -/
def getFreePageOrNull (listTail : Word) (s : Frames) : Option Nat × Frames :=
  match dequeuePageOrNull listTail s.pageList s.freeHead s.freeTail with
  | none => (none, s)
  | some (res, freeHead, freeTail) =>
    let (pageList, usedHead, usedTail) := queuePage s.pageList s.usedHead s.usedTail s.freeHead
    (some res, ⟨pageList, freeHead, freeTail, usedHead, usedTail⟩)

/-- `k` calls of it, with what they return. -/
def getFreePagesOrNull (listTail : Word) : Nat → Frames → List (Option Nat) × Frames
  | 0, s => ([], s)
  | k + 1, s =>
    let (res, s) := s.getFreePageOrNull listTail
    let (rest, s) := getFreePagesOrNull listTail k s
    (res :: rest, s)

/-- `k` calls return NULL each and change nothing. -/
def ReportsExhaustion (listTail : Word) (k : Nat) (s : Frames) : Prop :=
  s.getFreePagesOrNull listTail k = (List.replicate k none, s)

/-- The pointer is that of a static, so the test never succeeds. -/
theorem getFreePageOrNull_eq {listTail : Word} (hp : listTail ≠ 0) (s : Frames) :
    s.getFreePageOrNull listTail = (some s.getFreePage.1, s.getFreePage.2) := by
  rw [getFreePageOrNull, dequeuePageOrNull, if_neg fun h => hp h.2]
  rfl

/-- An empty list hands out slot 0. -/
theorem getFreePage_empty {s : Frames} {used : List Nat} (h : WF s [] used) : s.getFreePage.1 = 0 := h.freeChain

/-- **Running out of frames is never reported**: with the free chain empty, the only calls that all return NULL
and change nothing are no calls. Any others hand out slot 0. -/
theorem exhaustion_reported_iff {s : Frames} {used : List Nat} (h : WF s [] used) {listTail : Word}
    (hp : listTail ≠ 0) (k : Nat) :
    (ReportsExhaustion listTail k s ↔ k = 0) ∧ (k ≠ 0 → some 0 ∈ (s.getFreePagesOrNull listTail k).1) := by
  have hfirst : ∀ k, ∃ rest, (s.getFreePagesOrNull listTail (k + 1)).1 = some 0 :: rest := fun k => by
    rw [getFreePagesOrNull, getFreePageOrNull_eq hp, getFreePage_empty h]
    exact ⟨_, rfl⟩
  cases k with
  | zero => exact ⟨⟨fun _ => rfl, fun _ => rfl⟩, fun h0 => absurd rfl h0⟩
  | succ k =>
    obtain ⟨rest, hrest⟩ := hfirst k
    refine ⟨⟨fun hrep => ?_, fun h0 => absurd h0 (Nat.succ_ne_zero k)⟩, fun _ => ?_⟩
    · have hnone : some 0 :: rest = none :: List.replicate k none := hrest.symm.trans (congrArg Prod.fst hrep)
      cases hnone
    · rw [hrest]
      exact List.mem_cons_self

/-- One frame, and nothing used. -/
def oneFrame : Frames := ⟨fun i => ⟨BitVec.ofNat 64 (i * 4096), 0⟩, 1, 1, 0, 0⟩

theorem oneFrame_taken : WF oneFrame.getFreePage.2 [] [1] := by
  have h : WF oneFrame [1] [] := ⟨⟨rfl, by decide, rfl⟩, rfl, by decide, rfl⟩
  exact (getFreePage_spec h).2.1

/-- No further call. -/
theorem exhaustion_reported_iff_none : ReportsExhaustion 8 0 oneFrame.getFreePage.2 :=
  (exhaustion_reported_iff oneFrame_taken (by decide) 0).1.2 rfl

/-- The second call for the one frame there is hands out slot 0, of base 0, and puts it on the used chain's end. -/
theorem exhaustion_hands_out_sentinel :
    WF oneFrame.getFreePage.2 [] [1] ∧ ¬ReportsExhaustion 8 1 oneFrame.getFreePage.2 ∧
      (oneFrame.getFreePage.2.getFreePagesOrNull 8 1).1 = [some 0] ∧ oneFrame.base 0 = 0 ∧
      (oneFrame.getFreePage.2.getFreePagesOrNull 8 1).2.usedTail = 0 := by
  refine ⟨oneFrame_taken, fun h => ?_, rfl, rfl, rfl⟩
  have hfirst : [some 0] = [none] := congrArg Prod.fst h
  cases hfirst

end Frames

/-! ## `filter_out_pages` -/

/-- The test of both loops. -/
def inRange (base top b : Word) : Bool := base ≤ b ∧ b < top

theorem not_inRange (base top b : Word) : (!inRange base top b) = decide (¬(base ≤ b ∧ b < top)) := decide_not.symm

namespace Frames

/-- The first loop (memory_helpers.c:193-202). The panic loop never returns. -/
def filterHead : Nat → Word → Word → Frames → Option Frames
  | 0, _, _, _ => none
  | fuel + 1, base, top, s =>
    if inRange base top (s.base s.freeHead) then
      let s := { s with freeHead := s.next s.freeHead }
      if s.freeHead = 0 then none else filterHead fuel base top s
    else some s

/-- The inner loop (memory_helpers.c:208-212). -/
def unlinkRun : Nat → Word → Word → Nat → Nat → Frames → Option Frames
  | 0, _, _, _, _, _ => none
  | fuel + 1, base, top, curr, next, s =>
    if inRange base top (s.base next) then
      let nextIndex := s.next next
      unlinkRun fuel base top curr nextIndex
        { s with pageList := setNext (setNext s.pageList curr nextIndex) next 0 }
    else some s

/-- The second loop (memory_helpers.c:204-213). -/
def filterRest : Nat → Word → Word → Nat → Frames → Option Frames
  | 0, _, _, _, _ => none
  | fuel + 1, base, top, index, s =>
    if index = 0 then some s
    else do
      let s ← unlinkRun fuel base top index (s.next index) s
      filterRest fuel base top (s.next index) s

/-- `filter_out_pages` (memory_helpers.c:192-214). -/
def filterOutPages (fuel : Nat) (base top : Word) (s : Frames) : Option Frames := do
  let s ← filterHead fuel base top s
  filterRest fuel base top s.freeHead s

variable {s t : Frames} {base top : Word} {curr i j fuel : Nat} {pre rest xs : List Nat}

/-- Only the next fields of `xs` differ. -/
structure Relinked (s : Frames) (xs : List Nat) (t : Frames) : Prop where
  base_eq : ∀ j, t.base j = s.base j
  next_eq : ∀ j, j ∉ xs → t.next j = s.next j
  freeHead_eq : t.freeHead = s.freeHead

theorem Relinked.refl (s : Frames) (xs : List Nat) : Relinked s xs s := ⟨fun _ => rfl, fun _ _ => rfl, rfl⟩

theorem Relinked.trans {u : Frames} {ys zs : List Nat} (h : Relinked s xs t) (h' : Relinked t ys u)
    (hx : ∀ j ∈ xs, j ∈ zs) (hy : ∀ j ∈ ys, j ∈ zs) : Relinked s zs u where
  base_eq j := (h'.base_eq j).trans (h.base_eq j)
  next_eq j hj := (h'.next_eq j fun hm => hj (hy j hm)).trans (h.next_eq j fun hm => hj (hx j hm))
  freeHead_eq := h'.freeHead_eq.trans h.freeHead_eq

/-- Taking one node out from behind another. -/
theorem relinked_unlink (s : Frames) (curr n m : Nat) :
    Relinked s [curr, n] { s with pageList := setNext (setNext s.pageList curr m) n 0 } where
  base_eq j := by simp [Frames.base]
  next_eq j hj := by
    have hne : j ≠ curr ∧ j ≠ n := by simpa using hj
    simp [Frames.next, setNext, hne.1, hne.2]
  freeHead_eq := rfl

/-- The first loop ends at the first frame it keeps. -/
theorem filterHead_spec (h : Linked s.next 0 s.freeHead (pre ++ i :: rest))
    (hpre : ∀ j ∈ pre, inRange base top (s.base j) = true) (hi : inRange base top (s.base i) = false)
    (hf : pre.length < fuel) : filterHead fuel base top s = some { s with freeHead := i } := by
  induction pre generalizing s fuel with
  | nil =>
    obtain ⟨fuel, rfl⟩ : ∃ f, fuel = f + 1 := ⟨fuel - 1, by omega⟩
    obtain rfl : s.freeHead = i := h.1
    rw [filterHead, if_neg (by rw [hi]; decide)]
  | cons j pre ih =>
    obtain ⟨fuel, rfl⟩ : ∃ f, fuel = f + 1 := ⟨fuel - 1, by omega⟩
    obtain ⟨hj, -, hrest⟩ := h
    subst hj
    -- the next node is on the chain, so it is not the sentinel
    have hne : s.next s.freeHead ≠ 0 := by
      rcases pre with _ | ⟨k, pre⟩
      · rw [hrest.1]
        exact hrest.2.1
      · rw [hrest.1]
        exact hrest.2.1
    rw [filterHead, if_pos (hpre _ List.mem_cons_self), if_neg hne]
    exact @ih { s with freeHead := s.next s.freeHead } fuel hrest
      (fun k hk => hpre k (List.mem_cons_of_mem _ hk)) hi (Nat.lt_of_succ_lt_succ hf)

/-- The node that ends a run of frames to remove: one to keep, or the sentinel. -/
def Stops (base top : Word) (s : Frames) (rest : List Nat) : Prop :=
  inRange base top (s.base (rest.head?.getD 0)) = false

theorem Stops.congr (h : Stops base top s rest) (hre : Relinked s xs t) : Stops base top t rest := by
  rw [Stops, hre.base_eq]
  exact h

/-- The frames behind a node: a run to remove, and what ends it. -/
theorem exists_run (h0 : inRange base top (s.base 0) = false) (ys : List Nat) :
    ∃ pre rest, ys = pre ++ rest ∧ (∀ j ∈ pre, inRange base top (s.base j) = true) ∧ Stops base top s rest := by
  refine ⟨ys.takeWhile fun j => inRange base top (s.base j), ys.dropWhile fun j => inRange base top (s.base j),
    List.takeWhile_append_dropWhile.symm, fun j hj => ?_, ?_⟩
  · exact @List.mem_takeWhile_imp _ (fun j => inRange base top (s.base j)) ys j hj
  · have hhead := List.head?_dropWhile_not (fun j => inRange base top (s.base j)) ys
    rw [Stops]
    cases hr : (ys.dropWhile fun j => inRange base top (s.base j)).head? with
    | none => exact h0
    | some k =>
      rw [hr] at hhead
      exact hhead

/-- The inner loop leaves `rest` behind `curr`. -/
theorem unlinkRun_spec (hcurr : curr ∉ pre ++ rest) (h : Linked s.next 0 (s.next curr) (pre ++ rest))
    (hpre : ∀ j ∈ pre, inRange base top (s.base j) = true) (hrest : Stops base top s rest) :
    ∃ t, (∀ fuel, pre.length < fuel → unlinkRun fuel base top curr (s.next curr) s = some t) ∧
      Linked t.next 0 (t.next curr) rest ∧ Relinked s (curr :: pre) t := by
  induction pre generalizing s with
  | nil =>
    have hhead : s.next curr = rest.head?.getD 0 := by
      rcases rest with _ | ⟨k, rest⟩
      · exact h
      · exact h.1
    have hstop : inRange base top (s.base (s.next curr)) = false := by
      rw [hhead]
      exact hrest
    refine ⟨s, fun fuel hf => ?_, h, .refl s _⟩
    obtain ⟨fuel, rfl⟩ : ∃ f, fuel = f + 1 := ⟨fuel - 1, by omega⟩
    rw [unlinkRun, if_neg (by rw [hstop]; decide)]
  | cons n pre ih =>
    have hnd := h.nodup
    obtain ⟨hn, -, htail⟩ := h
    rw [hn]
    rw [List.cons_append, List.nodup_cons] at hnd
    rw [List.cons_append, List.mem_cons, not_or] at hcurr
    have hstep := relinked_unlink s curr n (s.next n)
    generalize hs₁ : ({ s with pageList := setNext (setNext s.pageList curr (s.next n)) n 0 } : Frames) = s₁ at hstep
    have hcurr₁ : s₁.next curr = s.next n := by
      rw [← hs₁]
      simp [Frames.next, setNext, hcurr.1]
    have hchain : Linked s₁.next 0 (s₁.next curr) (pre ++ rest) := by
      rw [hcurr₁]
      refine htail.congr fun x hx => hstep.next_eq x ?_
      have hxc : x ≠ curr := by rintro rfl; exact hcurr.2 hx
      have hxn : x ≠ n := by rintro rfl; exact hnd.1 hx
      simp [hxc, hxn]
    have hpre₁ : ∀ j ∈ pre, inRange base top (s₁.base j) = true := fun j hj => by
      rw [hstep.base_eq]
      exact hpre j (List.mem_cons_of_mem _ hj)
    obtain ⟨t, hrun, hlinked, hre⟩ := ih hcurr.2 hchain hpre₁ (hrest.congr hstep)
    refine ⟨t, fun fuel hf => ?_, hlinked, hstep.trans hre ?_ ?_⟩
    · obtain ⟨fuel, rfl⟩ : ∃ f, fuel = f + 1 := ⟨fuel - 1, by omega⟩
      rw [unlinkRun, if_pos (hpre n List.mem_cons_self)]
      dsimp only
      rw [hs₁, ← hcurr₁]
      exact hrun fuel (Nat.lt_of_succ_lt_succ hf)
    · intro j hj
      rcases List.mem_cons.1 hj with rfl | hj
      · exact List.mem_cons_self
      · simp_all
    · intro j hj
      rcases List.mem_cons.1 hj with rfl | hj
      · exact List.mem_cons_self
      · simp [hj]

theorem filterRest_zero {n : Nat} (hf : n < fuel) : filterRest fuel base top 0 s = some s := by
  obtain ⟨fuel, rfl⟩ : ∃ f, fuel = f + 1 := ⟨fuel - 1, by omega⟩
  rw [filterRest, if_pos rfl]

/-- The second loop, from a node that stays. -/
theorem filterRest_spec (n : Nat) : ∀ {xs : List Nat} {s : Frames} {index : Nat}, xs.length ≤ n →
    Linked s.next 0 index xs → Stops base top s xs → inRange base top (s.base 0) = false →
    ∃ t, (∀ fuel, n + 1 < fuel → filterRest fuel base top index s = some t) ∧
      Linked t.next 0 index (xs.filter fun j => !inRange base top (s.base j)) ∧ Relinked s xs t := by
  induction n with
  | zero =>
    intro xs s index hlen h _ _
    obtain rfl := List.length_eq_zero_iff.1 (Nat.le_zero.1 hlen)
    obtain rfl : index = 0 := h
    exact ⟨s, fun _ => filterRest_zero, rfl, .refl s _⟩
  | succ n ih =>
    intro xs s index hlen h hstop h0
    rcases xs with _ | ⟨i, ys⟩
    · obtain rfl : index = 0 := h
      exact ⟨s, fun _ => filterRest_zero, rfl, .refl s _⟩
    have hnd := h.nodup
    obtain ⟨rfl, hi0, htail⟩ := h
    have hiy : index ∉ ys := (List.nodup_cons.1 hnd).1
    obtain ⟨pre, rest, rfl, hpre, hrest⟩ := exists_run h0 ys
    rw [List.length_cons, List.length_append] at hlen
    obtain ⟨s₁, hrun, hlinked, hre⟩ := unlinkRun_spec hiy htail hpre hrest
    obtain ⟨t, hrun', hlinked', hre'⟩ := ih (by omega) hlinked
      (hrest.congr hre) (by rwa [hre.base_eq])
    have hir : index ∉ rest := fun hm => hiy (List.mem_append_right pre hm)
    refine ⟨t, fun fuel hf => ?_, ?_, hre.trans hre' ?_ ?_⟩
    · obtain ⟨fuel, rfl⟩ : ∃ f, fuel = f + 1 := ⟨fuel - 1, by omega⟩
      rw [filterRest, if_neg hi0, hrun fuel (by omega)]
      exact hrun' fuel (by omega)
    · -- the node itself is kept, the run is dropped
      have hkeep : inRange base top (s.base index) = false := hstop
      have hnone : pre.filter (fun j => !inRange base top (s.base j)) = [] := by
        rw [List.filter_eq_nil_iff]
        intro j hj
        rw [hpre j hj]
        decide
      have hrest_eq : rest.filter (fun j => !inRange base top (s.base j)) =
          rest.filter fun j => !inRange base top (s₁.base j) :=
        List.filter_congr fun j _ => by rw [hre.base_eq]
      rw [List.filter_cons_of_pos (by rw [hkeep]; rfl), List.filter_append, hnone, List.nil_append, hrest_eq]
      refine ⟨rfl, hi0, ?_⟩
      rw [hre'.next_eq index hir]
      exact hlinked'
    · intro j hj
      rcases List.mem_cons.1 hj with rfl | hj
      · exact List.mem_cons_self
      · exact List.mem_cons_of_mem _ (List.mem_append_left rest hj)
    · intro j hj
      exact List.mem_cons_of_mem _ (List.mem_append_right pre hj)

theorem inRange_sentinel (h0 : s.base 0 = 0) (hbase : 0 < base) : inRange base top (s.base 0) = false := by
  rw [h0]
  exact decide_eq_false fun hle => absurd hle.1 (BitVec.not_le.2 hbase)

/-- Both loops together: the frames in the range leave the chain, and nothing off the chain changes. -/
theorem filterOutPages_spec {free : List Nat} (h : Linked s.next 0 s.freeHead free) (h0 : s.base 0 = 0)
    (hbase : 0 < base) (hkept : ∃ i ∈ free, ¬(base ≤ s.base i ∧ s.base i < top)) :
    ∃ t, Returns (fun fuel => s.filterOutPages fuel base top) t ∧
      Linked t.next 0 t.freeHead (free.filter fun i => ¬(base ≤ s.base i ∧ s.base i < top)) ∧
      (∀ j, t.base j = s.base j) ∧ ∀ j, j ∉ free → t.next j = s.next j := by
  have hsome : (free.find? fun i => !inRange base top (s.base i)).isSome := by
    obtain ⟨i, hi, hout⟩ := hkept
    rw [List.find?_isSome]
    exact ⟨i, hi, by rw [not_inRange]; exact decide_eq_true hout⟩
  obtain ⟨i, hfind⟩ := Option.isSome_iff_exists.1 hsome
  obtain ⟨hi, pre, rest, rfl, hpre⟩ := List.find?_eq_some_iff_append.1 hfind
  replace hi : inRange base top (s.base i) = false := by simpa using hi
  replace hpre : ∀ j ∈ pre, inRange base top (s.base j) = true := fun j hj => by simpa using hpre j hj
  have hchain : Linked s.next 0 i (i :: rest) := ⟨rfl, h.ne_nil_of_mem (by simp), h.drop pre⟩
  have hfilter : (pre ++ i :: rest).filter (fun i => ¬(base ≤ s.base i ∧ s.base i < top)) =
      (i :: rest).filter fun j => !inRange base top (s.base j) := by
    rw [List.filter_append, List.filter_eq_nil_iff.2, List.nil_append]
    · exact List.filter_congr fun j _ => (not_inRange base top (s.base j)).symm
    · intro j hj
      rw [← not_inRange, hpre j hj]
      decide
  obtain ⟨t, hrun, hlinked, hre⟩ := @filterRest_spec base top _ (i :: rest) { s with freeHead := i } i le_rfl hchain
    hi (inRange_sentinel h0 hbase)
  refine ⟨t, .of_le (pre.length + (i :: rest).length + 2) fun fuel hf => ?_, ?_, hre.base_eq, fun j hj => ?_⟩
  · rw [filterOutPages, filterHead_spec h hpre hi (by omega)]
    exact hrun fuel (by omega)
  · rw [hre.freeHead_eq, hfilter]
    exact hlinked
  · exact hre.next_eq j fun hm => hj (List.mem_append_right pre hm)

/-- **`filter_out_pages` is a filter.** On a chain with a frame outside the range, and a sentinel below it, it
returns, and the chain from the head is then the one before without the frames in the range. -/
theorem filter_out_pages_filters {s : Frames} {base top : Word} {free : List Nat} (h : Linked s.next 0 s.freeHead free)
    (h0 : s.base 0 = 0) (hbase : 0 < base) (hkept : ∃ i ∈ free, ¬(base ≤ s.base i ∧ s.base i < top)) :
    ∃ t, Returns (fun fuel => s.filterOutPages fuel base top) t ∧
      Linked t.next 0 t.freeHead (free.filter fun i => ¬(base ≤ s.base i ∧ s.base i < top)) ∧
      ∀ j, t.base j = s.base j := by
  obtain ⟨t, hrun, hlinked, hbases, -⟩ := filterOutPages_spec h h0 hbase hkept
  exact ⟨t, hrun, hlinked, hbases⟩

/-- Four frames at 0x1000 to 0x4000, without the two in the middle. -/
theorem filter_out_pages_filters_middle :
    ∃ t, Returns (fun fuel => filterOutPages fuel 0x2000 0x4000
        ⟨fun i => ⟨BitVec.ofNat 64 (i * 4096), if i < 4 then i + 1 else 0⟩, 1, 4, 0, 0⟩) t ∧
      Linked t.next 0 t.freeHead [1, 4] := by
  obtain ⟨t, hrun, hchain, -⟩ := @filter_out_pages_filters
    ⟨fun i => ⟨BitVec.ofNat 64 (i * 4096), if i < 4 then i + 1 else 0⟩, 1, 4, 0, 0⟩ 0x2000 0x4000 [1, 2, 3, 4]
    ⟨rfl, by decide, rfl, by decide, rfl, by decide, rfl, by decide, rfl⟩ rfl (by decide) ⟨1, by decide, by decide⟩
  exact ⟨t, hrun, hchain⟩

end Frames
end Sbuos
