import Mathlib.Data.List.Basic
import Sbuos.Boot
import Sbuos.FreeList
import Sbuos.Lib.Run
/-!
# The tail of the free list (sys/memory_helpers.c:36-64, :192-214)

`_free_page_list_tail` caches the last node of the free chain for `queue_page`, which appends there. Taking a
page and queueing one keep it. `filter_out_pages` moves the head and relinks the nodes, but never writes to the
tail: when it takes the last node off, the tail goes on naming it, and the next page queued is hung on a node
that no chain leads to.

**`free_list_keeps_tail`**: the tail is right along every run whose filters leave the last frame where it is.
-/
namespace Sbuos
open Lib

namespace Frames

/-- `queue_page` on the free list. -/
def queueFree (index : Nat) (s : Frames) : Frames :=
  let (pageList, freeHead, freeTail) := queuePage s.pageList s.freeHead s.freeTail index
  { s with pageList, freeHead, freeTail }

/-- Neither list has the node. -/
structure FreshNode (s : Frames) (i : Nat) : Prop where
  ne_zero : i ≠ 0
  not_free : ∀ free, Linked s.next 0 s.freeHead free → i ∉ free
  not_used : ∀ used, Linked s.next 0 s.usedHead used → i ∉ used

/-- Some frame of the free list lies outside the range. -/
def Survives (s : Frames) (base top : Word) : Prop :=
  ∃ free, Linked s.next 0 s.freeHead free ∧ ∃ i ∈ free, ¬(base ≤ s.base i ∧ s.base i < top)

inductive ListOp
  | queue (index : Nat) (base : Word)
  | take
  | filter (base top : Word)

/-- A page is queued once its base is stored, as in `make_pages`; pages are taken from a list that has one. -/
inductive ListStep : Frames → ListOp → Frames → Prop
  | queue {s : Frames} {index : Nat} (base : Word) : s.FreshNode index →
      ListStep s (.queue index base) (queueFree index { s with pageList := setBase s.pageList index base })
  | take {s : Frames} : s.freeHead ≠ 0 → ListStep s .take s.getFreePage.2
  | filter {s t : Frames} {base top : Word} : 0 < base → s.Survives base top →
      Returns (fun fuel => s.filterOutPages fuel base top) t → ListStep s (.filter base top) t

/-- The tail is the last node of the chain from the head, and 0 exactly if there is none; `queue_page` then puts
any fresh node behind all others. -/
structure TailKept (s : Frames) (free : List Nat) : Prop where
  chain : Linked s.next 0 s.freeHead free
  tail_eq : s.freeTail = free.getLast?.getD 0
  tail_eq_zero : s.freeTail = 0 ↔ free = []
  appends : ∀ i, s.FreshNode i → Linked (s.queueFree i).next 0 (s.queueFree i).freeHead (free ++ [i])

/-- The filter leaves the frame at the end of the free list. -/
def KeepsLast (s : Frames) : ListOp → Prop
  | .filter base top => ∀ free l, Linked s.next 0 s.freeHead (free ++ [l]) → ¬(base ≤ s.base l ∧ s.base l < top)
  | _ => True

/-! ## What an operation does to the two lists -/

variable {s t : Frames} {free used : List Nat} {i : Nat} {base top : Word}

/-- Both lists, the tail, and the base that ends the loops of `filter_out_pages`. -/
structure ListInv (s : Frames) (free used : List Nat) : Prop where
  lists : WF s free used
  tail_eq : s.freeTail = free.getLast?.getD 0
  sentinel : s.base 0 = 0

theorem ListInv.init (s : Frames) : ListInv (initPages s).2 [] [] where
  lists := ⟨rfl, rfl, by simp, rfl⟩
  tail_eq := rfl
  sentinel := by simp [initPages, Frames.base]

theorem FreshNode.not_mem (h : s.FreshNode i) (hi : ListInv s free used) : i ∉ free ∧ i ∉ used :=
  ⟨h.not_free free hi.lists.freeChain, h.not_used used hi.lists.usedChain⟩

/-- Storing a base moves no node. -/
theorem ListInv.setBase (h : ListInv s free used) (hi : i ≠ 0) (b : Word) :
    ListInv { s with pageList := setBase s.pageList i b } free used where
  lists := ⟨h.lists.freeChain.congr fun _ _ => setBase_next .., h.lists.usedChain.congr fun _ _ => setBase_next ..,
    h.lists.disjoint, h.lists.usedTail⟩
  tail_eq := h.tail_eq
  sentinel := by
    rw [Frames.base, setBase_base, if_neg hi.symm]
    exact h.sentinel

theorem ListInv.queue (h : ListInv s free used) (hi : i ≠ 0) (hf : i ∉ free) (hu : i ∉ used) :
    ListInv (s.queueFree i) (free ++ [i]) used where
  lists := by
    refine ⟨queuePage_linked h.lists.freeChain h.tail_eq hi hf, ?_, fun j hj => ?_, h.lists.usedTail⟩
    · refine h.lists.usedChain.congr fun j hj => queuePage_next_of_ne h.lists.freeChain h.tail_eq ?_ ?_
      · rintro rfl
        exact hu hj
      · exact fun hm => h.lists.disjoint j hm hj
    · rcases List.mem_append.1 hj with hj | hj
      · exact h.lists.disjoint j hj
      · rwa [List.mem_singleton.1 hj]
  tail_eq := by
    rw [List.getLast?_concat]
    exact queuePage_tail _ _ _ _
  sentinel := (queuePage_base ..).trans h.sentinel

theorem ListInv.take (h : ListInv s (i :: free) used) : ListInv s.getFreePage.2 free (used ++ [i]) where
  lists := (getFreePage_spec h.lists).2.1
  tail_eq := by
    obtain ⟨hhead, -, hrest⟩ := h.lists.freeChain
    have htail : s.getFreePage.2.freeTail = if s.next i = 0 then 0 else s.freeTail := by
      rw [← hhead]
      rfl
    rw [htail, h.tail_eq]
    cases free with
    | nil =>
      have hend : s.next i = 0 := hrest
      rw [if_pos hend]
      rfl
    | cons k free =>
      obtain ⟨hk, hk0, -⟩ := hrest
      rw [if_neg (hk ▸ hk0), List.getLast?_cons_cons]
  sentinel := ((getFreePage_spec h.lists).2.2 0).trans h.sentinel

theorem filterHead_ends {fuel : Nat} (h : filterHead fuel base top s = some t) :
    t.freeTail = s.freeTail ∧ t.usedHead = s.usedHead ∧ t.usedTail = s.usedTail := by
  induction fuel generalizing s with
  | zero => cases h
  | succ fuel ih =>
    rw [filterHead] at h
    split at h
    · dsimp only at h
      split at h
      · cases h
      · have hrest := ih h
        exact hrest
    · cases h
      exact ⟨rfl, rfl, rfl⟩

theorem unlinkRun_ends {fuel curr next : Nat} (h : unlinkRun fuel base top curr next s = some t) :
    t.freeTail = s.freeTail ∧ t.usedHead = s.usedHead ∧ t.usedTail = s.usedTail := by
  induction fuel generalizing s next with
  | zero => cases h
  | succ fuel ih =>
    rw [unlinkRun] at h
    split at h
    · have hrest := ih h
      exact hrest
    · cases h
      exact ⟨rfl, rfl, rfl⟩

theorem filterRest_ends {fuel index : Nat} (h : filterRest fuel base top index s = some t) :
    t.freeTail = s.freeTail ∧ t.usedHead = s.usedHead ∧ t.usedTail = s.usedTail := by
  induction fuel generalizing s index with
  | zero => cases h
  | succ fuel ih =>
    rw [filterRest] at h
    split at h
    · cases h
      exact ⟨rfl, rfl, rfl⟩
    · obtain ⟨u, hu, h⟩ := Option.bind_eq_some_iff.1 h
      obtain ⟨h1, h2, h3⟩ := unlinkRun_ends hu
      obtain ⟨h1', h2', h3'⟩ := ih h
      exact ⟨h1'.trans h1, h2'.trans h2, h3'.trans h3⟩

/-- A filter writes to none of the other list ends, and not to the tail either. -/
theorem filterOutPages_ends {fuel : Nat} (h : s.filterOutPages fuel base top = some t) :
    t.freeTail = s.freeTail ∧ t.usedHead = s.usedHead ∧ t.usedTail = s.usedTail := by
  obtain ⟨u, hu, h⟩ := Option.bind_eq_some_iff.1 h
  obtain ⟨h1, h2, h3⟩ := filterHead_ends hu
  obtain ⟨h1', h2', h3'⟩ := filterRest_ends h
  exact ⟨h1'.trans h1, h2'.trans h2, h3'.trans h3⟩

/-- The chains after a filter. -/
theorem ListInv.filtered (h : ListInv s free used) (hbase : 0 < base) (hkept : s.Survives base top)
    (hrun : Returns (fun fuel => s.filterOutPages fuel base top) t) :
    WF t (free.filter fun i => ¬(base ≤ s.base i ∧ s.base i < top)) used ∧ t.freeTail = s.freeTail ∧
      t.base 0 = 0 := by
  obtain ⟨xs, hxs, hsome⟩ := hkept
  obtain rfl := hxs.unique h.lists.freeChain
  obtain ⟨u, hrun', hchain, hbases, hframe⟩ := filterOutPages_spec hxs h.sentinel hbase hsome
  obtain rfl := hrun'.unique hrun
  obtain ⟨n, hn⟩ := hrun
  obtain ⟨htail, huh, hut⟩ := filterOutPages_ends (hn n (Nat.le_refl n))
  refine ⟨⟨hchain, ?_, fun j hj => h.lists.disjoint j (List.mem_of_mem_filter hj), hut.trans h.lists.usedTail⟩,
    htail, (hbases 0).trans h.sentinel⟩
  rw [huh]
  exact h.lists.usedChain.congr fun j hj => hframe j fun hm => h.lists.disjoint j hm hj

/-- **One filter** keeps the tail right exactly if it keeps the last frame. -/
theorem ListInv.filter_iff (h : ListInv s free used) (hbase : 0 < base) (hkept : s.Survives base top)
    (hrun : Returns (fun fuel => s.filterOutPages fuel base top) t) :
    ListInv t (free.filter fun i => ¬(base ≤ s.base i ∧ s.base i < top)) used ↔ s.KeepsLast (.filter base top) := by
  obtain ⟨hlists, htail, hsentinel⟩ := h.filtered hbase hkept hrun
  have hfree : free ≠ [] := by
    rintro rfl
    obtain ⟨xs, hxs, i, hi, -⟩ := hkept
    obtain rfl := hxs.unique h.lists.freeChain
    exact absurd hi List.not_mem_nil
  obtain ⟨xs, l, rfl⟩ := (List.eq_nil_or_concat' free).resolve_left hfree
  have hl0 : l ≠ 0 := h.lists.freeChain.ne_nil_of_mem (by simp)
  have hold : s.freeTail = l := by rw [h.tail_eq, List.getLast?_concat, Option.getD_some]
  constructor
  · -- the old tail is in the new chain, so it was kept
    rintro ⟨-, htail', -⟩ ys k hk
    obtain ⟨-, hlk⟩ := List.append_inj' (hk.unique h.lists.freeChain) rfl
    obtain rfl := (List.cons.inj hlk).1
    rw [htail, hold] at htail'
    have hlast : (((xs ++ [k]).filter fun i => ¬(base ≤ s.base i ∧ s.base i < top))).getLast? = some k := by
      cases hg : ((xs ++ [k]).filter fun i => ¬(base ≤ s.base i ∧ s.base i < top)).getLast? with
      | none => rw [hg] at htail'; exact absurd htail' hl0
      | some j => rw [hg] at htail'; exact congrArg some htail'.symm
    exact of_decide_eq_true (List.mem_filter.1 (List.mem_of_getLast? hlast)).2
  · intro hlast
    refine ⟨hlists, ?_, hsentinel⟩
    have hin : [l].filter (fun i => ¬(base ≤ s.base i ∧ s.base i < top)) = [l] :=
      List.filter_cons_of_pos (decide_eq_true (hlast xs l h.lists.freeChain))
    rw [htail, hold, List.filter_append, hin, List.getLast?_concat, Option.getD_some]

/-- Where the invariant holds the tail is right. -/
theorem ListInv.tailKept (h : ListInv s free used) : TailKept s free where
  chain := h.lists.freeChain
  tail_eq := h.tail_eq
  tail_eq_zero := by
    rw [h.tail_eq]
    rcases List.eq_nil_or_concat' free with rfl | ⟨xs, l, rfl⟩
    · simp
    · have hl0 : l ≠ 0 := h.lists.freeChain.ne_nil_of_mem (by simp)
      simpa using hl0
  appends i hi := queuePage_linked h.lists.freeChain h.tail_eq hi.ne_zero (hi.not_mem h).1

/-- Every operation keeps it, if a filter keeps the last frame. -/
theorem ListInv.step {op : ListOp} (h : ListInv s free used) (hop : s.KeepsLast op) (hs : ListStep s op t) :
    ∃ free' used', ListInv t free' used' := by
  cases hs with
  | queue base hfresh =>
    obtain ⟨hf, hu⟩ := hfresh.not_mem h
    exact ⟨_, _, (h.setBase hfresh.ne_zero base).queue hfresh.ne_zero hf hu⟩
  | take hne =>
    cases free with
    | nil => exact absurd h.lists.freeChain hne
    | cons i free => exact ⟨_, _, h.take⟩
  | filter hbase hkept hrun => exact ⟨_, _, (h.filter_iff hbase hkept hrun).2 hop⟩

/-- **The free list keeps its tail** in every run from `init_pages` whose filters keep the last frame. -/
theorem free_list_keeps_tail {s₀ : Frames} {ops : List ListOp}
    (hrun : Run (Guarded KeepsLast ListStep) (initPages s₀).2 ops s) : ∃ free, TailKept s free := by
  obtain ⟨free, used, h⟩ := hrun.invariant (fun s => ∃ free used, ListInv s free used) ⟨_, _, .init s₀⟩
    fun t op u ⟨free, used, h⟩ hs => h.step hs.1 hs.2
  exact ⟨free, h.tailKept⟩

/-! ## Two frames -/

/-- The lists once the frames at 0x1000 and 0x2000 are queued. -/
def twoQueued : Frames :=
  let s := (initPages ⟨fun _ => ⟨0, 0⟩, 0, 0, 0, 0⟩).2
  let s := queueFree 1 { s with pageList := setBase s.pageList 1 0x1000 }
  queueFree 2 { s with pageList := setBase s.pageList 2 0x2000 }

theorem twoQueued_inv : ListInv twoQueued [1, 2] [] := by
  have h₁ := ((ListInv.init ⟨fun _ => ⟨0, 0⟩, 0, 0, 0, 0⟩).setBase (i := 1) (by decide) 0x1000).queue (i := 1)
    (by decide) (by decide) (by decide)
  exact (h₁.setBase (i := 2) (by decide) 0x2000).queue (i := 2) (by decide) (by decide) (by decide)

theorem twoQueued_run (ok : Frames → ListOp → Prop) (hok : ∀ s i b, ok s (.queue i b)) :
    Run (Guarded ok ListStep) (initPages ⟨fun _ => ⟨0, 0⟩, 0, 0, 0, 0⟩).2 [.queue 1 0x1000, .queue 2 0x2000]
      twoQueued := by
  have h₀ := ListInv.init ⟨fun _ => ⟨0, 0⟩, 0, 0, 0, 0⟩
  have h₁ := (h₀.setBase (i := 1) (by decide) 0x1000).queue (i := 1) (by decide) (by decide) (by decide)
  refine .cons ⟨hok .., .queue _ ⟨by decide, fun free hf => ?_, fun used hu => ?_⟩⟩
    (.single ⟨hok .., .queue _ ⟨by decide, fun free hf => ?_, fun used hu => ?_⟩⟩)
  · rw [hf.unique h₀.lists.freeChain]
    decide
  · rw [hu.unique h₀.lists.usedChain]
    decide
  · rw [hf.unique h₁.lists.freeChain]
    decide
  · rw [hu.unique h₁.lists.usedChain]
    decide

/-- One of the two stays, whichever is filtered out. -/
theorem twoQueued_survives {base top : Word} (h : ¬(base ≤ 0x1000 ∧ (0x1000 : Word) < top) ∨
    ¬(base ≤ 0x2000 ∧ (0x2000 : Word) < top)) : twoQueued.Survives base top :=
  ⟨_, twoQueued_inv.lists.freeChain, h.elim (fun h => ⟨1, by decide, h⟩) fun h => ⟨2, by decide, h⟩⟩

/-- Without the frame at 0x1000. -/
theorem free_list_keeps_tail_first :
    ∃ ops s free, Run (Guarded KeepsLast ListStep) (initPages ⟨fun _ => ⟨0, 0⟩, 0, 0, 0, 0⟩).2 ops s ∧
      ListOp.filter 0x1000 0x2000 ∈ ops ∧ TailKept s free := by
  have hstays : ∃ i ∈ [1, 2], ¬((0x1000 : Word) ≤ twoQueued.base i ∧ twoQueued.base i < 0x2000) :=
    ⟨2, by decide, by decide⟩
  obtain ⟨t, hrun, -⟩ := filterOutPages_spec twoQueued_inv.lists.freeChain twoQueued_inv.sentinel (by decide) hstays
  have hkeeps : twoQueued.KeepsLast (.filter 0x1000 0x2000) := by
    intro free l h
    have hchain : Linked twoQueued.next 0 twoQueued.freeHead ([1] ++ [2]) := twoQueued_inv.lists.freeChain
    obtain ⟨-, hl⟩ := List.append_inj' (h.unique hchain) rfl
    obtain rfl := (List.cons.inj hl).1
    decide
  have hall := (twoQueued_run KeepsLast fun _ _ _ => trivial).snoc
    ⟨hkeeps, .filter (by decide) (twoQueued_survives (.inr (by decide))) hrun⟩
  obtain ⟨free, h⟩ := free_list_keeps_tail hall
  exact ⟨_, t, free, hall, by simp, h⟩

/-- Without the frame at 0x2000 the tail still names its node, and a third frame is queued behind that. -/
theorem free_list_loses_tail :
    ∃ ops s, Run ListStep (initPages ⟨fun _ => ⟨0, 0⟩, 0, 0, 0, 0⟩).2 ops s ∧ (¬∃ free, TailKept s free) ∧
      Linked s.next 0 s.freeHead [1] ∧ s.freeTail = 2 ∧ Linked (s.queueFree 3).next 0 (s.queueFree 3).freeHead [1] := by
  have hkept : twoQueued.Survives 0x2000 0x3000 := twoQueued_survives (.inl (by decide))
  have hstays : ∃ i ∈ [1, 2], ¬((0x2000 : Word) ≤ twoQueued.base i ∧ twoQueued.base i < 0x3000) :=
    ⟨1, by decide, by decide⟩
  obtain ⟨t, hrun, hchain, -, -⟩ :=
    filterOutPages_spec twoQueued_inv.lists.freeChain twoQueued_inv.sentinel (by decide) hstays
  replace hchain : Linked t.next 0 t.freeHead [1] := hchain
  obtain ⟨-, htail, -⟩ := twoQueued_inv.filtered (by decide) hkept hrun
  replace htail : t.freeTail = 2 := htail
  have hall : Run ListStep _ _ t := ((twoQueued_run (fun _ _ => True) fun _ _ _ => trivial).mono
    fun _ _ _ hs => hs.2).snoc (.filter (by decide) hkept hrun)
  refine ⟨_, t, hall, ?_, hchain, htail, ?_⟩
  · rintro ⟨free, h⟩
    have hlast := h.tail_eq
    rw [h.chain.unique hchain, htail] at hlast
    cases hlast
  · have hhead : (t.queueFree 3).freeHead = t.freeHead := by simp [queueFree, queuePage, htail]
    have hnext : ∀ j ∈ [1], (t.queueFree 3).next j = t.next j := by
      intro j hj
      obtain rfl := List.mem_singleton.1 hj
      simp [queueFree, queuePage, htail, Frames.next, setNext]
    rw [hhead]
    exact hchain.congr hnext

end Frames
end Sbuos
