import Sbuos.Frames
/-!
# The frame inventory built at boot (sys/main.c:20-26, sys/memory_helpers.c:139-158, :216-229)

`start` calls `make_pages` once for each available region of the memory map. A node's `base` is
written through the pointer `physfree`, which runs on from call to call; its `next` is linked through
`list_index`, which every call starts at 1 again. So the call for a later region relinks the nodes of
the first one: after the boot the free chain is `1, 2, …, n` with `n` the number of pages the *last*
region starts, whatever lies before it (`BootInv`, `startSmap_spec`).
-/
namespace Sbuos
open Lib

/-- `smap_t` (main.c:14-17). -/
structure SmapEntry where
  base : Word
  length : Word
  type : BitVec 32

/-- `init_pages` (memory_helpers.c:139-158): the slot `physfree` then points at, and the lists. -/
def initPages (s : Frames) : Nat × Frames :=
  (1, ⟨Function.update s.pageList 0 ⟨0, 0⟩, 0, 0, 0, 0⟩)

/-- The loop of `make_pages`; `page` is the slot `physfree` points at. -/
def makePagesLoop : Nat → Word → Word → Nat → Nat → Frames → Option (Nat × Frames)
  | 0, _, _, _, _, _ => none
  | fuel + 1, index, top, page, listIndex, s =>
    if index < top then
      let (pageList, freeHead, freeTail) :=
        queuePage (setBase s.pageList page index) s.freeHead s.freeTail listIndex
      makePagesLoop fuel (index + 4096) top (page + 1) (listIndex + 1)
        { s with pageList, freeHead, freeTail }
    else some (page, s)

/-- `make_pages` (memory_helpers.c:216-229). -/
def makePages (fuel : Nat) (base length : Word) (physfree : Nat) (s : Frames) : Option (Nat × Frames) :=
  if base = 0 then some (physfree, s)
  else makePagesLoop fuel base (base + length) physfree 1 s

/-- The loop of `start` over the memory map (main.c:21-26). -/
def startSmap (fuel : Nat) : List SmapEntry → Nat → Frames → Option (Nat × Frames)
  | [], physfree, s => some (physfree, s)
  | smap :: rest, physfree, s =>
    if smap.type = 1 ∧ smap.length ≠ 0 then do
      let (physfree, s) ← makePages fuel smap.base smap.length physfree s
      startSmap fuel rest physfree s
    else startSmap fuel rest physfree s

/-- `init_pages` and the loop. -/
def bootFrames (fuel : Nat) (smaps : List SmapEntry) (s : Frames) : Option (Nat × Frames) :=
  startSmap fuel smaps (initPages s).1 (initPages s).2

/-- The fuel only decides whether the boot ends, not with what. -/
theorem makePagesLoop_fuel : ∀ (f f' : Nat) (index top : Word) (page li : Nat) (s : Frames) {r r' : Nat × Frames},
    makePagesLoop f index top page li s = some r → makePagesLoop f' index top page li s = some r' → r = r'
  | 0, _, _, _, _, _, _, _, _, h, _ => by simp [makePagesLoop] at h
  | _ + 1, 0, _, _, _, _, _, _, _, _, h' => by simp [makePagesLoop] at h'
  | f + 1, f' + 1, index, top, page, li, s, r, r', h, h' => by
    simp only [makePagesLoop] at h h'
    by_cases hi : index < top
    · simp only [hi, if_true] at h h'
      exact makePagesLoop_fuel f f' _ _ _ _ _ h h'
    · simp only [hi, if_false] at h h'
      exact Option.some.inj (h.symm.trans h')

theorem startSmap_fuel (f f' : Nat) : ∀ (smaps : List SmapEntry) (physfree : Nat) (s : Frames) {r r' : Nat × Frames},
    startSmap f smaps physfree s = some r → startSmap f' smaps physfree s = some r' → r = r'
  | [], _, _, _, _, h, h' => Option.some.inj (h.symm.trans h')
  | smap :: rest, physfree, s, r, r', h, h' => by
    simp only [startSmap] at h h'
    by_cases ht : smap.type = 1 ∧ smap.length ≠ 0
    · rw [if_pos ht] at h h'
      obtain ⟨q, e, h⟩ := Option.bind_eq_some_iff.1 h
      obtain ⟨q', e', h'⟩ := Option.bind_eq_some_iff.1 h'
      obtain rfl : q = q' := by
        unfold makePages at e e'
        split at e
        · rw [if_pos ‹_›] at e'
          exact Option.some.inj (e.symm.trans e')
        · rw [if_neg ‹_›] at e'
          exact makePagesLoop_fuel f f' _ _ _ _ _ e e'
      exact startSmap_fuel f f' rest _ _ h h'
    · rw [if_neg ht] at h h'
      exact startSmap_fuel f f' rest _ _ h h'

namespace SmapEntry

/-- First address after the region, unwrapped. -/
def top (r : SmapEntry) : Nat := r.base.toNat + r.length.toNat

/-- Whole pages in the region, and pages the loop starts in it. -/
def whole (r : SmapEntry) : Nat := r.length.toNat / 4096
def started (r : SmapEntry) : Nat := (r.length.toNat + 4095) / 4096

/-- An available region of the address space with a page-aligned base. -/
structure Valid (r : SmapEntry) : Prop where
  type_eq : r.type = 1
  length_ne : r.length ≠ 0
  aligned : r.base.toNat % 4096 = 0
  top_le : r.top ≤ 2 ^ 64

/-- Pages the loop visits, each with whether it lies in the region as a whole. A region that ends
with the address space wraps its end to 0 and gets none. -/
def pages (r : SmapEntry) : List (Word × Bool) :=
  if r.top = 2 ^ 64 then []
  else (List.range r.started).map fun i => (r.base + BitVec.ofNat 64 (4096 * i), decide (i < r.whole))

end SmapEntry

/-! ## What the boot leaves behind -/

/-- Nodes `1 …` hold `bases`, `physfree` points behind them, the free chain is `1 … n`. -/
structure BootInv (s : Frames) (physfree : Nat) (bases : List Word) (n : Nat) : Prop where
  physfree_eq : physfree = bases.length + 1
  base_eq : ∀ i (h : i < bases.length), s.base (i + 1) = bases[i]
  n_le : n ≤ bases.length
  chain : Linked s.next 0 s.freeHead (List.range' 1 n)
  tail : s.freeTail = n

theorem BootInv.init (s : Frames) : BootInv (initPages s).2 (initPages s).1 [] 0 :=
  ⟨rfl, fun _ h => by simp at h, by simp, rfl, rfl⟩

/-- One turn of the loop: the base goes behind the others; `m` is the chain's new length. -/
theorem BootInv.queue {s : Frames} {physfree n m : Nat} {bases : List Word} (h : BootInv s physfree bases n)
    (b : Word) (hm : m ≤ bases.length + 1) {p : Nat → MemPage} {head tail idx : Nat}
    (hq : queuePage (setBase s.pageList physfree b) s.freeHead s.freeTail idx = (p, head, tail))
    (hc : Linked (fun j => (p j).next) 0 head (List.range' 1 m)) (ht : tail = m) :
    BootInv { s with pageList := p, freeHead := head, freeTail := tail } (physfree + 1) (bases ++ [b]) m := by
  have hb : ∀ j, (p j).base = (setBase s.pageList physfree b j).base := by
    intro j
    have := queuePage_base (setBase s.pageList physfree b) s.freeHead s.freeTail idx j
    rw [hq] at this
    exact this
  refine ⟨by rw [h.physfree_eq]; simp, fun i hi => ?_, by simpa using hm, hc, ht⟩
  simp only [Frames.base, hb, setBase_base, h.physfree_eq]
  by_cases he : i = bases.length
  · subst he; simp
  · have hlt : i < bases.length := by simp at hi; omega
    rw [if_neg (by omega), List.getElem_append_left hlt]
    exact h.base_eq i hlt

/-- The first page of a region: `list_index` is 1 whatever the chain was, and cuts it down to node 1. -/
theorem BootInv.queue_one {s : Frames} {physfree n : Nat} {bases : List Word} (h : BootInv s physfree bases n)
    (b : Word) {p : Nat → MemPage} {head tail : Nat}
    (hq : queuePage (setBase s.pageList physfree b) s.freeHead s.freeTail 1 = (p, head, tail)) :
    BootInv { s with pageList := p, freeHead := head, freeTail := tail } (physfree + 1) (bases ++ [b]) 1 := by
  have hc := h.chain
  have ht := h.tail
  refine h.queue b (by omega) hq ?_ ?_
  · cases n with
    | zero =>
      have hh : s.freeHead = 0 := hc
      simp only [queuePage, hh, ht, and_self, if_true, Prod.mk.injEq] at hq
      obtain ⟨rfl, rfl, -⟩ := hq
      rw [setNext_next]
      exact Linked.singleton (by decide)
    | succ n =>
      obtain ⟨hh, -, -⟩ := hc
      simp only [queuePage, hh, ht, Nat.add_eq_zero_iff, Nat.succ_ne_self, and_false, if_false, Prod.mk.injEq] at hq
      obtain ⟨rfl, rfl, -⟩ := hq
      rw [setNext_next]
      exact Linked.singleton (by decide)
  · rw [← queuePage_tail (setBase s.pageList physfree b) s.freeHead s.freeTail 1, hq]

/-- A later page of the region extends the chain by one. -/
theorem BootInv.queue_next {s : Frames} {physfree n : Nat} {bases : List Word} (h : BootInv s physfree bases n)
    (b : Word) {p : Nat → MemPage} {head tail : Nat}
    (hq : queuePage (setBase s.pageList physfree b) s.freeHead s.freeTail (n + 1) = (p, head, tail)) :
    BootInv { s with pageList := p, freeHead := head, freeTail := tail } (physfree + 1) (bases ++ [b]) (n + 1) := by
  have hnl := h.n_le
  have htail : s.freeTail = (List.range' 1 n).getLast?.getD 0 := by
    rw [h.tail]
    cases n with
    | zero => rfl
    | succ k => rw [List.range'_1_concat, List.getLast?_concat, Option.getD_some, Nat.add_comm]
  have hchain : Linked (fun j => (setBase s.pageList physfree b j).next) 0 s.freeHead (List.range' 1 n) := by
    simp only [setBase_next]
    exact h.chain
  have hqueued := queuePage_linked hchain htail (Nat.succ_ne_zero n) (by simp [List.mem_range'_1]; omega)
  have hend := queuePage_tail (setBase s.pageList physfree b) s.freeHead s.freeTail (n + 1)
  rw [hq] at hqueued hend
  refine h.queue b (by omega) hq ?_ hend
  rw [List.range'_1_concat, Nat.add_comm 1 n]
  exact hqueued

/-- The addresses the loop still visits. -/
def pagesFrom (index : Word) (k : Nat) : List Word :=
  (List.range k).map fun i => index + BitVec.ofNat 64 (4096 * i)

theorem pagesFrom_succ (index : Word) (k : Nat) : pagesFrom index (k + 1) = index :: pagesFrom (index + 4096) k := by
  simp only [pagesFrom, List.range_succ_eq_map, List.map_cons, List.map_map, Nat.mul_zero, BitVec.ofNat_eq_ofNat,
    BitVec.add_zero]
  refine congrArg _ (List.map_congr_left fun i _ => ?_)
  simp only [Function.comp, Nat.succ_eq_add_one, Nat.mul_add, Nat.mul_one, BitVec.ofNat_add]
  rw [BitVec.add_assoc, BitVec.add_comm (BitVec.ofNat 64 (4096 * i))]

/-- The loop, `k` turns before its end, in the middle of a region. -/
theorem makePagesLoop_spec (top : Word) : ∀ (k fuel : Nat) (index : Word) (physfree n : Nat) (s : Frames)
    (bases : List Word), BootInv s physfree bases n → 0 < n → k < fuel → top.toNat + 4096 ≤ 2 ^ 64 →
    top.toNat ≤ index.toNat + 4096 * k → (0 < k → index.toNat + 4096 * (k - 1) < top.toNat) →
    ∃ s', makePagesLoop fuel index top physfree (n + 1) s = some (physfree + k, s') ∧
      BootInv s' (physfree + k) (bases ++ pagesFrom index k) (n + k)
  | 0, fuel + 1, index, physfree, n, s, bases, h, _, _, _, hle, _ => by
    have hlt : ¬ index < top := by rw [BitVec.lt_def]; omega
    exact ⟨s, by simp [makePagesLoop, hlt], by simpa [pagesFrom] using h⟩
  | k + 1, fuel + 1, index, physfree, n, s, bases, h, hn, hf, htop, hle, hlt => by
    have hlt' := hlt (by omega)
    have hi : index < top := by rw [BitVec.lt_def]; omega
    simp only [makePagesLoop, hi, if_true]
    generalize hq : queuePage (setBase s.pageList physfree index) s.freeHead s.freeTail (n + 1) = q
    obtain ⟨p, head, tail⟩ := q
    have hnext : (index + 4096).toNat = index.toNat + 4096 := by
      rw [BitVec.toNat_add]
      exact Nat.mod_eq_of_lt (by simp; omega)
    obtain ⟨s', e, h'⟩ := makePagesLoop_spec top k fuel (index + 4096) (physfree + 1) (n + 1) _ _
      (h.queue_next index hq) (by omega) (by omega) htop (by omega) (by omega)
    refine ⟨s', ?_, ?_⟩
    · rw [show physfree + (k + 1) = physfree + 1 + k by omega]; exact e
    · rw [pagesFrom_succ, show physfree + (k + 1) = physfree + 1 + k by omega,
        show n + (k + 1) = n + 1 + k by omega]
      simpa using h'
  | 0, 0, _, _, _, _, _, _, _, hf, _, _, _ => by simp at hf
  | _ + 1, 0, _, _, _, _, _, _, _, hf, _, _, _ => by simp at hf

/-- A region whose end lies inside the last page of the address space: the address wraps below the
end, so the loop never stops. -/
theorem makePagesLoop_diverges (top : Word) (htop : 2 ^ 64 < top.toNat + 4096) : ∀ (fuel : Nat) (index : Word)
    (physfree li : Nat) (s : Frames), index.toNat % 4096 = 0 → makePagesLoop fuel index top physfree li s = none
  | 0, _, _, _, _, _ => rfl
  | fuel + 1, index, physfree, li, s, ha => by
    have hlt : index < top := by
      rw [BitVec.lt_def]
      have := index.isLt
      omega
    have hnext : (index + 4096).toNat % 4096 = 0 := by
      rw [BitVec.toNat_add]
      simp
      omega
    simp only [makePagesLoop, hlt, if_true]
    exact makePagesLoop_diverges top htop fuel _ _ _ _ hnext

/-- The free chain's length after a region. -/
def SmapEntry.relink (n : Nat) (r : SmapEntry) : Nat :=
  if r.base = 0 ∨ r.pages = [] then n else r.pages.length

theorem SmapEntry.pages_of_top {r : SmapEntry} (h : r.top + 4096 ≤ 2 ^ 64) :
    r.pages.map Prod.fst = pagesFrom r.base r.started := by
  have htop : r.top ≠ 2 ^ 64 := by omega
  rw [SmapEntry.pages, if_neg htop, List.map_map]
  rfl

theorem SmapEntry.Valid.length_pos {r : SmapEntry} (h : r.Valid) : 0 < r.length.toNat := by
  have h0 := h.length_ne
  rw [Ne, ← BitVec.toNat_inj] at h0
  simp at h0
  omega

theorem SmapEntry.Valid.started_pos {r : SmapEntry} (h : r.Valid) : 0 < r.started := by
  have := h.length_pos
  unfold SmapEntry.started
  omega

/-- **One call of `make_pages`** on a region that does not end inside the last page. -/
theorem makePages_spec {r : SmapEntry} (hv : r.Valid) (htop : r.base ≠ 0 → r.top = 2 ^ 64 ∨ r.top + 4096 ≤ 2 ^ 64)
    {s : Frames} {physfree n : Nat} {bases : List Word} (h : BootInv s physfree bases n) {fuel : Nat}
    (hf : r.started < fuel) :
    ∃ physfree' s', makePages fuel r.base r.length physfree s = some (physfree', s') ∧
      BootInv s' physfree' (bases ++ if r.base = 0 then [] else r.pages.map Prod.fst) (r.relink n) := by
  unfold makePages
  by_cases hb : r.base = 0
  · simp only [hb, if_true]
    exact ⟨_, _, rfl, by simpa [SmapEntry.relink, hb] using h⟩
  simp only [hb, if_false]
  replace htop := htop hb
  obtain ⟨fuel, rfl⟩ : ∃ f, fuel = f + 1 := ⟨fuel - 1, by omega⟩
  rcases htop with htop | htop
  · -- the end wraps to 0 and the loop does not start
    have hp : r.pages = [] := by simp [SmapEntry.pages, htop]
    have hend : ¬ r.base < r.base + r.length := by
      rw [BitVec.lt_def, BitVec.toNat_add, show r.base.toNat + r.length.toNat = 2 ^ 64 from htop]
      simp
    exact ⟨physfree, s, by simp [makePagesLoop, hend], by simpa [SmapEntry.relink, hp] using h⟩
  · have hpages := SmapEntry.pages_of_top htop
    have hpos := hv.started_pos
    have hlen : r.pages.length = r.started := by
      have := congrArg List.length hpages
      simpa [pagesFrom] using this
    have hend : (r.base + r.length).toNat = r.top := by
      rw [BitVec.toNat_add]
      exact Nat.mod_eq_of_lt (by unfold SmapEntry.top at htop; omega)
    have htopdef : r.top = r.base.toNat + r.length.toNat := rfl
    have hstarted : r.started = (r.length.toNat + 4095) / 4096 := rfl
    have hlpos := hv.length_pos
    have hlt : r.base < r.base + r.length := by rw [BitVec.lt_def, hend]; omega
    simp only [makePagesLoop, hlt, if_true]
    generalize hq : queuePage (setBase s.pageList physfree r.base) s.freeHead s.freeTail 1 = q
    obtain ⟨p, head, tail⟩ := q
    have hnext : (r.base + 4096).toNat = r.base.toNat + 4096 := by
      rw [BitVec.toNat_add]
      exact Nat.mod_eq_of_lt (by simp; omega)
    obtain ⟨s', e, h'⟩ := makePagesLoop_spec (r.base + r.length) (r.started - 1) fuel (r.base + 4096)
      (physfree + 1) 1 _ _ (h.queue_one r.base hq) (by omega) (by omega) (by omega) (by omega) (by omega)
    refine ⟨_, s', e, ?_⟩
    obtain ⟨k, hk⟩ : ∃ k, r.started = k + 1 := ⟨r.started - 1, by omega⟩
    have hne : r.pages ≠ [] := fun e0 => by rw [e0] at hlen; simp at hlen; omega
    rw [hpages, hk, pagesFrom_succ]
    simp only [SmapEntry.relink, hb, hne, or_self, if_false, hlen, hk]
    rw [hk, Nat.add_sub_cancel, List.append_assoc, Nat.add_comm 1 k] at h'
    exact h'

/-- Pages of the regions `make_pages` does not skip. -/
def bootPages (rs : List SmapEntry) : List (Word × Bool) :=
  (rs.filter fun r => r.base ≠ 0).flatMap SmapEntry.pages

theorem bootPages_cons (r : SmapEntry) (rs : List SmapEntry) :
    bootPages (r :: rs) = (if r.base = 0 then [] else r.pages) ++ bootPages rs := by
  by_cases hb : r.base = 0
  · simp [bootPages, hb]
  · rw [bootPages, List.filter_cons_of_pos (by simpa using hb), List.flatMap_cons, if_neg hb]
    rfl

theorem startSmap_spec {fuel : Nat} : ∀ (rs : List SmapEntry), (∀ r ∈ rs, r.Valid ∧ r.started < fuel ∧
      (r.base ≠ 0 → r.top = 2 ^ 64 ∨ r.top + 4096 ≤ 2 ^ 64)) →
    ∀ {s : Frames} {physfree n : Nat} {bases : List Word}, BootInv s physfree bases n →
    ∃ physfree' s', startSmap fuel rs physfree s = some (physfree', s') ∧
      BootInv s' physfree' (bases ++ (bootPages rs).map Prod.fst) (rs.foldl SmapEntry.relink n)
  | [], _, s, physfree, n, bases, h => ⟨_, _, rfl, by simpa [bootPages] using h⟩
  | r :: rs, hrs, s, physfree, n, bases, h => by
    obtain ⟨hv, hf, htop⟩ := hrs r List.mem_cons_self
    obtain ⟨p1, s1, e1, h1⟩ := makePages_spec hv htop h hf
    obtain ⟨p2, s2, e2, h2⟩ := startSmap_spec rs (fun r hr => hrs r (List.mem_cons_of_mem _ hr)) h1
    refine ⟨p2, s2, ?_, ?_⟩
    · simp only [startSmap, hv.type_eq, hv.length_ne, ne_eq, not_false_eq_true, and_self, if_true, e1,
        Option.bind_eq_bind, Option.bind_some, e2]
    · rw [bootPages_cons, List.map_append, ← List.append_assoc, apply_ite (List.map Prod.fst)]
      exact h2

theorem startSmap_diverges {fuel : Nat} : ∀ (rs : List SmapEntry), (∀ r ∈ rs, r.Valid) →
    (∃ r ∈ rs, r.base ≠ 0 ∧ r.top ≠ 2 ^ 64 ∧ 2 ^ 64 < r.top + 4096) →
    ∀ (physfree : Nat) (s : Frames), startSmap fuel rs physfree s = none
  | [], _, h, _, _ => by simp at h
  | r :: rs, hrs, h, physfree, s => by
    have hv := hrs r List.mem_cons_self
    simp only [startSmap, hv.type_eq, hv.length_ne, ne_eq, not_false_eq_true, and_self, if_true,
      Option.bind_eq_bind]
    obtain ⟨r', hr', hb, hne, hlt⟩ := h
    rcases List.mem_cons.1 hr' with rfl | hr'
    · have hend : (r'.base + r'.length).toNat = r'.top := by
        rw [BitVec.toNat_add]
        have := hv.top_le
        exact Nat.mod_eq_of_lt (by unfold SmapEntry.top at *; omega)
      rw [makePages, if_neg hb, makePagesLoop_diverges _ (by omega) _ _ _ _ _ hv.aligned]
      rfl
    · cases makePages fuel r.base r.length physfree s with
      | none => rfl
      | some q =>
        exact startSmap_diverges rs (fun r hr => hrs r (List.mem_cons_of_mem _ hr)) ⟨r', hr', hb, hne, hlt⟩ _ _

end Sbuos
