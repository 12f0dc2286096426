import Sbuos.MapPage
import Sbuos.UserHeap
import Sbuos.Lib.Run
/-!
# Kernel allocations (sys/memory_helpers.c:116-136, :254-269)

Three functions take pages off one cursor, `_available_virt_mem`: `get_new_page_v` and `get_new_page_table` a
page a call, `kmalloc` a page whenever the one it fills is used up. The cursor only grows, and the page that
`kmalloc` fills lies below it: what was handed out in that page lies below the fill index, everything else
outside it.

**`kernel_allocations_disjoint`**: whatever the order of calls and sizes, no two allocations overlap.
-/
namespace Sbuos
open Lib

/-- Memory and the globals of the kernel's allocators (memory_helpers.c:16-19). `mapped` records the addresses
that `map_page` was called with; no function reads it. -/
structure KernelMem where
  vm : Vm
  availableVirtMem : Word
  kmallocPage : Word
  kmallocIndex : Word
  mapped : List Word

/-- `copy_kernel_pml4` (memory_helpers.c:21-28). -/
def Vm.copyKernelPml4 (progPageTable : Word) (s : Vm) : Option Vm :=
  indices.foldlM (fun s i => do
    let e ← s.read (slot pml4Addr (i.setWidth 64))
    s.write (slot progPageTable (i.setWidth 64)) e) s

namespace KernelMem

/-- `get_free_page`, and `map_page` of that frame at the cursor, which it moves on; the frame's base. The pid is
only registered. -/
def takePage (flags : Word) (s : KernelMem) : Option (Word × KernelMem) := do
  let r := s.vm.getFreePage
  let (vm, next) ← r.2.mapPage r.1 s.availableVirtMem flags
  some (r.1, { s with vm := vm, availableVirtMem := next, mapped := s.availableVirtMem :: s.mapped })

/-- `get_new_page_v` (memory_helpers.c:116-122). -/
def getNewPageV (s : KernelMem) : Option (Word × KernelMem) := do
  let temp := s.availableVirtMem
  let (_, s) ← s.takePage (present ||| readWrite ||| userAccessible)
  some (temp, s)

/-- `kmalloc` (memory_helpers.c:124-136). -/
def kmalloc (noBytes : Word) (s : KernelMem) : Option (Word × KernelMem) :=
  if noBytes > BitVec.ofNat 64 pageSize then some (0, s)
  else do
    let s ← if s.kmallocPage = 0 ∨ s.kmallocIndex + noBytes ≥ BitVec.ofNat 64 pageSize then
        (s.takePage (present ||| readWrite)).map fun r =>
          { r.2 with kmallocPage := s.availableVirtMem, kmallocIndex := 0 }
      else some s
    some (s.kmallocPage + s.kmallocIndex, { s with kmallocIndex := s.kmallocIndex + noBytes })

/-- `get_new_page_table` (memory_helpers.c:254-269): the physical address of the table. -/
def getNewPageTable (s : KernelMem) : Option (Word × KernelMem) := do
  let temp := s.availableVirtMem
  let (base, s) ← s.takePage (present ||| readWrite ||| userAccessible)
  let vm ← s.vm.zeroOut temp
  let vm ← vm.copyKernelPml4 temp
  let vm ← vm.write (Vm.slot temp 510) (base ||| present ||| readWrite ||| userAccessible)
  some (base, { s with vm := vm })

/-! ## Calls and what they hand out -/

inductive Op
  | kmalloc (noBytes : Word)
  | getNewPageV
  | getNewPageTable

/-- One call, with the region it hands out: `n` bytes, or the page it takes. -/
def Step (s : KernelMem) (c : Op × Block) (s' : KernelMem) : Prop :=
  match c.1 with
  | .kmalloc n => s.kmalloc n = some (c.2.addr, s') ∧ c.2.size = n
  | .getNewPageV => s.getNewPageV = some (c.2.addr, s') ∧ c.2.size = BitVec.ofNat 64 pageSize
  | .getNewPageTable => (∃ base, s.getNewPageTable = some (base, s')) ∧
      c.2 = ⟨s.availableVirtMem, BitVec.ofNat 64 pageSize⟩

/-- A call for a page at most, on which the cursor does not wrap. -/
def Call (s : KernelMem) (c : Op × Block) (s' : KernelMem) : Prop :=
  (∀ n, c.1 = .kmalloc n → n ≤ BitVec.ofNat 64 pageSize) ∧ s.Step c s' ∧ s.availableVirtMem ≤ s'.availableVirtMem

/-- As the boot leaves it: the statics' initial values, and a cursor that whole pages from `kernmem` lead to
(memory_helpers.c:288-296, linker.script:4-5). -/
structure Booted (s : KernelMem) : Prop where
  aligned : Aligned s.availableVirtMem
  kmallocPage_eq : s.kmallocPage = 0
  mapped_eq : s.mapped = []

end KernelMem

def Block.Apart (b b' : Block) : Prop := ∀ a, b.Has a → ¬b'.Has a

/-- The block lies in the page at `v`. -/
def Block.Within (b : Block) (v : Word) : Prop :=
  Aligned v ∧ v.toNat ≤ b.addr.toNat ∧ b.addr.toNat + b.size.toNat ≤ v.toNat + pageSize

namespace KernelMem
variable {s s' : KernelMem} {b : Block} {bs : List Block} {phys flags n a : Word}

/-! ## What a call does to the cursor and the cached page -/

theorem mapPage_snd {vm vm' : Vm} {virt next : Word} (h : vm.mapPage phys virt flags = some (vm', next)) :
    next = virt + BitVec.ofNat 64 pageSize := by
  obtain ⟨⟨table, vm1⟩, -, h⟩ := Option.bind_eq_some_iff.1 h
  obtain ⟨vm2, -, h⟩ := Option.bind_eq_some_iff.1 h
  cases h
  rfl

/-- `s'` is `s` after the page at the cursor has been mapped, with whatever changed behind the addresses. -/
structure Advanced (s s' : KernelMem) : Prop where
  cursor : s'.availableVirtMem = s.availableVirtMem + BitVec.ofNat 64 pageSize
  mapped : s'.mapped = s.availableVirtMem :: s.mapped

theorem takePage_advanced (h : s.takePage flags = some (a, s')) :
    Advanced s s' ∧ s'.kmallocPage = s.kmallocPage ∧ s'.kmallocIndex = s.kmallocIndex := by
  obtain ⟨⟨vm, next⟩, hmap, h⟩ := Option.bind_eq_some_iff.1 h
  cases h
  exact ⟨⟨mapPage_snd hmap, rfl⟩, rfl, rfl⟩

theorem getNewPageV_advanced (h : s.getNewPageV = some (a, s')) :
    a = s.availableVirtMem ∧ Advanced s s' ∧ s'.kmallocPage = s.kmallocPage ∧ s'.kmallocIndex = s.kmallocIndex := by
  obtain ⟨⟨base, s1⟩, htake, h⟩ := Option.bind_eq_some_iff.1 h
  cases h
  exact ⟨rfl, takePage_advanced htake⟩

theorem getNewPageTable_advanced (h : s.getNewPageTable = some (a, s')) :
    Advanced s s' ∧ s'.kmallocPage = s.kmallocPage ∧ s'.kmallocIndex = s.kmallocIndex := by
  obtain ⟨⟨base, s1⟩, htake, h⟩ := Option.bind_eq_some_iff.1 h
  obtain ⟨vm1, -, h⟩ := Option.bind_eq_some_iff.1 h
  obtain ⟨vm2, -, h⟩ := Option.bind_eq_some_iff.1 h
  obtain ⟨vm3, -, h⟩ := Option.bind_eq_some_iff.1 h
  cases h
  obtain ⟨hadv, hpage, hindex⟩ := takePage_advanced htake
  exact ⟨⟨hadv.cursor, hadv.mapped⟩, hpage, hindex⟩

/-- `kmalloc` goes on in its page or starts one at the cursor. -/
theorem kmalloc_cases (hn : n ≤ BitVec.ofNat 64 pageSize) (h : s.kmalloc n = some (a, s')) :
    (s.kmallocPage ≠ 0 ∧ s.kmallocIndex + n < BitVec.ofNat 64 pageSize ∧ a = s.kmallocPage + s.kmallocIndex ∧
      s' = { s with kmallocIndex := s.kmallocIndex + n }) ∨
    (a = s.availableVirtMem ∧ Advanced s s' ∧ s'.kmallocPage = s.availableVirtMem ∧ s'.kmallocIndex = n) := by
  unfold kmalloc at h
  rw [if_neg (BitVec.not_lt.2 hn)] at h
  split at h
  · obtain ⟨s1, hs1, h⟩ := Option.bind_eq_some_iff.1 h
    obtain ⟨⟨base, s2⟩, htake, rfl⟩ := Option.map_eq_some_iff.1 hs1
    cases h
    obtain ⟨hadv, -, -⟩ := takePage_advanced htake
    exact .inr ⟨BitVec.add_zero _, ⟨hadv.cursor, hadv.mapped⟩, rfl, BitVec.zero_add _⟩
  · rename_i hcached
    cases h
    obtain ⟨hpage, hroom⟩ := not_or.1 hcached
    exact .inl ⟨hpage, BitVec.not_le.1 hroom, rfl, rfl⟩

/-! ## The invariant -/

/-- What has been handed out, against the cursor and the cached page. -/
structure Layout (s : KernelMem) (bs : List Block) : Prop where
  aligned : Aligned s.availableVirtMem
  below : ∀ b ∈ bs, ∀ a, b.Has a → a < s.availableVirtMem.toNat
  cached : s.kmallocPage ≠ 0 → s.kmallocPage ∈ s.mapped ∧ Aligned s.kmallocPage ∧
    s.kmallocPage.toNat + pageSize ≤ s.availableVirtMem.toNat ∧ s.kmallocIndex.toNat ≤ pageSize ∧
    ∀ b ∈ bs, ∀ a, b.Has a → s.kmallocPage.toNat ≤ a → a < s.kmallocPage.toNat + pageSize →
      a < s.kmallocPage.toNat + s.kmallocIndex.toNat
  apart : bs.Pairwise Block.Apart
  within : ∀ b ∈ bs, ∃ v ∈ s.mapped, b.Within v

/-- The cursor moves on by a page when it does not wrap. -/
theorem Advanced.toNat (h : Advanced s s') (hle : s.availableVirtMem ≤ s'.availableVirtMem) :
    s'.availableVirtMem.toNat = s.availableVirtMem.toNat + pageSize := by
  rw [h.cursor, BitVec.le_def, BitVec.toNat_add, BitVec.toNat_ofNat] at hle
  rw [h.cursor, BitVec.toNat_add, BitVec.toNat_ofNat]
  simp only [pageSize] at *
  omega

theorem aligned_add {v : Word} (h : Aligned v) : Aligned (v + BitVec.ofNat 64 pageSize) := by
  have hmod : v.toNat % 4096 = 0 := by
    have := congrArg BitVec.toNat h
    simpa [BitVec.extractLsb'_toNat] using this
  apply BitVec.eq_of_toNat_eq
  simp only [BitVec.extractLsb'_toNat, BitVec.toNat_add, BitVec.toNat_ofNat, BitVec.ofNat_eq_ofNat, pageSize,
    Nat.shiftRight_zero]
  omega

namespace Layout

/-- A page taken at the cursor, of which the first `size` bytes are handed out. -/
theorem advance (h : Layout s bs) (ha : Advanced s s') (hle : s.availableVirtMem ≤ s'.availableVirtMem) {size : Word}
    (hsize : size.toNat ≤ pageSize)
    (hcached : (s'.kmallocPage = s.kmallocPage ∧ s'.kmallocIndex = s.kmallocIndex) ∨
      (s'.kmallocPage = s.availableVirtMem ∧ s'.kmallocIndex = size)) :
    Layout s' (bs ++ [⟨s.availableVirtMem, size⟩]) := by
  have hcursor := ha.toNat hle
  have hnew : ∀ x, (Block.mk s.availableVirtMem size).Has x →
      s.availableVirtMem.toNat ≤ x ∧ x < s.availableVirtMem.toNat + pageSize := by
    rintro x ⟨h1, h2⟩
    exact ⟨h1, by simp only at h2; omega⟩
  refine
    { aligned := by rw [ha.cursor]; exact aligned_add h.aligned
      below := fun b hb x hx => ?_
      cached := fun hpage => ?_
      apart := ?_
      within := fun b hb => ?_ }
  · rcases List.mem_append.1 hb with hb | hb
    · have := h.below b hb x hx
      omega
    · rw [List.mem_singleton.1 hb] at hx
      have := hnew x hx
      omega
  · rw [ha.mapped]
    rcases hcached with ⟨hp, hi⟩ | ⟨hp, hi⟩
    · rw [hp] at hpage ⊢
      rw [hi]
      obtain ⟨hmem, hal, hbelow, hindex, hfill⟩ := h.cached hpage
      refine ⟨List.mem_cons_of_mem _ hmem, hal, by omega, hindex, fun b hb x hx h1 h2 => ?_⟩
      rcases List.mem_append.1 hb with hb | hb
      · exact hfill b hb x hx h1 h2
      · rw [List.mem_singleton.1 hb] at hx
        have := hnew x hx
        omega
    · rw [hp, hi]
      refine ⟨List.mem_cons_self, h.aligned, by omega, hsize, fun b hb x hx h1 _ => ?_⟩
      rcases List.mem_append.1 hb with hb | hb
      · have := h.below b hb x hx
        omega
      · rw [List.mem_singleton.1 hb] at hx
        exact hx.2
  · refine List.pairwise_append.2 ⟨h.apart, List.pairwise_singleton _ _, fun b hb b' hb' x hx hx' => ?_⟩
    rw [List.mem_singleton.1 hb'] at hx'
    have := h.below b hb x hx
    have := hnew x hx'
    omega
  · rw [ha.mapped]
    rcases List.mem_append.1 hb with hb | hb
    · obtain ⟨v, hv, hin⟩ := h.within b hb
      exact ⟨v, List.mem_cons_of_mem _ hv, hin⟩
    · rw [List.mem_singleton.1 hb]
      refine ⟨s.availableVirtMem, List.mem_cons_self, h.aligned, Nat.le_refl _, ?_⟩
      simp only
      omega

/-- The next bytes of the cached page. -/
theorem fill (h : Layout s bs) (hpage : s.kmallocPage ≠ 0) (hn : n ≤ BitVec.ofNat 64 pageSize)
    (hroom : s.kmallocIndex + n < BitVec.ofNat 64 pageSize) :
    Layout { s with kmallocIndex := s.kmallocIndex + n } (bs ++ [⟨s.kmallocPage + s.kmallocIndex, n⟩]) := by
  obtain ⟨hmem, hal, hbelow, hindex, hfill⟩ := h.cached hpage
  have hlt := s.availableVirtMem.isLt
  have hsum : (s.kmallocIndex + n).toNat = s.kmallocIndex.toNat + n.toNat := by
    rw [BitVec.le_def, BitVec.toNat_ofNat] at hn
    rw [BitVec.toNat_add]
    simp only [pageSize] at *
    omega
  have hend : s.kmallocIndex.toNat + n.toNat < pageSize := by
    rw [BitVec.lt_def, hsum, BitVec.toNat_ofNat] at hroom
    simp only [pageSize] at *
    omega
  have haddr : (s.kmallocPage + s.kmallocIndex).toNat = s.kmallocPage.toNat + s.kmallocIndex.toNat := by
    rw [BitVec.toNat_add]
    omega
  have hnew : ∀ x, (Block.mk (s.kmallocPage + s.kmallocIndex) n).Has x →
      s.kmallocPage.toNat + s.kmallocIndex.toNat ≤ x ∧
        x < s.kmallocPage.toNat + s.kmallocIndex.toNat + n.toNat := by
    rintro x ⟨h1, h2⟩
    simp only [haddr] at h1 h2
    exact ⟨h1, h2⟩
  refine
    { aligned := h.aligned
      below := fun b hb x hx => ?_
      cached := fun _ => ⟨hmem, hal, hbelow, by simp only [hsum]; omega, fun b hb x hx h1 h2 => ?_⟩
      apart := ?_
      within := fun b hb => ?_ }
  · rcases List.mem_append.1 hb with hb | hb
    · exact h.below b hb x hx
    · rw [List.mem_singleton.1 hb] at hx
      have := hnew x hx
      change x < s.availableVirtMem.toNat
      omega
  · simp only [hsum]
    rcases List.mem_append.1 hb with hb | hb
    · have := hfill b hb x hx h1 h2
      omega
    · rw [List.mem_singleton.1 hb] at hx
      have := hnew x hx
      omega
  · refine List.pairwise_append.2 ⟨h.apart, List.pairwise_singleton _ _, fun b hb b' hb' x hx hx' => ?_⟩
    rw [List.mem_singleton.1 hb'] at hx'
    have hin := hnew x hx'
    have := hfill b hb x hx (by omega) (by omega)
    omega
  · rcases List.mem_append.1 hb with hb | hb
    · exact h.within b hb
    · rw [List.mem_singleton.1 hb]
      refine ⟨s.kmallocPage, hmem, hal, ?_, ?_⟩ <;> simp only [haddr] <;> omega

/-- One call keeps the layout, with the region it hands out. -/
theorem step (h : Layout s bs) {c : Op × Block} (hc : s.Call c s') : Layout s' (bs ++ [c.2]) := by
  obtain ⟨op, b⟩ := c
  obtain ⟨hn, hs, hle⟩ := hc
  cases op with
  | kmalloc n =>
    obtain ⟨hs, hsize⟩ := hs
    have hn := hn n rfl
    have hb : b = ⟨b.addr, n⟩ := by rw [← hsize]
    rcases kmalloc_cases hn hs with ⟨hpage, hroom, haddr, rfl⟩ | ⟨haddr, hadv, hcached⟩
    · rw [hb, haddr]
      exact h.fill hpage hn hroom
    · rw [hb, haddr]
      exact h.advance hadv hle hn (.inr hcached)
  | getNewPageV =>
    obtain ⟨hs, hsize⟩ := hs
    have hb : b = ⟨b.addr, BitVec.ofNat 64 pageSize⟩ := by rw [← hsize]
    obtain ⟨haddr, hadv, hcached⟩ := getNewPageV_advanced hs
    rw [hb, haddr]
    exact h.advance hadv hle (by decide) (.inl hcached)
  | getNewPageTable =>
    obtain ⟨⟨base, hs⟩, rfl⟩ := hs
    obtain ⟨hadv, hcached⟩ := getNewPageTable_advanced hs
    exact h.advance hadv hle (by decide) (.inl hcached)

end Layout

/-- **Kernel allocations never overlap**: in every run of calls on which the cursor does not wrap, the regions
handed out are pairwise apart, and each lies in one page mapped during the run. -/
theorem kernel_allocations_disjoint {s₀ : KernelMem} (h₀ : Booted s₀) {calls : List (Op × Block)}
    (hrun : Run Call s₀ calls s) :
    (calls.map Prod.snd).Pairwise Block.Apart ∧ ∀ b ∈ calls.map Prod.snd, ∃ v ∈ s.mapped, b.Within v := by
  have hinv := hrun.history (fun calls s => Layout s (calls.map Prod.snd))
    ⟨h₀.aligned, by simp, fun hpage => absurd h₀.kmallocPage_eq hpage, by simp, by simp⟩ ?_
  · exact ⟨hinv.apart, hinv.within⟩
  · intro calls s c s' h hc
    rw [List.map_append]
    exact h.step hc

/-- Every table is the same frame, and every page is mapped. -/
def flat : KernelMem where
  vm := ⟨fun _ _ => link 0, 0, ⟨fun _ => ⟨0, 0⟩, 1, 1, 0, 0⟩⟩
  availableVirtMem := 0xffffffff80200000
  kmallocPage := 0
  kmallocIndex := 0
  mapped := []

/-- Two small blocks, and a page taken between them: the second block goes on in the first page. -/
theorem kernel_allocations_disjoint_flat :
    ∃ s, Run Call flat [(.kmalloc 100, ⟨0xffffffff80200000, 100⟩), (.getNewPageV, ⟨0xffffffff80201000, 4096⟩),
        (.kmalloc 200, ⟨0xffffffff80200064, 200⟩)] s ∧
      [Block.mk 0xffffffff80200000 100, ⟨0xffffffff80201000, 4096⟩,
        ⟨0xffffffff80200064, 200⟩].Pairwise Block.Apart := by
  have hexec : ((flat.kmalloc 100).any fun r₁ => r₁.1 = 0xffffffff80200000 ∧
      flat.availableVirtMem ≤ r₁.2.availableVirtMem ∧ r₁.2.getNewPageV.any fun r₂ => r₂.1 = 0xffffffff80201000 ∧
      r₁.2.availableVirtMem ≤ r₂.2.availableVirtMem ∧ (r₂.2.kmalloc 200).any fun r₃ => r₃.1 = 0xffffffff80200064 ∧
      r₂.2.availableVirtMem ≤ r₃.2.availableVirtMem) = true := by decide +kernel
  simp only [Option.any_eq_true, decide_eq_true_eq] at hexec
  obtain ⟨⟨a₁, s₁⟩, h₁, rfl, hle₁, ⟨a₂, s₂⟩, h₂, rfl, hle₂, ⟨a₃, s₃⟩, h₃, rfl, hle₃⟩ := hexec
  have hrun : Run Call flat [(.kmalloc 100, ⟨0xffffffff80200000, 100⟩), (.getNewPageV, ⟨0xffffffff80201000, 4096⟩),
      (.kmalloc 200, ⟨0xffffffff80200064, 200⟩)] s₃ := by
    refine .cons ⟨fun n hn => ?_, ⟨h₁, rfl⟩, hle₁⟩ (.cons ⟨nofun, ⟨h₂, rfl⟩, hle₂⟩
      (.single ⟨fun n hn => ?_, ⟨h₃, rfl⟩, hle₃⟩))
    · cases hn
      decide
    · cases hn
      decide
  have hbooted : Booted flat := ⟨by unfold Aligned; decide, rfl, rfl⟩
  exact ⟨s₃, hrun, (kernel_allocations_disjoint hbooted hrun).1⟩

end KernelMem
end Sbuos
