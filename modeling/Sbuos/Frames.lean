import Sbuos.Sysutil
import Sbuos.Lib.Linked
/-!
# The frame lists (sys/memory_helpers.c:6-74, :139-158)

`_page_list` is one array of nodes; the free and the used list are two chains through its `next`
fields. Slot 0 belongs to neither: its index is the end mark of both.
-/
namespace Sbuos
open Lib

/-- `mem_page` (memory_helpers.h:16-21). -/
structure MemPage where
  base : Word
  next : Nat

/-- `_page_list` and the four list ends. -/
structure Frames where
  pageList : Nat → MemPage
  freeHead : Nat
  freeTail : Nat
  usedHead : Nat
  usedTail : Nat

namespace Frames

def next (s : Frames) (i : Nat) : Nat := (s.pageList i).next
def base (s : Frames) (i : Nat) : Word := (s.pageList i).base

end Frames

def setNext (p : Nat → MemPage) (i n : Nat) : Nat → MemPage := Function.update p i { p i with next := n }
def setBase (p : Nat → MemPage) (i : Nat) (b : Word) : Nat → MemPage := Function.update p i { p i with base := b }

/-- `dequeue_page` (memory_helpers.c:36-47): the node's index and the new ends. Its first test compares
the pointer `list_tail`, which is never NULL, with 0; so it never returns NULL, and on an empty list it
hands out slot 0. -/
def dequeuePage (p : Nat → MemPage) (head tail : Nat) : Nat × Nat × Nat :=
  (head, (p head).next, if (p head).next = 0 then 0 else tail)

/-- `queue_page` (memory_helpers.c:56-64); its argument `page` is not used. -/
def queuePage (p : Nat → MemPage) (head tail index : Nat) : (Nat → MemPage) × Nat × Nat :=
  if head = 0 ∧ tail = 0 then (setNext p index 0, index, index)
  else (setNext (setNext p tail index) index 0, head, index)

namespace Frames

/-- `get_free_page` (memory_helpers.c:66-74), as the index of the node returned. -/
def getFreePage (s : Frames) : Nat × Frames :=
  let (res, freeHead, freeTail) := dequeuePage s.pageList s.freeHead s.freeTail
  let (pageList, usedHead, usedTail) := queuePage s.pageList s.usedHead s.usedTail s.freeHead
  (res, ⟨pageList, freeHead, freeTail, usedHead, usedTail⟩)

/-- `k` calls of it, with the nodes returned. -/
def getFreePages : Nat → Frames → List Nat × Frames
  | 0, s => ([], s)
  | k + 1, s =>
    let (res, s) := s.getFreePage
    let (rest, s) := getFreePages k s
    (res :: rest, s)

end Frames

@[simp] theorem setNext_base (p : Nat → MemPage) (i n j : Nat) : (setNext p i n j).base = (p j).base := by
  unfold setNext; by_cases h : j = i
  · subst h; simp
  · simp [h]

theorem setNext_next (p : Nat → MemPage) (i n : Nat) :
    (fun j => (setNext p i n j).next) = Function.update (fun j => (p j).next) i n := by
  funext j; unfold setNext; by_cases h : j = i
  · subst h; simp
  · simp [h]

@[simp] theorem setBase_next (p : Nat → MemPage) (i : Nat) (b : Word) (j : Nat) :
    (setBase p i b j).next = (p j).next := by
  unfold setBase; by_cases h : j = i
  · subst h; simp
  · simp [h]

theorem setBase_base (p : Nat → MemPage) (i : Nat) (b : Word) (j : Nat) :
    (setBase p i b j).base = if j = i then b else (p j).base := by
  unfold setBase; by_cases h : j = i
  · subst h; simp
  · simp [h]

@[simp] theorem queuePage_base (p : Nat → MemPage) (head tail index j : Nat) :
    ((queuePage p head tail index).1 j).base = (p j).base := by
  unfold queuePage; split <;> simp

@[simp] theorem queuePage_tail (p : Nat → MemPage) (head tail index : Nat) :
    (queuePage p head tail index).2.2 = index := by
  unfold queuePage; split <;> rfl

section queue
variable {p : Nat → MemPage} {head tail i j : Nat} {xs : List Nat}

/-- Queueing a fresh node puts it at the end of the chain. -/
theorem queuePage_linked (h : Linked (fun j => (p j).next) 0 head xs) (ht : tail = xs.getLast?.getD 0) (hi : i ≠ 0)
    (hx : i ∉ xs) :
    Linked (fun j => ((queuePage p head tail i).1 j).next) 0 (queuePage p head tail i).2.1 (xs ++ [i]) := by
  rcases List.eq_nil_or_concat xs with rfl | ⟨us, l, rfl⟩
  · have hh : head = 0 := h
    have ht : tail = 0 := ht
    simp only [queuePage, hh, ht, and_self, if_true, setNext_next]
    exact Linked.singleton hi
  · rw [List.concat_eq_append] at *
    have ht : tail = l := by rw [ht, List.getLast?_concat]; rfl
    have hl0 : l ≠ 0 := h.ne_nil_of_mem (by simp)
    simp only [queuePage, ht, hl0, and_false, if_false, setNext_next]
    rw [List.append_assoc]
    exact h.snoc hi hx

/-- Queueing changes the next fields of the chain's tail and of the node itself only. -/
theorem queuePage_next_of_ne (h : Linked (fun j => (p j).next) 0 head xs) (ht : tail = xs.getLast?.getD 0)
    (hj : j ≠ i) (hx : j ∉ xs) : ((queuePage p head tail i).1 j).next = (p j).next := by
  rcases List.eq_nil_or_concat xs with rfl | ⟨us, l, rfl⟩
  · have hh : head = 0 := h
    have ht : tail = 0 := ht
    simp [queuePage, hh, ht, setNext, hj]
  · rw [List.concat_eq_append] at *
    have ht : tail = l := by rw [ht, List.getLast?_concat]; rfl
    have hl0 : l ≠ 0 := h.ne_nil_of_mem (by simp)
    have hjl : j ≠ l := fun e => hx (by simp [e])
    simp [queuePage, ht, hl0, setNext, hj, hjl]

end queue

/-! ## The two chains -/

namespace Frames

/-- The free and the used chain, finite and with no node in common; a chain repeats no node
(`Linked.nodup`) and leaves slot 0 out (`Linked.ne_nil_of_mem`). -/
structure WF (s : Frames) (free used : List Nat) : Prop where
  freeChain : Linked s.next 0 s.freeHead free
  usedChain : Linked s.next 0 s.usedHead used
  disjoint : ∀ i ∈ free, i ∉ used
  usedTail : s.usedTail = used.getLast?.getD 0

variable {s : Frames} {free used : List Nat} {i k : Nat}

/-- **One call** moves the head of the free chain to the end of the used chain. -/
theorem getFreePage_spec (h : WF s (i :: free) used) :
    (getFreePage s).1 = i ∧ WF (getFreePage s).2 free (used ++ [i]) ∧ ∀ j, (getFreePage s).2.base j = s.base j := by
  obtain ⟨hhead, hi0, hfree⟩ := h.freeChain
  have hiu : i ∉ used := h.disjoint i List.mem_cons_self
  have hif : i ∉ free := (List.nodup_cons.1 h.freeChain.nodup).1
  have hused := queuePage_linked h.usedChain h.usedTail hi0 hiu
  have hframe := fun j (hj : j ∈ free) =>
    queuePage_next_of_ne h.usedChain h.usedTail (i := i) (fun e => hif (e ▸ hj))
      (h.disjoint j (List.mem_cons_of_mem _ hj))
  unfold getFreePage dequeuePage
  rw [hhead]
  refine ⟨rfl, ⟨hfree.congr hframe, hused, ?_, ?_⟩, fun j => queuePage_base _ _ _ _ _⟩
  · intro j hj
    rw [List.mem_append, List.mem_singleton]
    rintro (hu | rfl)
    · exact h.disjoint j (List.mem_cons_of_mem _ hj) hu
    · exact hif hj
  · rw [List.getLast?_concat]; exact queuePage_tail _ _ _ _

/-- **Frame conservation.** `k` calls hand out the first `k` frames of the free chain, in order and
each once, and append them to the used chain; the rest of the free chain and every base stay. -/
theorem getFreePages_conserve {s : Frames} {free used : List Nat} {k : Nat} (h : WF s free used)
    (hk : k ≤ free.length) :
    (getFreePages k s).1 = free.take k ∧ (getFreePages k s).1.Nodup ∧
    WF (getFreePages k s).2 (free.drop k) (used ++ free.take k) ∧
    ∀ j, (getFreePages k s).2.base j = s.base j := by
  have main : (getFreePages k s).1 = free.take k ∧ WF (getFreePages k s).2 (free.drop k) (used ++ free.take k) ∧
      ∀ j, (getFreePages k s).2.base j = s.base j := by
    induction k generalizing s free used with
    | zero => exact ⟨rfl, by simpa [getFreePages] using h, fun _ => rfl⟩
    | succ k ih =>
      cases free with
      | nil => simp at hk
      | cons i free =>
        obtain ⟨h1, h2, h3⟩ := getFreePage_spec h
        obtain ⟨i1, i2, i3⟩ := ih h2 (by simpa using hk)
        refine ⟨?_, ?_, fun j => (i3 j).trans (h3 j)⟩
        · simp only [getFreePages, List.take_succ_cons, h1, i1]
        · simpa only [getFreePages, List.drop_succ_cons, List.take_succ_cons, List.append_assoc,
            List.singleton_append] using i2
  refine ⟨main.1, ?_, main.2⟩
  rw [main.1]
  exact h.freeChain.nodup.sublist (List.take_sublist _ _)

/-- Three free frames and two in use, and two calls. -/
theorem getFreePages_conserve_two :
    let s : Frames := ⟨fun i => ⟨0, if i < 3 then i + 1 else if i = 5 then 4 else 0⟩, 1, 3, 5, 4⟩
    (getFreePages 2 s).1 = [1, 2] ∧ WF (getFreePages 2 s).2 [3] [5, 4, 1, 2] := by
  intro s
  have h : WF s [1, 2, 3] [5, 4] :=
    ⟨⟨rfl, by decide, rfl, by decide, rfl, by decide, rfl⟩, ⟨rfl, by decide, rfl, by decide, rfl⟩, by decide, rfl⟩
  obtain ⟨hout, -, hwf, -⟩ := getFreePages_conserve h (by decide : 2 ≤ [1, 2, 3].length)
  exact ⟨hout, hwf⟩

end Frames
end Sbuos
