/-!
# Copy-on-write sharing

Processes `κ` map pages `π` to frames `φ`: `maps p x = some (f, w)` says that `p` has `f` at `x`, and whether
it may store there. What a frame holds is `data`.

`Exclusive` is what isolates the live processes: a frame that one of them may store to is mapped by no
other. `Exclusive.reads_eq` is the isolation; the other lemmas say which changes of the maps keep the
invariant: sharing all pages read-only (`share`), and giving one process one page to write (`grant`), be it a
copy or the frame it has. They also keep `OnePage`, that sharers have a frame at the same page.
-/
namespace Lib.CopyOnWrite

variable {κ π φ δ : Type}

/-- `p` has the frame `f` at some page. -/
def Has (maps : κ → π → Option (φ × Bool)) (p : κ) (f : φ) : Prop := ∃ x w, maps p x = some (f, w)

def Exclusive (live : κ → Prop) (maps : κ → π → Option (φ × Bool)) : Prop :=
  ∀ p q x f, live p → live q → q ≠ p → maps p x = some (f, true) → ¬Has maps q f

/-- A frame is at one page, in whatever process. -/
def OnePage (live : κ → Prop) (maps : κ → π → Option (φ × Bool)) : Prop :=
  ∀ p q x y f w w', live p → live q → maps p x = some (f, w) → maps q y = some (f, w') → x = y

/-- What `p` finds at `x`. -/
def reads (maps : κ → π → Option (φ × Bool)) (data : φ → δ) (p : κ) (x : π) : Option δ :=
  (maps p x).map fun e => data e.1

variable {live live' : κ → Prop} {maps maps' : κ → π → Option (φ × Bool)} {data data' : φ → δ} {p q c : κ} {x y : π}
  {f : φ} {w : Bool}

theorem reads_congr (hmaps : (maps' q y).map Prod.fst = (maps q y).map Prod.fst)
    (hdata : ∀ f w, maps q y = some (f, w) → data' f = data f) :
    reads maps' data' q y = reads maps data q y := by
  unfold reads
  cases hq : maps q y with
  | none =>
    rw [hq, Option.map_none, Option.map_eq_none_iff] at hmaps
    rw [hmaps, Option.map_none, Option.map_none]
  | some e =>
    obtain ⟨f, w⟩ := e
    rw [hq, Option.map_some] at hmaps
    obtain ⟨⟨f', w'⟩, he, rfl⟩ := Option.map_eq_some_iff.1 hmaps
    rw [he, Option.map_some, Option.map_some, hdata f' w hq]

/-- **Isolation**: a store to a frame that `p` may write is seen by no other live process. -/
theorem Exclusive.reads_eq (h : Exclusive live maps) (hp : live p) (hq : live q) (hne : q ≠ p)
    (hx : maps p x = some (f, true)) (hdata : ∀ g, g ≠ f → data' g = data g) (y : π) :
    reads maps data' q y = reads maps data q y := by
  refine reads_congr rfl fun g w hg => hdata g ?_
  rintro rfl
  exact h p q x g hp hq hne hx ⟨y, w, hg⟩

/-- Live processes die, and those that do not have what they had. -/
theorem Exclusive.congr (h : Exclusive live maps) (hl : ∀ q, live' q → live q)
    (hmaps : ∀ q, live' q → maps' q = maps q) : Exclusive live' maps' := by
  intro p q x f hp hq hne hx ⟨y, w, hy⟩
  rw [hmaps p hp] at hx
  rw [hmaps q hq] at hy
  exact h p q x f (hl p hp) (hl q hq) hne hx ⟨y, w, hy⟩

/-- What the processes have at a page, one of them had there. -/
theorem OnePage.of_old (h : OnePage live maps)
    (hold : ∀ q x f w, live' q → maps' q x = some (f, w) → ∃ q' w', live q' ∧ maps q' x = some (f, w')) :
    OnePage live' maps' := by
  intro a b x y f w w' ha hb hx hy
  obtain ⟨a', v, ha', hx'⟩ := hold a x f w ha hx
  obtain ⟨b', v', hb', hy'⟩ := hold b y f w' hb hy
  exact h a' b' x y f v v' ha' hb' hx' hy'

/-- Sharing: `p` and the new process `c` may write nothing, and have only what `p` had. -/
theorem Exclusive.share (h : Exclusive live maps) (hp : live p) (hl : ∀ q, live' q → live q ∨ q = c)
    (hpc : ∀ q, q = p ∨ q = c → ∀ x f w, maps' q x = some (f, w) → w = false ∧ Has maps p f)
    (hother : ∀ q, live' q → q ≠ p → q ≠ c → maps' q = maps q) : Exclusive live' maps' := by
  intro a b x f ha hb hba hx hbf
  have ha' : ¬(a = p ∨ a = c) := fun e => Bool.noConfusion (hpc a e x f true hx).1
  rw [not_or] at ha'
  have halive : live a := (hl a ha).resolve_right ha'.2
  rw [hother a ha ha'.1 ha'.2] at hx
  obtain ⟨y, w, hy⟩ := hbf
  by_cases hb' : b = p ∨ b = c
  · exact h a p x f halive hp (Ne.symm ha'.1) hx (hpc b hb' y f w hy).2
  · rw [not_or] at hb'
    rw [hother b hb hb'.1 hb'.2] at hy
    exact h a b x f halive ((hl b hb).resolve_right hb'.2) hba hx ⟨y, w, hy⟩

section grant
variable (hx : maps' p x = some (f, true)) (hy : ∀ y, y ≠ x → maps' p y = maps p y)
  (hother : ∀ q, live q → q ≠ p → maps' q = maps q)
include hx hy hother

/-- What a process has after `p` may write at `x` is what it had, or that page. -/
theorem grant_cases {a : κ} {g : φ} (ha : live a) (hg : maps' a y = some (g, w)) :
    (a = p ∧ y = x ∧ g = f) ∨ (¬(a = p ∧ y = x) ∧ maps a y = some (g, w)) := by
  by_cases hay : a = p ∧ y = x
  · obtain ⟨rfl, rfl⟩ := hay
    exact .inl ⟨rfl, rfl, congrArg Prod.fst (Option.some.inj (hg.symm.trans hx))⟩
  · refine .inr ⟨hay, ?_⟩
    by_cases hap : a = p
    · subst hap
      rwa [hy y fun e => hay ⟨rfl, e⟩] at hg
    · rwa [hother a ha hap] at hg

/-- `p` may now write at `x`, to a frame that no other live process has. -/
theorem Exclusive.grant (h : Exclusive live maps) (hf : live p → ∀ q, live q → q ≠ p → ¬Has maps q f) :
    Exclusive live maps' := by
  intro a b y g ha hb hba hg ⟨z, w, hz⟩
  rcases grant_cases hx hy hother ha hg with ⟨rfl, rfl, rfl⟩ | ⟨-, hg'⟩ <;>
    rcases grant_cases hx hy hother hb hz with ⟨hbp, -, hgf⟩ | ⟨-, hz'⟩
  · exact hba hbp
  · exact hf ha b hb hba ⟨z, w, hz'⟩
  · subst hbp hgf
    exact hf hb a ha (Ne.symm hba) ⟨y, true, hg'⟩
  · exact h a b y g ha hb hba hg' ⟨z, w, hz'⟩

/-- That frame is at no other page. -/
theorem OnePage.grant (h : OnePage live maps) (hf : ∀ q y w, live q → maps q y = some (f, w) → y = x) :
    OnePage live maps' := by
  intro a b y z g w w' ha hb hg hz
  rcases grant_cases hx hy hother ha hg with ⟨-, rfl, rfl⟩ | ⟨-, hg'⟩ <;>
    rcases grant_cases hx hy hother hb hz with ⟨-, hzx, hgf⟩ | ⟨-, hz'⟩
  · exact hzx.symm
  · exact (hf b z w' hb hz').symm
  · subst hzx hgf
    exact hf a y w ha hg'
  · exact h a b y z g w w' ha hb hg' hz'

end grant

end Lib.CopyOnWrite
