import Sbuos.Chdir
import Sbuos.Lib.Run
/-!
# The working directory (sys/systemcall.c:127-139, sys/process_helpers.c:174-187)

`do_chdir` stores the name of the directory it found with a limit of 100, and `wd` has 50 bytes, with
`waiting_on_stdin` behind them. `get_forked_pcb` copies `wd` with the right limit.

`DirsInv` is what every process of a family keeps, as long as the names fit and the walk over the archive comes to
members only; **`working_dirs`** says so for whole runs.
-/
namespace Sbuos
open Lib

/-- `m` is a directory of the archive: its name ends in a slash, and it has no content. -/
def Member.IsDir (m : Member) : Prop := m.name.getLast? = some slash ∧ m.content = []

/-- `wd` is a string that fits, and the root or the absolute name of a directory member. -/
structure WdOk (ms : List Member) (p : Pcb) (w : List Byte) : Prop where
  spells : Spells p.wd w
  length_lt : w.length < 50
  first : [slash] <+: w
  last : w.getLast? = some slash
  member : w = [slash] ∨ ∃ m ∈ ms, m.IsDir ∧ w = slash :: m.name

/-- No field but `wd` differs. -/
def SameButWd (p p' : Pcb) : Prop :=
  ∃ text, p' = { p with text := text } ∧ ∀ i, i < 50 ∨ 100 ≤ i → text i = p.text i

theorem SameButWd.refl (p : Pcb) : SameButWd p p := ⟨p.text, rfl, fun _ _ => rfl⟩

theorem SameButWd.trans {p q r : Pcb} (h : SameButWd p q) (h' : SameButWd q r) : SameButWd p r := by
  obtain ⟨text, rfl, htext⟩ := h
  obtain ⟨text', rfl, htext'⟩ := h'
  exact ⟨text', rfl, fun i hi => (htext' i hi).trans (htext i hi)⟩

/-! ## The two copies -/

section copies
variable {src : Nat → Byte} {u : List Byte} {size : Int}

/-- A name that fits `wd` changes nothing else, whatever limit it is copied with. -/
theorem sameButWd_kstrcpy (h : Spells src u) (hu : u.length < 50) (hsize : 50 ≤ size) (p : Pcb) :
    SameButWd p { p with text := fun i => if i < 50 then p.text i else (kstrcpy p.wd src size).1 (i - 50) } := by
  refine ⟨_, rfl, fun i hi => ?_⟩
  rcases hi with hi | hi
  · exact if_pos hi
  · have hlen : (u ++ [0]).length ≤ 50 := by
      rw [List.length_append, List.length_singleton]
      omega
    have hbehind : overwrite 0 (u ++ [0]) p.wd (i - 50) = p.wd (i - 50) := overwrite_of_le (by omega)
    rw [if_neg (by omega), h.kstrcpy (by omega)]
    refine hbehind.trans ?_
    rw [Pcb.wd, show 50 + (i - 50) = i by omega]

theorem spells_kstrcpy (h : Spells src u) (hu : (u.length : Int) ≤ size) (p : Pcb) :
    Spells (Pcb.wd { p with text := fun i => if i < 50 then p.text i else (kstrcpy p.wd src size).1 (i - 50) }) u := by
  have hwd : Pcb.wd { p with text := fun i => if i < 50 then p.text i else (kstrcpy p.wd src size).1 (i - 50) } =
      (kstrcpy p.wd src size).1 := by
    funext i
    change (if 50 + i < 50 then p.text (50 + i) else (kstrcpy p.wd src size).1 (50 + i - 50)) = _
    rw [if_neg (by omega), Nat.add_sub_cancel_left]
  rw [hwd, h.kstrcpy hu]
  exact spells_overwrite h.ne_zero

end copies

/-! ## Directories of the archive -/

section archive
variable {t : Tarfs} {ms : List Member} {bs w : List Byte} {off : Nat} {p : Word}

/-- A member's header names the member, and a size of zero means no content. -/
theorem Tarfs.Rest.member_of_header (h : t.Rest off ms bs)
    (hp : p ∈ headerAddrs (t.tarStart + BitVec.ofNat 64 off) ms) (hw : Spells (t.view p) w)
    (hsize : t.headerSize p = 0) : ∃ m ∈ ms, m.name = w ∧ m.content = [] := by
  induction ms generalizing off bs with
  | nil => cases hp
  | cons m ms ih =>
    obtain ⟨hat, -, bs', hrest⟩ := h.cons_inv
    rw [headerAddrs, List.mem_cons] at hp
    rcases hp with rfl | hp
    · refine ⟨m, List.mem_cons_self, hat.name.unique hw, ?_⟩
      by_contra hc
      have hsz := hat.size
      rw [hsize] at hsz
      exact Tarfs.ofNat_length_ne_zero (h.valid m List.mem_cons_self) hc hsz.symm
    · rw [BitVec.add_assoc, ← BitVec.ofNat_add] at hp
      obtain ⟨m', hm', hname⟩ := ih hrest hp
      exact ⟨m', List.mem_cons_of_mem m hm', hname⟩

theorem Tarfs.Stops.not_visits (h : t.Stops off) (hne : w ≠ []) : ¬t.Visits w (BitVec.ofNat 64 off) p := by
  have hempty : ∀ {u : List Byte}, Spells (t.view (t.tarStart + BitVec.ofNat 64 off)) u →
      t.tarStart + BitVec.ofNat 64 off < t.tarEnd → u = [] := by
    intro u hu hlt
    by_contra hu0
    exact hu.apply_ne_zero (List.length_pos_of_ne_nil hu0) (h hlt)
  intro hv
  cases hv with
  | here hlt hs => exact hne (hempty hs hlt)
  | next hlt hs hne' => exact hne' (hempty hs hlt)

/-- Where no size but the last is a non-zero multiple of 512, the walk comes to members only. -/
theorem Tarfs.Rest.mem_of_visits (h : t.Rest off ms bs) (heven : ∀ m ∈ ms.dropLast, m.Even) (hne : w ≠ [])
    (hv : t.Visits w (BitVec.ofNat 64 off) p) : p ∈ headerAddrs (t.tarStart + BitVec.ofNat 64 off) ms := by
  induction ms generalizing off bs with
  | nil => exact absurd hv ((h.nil_stops (Nat.zero_le 512)).not_visits hne)
  | cons m ms ih =>
    obtain ⟨hat, -, bs', hrest⟩ := h.cons_inv
    rw [headerAddrs, List.mem_cons]
    cases hv with
    | here _ _ => exact .inl rfl
    | next _ _ _ _ hv =>
      rw [hat.nextOffset] at hv
      cases ms with
      | nil => exact absurd hv (h.last_stops.not_visits hne)
      | cons m' ms =>
        rw [Tarfs.walked_of_even (heven m (by simp))] at hv
        have hmem := ih hrest (fun m'' hm => heven m'' (by simp [hm])) hv
        rw [Tarfs.laidOut, BitVec.ofNat_add, ← BitVec.add_assoc] at hmem
        exact .inr hmem

end archive

theorem exists_cons_of_normalText {w : List Byte} (h : normalText w ≠ []) : ∃ v, normalText w = slash :: v := by
  unfold normalText at h ⊢
  split
  · exact ⟨[], rfl⟩
  · rw [if_neg ‹_›] at h
    obtain ⟨part, parts, hparts⟩ := List.exists_cons_of_ne_nil fun hnil : normalParts w = [] => h (by rw [hnil]; rfl)
    exact ⟨part ++ absolute parts, by rw [hparts, absolute, List.flatMap_cons, List.cons_append, absolute]⟩

/-! ## Runs -/

/-- The scheduler's processes, and which of them are the shell and those forked from it on. -/
structure Dirs where
  sched : Sched
  procs : List Nat

inductive DirOp
  | chdir (proc : Nat) (g : PathBuf) (dirname : Nat → Byte)
  | fork (parent : Nat) (kernelStack pml4 pml4' : Word)

/-- A `do_chdir` that returns, whatever other calls left in `abspath`; a fork. -/
inductive DirStep (t : Tarfs) (s : Dirs) : DirOp → Dirs → Prop
  | chdir {p : Nat} {g g' : PathBuf} {dirname : Nat → Byte} {base rel : List Byte} {proc' : Pcb} {ret : Word} :
      p ∈ s.procs → Spells (s.sched.pcbs p).wd base → Spells dirname rel → (merged base rel).length < 99 →
      (merged base rel).count slash ≤ 13 →
      Returns (fun fuel => doChdir t fuel g dirname (s.sched.pcbs p)) (g', some proc', ret) →
      DirStep t s (.chdir p g dirname) ⟨s.sched.modify p fun _ => proc', s.procs⟩
  | fork {p : Nat} {kernelStack pml4 pml4' : Word} : p ∈ s.procs →
      DirStep t s (.fork p kernelStack pml4 pml4')
        ⟨s.sched.getForkedPcb kernelStack pml4 pml4' p, (s.sched.created + 1) :: s.procs⟩

/-- The directory that a call finds has a name that fits `wd` with its two slashes and its NUL, and the header that
the walk came to for it is a member's. -/
def WdFits (t : Tarfs) (ms : List Member) (s : Dirs) : DirOp → Prop
  | .chdir p _ dirname => ∀ base rel, Spells (s.sched.pcbs p).wd base → Spells dirname rel →
    ∀ h, t.Visits (normalText (merged base rel) ++ [slash]).tail 0 h → t.headerSize h = 0 →
      (normalText (merged base rel) ++ [slash]).length < 50 ∧ h ∈ headerAddrs t.tarStart ms
  | .fork .. => True

/-- Every process of the family has a working directory. -/
structure DirsInv (ms : List Member) (s : Dirs) : Prop where
  created : ∀ p ∈ s.procs, p ≤ s.sched.created
  wd : ∀ p ∈ s.procs, ∃ w, WdOk ms (s.sched.pcbs p) w

section runs
variable {t : Tarfs} {ms : List Member} {bs : List Byte} {s s' s₀ s₁ s₂ : Dirs} {op : DirOp} {ops₁ ops₂ : List DirOp}

/-- What one call stores. -/
theorem chdir_wdOk (ha : t.Rest 0 ms bs) {p : Pcb} {g g' : PathBuf} {dirname : Nat → Byte} {base rel : List Byte}
    {proc' : Pcb} {ret : Word} (hwd : WdOk ms p base) (hrel : Spells dirname rel) (hlen : (merged base rel).length < 99)
    (hcount : (merged base rel).count slash ≤ 13)
    (hret : Returns (fun fuel => doChdir t fuel g dirname p) (g', some proc', ret))
    (hfits : ∀ h, t.Visits (normalText (merged base rel) ++ [slash]).tail 0 h → t.headerSize h = 0 →
      (normalText (merged base rel) ++ [slash]).length < 50 ∧ h ∈ headerAddrs t.tarStart ms) :
    SameButWd p proc' ∧ ∃ w, WdOk ms proc' w := by
  obtain ⟨w, hw⟩ := merged_cons hwd.first rel
  rw [hw] at hlen hcount hfits
  rcases doChdir_cases hwd.spells hrel hw (by omega) hcount hret with ⟨hsame, -⟩ | ⟨hsame, -, hspell, hfound⟩
  · obtain rfl := Option.some.inj hsame
    exact ⟨.refl _, base, hwd⟩
  · obtain rfl := Pcb.eq_of_changeWd hsame.symm
    have hlast : (normalText (slash :: w) ++ [slash]).getLast? = some slash := by simp
    obtain ⟨hshort, hfirst, hmember⟩ : (normalText (slash :: w) ++ [slash]).length < 50 ∧
        [slash] <+: normalText (slash :: w) ++ [slash] ∧ (normalText (slash :: w) ++ [slash] = [slash] ∨
          ∃ m ∈ ms, m.IsDir ∧ normalText (slash :: w) ++ [slash] = slash :: m.name) := by
      by_cases hempty : normalText (slash :: w) = []
      · rw [hempty]
        exact ⟨by decide, List.prefix_refl _, .inl rfl⟩
      · obtain ⟨h, hvisits, hsize⟩ := hfound.resolve_left hempty
        obtain ⟨hshort, hheader⟩ := hfits h hvisits hsize
        obtain ⟨v, hv⟩ := exists_cons_of_normalText hempty
        rw [hv] at hvisits hshort ⊢
        obtain ⟨m, hm, hname, hcontent⟩ := ha.member_of_header (by simpa using hheader) hvisits.spells hsize
        have hname : m.name = v ++ [slash] := hname
        refine ⟨hshort, ⟨v ++ [slash], rfl⟩, .inr ⟨m, hm, ⟨?_, hcontent⟩, ?_⟩⟩
        · rw [hname]
          exact List.getLast?_concat
        · rw [hname, List.cons_append]
    refine ⟨sameButWd_kstrcpy hspell hshort (by decide) p, _, ?_, hshort, hfirst, hlast, hmember⟩
    exact spells_kstrcpy hspell (by omega) p

/-- Copying a good `wd` to a new child. -/
theorem WdOk.copyWd {p : Pcb} {w : List Byte} (h : WdOk ms p w) (child : Pcb) : WdOk ms (child.copyWd p.wd) w where
  spells := spells_kstrcpy h.spells (by have := h.length_lt; omega) child
  length_lt := h.length_lt
  first := h.first
  last := h.last
  member := h.member

/-- What a step keeps, and what it leaves of the processes there were. -/
theorem DirsInv.step (ha : t.Rest 0 ms bs) (h : DirsInv ms s) (hstep : Guarded (WdFits t ms) (DirStep t) s op s') :
    DirsInv ms s' ∧ (∀ p ∈ s.procs, p ∈ s'.procs) ∧ ∀ p ∈ s.procs, SameButWd (s.sched.pcbs p) (s'.sched.pcbs p) := by
  obtain ⟨hfits, hstep⟩ := hstep
  cases hstep with
  | @chdir p g g' dirname base rel proc' ret hp hbase hrel hlen hcount hret =>
    obtain ⟨w, hw⟩ := h.wd p hp
    obtain rfl := hbase.unique hw.spells
    obtain ⟨hsame, hok⟩ := chdir_wdOk ha hw hrel hlen hcount hret (hfits base rel hbase hrel)
    refine ⟨⟨h.created, fun q hq => ?_⟩, fun _ hq => hq, fun q hq => ?_⟩
    · by_cases hqp : q = p
      · subst hqp
        rw [Sched.modify_pcbs_self]
        exact hok
      · rw [Sched.modify_pcbs_of_ne _ _ _ hqp]
        exact h.wd q hq
    · by_cases hqp : q = p
      · subst hqp
        rw [Sched.modify_pcbs_self]
        exact hsame
      · rw [Sched.modify_pcbs_of_ne _ _ _ hqp]
        exact .refl _
  | @fork p kernelStack pml4 pml4' hp =>
    obtain ⟨w, hw⟩ := h.wd p hp
    have hchild := Sched.getForkedPcb_eq s.sched kernelStack pml4 pml4' (h.created p hp)
    have hother : ∀ q ∈ s.procs, (s.sched.getForkedPcb kernelStack pml4 pml4' p).pcbs q = s.sched.pcbs q := by
      intro q hq
      have hle := h.created q hq
      rw [hchild]
      exact Function.update_of_ne (by omega) _ _
    refine ⟨⟨fun q hq => ?_, fun q hq => ?_⟩, fun q hq => List.mem_cons_of_mem _ hq, fun q hq => ?_⟩
    · rw [hchild]
      rcases List.mem_cons.1 hq with rfl | hq
      · exact Nat.le_refl _
      · exact Nat.le_succ_of_le (h.created q hq)
    · rcases List.mem_cons.1 hq with rfl | hq
      · refine ⟨w, ?_⟩
        simp only [hchild, Function.update_self]
        exact hw.copyWd _
      · rw [hother q hq]
        exact h.wd q hq
    · rw [hother q hq]
      exact .refl _

/-- **The working directories** in every run: from `/` on, with names that fit, every process of the family has one,
nothing else of a process changes by it, and a copy to a new child changes nothing else of that. -/
theorem working_dirs (ha : t.Rest 0 ms bs)
    (hstart : ∀ p ∈ s₀.procs, p ≤ s₀.sched.created ∧ Spells (s₀.sched.pcbs p).wd [slash])
    (h₁ : Run (Guarded (WdFits t ms) (DirStep t)) s₀ ops₁ s₁)
    (h₂ : Run (Guarded (WdFits t ms) (DirStep t)) s₁ ops₂ s₂) :
    (∀ p ∈ s₂.procs, ∃ w, WdOk ms (s₂.sched.pcbs p) w) ∧
    (∀ p ∈ s₁.procs, SameButWd (s₁.sched.pcbs p) (s₂.sched.pcbs p)) ∧
    ∀ p ∈ s₂.procs, ∀ child : Pcb, SameButWd child (child.copyWd (s₂.sched.pcbs p).wd) := by
  have h0 : DirsInv ms s₀ := by
    refine ⟨fun p hp => (hstart p hp).1, fun p hp => ⟨[slash], (hstart p hp).2, by decide, List.prefix_refl _, rfl,
      .inl rfl⟩⟩
  have hinv₁ := h₁.invariant (DirsInv ms) h0 fun s op s' h hs => (h.step ha hs).1
  obtain ⟨hinv₂, -, hsame⟩ := h₂.invariant (fun s => DirsInv ms s ∧ (∀ p ∈ s₁.procs, p ∈ s.procs) ∧
      ∀ p ∈ s₁.procs, SameButWd (s₁.sched.pcbs p) (s.sched.pcbs p))
    ⟨hinv₁, fun _ hp => hp, fun _ _ => .refl _⟩ fun s op s' ⟨h, hmem, hsame⟩ hs => by
      obtain ⟨hinv, hmem', hsame'⟩ := h.step ha hs
      exact ⟨hinv, fun p hp => hmem' p (hmem p hp), fun p hp => (hsame p hp).trans (hsame' p (hmem p hp))⟩
  refine ⟨hinv₂.wd, hsame, fun p hp child => ?_⟩
  obtain ⟨w, hw⟩ := hinv₂.wd p hp
  exact sameButWd_kstrcpy hw.spells hw.length_lt (by decide) child

end runs

/-! ## A directory of any name -/

def dirMember (name : List Byte) : Member := ⟨name ++ [slash], []⟩

/-- The archive of one directory. -/
def dirArchive (name : List Byte) : Tarfs := .pack [dirMember name]

theorem dirArchive_rest (name : List Byte) (hlen : name.length < 99) (hne : ∀ c ∈ name, c ≠ 0) :
    (dirArchive name).Rest 0 [dirMember name] (archiveBytes [dirMember name]) := by
  have hvalid : (dirMember name).Valid := by
    refine ⟨by simp [dirMember], by simp [dirMember]; omega, fun c hc => ?_, show 0 < 8 ^ 11 by decide⟩
    rcases List.mem_append.1 hc with hc | hc
    · exact hne c hc
    · rw [List.mem_singleton.1 hc]
      decide
  have hheader := hvalid.isHeader.length_eq
  refine (Tarfs.pack_laid (by simpa using hvalid) (by simp) ?_).rest
  have hcontent : (dirMember name).content = [] := rfl
  simp only [archiveBytes, List.length_append, List.length_replicate, hheader, hcontent, List.length_nil, padding]
  omega

/-- Only the shell, in the root directory. -/
def shellOnly : Dirs := ⟨{ (default : Sched) with created := 2, pcbs := fun _ => inRoot }, [2]⟩

theorem shellOnly_start : ∀ p ∈ shellOnly.procs,
    p ≤ shellOnly.sched.created ∧ Spells (shellOnly.sched.pcbs p).wd [slash] := by
  intro p hp
  obtain rfl := List.mem_singleton.1 hp
  exact ⟨by decide, inRoot_wd⟩

/-- It changes to the directory. -/
theorem shellOnly_chdir (name : List Byte) (hlen : name.length < 52) (hne : ∀ c ∈ name, c ≠ 0)
    (hmerged : merged [slash] name = slash :: name) (hnormal : normalText (slash :: name) = slash :: name)
    (hslash : slash ∉ name) :
    ∃ (g' : PathBuf) (dirname : Nat → Byte), Spells dirname name ∧ Spells g'.abspath (slash :: name ++ [slash]) ∧
      DirStep (dirArchive name) shellOnly (.chdir 2 ⟨0, fun _ => 0, fun _ => 0⟩ dirname)
        ⟨shellOnly.sched.modify 2 fun _ => inRoot.withWd g'.abspath, [2]⟩ := by
  have hname : Spells (overwrite 0 (name ++ [0]) fun _ => 0) name := spells_overwrite hne
  have hcount : (slash :: name).count slash ≤ 13 := by
    rw [List.count_cons_self, List.count_eq_zero.2 hslash]
    decide
  have hrest := dirArchive_rest name (by omega) hne
  obtain ⟨hat, -⟩ := hrest.cons_inv
  have hdir : (dirArchive name).DirAt (name ++ [slash]) := ⟨_, .here hat.lt hat.name, hat.size⟩
  have hlong : (slash :: name).length < 99 := by
    rw [List.length_cons]
    omega
  obtain ⟨g', hspell, hret⟩ := doChdir_finds inRoot_wd hname hmerged (by omega) hcount
    (.inr (by rw [hnormal]; exact hdir)) ⟨0, fun _ => 0, fun _ => 0⟩
  rw [hnormal] at hspell
  rw [Pcb.changeWd_eq hspell (by simp; omega)] at hret
  exact ⟨g', _, hname, hspell, .chdir (by decide) inRoot_wd hname (by rw [hmerged]; exact hlong)
    (by rw [hmerged]; exact hcount) hret⟩

def binName : List Byte := [0x62, 0x69, 0x6e]

/-- The shell changes to `bin` and forks. -/
theorem working_dirs_bin : ∃ ops s,
    Run (Guarded (WdFits (dirArchive binName) [dirMember binName]) (DirStep (dirArchive binName))) shellOnly ops s ∧
      s.procs = [3, 2] ∧ ∀ p ∈ s.procs, ∃ w, WdOk [dirMember binName] (s.sched.pcbs p) w := by
  have hrest := dirArchive_rest binName (by decide) (by decide)
  obtain ⟨g', dirname, hname, -, hchdir⟩ :=
    shellOnly_chdir binName (by decide) (by decide) (by decide) (by decide) (by decide)
  have hfits : WdFits (dirArchive binName) [dirMember binName] shellOnly
      (.chdir 2 ⟨0, fun _ => 0, fun _ => 0⟩ dirname) := by
    intro base rel hbase hrel h hv _
    obtain rfl := hbase.unique inRoot_wd
    obtain rfl := hrel.unique hname
    refine ⟨by decide, ?_⟩
    simpa using hrest.mem_of_visits (by simp) (by decide) hv
  have hfirst : Run (Guarded (WdFits (dirArchive binName) [dirMember binName]) (DirStep (dirArchive binName)))
      shellOnly _ _ :=
    .single ⟨hfits, hchdir⟩
  have hfork : ∀ s, WdFits (dirArchive binName) [dirMember binName] s (.fork 2 0 0 0) := fun _ => trivial
  have hrun := hfirst.snoc ⟨hfork _, .fork (List.mem_singleton_self 2)⟩
  exact ⟨_, _, hrun, rfl, (working_dirs hrest shellOnly_start .nil hrun).1⟩

/-- A directory of 49 characters, with its slash 50, is found, and its absolute name runs over the end of `wd`. -/
theorem working_dirs_overrun : ¬∀ (t : Tarfs) (ms : List Member) (bs : List Byte) (s₀ s : Dirs) (ops : List DirOp),
    t.Rest 0 ms bs → (∀ p ∈ s₀.procs, p ≤ s₀.sched.created ∧ Spells (s₀.sched.pcbs p).wd [slash]) →
    Run (DirStep t) s₀ ops s → ∀ p ∈ s.procs, ∃ w, WdOk ms (s.sched.pcbs p) w := by
  intro hall
  obtain ⟨g', dirname, -, hspell, hchdir⟩ :=
    shellOnly_chdir (List.replicate 49 0x64) (by decide) (by decide) (by decide) (by decide) (by decide)
  have hrest := dirArchive_rest (List.replicate 49 0x64) (by decide) (by decide)
  obtain ⟨w, hw⟩ := hall _ _ _ _ _ _ hrest shellOnly_start (.single hchdir) 2 (List.mem_singleton_self 2)
  have hlong : Spells (inRoot.withWd g'.abspath).wd (slash :: List.replicate 49 0x64 ++ [slash]) :=
    spells_kstrcpy hspell (by decide) inRoot
  have hlen := hw.length_lt
  rw [Sched.modify_pcbs_self] at hw
  rw [hw.spells.unique hlong] at hlen
  exact absurd hlen (by decide)

end Sbuos
