import Sbuos.Dents
import Sbuos.WorkingDir
/-!
# What a listing records (sys/tarfs.c:168-208)

`_fill_dents_by_path` takes a header for an entry of the directory if its name begins with the directory's and has no
slash behind that, except as its last character. The directory's own header passes that test, with nothing left for
the name of the entry.

**`fill_dents_children`**: the entries are the immediate children exactly where no header visited has the directory's
own name, and the names fit.
-/
namespace Sbuos
open Lib

/-- An immediate child of the directory `w`: something follows the directory's name, and no slash in it but at its
end. -/
def IsChild (w name : List Byte) : Prop := InDir w name ∧ name ≠ w

instance (w name : List Byte) : Decidable (IsChild w name) := inferInstanceAs (Decidable (_ ∧ _))

/-- The string in `d_name`, which has 256 bytes. -/
structure Dirent.Named (d : Dirent) (name : List Byte) : Prop where
  spells : Spells d.name name
  length_lt : name.length < 256

/-- The call returns, with an entry for each child of `w` among `names`, in order and numbered from 1 on, and no
other. -/
def ListsChildren (t : Tarfs) (path : Nat → Byte) (w : List Byte) (names : List (List Byte)) (buffer : Nat → Dirent)
    (dirSize : Word) : Prop :=
  ∃ r, Returns (fun fuel => t.fillDentsByPath fuel path buffer dirSize) r ∧
    r.entries = (names.filter fun name => IsChild w name).length ∧
    ∀ i name, (names.filter fun name => IsChild w name)[i]? = some name →
      (r.buffer i).ino = BitVec.ofNat 64 (i + 1) ∧ (r.buffer i).Named (name.drop w.length)

section children
variable {t : Tarfs} {path : Nat → Byte} {w : List Byte} {vs : List (Word × List Byte)} {atEmpty : Bool}
  {offset dirSize : Word} {buffer : Nat → Dirent}

theorem Tarfs.Visited.spells (h : t.Visited offset vs atEmpty) : ∀ v ∈ vs, Spells (t.view v.1) v.2 := by
  induction h with
  | empty => exact nofun
  | bound => exact nofun
  | header _ hs _ _ ih => exact List.forall_mem_cons.2 ⟨hs, ih⟩

/-- What the call leaves in the entries it recorded, if it can count up to `dir_size`. -/
theorem fillDentsByPath_returns (h : t.Visited 0 vs atEmpty) (hpath : Spells path w)
    (hend : atEmpty = true ∨ dirSize.toNat < 2 ^ 31) (buffer : Nat → Dirent) :
    ∃ r, Returns (fun fuel => t.fillDentsByPath fuel path buffer dirSize) r ∧ r.entries = (headersIn w vs).length ∧
      ∀ i < (headersIn w vs).length, r.buffer i = recordAll t w.length (headersIn w vs) 0 buffer i := by
  obtain ⟨n, hn⟩ := h.fillDentsFrom hpath 0 buffer
  have hwalk : ∀ fuel, max n (w.length + 1) ≤ fuel → t.fillDentsFrom path w.length fuel 0 0 buffer = _ :=
    fun fuel hf => hn fuel (by omega)
  have hlen : ∀ fuel, max n (w.length + 1) ≤ fuel → kstrlen fuel path = some w.length :=
    fun fuel hf => hpath.kstrlen (by omega)
  by_cases hempty : atEmpty = true
  · refine ⟨⟨recordAll t w.length (headersIn w vs) 0 buffer, 0 + (headersIn w vs).length, 0 + (headersIn w vs).length⟩,
      .of_le (max n (w.length + 1)) fun fuel hf => ?_, Nat.zero_add _, fun _ _ => rfl⟩
    rw [Tarfs.fillDentsByPath, hlen fuel hf]
    simp only [Option.bind_eq_bind, Option.bind_some, hwalk fuel hf, if_pos hempty]
  · have hsize := hend.resolve_left hempty
    refine ⟨⟨fun i => if 0 + (headersIn w vs).length ≤ i ∧ i < dirSize.toNat then
        { recordAll t w.length (headersIn w vs) 0 buffer i with ino := 0 }
      else recordAll t w.length (headersIn w vs) 0 buffer i, 0 + (headersIn w vs).length,
      max (0 + (headersIn w vs).length) dirSize.toNat⟩,
      .of_le (max n (w.length + 1)) fun fuel hf => ?_, Nat.zero_add _, fun i hi => ?_⟩
    · rw [Tarfs.fillDentsByPath, hlen fuel hf]
      simp only [Option.bind_eq_bind, Option.bind_some, hwalk fuel hf, if_neg hempty, if_pos hsize]
    · exact if_neg (by omega)

/-- Otherwise it runs into an overflow. -/
theorem not_returns_fillDentsByPath (h : t.Visited 0 vs atEmpty) (hpath : Spells path w)
    (hend : ¬(atEmpty = true ∨ dirSize.toNat < 2 ^ 31)) (buffer : Nat → Dirent) (r : Listing) :
    ¬Returns (fun fuel => t.fillDentsByPath fuel path buffer dirSize) r := by
  rw [not_or] at hend
  rintro ⟨m, hm⟩
  obtain ⟨n, hn⟩ := h.fillDentsFrom hpath 0 buffer
  obtain ⟨fuel, hmf, hnf, hwf⟩ : ∃ fuel, m ≤ fuel ∧ n ≤ fuel ∧ w.length < fuel :=
    ⟨m + n + w.length + 1, by omega, by omega, by omega⟩
  have hwalk : t.fillDentsFrom path w.length fuel 0 0 buffer = _ := hn fuel hnf
  have hsome : t.fillDentsByPath fuel path buffer dirSize = some r := hm fuel hmf
  rw [Tarfs.fillDentsByPath, hpath.kstrlen hwf] at hsome
  simp only [Option.bind_eq_bind, Option.bind_some, hwalk, if_neg hend.1, if_neg hend.2] at hsome
  cases hsome

/-! ## Headers and children -/

/-- The headers in the directory are those of the children, and its own. -/
theorem length_headersIn : (headersIn w vs).length = ((vs.map Prod.snd).filter fun name => InDir w name).length := by
  rw [headersIn, List.length_map, List.filter_map, List.length_map]
  rfl

theorem filter_isChild (names : List (List Byte)) : (names.filter fun name => IsChild w name) =
    (names.filter fun name => InDir w name).filter fun name => name ≠ w := by
  rw [List.filter_filter]
  refine List.filter_congr fun name _ => ?_
  simp [IsChild, and_comm]

theorem inDir_self (w : List Byte) : InDir w w := ⟨List.prefix_refl w, by simp⟩

/-- There is an entry for each child only if the directory's own header is not visited. -/
theorem length_children_iff : ((vs.map Prod.snd).filter fun name => IsChild w name).length = (headersIn w vs).length ↔
    w ∉ vs.map Prod.snd := by
  rw [length_headersIn, filter_isChild, List.length_filter_eq_length_iff]
  constructor
  · intro hall hw
    have := hall w (List.mem_filter.2 ⟨hw, decide_eq_true (inDir_self w)⟩)
    simp at this
  · intro hw name hname
    refine decide_eq_true fun he => hw ?_
    rw [← he]
    exact (List.mem_filter.1 hname).1

/-- The header of a child. -/
theorem header_of_child (hw : w ∉ vs.map Prod.snd) {i : Nat} {name : List Byte}
    (h : ((vs.map Prod.snd).filter fun name => IsChild w name)[i]? = some name) :
    ∃ p, (p, name) ∈ vs ∧ (headersIn w vs)[i]? = some p := by
  have hfilter : ((vs.map Prod.snd).filter fun name => IsChild w name) =
      (vs.filter fun v => InDir w v.2).map Prod.snd := by
    rw [filter_isChild, List.filter_eq_self.2 fun u hu => decide_eq_true ?_, List.filter_map]
    · rfl
    · rintro rfl
      exact hw (List.mem_filter.1 hu).1
  rw [hfilter, List.getElem?_map] at h
  obtain ⟨v, hv, rfl⟩ := Option.map_eq_some_iff.1 h
  refine ⟨v.1, (List.mem_filter.1 (List.mem_of_getElem? hv)).1, ?_⟩
  rw [headersIn, List.getElem?_map, hv]
  rfl

/-- What the entry of a child holds. -/
theorem entry_of_child (hv : t.Visited 0 vs atEmpty) (hw : w ∉ vs.map Prod.snd) {i : Nat} {name : List Byte}
    (h : ((vs.map Prod.snd).filter fun name => IsChild w name)[i]? = some name) (buffer : Nat → Dirent) :
    ∃ p old, i < (headersIn w vs).length ∧ Spells (t.view p) name ∧
      recordAll t w.length (headersIn w vs) 0 buffer i = Dirent.record (t.view p) w.length i old := by
  obtain ⟨p, hp, hget⟩ := header_of_child hw h
  have hentry := recordAll_get t w.length (headersIn w vs) 0 i buffer hget
  rw [Nat.zero_add] at hentry
  exact ⟨p, buffer i, (List.getElem?_eq_some_iff.1 hget).1, hv.spells _ hp, hentry⟩

/-- The name in an entry is what follows the directory's name. -/
theorem named_record {name : Nat → Byte} {u : List Byte} (h : Spells name u) {l : Nat} (hl : l ≤ u.length) (i : Nat)
    (d : Dirent) (hlen : (u.drop l).length < 256) : (d.record name l i).Named (u.drop l) := by
  refine ⟨?_, hlen⟩
  have hrest := spells_shift h hl
  have hmax : nameMax = 255 := rfl
  rw [Dirent.record, hrest.kstrcpy (by omega)]
  exact spells_overwrite hrest.ne_zero

/-- A listing of the children has not met the directory's own header, nor a name that does not fit. -/
theorem ListsChildren.fits (hv : t.Visited 0 vs atEmpty) (hpath : Spells path w)
    (h : ListsChildren t path w (vs.map Prod.snd) buffer dirSize) :
    w ∉ vs.map Prod.snd ∧ (∀ name ∈ vs.map Prod.snd, IsChild w name → (name.drop w.length).length < 256) ∧
      (atEmpty = true ∨ dirSize.toNat < 2 ^ 31) := by
  obtain ⟨r, hret, hentries, hlist⟩ := h
  have hend : atEmpty = true ∨ dirSize.toNat < 2 ^ 31 := by
    by_contra hover
    exact not_returns_fillDentsByPath hv hpath hover buffer r hret
  obtain ⟨r', hret', hlen, -⟩ := fillDentsByPath_returns hv hpath hend buffer
  obtain rfl := hret.unique hret'
  refine ⟨length_children_iff.1 (hentries.symm.trans hlen), fun name hname hchild => ?_, hend⟩
  have hmem : name ∈ (vs.map Prod.snd).filter fun name => IsChild w name :=
    List.mem_filter.2 ⟨hname, decide_eq_true hchild⟩
  obtain ⟨i, hi⟩ := List.getElem?_of_mem hmem
  exact (hlist i name hi).2.length_lt

/-- **A listing records the children** of the directory exactly where no header visited has the directory's own name,
what is left of each child's name fits `d_name`, and the walk ends at an empty name or the size given is one that an
`int` can count up to. -/
theorem fill_dents_children (hv : t.Visited 0 vs atEmpty) (hpath : Spells path w) (buffer : Nat → Dirent)
    (dirSize : Word) :
    ListsChildren t path w (vs.map Prod.snd) buffer dirSize ↔
      w ∉ vs.map Prod.snd ∧
      (∀ name ∈ vs.map Prod.snd, IsChild w name → (name.drop w.length).length < 256) ∧
      (atEmpty = true ∨ dirSize.toNat < 2 ^ 31) := by
  refine ⟨fun h => h.fits hv hpath, fun ⟨hw, hfits, hend⟩ => ?_⟩
  obtain ⟨r, hret, hlen, hbuffer⟩ := fillDentsByPath_returns hv hpath hend buffer
  refine ⟨r, hret, hlen.trans (length_children_iff.2 hw).symm, fun i name hi => ?_⟩
  obtain ⟨hname, hchild⟩ := List.mem_filter.1 (List.mem_of_getElem? hi)
  have hchild : IsChild w name := of_decide_eq_true hchild
  obtain ⟨p, old, hlt, hspell, hentry⟩ := entry_of_child hv hw hi buffer
  rw [hbuffer i hlt, hentry]
  exact ⟨rfl, named_record hspell hchild.1.1.length_le i old (hfits name hname hchild)⟩

end children

/-! ## In an archive -/

theorem Tarfs.Stops.visited {t : Tarfs} {off : Nat} (h : t.Stops off) :
    ∃ atEmpty, t.Visited (BitVec.ofNat 64 off) [] atEmpty := by
  by_cases hlt : t.tarStart + BitVec.ofNat 64 off < t.tarEnd
  · exact ⟨true, .empty hlt ⟨nofun, nofun, h hlt⟩⟩
  · exact ⟨false, .bound hlt⟩

/-- Where no size but the last is a non-zero multiple of 512, the headers visited are the members'. -/
theorem Tarfs.Rest.visited {t : Tarfs} {off : Nat} {ms : List Member} {bs : List Byte} (h : t.Rest off ms bs)
    (heven : ∀ m ∈ ms.dropLast, m.Even) :
    ∃ vs atEmpty, t.Visited (BitVec.ofNat 64 off) vs atEmpty ∧ vs.map Prod.snd = ms.map Member.name := by
  induction ms generalizing off bs with
  | nil =>
    obtain ⟨atEmpty, hv⟩ := Tarfs.Stops.visited (h.nil_stops (Nat.zero_le 512))
    exact ⟨[], atEmpty, hv, rfl⟩
  | cons m ms ih =>
    obtain ⟨hat, -, bs', hrest⟩ := h.cons_inv
    obtain ⟨vs, atEmpty, hv, hnames⟩ : ∃ vs atEmpty,
        t.Visited (t.nextOffset (BitVec.ofNat 64 off)) vs atEmpty ∧ vs.map Prod.snd = ms.map Member.name := by
      rw [hat.nextOffset]
      cases ms with
      | nil =>
        obtain ⟨atEmpty, hv⟩ := h.last_stops.visited
        exact ⟨[], atEmpty, hv, rfl⟩
      | cons m' ms =>
        rw [Tarfs.walked_of_even (heven m (by simp))]
        exact ih hrest fun m'' hm => heven m'' (by simp [hm])
    exact ⟨_, atEmpty, .header hat.lt hat.name hat.name_ne_nil hv, congrArg (m.name :: ·) hnames⟩

/-- `bin/`, `bin/l`, `d/` and a file of one block. -/
def rootMembers : List Member := [dirMember binName, ⟨binName ++ [slash, 0x6c], [0]⟩, dirMember [0x64], Tarfs.oneBlock]

theorem rootMembers_laid : (Tarfs.pack rootMembers).Laid rootMembers (archiveBytes rootMembers) := by
  have hvalid : ∀ m ∈ rootMembers, m.Valid := by
    intro m hm
    rw [rootMembers, List.mem_cons, List.mem_cons, List.mem_cons, List.mem_singleton] at hm
    rcases hm with rfl | rfl | rfl | rfl
    · exact ⟨by decide, by decide, by decide, by decide⟩
    · exact ⟨by decide, by decide, by decide, by decide⟩
    · exact ⟨by decide, by decide, by decide, by decide⟩
    · exact Tarfs.oneBlock_valid
  refine Tarfs.pack_laid hvalid (by decide) ?_
  simp only [rootMembers, List.forall_mem_cons] at hvalid
  obtain ⟨hbin, hl, hd, hblock, -⟩ := hvalid
  simp only [rootMembers, archiveBytes, List.length_append, List.length_replicate, hbin.isHeader.length_eq,
    hl.isHeader.length_eq, hd.isHeader.length_eq, hblock.isHeader.length_eq, padding, Tarfs.oneBlock_length]
  decide

/-- The root has two directories and a file. What is in `bin/` is not listed. -/
theorem fill_dents_children_root : ∃ names,
    ListsChildren (.pack rootMembers) (cString "") [] names (fun _ => ⟨0, 0, 0, fun _ => 0⟩) 48 ∧
      names.filter (fun name => IsChild [] name) = [binName ++ [slash], [0x64, slash], [0x61]] := by
  have heven : ∀ m ∈ rootMembers.dropLast, m.Even := by
    simp [rootMembers, Member.Even, dirMember]
  obtain ⟨vs, atEmpty, hv, hnames⟩ := rootMembers_laid.rest.visited heven
  have hroot : Spells (cString "") [] := spells_cString rfl (by decide)
  have hnames : vs.map Prod.snd = [binName ++ [slash], binName ++ [slash, 0x6c], [0x64, slash], [0x61]] := hnames
  refine ⟨_, (fill_dents_children hv hroot _ 48).2 ⟨?_, ?_, .inr (by decide)⟩, ?_⟩
  · rw [hnames]
    decide
  · rw [hnames]
    decide
  · rw [hnames]
    decide

/-- A directory lists itself, without a name. -/
theorem fill_dents_children_itself : ¬∀ (t : Tarfs) (path : Nat → Byte) (w : List Byte) (vs : List (Word × List Byte))
    (atEmpty : Bool) (buffer : Nat → Dirent), t.Visited 0 vs atEmpty → Spells path w →
    (w = [] ∨ w ∈ vs.map Prod.snd ∧ w.getLast? = some slash) →
    ListsChildren t path w (vs.map Prod.snd) buffer 16 := by
  intro hall
  obtain ⟨vs, atEmpty, hv, hnames⟩ := (dirArchive_rest binName (by decide) (by decide)).visited (by simp)
  have hpath : Spells (cString "bin/") (binName ++ [slash]) := spells_cString rfl (by decide)
  have hmem : binName ++ [slash] ∈ vs.map Prod.snd := by
    rw [hnames]
    exact List.mem_singleton_self _
  have hlist := hall _ _ _ vs atEmpty (fun _ => ⟨0, 0, 0, fun _ => 0⟩) hv hpath (.inr ⟨hmem, by decide⟩)
  exact (hlist.fits hv hpath).1 hmem

end Sbuos
