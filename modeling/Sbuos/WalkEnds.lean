import Sbuos.Dents
import Mathlib.Logic.Relation
/-!
# Whether the archive walks end (sys/tarfs.c:10-21, 75-94, 168-201)

The walk steps over the size that the eleven characters of a header stand for, and nothing checks that they are
octal digits: a character below `'0'` counts negative. `decodedSize` is the number they stand for, `stride` the
step that comes of it; both are taken modulo `2^64`.

**`archive_walks_end`**: the offset grows at every turn, and the walk ends, exactly when the sizes on its way are
not below -512 and lead past no end of the 64-bit range.
-/
namespace Sbuos
open Lib

/-- The number that a size field stands for. -/
def decodedSize (s : Nat → Byte) : Int := (List.range 11).foldl (fun res i => res * 8 + ((s i).toInt - 0x30)) 0

/-- The step over a header and a content of this size. -/
def stride (size : Int) : Int := if size = 0 then 512 else 512 * (size / 512) + 1024

/-- From `offset` a step over this size leads to a larger offset: the size is not below -512 and the end of the
64-bit range not reached, or it is so far below that the offset wraps round at 0. -/
def StepsUp (offset : Word) (size : Int) : Prop :=
  -512 ≤ size ∧ offset.toNat + stride size < 2 ^ 64 ∨ offset.toNat + stride size < 0

namespace Tarfs

/-- The decoded size of the header at `offset`. -/
def sizeAt (t : Tarfs) (offset : Word) : Int := decodedSize (t.view (t.tarStart + offset + 124))

/-- The first name, if there is one, ends: memory has a NUL. -/
def Terminated (t : Tarfs) : Prop := t.tarStart < t.tarEnd → ∃ a, t.mem a = 0

/-- A turn of the walk that does not return; it returns at a name for which `stop` holds. -/
inductive Turn (t : Tarfs) (stop : List Byte → Prop) (offset : Word) : Word → Prop
  | next {w : List Byte} : t.tarStart + offset < t.tarEnd → Spells (t.view (t.tarStart + offset)) w → w ≠ [] →
      ¬stop w → Turn t stop offset (t.nextOffset offset)

/-- The walk comes to this offset. -/
def Comes (t : Tarfs) (stop : List Byte → Prop) (offset : Word) : Prop := Relation.ReflTransGen (t.Turn stop) 0 offset

/-- The offset grows at every turn of the walk. -/
def Grows (t : Tarfs) (stop : List Byte → Prop) : Prop :=
  ∀ offset next, t.Comes stop offset → t.Turn stop offset next → offset < next

/-- A lookup of `w` ends, whatever it does with the header it comes to, and its offset grows all the way. -/
def LookupEnds (t : Tarfs) (path : Nat → Byte) (w : List Byte) : Prop :=
  t.Grows (· = w) ∧ ∀ (α : Type) (found : Word → Word → α) (absent : α),
    ∃ r, Returns (fun fuel => t.tarWalk (skipSlash path) found absent fuel 0) r

/-- The same of the loop of `_fill_dents_by_path`. -/
def DentsEnd (t : Tarfs) (path : Nat → Byte) (w : List Byte) : Prop :=
  t.Grows (fun _ => False) ∧ ∀ buffer, ∃ r, Returns (fun fuel => t.fillDentsFrom path w.length fuel 0 0 buffer) r

/-- Every size the walk steps over leads up. -/
def SizesUp (t : Tarfs) (stop : List Byte → Prop) : Prop :=
  ∀ offset next, t.Comes stop offset → t.Turn stop offset next → StepsUp offset (t.sizeAt offset)

end Tarfs

/-! ## The stride -/

section stride
variable {s : Nat → Byte}

theorem tarSize_eq (s : Nat → Byte) : tarSize s = BitVec.ofInt 64 (decodedSize s) := by
  rw [tarSize, decodedSize]
  have hloop : ∀ n, (List.range n).foldl (fun res i => res * 8 + ((s i).signExtend 64 - 0x30)) (0 : Word) =
      BitVec.ofInt 64 ((List.range n).foldl (fun res i => res * 8 + ((s i).toInt - 0x30)) 0) := by
    intro n
    induction n with
    | zero => rfl
    | succ n ih =>
      have h8 : BitVec.ofInt 64 8 = 8 := rfl
      have h48 : BitVec.ofInt 64 0x30 = 0x30 := rfl
      rw [List.range_succ, List.foldl_append, List.foldl_append, List.foldl_cons, List.foldl_cons, List.foldl_nil,
        List.foldl_nil, ih, BitVec.ofInt_add, BitVec.ofInt_mul, Int.sub_eq_add_neg, BitVec.ofInt_add, BitVec.ofInt_neg,
        h8, h48, BitVec.signExtend, BitVec.sub_eq_add_neg]
  exact hloop 11

/-- Eleven characters stand for no number of 38 bits. -/
theorem abs_decodedSize (s : Nat → Byte) : -2 ^ 38 < decodedSize s ∧ decodedSize s < 2 ^ 38 := by
  have hloop : ∀ n, -(26 * 8 ^ n : Int) + 26 ≤ (List.range n).foldl (fun res i => res * 8 + ((s i).toInt - 0x30)) 0 ∧
      (List.range n).foldl (fun res i => res * 8 + ((s i).toInt - 0x30)) 0 ≤ 26 * 8 ^ n - 26 := by
    intro n
    induction n with
    | zero => exact ⟨Int.le_refl 0, Int.le_refl 0⟩
    | succ n ih =>
      rw [List.range_succ, List.foldl_append, List.foldl_cons, List.foldl_nil, Int.pow_succ]
      have hlo := (s n).le_toInt
      have hhi := (s n).toInt_lt
      omega
  have := hloop 11
  rw [decodedSize]
  omega

/-- The walk goes on by the stride of the decoded size. -/
theorem toNat_nextOffset (t : Tarfs) (offset : Word) :
    ((t.nextOffset offset).toNat : Int) = (offset.toNat + stride (t.sizeAt offset)) % 2 ^ 64 := by
  have hsize : t.headerSize (t.tarStart + offset) = BitVec.ofInt 64 (t.sizeAt offset) := tarSize_eq _
  obtain ⟨hlo, hhi⟩ : -2 ^ 38 < t.sizeAt offset ∧ t.sizeAt offset < 2 ^ 38 := abs_decodedSize _
  rw [Tarfs.nextOffset, hsize]
  generalize t.sizeAt offset = σ at *
  have hnat : ((BitVec.ofInt 64 σ).toNat : Int) = σ % 2 ^ 64 := by
    rw [BitVec.toNat_ofInt]
    omega
  have hzero : BitVec.ofInt 64 σ = 0 ↔ σ = 0 := by
    constructor
    · intro h
      rw [h] at hnat
      have : ((0 : Word).toNat : Int) = 0 := rfl
      omega
    · rintro rfl
      rfl
  have hround : ((tarSizeRoundup (BitVec.ofInt 64 σ)).toNat : Int) = if σ = 0 then 0 else 512 - σ % 512 := by
    rw [tarSizeRoundup]
    by_cases h0 : σ = 0
    · rw [if_pos (hzero.2 h0), if_pos h0]
      rfl
    · rw [if_neg (mt hzero.1 h0), if_neg h0, BitVec.toNat_sub, BitVec.toNat_umod]
      have h512 : (512 : Word).toNat = 512 := rfl
      rw [h512]
      omega
  rw [BitVec.toNat_add, BitVec.toNat_add, BitVec.toNat_add, stride]
  have h512 : (512 : Word).toNat = 512 := rfl
  rw [h512]
  split at hround
  · rename_i h0
    rw [if_pos h0]
    omega
  · rename_i h0
    rw [if_neg h0]
    omega

/-- **One turn**: the offset grows exactly where the size leads up. -/
theorem lt_nextOffset (t : Tarfs) (offset : Word) :
    offset < t.nextOffset offset ↔ StepsUp offset (t.sizeAt offset) := by
  have hnext := toNat_nextOffset t offset
  obtain ⟨hlo, hhi⟩ : -2 ^ 38 < t.sizeAt offset ∧ t.sizeAt offset < 2 ^ 38 := abs_decodedSize _
  have hoff := offset.isLt
  rw [BitVec.lt_def, StepsUp]
  rw [stride] at *
  split at hnext
  · rename_i h0
    rw [if_pos h0]
    omega
  · rename_i h0
    rw [if_neg h0]
    omega

end stride

namespace Tarfs
variable {t : Tarfs} {stop : List Byte → Prop} {offset : Word} {path : Nat → Byte} {w : List Byte}

theorem grows_iff : t.Grows stop ↔ t.SizesUp stop := by
  constructor
  · intro h offset next hc hturn
    have hlt := h offset next hc hturn
    cases hturn
    exact (lt_nextOffset t offset).1 hlt
  · intro h offset next hc hturn
    have hup := h offset next hc hturn
    cases hturn
    exact (lt_nextOffset t offset).2 hup

/-! ## The ends -/

/-- With a NUL somewhere, a string begins at every address. -/
theorem exists_spells_view (hmem : ∃ a, t.mem a = 0) (p : Word) : ∃ w, Spells (t.view p) w := by
  obtain ⟨a, ha⟩ := hmem
  refine exists_spells_of_nul (n := (a - p).toNat) ?_
  rw [view, BitVec.ofNat_toNat, BitVec.setWidth_eq, BitVec.add_comm, BitVec.sub_add_cancel]
  exact ha

/-- The walk for `w` ends if its offset grows. -/
theorem Grows.tarWalk {α : Type} (h : t.Grows (· = w)) (hmem : ∃ a, t.mem a = 0) (hw : Spells path w)
    (found : Word → Word → α) (absent : α) (hc : t.Comes (· = w) offset) :
    ∃ r, Returns (fun fuel => t.tarWalk path found absent fuel offset) r := by
  induction hk : 2 ^ 64 - offset.toNat using Nat.strong_induction_on generalizing offset with
  | _ k ih =>
    subst hk
    by_cases hlt : t.tarStart + offset < t.tarEnd
    · obtain ⟨w', hs⟩ := exists_spells_view hmem (t.tarStart + offset)
      by_cases hne : w' = []
      · refine ⟨absent, .of_le 1 fun fuel hf => ?_⟩
        obtain ⟨fuel, rfl⟩ := Nat.exists_eq_add_of_le' hf
        rw [Tarfs.tarWalk, if_pos hlt, hs.kstrlen (by rw [hne]; exact Nat.zero_lt_succ fuel), hne]
        rfl
      · have hlen : w'.length ≠ 0 := mt List.length_eq_zero_iff.1 hne
        by_cases hother : w' = w
        · refine ⟨found (t.tarStart + offset) (t.headerSize (t.tarStart + offset)), ?_⟩
          rw [hother] at hs
          exact (Visits.here hlt hs).tarWalk found absent hw (hother ▸ hne)
        · have hturn : t.Turn (· = w) offset (t.nextOffset offset) := .next hlt hs hne hother
          have hup := BitVec.lt_def.1 (h _ _ hc hturn)
          have hlast := (t.nextOffset offset).isLt
          obtain ⟨r, n, hn⟩ := ih _ (by omega) (hc.tail hturn) rfl
          refine ⟨r, .of_le (max n (max w.length w'.length) + 1) fun fuel hf => ?_⟩
          obtain ⟨fuel, rfl⟩ : ∃ f, fuel = f + 1 := ⟨fuel - 1, by omega⟩
          obtain ⟨d, hd, hd0⟩ := hs.kstrcmp hw (show w'.length < fuel + 1 by omega) (by omega)
          rw [Tarfs.tarWalk, if_pos hlt, hs.kstrlen (by omega)]
          simp only [Option.bind_eq_bind, Option.bind_some, if_neg hlen, hd, if_neg fun h0 => hother (hd0.1 h0)]
          exact hn fuel (by omega)
    · refine ⟨absent, .of_le 1 fun fuel hf => ?_⟩
      obtain ⟨fuel, rfl⟩ := Nat.exists_eq_add_of_le' hf
      rw [Tarfs.tarWalk, if_neg hlt]

/-- The loop of `_fill_dents_by_path` returns at an empty name only. -/
theorem Grows.fillDents (h : t.Grows fun _ => False) (hmem : ∃ a, t.mem a = 0) (hw : Spells path w)
    (entC : Nat) (buffer : Nat → Dirent) (hc : t.Comes (fun _ => False) offset) :
    ∃ r, Returns (fun fuel => t.fillDentsFrom path w.length fuel offset entC buffer) r := by
  induction hk : 2 ^ 64 - offset.toNat using Nat.strong_induction_on generalizing offset entC buffer with
  | _ k ih =>
    subst hk
    by_cases hlt : t.tarStart + offset < t.tarEnd
    · obtain ⟨w', hs⟩ := exists_spells_view hmem (t.tarStart + offset)
      by_cases hne : w' = []
      · refine ⟨(⟨buffer, entC, entC⟩, true), .of_le 1 fun fuel hf => ?_⟩
        obtain ⟨fuel, rfl⟩ := Nat.exists_eq_add_of_le' hf
        rw [fillDentsFrom, if_pos hlt, hs.kstrlen (by rw [hne]; exact Nat.zero_lt_succ fuel), hne]
        rfl
      · have hlen : w'.length ≠ 0 := mt List.length_eq_zero_iff.1 hne
        have hturn : t.Turn (fun _ => False) offset (t.nextOffset offset) := .next hlt hs hne id
        have hup := BitVec.lt_def.1 (h _ _ hc hturn)
        have hlast := (t.nextOffset offset).isLt
        -- the entry is recorded or not, and the walk goes on
        have hgo : ∀ entC' buffer', (∃ n, ∀ fuel, n ≤ fuel →
            t.fillDentsFrom path w.length (fuel + 1) offset entC buffer =
              t.fillDentsFrom path w.length fuel (t.nextOffset offset) entC' buffer') →
            ∃ r, Returns (fun fuel => t.fillDentsFrom path w.length fuel offset entC buffer) r := by
          rintro entC' buffer' ⟨n, hn⟩
          obtain ⟨r, m, hm⟩ := ih _ (by omega) entC' buffer' (hc.tail hturn) rfl
          refine ⟨r, .of_le (max n m + 1) fun fuel hf => ?_⟩
          obtain ⟨fuel, rfl⟩ : ∃ f, fuel = f + 1 := ⟨fuel - 1, by omega⟩
          exact (hn fuel (by omega)).trans (hm fuel (by omega))
        by_cases hlisted : w <+: w' ∧ slashCount (t.view (t.tarStart + offset)) w.length w'.length = 0
        · refine hgo (entC + 1)
            (Function.update buffer entC ((buffer entC).record (t.view (t.tarStart + offset)) w.length entC))
            ⟨max w.length w'.length, fun fuel hf => ?_⟩
          obtain ⟨d, hd, hiff⟩ := kstrstartswith_iff hs hw (show w.length < fuel + 1 by omega)
          rw [fillDentsFrom, if_pos hlt, hs.kstrlen (by omega)]
          simp only [Option.bind_eq_bind, Option.bind_some, if_neg hlen, hd]
          rw [if_pos ⟨hiff.2 hlisted.1, hlisted.2⟩]
        · refine hgo entC buffer ⟨max w.length w'.length, fun fuel hf => ?_⟩
          obtain ⟨d, hd, hiff⟩ := kstrstartswith_iff hs hw (show w.length < fuel + 1 by omega)
          rw [fillDentsFrom, if_pos hlt, hs.kstrlen (by omega)]
          simp only [Option.bind_eq_bind, Option.bind_some, if_neg hlen, hd]
          rw [if_neg fun h => hlisted ⟨hiff.1 h.1, h.2⟩]
    · refine ⟨(⟨buffer, entC, entC⟩, false), .of_le 1 fun fuel hf => ?_⟩
      obtain ⟨fuel, rfl⟩ := Nat.exists_eq_add_of_le' hf
      rw [fillDentsFrom, if_neg hlt]

theorem add_zero_offset (a : Word) : a + 0 = a := BitVec.add_zero a

theorem Grows.lookupEnds (h : t.Grows (· = w)) (hmem : t.Terminated) (hw : Spells (skipSlash path) w) :
    t.LookupEnds path w := by
  refine ⟨h, fun α found absent => ?_⟩
  by_cases hlt : t.tarStart < t.tarEnd
  · exact h.tarWalk (hmem hlt) hw found absent .refl
  · refine ⟨absent, .of_le 1 fun fuel hf => ?_⟩
    obtain ⟨fuel, rfl⟩ := Nat.exists_eq_add_of_le' hf
    rw [Tarfs.tarWalk, if_neg (by rwa [add_zero_offset])]

theorem Grows.dentsEnd (h : t.Grows fun _ => False) (hmem : t.Terminated) (hw : Spells path w) :
    t.DentsEnd path w := by
  refine ⟨h, fun buffer => ?_⟩
  by_cases hlt : t.tarStart < t.tarEnd
  · exact h.fillDents (hmem hlt) hw 0 buffer .refl
  · refine ⟨(⟨buffer, 0, 0⟩, false), .of_le 1 fun fuel hf => ?_⟩
    obtain ⟨fuel, rfl⟩ := Nat.exists_eq_add_of_le' hf
    rw [fillDentsFrom, if_neg (by rwa [add_zero_offset])]

/-- The first name has been read. -/
theorem terminated_of_kstrlen {fuel l : Nat} (h : kstrlen fuel (t.view (t.tarStart + 0)) = some l) : t.Terminated := by
  obtain ⟨w, hw, -⟩ := exists_spells_of_kstrlen h
  exact fun _ => ⟨_, hw.nul⟩

theorem LookupEnds.terminated (h : t.LookupEnds path w) : t.Terminated := by
  intro hlt
  obtain ⟨r, n, hn⟩ := h.2 Unit (fun _ _ => ()) ()
  have hrun : t.tarWalk (skipSlash path) _ _ (n + 1) 0 = some r := hn (n + 1) (Nat.le_succ n)
  rw [Tarfs.tarWalk, if_pos (by rwa [add_zero_offset])] at hrun
  obtain ⟨l, hl, -⟩ := Option.bind_eq_some_iff.1 hrun
  exact terminated_of_kstrlen hl hlt

theorem DentsEnd.terminated (h : t.DentsEnd path w) : t.Terminated := by
  intro hlt
  obtain ⟨r, n, hn⟩ := h.2 fun _ => ⟨0, 0, 0, fun _ => 0⟩
  have hrun : t.fillDentsFrom path w.length (n + 1) 0 0 _ = some r := hn (n + 1) (Nat.le_succ n)
  rw [fillDentsFrom, if_pos (by rwa [add_zero_offset])] at hrun
  obtain ⟨l, hl, -⟩ := Option.bind_eq_some_iff.1 hrun
  exact terminated_of_kstrlen hl hlt

/-- **The archive walks end** exactly when every size they step over leads up. -/
theorem archive_walks_end (t : Tarfs) :
    (∀ path w, Spells (skipSlash path) w → (t.LookupEnds path w ↔ t.Terminated ∧ t.SizesUp (· = w))) ∧
      ∀ path w, Spells path w → (t.DentsEnd path w ↔ t.Terminated ∧ t.SizesUp fun _ => False) := by
  refine ⟨fun path w hw => ⟨fun h => ⟨h.terminated, grows_iff.1 h.1⟩, fun h => ?_⟩, fun path w hw =>
    ⟨fun h => ⟨h.terminated, grows_iff.1 h.1⟩, fun h => ?_⟩⟩
  · exact (grows_iff.2 h.2).lookupEnds h.1 hw
  · exact (grows_iff.2 h.2).dentsEnd h.1 hw

/-- An archive of one member `a`, with these characters in its size field. -/
def sizeArchive (size : Nat → Byte) : Tarfs where
  mem a := if a = 0x1000 then 0x61 else if 0x107c ≤ a ∧ a < 0x1087 then size (a - 0x107c).toNat else 0
  tarStart := 0x1000
  tarEnd := 0x2000

theorem spells_sizeArchive (size : Nat → Byte) :
    Spells ((sizeArchive size).view ((sizeArchive size).tarStart + 0)) [0x61] := by
  have hne : (0x61 : Byte) ≠ 0 := by decide
  exact spells_singleton hne rfl

/-- A member without content leads up to the next header, and that one has no name. -/
theorem sizesUp_sizeArchive (stop : List Byte → Prop) : (sizeArchive fun _ => 0x30).SizesUp stop := by
  have hfirst : (sizeArchive fun _ => 0x30).nextOffset 0 = 0x200 := by decide
  have hlast : ∀ next, ¬(sizeArchive fun _ => 0x30).Turn stop 0x200 next := by
    rintro next ⟨-, hs, hne, -⟩
    exact hne (hs.unique (spells_nil rfl))
  have hcomes : ∀ offset, (sizeArchive fun _ => 0x30).Comes stop offset → offset = 0 ∨ offset = 0x200 := by
    intro offset hc
    induction hc with
    | refl => exact .inl rfl
    | tail _ hturn ih =>
      obtain rfl | rfl := ih
      · cases hturn
        exact .inr hfirst
      · exact absurd hturn (hlast _)
  intro offset next hc hturn
  obtain rfl | rfl := hcomes offset hc
  · exact .inl (by decide)
  · exact absurd hturn (hlast next)

theorem archive_walks_end_zero : (sizeArchive fun _ => 0x30).LookupEnds (cString "/b") [0x62] ∧
    (sizeArchive fun _ => 0x30).DentsEnd (cString "a") [0x61] :=
  ⟨((archive_walks_end _).1 (cString "/b") [0x62] (spells_skipSlash (spells_cString rfl (by decide)))).2
      ⟨fun _ => ⟨0, rfl⟩, sizesUp_sizeArchive _⟩,
    ((archive_walks_end _).2 (cString "a") [0x61] (spells_cString rfl (by decide))).2
      ⟨fun _ => ⟨0, rfl⟩, sizesUp_sizeArchive _⟩⟩

/-- With a size of zeros and one `.`, which stands for -1024, the walk stays where it is. -/
theorem archive_walks_end_back : ¬∃ fuel r,
    (sizeArchive fun i => if i = 7 then 0x2e else 0x30).searchForDir fuel (cString "/b") = some r := by
  have hnext : (sizeArchive fun i => if i = 7 then 0x2e else 0x30).nextOffset 0 = 0 := by decide
  rintro ⟨fuel, r, h⟩
  rw [searchForDir] at h
  induction fuel with
  | zero => cases h
  | succ fuel ih =>
    rw [Tarfs.tarWalk, hnext] at h
    have hpath : Spells (skipSlash (cString "/b")) [0x62] := spells_skipSlash (spells_cString rfl (by decide))
    have hs := spells_sizeArchive fun i => if i = 7 then 0x2e else 0x30
    split at h
    · obtain ⟨l, hl, h⟩ := Option.bind_eq_some_iff.1 h
      split at h
      · rename_i hl0
        obtain ⟨w, hw, rfl⟩ := exists_spells_of_kstrlen hl
        rw [hw.unique hs] at hl0
        cases hl0
      · obtain ⟨d, hd, h⟩ := Option.bind_eq_some_iff.1 h
        rw [if_neg (mt (hs.kstrcmp_eq_zero hpath hd).1 (by decide))] at h
        exact ih h
    · rename_i hlt
      exact hlt (by decide)

end Tarfs

end Sbuos
