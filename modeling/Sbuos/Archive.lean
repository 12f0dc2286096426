import Sbuos.Tarfs
import Mathlib.Data.Nat.ModEq
/-!
# Looking a file up in the archive

`IsArchive` says what `tar` writes; `Laid` that such bytes lie between the bounds. The walk's stride over
a member is the padded size except for one residue: a size that is a non-zero multiple of 512 makes
`tar_size_roundup` add a whole block, and the walk lands 512 bytes behind the next header.

**`archive_lookup_iff`**: the lookups work on exactly the archives where no member but the last has such
a size (and as far as `fd_table` has a slot).
-/
namespace Sbuos

structure Member where
  name : List Byte
  content : List Byte

namespace Member

def slash : Byte := 0x2f

/-- A regular file; a directory's name ends in a slash. -/
def regular (m : Member) : Prop := m.name.getLast? ≠ some slash

/-- What fits a ustar header. -/
structure Valid (m : Member) : Prop where
  name_ne_nil : m.name ≠ []
  name_lt : m.name.length < 100
  name_ne_zero : ∀ c ∈ m.name, c ≠ 0
  size_lt : m.content.length < 8 ^ 11

/-- The size is one over which the walk's stride is the padded size. -/
def Even (m : Member) : Prop := m.content = [] ∨ m.content.length % 512 ≠ 0

end Member

/-- The 11 octal digits of a size field. -/
def octalDigits (n : Nat) : List Byte :=
  (List.range 11).map fun i => BitVec.ofNat 8 (0x30 + n / 8 ^ (10 - i) % 8)

/-- Bytes that fill the last block of `n` bytes of content. -/
def padding (n : Nat) : Nat := (512 - n % 512) % 512

/-- The header of `m`: NUL-terminated name at byte 0, size field at byte 124, anything elsewhere. -/
structure IsHeader (h : List Byte) (m : Member) : Prop where
  length_eq : h.length = 512
  name : m.name ++ [0] <+: h
  size : octalDigits m.content.length <+: h.drop 124

/-- What `tar` writes for the members: header, content and padding of each, then zero blocks. -/
inductive IsArchive : List Member → List Byte → Prop
  | nil {blocks : Nat} : 0 < blocks → IsArchive [] (List.replicate (512 * blocks) 0)
  | cons {m ms h pad bs} : IsHeader h m → pad.length = padding m.content.length → IsArchive ms bs →
      IsArchive (m :: ms) (h ++ (m.content ++ (pad ++ bs)))

/-- The addresses of the members' headers, the first at `a`. -/
def headerAddrs (a : Word) : List Member → List Word
  | [] => []
  | m :: ms => a :: headerAddrs (a + BitVec.ofNat 64 (512 + m.content.length + padding m.content.length)) ms

namespace Tarfs

/-- The bytes `bs` lie in memory from `a` on. -/
def Holds (t : Tarfs) (a : Word) (bs : List Byte) : Prop := ∀ i (h : i < bs.length), t.view a i = bs[i]

/-- The archive of `ms` lies between the bounds. -/
structure Laid (t : Tarfs) (ms : List Member) (bs : List Byte) : Prop where
  archive : IsArchive ms bs
  valid : ∀ m ∈ ms, m.Valid
  distinct : (ms.map Member.name).Nodup
  holds : t.Holds t.tarStart bs
  end_eq : t.tarEnd.toNat = t.tarStart.toNat + bs.length

/-! ## Decoding a header -/

theorem digit_value : ∀ d < 8, (BitVec.ofNat 8 (0x30 + d)).signExtend 64 - 0x30 = BitVec.ofNat 64 d := by
  decide

theorem octal_step (n k : Nat) (hk : k < 11) :
    n / 8 ^ (11 - (k + 1)) = n / 8 ^ (11 - k) * 8 + n / 8 ^ (10 - k) % 8 := by
  have h : 11 - k = (10 - k) + 1 := by omega
  rw [h, Nat.pow_succ, ← Nat.div_div_eq_div_mul, show 11 - (k + 1) = 10 - k by omega]
  omega

/-- `tar_size` reads eleven octal digits back. -/
theorem tarSize_octal {s : Nat → Byte} {n : Nat} (hn : n < 8 ^ 11)
    (hs : ∀ i < 11, s i = BitVec.ofNat 8 (0x30 + n / 8 ^ (10 - i) % 8)) :
    tarSize s = BitVec.ofNat 64 n := by
  have hprefix : ∀ k ≤ 11, (List.range k).foldl
      (fun res i => res * 8 + ((s i).signExtend 64 - 0x30)) (0 : Word) = BitVec.ofNat 64 (n / 8 ^ (11 - k)) := by
    intro k hk
    induction k with
    | zero => rw [Nat.div_eq_of_lt hn]; rfl
    | succ k ih =>
      rw [List.range_succ, List.foldl_append, ih (by omega), List.foldl_cons, List.foldl_nil, hs k (by omega),
        digit_value _ (Nat.mod_lt _ (by decide)), octal_step n k (by omega), BitVec.ofNat_add, BitVec.ofNat_mul]
      rfl
  have h := hprefix 11 (Nat.le_refl _)
  rwa [Nat.sub_self, Nat.pow_zero, Nat.div_one] at h

/-- `tar_size_roundup`, as a number. -/
def roundup (n : Nat) : Nat := if n = 0 then 0 else 512 - n % 512

theorem tarSizeRoundup_ofNat {n : Nat} (hn : n < 8 ^ 11) :
    tarSizeRoundup (BitVec.ofNat 64 n) = BitVec.ofNat 64 (roundup n) := by
  have hlt : n < 2 ^ 64 := by omega
  unfold tarSizeRoundup roundup
  by_cases h0 : n = 0
  · subst h0; rfl
  · have hne : BitVec.ofNat 64 n ≠ 0 := by
      intro h
      have := congrArg BitVec.toNat h
      rw [BitVec.toNat_ofNat, show (0 : Word).toNat = 0 from rfl] at this
      omega
    rw [if_neg hne, if_neg h0]
    apply BitVec.eq_of_toNat_eq
    have h512 : (512 : Word).toNat = 512 := rfl
    simp only [BitVec.toNat_sub, BitVec.toNat_umod, BitVec.toNat_ofNat, h512]
    omega

/-- Over every other size the stride is the padded one. -/
theorem roundup_of_even {m : Member} (h : m.Even) : roundup m.content.length = padding m.content.length := by
  unfold roundup padding
  rcases h with h | h
  · simp [h]
  · rw [if_neg (by omega)]
    omega

theorem roundup_of_not_even {m : Member} (h : ¬m.Even) :
    roundup m.content.length = padding m.content.length + 512 := by
  simp only [Member.Even, not_or, not_not, ← List.length_eq_zero_iff] at h
  rw [roundup, padding, if_neg h.1, h.2]

variable {t : Tarfs} {m : Member} {ms : List Member} {bs : List Byte} {off : Nat} {path : Nat → Byte}
  {w : List Byte}

theorem Holds.append_left {a : Word} {bs' : List Byte} (h : t.Holds a (bs ++ bs')) : t.Holds a bs := by
  intro i hi
  rw [h i (by rw [List.length_append]; omega), List.getElem_append_left hi]

theorem Holds.append_right {a : Word} {bs' : List Byte} (h : t.Holds a (bs ++ bs')) :
    t.Holds (a + BitVec.ofNat 64 bs.length) bs' := by
  intro i hi
  have hv := h (bs.length + i) (by rw [List.length_append]; omega)
  rw [List.getElem_append_right (by omega)] at hv
  simp only [Nat.add_sub_cancel_left] at hv
  rw [← hv, view, view, BitVec.add_assoc, ← BitVec.ofNat_add]

/-- The walk at a header of `m`. -/
structure MemberAt (t : Tarfs) (off : Nat) (m : Member) : Prop where
  lt : t.tarStart + BitVec.ofNat 64 off < t.tarEnd
  name : Spells (t.view (t.tarStart + BitVec.ofNat 64 off)) m.name
  name_lt : m.name.length < 100
  name_ne_nil : m.name ≠ []
  size : t.headerSize (t.tarStart + BitVec.ofNat 64 off) = BitVec.ofNat 64 m.content.length
  size_lt : m.content.length < 8 ^ 11

theorem lt_tarEnd {k : Nat} (hend : t.tarEnd.toNat = t.tarStart.toNat + off + k) (hk : 0 < k) :
    t.tarStart + BitVec.ofNat 64 off < t.tarEnd := by
  have := t.tarEnd.isLt
  rw [BitVec.lt_def, BitVec.toNat_add, BitVec.toNat_ofNat]
  omega

theorem memberAt {h rest : List Byte} (hh : IsHeader h m) (hm : m.Valid)
    (hb : t.Holds (t.tarStart + BitVec.ofNat 64 off) (h ++ rest))
    (hend : t.tarEnd.toNat = t.tarStart.toNat + off + (h ++ rest).length) : MemberAt t off m := by
  have hb := hb.append_left
  have hlen := hh.length_eq
  obtain ⟨tl, rfl⟩ := hh.name
  obtain ⟨tl', htl'⟩ := hh.size
  refine
    { lt := lt_tarEnd hend (by rw [List.length_append]; omega)
      name := ⟨fun i hi => ?_, hm.name_ne_zero, ?_⟩
      name_lt := hm.name_lt
      name_ne_nil := hm.name_ne_nil
      size := ?_
      size_lt := hm.size_lt }
  · rw [hb i (by simp; omega), List.getElem_append_left (by simp; omega), List.getElem_append_left hi]
  · rw [hb m.name.length (by simp)]
    simp
  · refine tarSize_octal hm.size_lt fun i hi => ?_
    have hd : i < ((m.name ++ [0] ++ tl).drop 124).length := by rw [List.length_drop]; omega
    have hv := hb (124 + i) (by omega)
    rw [← List.getElem_drop (h := hd), List.getElem_of_eq htl'.symm,
      List.getElem_append_left (by simp [octalDigits]; exact hi)] at hv
    simp only [octalDigits, List.getElem_map, List.getElem_range] at hv
    rw [← hv, view, view, BitVec.add_assoc, BitVec.ofNat_add]
    rfl

/-! ## One turn of the walk -/

/-- Where the walk goes from a member of `n` bytes at `off`, and where the next header lies. -/
def walked (off n : Nat) : Nat := off + (n + 512 + roundup n)
def laidOut (off n : Nat) : Nat := off + (512 + n + padding n)

section
variable {α : Type} {found : Word → Word → α} {absent : α} {fuel : Nat}

theorem MemberAt.nextOffset (h : MemberAt t off m) :
    t.nextOffset (BitVec.ofNat 64 off) = BitVec.ofNat 64 (walked off m.content.length) := by
  rw [Tarfs.nextOffset, h.size, tarSizeRoundup_ofNat h.size_lt, walked, BitVec.ofNat_add, BitVec.ofNat_add,
    BitVec.ofNat_add]
  rfl

theorem MemberAt.tarWalk (h : MemberAt t off m) (hw : Spells path w) (hf : 100 ≤ fuel)
    (hfw : w.length ≤ fuel) :
    t.tarWalk path found absent (fuel + 1) (BitVec.ofNat 64 off) =
      if m.name = w then
        some (found (t.tarStart + BitVec.ofNat 64 off) (BitVec.ofNat 64 m.content.length))
      else t.tarWalk path found absent fuel (BitVec.ofNat 64 (walked off m.content.length)) := by
  have hlen : m.name.length < 100 := h.name_lt
  have h0 : m.name.length ≠ 0 := fun h0 => h.name_ne_nil (List.length_eq_zero_iff.1 h0)
  obtain ⟨d, hd, hd0⟩ := h.name.kstrcmp hw (show m.name.length < fuel + 1 by omega)
    (show w.length < fuel + 1 by omega)
  rw [Tarfs.tarWalk, if_pos h.lt, h.name.kstrlen (by omega)]
  simp only [Option.bind_eq_bind, Option.bind_some, if_neg h0, hd]
  by_cases hn : m.name = w
  · rw [if_pos (hd0.2 hn), if_pos hn, h.size]
  · rw [if_neg (fun hd => hn (hd0.1 hd)), if_neg hn, h.nextOffset]

theorem MemberAt.tarHeaders (h : MemberAt t off m) (hf : 100 ≤ fuel) :
    t.tarHeaders (fuel + 1) (BitVec.ofNat 64 off) =
      (t.tarHeaders fuel (BitVec.ofNat 64 (walked off m.content.length))).map
        ((t.tarStart + BitVec.ofNat 64 off) :: ·) := by
  have hlen : m.name.length < 100 := h.name_lt
  have h0 : m.name.length ≠ 0 := fun h0 => h.name_ne_nil (List.length_eq_zero_iff.1 h0)
  rw [Tarfs.tarHeaders, if_pos h.lt, h.name.kstrlen (by omega)]
  simp only [Option.bind_eq_bind, Option.bind_some, if_neg h0, h.nextOffset]
  cases t.tarHeaders fuel (BitVec.ofNat 64 (walked off m.content.length)) <;> rfl

/-- The walk ends at `off`: the bounds do, or an empty name lies there. -/
def Stops (t : Tarfs) (off : Nat) : Prop :=
  t.tarStart + BitVec.ofNat 64 off < t.tarEnd → t.view (t.tarStart + BitVec.ofNat 64 off) 0 = 0

theorem Stops.tarWalk (h : Stops t off) :
    t.tarWalk path found absent (fuel + 1) (BitVec.ofNat 64 off) = some absent := by
  rw [Tarfs.tarWalk]
  split
  · simp [kstrlen, kstrlenFrom, h ‹_›]
  · rfl

theorem Stops.tarHeaders (h : Stops t off) : t.tarHeaders (fuel + 1) (BitVec.ofNat 64 off) = some [] := by
  rw [Tarfs.tarHeaders]
  split
  · simp [kstrlen, kstrlenFrom, h ‹_›]
  · rfl

end

/-! ## The rest of the archive from an offset on -/

structure Rest (t : Tarfs) (off : Nat) (ms : List Member) (bs : List Byte) : Prop where
  archive : IsArchive ms bs
  valid : ∀ m ∈ ms, m.Valid
  holds : t.Holds (t.tarStart + BitVec.ofNat 64 off) bs
  end_eq : t.tarEnd.toNat = t.tarStart.toNat + off + bs.length

theorem Laid.rest (h : Laid t ms bs) : Rest t 0 ms bs :=
  ⟨h.archive, h.valid, by simpa using h.holds, by simpa using h.end_eq⟩

theorem Rest.cons_inv (h : Rest t off (m :: ms) bs) :
    MemberAt t off m ∧ t.Holds (t.tarStart + BitVec.ofNat 64 off + 512) m.content ∧
      ∃ bs', Rest t (laidOut off m.content.length) ms bs' := by
  obtain ⟨harch, hvalid, hholds, hend⟩ := h
  cases harch with
  | @cons _ _ h pad bs' hh hpad hms =>
    have hafter := hholds.append_right
    rw [hh.length_eq] at hafter
    refine ⟨memberAt hh (hvalid m (by simp)) hholds hend, hafter.append_left, bs', ?_⟩
    refine ⟨hms, fun m' hm' => hvalid m' (by simp [hm']), ?_, ?_⟩
    · have hrest := hafter.append_right.append_right
      rw [hpad] at hrest
      rw [laidOut, BitVec.ofNat_add, BitVec.ofNat_add, BitVec.ofNat_add, ← BitVec.add_assoc,
        ← BitVec.add_assoc, ← BitVec.add_assoc]
      exact hrest
    · have := hh.length_eq
      simp only [List.length_append] at hend
      rw [laidOut]
      omega

theorem Rest.nil_stops (h : Rest t off [] bs) {j : Nat} (hj : j ≤ 512) : Stops t (off + j) := by
  obtain ⟨harch, -, hholds, hend⟩ := h
  cases harch with
  | @nil blocks hb =>
    intro hlt
    have hend64 := t.tarEnd.isLt
    simp only [List.length_replicate] at hend
    rw [BitVec.lt_def, BitVec.toNat_add, BitVec.toNat_ofNat] at hlt
    have hv := hholds j (by rw [List.length_replicate]; omega)
    rw [List.getElem_replicate] at hv
    rw [← hv, view, view, BitVec.ofNat_add, BitVec.add_assoc, BitVec.add_assoc, BitVec.add_assoc]
    simp

/-- Behind the last member the walk stops, also from one block too far. -/
theorem Rest.last_stops (h : Rest t off [m] bs) : Stops t (walked off m.content.length) := by
  obtain ⟨-, -, bs', hrest⟩ := h.cons_inv
  by_cases he : m.Even
  · have := hrest.nil_stops (Nat.zero_le 512)
    rwa [laidOut, ← roundup_of_even he, Nat.add_comm 512, Nat.add_zero] at this
  · have := hrest.nil_stops (Nat.le_refl 512)
    rwa [laidOut, show off + (512 + m.content.length + padding m.content.length) + 512 =
      walked off m.content.length by rw [walked, roundup_of_not_even he]; omega] at this

theorem walked_of_even (he : m.Even) : walked off m.content.length = laidOut off m.content.length := by
  rw [walked, laidOut, roundup_of_even he]; omega

/-- The headers passed, from any offset where the rest of the archive lies. -/
theorem Rest.tarHeaders (h : Rest t off ms bs) (heven : ∀ m ∈ ms.dropLast, m.Even) {fuel : Nat}
    (hf : ms.length + 100 < fuel) :
    t.tarHeaders fuel (BitVec.ofNat 64 off) = some (headerAddrs (t.tarStart + BitVec.ofNat 64 off) ms) := by
  induction ms generalizing off bs fuel with
  | nil =>
    obtain ⟨fuel, rfl⟩ : ∃ f, fuel = f + 1 := ⟨fuel - 1, by omega⟩
    exact (h.nil_stops (Nat.zero_le 512)).tarHeaders
  | cons m ms ih =>
    obtain ⟨fuel, rfl⟩ : ∃ f, fuel = f + 2 := ⟨fuel - 2, by simp at hf; omega⟩
    obtain ⟨hat, -, bs', hrest⟩ := h.cons_inv
    simp only [List.length_cons] at hf
    rw [hat.tarHeaders (by omega), headerAddrs]
    cases ms with
    | nil => rw [h.last_stops.tarHeaders]; rfl
    | cons m' ms =>
      rw [walked_of_even (heven m (by simp)),
        ih hrest (fun m'' hm => heven m'' (by simp [hm])) (by omega), laidOut, BitVec.ofNat_add,
        ← BitVec.add_assoc]
      rfl

/-- The answer of a search for `w` among the members from address `a` on. -/
def lookup {α : Type} (found : Word → Word → α) (absent : α) (w : List Byte) : Word → List Member → α
  | _, [] => absent
  | a, m :: ms =>
    if m.name = w then found a (BitVec.ofNat 64 m.content.length)
    else lookup found absent w
      (a + BitVec.ofNat 64 (512 + m.content.length + padding m.content.length)) ms

theorem Rest.tarWalk {α : Type} (found : Word → Word → α) (absent : α) (h : Rest t off ms bs)
    (heven : ∀ m ∈ ms.dropLast, m.Even) (hw : Spells path w) {fuel : Nat}
    (hf : ms.length + 100 + w.length < fuel) :
    t.tarWalk path found absent fuel (BitVec.ofNat 64 off) =
      some (lookup found absent w (t.tarStart + BitVec.ofNat 64 off) ms) := by
  induction ms generalizing off bs fuel with
  | nil =>
    obtain ⟨fuel, rfl⟩ : ∃ f, fuel = f + 1 := ⟨fuel - 1, by omega⟩
    exact (h.nil_stops (Nat.zero_le 512)).tarWalk
  | cons m ms ih =>
    obtain ⟨fuel, rfl⟩ : ∃ f, fuel = f + 2 := ⟨fuel - 2, by simp at hf; omega⟩
    obtain ⟨hat, -, bs', hrest⟩ := h.cons_inv
    simp only [List.length_cons] at hf
    rw [hat.tarWalk hw (by omega) (by omega), lookup]
    split
    · rfl
    · cases ms with
      | nil => rw [h.last_stops.tarWalk]; rfl
      | cons m' ms =>
        rw [walked_of_even (heven m (by simp)),
          ih hrest (fun m'' hm => heven m'' (by simp [hm])) (by omega), laidOut, BitVec.ofNat_add,
          ← BitVec.add_assoc]

/-- The first header passed lies where the walk starts. -/
theorem tarHeaders_head {fuel : Nat} {o p : Word} {ps : List Word}
    (h : t.tarHeaders fuel o = some (p :: ps)) : p = t.tarStart + o := by
  cases fuel with
  | zero => cases h
  | succ fuel =>
    rw [Tarfs.tarHeaders] at h
    split at h
    · rcases hl : kstrlen (fuel + 1) (t.view (t.tarStart + o)) with _ | len
      · simp [hl] at h
      · simp only [hl, Option.bind_eq_bind, Option.bind_some] at h
        split at h
        · cases h
        · obtain ⟨ps', -, h⟩ := Option.bind_eq_some_iff.1 h
          cases h
          rfl
    · cases h

/-- A walk that passes exactly the members' headers strides over even sizes only. -/
theorem Rest.even_of_tarHeaders (h : Rest t off ms bs) {fuel : Nat} (hf : ms.length + 100 < fuel)
    (hw : t.tarHeaders fuel (BitVec.ofNat 64 off) =
      some (headerAddrs (t.tarStart + BitVec.ofNat 64 off) ms)) : ∀ m ∈ ms.dropLast, m.Even := by
  induction ms generalizing off bs fuel with
  | nil => simp
  | cons m ms ih =>
    cases ms with
    | nil => simp
    | cons m' ms =>
      obtain ⟨fuel, rfl⟩ : ∃ f, fuel = f + 1 := ⟨fuel - 1, by omega⟩
      obtain ⟨hat, -, bs', hrest⟩ := h.cons_inv
      simp only [List.length_cons] at hf
      rw [hat.tarHeaders (by omega), headerAddrs, BitVec.add_assoc, ← BitVec.ofNat_add] at hw
      obtain ⟨ps, hps, hcons⟩ := Option.map_eq_some_iff.1 hw
      obtain ⟨-, rfl⟩ := List.cons.inj hcons
      have heven : m.Even := by
        -- otherwise the walk is a whole block behind the next header
        by_contra hne
        have hhead := tarHeaders_head hps
        have hnum := congrArg BitVec.toNat (BitVec.add_right_inj _ |>.1 hhead)
        rw [walked, roundup_of_not_even hne, BitVec.toNat_ofNat, BitVec.toNat_ofNat] at hnum
        omega
      rw [walked_of_even heven] at hps
      have := ih hrest (by simp only [List.length_cons]; omega) hps
      intro m'' hm
      rw [List.dropLast_cons_cons, List.mem_cons] at hm
      rcases hm with rfl | hm
      · exact heven
      · exact this m'' hm

/-! ## The searches -/

theorem lookup_absent {α : Type} {found : Word → Word → α} {absent : α} {a : Word}
    (h : w ∉ ms.map Member.name) : lookup found absent w a ms = absent := by
  induction ms generalizing a with
  | nil => rfl
  | cons m ms ih =>
    simp only [List.map_cons, List.mem_cons, not_or] at h
    rw [lookup, if_neg (Ne.symm h.1), ih h.2]

theorem lookup_found {α : Type} {found : Word → Word → α} {absent : α} {a p : Word}
    (hd : (ms.map Member.name).Nodup) (hm : (m, p) ∈ ms.zip (headerAddrs a ms)) :
    lookup found absent m.name a ms = found p (BitVec.ofNat 64 m.content.length) := by
  induction ms generalizing a with
  | nil => cases hm
  | cons m' ms ih =>
    simp only [List.map_cons, List.nodup_cons] at hd
    rw [headerAddrs, List.zip_cons_cons, List.mem_cons] at hm
    rcases hm with hm | hm
    · cases hm
      rw [lookup, if_pos rfl]
    · have hne : m'.name ≠ m.name := fun he => hd.1 (he ▸ List.mem_map_of_mem (List.of_mem_zip hm).1)
      rw [lookup, if_neg hne, ih hd.2 hm]

theorem Rest.holds_content {p : Word} (h : Rest t off ms bs)
    (hm : (m, p) ∈ ms.zip (headerAddrs (t.tarStart + BitVec.ofNat 64 off) ms)) :
    t.Holds (p + 512) m.content := by
  induction ms generalizing off bs with
  | nil => cases hm
  | cons m' ms ih =>
    obtain ⟨-, hcontent, bs', hrest⟩ := h.cons_inv
    rw [headerAddrs, List.zip_cons_cons, List.mem_cons] at hm
    rcases hm with hm | hm
    · cases hm
      exact hcontent
    · rw [BitVec.add_assoc, ← BitVec.ofNat_add] at hm
      exact ih hrest hm

theorem spells_skipSlash (h : Spells path (Member.slash :: w)) : Spells (skipSlash path) w where
  chars i hi := h.chars (i + 1) (by simpa using hi)
  ne_zero c hc := h.ne_zero c (List.mem_cons_of_mem _ hc)
  nul := h.nul

theorem length_headerAddrs (a : Word) : (headerAddrs a ms).length = ms.length := by
  induction ms generalizing a with
  | nil => rfl
  | cons m ms ih => simp [headerAddrs, ih]

theorem exists_header {a : Word} (hm : m ∈ ms) : ∃ p, (m, p) ∈ ms.zip (headerAddrs a ms) := by
  obtain ⟨i, hi, rfl⟩ := List.getElem_of_mem hm
  have hi' : i < (headerAddrs a ms).length := by rwa [length_headerAddrs]
  refine ⟨(headerAddrs a ms)[i], ?_⟩
  rw [← List.getElem_zip (h := by simp [hi, hi'])]
  exact List.getElem_mem _

theorem openFd_records {proc : Pcb} (hfd : 0 ≤ proc.nextFd ∧ proc.nextFd < 15) (a n : Word) :
    ∃ proc' i, openFd proc a n = some (proc', proc.nextFd) ∧ ((i : Fin 15) : Int) = proc.nextFd ∧
      proc'.fdTable i = ⟨a, n, 0⟩ :=
  ⟨_, ⟨proc.nextFd.toNat, by omega⟩, dif_pos hfd, Int.toNat_of_nonneg hfd.1, Function.update_self ..⟩

/-- What the lookups do on the archive of `ms`, for a process `proc` that opens. -/
structure Finds (t : Tarfs) (ms : List Member) (proc : Pcb) : Prop where
  /-- The walk passes the members' headers, in order, and stops. -/
  headers : ∃ N, ∀ fuel ≥ N, t.tarHeaders fuel 0 = some (headerAddrs t.tarStart ms)
  /-- A regular member with content is found, and opening it records where the content lies. -/
  files : ∀ m p path, (m, p) ∈ ms.zip (headerAddrs t.tarStart ms) → m.regular → m.content ≠ [] →
    Spells path (Member.slash :: m.name) → ∃ N, ∀ fuel ≥ N, t.searchFileOpen fuel path = some 1 ∧
      ∃ proc' i, t.doOpenFile fuel proc path = some (proc', proc.nextFd) ∧ ((i : Fin 15) : Int) = proc.nextFd ∧
        proc'.fdTable i = ⟨p + 512, BitVec.ofNat 64 m.content.length, 0⟩ ∧ t.Holds (p + 512) m.content
  /-- A path that names no member is not found. -/
  absent : ∀ w path, w ∉ ms.map Member.name → Spells path (Member.slash :: w) → ∃ N, ∀ fuel ≥ N,
    t.searchFileOpen fuel path = some 0 ∧ t.searchForDir fuel path = some 0 ∧
      t.doOpenFile fuel proc path = some (proc, -1)

theorem Laid.headers_of_even (h : Laid t ms bs) (heven : ∀ m ∈ ms.dropLast, m.Even) :
    ∃ N, ∀ fuel ≥ N, t.tarHeaders fuel 0 = some (headerAddrs t.tarStart ms) := by
  refine ⟨ms.length + 101, fun fuel hf => ?_⟩
  simpa using h.rest.tarHeaders heven (show ms.length + 100 < fuel by omega)

/-- The converse of `Laid.headers_of_even`. -/
theorem Laid.even_of_headers (h : Laid t ms bs)
    (hw : ∃ N, ∀ fuel ≥ N, t.tarHeaders fuel 0 = some (headerAddrs t.tarStart ms)) :
    ∀ m ∈ ms.dropLast, m.Even := by
  obtain ⟨N, hw⟩ := hw
  refine h.rest.even_of_tarHeaders (Nat.lt_succ_of_le (Nat.le_max_left (ms.length + 100) N)) ?_
  simpa using hw _ (Nat.le_succ_of_le (Nat.le_max_right _ N))

theorem Laid.tarWalk {α : Type} (found : Word → Word → α) (absent : α) (h : Laid t ms bs)
    (heven : ∀ m ∈ ms.dropLast, m.Even) (hw : Spells path (Member.slash :: w)) {fuel : Nat}
    (hf : ms.length + 100 + w.length < fuel) :
    t.tarWalk (skipSlash path) found absent fuel 0 = some (lookup found absent w t.tarStart ms) := by
  simpa using h.rest.tarWalk found absent heven (spells_skipSlash hw) hf

theorem ofNat_length_ne_zero (hv : m.Valid) (hc : m.content ≠ []) : BitVec.ofNat 64 m.content.length ≠ 0 := by
  intro h
  have hlen := mt List.length_eq_zero_iff.1 hc
  have hlt := hv.size_lt
  have := congrArg BitVec.toNat h
  rw [BitVec.toNat_ofNat, show (0 : Word).toNat = 0 from rfl] at this
  omega

/-- The lookups on an archive that the walk strides over correctly. -/
theorem Laid.finds (h : Laid t ms bs) (heven : ∀ m ∈ ms.dropLast, m.Even) {proc : Pcb}
    (hfd : (0 ≤ proc.nextFd ∧ proc.nextFd < 15) ∨ ∀ m ∈ ms, m.regular → m.content = []) :
    Finds t ms proc where
  headers := h.headers_of_even heven
  files m p path hm hreg hc hw := by
    have hmem := (List.of_mem_zip hm).1
    have hfd := hfd.resolve_right fun hnone => hc (hnone m hmem hreg)
    refine ⟨ms.length + 101 + m.name.length, fun fuel hf => ⟨?_, ?_⟩⟩
    · rw [searchFileOpen, h.tarWalk _ _ heven hw (by omega), lookup_found h.distinct hm,
        if_neg (ofNat_length_ne_zero (h.valid m hmem) hc)]
    · have hcontent := h.rest.holds_content (by simpa using hm)
      obtain ⟨proc', i, hopen, hi, hrec⟩ := openFd_records hfd (p + 512) (BitVec.ofNat 64 m.content.length)
      refine ⟨proc', i, ?_, hi, hrec, hcontent⟩
      rw [doOpenFile, h.tarWalk _ _ heven hw (by omega), lookup_found h.distinct hm]
      exact hopen
  absent w path hw hs := by
    refine ⟨ms.length + 101 + w.length, fun fuel hf => ⟨?_, ?_, ?_⟩⟩
    · rw [searchFileOpen, h.tarWalk _ _ heven hs (by omega), lookup_absent hw]
    · rw [searchForDir, h.tarWalk _ _ heven hs (by omega), lookup_absent hw]
    · rw [doOpenFile, h.tarWalk _ _ heven hs (by omega), lookup_absent hw]
      rfl

/-- A word and its NUL. -/
def toCString (w : List Byte) (i : Nat) : Byte := w.getD i 0

theorem spells_toCString (hw : ∀ c ∈ w, c ≠ 0) : Spells (toCString w) w where
  chars i hi := by simp [toCString, List.getElem?_eq_getElem hi]
  ne_zero := hw
  nul := by simp [toCString]

/-- Without a free slot an open of a file that is found stores outside `fd_table`. -/
theorem Laid.room_of_finds (h : Laid t ms bs) {proc : Pcb} (hf : Finds t ms proc) :
    (0 ≤ proc.nextFd ∧ proc.nextFd < 15) ∨ ∀ m ∈ ms, m.regular → m.content = [] := by
  by_contra hno
  simp only [not_or, not_forall, exists_prop] at hno
  obtain ⟨hroom, m, hm, hreg, hc⟩ := hno
  obtain ⟨p, hp⟩ := exists_header (a := t.tarStart) hm
  have hne : ∀ c ∈ Member.slash :: m.name, c ≠ 0 := by
    intro c hcm
    rcases List.mem_cons.1 hcm with rfl | hcm
    · decide
    · exact (h.valid m hm).name_ne_zero c hcm
  obtain ⟨N, hN⟩ := hf.files m p _ hp hreg hc (spells_toCString hne)
  obtain ⟨-, -, i, -, hi, -⟩ := hN N (Nat.le_refl N)
  have := i.isLt
  omega

/-- **Archive lookup**: on the archive of `ms` the lookups do what `Finds` says exactly when the size of
every member but the last is zero or no multiple of 512, and the process has a free descriptor if there
is a file to open at all. -/
theorem archive_lookup_iff (h : Laid t ms bs) (proc : Pcb) :
    Finds t ms proc ↔
      (∀ m ∈ ms.dropLast, m.content = [] ∨ m.content.length % 512 ≠ 0) ∧
        ((0 ≤ proc.nextFd ∧ proc.nextFd < 15) ∨ ∀ m ∈ ms, m.regular → m.content = []) :=
  ⟨fun hf => ⟨h.even_of_headers hf.headers, h.room_of_finds hf⟩, fun hc => h.finds hc.1 hc.2⟩

/-! ## Archives exist -/

end Tarfs

/-- A header of `m`, the other fields zero. -/
def Member.header (m : Member) : List Byte :=
  m.name ++ List.replicate (124 - m.name.length) 0 ++
    (octalDigits m.content.length ++ List.replicate 377 0)

theorem length_octalDigits (n : Nat) : (octalDigits n).length = 11 := by
  rw [octalDigits, List.length_map, List.length_range]

theorem Member.Valid.isHeader {m : Member} (hm : m.Valid) : IsHeader m.header m := by
  have hlt := hm.name_lt
  have hfront : (m.name ++ List.replicate (124 - m.name.length) 0 : List Byte).length = 124 := by
    rw [List.length_append, List.length_replicate]; omega
  constructor
  · rw [header, List.length_append, hfront, List.length_append, length_octalDigits, List.length_replicate]
  · obtain ⟨k, hk⟩ : ∃ k, 124 - m.name.length = k + 1 := ⟨123 - m.name.length, by omega⟩
    rw [header, hk, List.replicate_succ]
    refine ⟨List.replicate k 0 ++ (octalDigits m.content.length ++ List.replicate 377 0), ?_⟩
    simp only [List.append_assoc, List.cons_append, List.nil_append]
  · rw [header, List.drop_left' hfront]
    exact List.prefix_append _ _

def archiveBytes : List Member → List Byte
  | [] => List.replicate (512 * 2) 0
  | m :: ms =>
    m.header ++ (m.content ++ (List.replicate (padding m.content.length) 0 ++ archiveBytes ms))

theorem isArchive_archiveBytes {ms : List Member} (hv : ∀ m ∈ ms, m.Valid) :
    IsArchive ms (archiveBytes ms) := by
  induction ms with
  | nil => exact .nil (by decide)
  | cons m ms ih =>
    exact .cons (hv m (by simp)).isHeader (by simp) (ih fun m' hm' => hv m' (by simp [hm']))

namespace Tarfs

/-- The archive of `ms` at address 0. -/
def pack (ms : List Member) : Tarfs where
  mem a := (archiveBytes ms).getD a.toNat 0
  tarStart := 0
  tarEnd := BitVec.ofNat 64 (archiveBytes ms).length

theorem pack_laid {ms : List Member} (hv : ∀ m ∈ ms, m.Valid) (hd : (ms.map Member.name).Nodup)
    (hlen : (archiveBytes ms).length < 2 ^ 64) : Laid (pack ms) ms (archiveBytes ms) where
  archive := isArchive_archiveBytes hv
  valid := hv
  distinct := hd
  holds i hi := by
    have hnum : ((0 : Word) + BitVec.ofNat 64 i).toNat = i := by
      rw [BitVec.toNat_add, BitVec.toNat_ofNat, show (0 : Word).toNat = 0 from rfl]; omega
    simp only [view, pack, hnum, List.getD_eq_getElem?_getD, List.getElem?_eq_getElem hi, Option.getD_some]
  end_eq := by
    simp only [pack, BitVec.toNat_ofNat, Nat.mod_eq_of_lt hlen]
    exact (Nat.zero_add _).symm

/-- A file of one block. -/
def oneBlock : Member := ⟨[0x61], List.replicate 512 1⟩

def oneByte : Member := ⟨[0x62], [0]⟩

theorem oneBlock_length : oneBlock.content.length = 512 := List.length_replicate

theorem oneBlock_valid : oneBlock.Valid :=
  ⟨by decide, by decide, by decide, by rw [oneBlock_length]; decide⟩

theorem oneByte_valid : oneByte.Valid := ⟨by decide, by decide, by decide, by decide⟩

/-- The two files in either order make an archive. -/
theorem two_files_laid {m m' : Member} (h : m = oneBlock ∧ m' = oneByte ∨ m = oneByte ∧ m' = oneBlock) :
    Laid (pack [m, m']) [m, m'] (archiveBytes [m, m']) := by
  have hv : m.Valid ∧ m'.Valid := by
    rcases h with ⟨rfl, rfl⟩ | ⟨rfl, rfl⟩
    · exact ⟨oneBlock_valid, oneByte_valid⟩
    · exact ⟨oneByte_valid, oneBlock_valid⟩
  refine pack_laid ?_ ?_ ?_
  · simpa using hv
  · rcases h with ⟨rfl, rfl⟩ | ⟨rfl, rfl⟩ <;> decide
  · have hlt := hv.1.size_lt
    have hlt' := hv.2.size_lt
    simp only [archiveBytes, List.length_append, List.length_replicate, hv.1.isHeader.length_eq,
      hv.2.isHeader.length_eq, padding]
    omega

/-- Behind a file of one block the walk never sees the next header. -/
theorem archive_lookup_block_first :
    Laid (pack [oneBlock, oneByte]) [oneBlock, oneByte] (archiveBytes [oneBlock, oneByte]) ∧
      ¬Finds (pack [oneBlock, oneByte]) [oneBlock, oneByte] { (default : Pcb) with nextFd := 3 } := by
  have hlaid := two_files_laid (.inl ⟨rfl, rfl⟩)
  refine ⟨hlaid, fun hf => ?_⟩
  have heven := hlaid.even_of_headers hf.headers oneBlock (by simp)
  rw [Member.Even, ← List.length_eq_zero_iff, oneBlock_length] at heven
  omega

/-- The same two files in the other order are found. -/
theorem archive_lookup_block_last :
    Finds (pack [oneByte, oneBlock]) [oneByte, oneBlock] { (default : Pcb) with nextFd := 3 } :=
  (archive_lookup_iff (two_files_laid (.inr ⟨rfl, rfl⟩)) _).2 ⟨by decide, .inl (by decide)⟩

end Tarfs
end Sbuos
