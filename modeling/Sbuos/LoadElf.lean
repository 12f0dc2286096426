import Sbuos.Sysutil
import Mathlib.Logic.Function.Basic
import Mathlib.Data.List.Basic
/-!
# Loading a program (sys/exec.c:18-37, sys/vma.c:12-25)

`map_elf` goes through the program header table and lets `mem_map_file` copy and zero for every header. It never
looks at `p_type`, so a header that describes no segment to load (a note, a TLS template) is loaded as well.

**`map_elf_image`**: where no header changes what `map_elf` still has to read, the image is the one the `PT_LOAD`
headers describe exactly when what the other headers store is in the image anyway or stored over later.
-/
namespace Sbuos

/-- The `n` bytes at `a`, least significant first. -/
def loadBytes (mem : Word → Byte) (a : Word) : Nat → Nat
  | 0 => 0
  | n + 1 => (mem a).toNat + 256 * loadBytes mem (a + 1) n

def loadField (mem : Word → Byte) (a : Word) (n : Nat) : Word := BitVec.ofNat 64 (loadBytes mem a n)

/-! ## The tables (exec.h:7-33) -/

def eEntry (mem : Word → Byte) (header : Word) : Word := loadField mem (header + 24) 8

def ePhoff (mem : Word → Byte) (header : Word) : Word := loadField mem (header + 32) 8

def ePhentsize (mem : Word → Byte) (header : Word) : Word := loadField mem (header + 54) 2

def ePhnum (mem : Word → Byte) (header : Word) : Nat := loadBytes mem (header + 56) 2

/-- `elf_pheader`, without the members that nothing reads. -/
structure ElfPheader where
  pType : Word
  pOffset : Word
  pVaddr : Word
  pFilesz : Word
  pMemsz : Word
  deriving DecidableEq

def elfPheader (mem : Word → Byte) (phdr : Word) : ElfPheader where
  pType := loadField mem phdr 4
  pOffset := loadField mem (phdr + 8) 8
  pVaddr := loadField mem (phdr + 16) 8
  pFilesz := loadField mem (phdr + 32) 8
  pMemsz := loadField mem (phdr + 40) 8

/-- Entry `seg` of the table. -/
def pheader (mem : Word → Byte) (header : Word) (seg : Nat) : ElfPheader :=
  elfPheader mem (header + (ePhoff mem header + ePhentsize mem header * BitVec.ofNat 64 seg))

/-! ## The code -/

/-- The first loop of `mem_map_file`, from `i` on, with the turns it has left. -/
def copyFile (dst src : Word) : Nat → Nat → (Word → Byte) → Word → Byte
  | 0, _, mem => mem
  | turns + 1, i, mem =>
    copyFile dst src turns (i + 1) (Function.update mem (dst + BitVec.ofNat 64 i) (mem (src + BitVec.ofNat 64 i)))

/-- The second. -/
def zeroRest (dst : Word) : Nat → Nat → (Word → Byte) → Word → Byte
  | 0, _, mem => mem
  | turns + 1, i, mem => zeroRest dst turns (i + 1) (Function.update mem (dst + BitVec.ofNat 64 i) 0)

/-- `mem_map_file` (vma.c:12-25). -/
def memMapFile (file vaddr memsz filesz : Word) (mem : Word → Byte) : Word → Byte :=
  zeroRest vaddr (memsz.toNat - filesz.toNat) filesz.toNat (copyFile vaddr file filesz.toNat 0 mem)

/-- The loop of `map_elf` at `p_base`, with the turns it has left. -/
def mapElfFrom (elfBase : Word) : Nat → Word → (Word → Byte) → Word → Byte
  | 0, _, mem => mem
  | turns + 1, pBase, mem =>
    let phdr := elfPheader mem pBase
    let mem := memMapFile (elfBase + phdr.pOffset) phdr.pVaddr phdr.pMemsz phdr.pFilesz mem
    mapElfFrom elfBase turns (pBase + ePhentsize mem elfBase) mem

/-- `map_elf` (exec.c:18-37): the memory it leaves and the entry point. -/
def mapElf (header : Word) (mem : Word → Byte) : (Word → Byte) × Word :=
  let mem' := mapElfFrom header (ePhnum mem header) (header + ePhoff mem header) mem
  (mem', eEntry mem' header)

/-! ## The image -/

namespace ElfPheader

/-- `PT_LOAD`. -/
def Loads (h : ElfPheader) : Prop := h.pType = 1

/-- What `mem_map_file` stores for this header, whatever its type, is at these addresses. -/
def Covers (h : ElfPheader) (a : Word) : Prop := (a - h.pVaddr).toNat < max h.pFilesz.toNat h.pMemsz.toNat

/-- And these are the bytes, with the file at `base`. -/
def byteAt (h : ElfPheader) (mem : Word → Byte) (base a : Word) : Byte :=
  if (a - h.pVaddr).toNat < h.pFilesz.toNat then mem (base + h.pOffset + (a - h.pVaddr)) else 0

instance (h : ElfPheader) : Decidable h.Loads := inferInstanceAs (Decidable (h.pType = 1))

instance (h : ElfPheader) (a : Word) : Decidable (h.Covers a) :=
  inferInstanceAs (Decidable ((a - h.pVaddr).toNat < max h.pFilesz.toNat h.pMemsz.toNat))

end ElfPheader

/-- A file of `size` bytes in memory, whose `PT_LOAD` segments can be loaded one beside the other and away from the
file. Nothing is said of other headers but that they are in the file. -/
structure ElfFile where
  mem : Word → Byte
  base : Word
  size : Nat
  size_le : size ≤ 2 ^ 64
  header_fits : 64 ≤ size
  table_fits : ∀ seg < ePhnum mem base, (ePhoff mem base).toNat + (ePhentsize mem base).toNat * seg + 56 ≤ size
  filesz_le : ∀ seg < ePhnum mem base, (pheader mem base seg).Loads →
    (pheader mem base seg).pFilesz.toNat ≤ (pheader mem base seg).pMemsz.toNat
  contents_fit : ∀ seg < ePhnum mem base, (pheader mem base seg).Loads →
    ∀ n < (pheader mem base seg).pFilesz.toNat, (pheader mem base seg).pOffset.toNat + n < size
  apart : ∀ seg < ePhnum mem base, (pheader mem base seg).Loads →
    ∀ i < size, ¬(pheader mem base seg).Covers (base + BitVec.ofNat 64 i)
  disjoint : ∀ seg < ePhnum mem base, ∀ seg' < ePhnum mem base, (pheader mem base seg).Loads →
    (pheader mem base seg').Loads → ∀ a, (pheader mem base seg).Covers a → (pheader mem base seg').Covers a → seg = seg'

namespace ElfFile

def phnum (F : ElfFile) : Nat := ePhnum F.mem F.base

def seg (F : ElfFile) (i : Nat) : ElfPheader := pheader F.mem F.base i

/-- The byte that header `i` stores at `a`. -/
def byteAt (F : ElfFile) (i : Nat) (a : Word) : Byte := (F.seg i).byteAt F.mem F.base a

/-- The byte that belongs at `a`. -/
def image (F : ElfFile) (a : Word) : Byte :=
  match (List.range F.phnum).find? fun i => (F.seg i).Loads ∧ (F.seg i).Covers a with
  | some i => F.byteAt i a
  | none => F.mem a

/-- The program is in memory, nothing else has changed, and the entry point is returned. -/
structure Loaded (F : ElfFile) (r : (Word → Byte) × Word) : Prop where
  file : ∀ i < F.phnum, (F.seg i).Loads → ∀ n < (F.seg i).pFilesz.toNat,
    r.1 ((F.seg i).pVaddr + BitVec.ofNat 64 n) = F.mem (F.base + (F.seg i).pOffset + BitVec.ofNat 64 n)
  zero : ∀ i < F.phnum, (F.seg i).Loads → ∀ n, (F.seg i).pFilesz.toNat ≤ n → n < (F.seg i).pMemsz.toNat →
    r.1 ((F.seg i).pVaddr + BitVec.ofNat 64 n) = 0
  frame : ∀ a, (∀ i < F.phnum, (F.seg i).Loads → ∀ n < (F.seg i).pMemsz.toNat,
    a ≠ (F.seg i).pVaddr + BitVec.ofNat 64 n) → r.1 a = F.mem a
  entry : r.2 = eEntry F.mem F.base

/-- Where header `i` stands. -/
def pBase (F : ElfFile) (i : Nat) : Word := F.base + (ePhoff F.mem F.base + ePhentsize F.mem F.base * BitVec.ofNat 64 i)

/-- What is read from turn `i` on: the entry point, the stride, the offsets and the sizes in the headers that are left,
and their contents. -/
inductive Pending (F : ElfFile) (i : Nat) : Word → Prop
  | entry (n : Nat) (hn : 24 ≤ n ∧ n < 32) : Pending F i (F.base + BitVec.ofNat 64 n)
  | stride (hi : i < F.phnum) (n : Nat) (hn : 54 ≤ n ∧ n < 56) : Pending F i (F.base + BitVec.ofNat 64 n)
  | header (j : Nat) (hle : i ≤ j) (hj : j < F.phnum) (n : Nat) (hn : 8 ≤ n ∧ n < 24 ∨ 32 ≤ n ∧ n < 48) :
    Pending F i (F.pBase j + BitVec.ofNat 64 n)
  | contents (j : Nat) (hle : i ≤ j) (hj : j < F.phnum) (n : Nat) (hn : n < (F.seg j).pFilesz.toNat) :
    Pending F i (F.base + (F.seg j).pOffset + BitVec.ofNat 64 n)

/-- No header changes what is read after it, nor a byte of its own contents before it has come to it. -/
structure Stable (F : ElfFile) : Prop where
  later : ∀ i < F.phnum, ∀ a, F.Pending (i + 1) a → (F.seg i).Covers a → F.byteAt i a = F.mem a
  own : ∀ i < F.phnum, ∀ n < (F.seg i).pFilesz.toNat,
    (F.base + (F.seg i).pOffset + BitVec.ofNat 64 n - (F.seg i).pVaddr).toNat < n →
      F.byteAt i (F.base + (F.seg i).pOffset + BitVec.ofNat 64 n) =
        F.mem (F.base + (F.seg i).pOffset + BitVec.ofNat 64 n)

/-- The headers of other types read inside the file and change nothing in it. -/
def Quiet (F : ElfFile) : Prop := ∀ i < F.phnum, ¬(F.seg i).Loads →
  (∀ n < (F.seg i).pFilesz.toNat, (F.seg i).pOffset.toNat + n < F.size) ∧
    ∀ n < F.size, (F.seg i).Covers (F.base + BitVec.ofNat 64 n) →
      F.byteAt i (F.base + BitVec.ofNat 64 n) = F.mem (F.base + BitVec.ofNat 64 n)

/-- What such a header stores belongs there, unless a later header stores over it. -/
def Shadowed (F : ElfFile) : Prop := ∀ i < F.phnum, ¬(F.seg i).Loads → ∀ a, (F.seg i).Covers a →
  (∀ j, i < j → j < F.phnum → ¬(F.seg j).Covers a) → F.byteAt i a = F.image a

/-- What the first headers leave, each storing over those before it. -/
def stored (F : ElfFile) : Nat → Word → Byte
  | 0 => F.mem
  | i + 1 => fun a => if (F.seg i).Covers a then F.byteAt i a else F.stored i a

end ElfFile

/-! ## One header -/

section fill
variable {dst src a : Word} {n : Nat} {f : Word → Byte} {mem : Word → Byte}

/-- The first `n` bytes from `dst` on stored, with these values. -/
def fill (dst : Word) (n : Nat) (f : Word → Byte) (mem : Word → Byte) (a : Word) : Byte :=
  if (a - dst).toNat < n then f (a - dst) else mem a

theorem add_ofNat_sub (dst : Word) (n : Nat) : dst + BitVec.ofNat 64 n - dst = BitVec.ofNat 64 n := by
  rw [BitVec.add_comm, BitVec.add_sub_cancel]

theorem toNat_ofNat_of_lt (hn : n < 2 ^ 64) : (BitVec.ofNat 64 n).toNat = n := by
  rw [BitVec.toNat_ofNat, Nat.mod_eq_of_lt hn]

theorem add_ofNat_toNat_sub (dst a : Word) : dst + BitVec.ofNat 64 (a - dst).toNat = a := by
  rw [BitVec.ofNat_toNat, BitVec.setWidth_eq, BitVec.add_comm, BitVec.sub_add_cancel]

theorem update_fill (hn : n < 2 ^ 64) :
    Function.update (fill dst n f mem) (dst + BitVec.ofNat 64 n) (f (BitVec.ofNat 64 n)) = fill dst (n + 1) f mem := by
  funext a
  by_cases ha : a = dst + BitVec.ofNat 64 n
  · rw [ha, Function.update_self, fill, add_ofNat_sub, toNat_ofNat_of_lt hn, if_pos (Nat.lt_succ_self n)]
  · have hne : (a - dst).toNat ≠ n := fun h => ha (by rw [← h, add_ofNat_toNat_sub])
    rw [Function.update_of_ne ha, fill, fill]
    exact if_congr (by omega) rfl rfl

theorem copyFile_fill (turns : Nat) (hn : n + turns ≤ 2 ^ 64)
    (hf : ∀ i < n + turns, f (BitVec.ofNat 64 i) = mem (src + BitVec.ofNat 64 i))
    (hsrc : ∀ i < n + turns, fill dst i f mem (src + BitVec.ofNat 64 i) = mem (src + BitVec.ofNat 64 i)) :
    copyFile dst src turns n (fill dst n f mem) = fill dst (n + turns) f mem := by
  induction turns generalizing n with
  | zero => rfl
  | succ turns ih =>
    -- what has been stored so far has not changed the byte that is read now
    have hread : fill dst n f mem (src + BitVec.ofNat 64 n) = f (BitVec.ofNat 64 n) := by
      rw [hsrc n (by omega), hf n (by omega)]
    rw [copyFile, hread, update_fill (by omega), ih (by omega)]
    · rw [Nat.add_right_comm, Nat.add_assoc]
    · intro i hi
      exact hf i (by omega)
    · intro i hi
      exact hsrc i (by omega)

theorem zeroRest_fill (turns : Nat) (hn : n + turns ≤ 2 ^ 64)
    (hf : ∀ i, n ≤ i → i < n + turns → f (BitVec.ofNat 64 i) = 0) :
    zeroRest dst turns n (fill dst n f mem) = fill dst (n + turns) f mem := by
  induction turns generalizing n with
  | zero => rfl
  | succ turns ih =>
    rw [zeroRest, ← hf n (Nat.le_refl n) (by omega), update_fill (by omega), ih (by omega)]
    · rw [Nat.add_right_comm, Nat.add_assoc]
    · intro i hle hlt
      exact hf i (by omega) (by omega)

end fill

/-- **One header**: it stores its bytes where it covers, unless it copies over what it still has to read. -/
theorem memMapFile_eq {h : ElfPheader} {base : Word} {mem : Word → Byte}
    (hsrc : ∀ i < h.pFilesz.toNat, (base + h.pOffset + BitVec.ofNat 64 i - h.pVaddr).toNat < i →
      h.byteAt mem base (base + h.pOffset + BitVec.ofNat 64 i) = mem (base + h.pOffset + BitVec.ofNat 64 i))
    (a : Word) : memMapFile (base + h.pOffset) h.pVaddr h.pMemsz h.pFilesz mem a =
      if h.Covers a then h.byteAt mem base a else mem a := by
  let f : Word → Byte := fun x => if x.toNat < h.pFilesz.toNat then mem (base + h.pOffset + x) else 0
  have hfile := h.pFilesz.isLt
  have hmem := h.pMemsz.isLt
  have hstart : mem = fill h.pVaddr 0 f mem := rfl
  have hcopy : copyFile h.pVaddr (base + h.pOffset) h.pFilesz.toNat 0 mem = fill h.pVaddr h.pFilesz.toNat f mem := by
    have hrun := @copyFile_fill h.pVaddr (base + h.pOffset) 0 f mem h.pFilesz.toNat
    rw [← hstart, Nat.zero_add] at hrun
    refine hrun (Nat.le_of_lt hfile) (fun i hi => ?_) fun i hi => ?_
    · exact if_pos (by rwa [toNat_ofNat_of_lt (by omega)])
    · rw [fill]
      split
      · rename_i hlt
        exact hsrc i hi hlt
      · rfl
  have hmax : h.pFilesz.toNat + (h.pMemsz.toNat - h.pFilesz.toNat) = max h.pFilesz.toNat h.pMemsz.toNat := by omega
  rw [memMapFile, hcopy, zeroRest_fill _ (by omega), hmax]
  · rfl
  · intro i hle hlt
    exact if_neg (by rw [toNat_ofNat_of_lt (by omega)]; omega)

/-! ## The table -/

theorem loadBytes_congr {mem mem' : Word → Byte} {a : Word} {n : Nat}
    (h : ∀ i < n, mem' (a + BitVec.ofNat 64 i) = mem (a + BitVec.ofNat 64 i)) :
    loadBytes mem' a n = loadBytes mem a n := by
  induction n generalizing a with
  | zero => rfl
  | succ n ih =>
    have h0 : mem' a = mem a := by
      have := h 0 (Nat.succ_pos n)
      rwa [BitVec.add_zero] at this
    rw [loadBytes, loadBytes, h0, ih fun i hi => ?_]
    have hnext : a + 1 + BitVec.ofNat 64 i = a + BitVec.ofNat 64 (i + 1) := by
      rw [BitVec.add_assoc, BitVec.add_comm 1, BitVec.ofNat_add]
      rfl
    rw [hnext]
    exact h (i + 1) (Nat.succ_lt_succ hi)

theorem loadField_congr {mem mem' : Word → Byte} {a : Word} (off n : Nat)
    (h : ∀ k, off ≤ k → k < off + n → mem' (a + BitVec.ofNat 64 k) = mem (a + BitVec.ofNat 64 k)) :
    loadField mem' (a + BitVec.ofNat 64 off) n = loadField mem (a + BitVec.ofNat 64 off) n := by
  rw [loadField, loadField, loadBytes_congr fun i hi => ?_]
  rw [BitVec.add_assoc, ← BitVec.ofNat_add]
  exact h (off + i) (by omega) (by omega)

namespace ElfFile
variable {F : ElfFile} {i : Nat} {a : Word} {mem : Word → Byte}

/-- Memory in which what is read from turn `i` on is as it was. -/
def Keeps (F : ElfFile) (i : Nat) (mem : Word → Byte) : Prop := ∀ a, F.Pending i a → mem a = F.mem a

theorem Keeps.ePhentsize (h : F.Keeps i mem) (hi : i < F.phnum) :
    ePhentsize mem F.base = Sbuos.ePhentsize F.mem F.base :=
  loadField_congr 54 2 fun k hle hlt => h _ (.stride hi k ⟨hle, hlt⟩)

theorem Keeps.eEntry (h : F.Keeps i mem) : eEntry mem F.base = Sbuos.eEntry F.mem F.base :=
  loadField_congr 24 8 fun k hle hlt => h _ (.entry k ⟨hle, hlt⟩)

/-- The header of turn `i` is read as it was, but for its type, which is never read. -/
theorem Keeps.elfPheader (h : F.Keeps i mem) (hi : i < F.phnum) :
    ∃ t, elfPheader mem (F.pBase i) = { F.seg i with pType := t } := by
  have hfield : ∀ off, (8 ≤ off ∧ off + 8 ≤ 24 ∨ 32 ≤ off ∧ off + 8 ≤ 48) →
      loadField mem (F.pBase i + BitVec.ofNat 64 off) 8 = loadField F.mem (F.pBase i + BitVec.ofNat 64 off) 8 := by
    intro off hoff
    refine loadField_congr off 8 fun k hle hlt => h _ (.header i (Nat.le_refl i) hi k ?_)
    omega
  have hoffset := hfield 8 (by decide)
  have hvaddr := hfield 16 (by decide)
  have hfilesz := hfield 32 (by decide)
  have hmemsz := hfield 40 (by decide)
  have hseg : F.seg i = Sbuos.elfPheader F.mem (F.pBase i) := rfl
  refine ⟨loadField mem (F.pBase i) 4, ?_⟩
  rw [hseg, Sbuos.elfPheader, Sbuos.elfPheader]
  exact congr (congr (congr (congrArg _ hoffset) hvaddr) hfilesz) hmemsz

/-! ## The run -/

theorem Pending.of_succ (h : F.Pending (i + 1) a) : F.Pending i a := by
  cases h with
  | entry n hn => exact .entry n hn
  | stride hi n hn => exact .stride (Nat.lt_of_succ_lt hi) n hn
  | header j hle hj n hn => exact .header j (Nat.le_of_succ_le hle) hj n hn
  | contents j hle hj n hn => exact .contents j (Nat.le_of_succ_le hle) hj n hn

theorem stored_succ (F : ElfFile) (i : Nat) (a : Word) :
    F.stored (i + 1) a = if (F.seg i).Covers a then F.byteAt i a else F.stored i a := rfl

theorem Stable.keeps_stored (hst : F.Stable) (hi : i ≤ F.phnum) : F.Keeps i (F.stored i) := by
  induction i with
  | zero => exact fun a _ => rfl
  | succ i ih =>
    intro a ha
    rw [stored_succ]
    split
    · rename_i hcov
      exact hst.later i hi a ha hcov
    · exact ih (Nat.le_of_succ_le hi) a ha.of_succ

/-- The bytes of a header are those of the file as it was. -/
theorem Keeps.byteAt (h : F.Keeps i mem) (hi : i < F.phnum) (a : Word) :
    (F.seg i).byteAt mem F.base a = F.byteAt i a := by
  rw [ElfFile.byteAt, ElfPheader.byteAt, ElfPheader.byteAt]
  split
  · rename_i hlt
    have haddr : a - (F.seg i).pVaddr = BitVec.ofNat 64 (a - (F.seg i).pVaddr).toNat := by
      rw [BitVec.ofNat_toNat, BitVec.setWidth_eq]
    rw [haddr]
    exact h _ (.contents i (Nat.le_refl i) hi _ hlt)
  · rfl

/-- **One turn.** -/
theorem Stable.memMapFile_stored (hst : F.Stable) (hi : i < F.phnum) :
    memMapFile (F.base + (F.seg i).pOffset) (F.seg i).pVaddr (F.seg i).pMemsz (F.seg i).pFilesz (F.stored i) =
      F.stored (i + 1) := by
  have hkeeps := hst.keeps_stored (Nat.le_of_lt hi)
  funext a
  rw [memMapFile_eq, stored, hkeeps.byteAt hi]
  intro n hn hpassed
  rw [hkeeps.byteAt hi, hst.own i hi n hn hpassed]
  exact (hkeeps _ (.contents i (Nat.le_refl i) hi n hn)).symm

theorem pBase_succ (F : ElfFile) (i : Nat) : F.pBase i + ePhentsize F.mem F.base = F.pBase (i + 1) := by
  rw [pBase, pBase, BitVec.ofNat_add, BitVec.mul_add, BitVec.add_assoc, BitVec.add_assoc]
  congr 3
  exact (BitVec.mul_one _).symm

/-- **The run**: each header stores over those before it. -/
theorem Stable.mapElfFrom_stored (hst : F.Stable) (turns : Nat) {p : Word} (hi : i + turns = F.phnum)
    (hp : i < F.phnum → p = F.pBase i) : mapElfFrom F.base turns p (F.stored i) = F.stored F.phnum := by
  induction turns generalizing i p with
  | zero =>
    rw [← hi]
    rfl
  | succ turns ih =>
    have hlt : i < F.phnum := by omega
    obtain ⟨t, hphdr⟩ := (hst.keeps_stored (Nat.le_of_lt hlt)).elfPheader hlt
    rw [mapElfFrom, hp hlt]
    simp only [hphdr, hst.memMapFile_stored hlt]
    refine ih (by omega) fun hnext => ?_
    -- the stride is read again, in the memory this turn leaves
    rw [(hst.keeps_stored hlt).ePhentsize hnext, pBase_succ]

theorem Stable.mapElf_stored (hst : F.Stable) : mapElf F.base F.mem = (F.stored F.phnum, eEntry F.mem F.base) := by
  have hstart : F.base + ePhoff F.mem F.base = F.pBase 0 := by
    rw [pBase, BitVec.mul_zero, BitVec.add_zero]
  have hrun : mapElfFrom F.base (ePhnum F.mem F.base) (F.pBase 0) F.mem = F.stored F.phnum :=
    hst.mapElfFrom_stored F.phnum (Nat.zero_add _) fun _ => rfl
  rw [mapElf, hstart, hrun, (hst.keeps_stored (Nat.le_refl _)).eEntry]

/-! ## Quiet files -/

/-- An address inside the contents that a header names, in the file. -/
theorem source_eq (h : ElfPheader) (base : Word) (n : Nat) :
    base + h.pOffset + BitVec.ofNat 64 n = base + BitVec.ofNat 64 (h.pOffset.toNat + n) := by
  rw [BitVec.ofNat_add, BitVec.ofNat_toNat, BitVec.setWidth_eq, BitVec.add_assoc]

theorem pBase_eq (F : ElfFile) (i : Nat) : F.pBase i =
    F.base + BitVec.ofNat 64 ((ePhoff F.mem F.base).toNat + (ePhentsize F.mem F.base).toNat * i) := by
  rw [pBase, BitVec.ofNat_add, BitVec.ofNat_mul, BitVec.ofNat_toNat, BitVec.ofNat_toNat, BitVec.setWidth_eq,
    BitVec.setWidth_eq]

theorem Quiet.reads (hq : F.Quiet) (hi : i < F.phnum) :
    ∀ n < (F.seg i).pFilesz.toNat, (F.seg i).pOffset.toNat + n < F.size := by
  by_cases hload : (F.seg i).Loads
  · exact F.contents_fit i hi hload
  · exact (hq i hi hload).1

/-- No header changes the file. -/
theorem Quiet.keeps (hq : F.Quiet) (hi : i < F.phnum) {n : Nat} (hn : n < F.size)
    (hcov : (F.seg i).Covers (F.base + BitVec.ofNat 64 n)) :
    F.byteAt i (F.base + BitVec.ofNat 64 n) = F.mem (F.base + BitVec.ofNat 64 n) := by
  by_cases hload : (F.seg i).Loads
  · exact absurd hcov (F.apart i hi hload n hn)
  · exact (hq i hi hload).2 n hn hcov

/-- And all that is read is in the file. -/
theorem Quiet.pending_inside (hq : F.Quiet) (h : F.Pending i a) : ∃ n < F.size, a = F.base + BitVec.ofNat 64 n := by
  have hheader := F.header_fits
  cases h with
  | entry n hn => exact ⟨n, by omega, rfl⟩
  | stride hi n hn => exact ⟨n, by omega, rfl⟩
  | header j hle hj n hn =>
    have hfits : (ePhoff F.mem F.base).toNat + (ePhentsize F.mem F.base).toNat * j + 56 ≤ F.size := F.table_fits j hj
    refine ⟨(ePhoff F.mem F.base).toNat + (ePhentsize F.mem F.base).toNat * j + n, by omega, ?_⟩
    rw [pBase_eq, BitVec.add_assoc, ← BitVec.ofNat_add]
  | contents j hle hj n hn => exact ⟨_, hq.reads hj n hn, source_eq _ _ _⟩

/-- Headers of other types that are in the file and leave it alone are no danger to what is read. -/
theorem Quiet.stable (hq : F.Quiet) : F.Stable where
  later i hi a ha hcov := by
    obtain ⟨n, hn, rfl⟩ := hq.pending_inside ha
    exact hq.keeps hi hn hcov
  own i hi n hn hpassed := by
    have hcov : (F.seg i).Covers (F.base + (F.seg i).pOffset + BitVec.ofNat 64 n) :=
      Nat.lt_of_lt_of_le (Nat.lt_trans hpassed hn) (Nat.le_max_left _ _)
    rw [source_eq] at hcov ⊢
    exact hq.keeps hi (hq.reads hi n hn) hcov

/-! ## The image -/

theorem image_of_covers (hi : i < F.phnum) (hload : (F.seg i).Loads) (hcov : (F.seg i).Covers a) :
    F.image a = F.byteAt i a := by
  rw [image]
  cases hfind : (List.range F.phnum).find? fun i => (F.seg i).Loads ∧ (F.seg i).Covers a with
  | some j =>
    have hj := List.find?_some hfind
    have hmem := List.mem_range.1 (List.mem_of_find?_eq_some hfind)
    obtain ⟨hjload, hjcov⟩ := of_decide_eq_true hj
    rw [F.disjoint i hi j hmem hload hjload a hcov hjcov]
  | none =>
    have := List.find?_eq_none.1 hfind i (List.mem_range.2 hi)
    exact absurd (decide_eq_true ⟨hload, hcov⟩) this

theorem image_of_not_covers (h : ∀ i < F.phnum, (F.seg i).Loads → ¬(F.seg i).Covers a) : F.image a = F.mem a := by
  rw [image]
  cases hfind : (List.range F.phnum).find? fun i => (F.seg i).Loads ∧ (F.seg i).Covers a with
  | some j =>
    have hj := List.find?_some hfind
    obtain ⟨hjload, hjcov⟩ := of_decide_eq_true hj
    exact absurd hjcov (h j (List.mem_range.1 (List.mem_of_find?_eq_some hfind)) hjload)
  | none => rfl

/-- The addresses a header to load covers are those of its segment. -/
theorem covers_iff (hi : i < F.phnum) (hload : (F.seg i).Loads) :
    (F.seg i).Covers a ↔ ∃ n < (F.seg i).pMemsz.toNat, a = (F.seg i).pVaddr + BitVec.ofNat 64 n := by
  have hle := F.filesz_le i hi hload
  have hmax : max (F.seg i).pFilesz.toNat (F.seg i).pMemsz.toNat = (F.seg i).pMemsz.toNat := Nat.max_eq_right hle
  have hlt := (F.seg i).pMemsz.isLt
  rw [ElfPheader.Covers, hmax]
  constructor
  · intro h
    exact ⟨_, h, (add_ofNat_toNat_sub _ _).symm⟩
  · rintro ⟨n, hn, rfl⟩
    rwa [add_ofNat_sub, toNat_ofNat_of_lt (by omega)]

theorem byteAt_add {n : Nat} (hn : n < 2 ^ 64) : F.byteAt i ((F.seg i).pVaddr + BitVec.ofNat 64 n) =
    if n < (F.seg i).pFilesz.toNat then F.mem (F.base + (F.seg i).pOffset + BitVec.ofNat 64 n) else 0 := by
  rw [ElfFile.byteAt, ElfPheader.byteAt, add_ofNat_sub, toNat_ofNat_of_lt hn]

theorem loaded_iff {r : (Word → Byte) × Word} :
    F.Loaded r ↔ (∀ a, r.1 a = F.image a) ∧ r.2 = eEntry F.mem F.base := by
  constructor
  · intro h
    refine ⟨fun a => ?_, h.entry⟩
    by_cases hseg : ∃ i < F.phnum, (F.seg i).Loads ∧ (F.seg i).Covers a
    · obtain ⟨i, hi, hload, hcov⟩ := hseg
      rw [image_of_covers hi hload hcov]
      obtain ⟨n, hn, rfl⟩ := (covers_iff hi hload).1 hcov
      rw [byteAt_add (Nat.lt_trans hn (F.seg i).pMemsz.isLt)]
      split
      · rename_i hfile
        exact h.file i hi hload n hfile
      · rename_i hrest
        exact h.zero i hi hload n (Nat.le_of_not_lt hrest) hn
    · have hno : ∀ i < F.phnum, (F.seg i).Loads → ¬(F.seg i).Covers a :=
        fun i hi hload hcov => hseg ⟨i, hi, hload, hcov⟩
      rw [image_of_not_covers hno]
      exact h.frame a fun i hi hload n hn ha => hno i hi hload ((covers_iff hi hload).2 ⟨n, hn, ha⟩)
  · rintro ⟨himage, hentry⟩
    -- inside a segment the byte is the one its header names
    have hat : ∀ i < F.phnum, (F.seg i).Loads → ∀ n < (F.seg i).pMemsz.toNat,
        r.1 ((F.seg i).pVaddr + BitVec.ofNat 64 n) =
          if n < (F.seg i).pFilesz.toNat then F.mem (F.base + (F.seg i).pOffset + BitVec.ofNat 64 n) else 0 := by
      intro i hi hload n hn
      rw [himage, image_of_covers hi hload ((covers_iff hi hload).2 ⟨n, hn, rfl⟩),
        byteAt_add (Nat.lt_trans hn (F.seg i).pMemsz.isLt)]
    refine ⟨fun i hi hload n hn => ?_, fun i hi hload n hle hlt => ?_, fun a ha => ?_, hentry⟩
    · rw [hat i hi hload n (Nat.lt_of_lt_of_le hn (F.filesz_le i hi hload)), if_pos hn]
    · rw [hat i hi hload n hlt, if_neg (Nat.not_lt.2 hle)]
    · rw [himage]
      refine image_of_not_covers fun i hi hload hcov => ?_
      obtain ⟨n, hn, han⟩ := (covers_iff hi hload).1 hcov
      exact ha i hi hload n hn han

/-- The last header over an address decides. -/
theorem stored_cases (F : ElfFile) (k : Nat) (a : Word) :
    (∀ i < k, ¬(F.seg i).Covers a) ∧ F.stored k a = F.mem a ∨
      ∃ i < k, (F.seg i).Covers a ∧ (∀ j, i < j → j < k → ¬(F.seg j).Covers a) ∧ F.stored k a = F.byteAt i a := by
  induction k with
  | zero => exact .inl ⟨fun i hi => absurd hi (Nat.not_lt_zero i), rfl⟩
  | succ k ih =>
    rw [stored_succ]
    split
    · rename_i hcov
      exact .inr ⟨k, Nat.lt_succ_self k, hcov, fun j hlt hj => by omega, rfl⟩
    · rename_i hcov
      obtain ⟨hno, heq⟩ | ⟨i, hi, hicov, hlast, heq⟩ := ih
      · refine .inl ⟨fun i hi => ?_, heq⟩
        obtain hi | rfl := Nat.lt_succ_iff_lt_or_eq.1 hi
        · exact hno i hi
        · exact hcov
      · refine .inr ⟨i, Nat.lt_succ_of_lt hi, hicov, fun j hlt hj => ?_, heq⟩
        obtain hj | rfl := Nat.lt_succ_iff_lt_or_eq.1 hj
        · exact hlast j hlt hj
        · exact hcov

theorem stored_of_last {k : Nat} (hi : i < k) (hcov : (F.seg i).Covers a)
    (hlast : ∀ j, i < j → j < k → ¬(F.seg j).Covers a) : F.stored k a = F.byteAt i a := by
  obtain ⟨hno, -⟩ | ⟨j, hj, hjcov, hjlast, heq⟩ := F.stored_cases k a
  · exact absurd hcov (hno i hi)
  · obtain hlt | rfl | hlt := Nat.lt_trichotomy i j
    · exact absurd hjcov (hlast j hlt hj)
    · exact heq
    · exact absurd hcov (hjlast i hlt hi)

theorem shadowed_iff : F.Shadowed ↔ ∀ a, F.stored F.phnum a = F.image a := by
  constructor
  · intro h a
    obtain ⟨hno, heq⟩ | ⟨i, hi, hcov, hlast, heq⟩ := F.stored_cases F.phnum a
    · rw [heq, image_of_not_covers fun i hi _ => hno i hi]
    · rw [heq]
      by_cases hload : (F.seg i).Loads
      · exact (image_of_covers hi hload hcov).symm
      · exact h i hi hload a hcov hlast
  · intro h i hi _ a hcov hlast
    rw [← h a, stored_of_last hi hcov hlast]

/-- **Loading builds the image** exactly when the other headers store what belongs there or is stored over. -/
theorem map_elf_image (hst : F.Stable) : F.Loaded (mapElf F.base F.mem) ↔ F.Shadowed := by
  rw [hst.mapElf_stored, loaded_iff, shadowed_iff]
  exact and_iff_left rfl

/-- A program of four bytes, and in the table behind it a TLS template: the first byte of the program, with or
without a byte of zeros after it. -/
def tlsMem (bss : Bool) (a : Word) : Byte :=
  ([(0x1000, 0x7f), (0x1001, 0x45), (0x1002, 0x4c), (0x1003, 0x46), (0x1020, 0x40), (0x1036, 0x38), (0x1038, 2),
    (0x1040, 1), (0x1048, 0xb0), (0x1052, 0x40), (0x1060, 4), (0x1068, 4),
    (0x1078, 7), (0x1080, 0xb0), (0x108a, 0x40), (0x1098, 1), (0x10a0, if bss then 2 else 1),
    (0x10b0, 0x61), (0x10b1, 0x62), (0x10b2, 0x63), (0x10b3, 0x64)].lookup a).getD 0

theorem tlsMem_table (bss : Bool) : ePhnum (tlsMem bss) 0x1000 = 2 ∧ ePhoff (tlsMem bss) 0x1000 = 0x40 ∧
    ePhentsize (tlsMem bss) 0x1000 = 0x38 ∧ pheader (tlsMem bss) 0x1000 0 = ⟨1, 0xb0, 0x400000, 4, 4⟩ ∧
    pheader (tlsMem bss) 0x1000 1 = ⟨7, 0xb0, 0x400000, 1, if bss then 2 else 1⟩ := by
  cases bss <;> decide +kernel

theorem tlsMem_loads {bss : Bool} {seg : Nat} (hseg : seg < ePhnum (tlsMem bss) 0x1000)
    (hload : (pheader (tlsMem bss) 0x1000 seg).Loads) : seg = 0 := by
  obtain ⟨hnum, -, -, -, h1⟩ := tlsMem_table bss
  obtain rfl | rfl : seg = 0 ∨ seg = 1 := by omega
  · rfl
  · rw [h1] at hload
    exact absurd hload (by decide : ¬(7 : Word) = 1)

def tlsFile (bss : Bool) : ElfFile where
  mem := tlsMem bss
  base := 0x1000
  size := 180
  size_le := by decide
  header_fits := by decide
  table_fits seg hseg := by
    obtain ⟨hnum, hoff, hent, -⟩ := tlsMem_table bss
    have h64 : (0x40 : Word).toNat = 64 := rfl
    have h56 : (0x38 : Word).toNat = 56 := rfl
    rw [hoff, hent, h64, h56]
    omega
  filesz_le seg hseg hload := by
    obtain rfl := tlsMem_loads hseg hload
    exact Nat.le_of_eq (by rw [(tlsMem_table bss).2.2.2.1])
  contents_fit seg hseg hload := by
    obtain rfl := tlsMem_loads hseg hload
    rw [(tlsMem_table bss).2.2.2.1]
    decide
  apart seg hseg hload := by
    obtain rfl := tlsMem_loads hseg hload
    rw [(tlsMem_table bss).2.2.2.1]
    decide +kernel
  disjoint seg hseg seg' hseg' hload hload' _ _ _ := by
    rw [tlsMem_loads hseg hload, tlsMem_loads hseg' hload']

theorem map_elf_image_template : (tlsFile false).Loaded (mapElf 0x1000 (tlsMem false)) := by
  have hnum : (tlsFile false).phnum = 2 := (tlsMem_table false).1
  have hload : (tlsFile false).seg 0 = ⟨1, 0xb0, 0x400000, 4, 4⟩ := (tlsMem_table false).2.2.2.1
  have htls : (tlsFile false).seg 1 = ⟨7, 0xb0, 0x400000, 1, 1⟩ := (tlsMem_table false).2.2.2.2
  have hother : ∀ i < (tlsFile false).phnum, ¬((tlsFile false).seg i).Loads → i = 1 := by
    intro i hi hno
    obtain rfl | rfl : i = 0 ∨ i = 1 := by omega
    · rw [hload] at hno
      exact absurd rfl hno
    · rfl
  have hfile : ∀ n < 180, ¬(⟨7, 0xb0, 0x400000, 1, 1⟩ : ElfPheader).Covers (0x1000 + BitVec.ofNat 64 n) := by
    decide +kernel
  have hquiet : (tlsFile false).Quiet := by
    intro i hi hno
    rw [hother i hi hno, htls]
    exact ⟨by decide, fun n hn hcov => absurd hcov (hfile n hn)⟩
  refine (map_elf_image hquiet.stable).2 fun i hi hno a hcov _ => ?_
  obtain rfl := hother i hi hno
  -- the template covers one byte, which the program has there too
  have ha : a = 0x400000 := by
    rw [htls] at hcov
    have hlt : (a - 0x400000).toNat < 1 := hcov
    have hzero : a - 0x400000 = 0 := BitVec.eq_of_toNat_eq (Nat.lt_one_iff.1 hlt)
    exact BitVec.sub_eq_iff_eq_add.1 hzero
  have hcov0 : ((tlsFile false).seg 0).Covers a := by
    rw [hload, ha]
    decide
  rw [image_of_covers (by omega) (by rw [hload]; rfl) hcov0, ElfFile.byteAt, ElfFile.byteAt, hload, htls, ha]
  rfl

/-- With a template that ends in zeros, the second byte of the program is lost. -/
theorem map_elf_image_tls : ¬(tlsFile true).Loaded (mapElf 0x1000 (tlsMem true)) := by
  intro h
  have hload : (tlsFile true).seg 0 = ⟨1, 0xb0, 0x400000, 4, 4⟩ := (tlsMem_table true).2.2.2.1
  have hnum : (tlsFile true).phnum = 2 := (tlsMem_table true).1
  have hbyte := h.file 0 (by omega) (by rw [hload]; rfl) 1 (by rw [hload]; decide)
  rw [hload] at hbyte
  exact absurd hbyte (by decide +kernel)

end ElfFile

end Sbuos
