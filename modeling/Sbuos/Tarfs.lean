import Sbuos.Process
import Mathlib.Data.List.Basic
/-!
# The archive walk (sys/tarfs.c:8-165, 210-229)

The archive lies in memory between `_tar_start` and `_tar_end`. Every search over it is the same loop:
compare the header's name, stop at an empty one, step over the content. `tarWalk` is that loop, and each
search is `tarWalk` with its own answer for the header found; `tarHeaders` lists the headers the loop
passes when no name matches.

The loops take fuel, one turn a header or a character.
-/
namespace Sbuos

/-- Memory as the kernel sees it, and the bounds that `init_tarfs` records. -/
structure Tarfs where
  mem : Word → Byte
  tarStart : Word
  tarEnd : Word
deriving Inhabited

/-- `tar_size` (tarfs.c:10-16): a `char` is signed, so it is sign extended before `'0'` is taken off. -/
def tarSize (s : Nat → Byte) : Word :=
  (List.range 11).foldl (fun res i => res * 8 + ((s i).signExtend 64 - 0x30)) 0

/-- `tar_size_roundup` (tarfs.c:18-21). -/
def tarSizeRoundup (size : Word) : Word := if size = 0 then 0 else 512 - size % 512

namespace Tarfs

/-- The bytes from address `a` on. -/
def view (t : Tarfs) (a : Word) (i : Nat) : Byte := t.mem (a + BitVec.ofNat 64 i)

/-- `tar_size(p->size)`: the field lies at byte 124 of the header. -/
def headerSize (t : Tarfs) (p : Word) : Word := tarSize (t.view (p + 124))

/-- The offset of the header after the one at `offset`. -/
def nextOffset (t : Tarfs) (offset : Word) : Word :=
  let size := t.headerSize (t.tarStart + offset)
  offset + (size + 512 + tarSizeRoundup size)

/-- The loop of tarfs.c:75-165 at `offset`; `path` is the caller's path without its leading slash. -/
def tarWalk {α : Type} (t : Tarfs) (path : Nat → Byte) (found : Word → Word → α) (absent : α) :
    Nat → Word → Option α
  | 0, _ => none
  | fuel + 1, offset =>
    let p := t.tarStart + offset
    if p < t.tarEnd then do
      let len ← kstrlen (fuel + 1) (t.view p)
      if len = 0 then some absent
      else
        let d ← kstrcmp (fuel + 1) (t.view p) path
        if d = 0 then some (found p (t.headerSize p))
        else tarWalk t path found absent fuel (t.nextOffset offset)
    else some absent

/-- The headers the loop passes, in order, when no name matches. -/
def tarHeaders (t : Tarfs) : Nat → Word → Option (List Word)
  | 0, _ => none
  | fuel + 1, offset =>
    let p := t.tarStart + offset
    if p < t.tarEnd then do
      let len ← kstrlen (fuel + 1) (t.view p)
      if len = 0 then some []
      else
        let ps ← tarHeaders t fuel (t.nextOffset offset)
        some (p :: ps)
    else some []

/-- `path + 1`. -/
def skipSlash (path : Nat → Byte) (i : Nat) : Byte := path (i + 1)

/-- `search_for_dir` (tarfs.c:75-94). -/
def searchForDir (t : Tarfs) (fuel : Nat) (path : Nat → Byte) : Option Int :=
  t.tarWalk (skipSlash path) (fun _ size => if size = 0 then 1 else 0) 0 fuel 0

/-- `search_file_open` (tarfs.c:96-114). -/
def searchFileOpen (t : Tarfs) (fuel : Nat) (abspath : Nat → Byte) : Option Int :=
  t.tarWalk (skipSlash abspath) (fun _ size => if size = 0 then 0 else 1) 0 fuel 0

/-- The stores of an open that found its file (tarfs.c:125-130). `fd_table` has 15 entries: a store
outside them is undefined behaviour. -/
def openFd (proc : Pcb) (fileStartAddress fileSize : Word) : Option (Pcb × Int) :=
  if h : 0 ≤ proc.nextFd ∧ proc.nextFd < 15 then
    some ({ proc with
      nextFd := proc.nextFd + 1
      fdTable := Function.update proc.fdTable ⟨proc.nextFd.toNat, by omega⟩
        ⟨fileStartAddress, fileSize, 0⟩ }, proc.nextFd)
  else none

/-- `do_open_file` (tarfs.c:116-135). -/
def doOpenFile (t : Tarfs) (fuel : Nat) (proc : Pcb) (abspath : Nat → Byte) : Option (Pcb × Int) := do
  let r ← t.tarWalk (skipSlash abspath) (fun p size => openFd proc (p + 512) size)
    (some (proc, -1)) fuel 0
  r

/-- `do_open_dir` (tarfs.c:137-165). -/
def doOpenDir (t : Tarfs) (fuel : Nat) (proc : Pcb) (abspath : Nat → Byte) : Option (Pcb × Int) := do
  let d ← kstrcmp (fuel + 1) abspath (cString "/")
  if d = 0 then openFd proc t.tarEnd 0
  else
    let r ← t.tarWalk (skipSlash abspath) (fun p _ => openFd proc p 0) (some (proc, -1)) fuel 0
    r

/-- The loop of `read_to_buffer` and what follows it (tarfs.c:215-228): the descriptor, the buffer and
the return value. -/
def readLoop (t : Tarfs) (size : Word) : Nat → Nat → (Nat → Byte) → Fd → Option (Fd × (Nat → Byte) × Word)
  | 0, _, _, _ => none
  | fuel + 1, i, buffer, fd =>
    if BitVec.ofNat 64 i < size - 1 then
      if fd.fileOffset ≥ fd.fileSize then some (fd, Function.update buffer i 0, BitVec.ofNat 64 (i + 1))
      else
        let c := t.mem (fd.fileStartAddress + fd.fileOffset)
        let buffer := Function.update buffer i c
        let fd := { fd with fileOffset := fd.fileOffset + 1 }
        if c = 10 then some (fd, Function.update buffer (i + 1) 0, BitVec.ofNat 64 (i + 1))
        else readLoop t size fuel (i + 1) buffer fd
    else some (fd, Function.update buffer i 0, BitVec.ofNat 64 (i + 1))

/-- `read_to_buffer` (tarfs.c:210-229). -/
def readToBuffer (t : Tarfs) (fuel : Nat) (fd : Fd) (buffer : Nat → Byte) (size : Word) :
    Option (Fd × (Nat → Byte) × Word) :=
  if fd.fileOffset ≥ fd.fileSize then some (fd, buffer, 0) else t.readLoop size fuel 0 buffer fd

end Tarfs
end Sbuos
