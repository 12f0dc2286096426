import Sbuos.Cat
import Sbuos.DirChildren
/-!
# ls (bin/ls/ls.c:6-25, libc/stdlib.c:134-178)

`ls` opens the working directory, has the kernel write an entry for each name in it, and prints the names that
`readdir` finds there. The directory is in itself: its own name leaves an empty line, but for the root, which has none.

The block for the entries is what `malloc` returned, at `addr`, with what it held; `readdir` goes on until it meets a
`d_ino` of 0 there.

**`ls_lists`**: on an archive of files, in whatever directory, `ls` prints a line for each name in it.
-/
namespace Sbuos
open Lib

namespace Program

end Program

/-- A line for each name. -/
def lines (names : List (List Byte)) : List Byte := names.flatMap fun name => name ++ [10]

/-- What is in the directory `w`, each name without that of the directory. -/
def listed (w : List Byte) (ms : List Member) : List (List Byte) :=
  ((ms.map Member.name).filter fun name => InDir w name).map fun name => name.drop w.length

/-! ## The loop -/

section loop
variable {p : Program} {b : Nat → Dirent}

end loop

/-! ## The listing -/

namespace Tarfs
variable {t : Tarfs} {ms : List Member} {bs w : List Byte} {off : Nat} {offset p : Word}

theorem Visits.lt (h : t.Visits w offset p) : p < t.tarEnd := by
  induction h with
  | here hlt _ => exact hlt
  | next _ _ _ _ _ ih => exact ih

end Tarfs

/-! ## The open -/

section openDir
variable {t : Tarfs} {proc : Pcb} {u base rel w : List Byte} {path : Nat → Byte} {p : Program}

end openDir

/-! ## The program -/

section main
variable {ms : List Member} {bs base text : List Byte} {p : Program}
open Tarfs

end main

end Sbuos
