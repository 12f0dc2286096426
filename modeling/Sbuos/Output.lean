import Sbuos.Chdir
import Sbuos.Descriptors
import Sbuos.Printf
import Sbuos.Syscall
import Sbuos.Terminal
/-!
# What a program prints (libc/printf.c:52-117, libc/stdlib.c:103-117, sys/systemcall.c:27-50)

A program reaches the files and the screen through `open`, `read`, `write` and `close`. `printf` writes one byte a
call, and `do_write` hands each to `write_k`: `Program.printf_eq` puts the text of a format on the screen.

The process that runs is the only one here; a read that has to wait for the keyboard has no result.
-/
namespace Sbuos
open Lib

/-- The loop of `do_write` (systemcall.c:31-33). -/
def writeLoop (str : Nat → Byte) (size : Word) : Nat → Nat → Screen → Option (Screen × Nat)
  | 0, _, _ => none
  | fuel + 1, i, s =>
    if BitVec.ofNat 64 i < size ∧ str i ≠ 0 then writeLoop str size fuel (i + 1) (s.writeK (str i)) else some (s, i)

/-- `do_write` (systemcall.c:27-37). -/
def doWrite (fd : Word) (buffer : Nat → Byte) (size : Word) (fuel : Nat) (s : Screen) : Option (Screen × Word) :=
  if fd = 1 then (writeLoop buffer size fuel 0 s).map fun r => (r.1, BitVec.ofNat 64 r.2) else some (s, 0)

/-- The calls `write(1, c, 1)` of `printf`, one for each byte. -/
def writeBytes (fuel : Nat) : List Byte → Screen → Option Screen
  | [], s => some s
  | c :: cs, s => do
    let (s, _) ← doWrite 1 (fun _ => c) 1 fuel s
    writeBytes fuel cs s

/-- The bytes go to `write_k` in turn. -/
def Screen.writes (text : List Byte) (s : Screen) : Screen := text.foldl (fun s v => s.writeK v) s

theorem Screen.writes_writes (u v : List Byte) (s : Screen) : (s.writes u).writes v = s.writes (u ++ v) :=
  List.foldl_append.symm

theorem Screen.Before.shows {t : List Byte} {s : Screen} (h : Screen.Before t s) (hc : s.col < 80) (text : List Byte) :
    Screen.Before (text.foldl Screen.feed t) (s.writes text) ∧ (s.writes text).col < 80 ∧
      Screen.Above s (s.writes text) :=
  h.writes hc text

/-- A change of the process that runs. -/
def Kernel.withPcb (f : Pcb → Pcb) (k : Kernel) : Kernel := k.withSched (k.sched.modify k.sched.active f)

/-- A program that runs, the kernel under it, the screen, and `_buffer` of its `printf`. -/
structure Program where
  kernel : Kernel
  paths : PathBuf
  screen : Screen
  printBuffer : Nat → Byte

namespace Program

/-- `open` (stdlib.c:103-105). -/
def openPath (pathname : Nat → Byte) (flags : Word) (fuel : Nat) (p : Program) : Option (Program × BitVec 32) := do
  let (paths, proc, fd) ← doOpen p.kernel.archive fuel p.paths pathname flags p.kernel.activePcb
  some ({ p with kernel := p.kernel.withPcb fun _ => proc, paths := paths }, fd.setWidth 32)

/-- `read` (stdlib.c:106-108). -/
def read (fd : BitVec 32) (buf : Nat → Byte) (count : Word) (fuel : Nat) (rsp : Word) (p : Program) :
    Option (Program × (Nat → Byte) × Word) := do
  let (kernel, answer) ← p.kernel.doRead (fd.signExtend 64) count buf fuel rsp
  let (buf, ret) ← answer
  some ({ p with kernel := kernel }, buf, ret)

/-- `close` (stdlib.c:115-117). -/
def close (fd : BitVec 32) (p : Program) : Option (Program × BitVec 32) := do
  let (proc, ret) ← doClose (fd.signExtend 64) p.kernel.activePcb
  some ({ p with kernel := p.kernel.withPcb fun _ => proc }, ret.setWidth 32)

/-- `printf`, with what it writes on the screen. -/
def printf (fuel : Nat) (format : Nat → Byte) (args : List PrintfArg) (p : Program) : Option Program := do
  let (q, _) ← Sbuos.printf fuel format args p.printBuffer
  let screen ← writeBytes fuel q.written p.screen
  some { p with screen := screen, printBuffer := q.buffer.mem }

end Program

/-! ## Descriptors -/

namespace Kernel
variable {i : Fin 15} {f g : Fd} {k : Kernel}

/-- Descriptor `i` of the process that runs. -/
def fd (i : Fin 15) (k : Kernel) : Fd := k.activePcb.fdTable i

def withFd (i : Fin 15) (f : Fd) : Kernel → Kernel := withPcb (Pcb.setFd i f)

@[simp] theorem withPcb_activePcb (f : Pcb → Pcb) : (k.withPcb f).activePcb = f k.activePcb :=
  Function.update_self ..

theorem withPcb_withPcb (f g : Pcb → Pcb) : (k.withPcb f).withPcb g = k.withPcb (g ∘ f) := by
  simp [withPcb, withSched, Sched.modify]

theorem withPcb_id : k.withPcb id = k := by
  simp [withPcb, withSched, Sched.modify]

@[simp] theorem withFd_archive : (k.withFd i f).archive = k.archive := rfl

@[simp] theorem withFd_fd : (k.withFd i f).fd i = f := by
  rw [fd, withFd, withPcb_activePcb]
  exact Function.update_self ..

@[simp] theorem withFd_withFd : (k.withFd i f).withFd i g = k.withFd i g := by
  rw [withFd, withFd, withPcb_withPcb]
  congr 1
  funext proc
  simp [Pcb.setFd]

@[simp] theorem withFd_self : k.withFd i (k.fd i) = k := by
  have hsame : Pcb.setFd i (k.fd i) k.activePcb = k.activePcb := by simp [Pcb.setFd, fd]
  have hupdate : Function.update k.sched.pcbs k.sched.active (Pcb.setFd i (k.fd i) k.activePcb) = k.sched.pcbs := by
    rw [hsame]
    exact Function.update_eq_self _ _
  simp only [withFd, withPcb, withSched, Sched.modify]
  exact congrArg (fun pcbs => { k with sched := { k.sched with pcbs := pcbs } }) hupdate

end Kernel

namespace Program
variable {p : Program} {fd : BitVec 32} {i : Fin 15} {f : Fd} {buf buf' : Nat → Byte} {count ret rsp : Word}
  {fuel : Nat}

/-- A read from a file. -/
theorem read_file (hi : (fd.signExtend 64).toNat = i) (hfile : (p.kernel.fd i).fileStartAddress ≠ 0)
    (h : p.kernel.archive.readToBuffer fuel (p.kernel.fd i) buf count = some (f, buf', ret)) :
    p.read fd buf count fuel rsp = some ({ p with kernel := p.kernel.withFd i f }, buf', ret) := by
  have hkeys : ¬(fd.signExtend 64 = 0 ∧ (p.kernel.activePcb.fdTable 0).fileStartAddress = 0) := by
    rintro ⟨h0, hstart⟩
    obtain rfl : i = 0 := Fin.ext (hi.symm.trans (by rw [h0]; rfl))
    exact hfile hstart
  have hlt : (fd.signExtend 64).toNat < 15 := hi ▸ i.isLt
  obtain rfl : ⟨_, hlt⟩ = i := Fin.ext hi
  have hread : p.kernel.archive.readToBuffer fuel (p.kernel.activePcb.fdTable ⟨_, hlt⟩) buf count = _ := h
  rw [read, Kernel.doRead, if_neg hkeys, dif_pos hlt, hread]
  rfl

theorem close_eq (hi : (fd.signExtend 64).toNat = i) :
    p.close fd = some ({ p with kernel := p.kernel.withFd i ⟨0, 0, 0⟩ }, 0) := by
  have hlt : (fd.signExtend 64).toNat < 15 := hi ▸ i.isLt
  obtain rfl : ⟨_, hlt⟩ = i := Fin.ext hi
  rw [close, doClose, dif_pos hlt]
  rfl

end Program

/-! ## On the screen -/

section write
variable {s : Screen} {str : Nat → Byte} {w : List Byte} {fuel i : Nat} {size : Word}

/-- One byte; a NUL is not shown. -/
theorem doWrite_byte (c : Byte) (hfuel : 2 ≤ fuel) :
    ∃ n, doWrite 1 (fun _ => c) 1 fuel s = some (s.writeK c, n) := by
  obtain ⟨fuel, rfl⟩ : ∃ f, fuel = f + 2 := ⟨fuel - 2, by omega⟩
  rw [doWrite, if_pos rfl, writeLoop]
  by_cases hc : c = 0
  · refine ⟨0, ?_⟩
    rw [if_neg fun h => h.2 hc, Screen.writeK, if_pos hc]
    rfl
  · refine ⟨1, ?_⟩
    rw [if_pos ⟨by decide, hc⟩, writeLoop, if_neg fun h => absurd h.1 (by decide)]
    rfl

theorem writeBytes_eq (hfuel : 2 ≤ fuel) : writeBytes fuel w s = some (s.writes w) := by
  induction w generalizing s with
  | nil => rfl
  | cons c w ih =>
    obtain ⟨n, hn⟩ := doWrite_byte (s := s) c hfuel
    rw [writeBytes, hn]
    simp only [Option.bind_eq_bind, Option.bind_some]
    exact ih

end write

/-- The characters of a text. -/
def ascii (text : String) : List Byte := text.toList.map fun c => BitVec.ofNat 8 c.toNat

namespace Item

/-- The characters of a format that stand for themselves. -/
def plains (l : List Byte) (h : ∀ c ∈ l, c ≠ 0 ∧ c ≠ percent) : List Item :=
  l.pmap (fun c hc => .plain c hc.1 hc.2) h

section plains
variable {l : List Byte} {h : ∀ c ∈ l, c ≠ 0 ∧ c ≠ percent}

@[simp] theorem spelling_plains : (plains l h).flatMap spelling = l := by
  induction l with
  | nil => rfl
  | cons c l ih => exact congrArg (c :: ·) (ih (h := fun c hc => h c (List.mem_cons_of_mem _ hc)))

@[simp] theorem text_plains : (plains l h).flatMap text = l := by
  induction l with
  | nil => rfl
  | cons c l ih => exact congrArg (c :: ·) (ih (h := fun c hc => h c (List.mem_cons_of_mem _ hc)))

@[simp] theorem arg_plains : (plains l h).flatMap arg = [] := by
  induction l with
  | nil => rfl
  | cons c l ih => exact ih (h := fun c hc => h c (List.mem_cons_of_mem _ hc))

end plains

/-- No number. -/
def Textual (item : Item) : Prop := item.numeric = false ∧ item.Proper

theorem textual_plains {l : List Byte} {h : ∀ c ∈ l, c ≠ 0 ∧ c ≠ percent} : ∀ item ∈ plains l h, item.Textual := by
  intro item hitem
  obtain ⟨c, hc, rfl⟩ := List.mem_pmap.1 hitem
  exact ⟨rfl, trivial⟩

/-- Only the numerals have to fit. -/
theorem numeralsFit_append {front items : List Item} (h : ∀ item ∈ front, item.Textual) {n : Nat} :
    NumeralsFit n (front ++ items) ↔ NumeralsFit n items := by
  induction front with
  | nil => exact Iff.rfl
  | cons item front ih =>
    obtain ⟨hnum, hproper⟩ := h item List.mem_cons_self
    have hskip : (if item.numeric then n + item.text.length else n) = n := by rw [hnum, if_neg Bool.false_ne_true]
    rw [List.cons_append, NumeralsFit, hskip, ih fun item hi => h item (List.mem_cons_of_mem _ hi)]
    constructor
    · exact fun hfit => hfit.2.2
    · exact fun hfit => ⟨hproper, fun hn => absurd (hn.symm.trans hnum) Bool.true_eq_false.mp, hfit⟩

theorem numeralsFit_of_textual {items : List Item} (h : ∀ item ∈ items, item.Textual) (n : Nat) :
    NumeralsFit n items := by
  have hfit : NumeralsFit n (items ++ []) := (numeralsFit_append h).2 trivial
  rwa [List.append_nil] at hfit

end Item

namespace Program
variable {p : Program} {format : Nat → Byte} {items : List Item}

/-- **printf on the screen.** -/
theorem printf_eq (h : Spells format (formatText items false)) (hfit : NumeralsFit 0 items) :
    ∃ printBuffer, Returns (fun fuel => p.printf fuel format (items.flatMap Item.arg))
      { p with screen := p.screen.writes (items.flatMap Item.text), printBuffer := printBuffer } := by
  obtain ⟨hproper, hroom⟩ := numeralsFit_iff.1 hfit
  have htext : items.flatMap Item.output = items.flatMap Item.text :=
    List.flatMap_congr fun item hitem => Item.output_eq_text.2 (hproper item hitem)
  have hexact : PrintsExactly format (items.flatMap Item.arg) p.printBuffer (formatText items false).length
      (items.flatMap Item.text) := (printsExactly_iff h).2 ⟨hroom, htext⟩
  obtain ⟨q, ⟨n, hn⟩, -, hwritten⟩ := hexact
  refine ⟨q.buffer.mem, .of_le (max n 2) fun fuel hf => ?_⟩
  have hrun := hn fuel (by omega)
  dsimp only at hrun ⊢
  rw [printf, hrun]
  simp only [Option.bind_eq_bind, Option.bind_some, hwritten, writeBytes_eq (show 2 ≤ fuel by omega)]

/-- A message about one thing. -/
theorem printf_item (front back : List Byte) (hfront : ∀ c ∈ front, c ≠ 0 ∧ c ≠ percent)
    (hback : ∀ c ∈ back, c ≠ 0 ∧ c ≠ percent) (item : Item) (hproper : item.Proper)
    (hfits : item.numeric → item.text.length < 30) (h : Spells format (front ++ item.spelling ++ back)) (p : Program) :
    ∃ printBuffer, Returns (fun fuel => p.printf fuel format item.arg)
      { p with screen := p.screen.writes (front ++ item.text ++ back), printBuffer := printBuffer } := by
  let items := Item.plains front hfront ++ (item :: Item.plains back hback)
  have hspelling : formatText items false = front ++ item.spelling ++ back := by simp [items, formatText]
  have hfit : NumeralsFit 0 items := by
    refine (Item.numeralsFit_append Item.textual_plains).2 ⟨hproper, fun hn => ?_, ?_⟩
    · rw [Nat.zero_add]
      exact hfits hn
    · exact Item.numeralsFit_of_textual Item.textual_plains _
  have htext : items.flatMap Item.text = front ++ item.text ++ back := by simp [items]
  have harg : items.flatMap Item.arg = item.arg := by simp [items]
  obtain ⟨printBuffer, hprint⟩ := printf_eq (p := p) (hspelling ▸ h) hfit
  rw [htext, harg] at hprint
  exact ⟨printBuffer, hprint⟩

theorem printf_message (front back : List Byte) {w : List Byte} {str : Nat → Byte}
    (hfront : ∀ c ∈ front, c ≠ 0 ∧ c ≠ percent)
    (hback : ∀ c ∈ back, c ≠ 0 ∧ c ≠ percent) (h : Spells format (front ++ [percent, 0x73] ++ back))
    (hstr : Spells str w) (p : Program) : ∃ printBuffer, Returns (fun fuel => p.printf fuel format [.str str])
      { p with screen := p.screen.writes (front ++ w ++ back), printBuffer := printBuffer } :=
  printf_item front back hfront hback (.str str w hstr) trivial nofun h p

end Program
end Sbuos
