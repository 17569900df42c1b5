import Scriptlet.Code.Instr

/-!
# Code under construction

A buffer grows by whole instructions and by jumps to labels. A jump is written with a zero operand
and the place of the operand is kept as a site; binding a label fixes it to the present end of the
buffer, and `resolve` writes the bound offsets into all sites at once.

`resolve` takes **every** site, also when it fails at a label that was never bound: the sites before
that one are written then, and those after it are lost.

The header of an image is part of the buffer from the start, so each offset is an offset into the
finished image.
-/

namespace Scriptlet

/-- A place to jump to, by its number. -/
structure Label where
  id : Nat
deriving Repr, DecidableEq

/-- The place of a jump operand that waits for its label. -/
structure Site where
  offset : Nat
  label : Label
deriving Repr, DecidableEq

/-- The eight bytes that open every image. -/
def magic : List UInt8 :=
  Code.utf8 "AVOCADO1"

/-- The number of bytes before the first instruction. -/
def headerSize : Nat := 32

/-- Bytes of an image, with the labels made so far and the sites that wait for them. -/
structure Buffer where
  bytes : Array UInt8
  /-- The offset each label is bound to. -/
  labels : Array (Option Nat)
  sites : List Site
deriving Repr

namespace Buffer

/-- A buffer with the header of an image, its three words still zero. -/
def new : Buffer :=
  ⟨(magic ++ List.replicate (headerSize - magic.length) 0).toArray, #[], []⟩

/-- The offset of the next byte. -/
def size (b : Buffer) : Nat :=
  b.bytes.size

/-- Adds bytes at the end. -/
def append (b : Buffer) (bytes : List UInt8) : Buffer :=
  { b with bytes := b.bytes ++ bytes }

/-- Adds an operation without its operands. -/
def op (b : Buffer) (op : Opcode) : Buffer :=
  b.append [op.byte]

/-- Adds a byte. -/
def byte (b : Buffer) (n : UInt8) : Buffer :=
  b.append [n]

/-- Adds a word. -/
def word (b : Buffer) (n : UInt64) : Buffer :=
  b.append (Code.word n.toNat)

/-- Adds a signed integer. -/
def int (b : Buffer) (n : Int64) : Buffer :=
  b.append (Code.word n.toUInt64.toNat)

/-- Adds a float by its bits. -/
def float (b : Buffer) (x : Float) : Buffer :=
  b.append (Code.word x.toBits.toNat)

/-- Adds a text behind its length. -/
def text (b : Buffer) (s : String) : Buffer :=
  b.append (Code.sized s)

/-- Adds a whole instruction. -/
def emit (b : Buffer) (i : Instr) : Buffer :=
  b.append i.encode

/-- Makes a label that is bound to nothing yet. -/
def newLabel (b : Buffer) : Label × Buffer :=
  (⟨b.labels.size⟩, { b with labels := b.labels.push none })

/-- Binds a label to the end of the buffer. -/
def bind (b : Buffer) (l : Label) : Buffer :=
  { b with labels := b.labels.setIfInBounds l.id (some b.size) }

/-- Adds a jump whose target is a label. -/
def jump (b : Buffer) (op : Opcode) (l : Label) : Buffer :=
  let b := b.op op
  { b.append (Code.word 0) with sites := b.sites ++ [⟨b.size, l⟩] }

/-- The offset a label is bound to. -/
def target? (b : Buffer) (l : Label) : Option Nat :=
  (b.labels[l.id]?).join

/-- Writes bytes over those from an offset on. -/
def overwrite (bytes : Array UInt8) : (offset : Nat) → List UInt8 → Array UInt8
  | _, [] => bytes
  | offset, x :: xs => overwrite (bytes.setIfInBounds offset x) (offset + 1) xs

/-- Writes another operation over the one at an offset; its operands stay. -/
def replaceOp (b : Buffer) (offset : Nat) (op : Opcode) : Buffer :=
  { b with bytes := b.bytes.setIfInBounds offset op.byte }

/-- Writes a word over the eight bytes from an offset on. -/
def patch (b : Buffer) (offset : Nat) (n : Nat) : Buffer :=
  { b with bytes := overwrite b.bytes offset (Code.word n) }

/-- Writes the targets of sites in order, up to the first whose label is not bound. -/
def patchSites : List Site → Buffer → Except Label Unit × Buffer
  | [], b => (.ok (), b)
  | s :: sites, b =>
    match b.target? s.label with
    | none => (.error s.label, b)
    | some target => patchSites sites (b.patch s.offset target)

/-- Writes the targets of all sites and drops the sites; gives their number, or the first label
that was never bound. -/
def resolve (b : Buffer) : Except Label Nat × Buffer :=
  let (result, b') := patchSites b.sites { b with sites := [] }
  (result.map fun _ ↦ b.sites.length, b')

end Buffer

end Scriptlet
