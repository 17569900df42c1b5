import Scriptlet.Image

/-!
# Loading an image

Loading accepts **exactly** the bytes of an image and says of anything else what is wrong with it
first: the header is read and checked, then the table is read entry by entry to the last byte. The
instructions are not looked at.

The reader consumes a list of bytes. Where it stands is the number of bytes it has consumed, which
is computed only when a fault has to name it. Counts and lengths come from the image and are not
trusted: reading fails at the end of the bytes, however large they are.
-/

namespace Scriptlet

/-- Why bytes are not an image. -/
inductive FormatError where
  | truncated (offset needed : Nat)
  | badMagic
  | badTableOffset (offset : Nat)
  | badMainEntry (entry : Nat)
  | badEntry (name : String) (entry : Nat)
  | badTypeTag (byte : UInt8) (offset : Nat)
  | invalidText (offset : Nat)
  | duplicateFunction (name : String)
  | trailingBytes (count : Nat)
deriving Repr, DecidableEq

namespace FormatError

/-- A byte as two hexadecimal digits. -/
def hexByte (b : UInt8) : String :=
  let ds := Nat.toDigits 16 b.toNat
  String.ofList (List.replicate (2 - ds.length) '0' ++ ds)

/-- The text of a loading fault. -/
def message : FormatError → String
  | truncated offset needed => s!"Truncated module: needed {needed} bytes at offset {offset}"
  | badMagic => "Bad magic: not a minis module"
  | badTableOffset offset => s!"Function table offset {offset} lies outside the module"
  | badMainEntry entry => s!"Main entry {entry} lies outside the code region"
  | badEntry name entry => s!"Function '{name}' has entry {entry} outside the code region"
  | badTypeTag byte offset => s!"Unknown type tag 0x{hexByte byte} at offset {offset}"
  | invalidText offset => s!"Invalid UTF-8 in name at offset {offset}"
  | duplicateFunction name => s!"Duplicate function '{name}' in function table"
  | trailingBytes count => s!"{count} trailing bytes after the function table"

end FormatError

namespace Image.Load

/-- The first `n` bytes and the rest, if there are so many. -/
def split? : (n : Nat) → List UInt8 → Option (List UInt8 × List UInt8)
  | 0, bs => some ([], bs)
  | _ + 1, [] => none
  | n + 1, b :: bs => (split? n bs).map fun r ↦ (b :: r.1, r.2)

variable (size : Nat)

/-- The first `n` bytes, and the rest. -/
def bytes (n : Nat) (bs : List UInt8) : Except FormatError (List UInt8 × List UInt8) :=
  match split? n bs with
  | some r => .ok r
  | none => .error (.truncated (size - bs.length) n)

/-- A single byte, and the rest. -/
def byte : List UInt8 → Except FormatError (UInt8 × List UInt8)
  | b :: bs => .ok (b, bs)
  | [] => .error (.truncated size 1)

/-- A word, and the rest. -/
def word (bs : List UInt8) : Except FormatError (Nat × List UInt8) := do
  let (w, bs) ← bytes size 8 bs
  return (Code.ofLeBytes w, bs)

/-- A text behind the number of its bytes, and the rest. A fault in the text is placed behind that
number. -/
def text (bs : List UInt8) : Except FormatError (String × List UInt8) := do
  let (length, bs) ← word size bs
  let (raw, rest) ← bytes size length bs
  match Code.ofUtf8? raw.toArray with
  | some s => .ok (s, rest)
  | none => .error (.invalidText (size - bs.length))

/-- So many texts, and the rest. -/
def texts : (count : Nat) → List UInt8 → Except FormatError (List String × List UInt8)
  | 0, bs => .ok ([], bs)
  | count + 1, bs => do
    let (s, bs) ← text size bs
    let (ss, bs) ← texts count bs
    return (s :: ss, bs)

/-- One entry of the function table, with no check on where it points. Any byte but zero raises a
flag. -/
def function (bs : List UInt8) : Except FormatError (Function × List UInt8) := do
  let (name, bs) ← text size bs
  let (entry, bs) ← word size bs
  let (isVoid, bs) ← byte size bs
  let (isTyped, bs) ← byte size bs
  let (tag, rest) ← byte size bs
  match Tag.ofByte? tag with
  | none => .error (.badTypeTag tag (size - bs.length))
  | some type =>
    let (count, bs) ← word size rest
    let (params, bs) ← texts size count bs
    return (⟨name, .ofNat entry, isVoid != 0, isTyped != 0, type, params⟩, bs)

/-- An offset lies in the code or at its end. -/
def inCode (tableOffset offset : Nat) : Bool :=
  headerSize ≤ offset && offset ≤ tableOffset

/-- So many entries of the function table, each with an entry in the code and a name that is none of
`taken`. -/
def functions (tableOffset : Nat) :
    (count : Nat) → (taken : List String) → List UInt8 →
      Except FormatError (List Function × List UInt8)
  | 0, _, bs => .ok ([], bs)
  | count + 1, taken, bs => do
    let (f, bs) ← function size bs
    if !inCode tableOffset f.entry.toNat then .error (.badEntry f.name f.entry.toNat)
    else if taken.contains f.name then .error (.duplicateFunction f.name)
    else
      let (fs, bs) ← functions tableOffset count (f.name :: taken) bs
      return (f :: fs, bs)

end Image.Load

/-- The image that some bytes are. -/
def Image.load (image : Array UInt8) : Except FormatError Image := do
  let size := image.size
  let bs := image.toList
  let (opening, rest) ← Load.bytes size 8 bs
  if opening != magic then .error .badMagic
  else
    let (tableOffset, rest) ← Load.word size rest
    let (count, rest) ← Load.word size rest
    let (mainEntry, _) ← Load.word size rest
    if !(headerSize ≤ tableOffset && tableOffset ≤ size) then .error (.badTableOffset tableOffset)
    else if !Load.inCode tableOffset mainEntry then .error (.badMainEntry mainEntry)
    else
      let (functions, rest) ← Load.functions size tableOffset count [] (bs.drop tableOffset)
      if rest.isEmpty then return ⟨image, tableOffset, mainEntry, functions⟩
      else .error (.trailingBytes rest.length)

end Scriptlet
