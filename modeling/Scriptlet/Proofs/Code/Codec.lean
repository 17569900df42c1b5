import Mathlib
import Scriptlet.Code.Instr

/-!
# Instructions are read back

What was written into code as an instruction is decoded as that instruction, wherever it stands in
the code and whatever stands around it. Numbers must fit into a word for that. Texts always do, in
code that has no more bytes than a word can count.
-/

namespace Scriptlet

namespace Code

/-- Some bytes stand in code from an offset on. -/
def Spells (code : Array UInt8) (offset : Nat) (bytes : List UInt8) : Prop :=
  ∀ k, k < bytes.length → code[offset + k]? = bytes[k]?

namespace Spells

variable {code : Array UInt8} {offset : Nat} {bytes bytes' : List UInt8} {b : UInt8}

/-- What is spelled in two parts is spelled as a whole. -/
theorem append (h : Spells code offset bytes) (h' : Spells code (offset + bytes.length) bytes') :
    Spells code offset (bytes ++ bytes') := by
  intro k hk
  rcases Nat.lt_or_ge k bytes.length with hlt | hge
  · rw [h k hlt, List.getElem?_append_left hlt]
  · rw [List.length_append] at hk
    have hk' := h' (k - bytes.length) (by omega)
    rwa [show offset + bytes.length + (k - bytes.length) = offset + k by omega,
      ← List.getElem?_append_right hge] at hk'

/-- The first part stands where the whole does. -/
theorem left (h : Spells code offset (bytes ++ bytes')) : Spells code offset bytes := by
  intro k hk
  rw [h k (by rw [List.length_append]; omega), List.getElem?_append_left hk]

/-- The second part stands behind the first. -/
theorem right (h : Spells code offset (bytes ++ bytes')) :
    Spells code (offset + bytes.length) bytes' := by
  intro k hk
  have hk' := h (bytes.length + k) (by rw [List.length_append]; omega)
  rwa [← Nat.add_assoc, List.getElem?_append_right (by omega), Nat.add_sub_cancel_left] at hk'

theorem head (h : Spells code offset (b :: bytes)) : code[offset]? = some b :=
  h 0 (by simp)

theorem tail (h : Spells code offset (b :: bytes)) : Spells code (offset + 1) bytes :=
  right (show Spells code offset ([b] ++ bytes) from h)

/-- Where something is spelled there is code. -/
theorem lt_size (h : Spells code offset (b :: bytes)) : offset < code.size :=
  (Array.getElem?_eq_some_iff.1 h.head).1

/-- Where bytes stand the code does not end before them. -/
theorem le_size (h : Spells code offset bytes) (hoffset : offset ≤ code.size) :
    offset + bytes.length ≤ code.size := by
  induction bytes generalizing offset with
  | nil => simpa using hoffset
  | cons b bytes ih =>
    have := ih h.tail h.lt_size
    rw [List.length_cons]
    omega

/-- What is spelled can be cut out. -/
theorem extract_eq (h : Spells code offset bytes) (hle : offset + bytes.length ≤ code.size) :
    code.extract offset (offset + bytes.length) = bytes.toArray := by
  apply Array.ext_getElem?
  intro k
  rw [Array.getElem?_extract]
  by_cases hk : k < bytes.length
  · rw [if_pos (by omega), h k hk]
    simp
  · rw [if_neg (by omega)]
    simp [hk]

end Spells

/-! ### Operands -/

/-- A number is read back from its bytes. -/
theorem leAt_of_spells {code : Array UInt8} {offset k n : Nat}
    (h : Spells code offset (leBytes k n)) (hn : n < 256 ^ k) : leAt code offset k = n := by
  induction k generalizing offset n with
  | zero =>
    rw [leAt]
    omega
  | succ k ih =>
    have hdiv : n / 256 < 256 ^ k := Nat.div_lt_of_lt_mul (by rwa [Nat.pow_succ'] at hn)
    rw [leAt, ih h.tail hdiv, Array.getD_eq_getD_getElem?, h.head]
    simp
    omega

/-- A byte is read back. -/
theorem byteAt_of_spells {code : Array UInt8} {offset : Nat} {b : UInt8}
    (h : Spells code offset [b]) : byteAt code offset = .ok (b, offset + 1) := by
  have hlt := h.lt_size
  rw [byteAt, if_pos (by omega), Array.getD_eq_getD_getElem?, h.head]
  rfl

/-- A word is read back if it fits into 64 bits. -/
theorem wordAt_of_spells {code : Array UInt8} {offset n : Nat} (h : Spells code offset (word n))
    (hn : n < UInt64.size) : wordAt code offset = .ok (n, offset + 8) := by
  have hlt : offset < code.size := h.lt_size
  have hle := h.le_size (by omega)
  rw [length_word] at hle
  rw [wordAt, if_pos hle, leAt_of_spells h hn]

/-- A text is read back from its bytes. -/
theorem ofUtf8?_utf8 (s : String) : ofUtf8? (utf8 s).toArray = some s := by
  have hdata : (⟨(utf8 s).toArray⟩ : ByteArray) = s.toByteArray := by
    simp [utf8]
  rw [ofUtf8?, hdata, String.fromUTF8?, dif_pos s.isValidUTF8]
  rfl

theorem length_utf8 (s : String) : (utf8 s).length = s.utf8ByteSize := by
  simp [utf8]

theorem length_sized (s : String) : (sized s).length = 8 + s.utf8ByteSize := by
  rw [sized, List.length_append, length_word, length_utf8]

/-- A text behind its length is read back if the length fits into 64 bits. -/
theorem textAt_of_spells_of_lt {code : Array UInt8} {offset : Nat} {s : String}
    (h : Spells code offset (sized s)) (hs : s.utf8ByteSize < UInt64.size) :
    textAt code offset = .ok (s, offset + (sized s).length) := by
  have hlt : offset < code.size := (Spells.left h).lt_size
  have hle := h.le_size (by omega)
  rw [length_sized] at hle
  have htext := h.right
  rw [length_word] at htext
  rw [textAt, wordAt_of_spells h.left hs]
  show (if offset + 8 + s.utf8ByteSize ≤ code.size then _ else _) = _
  have hextract := htext.extract_eq (by rw [length_utf8]; omega)
  rw [length_utf8] at hextract
  rw [if_pos (by omega), hextract, ofUtf8?_utf8, length_sized, Nat.add_assoc]

/-- A text that stands in code has fewer bytes than the code. -/
theorem textAt_of_spells {code : Array UInt8} {offset : Nat} {s : String}
    (h : Spells code offset (sized s)) (hsize : code.size < UInt64.size) :
    textAt code offset = .ok (s, offset + (sized s).length) := by
  have hlt : offset < code.size := (Spells.left h).lt_size
  have hle := h.le_size (by omega)
  rw [length_sized] at hle
  exact textAt_of_spells_of_lt h (by omega)

end Code

namespace Instr

open Code

/-- The count or the target among the operands, if there is one. -/
def number : Instr → Nat
  | makeList n | jump n | jumpIfFalse n | call _ n | tailCall _ n => n
  | _ => 0

/-- The number of bytes of an instruction. -/
def width (i : Instr) : Nat :=
  i.encode.length

theorem width_pos (i : Instr) : 0 < i.width := by
  rw [width, encode, List.length_cons]
  exact Nat.succ_pos _

/-- The first byte tells the operation, and the operands follow it. -/
theorem decode_eq_decodeOperands {code : Array UInt8} {offset : Nat} {op : Opcode}
    {bytes : List UInt8} (h : Spells code offset (op.byte :: bytes)) :
    decode code offset = decodeOperands code (offset + 1) op := by
  have hbyte : Spells code offset ([op.byte] ++ bytes) := h
  rw [decode, byteAt_of_spells hbyte.left]
  dsimp only [bind, Except.bind]
  rw [Opcode.ofByte?_byte]

/-- **An instruction is read back from the bytes that it was written as.** -/
theorem decode_of_spells {code : Array UInt8} {offset : Nat} {i : Instr}
    (h : Spells code offset i.encode) (hi : i.number < UInt64.size)
    (hsize : code.size < UInt64.size) :
    decode code offset = .ok (i, offset + i.width) := by
  have hrest : Spells code (offset + 1) i.operands := h.tail
  have hwidth : offset + i.width = offset + 1 + i.operands.length := by
    rw [width, encode, List.length_cons]
    omega
  rw [decode_eq_decodeOperands h, hwidth]
  -- The operation is known now, and what is left is to read its operands in order.
  cases i with
  | pushInt n =>
    rw [opcode, decodeOperands, wordAt_of_spells hrest (UInt64.toNat_lt _), operands]
    simp [bind, Except.bind, pure, Except.pure]
  | pushFloat x =>
    rw [opcode, decodeOperands, wordAt_of_spells hrest (UInt64.toNat_lt _), operands]
    simp [bind, Except.bind, pure, Except.pure]
  | pushBool b =>
    rw [opcode, decodeOperands, byteAt_of_spells hrest]
    cases b <;> rfl
  | pushStr s | get s | set s | unset s | setIndex s =>
    rw [opcode, decodeOperands, textAt_of_spells hrest hsize]
    rfl
  | decl name type =>
    rw [opcode, decodeOperands, textAt_of_spells hrest.left hsize]
    simp only [bind, Except.bind]
    rw [byteAt_of_spells hrest.right]
    simp [operands, Nat.add_assoc]
  | makeList n | jump n | jumpIfFalse n =>
    rw [opcode, decodeOperands, wordAt_of_spells hrest hi, operands, length_word]
    rfl
  | call name n | tailCall name n =>
    rw [opcode, decodeOperands, textAt_of_spells hrest.left hsize]
    simp only [bind, Except.bind]
    rw [wordAt_of_spells hrest.right hi, operands, List.length_append, length_word]
    rfl
  | binary op =>
    cases op with
    | compare o => cases o <;> rfl
    | _ => rfl
  | unary op => cases op <;> rfl
  | _ => rfl

end Instr

end Scriptlet
