import Scriptlet.Machine.Step
import Scriptlet.Proofs.Code.Patching
import Scriptlet.Proofs.Image.Format

/-!
# Operands are read back

An operand is written and read without a look at the instruction that it belongs to. Here an
operation may be followed by any operands: reading them by their shapes gives them back, one after
the other, and ends where the next operation stands. Decoding an instruction **is** such a reading,
by the shapes that its operation asks for.

The second half is about code that nobody wrote. There the length of a text may be any word, and an
offset and a length may add up to more than a word holds. `Operand.Shape.fetch` reads as a machine
does whose offsets are words: it compares a sum that saturates with the size of the code, and then
adds without a check. What saturates lies beyond the code, so the sum that is made does not wrap
around.
-/

namespace Scriptlet

open Code

/-- An operand of an instruction. -/
inductive Operand where
  | byte (b : UInt8)
  | word (n : UInt64)
  | int (n : Int64)
  | float (x : Float)
  | text (s : String)

namespace Operand

/-- What an operand is read as. -/
inductive Shape where
  | byte | word | int | float | text
deriving Repr, DecidableEq

/-- The shape of an operand. -/
def shape : Operand → Shape
  | byte _ => .byte
  | word _ => .word
  | int _ => .int
  | float _ => .float
  | text _ => .text

/-- The number of bytes of an operand. -/
def size : Operand → Nat
  | byte _ => 1
  | word _ | int _ | float _ => 8
  | text s => 8 + s.utf8ByteSize

/-- The edit that adds an operand. -/
def edit : Operand → Edit
  | byte b => .byte b
  | word n => .word n
  | int n => .int n
  | float x => .float x
  | text s => .text s

/-- The bytes of an operand. -/
def bytes (v : Operand) : List UInt8 :=
  v.edit.bytes

/-- A text has no more bytes than its length can count. -/
def Fits : Operand → Prop
  | text s => s.utf8ByteSize < UInt64.size
  | _ => True

theorem length_bytes (v : Operand) : v.bytes.length = v.size := by
  cases v with
  | byte b => rfl
  | text s => exact length_sized s
  | word | int | float => exact length_word _

/-! ### Reading -/

/-- An operand of a shape, and the offset after it. -/
def Shape.readAt (code : Array UInt8) (offset : Nat) :
    Shape → Except DecodeError (Operand × Nat)
  | .byte => do
    let (b, next) ← byteAt code offset
    return (.byte b, next)
  | .word => do
    let (n, next) ← wordAt code offset
    return (.word (.ofNat n), next)
  | .int => do
    let (n, next) ← wordAt code offset
    return (.int (UInt64.ofNat n).toInt64, next)
  | .float => do
    let (n, next) ← wordAt code offset
    return (.float (.ofBits (.ofNat n)), next)
  | .text => do
    let (s, next) ← textAt code offset
    return (.text s, next)

/-- Operands of some shapes, one behind the other, and the offset after them. -/
def readAll (code : Array UInt8) : List Shape → Nat → Except DecodeError (List Operand × Nat)
  | [], offset => .ok ([], offset)
  | shape :: shapes, offset => do
    let (v, next) ← shape.readAt code offset
    let (vs, next) ← readAll code shapes next
    return (v :: vs, next)

/-- An operand is read back where it is spelled. -/
theorem readAt_of_spells {code : Array UInt8} {offset : Nat} {v : Operand}
    (h : Spells code offset v.bytes) (hv : v.Fits) :
    v.shape.readAt code offset = .ok (v, offset + v.size) := by
  cases v with
  | byte b =>
    rw [shape, Shape.readAt, byteAt_of_spells h]
    rfl
  | word n =>
    rw [shape, Shape.readAt, wordAt_of_spells h n.toNat_lt]
    simp [bind, Except.bind, pure, Except.pure, size]
  | int n =>
    rw [shape, Shape.readAt, wordAt_of_spells h (UInt64.toNat_lt _)]
    simp [bind, Except.bind, pure, Except.pure, size]
  | float x =>
    rw [shape, Shape.readAt, wordAt_of_spells h (UInt64.toNat_lt _)]
    simp [bind, Except.bind, pure, Except.pure, size]
  | text s =>
    rw [shape, Shape.readAt, textAt_of_spells_of_lt h hv, length_sized]
    rfl

/-- Operands one behind the other are read back in order. -/
theorem readAll_of_spells {code : Array UInt8} {offset : Nat} {vs : List Operand}
    (h : Spells code offset (vs.flatMap bytes)) (hvs : ∀ v ∈ vs, v.Fits) :
    readAll code (vs.map shape) offset = .ok (vs, offset + (vs.flatMap bytes).length) := by
  induction vs generalizing offset with
  | nil => rfl
  | cons v vs ih =>
    rw [List.flatMap_cons] at h
    have hrest := h.right
    rw [length_bytes] at hrest
    rw [List.map_cons, readAll, readAt_of_spells h.left (hvs v List.mem_cons_self)]
    simp only [bind, Except.bind]
    rw [ih hrest fun w hw ↦ hvs w (List.mem_cons_of_mem v hw)]
    simp [pure, Except.pure, length_bytes, Nat.add_assoc]

end Operand

/-! ### Writing -/

namespace Buffer

/-- Adding operands one by one adds their bytes. -/
theorem editAll_operands (b : Buffer) (vs : List Operand) :
    b.editAll (vs.map Operand.edit) = b.append (vs.flatMap Operand.bytes) := by
  induction vs generalizing b with
  | nil => simp [editAll, append]
  | cons v vs ih =>
    have hv : b.edit v.edit = b.append v.bytes := by cases v <;> rfl
    rw [List.flatMap_cons, ← append_append, ← hv]
    exact ih (b.edit v.edit)

/-- An operation and its operands are added behind what is there. -/
theorem made_operands (es : List Edit) (op : Opcode) (vs : List Operand) :
    made (es ++ .op op :: vs.map Operand.edit) =
      (made es).append (op.byte :: vs.flatMap Operand.bytes) := by
  rw [made_append]
  exact (editAll_operands ((made es).op op) vs).trans (append_append ..)

/-- An operation and its operands stand where they were added, whatever was added before and is
added or resolved later. -/
theorem spells_operands (before after : List Edit) (op : Opcode) (vs : List Operand) :
    Spells (made (before ++ .op op :: vs.map Operand.edit ++ after)).bytes (made before).size
      (op.byte :: vs.flatMap Operand.bytes) := by
  have hneat := Neat.made before
  rw [made_append, made_operands]
  exact ((Fixed.append_self hneat.tidy _).editAll (hneat.append _) after).spells

/-- **Operands that were added are read back**, and the reading ends where the next operation is
added. -/
theorem readAll_made (before after : List Edit) (op : Opcode) {vs : List Operand}
    (hvs : ∀ v ∈ vs, v.Fits) :
    Operand.readAll (made (before ++ .op op :: vs.map Operand.edit ++ after)).bytes
        (vs.map Operand.shape) ((made before).size + 1) =
      .ok (vs, (made (before ++ .op op :: vs.map Operand.edit)).size) := by
  rw [Operand.readAll_of_spells (spells_operands before after op vs).tail hvs, made_operands,
    size_append, List.length_cons, Nat.add_right_comm, Nat.add_assoc]

end Buffer

/-! ### Decoding -/

/-- The shapes of the operands that an operation asks for. -/
def Opcode.shapes : Opcode → List Operand.Shape
  | pushInt => [.int]
  | pushFloat => [.float]
  | pushBool => [.byte]
  | makeList | jump | jumpIfFalse => [.word]
  | pushStr | get | set | unset | setIndex => [.text]
  | decl => [.text, .byte]
  | call | tailCall => [.text, .word]
  | _ => []

/-- The instruction of an operation with operands. Operands of other shapes than the operation asks
for do not occur where this is used. -/
def Instr.ofOperands : Opcode → List Operand → Except DecodeError Instr
  | .pushInt, [.int n] => .ok (.pushInt n)
  | .pushFloat, [.float x] => .ok (.pushFloat x)
  | .pushBool, [.byte b] => .ok (.pushBool (b != 0))
  | .pushStr, [.text s] => .ok (.pushStr s)
  | .pushNull, [] => .ok .pushNull
  | .makeList, [.word n] => .ok (.makeList n.toNat)
  | .get, [.text s] => .ok (.get s)
  | .set, [.text s] => .ok (.set s)
  | .decl, [.text s, .byte b] =>
    (Tag.ofByte? b).elim (.error (.unknownTag b)) fun type ↦ .ok (.decl s type)
  | .unset, [.text s] => .ok (.unset s)
  | .pop, [] => .ok .pop
  | .add, [] => .ok (.binary .add)
  | .subtract, [] => .ok (.binary .subtract)
  | .multiply, [] => .ok (.binary .multiply)
  | .divide, [] => .ok (.binary .divide)
  | .negate, [] => .ok (.unary .negate)
  | .not, [] => .ok (.unary .not)
  | .equal, [] => .ok (.binary .equal)
  | .notEqual, [] => .ok (.binary .notEqual)
  | .less, [] => .ok (.binary (.compare .less))
  | .lessEqual, [] => .ok (.binary (.compare .lessEqual))
  | .greater, [] => .ok (.binary (.compare .greater))
  | .greaterEqual, [] => .ok (.binary (.compare .greaterEqual))
  | .and, [] => .ok (.binary .and)
  | .or, [] => .ok (.binary .or)
  | .index, [] => .ok .index
  | .slice, [] => .ok .slice
  | .setIndex, [.text s] => .ok (.setIndex s)
  | .jump, [.word n] => .ok (.jump n.toNat)
  | .jumpIfFalse, [.word n] => .ok (.jumpIfFalse n.toNat)
  | .call, [.text s, .word n] => .ok (.call s n.toNat)
  | .tailCall, [.text s, .word n] => .ok (.tailCall s n.toNat)
  | .ret, [] => .ok .ret
  | .retVoid, [] => .ok .retVoid
  | .enterScope, [] => .ok .enterScope
  | .exitScope, [] => .ok .exitScope
  | .halt, [] => .ok .halt
  | _, _ => .error .truncated

namespace Code

variable {code : Array UInt8}

/-- A number is that of the bytes cut out of the code. -/
theorem leAt_eq_ofLeBytes {offset k : Nat} (h : offset + k ≤ code.size) :
    leAt code offset k = ofLeBytes (code.extract offset (offset + k)).toList := by
  induction k generalizing offset with
  | zero => simp [leAt, ofLeBytes]
  | succ k ih =>
    have hlt : offset < code.size := by omega
    have hrest := @ih (offset + 1) (by omega)
    have hextract : (code.extract offset (offset + (k + 1))).toList =
        code.getD offset 0 :: (code.extract (offset + 1) (offset + 1 + k)).toList := by
      simp [List.extract_eq_take_drop, List.drop_eq_getElem_cons (Array.length_toList ▸ hlt), hlt]
    rw [leAt, hrest, hextract, ofLeBytes]

/-- Eight bytes make a number of 64 bits. -/
theorem lt_of_wordAt {offset n next : Nat} (h : wordAt code offset = .ok (n, next)) :
    n < UInt64.size := by
  rw [wordAt] at h
  split at h
  · next hle =>
    obtain ⟨rfl, -⟩ := Prod.mk.inj (Except.ok.inj h)
    have hlen : (code.extract offset (offset + 8)).toList.length = 8 := by
      rw [Array.length_toList, Array.size_extract]
      omega
    rw [leAt_eq_ofLeBytes hle]
    exact Nat.lt_of_lt_of_eq (ofLeBytes_lt _) (by rw [hlen]; rfl)
  · cases h

end Code

/-- **Decoding reads the operands by their shapes**, and makes the instruction of them. -/
theorem Instr.decodeOperands_eq (code : Array UInt8) (offset : Nat) (op : Opcode) :
    decodeOperands code offset op = do
      let r ← Operand.readAll code op.shapes offset
      return (← ofOperands op r.1, r.2) := by
  -- Operations that ask for the same shapes read the same operands and differ in what they make of
  -- them.
  cases op with
  | pushInt | pushFloat =>
    rw [decodeOperands, Opcode.shapes, Operand.readAll, Operand.Shape.readAt]
    rcases wordAt code offset with e | ⟨n, next⟩ <;> rfl
  | pushBool =>
    rw [decodeOperands, Opcode.shapes, Operand.readAll, Operand.Shape.readAt]
    rcases byteAt code offset with e | ⟨b, next⟩ <;> rfl
  | makeList | jump | jumpIfFalse =>
    rw [decodeOperands, Opcode.shapes, Operand.readAll, Operand.Shape.readAt]
    rcases hn : wordAt code offset with e | ⟨n, next⟩
    · rfl
    · have hword := UInt64.toNat_ofNat_of_lt' (lt_of_wordAt hn)
      refine congrArg (fun i ↦ Except.ok (i, next)) ?_
      exact congrArg _ hword.symm
  | pushStr | get | set | unset | setIndex =>
    rw [decodeOperands, Opcode.shapes, Operand.readAll, Operand.Shape.readAt]
    rcases textAt code offset with e | ⟨s, next⟩ <;> rfl
  | decl =>
    rw [decodeOperands, Opcode.shapes, Operand.readAll, Operand.Shape.readAt]
    rcases textAt code offset with e | ⟨s, mid⟩
    · rfl
    · dsimp only [bind, Except.bind, pure, Except.pure]
      rw [Operand.readAll, Operand.Shape.readAt]
      rcases byteAt code mid with e | ⟨b, next⟩
      · rfl
      -- The byte of a type is read first and looked up afterwards.
      · have hdecl : ofOperands .decl [.text s, .byte b] =
            (Tag.ofByte? b).elim (.error (.unknownTag b)) fun type ↦ .ok (.decl s type) := rfl
        change _ = (ofOperands .decl [.text s, .byte b] >>= fun i ↦ Except.ok (i, next))
        rw [hdecl]
        dsimp only
        rcases Tag.ofByte? b <;> rfl
  | call | tailCall =>
    rw [decodeOperands, Opcode.shapes, Operand.readAll, Operand.Shape.readAt]
    rcases textAt code offset with e | ⟨s, mid⟩
    · rfl
    · dsimp only [bind, Except.bind, pure, Except.pure]
      rw [Operand.readAll, Operand.Shape.readAt]
      rcases hn : wordAt code mid with e | ⟨n, next⟩
      · rfl
      · have hword := UInt64.toNat_ofNat_of_lt' (lt_of_wordAt hn)
        refine congrArg (fun i ↦ Except.ok (i, next)) ?_
        exact congrArg _ hword.symm
  | _ => rfl

/-! ### Code that nobody wrote -/

namespace Code

variable {code : Array UInt8} {offset next : Nat}

theorem byteAt_eq_ok {b : UInt8} (h : byteAt code offset = .ok (b, next)) :
    next = offset + 1 ∧ next ≤ code.size := by
  rw [byteAt] at h
  split at h
  · obtain ⟨-, rfl⟩ := Prod.mk.inj (Except.ok.inj h)
    omega
  · cases h

/-- A word that is read ends inside the code. -/
theorem wordAt_eq_ok {n : Nat} (h : wordAt code offset = .ok (n, next)) :
    next = offset + 8 ∧ next ≤ code.size := by
  rw [wordAt] at h
  split at h
  · obtain ⟨-, rfl⟩ := Prod.mk.inj (Except.ok.inj h)
    omega
  · cases h

/-- A text that is read ends inside the code, behind its length and its bytes. -/
theorem textAt_eq_ok {s : String} (h : textAt code offset = .ok (s, next)) :
    next = offset + (8 + s.utf8ByteSize) ∧ next ≤ code.size := by
  rw [textAt] at h
  rcases hlength : wordAt code offset with e | ⟨length, mid⟩ <;> rw [hlength] at h
  · cases h
  obtain ⟨hmid, -⟩ := wordAt_eq_ok hlength
  dsimp only [bind, Except.bind] at h
  split at h
  · next hle =>
    split at h
    · next text htext =>
      obtain ⟨rfl, rfl⟩ := Prod.mk.inj (Except.ok.inj h)
      have hbytes : (code.extract mid (mid + length)).toList = utf8 text :=
        ofUtf8?_eq_some_iff.1 htext
      have hlength := congrArg List.length hbytes
      rw [length_utf8, Array.length_toList, Array.size_extract] at hlength
      omega
    · cases h
  · cases h

/-- The sum of two words, or the largest word if the sum exceeds it. -/
def saturatingAdd (a b : UInt64) : UInt64 :=
  if a + b < a then -1 else a + b

/-- A sum that saturates is the sum or the largest word, whichever is less. -/
theorem toNat_saturatingAdd (a b : UInt64) :
    (saturatingAdd a b).toNat = min (a.toNat + b.toNat) (UInt64.size - 1) := by
  have ha := a.toNat_lt
  have hb := b.toNat_lt
  rw [saturatingAdd]
  split <;> rename_i h <;> rw [UInt64.lt_iff_toNat_lt, UInt64.toNat_add] at h
  · rw [show (-1 : UInt64).toNat = UInt64.size - 1 from rfl, UInt64.size]
    omega
  · rw [UInt64.toNat_add, UInt64.size]
    omega

/-- So many bytes from an offset on, and the offset after them. The end of the bytes is compared
with the size of the code before the offset is moved. -/
def takeAt (code : Array UInt8) (ip n : UInt64) : Except DecodeError (Array UInt8 × UInt64) :=
  let stop := (saturatingAdd ip n).toNat
  if stop ≤ code.size then .ok (code.extract ip.toNat stop, ip + n) else .error .truncated

/-- Bytes are taken exactly if they lie in the code, and then the sum does not wrap around. -/
theorem takeAt_cases (hcode : code.size + 1 < UInt64.size) (ip n : UInt64) :
    (ip.toNat + n.toNat ≤ code.size ∧ (ip + n).toNat = ip.toNat + n.toNat ∧
      takeAt code ip n = .ok (code.extract ip.toNat (ip.toNat + n.toNat), ip + n)) ∨
    (code.size < ip.toNat + n.toNat ∧ takeAt code ip n = .error .truncated) := by
  have hsum := toNat_saturatingAdd ip n
  by_cases hle : ip.toNat + n.toNat ≤ code.size
  · have hstop : (saturatingAdd ip n).toNat = ip.toNat + n.toNat := by omega
    refine .inl ⟨hle, ?_, ?_⟩
    · rw [UInt64.toNat_add, Nat.mod_eq_of_lt (by rw [UInt64.size] at hcode; omega)]
    · rw [takeAt, hstop]
      exact if_pos hle
  · refine .inr ⟨by omega, ?_⟩
    exact if_neg (by omega)

/-- A single byte, and the offset after it. -/
def fetchByte (code : Array UInt8) (ip : UInt64) : Except DecodeError (UInt8 × UInt64) := do
  let (raw, next) ← takeAt code ip 1
  return (.ofNat (ofLeBytes raw.toList), next)

/-- A word, and the offset after it. -/
def fetchWord (code : Array UInt8) (ip : UInt64) : Except DecodeError (UInt64 × UInt64) := do
  let (raw, next) ← takeAt code ip 8
  return (.ofNat (ofLeBytes raw.toList), next)

/-- A text behind the number of its bytes, which may be any word, and the offset after it. -/
def fetchText (code : Array UInt8) (ip : UInt64) : Except DecodeError (String × UInt64) := do
  let (length, next) ← fetchWord code ip
  let (raw, next) ← takeAt code next length
  match ofUtf8? raw with
  | some s => .ok (s, next)
  | none => .error .notText

/-- With words as offsets a byte is read alike. -/
theorem fetchByte_eq (hcode : code.size + 1 < UInt64.size) (ip : UInt64) :
    (fetchByte code ip).map (Prod.map id UInt64.toNat) = byteAt code ip.toNat := by
  have hone : (1 : UInt64).toNat = 1 := rfl
  obtain ⟨hle, hnext, htake⟩ | ⟨hlt, htake⟩ := takeAt_cases hcode ip 1
  · rw [hone] at hle hnext htake
    rw [fetchByte, htake, byteAt, if_pos hle]
    dsimp only [bind, Except.bind, pure, Except.pure, Except.map, Prod.map]
    rw [← leAt_eq_ofLeBytes hle, hnext]
    simp [leAt]
  · rw [hone] at hlt
    rw [fetchByte, htake, byteAt, if_neg (by omega)]
    rfl

/-- With words as offsets a word is read alike. -/
theorem fetchWord_eq (hcode : code.size + 1 < UInt64.size) (ip : UInt64) :
    (fetchWord code ip).map (Prod.map UInt64.toNat UInt64.toNat) = wordAt code ip.toNat := by
  have height : (8 : UInt64).toNat = 8 := rfl
  obtain ⟨hle, hnext, htake⟩ | ⟨hlt, htake⟩ := takeAt_cases hcode ip 8
  · rw [height] at hle hnext htake
    have hword : wordAt code ip.toNat = .ok (leAt code ip.toNat 8, ip.toNat + 8) := if_pos hle
    have hn := UInt64.toNat_ofNat_of_lt' (lt_of_wordAt hword)
    rw [fetchWord, htake, hword]
    dsimp only [bind, Except.bind, pure, Except.pure, Except.map, Prod.map]
    rw [← leAt_eq_ofLeBytes hle, hn, hnext]
  · rw [height] at hlt
    rw [fetchWord, htake, wordAt, if_neg (by omega)]
    rfl

/-- With words as offsets a text is read alike: **a length that would wrap around is refused** as
one that is too large. -/
theorem fetchText_eq (hcode : code.size + 1 < UInt64.size) (ip : UInt64) :
    (fetchText code ip).map (Prod.map id UInt64.toNat) = textAt code ip.toNat := by
  rw [fetchText, textAt, ← fetchWord_eq hcode]
  rcases fetchWord code ip with e | ⟨length, mid⟩
  · rfl
  dsimp only [bind, Except.bind, Except.map, Prod.map]
  obtain ⟨hle, hnext, htake⟩ | ⟨hlt, htake⟩ := takeAt_cases hcode mid length
  · rw [htake, if_pos hle, ← hnext]
    dsimp only
    rcases ofUtf8? _ with - | s <;> rfl
  · rw [htake, if_neg (by omega)]

end Code

namespace Operand.Shape

variable {code : Array UInt8}

/-- An operand of a shape, and the offset after it, where offsets are words. -/
def fetch (code : Array UInt8) (ip : UInt64) : Shape → Except DecodeError (Operand × UInt64)
  | .byte => (fetchByte code ip).map (Prod.map .byte id)
  | .word => (fetchWord code ip).map (Prod.map .word id)
  | .int => (fetchWord code ip).map (Prod.map (.int ·.toInt64) id)
  | .float => (fetchWord code ip).map (Prod.map (.float <| .ofBits ·) id)
  | .text => (fetchText code ip).map (Prod.map .text id)

/-- **Offsets that are words read what natural numbers read**, whatever the code holds. -/
theorem fetch_eq (hcode : code.size + 1 < UInt64.size) (ip : UInt64) (shape : Shape) :
    (shape.fetch code ip).map (Prod.map id UInt64.toNat) = shape.readAt code ip.toNat := by
  cases shape with
  | byte =>
    rw [fetch, readAt, ← fetchByte_eq hcode]
    rcases fetchByte code ip with e | ⟨b, next⟩ <;> rfl
  | text =>
    rw [fetch, readAt, ← fetchText_eq hcode]
    rcases fetchText code ip with e | ⟨s, next⟩ <;> rfl
  | word | int | float =>
    rw [fetch, readAt, ← fetchWord_eq hcode]
    rcases fetchWord code ip with e | ⟨n, next⟩
    · rfl
    · simp [bind, Except.bind, pure, Except.pure, Except.map]

/-- **What is read lies in the code** and has the size of what it is read as. -/
theorem le_size_of_readAt {shape : Shape} {offset next : Nat} {v : Operand}
    (h : shape.readAt code offset = .ok (v, next)) :
    v.shape = shape ∧ next = offset + v.size ∧ next ≤ code.size := by
  cases shape with
  | byte =>
    rw [readAt] at h
    rcases hb : byteAt code offset with e | ⟨b, stop⟩ <;> rw [hb] at h <;> cases h
    exact ⟨rfl, byteAt_eq_ok hb⟩
  | word | int | float =>
    rw [readAt] at h
    rcases hn : wordAt code offset with e | ⟨n, stop⟩ <;> rw [hn] at h <;> cases h
    exact ⟨rfl, wordAt_eq_ok hn⟩
  | text =>
    rw [readAt] at h
    rcases hs : textAt code offset with e | ⟨s, stop⟩ <;> rw [hs] at h <;> cases h
    exact ⟨rfl, textAt_eq_ok hs⟩

end Operand.Shape

/-- Where operands cannot be read the machine stops, at the operation and as it was before it. -/
theorem Machine.step_of_readAll_eq_error {m : Machine} {s : State} {op : Opcode} {e : DecodeError}
    (hop : m.code[s.ip]? = some op.byte)
    (hread : Operand.readAll m.code op.shapes (s.ip + 1) = .error e) :
    m.step s = .failed ⟨.malformed (.decode e), s.ip⟩ s := by
  have hspells : Spells m.code s.ip [op.byte] := by
    intro k hk
    obtain rfl := Nat.lt_one_iff.1 hk
    exact hop
  have hdecode : Instr.decode m.code s.ip = .error e := by
    rw [Instr.decode, byteAt_of_spells hspells]
    dsimp only [bind, Except.bind]
    rw [Opcode.ofByte?_byte]
    dsimp only
    rw [Instr.decodeOperands_eq, hread]
    rfl
  simp only [step, if_pos hspells.lt_size, hdecode]

/-- **Operands come back as they were added, and no code leads a reader out of it.** Between any
other edits, an operation stands where it was added, and its operands are read back from behind it
up to where the next edit adds. Decoding is this reading. From any offset in any code a reader moves
by the size of what it reads and stays in the code, also if offsets are words and a length is any
word, or it fails; and then the machine stops with malformed code. -/
theorem readAll_made_and_fetch_eq_readAt :
    (∀ (before after : List Edit) (op : Opcode) (vs : List Operand), (∀ v ∈ vs, v.Fits) →
      let line := Edit.op op :: vs.map Operand.edit
      let code := (Buffer.made (before ++ line ++ after)).bytes
      let start := (Buffer.made before).size
      code[start]? = some op.byte ∧
      Operand.readAll code (vs.map Operand.shape) (start + 1) =
        .ok (vs, (Buffer.made (before ++ line)).size)) ∧
    (∀ (code : Array UInt8) (offset : Nat) (op : Opcode),
      Instr.decodeOperands code offset op = do
        let r ← Operand.readAll code op.shapes offset
        return (← Instr.ofOperands op r.1, r.2)) ∧
    (∀ (code : Array UInt8) (ip : UInt64) (shape : Operand.Shape),
      code.size + 1 < UInt64.size → ip.toNat ≤ code.size →
      (∃ v next, shape.fetch code ip = .ok (v, next) ∧
        shape.readAt code ip.toNat = .ok (v, next.toNat) ∧ v.shape = shape ∧
        next.toNat = ip.toNat + v.size ∧ next.toNat ≤ code.size) ∨
      (∃ e, shape.fetch code ip = .error e ∧ shape.readAt code ip.toNat = .error e)) ∧
    ∀ (m : Machine) (s : State) (op : Opcode) (e : DecodeError),
      m.code[s.ip]? = some op.byte → Operand.readAll m.code op.shapes (s.ip + 1) = .error e →
      m.step s = .failed ⟨.malformed (.decode e), s.ip⟩ s := by
  refine ⟨fun before after op vs hvs ↦ ⟨?_, Buffer.readAll_made before after op hvs⟩,
    Instr.decodeOperands_eq, fun code ip shape hcode _ ↦ ?_,
    fun m s op e ↦ Machine.step_of_readAll_eq_error⟩
  · exact (Buffer.spells_operands before after op vs).head
  · have hread := Operand.Shape.fetch_eq hcode ip shape
    rcases hfetch : shape.fetch code ip with e | ⟨v, next⟩ <;> rw [hfetch] at hread
    · exact .inr ⟨e, rfl, hread.symm⟩
    · exact .inl ⟨v, next, rfl, hread.symm, Operand.Shape.le_size_of_readAt hread.symm⟩

/-- A call behind a jump over it, when the jump is resolved. -/
theorem readAll_made_jumpOverCall :
    let before := [.newLabel, .jump .jump ⟨0⟩]
    let line := [.op .call, .text "é", .word 2]
    Operand.readAll (Buffer.made (before ++ line ++ [.bind ⟨0⟩, .resolve])).bytes [.text, .word]
        ((Buffer.made before).size + 1) =
      .ok ([.text "é", .word 2], (Buffer.made (before ++ line)).size) := by
  have hfits : ∀ v ∈ [Operand.text "é", .word 2], v.Fits := by
    intro v hv
    rcases List.mem_pair.1 hv with rfl | rfl
    · exact (by decide : "é".utf8ByteSize < UInt64.size)
    · trivial
  exact (readAll_made_and_fetch_eq_readAt.1 _ [.bind ⟨0⟩, .resolve] .call _ hfits).2

end Scriptlet
