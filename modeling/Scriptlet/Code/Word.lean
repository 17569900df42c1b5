/-!
# Words and texts as bytes

Numbers in code and in images are eight bytes, least significant first; a text is the number of its
UTF-8 bytes and then those bytes. Words are written and read by recursion on the number of bytes, so
that one induction carries each fact about them.
-/

namespace Scriptlet.Code

/-- The lowest `k` bytes of a number, least significant first. -/
def leBytes : (k n : Nat) → List UInt8
  | 0, _ => []
  | k + 1, n => UInt8.ofNat n :: leBytes k (n / 256)

/-- The number that some bytes spell, least significant first. -/
def ofLeBytes : List UInt8 → Nat
  | [] => 0
  | b :: bs => b.toNat + 256 * ofLeBytes bs

/-- A number as eight bytes. What exceeds them is dropped. -/
def word (n : Nat) : List UInt8 :=
  leBytes 8 n

/-- The UTF-8 bytes of a text. -/
def utf8 (s : String) : List UInt8 :=
  s.toUTF8.data.toList

/-- A text behind the number of its bytes. -/
def sized (s : String) : List UInt8 :=
  word s.utf8ByteSize ++ utf8 s

/-- The text of some bytes, if they are UTF-8. -/
def ofUtf8? (bytes : Array UInt8) : Option String :=
  String.fromUTF8? ⟨bytes⟩

@[simp]
theorem length_leBytes (k n : Nat) : (leBytes k n).length = k := by
  induction k generalizing n with
  | zero => rfl
  | succ k ih => simp [leBytes, ih]

@[simp]
theorem length_word (n : Nat) : (word n).length = 8 :=
  length_leBytes 8 n

end Scriptlet.Code
