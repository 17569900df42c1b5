import Scriptlet.Proofs.Token.Separators

/-!
# Integers in decimal

An integer is written as its digits, behind a minus sign where it is negative. The sign is a token
of its own, so the digits have to fit by themselves: **the least integer cannot be written**, since
its digits are one more than the greatest.
-/

namespace Scriptlet

/-- The kinds of an integer in decimal. -/
def signedKinds (n : Int64) : List Kind :=
  if n.toInt < 0 then [.symbol .minus, .int (-n)] else [.int n]

/-- What is scanned where an integer in decimal stands before the rest. -/
def Scan.withSigned (n : Int64) (r : Except ScanCause (List Kind)) : Except ScanCause (List Kind) :=
  if n = Int64.minValue then .error (.invalidNumber "9223372036854775808")
  else r.map (signedKinds n ++ ·)

namespace Scan

variable {rest : List Char} {r : Except ScanCause (List Kind)}

/-! ### Digits -/

/-- No number goes on here. -/
def EndsNumber (rest : List Char) : Prop :=
  ∀ d ∈ rest.head?, d.isDigit = false ∧ d ≠ '.'

theorem endsNumber_cons {c : Char} (hdigit : c.isDigit = false) (hpoint : c ≠ '.') :
    EndsNumber (c :: rest) := by
  rintro _ ⟨⟩
  exact ⟨hdigit, hpoint⟩

/-- The digits of a number are a token if the number fits, and are refused otherwise. -/
theorem exists_lexeme_toDigits (n : Nat) (hrest : EndsNumber rest) :
    ∃ c cs, Nat.toDigits 10 n = c :: cs ∧ Clear (c :: (cs ++ rest)) ∧
      lexeme c (cs ++ rest) =
        if (n : Int) ≤ Int64.maxValue.toInt then .ok ⟨.int (.ofNat n), c :: cs, rest⟩
        else .error ⟨.invalidNumber n.repr, c :: cs⟩ := by
  have hdigits : ∀ d ∈ Nat.toDigits 10 n, d.isDigit :=
    fun d hd ↦ Nat.isDigit_of_mem_toDigits (by decide) (by decide) hd
  have hvalue : Decimal.digitsValue (Nat.toDigits 10 n) = n :=
    Nat.ofDigitChars_toDigits (by decide) (by decide)
  have hrepr : n.repr = String.ofList (Nat.toDigits 10 n) := rfl
  obtain ⟨c, cs, hcs⟩ := List.exists_cons_of_ne_nil (@Nat.toDigits_ne_nil n 10)
  rw [hcs] at hdigits hvalue hrepr
  obtain ⟨hc, hdigits⟩ := List.forall_mem_cons.1 hdigits
  refine ⟨c, cs, hcs, ⟨Bool.eq_false_iff.2 fun hspace ↦ ?_, ?_⟩, ?_⟩
  · exact absurd hc (Bool.eq_false_iff.1 (isDigit_of_isSpace hspace))
  · rintro rfl
    exact absurd hc (by decide)
  · rw [lexeme_digit hc, number_whole hdigits (fun d hd ↦ (hrest d hd).1)
      (places?_eq_none fun d hd ↦ (hrest d hd).2), hvalue, hrepr]

/-- Decimal digits are read as the number they stand for, if an integer can hold it. -/
theorem Yields.toDigits {n : Nat} (hn : (n : Int) ≤ Int64.maxValue.toInt) (hrest : EndsNumber rest)
    (h : Yields rest r) : Yields (Nat.toDigits 10 n ++ rest) (r.map (.int (.ofNat n) :: ·)) := by
  obtain ⟨c, cs, hcs, hclear, hlexeme⟩ := exists_lexeme_toDigits n hrest
  rw [if_pos hn] at hlexeme
  rw [hcs]
  exact .token hclear hlexeme h

/-- They are refused if none can. -/
theorem yields_toDigits_eq_error {n : Nat} (hn : ¬ (n : Int) ≤ Int64.maxValue.toInt)
    (hrest : EndsNumber rest) :
    Yields (Nat.toDigits 10 n ++ rest) (.error (.invalidNumber n.repr)) := by
  obtain ⟨c, cs, hcs, hclear, hlexeme⟩ := exists_lexeme_toDigits n hrest
  rw [if_neg hn] at hlexeme
  rw [hcs]
  exact .refused hclear hlexeme

/-! ### Signs -/

/-- A minus is a symbol of its own. -/
theorem Yields.minus (h : Yields rest r) : Yields ('-' :: rest) (r.map (.symbol .minus :: ·)) := by
  have hclear : Clear ('-' :: rest) := ⟨rfl, fun hc ↦ absurd hc (by decide)⟩
  have hlexeme : lexeme '-' rest = .ok ⟨.symbol .minus, ['-'], rest⟩ := by
    cases rest <;> rfl
  exact .token hclear hlexeme h

/-- An integer is written as its digits, behind a minus if it is negative. -/
theorem toList_toString (n : Int64) :
    (toString n).toList = if n.toInt < 0 then '-' :: Nat.toDigits 10 n.toInt.natAbs
      else Nat.toDigits 10 n.toInt.natAbs := by
  show n.toInt.repr.toList = _
  cases n.toInt with
  | ofNat k =>
    have hnonneg : ¬ Int.ofNat k < 0 := Int.not_lt.2 (Int.natCast_nonneg k)
    rw [if_neg hnonneg]
    exact String.toList_ofList
  | negSucc k =>
    rw [if_pos (Int.negSucc_lt_zero k), Int.repr, String.toList_append]
    exact congrArg ('-' :: ·) String.toList_ofList

/-- An integer other than the least one has a magnitude that fits. -/
theorem natAbs_le_of_ne_minValue {n : Int64} (hn : n ≠ Int64.minValue) :
    (n.toInt.natAbs : Int) ≤ Int64.maxValue.toInt := by
  have hne : n.toInt ≠ Int64.minValue.toInt := fun h ↦ hn (Int64.toInt_inj.1 h)
  have hle := n.minValue_le_toInt
  have hge := n.toInt_le
  have hmin : Int64.minValue.toInt = -9223372036854775808 := by decide
  have hmax : Int64.maxValue.toInt = 9223372036854775807 := by decide
  omega

/-- **An integer other than the least one is read back**, the sign by itself. The least one is
refused for its digits. -/
theorem Yields.signed (h : Yields rest r) (n : Int64) (hrest : EndsNumber rest) :
    Yields ((toString n).toList ++ rest) (withSigned n r) := by
  rw [withSigned]
  by_cases hn : n = Int64.minValue
  · rw [if_pos hn, hn]
    exact (yields_toDigits_eq_error (n := 9223372036854775808) (by decide) hrest).minus
  have hdigits := h.toDigits (natAbs_le_of_ne_minValue hn) hrest
  rw [if_neg hn, toList_toString, signedKinds]
  by_cases hneg : n.toInt < 0
  · have hmagnitude : Int64.ofNat n.toInt.natAbs = -n := by
      rw [← Int64.ofInt_eq_ofNat, Int.ofNat_natAbs_of_nonpos (Int.le_of_lt hneg), Int64.ofInt_neg,
        Int64.ofInt_toInt]
    rw [if_pos hneg, if_pos hneg, ← hmagnitude]
    have hminus := hdigits.minus
    cases r <;> exact hminus
  · have hmagnitude : Int64.ofNat n.toInt.natAbs = n := by
      rw [← Int64.ofInt_eq_ofNat, Int.natAbs_of_nonneg (Int.not_lt.1 hneg), Int64.ofInt_toInt]
    rw [hmagnitude] at hdigits
    rw [if_neg hneg, if_neg hneg]
    exact hdigits

end Scan

end Scriptlet
