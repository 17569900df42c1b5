import Mathlib.Data.List.Basic
import Scriptlet.Value.Operators

/-!
# Items and stretches

A list has items and a string has characters. `stretch` is what stands between two places of
either, with no bounds to check; `index` and `slice` check them first, and then give a stretch
(`slice_eq`, `exists_index_eq`). The laws that tie `index`, `slice` and `add` together are laws of
stretches, so each is shown once for both kinds of container.

A bound is a signed integer and a length is a number: the two are compared as integers, whatever the
length. Where a law speaks of the place behind the last item, or of the next place, it does so for
the integer that names that place, if there is one.
-/

namespace Scriptlet.Value

/-- The number of items of a list, or of characters of a string. -/
def length? : Value → Option Nat
  | list items => some items.length
  | str s => some s.toList.length
  | _ => none

/-- What stands from one place of a container up to another. -/
def stretch : Value → (i j : Nat) → Value
  | list items, i, j => list ((items.drop i).take (j - i))
  | str s, i, j => str (String.ofList ((s.toList.drop i).take (j - i)))
  | v, _, _ => v

/-- One item by itself, as a container of the same kind: a list of one, or the character. -/
def enclose : Value → Value → Value
  | list _, v => list [v]
  | _, v => v

variable {c : Value} {n : Nat} {i j k : Int64}

/-! ### Bounds -/

/-- Two bounds name a stretch of a container of this length. -/
def InBounds (i j : Int64) (n : Nat) : Prop :=
  0 ≤ i.toInt ∧ i.toInt ≤ j.toInt ∧ j.toInt ≤ n

/-- Two bounds in order and inside the container are places. -/
theorem places_eq_ok (h : InBounds i j n) :
    places (int i) (int j) n = .ok (i.toInt.toNat, j.toInt.toNat) := by
  obtain ⟨hi, hij, hj⟩ := h
  show (if _ then _ else if _ then _ else _) = _
  rw [if_neg (by omega), if_neg (by omega)]

/-- The first bound is blamed if it lies outside by itself, and else the second one. -/
theorem places_eq_error (h : ¬InBounds i j n) :
    places (int i) (int j) n =
      .error (.index (if i.toInt < 0 ∨ n < i.toInt then i else j) n) := by
  show (if _ then _ else if _ then _ else _) = _
  by_cases hi : i.toInt < 0 ∨ n < i.toInt
  · rw [if_pos hi, if_pos hi]
  · rw [if_neg hi, if_neg hi, if_pos]
    rw [InBounds] at h
    omega

/-- An index inside the container is a place. -/
theorem place_eq_ok (h : 0 ≤ i.toInt ∧ i.toInt < n) : place (int i) n = .ok i.toInt.toNat := by
  show (if _ then _ else _) = _
  rw [if_neg (by omega)]

/-- Any other index is refused, with the length. -/
theorem place_eq_error (h : ¬(0 ≤ i.toInt ∧ i.toInt < n)) :
    place (int i) n = .error (.index i n) := by
  show (if _ then _ else _) = _
  rw [if_pos (by omega)]

/-! ### Operations as stretches -/

/-- Strings and lists are cut alike. -/
theorem slice_eq_map (hc : c.length? = some n) (v w : Value) :
    c.slice v w = (places v w n).map fun p ↦ c.stretch p.1 p.2 := by
  cases c with
  | list items =>
    cases hc
    rw [slice]
    rcases places v w items.length with e | ⟨i, j⟩ <;> rfl
  | str s =>
    cases hc
    rw [slice]
    rcases places v w s.toList.length with e | ⟨i, j⟩ <;> rfl
  | _ => cases hc

/-- **A stretch within bounds.** -/
theorem slice_eq (hc : c.length? = some n) (h : InBounds i j n) :
    c.slice (int i) (int j) = .ok (c.stretch i.toInt.toNat j.toInt.toNat) := by
  rw [slice_eq_map hc, places_eq_ok h]
  rfl

/-- **A stretch out of bounds** is refused with the bound that is to blame. -/
theorem slice_eq_error (hc : c.length? = some n) (h : ¬InBounds i j n) :
    c.slice (int i) (int j) =
      .error (.index (if i.toInt < 0 ∨ n < i.toInt then i else j) n) := by
  rw [slice_eq_map hc, places_eq_error h]
  rfl

/-- A stretch is there just if its bounds are. -/
theorem slice_eq_ok_iff (hc : c.length? = some n) :
    (∃ v, c.slice (int i) (int j) = .ok v) ↔ InBounds i j n := by
  constructor
  · rintro ⟨v, hv⟩
    by_contra h
    rw [slice_eq_error hc h] at hv
    cases hv
  · exact fun h ↦ ⟨_, slice_eq hc h⟩

/-- **An item within bounds** by itself is the stretch that holds nothing else. -/
theorem exists_index_eq (hc : c.length? = some n) (h : 0 ≤ i.toInt ∧ i.toInt < n) :
    ∃ v, c.index (int i) = .ok v ∧
      c.stretch i.toInt.toNat (i.toInt.toNat + 1) = c.enclose v := by
  have hlt : i.toInt.toNat < n := by omega
  cases c with
  | list items =>
    cases hc
    refine ⟨items.getD i.toInt.toNat null, ?_, ?_⟩
    · rw [index, place_eq_ok h]
      rfl
    · rw [stretch, enclose, Nat.add_sub_cancel_left, List.drop_eq_getElem_cons hlt,
        List.take_succ_cons, List.take_zero, List.getD_eq_getElem?_getD,
        List.getElem?_eq_getElem hlt, Option.getD_some]
  | str s =>
    cases hc
    refine ⟨str (String.ofList ((s.toList.drop i.toInt.toNat).take 1)), ?_, ?_⟩
    · rw [index, place_eq_ok h]
      rfl
    · rw [stretch, Nat.add_sub_cancel_left]
      rfl
  | _ => cases hc

theorem index_eq_error (hc : c.length? = some n) (h : ¬(0 ≤ i.toInt ∧ i.toInt < n)) :
    c.index (int i) = .error (.index i n) := by
  cases c with
  | list items =>
    cases hc
    rw [index, place_eq_error h]
    rfl
  | str s =>
    cases hc
    rw [index, place_eq_error h]
    rfl
  | _ => cases hc

/-- An item is there just if its index is. -/
theorem index_eq_ok_iff (hc : c.length? = some n) :
    (∃ v, c.index (int i) = .ok v) ↔ 0 ≤ i.toInt ∧ i.toInt < n := by
  constructor
  · rintro ⟨v, hv⟩
    by_contra h
    rw [index_eq_error hc h] at hv
    cases hv
  · intro h
    obtain ⟨v, hv, -⟩ := exists_index_eq hc h
    exact ⟨v, hv⟩

/-! ### Laws of stretches -/

/-- From the first place to the one behind the last there is everything. -/
theorem stretch_zero (hc : c.length? = some n) : c.stretch 0 n = c := by
  cases c with
  | list items =>
    cases hc
    rw [stretch, List.drop_zero, Nat.sub_zero, List.take_length]
  | str s =>
    cases hc
    rw [stretch, List.drop_zero, Nat.sub_zero, List.take_length, String.ofList_toList]
  | _ => cases hc

theorem take_drop_append {α : Type} (xs : List α) {i j k : Nat} (hij : i ≤ j) (hjk : j ≤ k) :
    (xs.drop i).take (j - i) ++ (xs.drop j).take (k - j) = (xs.drop i).take (k - i) := by
  have hk : k - i = (j - i) + (k - j) := by omega
  have hj : xs.drop j = (xs.drop i).drop (j - i) := by
    rw [List.drop_drop, Nat.add_sub_cancel' hij]
  rw [hk, hj, List.take_add]

/-- Two stretches that meet join to one. -/
theorem add_stretch (hc : c.length? = some n) {i j k : Nat} (hij : i ≤ j) (hjk : j ≤ k) :
    (c.stretch i j).add (c.stretch j k) = .ok (c.stretch i k) := by
  cases c with
  | list items => rw [stretch, stretch, stretch, add, take_drop_append items hij hjk]
  | str s =>
    rw [stretch, stretch, stretch, add, text, ← String.ofList_append,
      take_drop_append s.toList hij hjk]
  | _ => cases hc

/-- **The laws of stretches.** For a list or a string of `n` items or characters, and any integers
`i`, `j` and `k`: a stretch is there just where `0 ≤ i ≤ j ≤ n`, and an item where `0 ≤ i < n`; from
`0` to `n` the stretch is everything; two stretches that meet join to the one from the start of the
first to the end of the second; a stretch of one item is that item by itself; and what is not there
is refused as an index that is out of range. -/
theorem slice_index_add_laws (hc : c.length? = some n) (i j k : Int64) :
    ((∃ v, c.slice (int i) (int j) = .ok v) ↔ 0 ≤ i.toInt ∧ i.toInt ≤ j.toInt ∧ j.toInt ≤ n) ∧
    ((∃ v, c.index (int i) = .ok v) ↔ 0 ≤ i.toInt ∧ i.toInt < n) ∧
    (j.toInt = n → c.slice (int 0) (int j) = .ok c) ∧
    (0 ≤ i.toInt → i.toInt ≤ j.toInt → j.toInt ≤ k.toInt → k.toInt ≤ n →
      ∃ v w u, c.slice (int i) (int j) = .ok v ∧ c.slice (int j) (int k) = .ok w ∧
        v.add w = .ok u ∧ c.slice (int i) (int k) = .ok u) ∧
    (0 ≤ i.toInt → i.toInt < n → j.toInt = i.toInt + 1 →
      ∃ v, c.index (int i) = .ok v ∧ c.slice (int i) (int j) = .ok (c.enclose v)) ∧
    (∀ e, c.slice (int i) (int j) = .error e → e = .index i n ∨ e = .index j n) ∧
    ∀ e, c.index (int i) = .error e → e = .index i n := by
  refine ⟨slice_eq_ok_iff hc, index_eq_ok_iff hc, fun hj ↦ ?_, fun hi hij hjk hk ↦ ?_,
    fun hi hlt hj ↦ ?_, fun e he ↦ ?_, fun e he ↦ ?_⟩
  · have hzero : (0 : Int64).toInt = 0 := rfl
    rw [slice_eq hc ⟨by omega, by omega, by omega⟩, hzero, hj, Int.toNat_natCast]
    exact congrArg _ (stretch_zero hc)
  · have hjoin := add_stretch hc (Int.toNat_le_toNat hij) (Int.toNat_le_toNat hjk)
    exact ⟨_, _, _, slice_eq hc ⟨hi, hij, Int.le_trans hjk hk⟩,
      slice_eq hc ⟨Int.le_trans hi hij, hjk, hk⟩, hjoin, slice_eq hc ⟨hi, Int.le_trans hij hjk, hk⟩⟩
  · obtain ⟨v, hv, hstretch⟩ := exists_index_eq hc ⟨hi, hlt⟩
    refine ⟨v, hv, ?_⟩
    have hnext : j.toInt.toNat = i.toInt.toNat + 1 := by omega
    rw [slice_eq hc ⟨hi, by omega, by omega⟩, hnext, hstretch]
  · by_cases h : InBounds i j n
    · rw [slice_eq hc h] at he
      cases he
    · rw [slice_eq_error hc h] at he
      cases he
      split
      · exact .inl rfl
      · exact .inr rfl
  · by_cases h : 0 ≤ i.toInt ∧ i.toInt < n
    · obtain ⟨v, hv, -⟩ := exists_index_eq hc h
      rw [hv] at he
      cases he
    · rw [index_eq_error hc h] at he
      cases he
      rfl

/-- In four characters of one to four bytes: everything, two stretches that meet, and the last
character. -/
theorem slice_index_add_laws_fourWidths :
    (str "aß€𝄞").length? = some 4 ∧ (str "aß€𝄞").slice (int 0) (int 4) = .ok (str "aß€𝄞") ∧
    (∃ v w u, (str "aß€𝄞").slice (int 1) (int 3) = .ok v ∧
      (str "aß€𝄞").slice (int 3) (int 4) = .ok w ∧ v.add w = .ok u ∧
        (str "aß€𝄞").slice (int 1) (int 4) = .ok u) ∧
    (∃ v, (str "aß€𝄞").index (int 3) = .ok v ∧
      (str "aß€𝄞").slice (int 3) (int 4) = .ok ((str "aß€𝄞").enclose v)) ∧
    ¬∃ v, (str "aß€𝄞").slice (int 3) (int 2) = .ok v := by
  have hc : (str "aß€𝄞").length? = some 4 := by decide
  refine ⟨hc, ?_, ?_, ?_, ?_⟩
  · exact (slice_index_add_laws hc 0 4 4).2.2.1 (by decide)
  · exact (slice_index_add_laws hc 1 3 4).2.2.2.1 (by decide) (by decide) (by decide) (by decide)
  · exact (slice_index_add_laws hc 3 4 4).2.2.2.2.1 (by decide) (by decide) (by decide)
  · exact fun h ↦ absurd ((slice_index_add_laws hc 3 2 4).1.1 h) (by decide)

end Scriptlet.Value
