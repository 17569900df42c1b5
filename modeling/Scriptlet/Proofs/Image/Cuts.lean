import Scriptlet.Proofs.Image.Format

/-!
# Images are not cut short or continued

Nothing in an image says where it ends, other than the lengths and counts in it. They are enough:
bytes behind an image are counted as trailing, and **no proper part from the front of an image is an
image**, wherever it is cut off.

A reader that meets the end of bytes that were cut off says so, and one that does not meet it gives
what it gives for all the bytes (`Image.Load.CutOff`). So no length, text or tag is ever blamed for
a cut, and the fault of a cut image is one of two: the table lies behind the end, or bytes are
missing.
-/

namespace Scriptlet

namespace Image.Load

variable {α β : Type} {size size' : Nat} {front behind : List UInt8}

/-! ### Readers at the end of the bytes -/

/-- Bytes are asked for from an offset on that lie in part behind the end. -/
def Missing (size : Nat) (e : FormatError) : Prop :=
  ∃ offset needed, e = .truncated offset needed ∧ offset ≤ size ∧ size < offset + needed

/-- What a reader gives for bytes that are cut off, where it gives `r` for all of them: the same
with the rest cut off, or that bytes are missing. -/
def CutOff (size : Nat) (behind : List UInt8) (r : α × List UInt8) :
    Except FormatError (α × List UInt8) → Prop
  | .ok (a, rest) => r = (a, rest ++ behind)
  | .error e => Missing size e

/-- The reader gives for bytes that are cut off what it should. -/
def Cuts (read : Nat → List UInt8 → Except FormatError (α × List UInt8)) : Prop :=
  ∀ ⦃size size' front behind r⦄, read size (front ++ behind) = .ok r →
    CutOff size' behind r (read size' front)

/-- With more to do behind a reader. -/
theorem CutOff.bind_elim {P : Except FormatError β → Prop} {q : α × List UInt8}
    {y : Except FormatError (α × List UInt8)} {next : α × List UInt8 → Except FormatError β}
    (hy : CutOff size behind q y) (hmissing : ∀ e, Missing size e → P (.error e))
    (hnext : ∀ a rest, q = (a, rest ++ behind) → P (next (a, rest))) : P (y >>= next) := by
  rcases y with e | ⟨a, rest⟩
  · exact hmissing e hy
  · exact hnext a rest hy

/-- Readers in a row. The second one may know what was left before the first one, and with that
where the bytes end. -/
theorem CutOff.bind {x y : Except FormatError (α × List UInt8)} {r : β × List UInt8}
    {next next' : α × List UInt8 → Except FormatError (β × List UInt8)} (h : (x >>= next) = .ok r)
    (hy : ∀ ⦃q⦄, x = .ok q → CutOff size behind q y)
    (hnext : ∀ a rest, next (a, rest ++ behind) = .ok r → CutOff size behind r (next' (a, rest))) :
    CutOff size behind r (y >>= next') := by
  obtain ⟨q, hx, hq⟩ := Load.bind_eq_ok.1 h
  refine (hy hx).bind_elim (P := CutOff size behind r) (fun e he ↦ he) fun a rest heq ↦ ?_
  exact hnext a rest (heq ▸ hq)

/-- Bytes cannot be taken just if there are too few. -/
theorem split?_eq_none_iff {n : Nat} {bs : List UInt8} : split? n bs = none ↔ bs.length < n := by
  induction n, bs using split?.induct with
  | case1 bs => simp [split?]
  | case2 n => simp [split?]
  | case3 n b bs ih => simp [split?, ih]

/-- To take bytes fails, if bytes are cut off, at the offset from which they are asked for. -/
theorem cuts_bytes (n : Nat) : Cuts fun size ↦ bytes size n := by
  intro size size' front behind r h
  obtain ⟨w, rest⟩ := r
  dsimp only at h ⊢
  rcases hsplit : split? n front with - | ⟨w', rest'⟩
  · have hlt := split?_eq_none_iff.1 hsplit
    rw [bytes, hsplit]
    exact ⟨_, _, rfl, Nat.sub_le _ _, by omega⟩
  · -- All the bytes have the same beginning, and a reader finds only one there.
    obtain ⟨hlen, rfl⟩ := split?_eq_some_iff.1 hsplit
    have hread : bytes size n (w' ++ rest' ++ behind) = .ok (w', rest' ++ behind) :=
      (reads_bytes n _ _ _).2 ⟨w', ⟨hlen, rfl⟩, List.append_assoc ..⟩
    rw [bytes, hsplit]
    exact Except.ok.inj (h.symm.trans hread)

theorem cuts_byte : Cuts byte := by
  intro size size' front behind r h
  cases front with
  | nil => exact ⟨_, _, rfl, Nat.le_refl _, Nat.lt_succ_self _⟩
  | cons b bs => exact (Except.ok.inj h).symm

theorem cuts_word : Cuts word := by
  intro size size' front behind r h
  refine .bind h (fun _ hx ↦ cuts_bytes 8 hx) fun w rest h ↦ ?_
  exact (Except.ok.inj h).symm

/-- A text may miss its length or its bytes. -/
theorem cuts_text : Cuts text := by
  intro size size' front behind r h
  refine .bind h (fun _ hx ↦ cuts_word hx) fun length bs h ↦ ?_
  refine .bind h (fun _ hx ↦ cuts_bytes length hx) fun raw rest h ↦ ?_
  -- The bytes of the text are all there, so they are a text just if they are one in full.
  dsimp only at h ⊢
  cases hs : Code.ofUtf8? raw.toArray with
  | none => rw [hs] at h; cases h
  | some s => rw [hs] at h; exact (Except.ok.inj h).symm

/-- Of some texts, the first that misses bytes is the fault. -/
theorem cuts_texts (count : Nat) : Cuts fun size ↦ texts size count := by
  induction count with
  | zero =>
    intro size size' front behind r h
    exact (Except.ok.inj h).symm
  | succ count ih =>
    intro size size' front behind r h
    refine .bind h (fun _ hx ↦ cuts_text hx) fun s bs h ↦ ?_
    refine .bind h (fun _ hx ↦ ih hx) fun ss bs h ↦ ?_
    exact (Except.ok.inj h).symm

/-- Of an entry of the table, the first part that misses bytes is the fault. -/
theorem cuts_function : Cuts function := by
  intro size size' front behind r h
  refine .bind h (fun _ hx ↦ cuts_text hx) fun name bs h ↦ ?_
  refine .bind h (fun _ hx ↦ cuts_word hx) fun entry bs h ↦ ?_
  refine .bind h (fun _ hx ↦ cuts_byte hx) fun isVoid bs h ↦ ?_
  refine .bind h (fun _ hx ↦ cuts_byte hx) fun isTyped bs h ↦ ?_
  refine .bind h (fun _ hx ↦ cuts_byte hx) fun tag rest h ↦ ?_
  dsimp only at h ⊢
  cases htype : Tag.ofByte? tag with
  | none => rw [htype] at h; cases h
  | some type =>
    rw [htype] at h
    refine .bind h (fun _ hx ↦ cuts_word hx) fun count bs h ↦ ?_
    refine .bind h (fun _ hx ↦ cuts_texts count hx) fun params bs h ↦ ?_
    exact (Except.ok.inj h).symm

/-- The entries before a cut pass the checks that they pass in full. -/
theorem cuts_functions (tableOffset count : Nat) (taken : List String) :
    Cuts fun size ↦ functions size tableOffset count taken := by
  induction count generalizing taken with
  | zero =>
    intro size size' front behind r h
    exact (Except.ok.inj h).symm
  | succ count ih =>
    intro size size' front behind r h
    refine .bind h (fun _ hx ↦ cuts_function hx) fun f bs h ↦ ?_
    dsimp only at h ⊢
    obtain ⟨hentry, h⟩ := check_eq_ok.1 h
    obtain ⟨hname, h⟩ := check_eq_ok.1 h
    rw [if_neg hentry, if_neg hname]
    refine .bind h (fun _ hx ↦ ih _ hx) fun fs bs h ↦ ?_
    exact (Except.ok.inj h).symm

theorem bind_of_eq_ok {x : Except FormatError α} {next : α → Except FormatError β} {a : α}
    (h : x = .ok a) : (x >>= next) = next a := by
  rw [h]
  rfl

/-- A reader leaves alone what stands behind the bytes that it reads. -/
theorem Reads.append {read read' : List UInt8 → Except FormatError (α × List UInt8)}
    {written : α → List UInt8 → Prop} (h : Reads read written) (h' : Reads read' written)
    {bs rest : List UInt8} {a : α} (hread : read bs = .ok (a, rest)) (extra : List UInt8) :
    read' (bs ++ extra) = .ok (a, rest ++ extra) := by
  obtain ⟨front, hwritten, rfl⟩ := (h bs a rest).1 hread
  exact (h' _ a _).2 ⟨front, hwritten, List.append_assoc ..⟩

end Image.Load

/-! ### Whole images -/

namespace Image

open Load

variable {bytes : Array UInt8} {image : Image}

/-- What the loader has read of bytes that it accepts. -/
theorem exists_parts_of_load (h : Image.load bytes = .ok image) :
    ∃ rest count rest₁ rest₂ rest₃,
      Load.bytes bytes.size 8 bytes.toList = .ok (magic, rest) ∧
      word bytes.size rest = .ok (image.tableOffset, rest₁) ∧
      word bytes.size rest₁ = .ok (count, rest₂) ∧
      word bytes.size rest₂ = .ok (image.mainEntry, rest₃) ∧
      headerSize ≤ image.tableOffset ∧ image.tableOffset ≤ bytes.size ∧
      inCode image.tableOffset image.mainEntry = true ∧
      Load.functions bytes.size image.tableOffset count [] (bytes.toList.drop image.tableOffset) =
        .ok (image.functions, []) := by
  simp only [Image.load, Load.bind_eq_ok, check_eq_ok] at h
  obtain ⟨⟨opening, rest⟩, hopening, hmagic, ⟨tableOffset, rest₁⟩, htable, ⟨count, rest₂⟩, hcount,
    ⟨mainEntry, rest₃⟩, hmain, hinside, hentry, ⟨fs, left⟩, hfunctions, h⟩ := h
  obtain rfl : opening = magic := by simpa using hmagic
  cases left with
  | cons b left => cases h
  | nil =>
    cases h
    have hinside : headerSize ≤ tableOffset ∧ tableOffset ≤ bytes.size := by simpa using hinside
    exact ⟨rest, count, rest₁, rest₂, rest₃, hopening, htable, hcount, hmain, hinside.1, hinside.2,
      by simpa using hentry, hfunctions⟩

/-- Bytes are refused for one of the faults of a cut: the table lies behind the end, or bytes are
missing. -/
def RefusedAsCut (size tableOffset : Nat) (r : Except FormatError Image) : Prop :=
  ∃ e, r = .error e ∧ (e = .badTableOffset tableOffset ∧ size < tableOffset ∨ Missing size e)

/-- **An image that is cut off is none.** -/
theorem refusedAsCut_load_take (h : Image.load bytes = .ok image) {n : Nat} (hn : n < bytes.size) :
    RefusedAsCut n image.tableOffset (Image.load (bytes.take n)) := by
  obtain ⟨rest, count, rest₁, rest₂, rest₃, hopening, htable, hcount, hmain, hheader, -, hentry,
    hfunctions⟩ := exists_parts_of_load h
  have hsize : (bytes.take n).size = n := by
    rw [Array.take_eq_extract, Array.size_extract, Nat.sub_zero, Nat.min_eq_left (Nat.le_of_lt hn)]
  have hlist : (bytes.take n).toList = bytes.toList.take n := by
    simp
  have hmissing (e : FormatError) (he : Missing n e) :
      RefusedAsCut n image.tableOffset (.error e) :=
    ⟨e, rfl, .inr he⟩
  rw [← List.take_append_drop n bytes.toList] at hopening hfunctions
  rw [Image.load, hsize, hlist]
  -- The header is read as in full, or the cut is in it.
  refine (cuts_bytes 8 hopening).bind_elim hmissing fun _ bs heq ↦ ?_
  obtain ⟨rfl, rfl⟩ := Prod.mk.inj heq
  dsimp only
  rw [if_neg (by simp)]
  refine (cuts_word htable).bind_elim hmissing fun _ bs heq ↦ ?_
  obtain ⟨rfl, rfl⟩ := Prod.mk.inj heq
  refine (cuts_word hcount).bind_elim hmissing fun _ bs heq ↦ ?_
  obtain ⟨rfl, rfl⟩ := Prod.mk.inj heq
  refine (cuts_word hmain).bind_elim hmissing fun _ bs heq ↦ ?_
  obtain ⟨rfl, rfl⟩ := Prod.mk.inj heq
  dsimp only
  by_cases hcut : n < image.tableOffset
  · refine ⟨_, if_pos ?_, .inl ⟨rfl, hcut⟩⟩
    simp [hcut]
  · -- The table is read as in full up to its end, and that is behind the cut.
    rw [if_neg (by simpa [hheader] using hcut), if_neg (by simp [hentry])]
    have hlength : image.tableOffset ≤ (bytes.toList.take n).length := by
      rw [← hlist, Array.length_toList, hsize]
      exact Nat.le_of_not_lt hcut
    rw [List.drop_append_of_le_length hlength] at hfunctions
    refine (cuts_functions _ _ _ hfunctions).bind_elim hmissing fun fs bs heq ↦ ?_
    have hnil := (List.append_eq_nil_iff.1 (Prod.mk.inj heq).2.symm).2
    rw [List.drop_eq_nil_iff, Array.length_toList] at hnil
    exact absurd hn (Nat.not_lt_of_le hnil)

/-- **Bytes behind an image are trailing bytes.** -/
theorem load_append_eq_error (h : Image.load bytes = .ok image) {extra : Array UInt8}
    (hextra : extra ≠ #[]) : Image.load (bytes ++ extra) = .error (.trailingBytes extra.size) := by
  obtain ⟨rest, count, rest₁, rest₂, rest₃, hopening, htable, hcount, hmain, hheader, hle, hentry,
    hfunctions⟩ := exists_parts_of_load h
  rw [Image.load, Array.toList_append]
  dsimp only
  rw [bind_of_eq_ok ((reads_bytes 8).append (reads_bytes 8) hopening _)]
  dsimp only
  rw [if_neg (by simp), bind_of_eq_ok (reads_word.append reads_word htable _)]
  dsimp only
  rw [bind_of_eq_ok (reads_word.append reads_word hcount _)]
  dsimp only
  rw [bind_of_eq_ok (reads_word.append reads_word hmain _)]
  dsimp only
  have hinside : ¬(!(decide (headerSize ≤ image.tableOffset) &&
      decide (image.tableOffset ≤ (bytes ++ extra).size))) = true := by
    simp [hheader, Nat.le_add_right_of_le hle]
  rw [if_neg hinside, if_neg (by simp [hentry]),
    List.drop_append_of_le_length (by simpa using hle),
    bind_of_eq_ok ((reads_functions _ _ _).append (reads_functions _ _ _) hfunctions _)]
  simp [hextra]

/-- **The bytes of an image are exactly its own.** Whatever part is cut off its end, the rest is
refused, and as what it is: a part of an image. Whatever is put behind it is counted as trailing.
So no image begins another one. -/
theorem refusedAsCut_take_and_load_append_of_load (h : Image.load bytes = .ok image) :
    (∀ n < bytes.size, RefusedAsCut n image.tableOffset (Image.load (bytes.take n))) ∧
      (∀ extra : Array UInt8, extra ≠ #[] →
        Image.load (bytes ++ extra) = .error (.trailingBytes extra.size)) ∧
      ∀ bytes' image', Image.load bytes' = .ok image' → bytes.toList <+: bytes'.toList →
        bytes' = bytes := by
  refine ⟨fun n ↦ refusedAsCut_load_take h, fun extra ↦ load_append_eq_error h, ?_⟩
  rintro bytes' image' h' ⟨behind, hbehind⟩
  have heq : bytes' = bytes ++ behind.toArray := by
    rw [← Array.toList_inj, ← hbehind, Array.toList_append]
  by_contra hne
  have hextra : behind.toArray ≠ #[] := by
    intro hnil
    rw [hnil, Array.append_empty] at heq
    exact hne heq
  rw [heq, load_append_eq_error h hextra] at h'
  cases h'

/-- An image with a function that has two parameters, and with flags that are raised by bytes other
than one. -/
def twoParameters : Array UInt8 :=
  (header 33 1 32 ++ [Opcode.halt.byte] ++
    (⟨"f", 33, true, true, .int, ["x", "é"]⟩ : Function).encodeWith 7 255).toArray

theorem refusedAsCut_take_and_load_append_twoParameters :
    ∃ image, Image.load twoParameters = .ok image ∧ twoParameters.size = 80 ∧
      (∀ n < twoParameters.size,
        RefusedAsCut n image.tableOffset (Image.load (twoParameters.take n))) ∧
      (∀ extra : Array UInt8, extra ≠ #[] →
        Image.load (twoParameters ++ extra) = .error (.trailingBytes extra.size)) ∧
      ∀ bytes' image', Image.load bytes' = .ok image' →
        twoParameters.toList <+: bytes'.toList → bytes' = twoParameters := by
  have h : Image.load twoParameters =
      .ok ⟨twoParameters, 33, 32, [⟨"f", 33, true, true, .int, ["x", "é"]⟩]⟩ := by
    decide +kernel
  exact ⟨_, h, by decide +kernel, refusedAsCut_take_and_load_append_of_load h⟩

end Image

end Scriptlet
