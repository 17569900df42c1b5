import Scriptlet.Proofs.Code.Listing

/-!
# Instructions are written

A buffer has zeros where the targets of jumps will stand. What it has **in the end** is known only
once all labels are bound, so the bytes of a buffer are seen here through a guess `τ` at the offsets
of labels: `Buffer.filled τ`. Seen that way, every instruction and every jump just adds its bytes at
the end, and code that agrees with a buffer agrees with every earlier state of it.
-/

namespace Scriptlet

open Code (Spells)

/-! ### Writing over bytes -/

namespace Buffer

/-- Writing over bytes adds none. -/
@[simp]
theorem size_overwrite (bytes : Array UInt8) (offset : Nat) (xs : List UInt8) :
    (overwrite bytes offset xs).size = bytes.size := by
  induction xs generalizing bytes offset with
  | nil => rfl
  | cons x xs ih => rw [overwrite, ih, Array.size_setIfInBounds]

/-- Behind it, the bytes are the new ones where these were written, and the old ones elsewhere. -/
theorem getElem?_overwrite (bytes : Array UInt8) (offset k : Nat) (xs : List UInt8)
    (h : offset + xs.length ≤ bytes.size) :
    (overwrite bytes offset xs)[k]? =
      if offset ≤ k ∧ k < offset + xs.length then xs[k - offset]? else bytes[k]? := by
  induction xs generalizing bytes offset with
  | nil => rw [overwrite, if_neg (by simp)]
  | cons x xs ih =>
    rw [List.length_cons] at h ⊢
    rw [overwrite, ih _ _ (by rw [Array.size_setIfInBounds]; omega),
      Array.getElem?_setIfInBounds]
    -- The first byte is written at once, and the others by induction behind it.
    by_cases hk : offset = k
    · subst hk
      rw [if_neg (by omega), if_pos rfl, if_pos (by omega), if_pos (by omega), Nat.sub_self]
      rfl
    · rw [if_neg hk]
      by_cases hin : offset + 1 ≤ k ∧ k < offset + 1 + xs.length
      · rw [if_pos hin, if_pos (by omega),
          show k - offset = k - (offset + 1) + 1 by omega, List.getElem?_cons_succ]
      · rw [if_neg hin, if_neg (by omega)]

/-- Writes the targets of sites, as given, over the bytes. -/
def fill (τ : Label → Nat) : List Site → Array UInt8 → Array UInt8
  | [], bytes => bytes
  | s :: sites, bytes => fill τ sites (overwrite bytes s.offset (Code.word (τ s.label)))

/-- The bytes of a buffer with the targets of its jumps, as given. -/
def filled (τ : Label → Nat) (b : Buffer) : Array UInt8 :=
  fill τ b.sites b.bytes

/-- A buffer opens with the magic and has a header. Its sites lie behind that, and neither sites nor
labels lie behind the end. -/
structure Tidy (b : Buffer) : Prop where
  header : headerSize ≤ b.size
  opening : Spells b.bytes 0 magic
  sites : ∀ s ∈ b.sites, headerSize ≤ s.offset ∧ s.offset + 8 ≤ b.size
  labels : ∀ l p, b.target? l = some p → p ≤ b.size

variable {τ : Label → Nat} {b : Buffer}

@[simp]
theorem size_fill (sites : List Site) (bytes : Array UInt8) :
    (fill τ sites bytes).size = bytes.size := by
  induction sites generalizing bytes with
  | nil => rfl
  | cons s sites ih => rw [fill, ih, size_overwrite]

/-- Bytes outside all sites stay as they are. -/
theorem getElem?_fill_of_outside {sites : List Site} {bytes : Array UInt8} {k : Nat}
    (h : ∀ s ∈ sites, s.offset + 8 ≤ bytes.size ∧ (k < s.offset ∨ s.offset + 8 ≤ k)) :
    (fill τ sites bytes)[k]? = bytes[k]? := by
  induction sites generalizing bytes with
  | nil => rfl
  | cons s sites ih =>
    obtain ⟨hin, hout⟩ := h s (List.mem_cons_self ..)
    rw [fill, ih fun s hs ↦ by
      rw [size_overwrite]; exact h s (List.mem_cons_of_mem _ hs)]
    rw [getElem?_overwrite _ _ _ _ (by rwa [Code.length_word]), Code.length_word,
      if_neg (by omega)]

/-- What a byte is filled with does not depend on other bytes. -/
theorem getElem?_fill_congr {sites : List Site} {bytes bytes' : Array UInt8} {k : Nat}
    (h : ∀ s ∈ sites, s.offset + 8 ≤ bytes.size ∧ s.offset + 8 ≤ bytes'.size)
    (hk : bytes[k]? = bytes'[k]?) : (fill τ sites bytes)[k]? = (fill τ sites bytes')[k]? := by
  induction sites generalizing bytes bytes' with
  | nil => exact hk
  | cons s sites ih =>
    obtain ⟨hle, hle'⟩ := h s (List.mem_cons_self ..)
    rw [fill, fill]
    apply ih
    · intro s hs
      rw [size_overwrite, size_overwrite]
      exact h s (List.mem_cons_of_mem _ hs)
    · rw [getElem?_overwrite _ _ _ _ (by rwa [Code.length_word]),
        getElem?_overwrite _ _ _ _ (by rwa [Code.length_word]), hk]

/-! ### Buffers that grow -/

@[simp]
theorem size_append (b : Buffer) (bytes : List UInt8) :
    (b.append bytes).size = b.size + bytes.length := by
  rw [size, append, ← Array.length_toList, Array.toList_appendList, List.length_append]
  rfl

/-- What is added stands behind what was there. -/
theorem getElem?_append (b : Buffer) (bytes : List UInt8) (k : Nat) :
    (b.append bytes).bytes[k]? = if k < b.size then b.bytes[k]? else bytes[k - b.size]? := by
  rw [append, ← Array.getElem?_toList, Array.toList_appendList, List.getElem?_append,
    Array.getElem?_toList]
  rfl

theorem length_magic : magic.length = 8 := by
  decide

/-- Bytes at the end leave the header and the sites as they are. -/
theorem Tidy.append (h : b.Tidy) (bytes : List UInt8) : (b.append bytes).Tidy := by
  have hsize := b.size_append bytes
  have hheader := h.header
  refine ⟨by omega, fun k hk ↦ ?_, fun s hs ↦ ?_, fun l p hp ↦ ?_⟩
  · rw [getElem?_append, if_pos (by rw [length_magic] at hk; rw [headerSize] at hheader; omega)]
    exact h.opening k hk
  · have := h.sites s hs
    omega
  · have := h.labels l p hp
    omega

/-- The site of a jump lies behind the header and before the end. -/
theorem Tidy.jump (h : b.Tidy) (op : Opcode) (l : Label) : (b.jump op l).Tidy := by
  have hb := (h.append [op.byte]).append (Code.word 0)
  refine ⟨hb.header, hb.opening, fun s hs ↦ ?_, hb.labels⟩
  rcases List.mem_append.1 hs with hs | hs
  · exact hb.sites s hs
  · obtain rfl := List.mem_singleton.1 hs
    have hheader := (h.append [op.byte]).header
    have hsize := (b.append [op.byte]).size_append (Code.word 0)
    rw [Code.length_word] at hsize
    exact ⟨hheader, Nat.le_of_eq hsize.symm⟩

theorem Tidy.newLabel (h : b.Tidy) : b.newLabel.2.Tidy := by
  refine ⟨h.header, h.opening, h.sites, fun l p hp ↦ h.labels l p ?_⟩
  simp only [target?, Buffer.newLabel, Array.getElem?_push] at hp ⊢
  split at hp
  · cases hp
  · exact hp

/-- A label is bound to the end, which is not behind the end. -/
theorem Tidy.bind (h : b.Tidy) (l : Label) : (b.bind l).Tidy := by
  refine ⟨h.header, h.opening, h.sites, fun l' p hp ↦ ?_⟩
  simp only [target?, Buffer.bind, Array.getElem?_setIfInBounds] at hp
  split at hp
  · split at hp
    · exact Nat.le_of_eq (Option.some.inj hp).symm
    · cases hp
  · exact h.labels l' p hp

/-- A buffer is another one with some bytes behind it, the targets of jumps being as given. -/
structure Adds (τ : Label → Nat) (b b' : Buffer) (bytes : List UInt8) : Prop where
  size_eq : b'.size = b.size + bytes.length
  getElem?_filled : ∀ k, (b'.filled τ)[k]? =
    if k < b.size then (b.filled τ)[k]? else bytes[k - b.size]?

/-- Bytes at the end are not touched when sites are filled in. -/
theorem Tidy.adds_append (h : b.Tidy) (bytes : List UInt8) : Adds τ b (b.append bytes) bytes := by
  refine ⟨b.size_append bytes, fun k ↦ ?_⟩
  have hget := b.getElem?_append bytes k
  by_cases hk : k < b.size
  · rw [if_pos hk] at hget ⊢
    exact getElem?_fill_congr
      (fun s hs ↦ ⟨((h.append bytes).sites s hs).2, (h.sites s hs).2⟩) hget
  · rw [if_neg hk] at hget ⊢
    rw [filled, getElem?_fill_of_outside, hget]
    intro s hs
    have := (h.sites s hs).2
    exact ⟨((h.append bytes).sites s hs).2, by omega⟩

/-- Filling in one more site comes last. -/
theorem fill_append (sites : List Site) (s : Site) (bytes : Array UInt8) :
    fill τ (sites ++ [s]) bytes =
      overwrite (fill τ sites bytes) s.offset (Code.word (τ s.label)) := by
  induction sites generalizing bytes with
  | nil => rfl
  | cons s' sites ih => rw [List.cons_append, fill, ih, fill]

/-- A jump adds the operation and its target, though the target is zero until it is filled in. -/
theorem Tidy.adds_jump (h : b.Tidy) (op : Opcode) (l : Label) :
    Adds τ b (b.jump op l) (op.byte :: Code.word (τ l)) := by
  have hsize : ((b.append [op.byte]).append (Code.word 0)).size = b.size + 9 := by
    rw [size_append, size_append, Code.length_word]
    rfl
  have hfill : (b.jump op l).filled τ =
      overwrite (((b.append [op.byte]).append (Code.word 0)).filled τ) (b.size + 1)
        (Code.word (τ l)) := by
    rw [filled, show (b.jump op l).sites = b.sites ++ [⟨(b.append [op.byte]).size, l⟩] from rfl,
      fill_append, size_append]
    rfl
  refine ⟨by rw [List.length_cons, Code.length_word]; exact hsize, fun k ↦ ?_⟩
  rw [hfill, getElem?_overwrite _ _ _ _ (by
      rw [Code.length_word, filled, size_fill]; exact Nat.le_of_eq (by rw [← hsize]; rfl)),
    Code.length_word, ((h.append [op.byte]).adds_append (Code.word 0)).getElem?_filled,
    (h.adds_append [op.byte]).getElem?_filled, size_append, List.length_singleton]
  -- Three stretches: what was there, the operation, and the operand that is filled in.
  by_cases hlt : k < b.size
  · rw [if_neg (by omega), if_pos (by omega), if_pos hlt, if_pos hlt]
  · rw [if_neg hlt, if_neg hlt]
    rcases Nat.eq_or_lt_of_le (Nat.le_of_not_lt hlt) with heq | hgt
    · rw [if_neg (by omega), if_pos (by omega), heq, Nat.sub_self]
      rfl
    · have hrest : (op.byte :: Code.word (τ l))[k - b.size]? =
          (Code.word (τ l))[k - (b.size + 1)]? := by
        rw [show k - b.size = k - (b.size + 1) + 1 by omega, List.getElem?_cons_succ]
      rw [hrest]
      by_cases hin : k < b.size + 9
      · rw [if_pos (by omega)]
      · rw [if_neg (by omega), if_neg (by omega), List.getElem?_eq_none, List.getElem?_eq_none] <;>
          rw [Code.length_word] <;> omega

/-! ### Code that agrees with a buffer -/

/-- Code is that of a buffer behind the header, with the targets of jumps as given. -/
def Agrees (τ : Label → Nat) (code : Array UInt8) (b : Buffer) : Prop :=
  ∀ k, headerSize ≤ k → k < b.size → code[k]? = (b.filled τ)[k]?

variable {code : Array UInt8}

/-- Code that agrees with a buffer agrees with it before something was added, and spells what was
added. -/
theorem Agrees.of_adds {b' : Buffer} {bytes : List UInt8} (h : b'.Agrees τ code)
    (hadds : Adds τ b b' bytes) (hb : b.Tidy) : b.Agrees τ code ∧ Spells code b.size bytes := by
  have hheader := hb.header
  have hsize := hadds.size_eq
  constructor
  · intro k hk hlt
    rw [h k hk (by omega), hadds.getElem?_filled, if_pos hlt]
  · intro k hk
    rw [h (b.size + k) (by omega) (by omega), hadds.getElem?_filled, if_neg (by omega),
      Nat.add_sub_cancel_left]

/-! ### Instructions in a row -/

/-- What is added twice is added together. -/
theorem Adds.trans {b' b'' : Buffer} {xs ys : List UInt8} (h : Adds τ b b' xs)
    (h' : Adds τ b' b'' ys) : Adds τ b b'' (xs ++ ys) := by
  have hsize := h.size_eq
  refine ⟨by rw [h'.size_eq, hsize, List.length_append, Nat.add_assoc], fun k ↦ ?_⟩
  rw [h'.getElem?_filled, h.getElem?_filled]
  by_cases hk : k < b.size
  · rw [if_pos hk, if_pos hk, if_pos (by omega)]
  · rw [if_neg hk, if_neg hk, hsize]
    by_cases hk' : k < b.size + xs.length
    · rw [if_pos hk', List.getElem?_append_left (by omega)]
    · rw [if_neg hk', List.getElem?_append_right (by omega), Nat.sub_add_eq]

/-- A buffer is another one with some instructions behind it and so many more labels. The counts
among the operands do not exceed its size, and the targets are those of labels. -/
structure Writes (τ : Label → Nat) (b b' : Buffer) (made : Nat) (is : List Instr) : Prop where
  tidy : b'.Tidy
  size_labels : b'.labels.size = b.labels.size + made
  target?_eq : ∀ l, l.id < b.labels.size → b'.target? l = b.target? l
  adds : Adds τ b b' (is.flatMap Instr.encode)
  number : ∀ i ∈ is, i.number ≤ b'.size ∨ ∃ l, i.number = τ l

namespace Writes

variable {b' b'' : Buffer} {made made' : Nat} {is is' : List Instr}

theorem nil (h : b.Tidy) : Writes τ b b 0 [] := by
  refine ⟨h, rfl, fun _ _ ↦ rfl, ⟨rfl, fun k ↦ ?_⟩, by simp⟩
  by_cases hk : k < b.size
  · rw [if_pos hk]
  · rw [if_neg hk, Array.getElem?_eq_none (by rw [filled, size_fill]; exact Nat.le_of_not_lt hk)]
    rfl

/-- A label is made and nothing is written. -/
theorem newLabel (h : b.Tidy) : Writes τ b b.newLabel.2 1 [] := by
  have hnil := (Writes.nil (τ := τ) h).adds
  refine ⟨h.newLabel, Array.size_push .., fun l hl ↦ ?_, ⟨rfl, hnil.getElem?_filled⟩, by simp⟩
  rw [target?, target?, Buffer.newLabel, Array.getElem?_push, if_neg (by omega)]

/-- An instruction is written with its operands. -/
theorem emit (h : b.Tidy) (i : Instr) (hi : i.number ≤ b.size) :
    Writes τ b (b.emit i) 0 [i] := by
  refine ⟨h.append _, rfl, fun _ _ ↦ rfl, ?_, ?_⟩
  · rw [List.flatMap_singleton]
    exact h.adds_append _
  · rw [List.forall_mem_singleton, Buffer.emit, size_append]
    exact .inl (Nat.le_add_right_of_le hi)

/-- A jump is written with the target of its label, as guessed. -/
theorem jump (h : b.Tidy) (l : Label) : Writes τ b (b.jump .jump l) 0 [.jump (τ l)] := by
  refine ⟨h.jump _ _, rfl, fun _ _ ↦ rfl, ?_, ?_⟩
  · rw [List.flatMap_singleton]
    exact h.adds_jump _ _
  · rw [List.forall_mem_singleton]
    exact .inr ⟨l, rfl⟩

theorem jumpIfFalse (h : b.Tidy) (l : Label) :
    Writes τ b (b.jump .jumpIfFalse l) 0 [.jumpIfFalse (τ l)] := by
  refine ⟨h.jump _ _, rfl, fun _ _ ↦ rfl, ?_, ?_⟩
  · rw [List.flatMap_singleton]
    exact h.adds_jump _ _
  · rw [List.forall_mem_singleton]
    exact .inr ⟨l, rfl⟩

/-- A buffer grows by the room of its instructions. -/
theorem size_eq (h : Writes τ b b' made is) : b'.size = b.size + Instr.size is := by
  rw [h.adds.size_eq, List.length_flatMap]
  rfl

/-- What is written one after the other is written together. -/
theorem trans (h : Writes τ b b' made is) (h' : Writes τ b' b'' made' is') :
    Writes τ b b'' (made + made') (is ++ is') := by
  have hsize := h.size_labels
  refine ⟨h'.tidy, by rw [h'.size_labels, hsize, Nat.add_assoc], fun l hl ↦ ?_, ?_, ?_⟩
  · rw [h'.target?_eq l (by omega), h.target?_eq l hl]
  · rw [List.flatMap_append]
    exact h.adds.trans h'.adds
  · intro i hi
    rcases List.mem_append.1 hi with hi | hi
    · have := h'.size_eq
      exact (h.number i hi).imp_left fun hle ↦ by omega
    · exact h'.number i hi

/-- One more instruction is written. -/
theorem snoc (h : Writes τ b b' made is) {i : Instr} (hi : i.number ≤ b'.size) :
    Writes τ b (b'.emit i) made (is ++ [i]) :=
  h.trans (.emit h.tidy i hi)

end Writes

end Buffer

open Buffer (Writes)

/-- A line of a listing is what code has at its offset. -/
def Entry.Stands (code : Array UInt8) (e : Entry) : Prop :=
  Instr.decode code e.offset = .ok (e.instr, e.next)

/-- Where instructions are spelled, **each of them is decoded at its offset**. -/
theorem stands_of_spells {code : Array UInt8} {offset : Nat} {is : List Instr} (p : Point)
    (h : Spells code offset (is.flatMap Instr.encode)) (hcode : code.size < UInt64.size)
    (his : ∀ i ∈ is, i.number < UInt64.size) : ∀ e ∈ entriesOf offset p is, e.Stands code := by
  induction is generalizing offset p with
  | nil => simp [entriesOf]
  | cons i is ih =>
    rw [List.flatMap_cons] at h
    rw [entriesOf, List.forall_mem_cons]
    rw [List.forall_mem_cons] at his
    exact ⟨Instr.decode_of_spells h.left his.1 hcode, ih _ h.right his.2⟩

/-! ### Expressions -/

/-- No instruction is without bytes. -/
theorem Instr.size_pos {is : List Instr} (h : is ≠ []) : 0 < size is := by
  obtain ⟨i, is, rfl⟩ := List.exists_cons_of_ne_nil h
  rw [size_cons, width, encode, List.length_cons]
  omega

/-- Expressions have at least a byte each. -/
theorem Expr.length_le_size_codeAll (es : List Expr) :
    es.length ≤ Instr.size (Expr.codeAll es) := by
  induction es with
  | nil => exact Nat.le_refl 0
  | cons e es ih =>
    have : 0 < Instr.size e.code := Instr.size_pos (by cases e <;> simp [Expr.code])
    rw [Expr.codeAll, Instr.size_append, List.length_cons]
    omega

theorem Buffer.append_append (b : Buffer) (xs ys : List UInt8) :
    (b.append xs).append ys = b.append (xs ++ ys) := by
  have hbytes : b.bytes ++ xs ++ ys = b.bytes ++ (xs ++ ys) := by
    apply Array.toList_inj.1
    rw [Array.toList_appendList, Array.toList_appendList, Array.toList_appendList,
      List.append_assoc]
  rw [append, append, append, hbytes]

mutual

/-- The code of an expression is put behind what is there. -/
theorem Expr.emit_eq_append (b : Buffer) : ∀ e : Expr,
    e.emit b = b.append (e.code.flatMap Instr.encode)
  | .int _ | .float _ | .str _ | .bool _ | .null | .var _ => by
    simp [Expr.emit, Expr.code, Buffer.emit]
  | .call _ args => by
    simp [Expr.emit, Expr.code, Buffer.emit, emitAll_eq_append b args, Buffer.append_append]
  | .list items => by
    simp [Expr.emit, Expr.code, Buffer.emit, emitAll_eq_append b items, Buffer.append_append]
  | .unary _ e => by
    simp [Expr.emit, Expr.code, Buffer.emit, e.emit_eq_append b, Buffer.append_append]
  | .binary _ left right => by
    simp [Expr.emit, Expr.code, Buffer.emit, left.emit_eq_append b, right.emit_eq_append,
      Buffer.append_append]
  | .index container i => by
    simp [Expr.emit, Expr.code, Buffer.emit, container.emit_eq_append b, i.emit_eq_append,
      Buffer.append_append]
  | .slice container start stop => by
    simp [Expr.emit, Expr.code, Buffer.emit, container.emit_eq_append b, start.emit_eq_append,
      stop.emit_eq_append, Buffer.append_append]

/-- The code of some expressions is put behind what is there. -/
theorem Expr.emitAll_eq_append (b : Buffer) : ∀ es : List Expr,
    Expr.emitAll es b = b.append ((Expr.codeAll es).flatMap Instr.encode)
  | [] => by simp [Expr.emitAll, Expr.codeAll, Buffer.append]
  | e :: es => by
    simp [Expr.emitAll, Expr.codeAll, e.emit_eq_append b, emitAll_eq_append _ es,
      Buffer.append_append]

end

/-- The code of a value that is given back is put behind what is there. -/
theorem Expr.emitLast_eq_append (b : Buffer) (isTail : Bool) (e : Expr) :
    e.emitLast isTail b = b.append ((e.lastCode isTail).flatMap Instr.encode) := by
  cases isTail with
  | false => exact e.emit_eq_append b
  | true =>
    cases e with
    | call name args =>
      simp [Expr.emitLast, Expr.lastCode, Buffer.emit, Expr.emitAll_eq_append b args,
        Buffer.append_append]
    | _ => exact Expr.emit_eq_append b _

section

variable {τ : Label → Nat}

/-- There are no more arguments than bytes before their call. -/
theorem Buffer.Writes.length_le_size {b b' : Buffer} {es : List Expr}
    (h : Writes τ b b' 0 (Expr.codeAll es)) : es.length ≤ b'.size := by
  have := h.size_eq
  have := Expr.length_le_size_codeAll es
  omega

mutual

/-- An expression writes its code. -/
theorem Expr.writes_emit {b : Buffer} (hb : b.Tidy) : ∀ e : Expr, Writes τ b (e.emit b) 0 e.code
  | .int _ | .float _ | .str _ | .bool _ | .null | .var _ => .emit hb _ (Nat.zero_le _)
  | .call _ args =>
    have h := writes_emitAll hb args
    h.snoc h.length_le_size
  | .list items =>
    have h := writes_emitAll hb items
    h.snoc h.length_le_size
  | .unary _ e => (e.writes_emit hb).snoc (Nat.zero_le _)
  | .binary _ left right =>
    have h := left.writes_emit hb
    (h.trans (right.writes_emit h.tidy)).snoc (Nat.zero_le _)
  | .index container i =>
    have h := container.writes_emit hb
    (h.trans (i.writes_emit h.tidy)).snoc (Nat.zero_le _)
  | .slice container start stop =>
    have h := container.writes_emit hb
    have h' := h.trans (start.writes_emit h.tidy)
    (h'.trans (stop.writes_emit h'.tidy)).snoc (Nat.zero_le _)

theorem Expr.writes_emitAll {b : Buffer} (hb : b.Tidy) :
    ∀ es : List Expr, Writes τ b (Expr.emitAll es b) 0 (Expr.codeAll es)
  | [] => .nil hb
  | e :: es =>
    have h := e.writes_emit hb
    h.trans (Expr.writes_emitAll h.tidy es)

end

/-- A value that is given back writes its code, with a last call or without. -/
theorem Expr.writes_emitLast {b : Buffer} (hb : b.Tidy) (isTail : Bool) (e : Expr) :
    Writes τ b (e.emitLast isTail b) 0 (e.lastCode isTail) := by
  cases isTail with
  | false => exact e.writes_emit hb
  | true =>
    cases e with
    | call name args =>
      have h := Expr.writes_emitAll (τ := τ) hb args
      exact h.snoc h.length_le_size
    | _ => exact Expr.writes_emit hb _

end

end Scriptlet
