import Scriptlet.Proofs.Machine.Ownership

/-!
# Compiled code is read from front to back

An instruction does not say where the next one starts, other than by where it ends. Reading code
from its start on therefore gives **one** division into instructions, or it fails: at an unknown
operation or type, at a text that is none, or at an instruction that the code ends in.

`Instr.decodeAll` is that reading. Of compiled code it gives the lines of the listing, so what is
known of the targets of jumps and of the entries of functions there holds of the bytes alone. That
no function starts behind the last instruction is seen from the notes: what is noted at the end of
the code belongs to no function.
-/

namespace Scriptlet

/-! ### Reading forwards -/

namespace Code

variable {α β : Type} {code : Array UInt8} {offset : Nat}

/-- What is read from an offset on ends behind it and inside the code. -/
def EndsIn (code : Array UInt8) (offset : Nat) (r : Except DecodeError (α × Nat)) : Prop :=
  ∀ a next, r = .ok (a, next) → offset ≤ next ∧ next ≤ code.size

namespace EndsIn

theorem ok (h : offset ≤ code.size) (a : α) : EndsIn code offset (.ok (a, offset)) := by
  rintro _ _ ⟨⟩
  exact ⟨Nat.le_refl _, h⟩

theorem error (e : DecodeError) : EndsIn code offset (.error e : Except DecodeError (α × Nat)) :=
  nofun

/-- What is read in two steps ends where the second one does. -/
theorem bind {r : Except DecodeError (α × Nat)} {f : α × Nat → Except DecodeError (β × Nat)}
    (hr : EndsIn code offset r)
    (hf : ∀ a next, next ≤ code.size → EndsIn code next (f (a, next))) :
    EndsIn code offset (r >>= f) := by
  rcases r with e | ⟨a, mid⟩
  · exact error e
  · intro b next hnext
    obtain ⟨hle, hmid⟩ := hr a mid rfl
    obtain ⟨hle', hend⟩ := hf a mid hmid b next hnext
    exact ⟨Nat.le_trans hle hle', hend⟩

theorem byteAt : EndsIn code offset (byteAt code offset) := by
  intro b next h
  rw [Code.byteAt] at h
  split at h
  · obtain ⟨-, rfl⟩ := Prod.mk.inj (Except.ok.inj h)
    omega
  · cases h

theorem wordAt : EndsIn code offset (wordAt code offset) := by
  intro n next h
  rw [Code.wordAt] at h
  split at h
  · obtain ⟨-, rfl⟩ := Prod.mk.inj (Except.ok.inj h)
    omega
  · cases h

/-- A text ends inside the code, since its length is compared with what is left. -/
theorem textAt : EndsIn code offset (textAt code offset) := by
  refine wordAt.bind fun length next _ s stop h ↦ ?_
  dsimp only at h
  split at h
  · split at h
    · cases h
      omega
    · cases h
  · cases h

end EndsIn

end Code

namespace Instr

open Code

variable {code : Array UInt8} {offset next : Nat} {i : Instr}

/-- Operands end inside the code, whatever the operation. -/
theorem endsIn_decodeOperands (h : offset ≤ code.size) (op : Opcode) :
    EndsIn code offset (decodeOperands code offset op) := by
  cases op with
  | pushInt | pushFloat | makeList | jump | jumpIfFalse =>
    exact EndsIn.wordAt.bind fun _ _ hnext ↦ .ok hnext _
  | pushBool => exact EndsIn.byteAt.bind fun _ _ hnext ↦ .ok hnext _
  | pushStr | get | set | unset | setIndex =>
    exact EndsIn.textAt.bind fun _ _ hnext ↦ .ok hnext _
  | decl =>
    refine EndsIn.textAt.bind fun name _ _ ↦ EndsIn.byteAt.bind fun byte _ hnext ↦ ?_
    dsimp only
    split
    · exact .ok hnext _
    · exact .error _
  | call | tailCall =>
    exact EndsIn.textAt.bind fun _ _ _ ↦ EndsIn.wordAt.bind fun _ _ hnext ↦ .ok hnext _
  | _ => exact .ok h _

/-- An instruction has at least one byte and does not reach beyond the code. -/
theorem lt_of_decode (h : decode code offset = .ok (i, next)) :
    offset < next ∧ next ≤ code.size := by
  by_cases hle : offset + 1 ≤ code.size
  · rw [decode, byteAt, if_pos hle] at h
    dsimp only [bind, Except.bind] at h
    split at h
    · exact endsIn_decodeOperands hle _ i next h
    · cases h
  · rw [decode, byteAt, if_neg hle] at h
    cases h

/-- The instructions from an offset to the end of the code with their offsets, each read where the
one before it ends. -/
def decodeAll (code : Array UInt8) (offset : Nat) : Except DecodeError (List (Nat × Instr)) :=
  if offset = code.size then .ok []
  else
    match _hdecode : decode code offset with
    | .error e => .error e
    | .ok (i, next) => (decodeAll code next).map ((offset, i) :: ·)
termination_by code.size - offset
decreasing_by
  have := lt_of_decode _hdecode
  omega

/-- Lines that follow each other are what is read. -/
theorem decodeAll_of_adjoin {es : List Entry} (h : Adjoin offset es code.size)
    (hstands : ∀ e ∈ es, e.Stands code) :
    decodeAll code offset = .ok (es.map fun e ↦ (e.offset, e.instr)) := by
  induction es generalizing offset with
  | nil =>
    obtain rfl : offset = code.size := h
    rw [decodeAll, if_pos rfl]
    rfl
  | cons e es ih =>
    obtain ⟨rfl, hrest⟩ := h
    obtain ⟨hhead, htail⟩ := List.forall_mem_cons.1 hstands
    have hlt := lt_of_decode hhead
    rw [decodeAll, if_neg (by omega)]
    split
    · rename_i heq
      rw [hhead] at heq
      cases heq
    · rename_i heq
      rw [hhead] at heq
      cases heq
      rw [ih hrest htail]
      rfl

end Instr

/-! ### Compiled code -/

namespace Image.Compiled

variable {image : Image} {p : Program} {L : Listing}

/-- **Compiled code is decoded, from its start to its end, as its listing.** -/
theorem decodeAll_eq (h : image.Compiled p L) :
    Instr.decodeAll image.code headerSize = .ok (L.entries.map fun e ↦ (e.offset, e.instr)) :=
  Instr.decodeAll_of_adjoin h.lists.divided.adjoin h.lists.stands

/-- Where something is noted, a line or the end of the code is. -/
theorem mem_or_eq_of_notes (h : image.Compiled p L) {offset : Nat} {q : Point}
    (hnotes : h.lists.Notes offset q) :
    offset ∈ L.entries.map Entry.offset ∨ offset = image.tableOffset ∧ q.owner = none := by
  rcases hnotes with ⟨e, he, rfl, -⟩ | ⟨rfl, rfl⟩
  · exact .inl (List.mem_map_of_mem he)
  · exact .inr ⟨h.size_code, (Spot.top.tail_blocks_afterAll p).2.2⟩

/-- A line stands before the table. -/
theorem lt_tableOffset (h : image.Compiled p L) {offset : Nat}
    (hmem : offset ∈ L.entries.map Entry.offset) : offset < image.tableOffset := by
  obtain ⟨e, he, rfl⟩ := List.mem_map.1 hmem
  rw [← h.size_code]
  exact Nat.lt_of_lt_of_le e.offset_lt_next (h.lists.divided.adjoin.bounds.2 e he).2

/-- The program itself starts with the first line, if there is one. -/
theorem mem_or_eq_headerSize (h : image.Compiled p L) :
    headerSize ∈ L.entries.map Entry.offset ∨ L.entries = [] ∧ headerSize = image.tableOffset := by
  rw [← h.size_code]
  have hadjoin := h.lists.divided.adjoin
  generalize L.entries = es at hadjoin ⊢
  cases es with
  | nil => exact .inr ⟨rfl, hadjoin⟩
  | cons e es => exact .inl (hadjoin.1 ▸ List.mem_cons_self ..)

/-- A function starts with a line of its own. -/
theorem entry_mem (h : image.Compiled p L) {g : Located} (hg : g ∈ L.functions) :
    g.function.entry.toNat ∈ L.entries.map Entry.offset := by
  rw [h.toNat_entry hg]
  refine (h.mem_or_eq_of_notes ((h.lists.sound h.valid).2.functions g hg)).resolve_right ?_
  rintro ⟨-, howner⟩
  cases howner

end Image.Compiled

/-- **Compiled code is well formed.** Read from behind the header on, the code of a compiled program
is divided into whole instructions, and their end is the function table. Every jump leads to one of
these instructions or to their end. Every function of the table starts with one of them, and below
the function table; only the program itself may have none, if there is no code at all. -/
theorem exists_decodeAll_of_compile {source : String} {image : Image}
    (h : compile source = .ok image) :
    image.code.size = image.tableOffset ∧
    ∃ lines, Instr.decodeAll image.code headerSize = .ok lines ∧
      (∀ line ∈ lines, ∀ target, line.2.target? = some target →
        target ∈ lines.map Prod.fst ∨ target = image.tableOffset) ∧
      ∀ f ∈ image.functions,
        f.entry.toNat ∈ lines.map Prod.fst ∧ f.entry.toNat < image.tableOffset ∨
        f.name = Function.mainName ∧ lines = [] ∧ f.entry.toNat = image.tableOffset := by
  obtain ⟨p, L, hc⟩ := exists_compiled_of_compile h
  refine ⟨hc.size_code, _, hc.decodeAll_eq, ?_, ?_⟩ <;>
    rw [show (L.entries.map fun e ↦ (e.offset, e.instr)).map Prod.fst = L.entries.map Entry.offset
      from List.map_map]
  · intro line hline target htarget
    obtain ⟨e, he, rfl⟩ := List.mem_map.1 hline
    have hnotes := ((hc.lists.sound hc.valid).2.entries e he).target target htarget
    exact (hc.mem_or_eq_of_notes hnotes).imp_right And.left
  · intro f hf
    rw [hc.lists.functions, List.mem_cons, List.mem_map] at hf
    rcases hf with rfl | ⟨g, hg, rfl⟩
    · rcases hc.mem_or_eq_headerSize with hmem | ⟨hnil, hentry⟩
      · exact .inl ⟨hmem, hc.lt_tableOffset hmem⟩
      · exact .inr ⟨rfl, by rw [hnil]; rfl, hentry⟩
    · exact .inl ⟨hc.entry_mem hg, hc.lt_tableOffset (hc.entry_mem hg)⟩

/-- A function in a loop that is left from inside a block. The jump out of the loop leads to the end
of the code. -/
def functionInLoop : String :=
  "while (true) \x7b func f(n) \x7b return n; \x7d if (f(1)) \x7b break; \x7d \x7d"

theorem exists_decodeAll_functionInLoop :
    ∃ image, compile functionInLoop = .ok image ∧ image.functions.length = 2 ∧
      image.code.size = image.tableOffset ∧
      ∃ lines, Instr.decodeAll image.code headerSize = .ok lines ∧
        (∀ line ∈ lines, ∀ target, line.2.target? = some target →
          target ∈ lines.map Prod.fst ∨ target = image.tableOffset) ∧
        ∀ f ∈ image.functions,
          f.entry.toNat ∈ lines.map Prod.fst ∧ f.entry.toNat < image.tableOffset ∨
          f.name = Function.mainName ∧ lines = [] ∧ f.entry.toNat = image.tableOffset := by
  have hlength : (compile functionInLoop).toOption.map (·.functions.length) = some 2 := by
    decide +kernel
  rcases h : compile functionInLoop with e | image <;> rw [h] at hlength
  · cases hlength
  · exact ⟨image, rfl, Option.some.inj hlength, exists_decodeAll_of_compile h⟩

end Scriptlet
