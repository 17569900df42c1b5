import Scriptlet.Compile
import Scriptlet.Proofs.Code.Writing

/-!
# Where code is placed

A statement writes its lines behind what is there, binds the labels it has made, and leaves all
labels and bytes before it alone (`Draft.Places`). This is said for any offsets that the labels may
come to, and for any code that agrees with the draft, since jumps are written before it is known
where they go. There is one lemma for each form of statement; `Stmt.places_emit` puts them together.
-/

namespace Scriptlet

namespace Buffer

variable {τ : Label → Nat} {code : Array UInt8} {b b' b'' : Buffer}

/-! ### Labels -/

/-- Binding a label that was made fixes it to the end, and leaves all others. -/
theorem target?_bind (l l' : Label) :
    (b.bind l).target? l' =
      if l = l' ∧ l.id < b.labels.size then some b.size else b.target? l' := by
  rw [target?, bind, Array.getElem?_setIfInBounds]
  by_cases h : l = l'
  · subst h
    by_cases hlt : l.id < b.labels.size
    · simp [hlt]
    · simp [hlt, target?]
  · have : l.id ≠ l'.id := fun hid ↦ h (congrArg Label.mk hid)
    rw [if_neg this, if_neg (by simp [h])]
    rfl

/-- A buffer is a later state of another one, in which no labels are bound anew but these. -/
structure Keeps (b b' : Buffer) (rebound : List Label) : Prop where
  tidy : b'.Tidy
  size_le : b.size ≤ b'.size
  labels_le : b.labels.size ≤ b'.labels.size
  target?_eq : ∀ l, l.id < b.labels.size → l ∉ rebound → b'.target? l = b.target? l

/-- Later states of later states are later states. -/
theorem Keeps.trans {ls ls' : List Label} (h : Keeps b b' ls) (h' : Keeps b' b'' ls') :
    Keeps b b'' (ls ++ ls') := by
  refine ⟨h'.tidy, Nat.le_trans h.size_le h'.size_le, Nat.le_trans h.labels_le h'.labels_le,
    fun l hl hmem ↦ ?_⟩
  rw [List.mem_append, not_or] at hmem
  rw [h'.target?_eq l (Nat.lt_of_lt_of_le hl h.labels_le) hmem.2, h.target?_eq l hl hmem.1]

/-- Labels that were not there before do not count as bound anew. -/
theorem Keeps.of_new {ls : List Label} (h : Keeps b b' ls) (hls : ∀ l ∈ ls, b.labels.size ≤ l.id) :
    Keeps b b' [] :=
  ⟨h.tidy, h.size_le, h.labels_le, fun l hl _ ↦
    h.target?_eq l hl fun hmem ↦ absurd (hls l hmem) (by omega)⟩

/-- Writing instructions binds no label. -/
theorem Writes.keeps {made : Nat} {is : List Instr} (h : Writes τ b b' made is) : Keeps b b' [] :=
  ⟨h.tidy, by rw [h.size_eq]; omega, by rw [h.size_labels]; omega, fun l hl _ ↦ h.target?_eq l hl⟩

/-- Binding a label binds no other one. -/
theorem Tidy.keeps_bind (h : b.Tidy) (l : Label) : Keeps b (b.bind l) [l] := by
  refine ⟨h.bind l, Nat.le_refl _, by simp [Buffer.bind], fun l' _ hl' ↦ ?_⟩
  rw [target?_bind, if_neg fun hc ↦ hl' (List.mem_singleton.2 hc.1.symm)]

/-- The labels made between two states of a buffer are bound, but for some. -/
def Binds (b b' : Buffer) (loose : List Label) : Prop :=
  ∀ l, b.labels.size ≤ l.id → l.id < b'.labels.size → l ∉ loose → (b'.target? l).isSome

/-- Labels made while instructions are written are not bound yet. -/
theorem Writes.binds {made : Nat} {is : List Instr} {loose : List Label}
    (h : Writes τ b b' made is)
    (hloose : ∀ l, b.labels.size ≤ l.id → l.id < b.labels.size + made → l ∈ loose) :
    Binds b b' loose := by
  intro l hl hl' hmem
  rw [h.size_labels] at hl'
  exact absurd (hloose l hl hl') hmem

/-- What is bound stays bound, if nothing is bound anew. -/
theorem Binds.trans {loose loose' : List Label} (h : Binds b b' loose)
    (hkeeps : Keeps b' b'' []) (h' : Binds b' b'' loose') : Binds b b'' (loose' ++ loose) := by
  intro l hl hl'' hmem
  rw [List.mem_append, not_or] at hmem
  by_cases hl' : l.id < b'.labels.size
  · rw [hkeeps.target?_eq l hl' List.not_mem_nil]
    exact h l hl hl' hmem.2
  · exact h' l (by omega) hl'' hmem.1

/-- Instructions bind nothing, and make no labels. -/
theorem Binds.writes {loose : List Label} {is : List Instr} (h : Binds b b' loose)
    (hw : Writes τ b' b'' 0 is) : Binds b b'' loose := by
  have hnone : Binds b' b'' [] := hw.binds fun _ hl hl' ↦ absurd hl (by omega)
  exact h.trans hw.keeps hnone

/-- A label that is bound is no longer loose. -/
theorem Binds.bind {l : Label} {loose : List Label} (h : Binds b b' (l :: loose))
    (hl : l.id < b'.labels.size) : Binds b (b'.bind l) loose := by
  intro l' hl' hlt hmem
  have hsize : (b'.bind l).labels.size = b'.labels.size := Array.size_setIfInBounds
  rw [target?_bind]
  by_cases heq : l = l'
  · rw [if_pos ⟨heq, hl⟩]
    rfl
  · rw [if_neg fun hc ↦ heq hc.1]
    refine h l' hl' (by omega) ?_
    rw [List.mem_cons, not_or]
    exact ⟨fun hc ↦ heq hc.symm, hmem⟩

/-! ### Buffers of which finished code is made -/

/-- Finished code is what a buffer has, and these of its labels are bound to the offsets that are
used in the code. -/
structure Final (τ : Label → Nat) (code : Array UInt8) (Bound : Label → Prop) (b : Buffer) :
    Prop where
  agrees : b.Agrees τ code
  size_le : b.size ≤ code.size
  target?_eq : ∀ l, l.id < b.labels.size → Bound l → b.target? l = some (τ l)

/-- Offsets in code fit into a word. -/
structure Addressable (τ : Label → Nat) (code : Array UInt8) : Prop where
  code_lt : code.size < UInt64.size
  target_lt : ∀ l, τ l < UInt64.size

variable {Bound Bound' : Label → Prop}

/-- What is known of some labels is known of fewer. -/
theorem Final.mono (h : b.Final τ code Bound)
    (hle : ∀ l, l.id < b.labels.size → Bound' l → Bound l) : b.Final τ code Bound' :=
  ⟨h.agrees, h.size_le, fun l hl hbound ↦ h.target?_eq l hl (hle l hl hbound)⟩

/-- Finished code has the instructions that were written, and is finished for the state before
them. -/
theorem Final.of_writes {made : Nat} {is : List Instr} (h : b'.Final τ code Bound)
    (hw : Writes τ b b' made is) (hb : b.Tidy) (haddr : Addressable τ code) :
    b.Final τ code Bound ∧ ∀ p, ∀ e ∈ entriesOf b.size p is, e.Stands code := by
  obtain ⟨hagrees, hspells⟩ := h.agrees.of_adds hw.adds hb
  have hsize := hw.size_labels
  refine ⟨⟨hagrees, Nat.le_trans hw.keeps.size_le h.size_le, fun l hl hbound ↦ ?_⟩, fun p ↦ ?_⟩
  · rw [← hw.target?_eq l hl, h.target?_eq l (by omega) hbound]
  · refine stands_of_spells p hspells haddr.code_lt fun i hi ↦ ?_
    rcases hw.number i hi with hle | ⟨l, hl⟩
    · exact Nat.lt_of_le_of_lt (Nat.le_trans hle h.size_le) haddr.code_lt
    · rw [hl]
      exact haddr.target_lt l

/-- A label that is bound last is bound to the end. -/
theorem Final.of_bind {l : Label} (h : (b.bind l).Final τ code Bound) (hbound : Bound l)
    (hl : l.id < b.labels.size) :
    τ l = b.size ∧ b.Final τ code fun l' ↦ Bound l' ∧ l' ≠ l := by
  have hsize : (b.bind l).labels.size = b.labels.size := by
    simp [bind]
  constructor
  · have := h.target?_eq l (by rwa [hsize]) hbound
    rw [target?_bind, if_pos ⟨rfl, hl⟩] at this
    exact (Option.some.inj this).symm
  · refine ⟨h.agrees, h.size_le, fun l' hl' hbound' ↦ ?_⟩
    have := h.target?_eq l' (by rwa [hsize]) hbound'.1
    rwa [target?_bind, if_neg fun hc ↦ hbound'.2 hc.1.symm] at this

end Buffer

open Buffer (Writes Keeps Binds Final Addressable)

/-! ### Statements -/

variable {τ : Label → Nat} {code : Array UInt8}

/-- A layout is that of a spot, its labels being at the offsets of the spot. -/
structure Layout.Resolves (τ : Label → Nat) (l : Layout) (spot : Spot) : Prop where
  depth : l.depth + 1 = spot.blocks.length
  isTail : l.isTail = spot.isTail
  loops : l.loops.map (fun x ↦ (τ x.continueAt, τ x.breakAt, x.depth + 1)) =
    spot.loops.map fun x ↦ (x.again, x.done, x.blocks.length)

namespace Layout.Resolves

variable {l : Layout} {spot : Spot}

theorem top : Layout.top.Resolves τ .top :=
  ⟨rfl, rfl, rfl⟩

theorem body (head : Head) : (Layout.body head.isTail).Resolves τ (.body head) :=
  ⟨rfl, rfl, rfl⟩

/-- A block opens in the layout and at the spot. -/
theorem inBlock (h : l.Resolves τ spot) : l.inBlock.Resolves τ spot.inBlock :=
  ⟨congrArg Nat.succ h.depth, h.isTail, h.loops⟩

/-- A loop of the layout is one of the spot, its ends at the offsets of its labels. -/
theorem inLoop (h : l.Resolves τ spot) (again done : Label) :
    (l.inLoop again done).Resolves τ (spot.inLoop (τ again) (τ done)) := by
  refine ⟨h.depth, h.isTail, ?_⟩
  rw [Layout.inLoop, Spot.inLoop, List.map_cons, List.map_cons, h.loops, h.depth]

/-- A layout knows nothing of names, so a statement does not change it. -/
theorem after (h : l.Resolves τ spot) (s : Stmt) : l.Resolves τ (spot.after s) := by
  cases s with
  | declare isConst type name init => exact ⟨by rw [h.depth]; simp [Spot.after], h.isTail, h.loops⟩
  | _ => exact h

/-- A layout and its spot have the same loops. -/
theorem loop?_cases (h : l.Resolves τ spot) (depth : Nat) :
    (l.loop? depth = none ∧ spot.loop? depth = none) ∨
      ∃ labels loop, l.loop? depth = some labels ∧ spot.loop? depth = some loop ∧
        τ labels.continueAt = loop.again ∧ τ labels.breakAt = loop.done ∧
        labels.depth + 1 = loop.blocks.length := by
  have hmap : (l.loop? depth).map (fun x ↦ (τ x.continueAt, τ x.breakAt, x.depth + 1)) =
      (spot.loop? depth).map fun x ↦ (x.again, x.done, x.blocks.length) := by
    cases depth with
    | zero => rfl
    | succ depth => rw [Layout.loop?, Spot.loop?, ← List.getElem?_map, h.loops, List.getElem?_map]
  rcases hlabels : l.loop? depth with - | labels <;> rcases hspot : spot.loop? depth with - | loop
  · exact .inl ⟨rfl, rfl⟩
  · rw [hlabels, hspot] at hmap
    cases hmap
  · rw [hlabels, hspot] at hmap
    cases hmap
  · rw [hlabels, hspot, Option.map_some, Option.map_some, Option.some.injEq, Prod.mk.injEq,
      Prod.mk.injEq] at hmap
    exact .inr ⟨labels, loop, rfl, rfl, hmap⟩

end Layout.Resolves

namespace Draft

@[simp]
theorem functions_emit (d : Draft) (i : Instr) : (d.emit i).functions = d.functions :=
  rfl

@[simp]
theorem functions_expr (d : Draft) (e : Expr) : (d.expr e).functions = d.functions :=
  rfl

@[simp]
theorem functions_newLabel (d : Draft) : d.newLabel.2.functions = d.functions :=
  rfl

@[simp]
theorem functions_bind (d : Draft) (l : Label) : (d.bind l).functions = d.functions :=
  rfl

@[simp]
theorem functions_jump (d : Draft) (op : Opcode) (l : Label) :
    (d.jump op l).functions = d.functions :=
  rfl

end Draft

namespace Draft

/-- Adds a condition, a jump for the case that it is false, and the start of a block. -/
def test (d : Draft) (c : Expr) : Label × Draft :=
  let (l, d) := (d.expr c).newLabel
  (l, (d.jump .jumpIfFalse l).emit .enterScope)

/-- Adds the end of a block and a jump. -/
def skip (d : Draft) (l : Label) : Draft :=
  (d.emit .exitScope).jump .jump l

variable {d d' : Draft} {l : Label}

/-- A new label has the next number and no code. -/
theorem writes_newLabel (hd : d.buffer.Tidy) (h : d.newLabel = (l, d')) :
    Writes τ d.buffer d'.buffer 1 [] ∧ l.id = d.buffer.labels.size ∧
      d'.functions = d.functions := by
  cases h
  exact ⟨.newLabel hd, rfl, rfl⟩

/-- A condition is written with its jump, and the label of the jump is new. -/
theorem writes_test {c : Expr} (hd : d.buffer.Tidy) (h : d.test c = (l, d')) :
    Writes τ d.buffer d'.buffer 1 (c.code ++ [.jumpIfFalse (τ l), .enterScope]) ∧
      l.id = d.buffer.labels.size ∧ d'.functions = d.functions := by
  obtain ⟨l', d₁, hmake⟩ : ∃ l d₁, (d.expr c).newLabel = (l, d₁) := ⟨_, _, rfl⟩
  rw [test, hmake] at h
  cases h
  have hc : Writes τ d.buffer (d.expr c).buffer 0 c.code := c.writes_emit hd
  obtain ⟨hw, hl, hf⟩ := writes_newLabel (τ := τ) hc.tidy hmake
  refine ⟨?_, by rw [hl, hc.size_labels]; rfl, hf⟩
  have hjump := (Writes.jumpIfFalse (τ := τ) hw.tidy l).snoc (i := .enterScope) (Nat.zero_le _)
  exact hc.trans (hw.trans hjump)

/-- The end of a block is written with its jump. -/
theorem writes_skip (hd : d.buffer.Tidy) (h : d.skip l = d') :
    Writes τ d.buffer d'.buffer 0 [.exitScope, .jump (τ l)] ∧ d'.functions = d.functions := by
  cases h
  have hw : Writes τ d.buffer (d.emit .exitScope).buffer 0 [.exitScope] :=
    .emit hd _ (Nat.zero_le _)
  exact ⟨hw.trans (.jump hw.tidy l), rfl⟩

end Draft

/-- As many instructions are written as blocks are left. -/
theorem Draft.writes_exitScopes {d : Draft} (hd : d.buffer.Tidy) (count : Nat) :
    Writes τ d.buffer (d.exitScopes count).buffer 0 (List.replicate count .exitScope) ∧
      (d.exitScopes count).functions = d.functions := by
  induction count generalizing d with
  | zero => exact ⟨.nil hd, rfl⟩
  | succ count ih =>
    have hw : Writes τ d.buffer (d.emit .exitScope).buffer 0 [.exitScope] :=
      .emit hd _ (Nat.zero_le _)
    exact ⟨hw.trans (ih hw.tidy).1, (ih hw.tidy).2⟩

/-- Leaving a loop writes what its spot says. -/
theorem Draft.writes_leave {d : Draft} {l : Layout} {spot : Spot} {labels : LoopLabels}
    {loop : Loop} (hd : d.buffer.Tidy) (hl : l.Resolves τ spot)
    (hdepth : labels.depth + 1 = loop.blocks.length)
    (target : Label) :
    Writes τ d.buffer ((d.exitScopes (l.depth - labels.depth)).jump .jump target).buffer 0
        (spot.leave loop (τ target)) ∧
      ((d.exitScopes (l.depth - labels.depth)).jump .jump target).functions = d.functions := by
  have hcount : spot.blocks.length - loop.blocks.length = l.depth - labels.depth := by
    have := hl.depth
    omega
  obtain ⟨hw, hf⟩ := Draft.writes_exitScopes (τ := τ) hd (l.depth - labels.depth)
  rw [Spot.leave, hcount]
  exact ⟨hw.trans (.jump hw.tidy target), hf⟩

/-- A statement without parts writes its instructions. -/
theorem Stmt.writes_emit_of_flat? {s : Stmt} {l : Layout} {spot : Spot} {is : List Instr}
    {d : Draft} (hl : l.Resolves τ spot) (h : s.flat? spot = some is) (hd : d.buffer.Tidy) :
    Writes τ d.buffer (s.emit l d).buffer 0 is ∧ (s.emit l d).functions = d.functions := by
  -- Only jumps out of loops depend on the layout: their labels stand for the ends of the loop at
  -- the spot.
  cases s with
  | declare isConst type name init =>
    cases init with
    | none =>
      cases h
      have hdefault : type.pushDefault.number ≤ d.buffer.size := by
        cases type <;> exact Nat.zero_le _
      exact ⟨(Writes.emit hd _ hdefault).snoc (Nat.zero_le _), rfl⟩
    | some e =>
      cases h
      exact ⟨(e.writes_emit hd).snoc (Nat.zero_le _), rfl⟩
  | assign name value =>
    cases h
    exact ⟨(value.writes_emit hd).snoc (Nat.zero_le _), rfl⟩
  | assignAt name i value =>
    cases h
    have hw := i.writes_emit (τ := τ) hd
    exact ⟨(hw.trans (value.writes_emit hw.tidy)).snoc (Nat.zero_le _), rfl⟩
  | step op name =>
    cases h
    have hget := Writes.emit (τ := τ) hd (.get name) (Nat.zero_le _)
    have hone := hget.snoc (i := .pushInt 1) (Nat.zero_le _)
    have happly := hone.snoc (i := .binary op) (Nat.zero_le _)
    have hset := happly.snoc (i := .set name) (Nat.zero_le _)
    rw [Stmt.emit]
    exact ⟨hset, by simp⟩
  | breakLoop depth =>
    cases h
    rw [Stmt.emit]
    rcases hl.loop?_cases depth with ⟨hnone, hnone'⟩ | ⟨labels, loop, hs, hs', -, hdone, hdepth⟩
    · rw [hnone, hnone']
      exact ⟨.nil hd, rfl⟩
    · rw [hs, hs', Option.elim_some, ← hdone]
      exact Draft.writes_leave hd hl hdepth labels.breakAt
  | continueLoop =>
    cases h
    rw [Stmt.emit]
    rcases hl.loop?_cases 1 with ⟨hnone, hnone'⟩ | ⟨labels, loop, hs, hs', hagain, -, hdepth⟩
    · rw [hnone, hnone']
      exact ⟨.nil hd, rfl⟩
    · rw [hs, hs', Option.elim_some, ← hagain]
      exact Draft.writes_leave hd hl hdepth labels.continueAt
  | giveBack value =>
    cases value with
    | none =>
      cases h
      exact ⟨.emit hd _ (Nat.zero_le _), rfl⟩
    | some e =>
      cases h
      rw [← hl.isTail]
      exact ⟨(e.writes_emitLast hd l.isTail).snoc (Nat.zero_le _), rfl⟩
  | exit | unset name =>
    cases h
    exact ⟨.emit hd _ (Nat.zero_le _), rfl⟩
  | uses target =>
    cases h
    exact ⟨.nil hd, rfl⟩
  | eval e =>
    cases h
    exact ⟨(e.writes_emit hd).snoc (Nat.zero_le _), rfl⟩
  | ifElse c body otherwise => cases h
  | whileLoop c body => cases h
  | function head body => cases h
  | block body => cases h

/-- Finished code has what was added to a draft, and it has a listing. -/
structure Draft.Places (τ : Label → Nat) (code : Array UInt8) (d d' : Draft)
    (Lists : Nat → Nat → Listing → Prop) : Prop where
  keeps : Keeps d.buffer d'.buffer []
  binds : Binds d.buffer d'.buffer []
  exists_listing : ∀ Bound : Label → Prop, d'.buffer.Final τ code Bound →
    (∀ l, d.buffer.labels.size ≤ l.id → Bound l) →
    d.buffer.Final τ code Bound ∧ ∃ L, Lists d.buffer.size d'.buffer.size L ∧
      (∀ e ∈ L.entries, e.Stands code) ∧
      d'.functions.toList = d.functions.toList ++ L.functions.map Located.function

section

variable {l : Layout} {spot : Spot} {d : Draft} {body otherwise : List Stmt}

/-- A statement without parts is placed. -/
theorem Stmt.places_flat {s : Stmt} {is : List Instr} (haddr : Addressable τ code)
    (hl : l.Resolves τ spot) (h : s.flat? spot = some is) (hd : d.buffer.Tidy) :
    d.Places τ code (s.emit l d) (s.Listed spot) := by
  obtain ⟨hw, hf⟩ := Stmt.writes_emit_of_flat? hl h hd
  refine ⟨hw.keeps, hw.binds fun _ hl hl' ↦ absurd hl (by omega), fun Bound hfinal' _ ↦ ?_⟩
  obtain ⟨hfinal, hstands⟩ := hfinal'.of_writes hw hd haddr
  rw [hw.size_eq, hf]
  exact ⟨hfinal, _, .flat h, hstands _, (List.append_nil _).symm⟩

/-- A block is placed if its body is. -/
theorem Stmt.places_block (haddr : Addressable τ code)
    (hbody : ∀ d : Draft, d.buffer.Tidy →
      d.Places τ code (Stmt.emitAll l.inBlock body d) (Stmt.ListedAll spot.inBlock body))
    (hd : d.buffer.Tidy) :
    d.Places τ code ((Stmt.block body).emit l d) ((Stmt.block body).Listed spot) := by
  have henter : Writes τ d.buffer (d.emit .enterScope).buffer 0 [.enterScope] :=
    .emit hd _ (Nat.zero_le _)
  have hinside := hbody _ henter.tidy
  have hexit : Writes τ _ ((Stmt.block body).emit l d).buffer 0 [.exitScope] :=
    .emit hinside.keeps.tidy _ (Nat.zero_le _)
  refine ⟨henter.keeps.trans (hinside.keeps.trans hexit.keeps), ?_, fun Bound hfinal₃ hnew ↦ ?_⟩
  · exact Binds.writes (hinside.binds) hexit
  obtain ⟨hfinal₂, hstands₂⟩ := hfinal₃.of_writes hexit hinside.keeps.tidy haddr
  obtain ⟨hfinal₁, L, hL, hstands₁, hf⟩ := hinside.exists_listing _ hfinal₂ hnew
  obtain ⟨hfinal, hstands⟩ := hfinal₁.of_writes henter hd haddr
  rw [henter.size_eq] at hL
  rw [hexit.size_eq]
  refine ⟨hfinal, _, .block hL, ?_, ?_⟩
  · simp only [Listing.entries_append, List.forall_mem_append]
    exact ⟨⟨hstands _, hstands₁⟩, hstands₂ _⟩
  · simpa [Spot.line, Stmt.emit] using hf

/-- **A condition is placed if its branches are**: both of its labels are bound in it, to the places
that its jumps are listed with. -/
theorem Stmt.places_ifElse {c : Expr} (haddr : Addressable τ code)
    (hbody : ∀ d : Draft, d.buffer.Tidy →
      d.Places τ code (Stmt.emitAll l.inBlock body d) (Stmt.ListedAll spot.inBlock body))
    (hotherwise : ∀ d : Draft, d.buffer.Tidy →
      d.Places τ code (Stmt.emitAll l otherwise d) (Stmt.ListedAll spot otherwise))
    (hd : d.buffer.Tidy) :
    d.Places τ code ((Stmt.ifElse c body otherwise).emit l d)
      ((Stmt.ifElse c body otherwise).Listed spot) := by
  obtain ⟨done, d₁, hmake⟩ : ∃ done d₁, d.newLabel = (done, d₁) := ⟨_, _, rfl⟩
  obtain ⟨next, d₂, htest⟩ : ∃ next d₂, d₁.test c = (next, d₂) := ⟨_, _, rfl⟩
  obtain ⟨d₃, hd₃⟩ : ∃ d₃, Stmt.emitAll l.inBlock body d₂ = d₃ := ⟨_, rfl⟩
  obtain ⟨d₄, hd₄⟩ : ∃ d₄, d₃.skip done = d₄ := ⟨_, rfl⟩
  obtain ⟨d₅, hd₅⟩ : ∃ d₅, Stmt.emitAll l otherwise (d₄.bind next) = d₅ := ⟨_, rfl⟩
  have hemit : (Stmt.ifElse c body otherwise).emit l d = d₅.bind done := by
    rw [← hd₅, ← hd₄, ← hd₃]
    cases hmake
    cases htest
    rfl
  -- Forwards through the states: what each part writes, and which labels are there behind it.
  obtain ⟨hw₁, hdone, hf₁⟩ := Draft.writes_newLabel (τ := τ) hd hmake
  obtain ⟨hw₂, hnext, hf₂⟩ := Draft.writes_test (τ := τ) hw₁.tidy htest
  have hw : Writes τ d.buffer d₂.buffer 2 (c.code ++ [.jumpIfFalse (τ next), .enterScope]) :=
    hw₁.trans hw₂
  rw [hw₁.size_labels] at hnext
  have hsize := hw.size_labels
  have h₃ := hbody d₂ hw₂.tidy
  rw [hd₃] at h₃
  have hle₃ := h₃.keeps.labels_le
  obtain ⟨hw₄, hf₄⟩ := Draft.writes_skip (τ := τ) h₃.keeps.tidy hd₄
  have hsize₄ := hw₄.size_labels
  have hbind : Keeps d₄.buffer (d₄.bind next).buffer [next] := hw₄.tidy.keeps_bind next
  have hle₄ := hbind.labels_le
  have h₅ := hotherwise (d₄.bind next) hbind.tidy
  rw [hd₅] at h₅
  have hle₅ := h₅.keeps.labels_le
  have hbind' : Keeps d₅.buffer (d₅.bind done).buffer [done] := h₅.keeps.tidy.keeps_bind done
  have hne : next ≠ done := fun heq ↦ by
    have := congrArg Label.id heq
    omega
  rw [hemit]
  refine ⟨?_, ?_, fun Bound hfinal₆ hnew ↦ ?_⟩
  · have hkeeps := hw.keeps.trans (h₃.keeps.trans (hw₄.keeps.trans
      (hbind.trans (h₅.keeps.trans hbind'))))
    refine hkeeps.of_new fun l hl ↦ ?_
    rcases List.mem_cons.1 hl with rfl | hl
    · omega
    · obtain rfl := List.mem_singleton.1 hl
      omega
  · have hmade : Binds d.buffer d₂.buffer [next, done] := hw.binds fun l hl hl' ↦ by
      rw [List.mem_cons, List.mem_singleton]
      rcases Nat.eq_or_lt_of_le hl with heq | hlt
      · exact .inr (congrArg Label.mk (by omega))
      · exact .inl (congrArg Label.mk (by omega))
    have hafter : Binds d.buffer (d₄.bind next).buffer [done] :=
      ((hmade.trans h₃.keeps h₃.binds).writes hw₄).bind (by omega)
    exact (hafter.trans h₅.keeps h₅.binds).bind (by omega)
  -- Backwards through the states: finished code is finished for each of them, so the offset of a
  -- label is known where it is bound.
  obtain ⟨hτdone, hfinal₅⟩ := hfinal₆.of_bind (hnew done (by omega)) (by omega)
  obtain ⟨hfinal₄', L', hL', hstands₄', hf₅⟩ := h₅.exists_listing _ hfinal₅ fun l hl ↦
    ⟨hnew l (by omega), fun heq ↦ by rw [heq] at hl; omega⟩
  obtain ⟨hτnext, hfinal₄⟩ := hfinal₄'.of_bind ⟨hnew next (by omega), hne⟩ (by omega)
  obtain ⟨hfinal₃, hstands₃⟩ := hfinal₄.of_writes hw₄ h₃.keeps.tidy haddr
  obtain ⟨hfinal₂, L, hL, hstands₂, hf₃⟩ := h₃.exists_listing _ hfinal₃ fun l hl ↦
    ⟨⟨hnew l (by omega), fun heq ↦ by rw [heq] at hl; omega⟩, fun heq ↦ by rw [heq] at hl; omega⟩
  obtain ⟨hfinal, hstands⟩ := hfinal₂.of_writes hw hd haddr
  have hotherwise' : Stmt.ListedAll spot otherwise (τ next) (τ done) L' := by
    rw [hτnext, hτdone]
    exact hL'
  rw [show (d₅.bind done).buffer.size = τ done from hτdone.symm]
  refine ⟨hfinal.mono fun l hl hb ↦ ⟨⟨hb, fun heq ↦ by rw [heq] at hl; omega⟩,
    fun heq ↦ by rw [heq] at hl; omega⟩, _,
    .ifElse hw.size_eq hL (hτnext.trans hw₄.size_eq) hotherwise', ?_, ?_⟩
  · simp only [Listing.entries_append, List.forall_mem_append]
    exact ⟨⟨⟨hstands _, hstands₂⟩, hstands₃ _⟩, hstands₄'⟩
  · simp [hf₅, hf₄, hf₃, hf₂, hf₁, Spot.line]

/-- **A loop is placed if its body is**, whatever its two labels are. -/
theorem Stmt.places_whileLoop {c : Expr} (haddr : Addressable τ code)
    (hbody : ∀ (again done : Label) (d : Draft), d.buffer.Tidy →
      d.Places τ code (Stmt.emitAll (l.inLoop again done).inBlock body d)
        (Stmt.ListedAll (spot.inLoop (τ again) (τ done)).inBlock body))
    (hd : d.buffer.Tidy) :
    d.Places τ code ((Stmt.whileLoop c body).emit l d) ((Stmt.whileLoop c body).Listed spot) := by
  obtain ⟨again, d₁, hmake⟩ : ∃ again d₁, d.newLabel = (again, d₁) := ⟨_, _, rfl⟩
  obtain ⟨done, d₂, htest⟩ : ∃ done d₂, (d₁.bind again).test c = (done, d₂) := ⟨_, _, rfl⟩
  obtain ⟨d₃, hd₃⟩ : ∃ d₃, Stmt.emitAll (l.inLoop again done).inBlock body d₂ = d₃ := ⟨_, rfl⟩
  obtain ⟨d₄, hd₄⟩ : ∃ d₄, d₃.skip again = d₄ := ⟨_, rfl⟩
  have hemit : (Stmt.whileLoop c body).emit l d = d₄.bind done := by
    rw [← hd₄, ← hd₃]
    cases hmake
    cases htest
    rfl
  -- Forwards: the first label is bound before the condition, the second behind the body.
  obtain ⟨hw₁, hagain, hf₁⟩ := Draft.writes_newLabel (τ := τ) hd hmake
  have hsize₁ := hw₁.size_labels
  have hbind : Keeps d₁.buffer (d₁.bind again).buffer [again] := hw₁.tidy.keeps_bind again
  have hsize : (d₁.bind again).buffer.labels.size = d₁.buffer.labels.size :=
    Array.size_setIfInBounds
  obtain ⟨hw₂, hdone, hf₂⟩ := Draft.writes_test (τ := τ) hbind.tidy htest
  have hsize₂ := hw₂.size_labels
  have h₃ := hbody again done d₂ hw₂.tidy
  rw [hd₃] at h₃
  have hle₃ := h₃.keeps.labels_le
  obtain ⟨hw₄, hf₄⟩ := Draft.writes_skip (τ := τ) h₃.keeps.tidy hd₄
  have hsize₄ := hw₄.size_labels
  have hbind' : Keeps d₄.buffer (d₄.bind done).buffer [done] := hw₄.tidy.keeps_bind done
  rw [hemit]
  refine ⟨?_, ?_, fun Bound hfinal₅ hnew ↦ ?_⟩
  · have hkeeps := hw₁.keeps.trans (hbind.trans (hw₂.keeps.trans (h₃.keeps.trans
      (hw₄.keeps.trans hbind'))))
    refine hkeeps.of_new fun l hl ↦ ?_
    rcases List.mem_cons.1 hl with rfl | hl
    · omega
    · obtain rfl := List.mem_singleton.1 hl
      omega
  · have hmade' : Binds d.buffer d₁.buffer [again] := hw₁.binds fun l hl hl' ↦
      List.mem_singleton.2 (congrArg Label.mk (by omega))
    have hmade : Binds d.buffer (d₁.bind again).buffer [] := hmade'.bind (by omega)
    have htest : Binds (d₁.bind again).buffer d₂.buffer [done] := hw₂.binds fun l hl hl' ↦
      List.mem_singleton.2 (congrArg Label.mk (by omega))
    exact (((hmade.trans hw₂.keeps htest).trans h₃.keeps h₃.binds).writes hw₄).bind (by omega)
  -- Backwards: the offsets of both labels come out of the states in which they are bound.
  obtain ⟨hτdone, hfinal₄⟩ := hfinal₅.of_bind (hnew done (by omega)) (by omega)
  obtain ⟨hfinal₃, hstands₃⟩ := hfinal₄.of_writes hw₄ h₃.keeps.tidy haddr
  obtain ⟨hfinal₂, L, hL, hstands₂, hf₃⟩ := h₃.exists_listing _ hfinal₃ fun l hl ↦
    ⟨hnew l (by omega), fun heq ↦ by rw [heq] at hl; omega⟩
  obtain ⟨hfinal₁', hstands₁⟩ := hfinal₂.of_writes hw₂ hbind.tidy haddr
  obtain ⟨hτagain, hfinal₁⟩ := hfinal₁'.of_bind ⟨hnew again (by omega), fun heq ↦ by
    have := congrArg Label.id heq
    omega⟩ (by omega)
  obtain ⟨hfinal, -⟩ := hfinal₁.of_writes hw₁ hd haddr
  have hstart : τ again = d.buffer.size := by
    rw [hτagain, hw₁.size_eq]
    rfl
  rw [show (d₄.bind done).buffer.size = τ done from hτdone.symm, ← hstart]
  refine ⟨hfinal.mono fun l hl hb ↦ ⟨⟨hb, fun heq ↦ by rw [heq] at hl; omega⟩,
    fun heq ↦ by rw [heq] at hl; omega⟩, _,
    .whileLoop (hw₂.size_eq.trans (by rw [hτagain]; rfl)) hL (hτdone.trans hw₄.size_eq), ?_, ?_⟩
  · rw [show (d₁.bind again).buffer.size = τ again from hτagain.symm] at hstands₁
    simp only [Listing.entries_append, List.forall_mem_append]
    exact ⟨⟨hstands₁ _, hstands₂⟩, hstands₃ _⟩
  · simp [hf₄, hf₃, hf₂, hf₁, Spot.line]

/-- At the end of a function, the instructions are written that its listing has there. -/
theorem Draft.writes_giveBackNothing (hd : d.buffer.Tidy) (head : Head) {d' : Draft}
    (h : (if bodyReturns body then d else d.giveBackNothing head.returns) = d') :
    Writes τ d.buffer d'.buffer 0 (head.closing body) ∧ d'.functions = d.functions := by
  rw [Head.closing]
  by_cases hreturns : bodyReturns body = true
  · rw [if_pos hreturns] at h ⊢
    cases h
    exact ⟨.nil hd, rfl⟩
  · rw [if_neg hreturns] at h ⊢
    cases h
    cases head.returns with
    | void => exact ⟨.emit hd _ (Nat.zero_le _), rfl⟩
    | any | typed type =>
      exact ⟨(Writes.emit hd .pushNull (Nat.zero_le _)).snoc (i := .ret) (Nat.zero_le _), rfl⟩

/-- **A function is placed if its body is**, and is entered in the table at the offset of its
body. -/
theorem Stmt.places_function {head : Head} (haddr : Addressable τ code)
    (hbody : ∀ d : Draft, d.buffer.Tidy →
      d.Places τ code (Stmt.emitAll (.body head.isTail) body d)
        (Stmt.ListedAll (.body head) body))
    (hd : d.buffer.Tidy) :
    d.Places τ code ((Stmt.function head body).emit l d)
      ((Stmt.function head body).Listed spot) := by
  obtain ⟨behind, d₁, hmake⟩ : ∃ behind d₁, d.newLabel = (behind, d₁) := ⟨_, _, rfl⟩
  obtain ⟨d₂, hd₂⟩ : ∃ d₂, d₁.jump .jump behind = d₂ := ⟨_, rfl⟩
  obtain ⟨d₃, hd₃⟩ : ∃ d₃, Stmt.emitAll (.body head.isTail) body (d₂.define head) = d₃ :=
    ⟨_, rfl⟩
  obtain ⟨d₄, hd₄⟩ : ∃ d₄,
    (if bodyReturns body then d₃ else d₃.giveBackNothing head.returns) = d₄ := ⟨_, rfl⟩
  have hemit : (Stmt.function head body).emit l d = d₄.bind behind := by
    rw [← hd₄, ← hd₃, ← hd₂]
    cases hmake
    rfl
  -- Forwards: the body is placed behind the jump that leads past it.
  obtain ⟨hw₁, hbehind, hf₁⟩ := Draft.writes_newLabel (τ := τ) hd hmake
  have hw : Writes τ d.buffer d₂.buffer 1 [.jump (τ behind)] := by
    rw [← hd₂]
    exact hw₁.trans (.jump hw₁.tidy behind)
  have hsize := hw.size_labels
  have h₃ := hbody (d₂.define head) hw.tidy
  rw [hd₃] at h₃
  have hle₃ : d₂.buffer.labels.size ≤ d₃.buffer.labels.size := h₃.keeps.labels_le
  obtain ⟨hw₄, hf₄⟩ := Draft.writes_giveBackNothing (τ := τ) h₃.keeps.tidy head hd₄
  have hsize₄ := hw₄.size_labels
  have hbind : Keeps d₄.buffer (d₄.bind behind).buffer [behind] := hw₄.tidy.keeps_bind behind
  rw [hemit]
  refine ⟨?_, ?_, fun Bound hfinal₅ hnew ↦ ?_⟩
  · have hkeeps := hw.keeps.trans (h₃.keeps.trans (hw₄.keeps.trans hbind))
    refine hkeeps.of_new fun l hl ↦ ?_
    obtain rfl := List.mem_singleton.1 hl
    omega
  · have hmade : Binds d.buffer (d₂.define head).buffer [behind] := hw.binds fun l hl hl' ↦
      List.mem_singleton.2 (congrArg Label.mk (by omega))
    exact ((hmade.trans h₃.keeps h₃.binds).writes hw₄).bind (by omega)
  -- Backwards: the jump goes where the label is bound, behind the body.
  obtain ⟨hτbehind, hfinal₄⟩ := hfinal₅.of_bind (hnew behind (by omega)) (by omega)
  obtain ⟨hfinal₃, hstands₃⟩ := hfinal₄.of_writes hw₄ h₃.keeps.tidy haddr
  obtain ⟨hfinal₂, L, hL, hstands₂, hf₃⟩ := h₃.exists_listing _ hfinal₃ fun l hl ↦ by
    have hle : d₂.buffer.labels.size ≤ l.id := hl
    exact ⟨hnew l (by omega), fun heq ↦ by rw [heq] at hle; omega⟩
  obtain ⟨hfinal, hstands⟩ := hfinal₂.of_writes hw hd haddr
  have hdefine : (d₂.define head).functions.toList =
      d.functions.toList ++ [Located.function ⟨head, body, d₂.buffer.size, τ behind⟩] := by
    rw [← hf₁, ← hd₂]
    exact Array.toList_push
  rw [show (d₄.bind behind).buffer.size = τ behind from hτbehind.symm]
  refine ⟨hfinal.mono fun l hl hb ↦ ⟨hb, fun heq ↦ by rw [heq] at hl; omega⟩, _,
    .function hw.size_eq hL (hτbehind.trans hw₄.size_eq), ?_, ?_⟩
  · simp only [Listing.entries_append, List.forall_mem_append]
    exact ⟨⟨⟨hstands _, by simp⟩, hstands₂⟩, hstands₃ _⟩
  · simp [hf₄, hf₃, hdefine, Spot.line]

end

mutual

/-- **The code of a statement stands where its listing says.** -/
theorem Stmt.places_emit (haddr : Addressable τ code) {l : Layout} {spot : Spot}
    (hl : l.Resolves τ spot) :
    ∀ (s : Stmt) (d : Draft), d.buffer.Tidy → d.Places τ code (s.emit l d) (s.Listed spot)
  | .ifElse _ body otherwise, _, hd =>
    places_ifElse haddr (places_emitAll haddr hl.inBlock body)
      (places_emitAll haddr hl otherwise) hd
  | .whileLoop _ body, _, hd =>
    places_whileLoop haddr
      (fun again done ↦ places_emitAll haddr (hl.inLoop again done).inBlock body) hd
  | .function head body, _, hd =>
    places_function haddr (places_emitAll haddr (.body head) body) hd
  | .block body, _, hd => places_block haddr (places_emitAll haddr hl.inBlock body) hd
  | .declare _ _ _ none, _, hd | .declare _ _ _ (some _), _, hd | .assign _ _, _, hd
  | .assignAt _ _ _, _, hd | .step _ _, _, hd | .breakLoop _, _, hd | .continueLoop, _, hd
  | .giveBack none, _, hd | .giveBack (some _), _, hd | .exit, _, hd | .unset _, _, hd
  | .uses _, _, hd | .eval _, _, hd => places_flat haddr hl rfl hd

/-- Some statements are placed, one behind the other. -/
theorem Stmt.places_emitAll (haddr : Addressable τ code) {l : Layout} {spot : Spot}
    (hl : l.Resolves τ spot) :
    ∀ (ss : List Stmt) (d : Draft), d.buffer.Tidy →
      d.Places τ code (Stmt.emitAll l ss d) (Stmt.ListedAll spot ss)
  | [], d, hd => by
    have hnil := Writes.nil (τ := τ) hd
    refine ⟨hnil.keeps, hnil.binds fun _ hl hl' ↦ absurd hl (by omega), fun Bound hfinal _ ↦ ?_⟩
    exact ⟨hfinal, _, .nil, by simp [Listing.empty], (List.append_nil _).symm⟩
  | s :: ss, d, hd => by
    have h := s.places_emit haddr hl d hd
    have hs := places_emitAll haddr (hl.after s) ss (s.emit l d) h.keeps.tidy
    have hle := h.keeps.labels_le
    refine ⟨h.keeps.trans hs.keeps, h.binds.trans hs.keeps hs.binds, fun Bound hfinal₂ hnew ↦ ?_⟩
    obtain ⟨hfinal₁, L', hL', hstands', hf'⟩ := hs.exists_listing _ hfinal₂ fun l hl ↦
      hnew l (by omega)
    obtain ⟨hfinal, L, hL, hstands, hf⟩ := h.exists_listing _ hfinal₁ hnew
    refine ⟨hfinal, _, .cons hL hL', ?_, ?_⟩
    · simp only [Listing.entries_append, List.forall_mem_append]
      exact ⟨hstands, hstands'⟩
    · rw [Stmt.emitAll, hf', hf]
      simp

end

end Scriptlet
