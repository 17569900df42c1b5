import Scriptlet.Proofs.Code.Assembly
import Scriptlet.Proofs.Tree.WithoutTail

/-!
# Code without `tail`

A program without `tail` has the same code, but for a call wherever there was a last call. The two
instructions are as long as each other, so **every offset stays**: labels, jumps and the table of
functions are the same, and the image can be assembled if the other one can.

There are two halves to this. `Draft.Twin` follows the code while it is written, where labels are
not bound yet; it says that the image exists. `Stmt.Listed.twin` compares two listings, where
offsets are known; it says which instructions the image holds.
-/

namespace Scriptlet

/-- The instruction, with a call in place of a last call. -/
def Instr.withoutTail : Instr → Instr
  | .tailCall name count => .call name count
  | i => i

/-- A call is as wide as a last call. -/
theorem Instr.width_withoutTail (i : Instr) : i.withoutTail.width = i.width := by
  cases i <;> rfl

theorem Instr.size_map_withoutTail (is : List Instr) :
    Instr.size (is.map Instr.withoutTail) = Instr.size is := by
  rw [Instr.size, Instr.size, List.map_map]
  exact congrArg List.sum (List.map_congr_left fun i _ ↦ i.width_withoutTail)

/-! ### Code under construction -/

/-- Two buffers that differ in their bytes at most. -/
structure Buffer.Twin (b b' : Buffer) : Prop where
  size : b'.size = b.size
  labels : b'.labels = b.labels
  sites : b'.sites = b.sites

namespace Buffer.Twin

variable {b b' : Buffer}

theorem refl (b : Buffer) : b.Twin b :=
  ⟨rfl, rfl, rfl⟩

/-- Bytes of the same number keep two buffers alike. -/
theorem append (h : b.Twin b') {bytes bytes' : List UInt8}
    (hlength : bytes'.length = bytes.length) :
    (b.append bytes).Twin (b'.append bytes') :=
  ⟨by rw [size_append, size_append, h.size, hlength], h.labels, h.sites⟩

/-- Instructions of the same width keep two buffers alike. -/
theorem emit (h : b.Twin b') {i i' : Instr} (hwidth : i'.width = i.width) :
    (b.emit i).Twin (b'.emit i') :=
  h.append hwidth

/-- Jumps to the same label wait at the same offset. -/
theorem jump (h : b.Twin b') (op : Opcode) (l : Label) : (b.jump op l).Twin (b'.jump op l) := by
  have hop : (b.op op).Twin (b'.op op) := h.append rfl
  refine ⟨(hop.append rfl).size, h.labels, ?_⟩
  rw [Buffer.jump, Buffer.jump]
  simp only [hop.sites, hop.size]

theorem bind (h : b.Twin b') (l : Label) : (b.bind l).Twin (b'.bind l) := by
  refine ⟨h.size, ?_, h.sites⟩
  rw [Buffer.bind, Buffer.bind]
  simp only [h.labels, h.size]

end Buffer.Twin

mutual

/-- The code of an expression is the same in both. -/
theorem Expr.twin_emit {b b' : Buffer} (h : b.Twin b') : ∀ e : Expr, (e.emit b).Twin (e.emit b')
  | .int _ | .float _ | .str _ | .bool _ | .null | .var _ => h.emit rfl
  | .call _ args => (Expr.twin_emitAll h args).emit rfl
  | .list items => (Expr.twin_emitAll h items).emit rfl
  | .unary _ e => (e.twin_emit h).emit rfl
  | .binary _ left right => (right.twin_emit (left.twin_emit h)).emit rfl
  | .index container i => (i.twin_emit (container.twin_emit h)).emit rfl
  | .slice container start stop =>
    (stop.twin_emit (start.twin_emit (container.twin_emit h))).emit rfl

theorem Expr.twin_emitAll {b b' : Buffer} (h : b.Twin b') :
    ∀ es : List Expr, (Expr.emitAll es b).Twin (Expr.emitAll es b')
  | [] => h
  | e :: es => Expr.twin_emitAll (e.twin_emit h) es

end

/-- A value that is given back takes the same room, with a last call or without. -/
theorem Expr.twin_emitLast {b b' : Buffer} (h : b.Twin b') (isTail : Bool) (e : Expr) :
    (e.emitLast isTail b).Twin (e.emitLast false b') := by
  cases isTail with
  | false => exact e.twin_emit h
  | true =>
    cases e with
    | call name args => exact (Expr.twin_emitAll h args).emit rfl
    | _ => exact Expr.twin_emit h _

/-- Two drafts that differ in their bytes at most. -/
structure Draft.Twin (d d' : Draft) : Prop where
  buffer : d.buffer.Twin d'.buffer
  functions : d'.functions = d.functions

namespace Draft.Twin

variable {d d' : Draft}

theorem emit (h : d.Twin d') (i : Instr) : (d.emit i).Twin (d'.emit i) :=
  ⟨h.buffer.emit rfl, h.functions⟩

theorem expr (h : d.Twin d') (e : Expr) : (d.expr e).Twin (d'.expr e) :=
  ⟨e.twin_emit h.buffer, h.functions⟩

theorem lastExpr (h : d.Twin d') (isTail : Bool) (e : Expr) :
    (d.lastExpr isTail e).Twin (d'.lastExpr false e) :=
  ⟨e.twin_emitLast h.buffer isTail, h.functions⟩

theorem bind (h : d.Twin d') (l : Label) : (d.bind l).Twin (d'.bind l) :=
  ⟨h.buffer.bind l, h.functions⟩

theorem jump (h : d.Twin d') (op : Opcode) (l : Label) : (d.jump op l).Twin (d'.jump op l) :=
  ⟨h.buffer.jump op l, h.functions⟩

/-- The same label is made in both. -/
theorem exists_newLabel (h : d.Twin d') :
    ∃ l d₁ d₁', d.newLabel = (l, d₁) ∧ d'.newLabel = (l, d₁') ∧ d₁.Twin d₁' := by
  refine ⟨⟨d.buffer.labels.size⟩, _, { d' with buffer := d'.buffer.newLabel.2 }, rfl, ?_,
    ⟨h.buffer.size, congrArg (·.push none) h.buffer.labels, h.buffer.sites⟩, h.functions⟩
  rw [newLabel, Buffer.newLabel, h.buffer.labels]

theorem exitScopes (h : d.Twin d') (count : Nat) :
    (d.exitScopes count).Twin (d'.exitScopes count) := by
  induction count generalizing d d' with
  | zero => exact h
  | succ count ih => exact ih (h.emit _)

/-- Functions are entered at the same offsets. -/
theorem define (h : d.Twin d') (head : Head) :
    (d.define head).Twin (d'.define head.withoutTail) := by
  refine ⟨h.buffer, ?_⟩
  rw [Draft.define, Draft.define]
  simp only [h.functions, h.buffer.size, Head.withoutTail]

theorem giveBackNothing (h : d.Twin d') (returns : Returns) :
    (d.giveBackNothing returns).Twin (d'.giveBackNothing returns) := by
  cases returns with
  | void => exact h.emit _
  | any | typed => exact (h.emit _).emit _

end Draft.Twin

/-- A layout in which no function asks for anything. -/
def Layout.withoutTail (l : Layout) : Layout :=
  { l with isTail := false }

theorem Stmt.endsInReturn_withoutTail (before : Bool) (s : Stmt) :
    s.withoutTail.endsInReturn before = s.endsInReturn before := by
  cases s <;> rfl

/-- Without `tail`, a body ends with a `return` just if it did before. -/
theorem bodyReturns_withoutTail (body : List Stmt) :
    bodyReturns (Stmt.withoutTailAll body) = bodyReturns body := by
  have hfold (before : Bool) : (Stmt.withoutTailAll body).foldl Stmt.endsInReturn before =
      body.foldl Stmt.endsInReturn before := by
    induction body generalizing before with
    | nil => rfl
    | cons s ss ih =>
      rw [Stmt.withoutTailAll, List.foldl_cons, List.foldl_cons, s.endsInReturn_withoutTail, ih]
  exact hfold false

mutual

/-- **With `tail` and without, a statement has the same labels, sites and offsets.** -/
theorem Stmt.twin_emit (l : Layout) : ∀ (s : Stmt) {d d' : Draft}, d.Twin d' →
    (s.emit l d).Twin (s.withoutTail.emit l.withoutTail d')
  | .declare _ _ _ (some _), _, _, h => (h.expr _).emit _
  | .declare _ _ _ none, _, _, h => (h.emit _).emit _
  | .assign _ _, _, _, h => (h.expr _).emit _
  | .assignAt _ _ _, _, _, h => ((h.expr _).expr _).emit _
  | .step _ _, _, _, h => (((h.emit _).emit _).emit _).emit _
  | .ifElse c body otherwise, _, _, h => by
    -- Both drafts make the same labels, since they have made as many before.
    obtain ⟨done, d₁, d₁', hmake, hmake', h₁⟩ := h.exists_newLabel
    obtain ⟨next, d₂, d₂', hmake₂, hmake₂', h₂⟩ := (h₁.expr c).exists_newLabel
    rw [Stmt.withoutTail, Stmt.emit, Stmt.emit]
    simp only [hmake, hmake', hmake₂, hmake₂']
    have hbody := Stmt.twin_emitAll l.inBlock body ((h₂.jump .jumpIfFalse next).emit .enterScope)
    exact (Stmt.twin_emitAll l otherwise (((hbody.emit _).jump _ _).bind _)).bind _
  | .whileLoop c body, _, _, h => by
    obtain ⟨again, d₁, d₁', hmake, hmake', h₁⟩ := h.exists_newLabel
    obtain ⟨done, d₂, d₂', hmake₂, hmake₂', h₂⟩ := ((h₁.bind again).expr c).exists_newLabel
    rw [Stmt.withoutTail, Stmt.emit, Stmt.emit]
    simp only [hmake, hmake', hmake₂, hmake₂']
    have hbody := Stmt.twin_emitAll (l.inLoop again done).inBlock body
      ((h₂.jump .jumpIfFalse done).emit .enterScope)
    exact ((hbody.emit _).jump _ _).bind _
  | .breakLoop depth, _, _, h => by
    have hloop : l.withoutTail.loop? depth = l.loop? depth := by cases depth <;> rfl
    change (Stmt.emit l _ _).Twin (Stmt.emit l.withoutTail (.breakLoop depth) _)
    rw [Stmt.emit, Stmt.emit, hloop]
    split
    · exact (h.exitScopes _).jump _ _
    · exact h
  | .continueLoop, _, _, h => by
    have hloop : l.withoutTail.loop? 1 = l.loop? 1 := rfl
    change (Stmt.emit l _ _).Twin (Stmt.emit l.withoutTail .continueLoop _)
    rw [Stmt.emit, Stmt.emit, hloop]
    split
    · exact (h.exitScopes _).jump _ _
    · exact h
  | .function head body, _, _, h => by
    obtain ⟨behind, d₁, d₁', hmake, hmake', h₁⟩ := h.exists_newLabel
    rw [Stmt.withoutTail, Stmt.emit, Stmt.emit]
    simp only [hmake, hmake', bodyReturns_withoutTail]
    have hbody := Stmt.twin_emitAll (.body head.isTail) body ((h₁.jump .jump behind).define head)
    refine Draft.Twin.bind ?_ behind
    split
    · exact hbody
    · exact hbody.giveBackNothing _
  | .giveBack none, _, _, h => h.emit _
  | .giveBack (some _), _, _, h => (h.lastExpr _ _).emit _
  | .exit, _, _, h => h.emit _
  | .unset _, _, _, h => h.emit _
  | .uses _, _, _, h => h
  | .block body, _, _, h => (Stmt.twin_emitAll l.inBlock body (h.emit _)).emit _
  | .eval _, _, _, h => (h.expr _).emit _

/-- With `tail` and without, some statements have the same labels, sites and offsets. -/
theorem Stmt.twin_emitAll (l : Layout) : ∀ (ss : List Stmt) {d d' : Draft}, d.Twin d' →
    (Stmt.emitAll l ss d).Twin (Stmt.emitAll l.withoutTail (Stmt.withoutTailAll ss) d')
  | [], _, _, h => h
  | s :: ss, _, _, h => Stmt.twin_emitAll l ss (s.twin_emit l h)

end

/-- With `tail` and without, a program has the same labels, sites and offsets. -/
theorem Program.twin_draft (p : Program) : p.draft.Twin (Program.draft (Stmt.withoutTailAll p)) :=
  Stmt.twin_emitAll .top p ⟨.refl _, rfl⟩

/-- Whether the targets of jumps can be written depends on the labels only. -/
theorem Buffer.exists_patchSites {sites : List Site} {b b' b₁ : Buffer}
    (hlabels : b'.labels = b.labels) (h : patchSites sites b = (.ok (), b₁)) :
    ∃ b₁', patchSites sites b' = (.ok (), b₁') := by
  induction sites generalizing b b' with
  | nil => exact ⟨b', rfl⟩
  | cons s sites ih =>
    have htarget : b'.target? s.label = b.target? s.label := by
      rw [target?, target?, hlabels]
    rw [patchSites] at h ⊢
    rw [htarget]
    split at h
    · cases h
    · refine ih ?_ h
      rw [patch, patch]
      exact hlabels

/-- An image is assembled from a buffer if one is from another that differs in its bytes at most. -/
theorem Buffer.Twin.exists_assemble {b b' : Buffer} (h : b.Twin b') {fs : List Function}
    {image : Image} (hassemble : Image.assemble b fs = .ok image) :
    ∃ image', Image.assemble b' fs = .ok image' ∧ image'.functions = image.functions ∧
      image'.bytes.size = image.bytes.size := by
  obtain ⟨b₁, hpatch, -⟩ := Image.assemble_eq_ok.1 hassemble
  have hlabels : (b'.withTable fs).labels = (b.withTable fs).labels := by
    rw [labels_withTable, labels_withTable, h.labels]
  have hsize : (b'.withTable fs).bytes.size = (b.withTable fs).bytes.size := by
    rw [← Buffer.size, ← Buffer.size, size_withTable, size_withTable, h.size]
  obtain ⟨b₁', hpatch'⟩ : ∃ b₁', patchSites b'.sites { b'.withTable fs with sites := [] } =
      (.ok (), b₁') := by
    generalize b'.withTable fs = t' at hlabels
    generalize b.withTable fs = t at hlabels hpatch
    rw [h.sites]
    refine exists_patchSites ?_ hpatch
    exact hlabels
  have hassemble' := Image.assemble_eq_ok.2 ⟨b₁', hpatch', rfl⟩
  refine ⟨_, hassemble', ?_, ?_⟩
  · rw [Image.bytes_of_assemble hassemble]
  · rw [Image.bytes_of_assemble hassemble, Image.bytes_of_assemble hassemble']
    simp only [size_fill, hsize]

/-- **A program without `tail` can be assembled** if the program can, with the same functions. -/
theorem Program.exists_assemble_withoutTail {p : Program} {stop : Span} {image : Image}
    (h : p.assemble stop = .ok image) (stop' : Span) :
    ∃ image', Program.assemble (Stmt.withoutTailAll p) stop' = .ok image' ∧
      image'.functions = image.functions := by
  obtain ⟨hassemble, hsize⟩ := Program.assemble_eq_ok.1 h
  obtain ⟨image', hassemble', hfunctions, hsize'⟩ := p.twin_draft.buffer.exists_assemble hassemble
  rw [← p.twin_draft.functions] at hassemble'
  exact ⟨image', Program.assemble_eq_ok.2 ⟨hassemble', hsize' ▸ hsize⟩, hfunctions⟩

/-! ### Listings -/

mutual

/-- An expression has no last calls. -/
theorem Expr.map_withoutTail_code : ∀ e : Expr, e.code.map Instr.withoutTail = e.code
  | .int _ | .float _ | .str _ | .bool _ | .null | .var _ => rfl
  | .call _ args => by simp [Expr.code, map_withoutTail_codeAll args, Instr.withoutTail]
  | .list items => by simp [Expr.code, map_withoutTail_codeAll items, Instr.withoutTail]
  | .unary _ e => by simp [Expr.code, e.map_withoutTail_code, Instr.withoutTail]
  | .binary _ left right => by
    simp [Expr.code, left.map_withoutTail_code, right.map_withoutTail_code, Instr.withoutTail]
  | .index container i => by
    simp [Expr.code, container.map_withoutTail_code, i.map_withoutTail_code, Instr.withoutTail]
  | .slice container start stop => by
    simp [Expr.code, container.map_withoutTail_code, start.map_withoutTail_code,
      stop.map_withoutTail_code, Instr.withoutTail]

theorem Expr.map_withoutTail_codeAll : ∀ es : List Expr,
    (Expr.codeAll es).map Instr.withoutTail = Expr.codeAll es
  | [] => rfl
  | e :: es => by simp [Expr.codeAll, e.map_withoutTail_code, map_withoutTail_codeAll es]

end

/-- Without its last call, a value that is given back is written as any other. -/
theorem Expr.map_withoutTail_lastCode (isTail : Bool) (e : Expr) :
    (e.lastCode isTail).map Instr.withoutTail = e.code := by
  cases isTail with
  | false => exact e.map_withoutTail_code
  | true =>
    cases e with
    | call name args =>
      simp [Expr.lastCode, Expr.code, Expr.map_withoutTail_codeAll, Instr.withoutTail]
    | _ => exact Expr.map_withoutTail_code _

/-- Two spots that differ in the offsets of loops at most, the second one in a body whose last calls
do not take its place. -/
structure Spot.Twin (spot spot' : Spot) : Prop where
  blocks : spot'.blocks = spot.blocks
  isTail : spot'.isTail = false
  loops : spot'.loops.map Loop.blocks = spot.loops.map Loop.blocks

namespace Spot.Twin

variable {spot spot' : Spot}

theorem inBlock (h : spot.Twin spot') : spot.inBlock.Twin spot'.inBlock :=
  ⟨congrArg ([] :: ·) h.blocks, h.isTail, h.loops⟩

/-- Loops are entered together; their ends may differ. -/
theorem inLoop (h : spot.Twin spot') (again done done' : Nat) :
    (spot.inLoop again done).Twin (spot'.inLoop again done') := by
  refine ⟨h.blocks, h.isTail, ?_⟩
  rw [Spot.inLoop, Spot.inLoop, List.map_cons, List.map_cons, h.loops, h.blocks]

/-- Statements add the same names to both. -/
theorem after (h : spot.Twin spot') (s : Stmt) :
    (spot.after s).Twin (spot'.after s.withoutTail) := by
  cases s with
  | declare isConst type name init =>
    exact ⟨congrArg (List.modifyHead (name :: ·)) h.blocks, h.isTail, h.loops⟩
  | _ => exact h

theorem body (head : Head) : (Spot.body head).Twin (Spot.body head.withoutTail) :=
  ⟨rfl, rfl, rfl⟩

end Spot.Twin

/-- A statement without parts has no function to take `tail` from. -/
theorem Stmt.withoutTail_of_flat? {s : Stmt} {spot : Spot} {is : List Instr}
    (h : s.flat? spot = some is) : s.withoutTail = s := by
  cases s with
  | ifElse | whileLoop | function | block => cases h
  | _ => rfl

/-- With the same loops, the instructions are the same but for last calls. -/
theorem Stmt.flat?_withoutTail {spot spot' : Spot} (s : Stmt) (hblocks : spot'.blocks = spot.blocks)
    (htail : spot'.isTail = false) (hloops : spot'.loops = spot.loops) :
    s.flat? spot' = (s.flat? spot).map (List.map Instr.withoutTail) := by
  have hleave (loop : Loop) (target : Nat) :
      spot'.leave loop target = (spot.leave loop target).map Instr.withoutTail := by
    simp [Spot.leave, hblocks, Instr.withoutTail]
  have hloop (depth : Nat) : spot'.loop? depth = spot.loop? depth := by
    cases depth with
    | zero => rfl
    | succ depth => rw [Spot.loop?, Spot.loop?, hloops]
  -- Only a `return` can have a last call; all other code is that of expressions, or leaves blocks.
  cases s with
  | declare isConst type name init =>
    cases init with
    | none => cases type <;> rfl
    | some e => simp [Stmt.flat?, e.map_withoutTail_code, Instr.withoutTail]
  | assign name e | eval e => simp [Stmt.flat?, e.map_withoutTail_code, Instr.withoutTail]
  | assignAt name i e =>
    simp [Stmt.flat?, i.map_withoutTail_code, e.map_withoutTail_code, Instr.withoutTail]
  | breakLoop depth =>
    rw [Stmt.flat?, Stmt.flat?, hloop, Option.map_some]
    cases spot.loop? depth with
    | none => rfl
    | some loop => exact congrArg some (hleave loop loop.done)
  | continueLoop =>
    rw [Stmt.flat?, Stmt.flat?, hloop, Option.map_some]
    cases spot.loop? 1 with
    | none => rfl
    | some loop => exact congrArg some (hleave loop loop.again)
  | giveBack value =>
    cases value with
    | none => rfl
    | some e =>
      have hcode : e.lastCode false = e.code := by cases e <;> rfl
      simp [Stmt.flat?, htail, hcode, e.map_withoutTail_lastCode, Instr.withoutTail]
  | _ => rfl

/-- The room that it takes to leave a loop depends on the number of blocks. -/
theorem Spot.size_leave (spot : Spot) (loop : Loop) (target : Nat) :
    Instr.size (spot.leave loop target) =
      (spot.blocks.length - loop.blocks.length) * Instr.exitScope.width +
        Instr.width (.jump 0) := by
  simp [Spot.leave, Instr.size]
  rfl

/-- A last call takes the room of a call. -/
theorem Expr.size_lastCode (isTail : Bool) (e : Expr) :
    Instr.size (e.lastCode isTail) = Instr.size e.code := by
  rw [← e.map_withoutTail_lastCode isTail, Instr.size_map_withoutTail]

/-- Wherever loops begin and end, and whatever takes the place of last calls, the instructions take
the same room. -/
theorem Stmt.map_size_flat? {spot spot' : Spot} (s : Stmt) (hblocks : spot'.blocks = spot.blocks)
    (hloops : spot'.loops.map Loop.blocks = spot.loops.map Loop.blocks) :
    (s.flat? spot').map Instr.size = (s.flat? spot).map Instr.size := by
  have hloop (depth : Nat) :
      (spot'.loop? depth).map Loop.blocks = (spot.loop? depth).map Loop.blocks := by
    cases depth with
    | zero => rfl
    | succ depth =>
      rw [Spot.loop?, Spot.loop?, ← List.getElem?_map, ← List.getElem?_map, hloops]
  have hleave (depth : Nat) (target : Loop → Nat) :
      Instr.size ((spot'.loop? depth).elim [] fun loop ↦ spot'.leave loop (target loop)) =
        Instr.size ((spot.loop? depth).elim [] fun loop ↦ spot.leave loop (target loop)) := by
    have hsame := hloop depth
    generalize spot'.loop? depth = found' at hsame
    generalize spot.loop? depth = found at hsame
    cases found with
    | none =>
      rw [Option.map_none, Option.map_eq_none_iff] at hsame
      rw [hsame]
      rfl
    | some loop =>
      rw [Option.map_some, Option.map_eq_some_iff] at hsame
      obtain ⟨loop', rfl, hsame⟩ := hsame
      rw [Option.elim, Option.elim, Spot.size_leave, Spot.size_leave, hblocks, hsame]
  -- The targets of jumps out of loops may differ, but not the number of blocks that are left.
  cases s with
  | breakLoop depth => exact congrArg some (hleave depth Loop.done)
  | continueLoop => exact congrArg some (hleave 1 Loop.again)
  | declare isConst type name init => cases init <;> rfl
  | giveBack value =>
    cases value with
    | none => rfl
    | some e =>
      simp only [Stmt.flat?, Option.map_some, Instr.size_append, Expr.size_lastCode]
  | _ => rfl

/-- A listing has the instructions of another at the same offsets, but for last calls. -/
def Listing.Mirrors (L L' : Listing) : Prop :=
  L'.entries.map (fun e ↦ (e.offset, e.instr)) =
    L.entries.map fun e ↦ (e.offset, e.instr.withoutTail)

namespace Listing.Mirrors

variable {L₁ L₂ L₁' L₂' : Listing}

/-- Listings one after the other mirror each other. -/
theorem append (h : L₁.Mirrors L₁') (h' : L₂.Mirrors L₂') : (L₁ ++ L₂).Mirrors (L₁' ++ L₂') := by
  rw [Mirrors, entries_append, entries_append, List.map_append, List.map_append, h, h']

/-- Instructions in a row are mirrored, whatever is known at them. -/
theorem entriesOf (offset : Nat) (p p' : Point) (is : List Instr) :
    (Scriptlet.entriesOf offset p' (is.map Instr.withoutTail)).map (fun e ↦ (e.offset, e.instr)) =
      (Scriptlet.entriesOf offset p is).map fun e ↦ (e.offset, e.instr.withoutTail) := by
  induction is generalizing offset p p' with
  | nil => rfl
  | cons i is ih =>
    rw [List.map_cons, Scriptlet.entriesOf, Scriptlet.entriesOf, List.map_cons, List.map_cons,
      i.width_withoutTail, ih _ (p.after i)]

theorem line (spot spot' : Spot) (offset : Nat) {is is' : List Instr}
    (his : is' = is.map Instr.withoutTail) :
    (spot.line offset is).Mirrors (spot'.line offset is') :=
  his ▸ entriesOf offset spot.point spot'.point is

theorem of_functions (fs fs' : List Located) : Listing.Mirrors ⟨[], fs⟩ ⟨[], fs'⟩ :=
  rfl

/-- Each line has its counterpart, at the same offset. -/
theorem exists_entry (h : L₁.Mirrors L₁') {e : Entry} (he : e ∈ L₁.entries) :
    ∃ e' ∈ L₁'.entries, e'.offset = e.offset ∧ e'.instr = e.instr.withoutTail := by
  have hmem : (e.offset, e.instr.withoutTail) ∈
      L₁'.entries.map fun e' ↦ (e'.offset, e'.instr) := by
    rw [h]
    exact List.mem_map_of_mem he
  obtain ⟨e', he', heq⟩ := List.mem_map.1 hmem
  rw [Prod.mk.injEq] at heq
  exact ⟨e', he', heq⟩

end Listing.Mirrors

/-- A test takes the same room wherever it jumps. -/
theorem Expr.size_test (c : Expr) (target target' : Nat) :
    Instr.size (c.code ++ [.jumpIfFalse target, .enterScope]) =
      Instr.size (c.code ++ [.jumpIfFalse target', .enterScope]) := by
  rw [Instr.size_append, Instr.size_append]
  rfl

theorem Instr.size_skip (target target' : Nat) :
    Instr.size [.exitScope, .jump target] = Instr.size [.exitScope, .jump target'] :=
  rfl

theorem Expr.map_withoutTail_test (c : Expr) (target : Nat) :
    (c.code ++ [Instr.jumpIfFalse target, .enterScope]).map Instr.withoutTail =
      c.code ++ [.jumpIfFalse target, .enterScope] := by
  simp [c.map_withoutTail_code, Instr.withoutTail]

theorem Spot.loops_after (spot : Spot) (s : Stmt) : (spot.after s).loops = spot.loops := by
  cases s <;> rfl

/-- The end of a function is the same without `tail`. -/
theorem Head.closing_withoutTail (head : Head) (body : List Stmt) :
    head.withoutTail.closing (Stmt.withoutTailAll body) = head.closing body := by
  rw [Head.closing, Head.closing, bodyReturns_withoutTail]
  rfl

theorem Head.map_withoutTail_closing (head : Head) (body : List Stmt) :
    (head.closing body).map Instr.withoutTail = head.closing body := by
  rw [Head.closing]
  split
  · rfl
  · split <;> rfl

mutual

/-- The code of a statement without `tail` stops at the same offset. Where loops begin and end at
the same offsets too, it mirrors the code of the statement. -/
theorem Stmt.Listed.twin {spot spot' : Spot} {s : Stmt} {start stop stop' : Nat} {L L' : Listing}
    (hspot : spot.Twin spot') : s.Listed spot start stop L →
      s.withoutTail.Listed spot' start stop' L' →
      stop' = stop ∧ (spot'.loops = spot.loops → L.Mirrors L')
  | .flat h, h' => by
    rw [Stmt.withoutTail_of_flat? h] at h'
    have hsize := s.map_size_flat? hspot.blocks hspot.loops
    cases h' with
    | flat h' =>
      rw [h, h'] at hsize
      refine ⟨congrArg (start + ·) (Option.some.inj hsize), fun hloops ↦ ?_⟩
      have hsame := s.flat?_withoutTail hspot.blocks hspot.isTail hloops
      rw [h, h', Option.map_some] at hsame
      exact .line _ _ _ (Option.some.inj hsame)
    | _ => cases h
  | @Stmt.Listed.ifElse _ c body otherwise _ p q next _ L₁ L₂ hp hbody hnext hotherwise, h' => by
    rw [Stmt.withoutTail] at h'
    cases h' with
    | flat h => cases h
    | @ifElse _ _ _ _ _ p' q' next' _ L₁' L₂' hp' hbody' hnext' hotherwise' =>
      obtain rfl : p' = p := by rw [hp, hp', c.size_test]
      obtain ⟨rfl, hmirrors⟩ := hbody.twin hspot.inBlock hbody'
      obtain rfl : next' = next := by rw [hnext, hnext', Instr.size_skip]
      obtain ⟨rfl, hmirrors'⟩ := hotherwise.twin hspot hotherwise'
      exact ⟨rfl, fun hloops ↦ (((Listing.Mirrors.line _ _ _ (c.map_withoutTail_test _).symm).append
        (hmirrors hloops)).append (.line _ _ _ rfl)).append (hmirrors' hloops)⟩
  | @Stmt.Listed.whileLoop _ c body _ p q stop L₁ hp hbody hstop, h' => by
    rw [Stmt.withoutTail] at h'
    cases h' with
    | flat h => cases h
    | @whileLoop _ _ _ _ p' q' stop' L₁' hp' hbody' hstop' =>
      obtain rfl : p' = p := by rw [hp, hp', c.size_test]
      -- Where the body stops does not depend on where the loop does.
      obtain ⟨rfl, hmirrors⟩ := hbody.twin (hspot.inLoop start stop stop').inBlock hbody'
      obtain rfl : stop' = stop := by rw [hstop, hstop']
      refine ⟨rfl, fun hloops ↦ ((Listing.Mirrors.line _ _ _ (c.map_withoutTail_test _).symm).append
        (hmirrors ?_)).append (.line _ _ _ rfl)⟩
      rw [Spot.inLoop, Spot.inLoop, Spot.inBlock, Spot.inBlock, hloops, hspot.blocks]
  | @Stmt.Listed.function _ head body _ p q _ L₁ hp hbody hstop, h' => by
    rw [Stmt.withoutTail] at h'
    cases h' with
    | flat h => cases h
    | @function _ _ _ _ p' q' _ L₁' hp' hbody' hstop' =>
      obtain rfl : p' = p := hp'.trans hp.symm
      obtain ⟨rfl, hmirrors⟩ := hbody.twin (.body head) hbody'
      rw [head.closing_withoutTail] at hstop'
      obtain rfl := hstop'.trans hstop.symm
      refine ⟨rfl, fun _ ↦ (((Listing.Mirrors.line _ _ _ rfl).append (.of_functions _ _)).append
        (hmirrors rfl)).append (.line _ _ _ ?_)⟩
      rw [head.closing_withoutTail, head.map_withoutTail_closing]
  | .block hbody, h' => by
    rw [Stmt.withoutTail] at h'
    cases h' with
    | flat h => cases h
    | block hbody' =>
      obtain ⟨rfl, hmirrors⟩ := hbody.twin hspot.inBlock hbody'
      exact ⟨rfl, fun hloops ↦ ((Listing.Mirrors.line _ _ _ rfl).append (hmirrors hloops)).append
        (.line _ _ _ rfl)⟩

/-- The listings of some statements, with `tail` and without, end at the same offset and mirror each
other. -/
theorem Stmt.ListedAll.twin {spot spot' : Spot} {ss : List Stmt} {start stop stop' : Nat}
    {L L' : Listing} (hspot : spot.Twin spot') : Stmt.ListedAll spot ss start stop L →
      Stmt.ListedAll spot' (Stmt.withoutTailAll ss) start stop' L' →
      stop' = stop ∧ (spot'.loops = spot.loops → L.Mirrors L')
  | .nil, h' => by
    cases h'
    exact ⟨rfl, fun _ ↦ rfl⟩
  | .cons h hs, h' => by
    rw [Stmt.withoutTailAll] at h'
    cases h' with
    | cons h' hs' =>
      obtain ⟨rfl, hmirrors⟩ := h.twin hspot h'
      obtain ⟨rfl, hmirrors'⟩ := hs.twin (hspot.after _) hs'
      refine ⟨rfl, fun hloops ↦ (hmirrors hloops).append (hmirrors' ?_)⟩
      rw [Spot.loops_after, Spot.loops_after, hloops]

end

/-- **The image of a program without `tail`** has the functions of the program, and the same
instructions at the same offsets but for last calls. -/
theorem Image.Lists.exists_withoutTail {image : Image} {p : Program} {L : Listing} {stop : Span}
    (h : image.Lists p L) (hassemble : p.assemble stop = .ok image) (stop' : Span) :
    ∃ image', Program.assemble (Stmt.withoutTailAll p) stop' = .ok image' ∧
      image'.functions = image.functions ∧ image'.mainEntry = image.mainEntry ∧
      image'.code.size = image.code.size ∧
      ∀ e ∈ L.entries, Entry.Stands image'.code { e with instr := e.instr.withoutTail } := by
  obtain ⟨image', hassemble', hfunctions⟩ := Program.exists_assemble_withoutTail hassemble stop'
  obtain ⟨L', h'⟩ := Program.exists_lists hassemble'
  obtain ⟨hsize, hmirrors⟩ := h.listed.twin ⟨rfl, rfl, rfl⟩ h'.listed
  refine ⟨image', hassemble', hfunctions, h'.mainEntry.trans h.mainEntry.symm, hsize, fun e he ↦ ?_⟩
  obtain ⟨e', he', hoffset, hinstr⟩ := (hmirrors rfl).exists_entry he
  have hstands := h'.stands e' he'
  rwa [Entry.Stands, Entry.next, hoffset, hinstr] at hstands

end Scriptlet
