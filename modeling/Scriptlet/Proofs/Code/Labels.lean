import Scriptlet.Proofs.Code.Patching
import Scriptlet.Proofs.Tree.OpenBlocks

/-!
# Every jump gets its target

The code of a statement makes labels, jumps to them and to those of the loops around it, and binds
all labels that it made. So when a whole program is written, **every site waits for a label that is
bound**, and assembling its image cannot fail at a jump. With what is known about open blocks, no
program is refused for a fault that is not in its text.
-/

namespace Scriptlet

open Code (Spells)

/-! ### Sites wait for labels that were made -/

/-- A neat buffer whose sites wait for labels that were made. -/
structure Buffer.Sited (b : Buffer) : Prop where
  neat : b.Neat
  label_lt : ∀ s ∈ b.sites, s.label.id < b.labels.size

namespace Buffer.Sited

variable {b : Buffer}

/-- A new buffer has no sites. -/
theorem new : Buffer.new.Sited :=
  ⟨.new, by simp [Buffer.new]⟩

theorem append (h : b.Sited) (xs : List UInt8) : (b.append xs).Sited :=
  ⟨h.neat.append xs, h.label_lt⟩

/-- A label that was made is one more that sites may wait for. -/
theorem newLabel (h : b.Sited) : b.newLabel.2.Sited := by
  refine ⟨h.neat.edit .newLabel, fun s hs ↦ ?_⟩
  rw [Buffer.newLabel, Array.size_push]
  exact Nat.lt_succ_of_lt (h.label_lt s hs)

theorem bind (h : b.Sited) (l : Label) : (b.bind l).Sited := by
  refine ⟨h.neat.edit (.bind l), fun s hs ↦ ?_⟩
  rw [Buffer.bind, Array.size_setIfInBounds]
  exact h.label_lt s hs

/-- A jump leaves a site that waits for its label. -/
theorem jump (h : b.Sited) (op : Opcode) {l : Label} (hl : l.id < b.labels.size) :
    (b.jump op l).Sited := by
  refine ⟨h.neat.jump op l, fun s hs ↦ ?_⟩
  rcases List.mem_append.1 hs with hs | hs
  · exact h.label_lt s hs
  · obtain rfl := List.mem_singleton.1 hs
    exact hl

end Buffer.Sited

/-! ### Statements -/

/-- The labels of the loops around a statement are among the first so many. -/
def Layout.Within (l : Layout) (n : Nat) : Prop :=
  ∀ x ∈ l.loops, x.continueAt.id < n ∧ x.breakAt.id < n

namespace Layout.Within

variable {l : Layout} {n m : Nat}

/-- Labels that were made stay made. -/
theorem mono (h : l.Within n) (hle : n ≤ m) : l.Within m := fun x hx ↦
  ⟨Nat.lt_of_lt_of_le (h x hx).1 hle, Nat.lt_of_lt_of_le (h x hx).2 hle⟩

theorem body (isTail : Bool) : (Layout.body isTail).Within n := by
  intro x hx
  cases hx

/-- The two labels of a loop are made before its body. -/
theorem inLoop {again done : Label} (h : l.Within n) (hagain : again.id < n) (hdone : done.id < n) :
    (l.inLoop again done).Within n :=
  List.forall_mem_cons.2 ⟨⟨hagain, hdone⟩, h⟩

/-- A loop that can be left has both of its labels. -/
theorem of_loop? {depth : Nat} {loop : LoopLabels} (h : l.Within n)
    (hloop : l.loop? depth = some loop) : loop.continueAt.id < n ∧ loop.breakAt.id < n := by
  cases depth with
  | zero => cases hloop
  | succ depth => exact h loop (List.mem_of_getElem? hloop)

end Layout.Within

/-- The sites of a draft wait for labels that were made, which are at least so many. -/
structure Draft.Sited (n : Nat) (d : Draft) : Prop where
  buffer : d.buffer.Sited
  le_labels : n ≤ d.buffer.labels.size

namespace Draft.Sited

variable {n m : Nat} {d : Draft}

/-- A draft with that many labels has fewer, too. -/
theorem mono (h : d.Sited m) (hle : n ≤ m) : d.Sited n :=
  ⟨h.buffer, Nat.le_trans hle h.le_labels⟩

theorem emit (h : d.Sited n) (i : Instr) : (d.emit i).Sited n :=
  ⟨h.buffer.append _, h.le_labels⟩

theorem expr (h : d.Sited n) (e : Expr) : (d.expr e).Sited n := by
  rw [Draft.expr, e.emit_eq_append]
  exact ⟨h.buffer.append _, h.le_labels⟩

theorem lastExpr (h : d.Sited n) (isTail : Bool) (e : Expr) : (d.lastExpr isTail e).Sited n := by
  rw [Draft.lastExpr, e.emitLast_eq_append]
  exact ⟨h.buffer.append _, h.le_labels⟩

/-- A jump goes to a label that was made. -/
theorem jump (h : d.Sited n) (op : Opcode) {l : Label} (hl : l.id < n) : (d.jump op l).Sited n :=
  ⟨h.buffer.jump op (Nat.lt_of_lt_of_le hl h.le_labels), h.le_labels⟩

theorem bind (h : d.Sited n) (l : Label) : (d.bind l).Sited n := by
  refine ⟨h.buffer.bind l, ?_⟩
  rw [Draft.bind, Buffer.bind, Array.size_setIfInBounds]
  exact h.le_labels

/-- A new label is behind all labels before it. -/
theorem exists_newLabel (h : d.Sited n) :
    ∃ l d₁ m, d.newLabel = (l, d₁) ∧ n ≤ m ∧ l.id < m ∧ d₁.Sited m :=
  ⟨⟨d.buffer.labels.size⟩, _, d.buffer.labels.size + 1, rfl, Nat.le_succ_of_le h.le_labels,
    Nat.lt_succ_self _, h.buffer.newLabel, Nat.le_of_eq (Array.size_push ..).symm⟩

/-- Leaving blocks adds no site. -/
theorem exitScopes (h : d.Sited n) (count : Nat) : (d.exitScopes count).Sited n := by
  induction count generalizing d with
  | zero => exact h
  | succ count ih => exact ih (h.emit _)

theorem giveBackNothing (h : d.Sited n) (returns : Returns) :
    (d.giveBackNothing returns).Sited n := by
  cases returns with
  | void => exact h.emit _
  | any | typed => exact (h.emit _).emit _

end Draft.Sited

mutual

/-- **Every jump of a statement goes to a label that was made**, in the statement or for a loop
around it. -/
theorem Stmt.sited_emit (l : Layout) : ∀ (s : Stmt) {n : Nat} {d : Draft}, l.Within n →
    d.Sited n → (s.emit l d).Sited n
  | .declare _ _ _ (some _), _, _, _, h => (h.expr _).emit _
  | .declare _ _ _ none, _, _, _, h => (h.emit _).emit _
  | .assign _ _, _, _, _, h => (h.expr _).emit _
  | .assignAt _ _ _, _, _, _, h => ((h.expr _).expr _).emit _
  | .step _ _, _, _, _, h => (((h.emit _).emit _).emit _).emit _
  | .ifElse c body otherwise, _, _, hl, h => by
    -- Labels are only ever added, so what was made before the parts is there behind them.
    obtain ⟨done, d₁, n₁, hmake, hle, hdone, h₁⟩ := h.exists_newLabel
    obtain ⟨next, d₂, n₂, hmake₂, hle₂, hnext, h₂⟩ := (h₁.expr c).exists_newLabel
    rw [Stmt.emit]
    simp only [hmake, hmake₂]
    have hl₂ := (hl.mono hle).mono hle₂
    have hbody := Stmt.sited_emitAll l.inBlock body hl₂
      ((h₂.jump .jumpIfFalse hnext).emit .enterScope)
    have hskip := (hbody.emit .exitScope).jump .jump (Nat.lt_of_lt_of_le hdone hle₂)
    have hotherwise := Stmt.sited_emitAll l otherwise hl₂ (hskip.bind next)
    exact (hotherwise.bind done).mono (Nat.le_trans hle hle₂)
  | .whileLoop c body, _, _, hl, h => by
    obtain ⟨again, d₁, n₁, hmake, hle, hagain, h₁⟩ := h.exists_newLabel
    obtain ⟨done, d₂, n₂, hmake₂, hle₂, hdone, h₂⟩ := ((h₁.bind again).expr c).exists_newLabel
    rw [Stmt.emit]
    simp only [hmake, hmake₂]
    have hagain := Nat.lt_of_lt_of_le hagain hle₂
    have hinside := ((hl.mono hle).mono hle₂).inLoop hagain hdone
    have hbody := Stmt.sited_emitAll (l.inLoop again done).inBlock body hinside
      ((h₂.jump .jumpIfFalse hdone).emit .enterScope)
    exact (((hbody.emit _).jump _ hagain).bind _).mono (Nat.le_trans hle hle₂)
  | .breakLoop depth, _, _, hl, h => by
    rw [Stmt.emit]
    split
    · rename_i loop hloop
      exact (h.exitScopes _).jump _ (hl.of_loop? hloop).2
    · exact h
  | .continueLoop, _, _, hl, h => by
    rw [Stmt.emit]
    split
    · rename_i loop hloop
      exact (h.exitScopes _).jump _ (hl.of_loop? hloop).1
    · exact h
  | .function head body, _, _, _, h => by
    obtain ⟨behind, d₁, n₁, hmake, hle, hbehind, h₁⟩ := h.exists_newLabel
    rw [Stmt.emit]
    simp only [hmake]
    have hstart : ((d₁.jump .jump behind).define head).Sited n₁ :=
      ⟨(h₁.jump .jump hbehind).buffer, (h₁.jump .jump hbehind).le_labels⟩
    have hbody := Stmt.sited_emitAll (.body head.isTail) body (.body head.isTail) hstart
    refine Draft.Sited.mono (Draft.Sited.bind ?_ behind) hle
    split
    · exact hbody
    · exact hbody.giveBackNothing _
  | .giveBack none, _, _, _, h => h.emit _
  | .giveBack (some _), _, _, _, h => (h.lastExpr _ _).emit _
  | .exit, _, _, _, h => h.emit _
  | .unset _, _, _, _, h => h.emit _
  | .uses _, _, _, _, h => h
  | .block body, _, _, hl, h => (Stmt.sited_emitAll l.inBlock body hl (h.emit _)).emit _
  | .eval _, _, _, _, h => (h.expr _).emit _

/-- Every jump of some statements goes to a label that was made. -/
theorem Stmt.sited_emitAll (l : Layout) : ∀ (ss : List Stmt) {n : Nat} {d : Draft}, l.Within n →
    d.Sited n → (Stmt.emitAll l ss d).Sited n
  | [], _, _, _, h => h
  | s :: ss, _, _, hl, h => Stmt.sited_emitAll l ss hl (s.sited_emit l hl h)

end

/-- Every jump of a program goes to a label that was made. -/
theorem Program.sited_draft (p : Program) : p.draft.buffer.Sited :=
  (Stmt.sited_emitAll .top p (n := 0) (.body false) ⟨.new, Nat.zero_le _⟩).buffer

/-! ### Labels are bound -/

/-- Every layout is that of some spot. -/
theorem Layout.exists_resolves (l : Layout) : ∃ spot, l.Resolves (fun _ ↦ 0) spot := by
  refine ⟨⟨if l.isTail then some ⟨"", true, .any, []⟩ else none,
    List.replicate (l.depth + 1) [],
    l.loops.map fun x ↦ ⟨0, 0, List.replicate (x.depth + 1) []⟩⟩, ?_, ?_, ?_⟩
  · rw [List.length_replicate]
  · rw [Spot.isTail]
    cases l.isTail <;> rfl
  · rw [List.map_map]
    exact List.map_congr_left fun x _ ↦ by simp

/-- **A statement binds all labels that it makes**, and no others. -/
theorem Stmt.binds_emit (s : Stmt) (l : Layout) {d : Draft} (hd : d.buffer.Tidy) :
    Buffer.Keeps d.buffer (s.emit l d).buffer [] ∧
      Buffer.Binds d.buffer (s.emit l d).buffer [] := by
  obtain ⟨spot, hl⟩ := l.exists_resolves
  have haddr : Buffer.Addressable (fun _ ↦ 0) #[] := ⟨by decide, fun _ ↦ by decide⟩
  have hplaces := Stmt.places_emit haddr hl s d hd
  exact ⟨hplaces.keeps, hplaces.binds⟩

/-- All sites of a program wait for labels that are bound. -/
theorem Program.isSome_target?_of_mem_sites (p : Program) {s : Site}
    (hs : s ∈ p.draft.buffer.sites) : (p.draft.buffer.target? s.label).isSome :=
  p.places_draft_empty.binds s.label (Nat.zero_le _) (p.sited_draft.label_lt s hs)
    List.not_mem_nil

/-- **Resolving** a finished program counts its sites and writes the target of each. -/
theorem Program.resolve_withTable (p : Program) (fs : List Function) :
    (p.draft.buffer.withTable fs).resolve.1 = .ok p.draft.buffer.sites.length ∧
      (p.draft.buffer.withTable fs).resolve.2.sites = [] ∧
      ∀ s ∈ p.draft.buffer.sites, ∃ target, p.draft.buffer.target? s.label = some target ∧
        Spells (p.draft.buffer.withTable fs).resolve.2.bytes s.offset (Code.word target) := by
  have hbound : ∀ s ∈ p.draft.buffer.sites, (p.draft.buffer.target? s.label).isSome :=
    fun s ↦ p.isSome_target?_of_mem_sites
  have hneat := p.sited_draft.neat
  generalize p.draft.buffer = b at hbound hneat
  have hsize := b.size_le_withTable fs
  have hsites := b.sites_withTable fs
  have htarget := b.target?_withTable fs
  -- Of the table and the header, only that no site lies in them is used from here on.
  generalize b.withTable fs = t at hsize hsites htarget
  refine ⟨Buffer.resolve_eq_ok_iff.2 ⟨by rw [hsites], fun s hs ↦ ?_⟩,
    Buffer.sites_patchSites _ _, fun s hs ↦ ?_⟩
  · rw [htarget]
    exact hbound s (hsites ▸ hs)
  · have hbound' (s : Site) (hs : s ∈ b.sites) : (t.target? s.label).isSome := by
      rw [htarget]
      exact hbound s hs
    obtain ⟨target, ht, hspells⟩ := Buffer.exists_spells_patchSites (b := { t with sites := [] })
      hneat.spaced (fun s hs ↦ Nat.le_trans (hneat.tidy.sites s hs).2 hsize) hs
      (Buffer.not_stops_of_isSome hbound')
    rw [← hsites] at hspells
    exact ⟨target, (htarget s.label).symm.trans ht, hspells⟩

/-- Every program has an image. -/
theorem Program.exists_assemble_draft (p : Program) (fs : List Function) :
    ∃ image, Image.assemble p.draft.buffer fs = .ok image := by
  have hbound : ∀ s ∈ p.draft.buffer.sites, (p.draft.buffer.target? s.label).isSome :=
    fun s ↦ p.isSome_target?_of_mem_sites
  generalize p.draft.buffer = b at hbound
  have htarget := b.target?_withTable fs
  have hok : (Buffer.patchSites b.sites { b.withTable fs with sites := [] }).1 = .ok () := by
    generalize b.withTable fs = t at htarget
    refine Buffer.patchSites_eq_ok_iff.2 fun s hs ↦ ?_
    rw [show Buffer.target? { t with sites := [] } s.label = t.target? s.label from rfl, htarget]
    exact hbound s hs
  exact ⟨_, Image.assemble_eq_ok.2 ⟨_, Prod.ext hok rfl, rfl⟩⟩

/-- An image is refused for its size only. -/
theorem Program.isOfText_of_assemble {p : Program} {stop : Span} {e : Complaint}
    (h : p.assemble stop = .error e) : e.cause.isOfText := by
  obtain ⟨image, himage⟩ := p.exists_assemble_draft p.draft.functions.toList
  simp only [Program.assemble, himage] at h
  split at h <;> cases h
  rfl

/-- **Every complaint is about the text.** -/
theorem isOfText_of_compileTokens {ts : Tokens} {e : Complaint} (h : compileTokens ts = .error e) :
    e.cause.isOfText := by
  rw [compileTokens] at h
  rcases hread : Program.ofTokens ts with e' | p
  · rw [hread] at h
    cases h
    exact Program.isOfText_of_ofTokens hread
  · rw [hread] at h
    exact Program.isOfText_of_assemble h

/-- **What a compiler complains about is in the text.** -/
theorem isOfText_of_compile {source : String} {e : Complaint} (h : compile source = .error e) :
    e.cause.isOfText := by
  rw [compile] at h
  rcases hscan : Tokens.ofText source with e' | ts
  · rw [hscan] at h
    cases h
    rfl
  · rw [hscan] at h
    exact isOfText_of_compileTokens h

/-- Two causes are not in any text: a declaration outside all blocks, and a label that is bound
nowhere. -/
theorem Cause.ne_of_isOfText {cause : Cause} (h : cause.isOfText) :
    cause ≠ .outsideBlocks ∧ ∀ n, cause ≠ .unplaced n := by
  constructor
  · rintro rfl
    cases h
  · rintro n rfl
    cases h

/-- **No fault is internal.** A statement that is read leaves the number of open blocks, the loops
and the function around it as they were. Its code binds every label that it makes, and leaves those
made before as they were. So no text is ever refused because no block is open or because a label was
never bound, and resolving the code of a program writes the target of every site. -/
theorem balanced_and_bound :
    (∀ {fuel c ts s c' ts'}, readStmt fuel c ts = .ok ((s, c'), ts') →
      (c'.blocks.length = c.blocks.length ∧ c'.loops = c.loops ∧ c'.place = c.place) ∧
      ∀ (l : Layout) (d : Draft), d.buffer.Tidy → (s.emit l d).buffer.Tidy ∧
        (∀ x : Label, x.id < d.buffer.labels.size →
          (s.emit l d).buffer.target? x = d.buffer.target? x) ∧
        ∀ x : Label, d.buffer.labels.size ≤ x.id → x.id < (s.emit l d).buffer.labels.size →
          ((s.emit l d).buffer.target? x).isSome) ∧
    (∀ {ts e}, compileTokens ts = .error e →
      e.cause ≠ .outsideBlocks ∧ ∀ n, e.cause ≠ .unplaced n) ∧
    (∀ {source e}, compile source = .error e →
      e.cause ≠ .outsideBlocks ∧ ∀ n, e.cause ≠ .unplaced n) ∧
    ∀ (p : Program) (fs : List Function),
      (p.draft.buffer.withTable fs).resolve.1 = .ok p.draft.buffer.sites.length ∧
      (p.draft.buffer.withTable fs).resolve.2.sites = [] ∧
      ∀ s ∈ p.draft.buffer.sites, ∃ target, p.draft.buffer.target? s.label = some target ∧
        Spells (p.draft.buffer.withTable fs).resolve.2.bytes s.offset (Code.word target) := by
  refine ⟨fun {fuel c ts s c' ts'} h ↦ ⟨?_, fun l d hd ↦ ?_⟩,
    fun h ↦ Cause.ne_of_isOfText (isOfText_of_compileTokens h),
    fun h ↦ Cause.ne_of_isOfText (isOfText_of_compile h), Program.resolve_withTable⟩
  · have hfine : Clause.Fine c c' ts ts' (.stmt s) := Clause.sound fuel h
    exact ⟨((balancedStmts fuel).stmt c).length_eq h, hfine.loops, hfine.place⟩
  · obtain ⟨hkeeps, hbinds⟩ := s.binds_emit l hd
    exact ⟨hkeeps.tidy, fun x hx ↦ hkeeps.target?_eq x hx List.not_mem_nil,
      fun x hx hx' ↦ hbinds x hx hx' List.not_mem_nil⟩

/-- The tokens of `while (true) { let y; break; }`. -/
def brokenLoop : Tokens :=
  ⟨[.keyword .while_, .symbol .leftParen, .bool true, .symbol .rightParen, .symbol .leftBrace,
    .keyword .let_, .name "y", .symbol .semicolon, .keyword .break_, .symbol .semicolon,
    .symbol .rightBrace].map (⟨·, default⟩), default⟩

theorem balanced_and_bound_brokenLoop :
    ∃ s c' ts', readStmt 40 .start brokenLoop = .ok ((s, c'), ts') ∧ c'.blocks.length = 1 ∧
      (s.emit .top .new).buffer.labels.size = 2 ∧
      ∀ x : Label, x.id < 2 → ((s.emit .top .new).buffer.target? x).isSome := by
  have hread : readStmt 40 .start brokenLoop =
      .ok ((.whileLoop (.bool true) [.declare false .auto "y" none, .breakLoop 1], .start),
        ⟨[], default⟩) := rfl
  obtain ⟨⟨hlength, -, -⟩, hemit⟩ := balanced_and_bound.1 hread
  refine ⟨_, _, _, hread, hlength, rfl, fun x hx ↦ ?_⟩
  exact (hemit .top .new Buffer.tidy_new).2.2 x (Nat.zero_le _) hx

end Scriptlet
