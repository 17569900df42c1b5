import Scriptlet.Compile
import Scriptlet.Proofs.Tree.ReadStmt

/-!
# Blocks that are open

Reading a statement opens and closes blocks in pairs, so as many blocks are open behind it as were
before it. A declaration needs an open block, and **there always is one**: the program starts in
one, and so does every function.

Two causes are not about the text: that no block is open, and that a label was never bound. A reader
that has neither for a complaint is `Plain`, and `Reader.Balanced` says of a reader of statements
how many blocks it leaves open, and that it complains of none being open only where none is.
-/

namespace Scriptlet

open Reader

/-- The cause is a fault of the program text. -/
def Cause.isOfText : Cause → Bool
  | .outsideBlocks | .unplaced _ => false
  | _ => true

/-! ### Readers that complain of the text only -/

/-- What a reader complains of is a fault of the text. -/
def Reader.Plain {α : Type} (x : Reader α) : Prop :=
  ∀ ts e, x ts = .error e → e.cause.isOfText

namespace Reader.Plain

variable {α β : Type}

theorem pure (a : α) : Plain (pure a) := by
  intro ts e h
  cases h

/-- Two readers that complain of the text only do so one after the other. -/
theorem bind {x : Reader α} {f : α → Reader β} (hx : Plain x) (hf : ∀ a, Plain (f a)) :
    Plain (x >>= f) := by
  intro ts e h
  change (x ts >>= fun p ↦ f p.1 p.2) = _ at h
  rcases hts : x ts with e' | ⟨a, mid⟩
  · rw [hts] at h
    cases h
    exact hx ts _ hts
  · rw [hts] at h
    exact hf a mid e h

/-- A reader that fails does so for its cause. -/
theorem fail {cause : Cause} (h : cause.isOfText) (span : Span) :
    Plain (fail cause span : Reader α) := by
  rintro ts e ⟨⟩
  exact h

/-- A check fails for its cause, and else takes nothing. -/
theorem check {result : Except Cause α} (h : ∀ cause, result = .error cause → cause.isOfText)
    (span : Span) : Plain (check result span) := by
  cases result with
  | ok a => exact pure a
  | error cause => exact fail (h cause rfl) span

/-- A token that is not expected is a fault of the text. -/
theorem unexpected (what : Expected) : Plain (unexpected what : Reader α) := by
  intro ts e h
  rw [Reader.unexpected] at h
  split at h <;> cases h <;> rfl

theorem exhausted : Plain (exhausted : Reader α) := by
  rintro ts e ⟨⟩
  rfl

/-- A reader that never fails. -/
theorem of_total {x : Reader α} (h : ∀ ts, (x ts).isOk) : Plain x := by
  intro ts e hts
  have hok := h ts
  rw [hts] at hok
  cases hok

theorem advance : Plain advance := of_total fun ts ↦ by
  rw [Reader.advance]
  split <;> rfl

theorem accept (s : Symbol) : Plain (accept s) := of_total fun ts ↦ by
  rw [Reader.accept]
  split <;> rfl

theorem acceptKeyword (k : Keyword) : Plain (acceptKeyword k) := of_total fun ts ↦ by
  rw [Reader.acceptKeyword]
  split
  · split <;> rfl
  · rfl

theorem acceptType? : Plain acceptType? := of_total fun ts ↦ by
  rw [Reader.acceptType?]
  split
  · split <;> rfl
  · rfl

theorem acceptBinary? (level : Nat) : Plain (acceptBinary? level) := of_total fun ts ↦ by
  rw [Reader.acceptBinary?]
  split
  · split
    · split <;> rfl
    · rfl
  · rfl

theorem consume (s : Symbol) (context : String) : Plain (consume s context) := by
  refine (accept s).bind fun b ↦ ?_
  cases b with
  | true => exact pure _
  | false => exact unexpected _

theorem consumeName (context : String) : Plain (consumeName context) := by
  intro ts e h
  rw [Reader.consumeName] at h
  split at h
  · cases h
  · exact unexpected _ ts e h

theorem fitsLiteral (declared : Tag) : Plain (fitsLiteral declared) := by
  intro ts e h
  rw [Reader.fitsLiteral] at h
  split at h
  · split at h
    · split at h
      · split at h <;> cases h
        rfl
      · cases h
    · cases h
  · cases h

end Reader.Plain

/-! ### Expressions -/

/-- The readers of expressions complain of the text only, with so much fuel. -/
structure PlainExprs (fuel : Nat) : Prop where
  level : ∀ n, Plain (readLevel fuel n)
  more : ∀ n e, Plain (readMore fuel n e)
  unary : Plain (readUnary fuel)
  items : ∀ e, Plain (readItems fuel e)
  primary : Plain (readPrimary fuel)
  args : ∀ close, Plain (readArgs fuel close)
  moreArgs : Plain (readMoreArgs fuel)

namespace PlainExprs

variable {fuel : Nat}

/-- One step for each reader of expressions: it calls those that have less fuel. -/
theorem level_succ (ih : PlainExprs fuel) (n : Nat) : Plain (readLevel (fuel + 1) n) := by
  rw [readLevel]
  split
  · exact (ih.level _).bind fun e ↦ ih.more _ _
  · exact ih.unary

theorem more_succ (ih : PlainExprs fuel) (n : Nat) (e : Expr) :
    Plain (readMore (fuel + 1) n e) := by
  rw [readMore]
  refine (Plain.acceptBinary? n).bind fun op ↦ ?_
  cases op with
  | none => exact .pure _
  | some op => exact (ih.level _).bind fun e' ↦ ih.more _ _

theorem unary_succ (ih : PlainExprs fuel) : Plain (readUnary (fuel + 1)) := by
  rw [readUnary]
  refine (Plain.accept _).bind fun minus ↦ ?_
  cases minus with
  | true => exact ih.unary.bind fun e ↦ .pure _
  | false =>
    refine (Plain.accept _).bind fun bang ↦ ?_
    cases bang with
    | true => exact ih.unary.bind fun e ↦ .pure _
    | false => exact ih.primary.bind fun e ↦ ih.items e

theorem items_succ (ih : PlainExprs fuel) (e : Expr) : Plain (readItems (fuel + 1) e) := by
  rw [readItems]
  refine (Plain.accept _).bind fun bracket ↦ ?_
  cases bracket with
  | true =>
    refine (ih.level 0).bind fun i ↦ (Plain.accept _).bind fun colon ↦ ?_
    cases colon with
    | true => exact (ih.level 0).bind fun j ↦ (Plain.consume _ _).bind fun _ ↦ ih.items _
    | false => exact (Plain.consume _ _).bind fun _ ↦ ih.items _
  | false => exact .pure _

theorem primary_succ (ih : PlainExprs fuel) : Plain (readPrimary (fuel + 1)) := by
  rw [readPrimary]
  refine Plain.bind (.of_total fun _ ↦ rfl) fun k ↦ ?_
  split
  · exact Plain.advance.bind fun _ ↦ .pure _
  · exact Plain.advance.bind fun _ ↦ .pure _
  · exact Plain.advance.bind fun _ ↦ .pure _
  · exact Plain.advance.bind fun _ ↦ .pure _
  · exact Plain.advance.bind fun _ ↦ .pure _
  · refine Plain.advance.bind fun _ ↦ (Plain.accept _).bind fun paren ↦ ?_
    cases paren with
    | true => exact (ih.args _).bind fun args ↦ .pure _
    | false => exact .pure _
  · exact Plain.advance.bind fun _ ↦ (ih.level 0).bind fun e ↦ (Plain.consume _ _).bind fun _ ↦
      .pure _
  · exact Plain.advance.bind fun _ ↦ (ih.args _).bind fun items ↦ .pure _
  all_goals exact .unexpected _

theorem args_succ (ih : PlainExprs fuel) (close : Symbol) :
    Plain (readArgs (fuel + 1) close) := by
  rw [readArgs]
  refine Plain.bind (.of_total fun _ ↦ rfl) fun closed ↦ ?_
  cases closed with
  | true => exact (Plain.consume _ _).bind fun _ ↦ .pure _
  | false => exact (ih.level 0).bind fun e ↦ ih.moreArgs.bind fun es ↦
      (Plain.consume _ _).bind fun _ ↦ .pure _

theorem moreArgs_succ (ih : PlainExprs fuel) : Plain (readMoreArgs (fuel + 1)) := by
  rw [readMoreArgs]
  refine (Plain.accept _).bind fun comma ↦ ?_
  cases comma with
  | true => exact (ih.level 0).bind fun e ↦ ih.moreArgs.bind fun es ↦ .pure _
  | false => exact .pure _

end PlainExprs

/-- The readers of expressions complain of the text only. -/
theorem plainExprs (fuel : Nat) : PlainExprs fuel := by
  induction fuel with
  | zero =>
    constructor
    all_goals intros
    · rw [readLevel]
      exact .exhausted
    · rw [readMore]
      exact .exhausted
    · rw [readUnary]
      exact .exhausted
    · rw [readItems]
      exact .exhausted
    · rw [readPrimary]
      exact .exhausted
    · rw [readArgs]
      exact .exhausted
    · rw [readMoreArgs]
      exact .exhausted
  | succ fuel ih =>
    exact ⟨ih.level_succ, ih.more_succ, ih.unary_succ, ih.items_succ, ih.primary_succ,
      ih.args_succ, ih.moreArgs_succ⟩

theorem plain_readExpr (fuel : Nat) : Plain (readExpr fuel) :=
  (plainExprs fuel).level 0

/-! ### Parts of statements -/

theorem plain_readType : Plain readType := by
  refine (Plain.acceptKeyword _).bind fun isNull ↦ ?_
  cases isNull with
  | true => exact .pure _
  | false => exact Plain.acceptType?.bind fun type ↦ .pure _

theorem plain_readInit (fuel : Nat) (isNull : Bool) (type : Tag) :
    Plain (readInit fuel isNull type) := by
  rw [readInit]
  cases isNull with
  | true => exact .pure _
  | false =>
    refine (Plain.accept _).bind fun equal ↦ ?_
    cases equal with
    | true =>
      exact (Plain.fitsLiteral type).bind fun _ ↦ (plain_readExpr fuel).bind fun e ↦ .pure _
    | false => exact .pure _

theorem plain_readDepth : Plain readDepth := by
  refine Plain.bind (.of_total fun _ ↦ rfl) fun k ↦ ?_
  split
  · exact Plain.advance.bind fun _ ↦ .pure _
  · exact .pure _

theorem plain_readTarget : Plain readTarget := by
  refine Plain.bind (.of_total fun _ ↦ rfl) fun k ↦ ?_
  split
  · exact Plain.advance.bind fun _ ↦ .pure _
  · exact Plain.advance.bind fun _ ↦ .pure _
  · exact .unexpected _

theorem plain_readCondition (fuel : Nat) (context : String) :
    Plain (readCondition fuel context) :=
  (Plain.consume _ _).bind fun _ ↦ (plain_readExpr fuel).bind fun _ ↦
    (Plain.consume _ _).bind fun _ ↦ .pure _

theorem plain_readParams (fuel : Nat) (params : List String) : Plain (readParams fuel params) := by
  induction fuel generalizing params with
  | zero =>
    rw [readParams]
    exact .exhausted
  | succ fuel ih =>
    rw [readParams]
    refine (Plain.consumeName _).bind fun param ↦ ?_
    dsimp only
    split
    · exact .fail rfl _
    · refine (Plain.accept _).bind fun comma ↦ ?_
      cases comma with
      | true => exact ih _
      | false => exact .pure _

theorem plain_readReturns : Plain readReturns := by
  refine (Plain.acceptKeyword _).bind fun isVoid ↦ ?_
  cases isVoid with
  | true => exact .pure _
  | false =>
    refine Plain.acceptType?.bind fun type ↦ ?_
    split <;> exact .pure _

theorem plain_readParamList (fuel : Nat) : Plain (readParamList fuel) := by
  refine (Plain.consume _ _).bind fun _ ↦ Plain.bind (.of_total fun _ ↦ rfl) fun isEmpty ↦ ?_
  cases isEmpty with
  | true => exact (Plain.pure _).bind fun params ↦ (Plain.consume _ _).bind fun _ ↦ .pure _
  | false =>
    exact (plain_readParams fuel []).bind fun params ↦ (Plain.consume _ _).bind fun _ ↦ .pure _

/-- The reader of the head of a function complains of the text only. -/
theorem plain_readHead (fuel : Nat) (c : Context) : Plain (readHead fuel c) := by
  refine (Plain.acceptKeyword _).bind fun _ ↦ (Plain.acceptKeyword _).bind fun isTail ↦
    plain_readReturns.bind fun returns ↦ (Plain.consumeName _).bind fun name ↦ ?_
  dsimp only
  split
  · exact .fail rfl _
  · exact (plain_readParamList fuel).bind fun params ↦ .pure _

/-! ### What a statement does to its context -/

namespace Context

variable {c c' : Context} {name : String} {cause : Cause}

/-- Where a block is open a declaration fails for a fault of the text. -/
theorem isOfText_of_declare {b : Binding} (h : c.declare name b = .error cause)
    (hblocks : c.blocks ≠ []) : cause.isOfText := by
  rw [declare] at h
  split at h
  · rename_i hnil
    exact absurd hnil hblocks
  · split at h <;> cases h
    rfl

theorem isOfText_of_assignable (h : c.assignable name = .error cause) : cause.isOfText := by
  rw [assignable] at h
  split at h <;> cases h
  rfl

theorem isOfText_of_enclosing {keyword : Keyword} {depth : Nat}
    (h : c.enclosing keyword depth = .error cause) : cause.isOfText := by
  rw [enclosing] at h
  split at h
  · cases h
    rfl
  · split at h <;> cases h
    rfl

theorem isOfText_of_mayReturn {isBare : Bool} (h : c.mayReturn isBare = .error cause) :
    cause.isOfText := by
  unfold mayReturn at h
  split at h <;> cases h <;> rfl

/-- A declaration keeps the number of open blocks. -/
theorem length_blocks_of_declare {b : Binding} (h : c.declare name b = .ok c') :
    c'.blocks.length = c.blocks.length := by
  rw [declare] at h
  split at h
  · cases h
  · rename_i hblocks
    split at h <;> cases h
    rw [hblocks]
    rfl

theorem length_blocks_assigned (c : Context) (name : String) :
    (c.assigned name).blocks.length = c.blocks.length := by
  rw [assigned]
  split
  · rfl
  · split
    · rfl
    · rename_i hblocks
      rw [hblocks]
      rfl

/-- To forget a name closes no block. -/
theorem length_forgetIn (name : String) (blocks : List Block) :
    (forgetIn name blocks).length = blocks.length := by
  induction blocks with
  | nil => rfl
  | cons block blocks ih =>
    rw [forgetIn]
    split
    · rfl
    · rw [List.length_cons, ih, List.length_cons]

end Context

/-- A reader leaves as many blocks open as there were, and where there was one it complains of the
text only. -/
structure Reader.Balanced {α : Type} (c : Context) (x : Reader (α × Context)) : Prop where
  length_eq : ∀ {ts r ts'}, x ts = .ok (r, ts') → r.2.blocks.length = c.blocks.length
  plain : c.blocks ≠ [] → Plain x

namespace Reader.Balanced

variable {α β : Type} {c c₀ : Context} {fuel : Nat}

/-- A reader that takes nothing keeps the blocks open that were. -/
theorem pure (a : α) (c' : Context) (h : c'.blocks.length = c.blocks.length) :
    Balanced c (pure (a, c')) := by
  refine ⟨fun hr ↦ ?_, fun _ ↦ .pure _⟩
  obtain ⟨rfl, -⟩ := pure_eq_ok.1 hr
  exact h

/-- A reader that knows nothing of blocks may come first. -/
theorem bind_plain {x : Reader β} {f : β → Reader (α × Context)} (hx : Plain x)
    (hf : ∀ b, Balanced c (f b)) : Balanced c (x >>= f) := by
  refine ⟨fun hr ↦ ?_, fun hc ↦ hx.bind fun b ↦ (hf b).plain hc⟩
  obtain ⟨b, mid, -, hr⟩ := bind_eq_ok.1 hr
  exact (hf b).length_eq hr

/-- Going on in a context with as many blocks as another reader left. -/
theorem bind {x : Reader (β × Context)} {f : β × Context → Reader (α × Context)}
    (hx : Balanced c₀ x) (hc : c.blocks ≠ [] → c₀.blocks ≠ [])
    (hf : ∀ b c', c'.blocks.length = c₀.blocks.length → Balanced c (f (b, c'))) :
    Balanced c (x >>= f) := by
  constructor
  · intro ts r ts' hr
    obtain ⟨⟨b, c'⟩, mid, hb, hr⟩ := bind_eq_ok.1 hr
    exact (hf b c' (hx.length_eq hb)).length_eq hr
  · intro hblocks ts e he
    change (x ts >>= fun p ↦ f p.1 p.2) = _ at he
    rcases hts : x ts with e' | ⟨⟨b, c'⟩, mid⟩
    · rw [hts] at he
      cases he
      exact hx.plain (hc hblocks) ts _ hts
    · rw [hts] at he
      exact (hf b c' (hx.length_eq hts)).plain hblocks mid e he

theorem exhausted : Balanced c (exhausted : Reader (α × Context)) :=
  ⟨fun hr ↦ absurd hr exhausted_ne_ok, fun _ ↦ .exhausted⟩

/-- A reader in a context with as many blocks. -/
theorem congr {x : Reader (α × Context)} (h : Balanced c₀ x)
    (hc : c₀.blocks.length = c.blocks.length) : Balanced c x := by
  refine ⟨fun hr ↦ (h.length_eq hr).trans hc, fun hblocks ↦ h.plain fun hnil ↦ hblocks ?_⟩
  rw [hnil] at hc
  exact List.eq_nil_of_length_eq_zero hc.symm

/-! Statements that have no statements inside them. -/

theorem readDeclare (fuel : Nat) (c : Context) : Balanced c (readDeclare fuel c) := by
  refine .bind_plain .advance fun _ ↦ .bind_plain (.acceptKeyword _) fun isConst ↦
    .bind_plain (.acceptKeyword _) fun _ ↦ .bind_plain plain_readType fun type ↦
    .bind_plain (.consumeName _) fun name ↦ .bind_plain (plain_readInit fuel _ _) fun init ↦
    .bind_plain (.consume _ _) fun _ ↦ ?_
  constructor
  · intro ts r ts' hr
    obtain ⟨c', mid, hc', hr⟩ := bind_eq_ok.1 hr
    obtain ⟨rfl, -⟩ := pure_eq_ok.1 hr
    exact Context.length_blocks_of_declare (check_eq_ok.1 hc').1
  · exact fun hblocks ↦ (Plain.check (fun _ h ↦ Context.isOfText_of_declare h hblocks) _).bind
      fun c' ↦ .pure _

theorem readAssign (fuel : Nat) (c : Context) : Balanced c (readAssign fuel c) :=
  .bind_plain (.consumeName _) fun name ↦
    .bind_plain (.check (fun _ ↦ Context.isOfText_of_assignable) _) fun _ ↦
    .bind_plain (.consume _ _) fun _ ↦ .bind_plain (plain_readExpr fuel) fun _ ↦
    .bind_plain (.consume _ _) fun _ ↦ .pure _ _ (c.length_blocks_assigned name.1)

theorem readAssignAt (fuel : Nat) (c : Context) : Balanced c (readAssignAt fuel c) :=
  .bind_plain (.consumeName _) fun _ ↦
    .bind_plain (.check (fun _ ↦ Context.isOfText_of_assignable) _) fun _ ↦
    .bind_plain (.consume _ _) fun _ ↦ .bind_plain (plain_readExpr fuel) fun _ ↦
    .bind_plain (.consume _ _) fun _ ↦ .bind_plain (.consume _ _) fun _ ↦
    .bind_plain (plain_readExpr fuel) fun _ ↦ .bind_plain (.consume _ _) fun _ ↦ .pure _ _ rfl

theorem readStep (op : BinaryOp) (context : String) (c : Context) :
    Balanced c (readStep op context c) :=
  .bind_plain .advance fun _ ↦ .bind_plain .advance fun _ ↦
    .bind_plain (.consumeName _) fun _ ↦
    .bind_plain (.check (fun _ ↦ Context.isOfText_of_assignable) _) fun _ ↦
    .bind_plain (.consume _ _) fun _ ↦ .pure _ _ rfl

theorem readBreak (c : Context) : Balanced c (readBreak c) :=
  .bind_plain .advance fun _ ↦ .bind_plain plain_readDepth fun _ ↦
    .bind_plain (.consume _ _) fun _ ↦
    .bind_plain (.check (fun _ ↦ Context.isOfText_of_enclosing) _) fun _ ↦ .pure _ _ rfl

theorem readContinue (c : Context) : Balanced c (readContinue c) :=
  .bind_plain .advance fun _ ↦ .bind_plain (.consume _ _) fun _ ↦
    .bind_plain (.check (fun _ ↦ Context.isOfText_of_enclosing) _) fun _ ↦ .pure _ _ rfl

theorem readReturn (fuel : Nat) (c : Context) : Balanced c (readReturn fuel c) := by
  refine .bind_plain .advance fun _ ↦ .bind_plain (.of_total fun _ ↦ rfl) fun isBare ↦
    .bind_plain (.check (fun _ ↦ Context.isOfText_of_mayReturn) _) fun _ ↦ ?_
  cases isBare with
  | true => exact .bind_plain .advance fun _ ↦ .pure _ _ rfl
  | false =>
    exact .bind_plain (plain_readExpr fuel) fun _ ↦ .bind_plain (.consume _ _) fun _ ↦ .pure _ _ rfl

theorem readExit (c : Context) : Balanced c (readExit c) :=
  .bind_plain .advance fun _ ↦ .bind_plain (.consume _ _) fun _ ↦ .pure _ _ rfl

theorem readUnset (c : Context) : Balanced c (readUnset c) :=
  .bind_plain .advance fun _ ↦ .bind_plain (.consumeName _) fun name ↦
    .bind_plain (.check (fun _ ↦ Context.isOfText_of_assignable) _) fun _ ↦
    .bind_plain (.consume _ _) fun _ ↦ .pure _ _ (Context.length_forgetIn name.1 c.blocks)

theorem readUses (c : Context) : Balanced c (readUses c) :=
  .bind_plain .advance fun _ ↦ .bind_plain plain_readTarget fun _ ↦
    .bind_plain (.consume _ _) fun _ ↦ .pure _ _ rfl

theorem readEval (fuel : Nat) (c : Context) : Balanced c (readEval fuel c) :=
  .bind_plain (plain_readExpr fuel) fun _ ↦ .bind_plain (.consume _ _) fun _ ↦ .pure _ _ rfl

end Reader.Balanced

/-! ### Statements in statements -/

/-- The readers of statements close the blocks they open, with so much fuel. -/
structure BalancedStmts (fuel : Nat) : Prop where
  stmt : ∀ c, Balanced c (readStmt fuel c)
  condition : ∀ c, Balanced c (readIf fuel c)
  block : ∀ c, Balanced c (readBlock fuel c)
  body : ∀ c, Balanced c (readBody fuel c)

namespace BalancedStmts

variable {fuel : Nat}

/-- A block is opened and closed again. -/
theorem block_succ (ih : BalancedStmts fuel) (c : Context) :
    Balanced c (readBlock (fuel + 1) c) := by
  rw [readBlock]
  refine .bind_plain (.consume _ _) fun _ ↦ (ih.body c.enterBlock).bind
    (fun _ ↦ List.cons_ne_nil _ _) fun body c' hc' ↦ .pure _ _ ?_
  rw [Context.exitBlock, List.length_tail, hc']
  rfl

theorem body_succ (ih : BalancedStmts fuel) (c : Context) : Balanced c (readBody (fuel + 1) c) := by
  rw [readBody]
  refine .bind_plain (.of_total fun _ ↦ rfl) fun closes ↦
    .bind_plain (.of_total fun _ ↦ rfl) fun ends ↦ ?_
  split
  · exact .bind_plain (.consume _ _) fun _ ↦ .pure _ _ rfl
  · exact (ih.stmt c).bind id fun s c' hc' ↦
      .congr ((ih.body c').bind id fun ss c'' hc'' ↦ .pure _ _ hc'') hc'

theorem condition_succ (ih : BalancedStmts fuel) (c : Context) :
    Balanced c (readIf (fuel + 1) c) := by
  rw [readIf]
  refine .bind_plain (plain_readCondition fuel _) fun condition ↦ (ih.block c).bind id
    fun body c' hc' ↦ .congr ?_ hc'
  refine .bind_plain (.acceptKeyword _) fun isElif ↦ ?_
  cases isElif with
  | true => exact (ih.condition c').bind id fun next c'' hc'' ↦ .pure _ _ hc''
  | false =>
    refine .bind_plain (.acceptKeyword _) fun isElse ↦ ?_
    cases isElse with
    | true => exact (ih.block c').bind id fun last c'' hc'' ↦ .pure _ _ hc''
    | false => exact .pure _ _ rfl

/-- A statement leaves as many blocks open as there were, whichever form it has. -/
theorem stmt_succ (ih : BalancedStmts fuel) (c : Context) : Balanced c (readStmt (fuel + 1) c) := by
  rw [readStmt]
  refine .bind_plain (.of_total fun _ ↦ rfl) fun form ↦ ?_
  cases form with
  | declare => exact .readDeclare fuel c
  | condition => exact .bind_plain .advance fun _ ↦ ih.condition c
  | loop =>
    exact .bind_plain .advance fun _ ↦ .bind_plain (plain_readCondition fuel _) fun condition ↦
      (ih.block c.enterLoop).bind id fun body c' hc' ↦ .pure _ c'.exitLoop hc'
  | breakLoop => exact .readBreak c
  | continueLoop => exact .readContinue c
  | function =>
    exact .bind_plain .advance fun _ ↦ .bind_plain (plain_readHead fuel c) fun head ↦
      .bind_plain (.consume _ _) fun _ ↦
      (ih.body (c.enterFunction head.name (head.returns == .void) head.params)).bind
        (fun _ ↦ List.cons_ne_nil _ _) fun body inner _ ↦ .pure _ (c.exitFunction inner) rfl
  | giveBack => exact .readReturn fuel c
  | exit => exact .readExit c
  | unset => exact .readUnset c
  | uses => exact .readUses c
  | block => exact (ih.block c).bind id fun body c' hc' ↦ .pure _ _ hc'
  | increment => exact .readStep _ _ c
  | decrement => exact .readStep _ _ c
  | assign => exact .readAssign fuel c
  | assignAt => exact .readAssignAt fuel c
  | eval => exact .readEval fuel c

end BalancedStmts

/-- The readers of statements close what they open. -/
theorem balancedStmts (fuel : Nat) : BalancedStmts fuel := by
  induction fuel with
  | zero =>
    constructor
    all_goals intro c
    · rw [readStmt]
      exact .exhausted
    · rw [readIf]
      exact .exhausted
    · rw [readBlock]
      exact .exhausted
    · rw [readBody]
      exact .exhausted
  | succ fuel ih => exact ⟨ih.stmt_succ, ih.condition_succ, ih.block_succ, ih.body_succ⟩

/-- So does the reader of a whole program. -/
theorem balanced_readAll (fuel : Nat) (c : Context) : Balanced c (readAll fuel c) := by
  induction fuel generalizing c with
  | zero =>
    rw [readAll]
    exact .exhausted
  | succ fuel ih =>
    rw [readAll]
    refine .bind_plain (.of_total fun _ ↦ rfl) fun isEnd ↦ ?_
    cases isEnd with
    | true => exact .pure _ _ rfl
    | false =>
      exact ((balancedStmts fuel).stmt c).bind id fun s c' hc' ↦
        .congr ((ih c').bind id fun ss c'' hc'' ↦ .pure _ _ hc'') hc'

/-- **A program that cannot be read has a fault in its text.** -/
theorem Program.isOfText_of_ofTokens {ts : Tokens} {e : Complaint}
    (h : Program.ofTokens ts = .error e) : e.cause.isOfText := by
  rw [Program.ofTokens] at h
  rcases hread : readAll (fuelFor ts.ahead.length) .start ts with e' | r
  · rw [hread] at h
    cases h
    exact (balanced_readAll _ .start).plain (List.cons_ne_nil _ _) ts _ hread
  · rw [hread] at h
    cases h

end Scriptlet
