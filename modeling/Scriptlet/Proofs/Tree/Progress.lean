import Scriptlet.Proofs.Tree.Orderly

/-!
# Reading makes progress

The traces of all readers are in order. This is one induction on the fuel for expressions and one
for statements, each over all the readers that call one another, and each reader has its own step
(`level_succ`, `stmt_succ` and so on): from the readers it calls with less fuel to itself.

What fuel a reader needs is the weight of its production. A call before any token was taken goes to
a production of a lower rank, as from one level of operators to the next. A call behind a token may
go to any, since a token outweighs all ranks. The rounds of a loop need no rank, for they are not
nested: they are bounded by the tokens ahead alone.
-/

namespace Scriptlet

open Reader Tokens

namespace Tracer

/-! ### Expressions -/

/-- Traces of expressions are in order if there is fuel for their weight. The rounds of a loop weigh
less than eleven more than the tokens ahead. -/
structure ExprsOrderly (fuel : Nat) : Prop where
  level : ∀ n ts bound, (Production.level n).weight ts.ahead ≤ fuel →
    (Production.level n).weight ts.ahead < bound → Orderly (Gains ts) bound ts (level fuel n)
  more : ∀ n e ts, 12 * ts.ahead.length < fuel →
    Orderly (fun _ _ ↦ True) (12 * ts.ahead.length + 11) ts (more fuel n e)
  unary : ∀ ts bound, Production.unary.weight ts.ahead ≤ fuel →
    Production.unary.weight ts.ahead < bound → Orderly (Gains ts) bound ts (unary fuel)
  items : ∀ e ts, 12 * ts.ahead.length < fuel →
    Orderly (fun _ _ ↦ True) (12 * ts.ahead.length + 11) ts (items fuel e)
  primary : ∀ ts bound, Production.primary.weight ts.ahead ≤ fuel →
    Production.primary.weight ts.ahead < bound → Orderly (Gains ts) bound ts (primary fuel)
  arguments : ∀ close ts bound, Production.arguments.weight ts.ahead ≤ fuel →
    Production.arguments.weight ts.ahead < bound →
    Orderly (Gains ts) bound ts (arguments fuel close)
  moreArguments : ∀ ts, 12 * ts.ahead.length < fuel →
    Orderly (fun _ _ ↦ True) (12 * ts.ahead.length + 11) ts (moreArguments fuel)

namespace ExprsOrderly

variable {fuel bound : Nat} {ts : Tokens}

/-- Every production has some weight, so without fuel none has enough. -/
theorem zero : ExprsOrderly 0 := by
  constructor <;> grind

/-- A level calls the next one, which has a lower rank, before it takes a token. -/
theorem level_succ (ih : ExprsOrderly fuel) {n : Nat}
    (hfuel : (Production.level n).weight ts.ahead ≤ fuel + 1)
    (hbound : (Production.level n).weight ts.ahead < bound) :
    Orderly (Gains ts) bound ts (Tracer.level (fuel + 1) n) := by
  rw [Tracer.level]
  refine .within ?_ (fun _ _ ↦ id) hbound
  split
  · refine (ih.level (n + 1) ts _ (by grind) (by grind)).bind fun e mid _ hgains ↦ ?_
    exact (ih.more n e mid (by grind)).mono (by grind) (by grind)
  · exact ih.unary ts _ (by grind) (by grind)

/-- A round over operators takes an operator before it calls anything. -/
theorem more_succ (ih : ExprsOrderly fuel) {n : Nat} {e : Expr}
    (hfuel : 12 * ts.ahead.length < fuel + 1) :
    Orderly (fun _ _ ↦ True) (12 * ts.ahead.length + 11) ts (Tracer.more (fuel + 1) n e) := by
  rw [Tracer.more]
  refine (Orderly.lift .acceptBinary?).bind fun op mid _ hop ↦ ?_
  cases op with
  | none => exact .pure trivial
  | some op =>
    have hgains := hop (Option.some_ne_none op)
    refine (Orderly.within (ih.level (n + 1) mid _ (by grind) (by grind)) (fun _ _ ↦ id)
      (by grind)).bind fun right rest _ hright ↦ ?_
    exact (ih.more n _ rest (by grind)).mono (by grind) (by grind)

/-- A sign is taken before the rest is read; without one the operand has a lower rank. -/
theorem unary_succ (ih : ExprsOrderly fuel) (hfuel : Production.unary.weight ts.ahead ≤ fuel + 1)
    (hbound : Production.unary.weight ts.ahead < bound) :
    Orderly (Gains ts) bound ts (Tracer.unary (fuel + 1)) := by
  rw [Tracer.unary]
  refine .within ?_ (fun _ _ ↦ id) hbound
  refine (Orderly.lift .accept).bind fun isMinus mid hmid hminus ↦ ?_
  split
  · refine (ih.unary mid _ (by grind) (by grind)).bind fun e rest _ he ↦ ?_
    exact .pure (by grind)
  refine (Orderly.lift .accept).bind fun isBang mid₁ hmid₁ hbang ↦ ?_
  split
  · refine (ih.unary mid₁ _ (by grind) (by grind)).bind fun e rest _ he ↦ ?_
    exact .pure (by grind)
  · refine (ih.primary mid₁ _ (by grind) (by grind)).bind fun e rest _ he ↦ ?_
    exact (ih.items e rest (by grind)).mono (by grind) (by grind)

/-- A round over items takes a bracket first. -/
theorem items_succ (ih : ExprsOrderly fuel) {e : Expr} (hfuel : 12 * ts.ahead.length < fuel + 1) :
    Orderly (fun _ _ ↦ True) (12 * ts.ahead.length + 11) ts (Tracer.items (fuel + 1) e) := by
  rw [Tracer.items]
  refine (Orderly.lift .accept).bind fun isOpen mid _ hopen ↦ ?_
  split
  · refine Orderly.bind (Q := Gains mid) (.within ?_ (fun _ _ ↦ id) (by grind))
      fun item rest _ hitem ↦ ?_
    · refine (ih.level 0 mid _ (by grind) (by grind)).bind fun i rest _ hi ↦ ?_
      refine (Orderly.lift .accept).bind fun isSlice rest₁ _ _ ↦ ?_
      split
      · refine (ih.level 0 rest₁ _ (by grind) (by grind)).bind fun j rest₂ _ hj ↦ ?_
        exact (Orderly.lift .consume).bind fun _ rest₃ _ _ ↦ .pure (by grind)
      · exact (Orderly.lift .consume).bind fun _ rest₂ _ _ ↦ .pure (by grind)
    · exact (ih.items item rest (by grind)).mono (by grind) (by grind)
  · exact .pure trivial

/-- An operand takes a token first, whichever kind it is. -/
theorem primary_succ (ih : ExprsOrderly fuel)
    (hfuel : Production.primary.weight ts.ahead ≤ fuel + 1)
    (hbound : Production.primary.weight ts.ahead < bound) :
    Orderly (Gains ts) bound ts (Tracer.primary (fuel + 1)) := by
  rw [Tracer.primary]
  refine .within ?_ (fun _ _ ↦ id) hbound
  refine (Orderly.lift .peek?).bind fun k mid _ hk ↦ ?_
  obtain ⟨hk, rfl⟩ := hk
  split
  case h_9 | h_10 | h_11 => exact .lift .unexpected
  all_goals
    refine (Orderly.lift .advance).bind fun _ mid _ hadvance ↦ ?_
    have hgains := hadvance (hk ▸ Option.some_ne_none _)
  · exact .pure hgains
  · exact .pure hgains
  · exact .pure hgains
  · exact .pure hgains
  · exact .pure hgains
  · refine (Orderly.lift .accept).bind fun isCall rest _ _ ↦ ?_
    split
    · refine (ih.arguments _ rest _ (by grind) (by grind)).bind fun _ _ _ _ ↦ ?_
      exact .pure (by grind)
    · exact .pure (by grind)
  · refine (ih.level 0 mid _ (by grind) (by grind)).bind fun e rest _ he ↦ ?_
    exact (Orderly.lift .consume).bind fun _ rest₁ _ _ ↦ .pure (by grind)
  · refine (ih.arguments _ mid _ (by grind) (by grind)).bind fun _ _ _ _ ↦ ?_
    exact .pure (by grind)

/-- The first argument is read, or the list is closed. -/
theorem arguments_succ (ih : ExprsOrderly fuel) {close : Symbol}
    (hfuel : Production.arguments.weight ts.ahead ≤ fuel + 1)
    (hbound : Production.arguments.weight ts.ahead < bound) :
    Orderly (Gains ts) bound ts (Tracer.arguments (fuel + 1) close) := by
  rw [Tracer.arguments]
  refine .within ?_ (fun _ _ ↦ id) hbound
  refine (Orderly.lift .at?).bind fun isClosed mid _ hclosed ↦ ?_
  obtain ⟨-, rfl⟩ := hclosed
  split
  · exact (Orderly.lift .consume).bind fun _ rest _ hrest ↦ .pure (by grind)
  · refine (Orderly.within (ih.level 0 mid _ (by grind) (by grind)) (fun _ _ ↦ id)
      (by grind)).bind fun e rest _ he ↦ ?_
    refine ((ih.moreArguments rest (by grind)).mono (fun _ _ _ ↦ id) (by grind)).bind
      fun es rest₁ _ _ ↦ ?_
    exact (Orderly.lift .consume).bind fun _ rest₂ _ _ ↦ .pure (by grind)

/-- A further argument comes behind a comma. -/
theorem moreArguments_succ (ih : ExprsOrderly fuel) (hfuel : 12 * ts.ahead.length < fuel + 1) :
    Orderly (fun _ _ ↦ True) (12 * ts.ahead.length + 11) ts (Tracer.moreArguments (fuel + 1)) := by
  rw [Tracer.moreArguments]
  refine (Orderly.lift .accept).bind fun isComma mid _ hcomma ↦ ?_
  split
  · refine (Orderly.within (ih.level 0 mid _ (by grind) (by grind)) (fun _ _ ↦ id)
      (by grind)).bind fun e rest _ he ↦ ?_
    refine ((ih.moreArguments rest (by grind)).mono (fun _ _ _ ↦ id) (by grind)).bind
      fun es rest₁ _ _ ↦ ?_
    exact .pure trivial
  · exact .pure trivial

end ExprsOrderly

/-- Traces of expressions are in order, with enough fuel for their weight. -/
theorem exprsOrderly (fuel : Nat) : ExprsOrderly fuel := by
  induction fuel with
  | zero => exact .zero
  | succ fuel ih =>
    exact {
      level := fun _ _ _ ↦ ih.level_succ
      more := fun _ _ _ ↦ ih.more_succ
      unary := fun _ _ ↦ ih.unary_succ
      items := fun _ _ ↦ ih.items_succ
      primary := fun _ _ ↦ ih.primary_succ
      arguments := fun _ _ _ ↦ ih.arguments_succ
      moreArguments := fun _ ↦ ih.moreArguments_succ }

/-! ### Statements without statements in them -/

section Simple

variable {fuel bound : Nat} {ts : Tokens} {c : Context}

theorem orderly_expr (hfuel : (Production.level 0).weight ts.ahead ≤ fuel)
    (hbound : (Production.level 0).weight ts.ahead < bound) :
    Orderly (Gains ts) bound ts (expr fuel) :=
  (exprsOrderly fuel).level 0 ts bound hfuel hbound

theorem orderly_initial (hfuel : (Production.level 0).weight ts.ahead ≤ fuel)
    (hbound : (Production.level 0).weight ts.ahead < bound) {isNull : Bool} {type : Tag} :
    Orderly (fun _ _ ↦ True) bound ts (initial fuel isNull type) := by
  rw [initial]
  split
  · exact .pure trivial
  refine (Orderly.lift .accept).bind fun isGiven mid _ _ ↦ ?_
  split
  · refine (Orderly.lift .fitsLiteral).bind fun _ rest _ hrest ↦ ?_
    obtain rfl := hrest
    exact (orderly_expr (by grind) (by grind)).bind fun _ _ _ _ ↦ .pure trivial
  · exact .pure trivial

theorem orderly_declare (hfuel : (Production.level 0).weight ts.ahead ≤ fuel)
    (hbound : (Production.level 0).weight ts.ahead < bound) :
    Orderly (Gains ts) bound ts (declare fuel c) := by
  refine (Orderly.lift .advance).bind fun _ _ _ _ ↦ ?_
  refine (Orderly.lift .acceptKeyword).bind fun isConst _ _ _ ↦ ?_
  refine (Orderly.lift .acceptKeyword).bind fun _ _ _ _ ↦ ?_
  refine (Orderly.lift .readType).bind fun type _ _ _ ↦ ?_
  refine (Orderly.lift .consumeName).bind fun name _ _ _ ↦ ?_
  refine (orderly_initial (by grind) (by grind)).bind fun init _ _ _ ↦ ?_
  refine (Orderly.lift .consume).bind fun _ _ _ _ ↦ ?_
  refine (Orderly.lift (.check fun _ ↦ Context.isCheck_of_declare)).bind fun _ _ _ _ ↦ ?_
  exact .pure (by grind)

theorem orderly_assign (hfuel : (Production.level 0).weight ts.ahead ≤ fuel)
    (hbound : (Production.level 0).weight ts.ahead < bound) :
    Orderly (Gains ts) bound ts (assign fuel c) := by
  refine (Orderly.lift .consumeName).bind fun name _ _ _ ↦ ?_
  refine (Orderly.lift (.check fun _ ↦ Context.isCheck_of_assignable)).bind fun _ _ _ _ ↦ ?_
  refine (Orderly.lift .consume).bind fun _ _ _ _ ↦ ?_
  refine (orderly_expr (by grind) (by grind)).bind fun value _ _ _ ↦ ?_
  refine (Orderly.lift .consume).bind fun _ _ _ _ ↦ ?_
  exact .pure (by grind)

theorem orderly_assignAt (hfuel : (Production.level 0).weight ts.ahead ≤ fuel)
    (hbound : (Production.level 0).weight ts.ahead < bound) :
    Orderly (Gains ts) bound ts (assignAt fuel c) := by
  refine (Orderly.lift .consumeName).bind fun name _ _ _ ↦ ?_
  refine (Orderly.lift (.check fun _ ↦ Context.isCheck_of_assignable)).bind fun _ _ _ _ ↦ ?_
  refine (Orderly.lift .consume).bind fun _ _ _ _ ↦ ?_
  refine (orderly_expr (by grind) (by grind)).bind fun i _ _ _ ↦ ?_
  refine (Orderly.lift .consume).bind fun _ _ _ _ ↦ ?_
  refine (Orderly.lift .consume).bind fun _ _ _ _ ↦ ?_
  refine (orderly_expr (by grind) (by grind)).bind fun value _ _ _ ↦ ?_
  refine (Orderly.lift .consume).bind fun _ _ _ _ ↦ ?_
  exact .pure (by grind)

theorem orderly_stepBy {op : BinaryOp} {context : String} :
    Orderly (Gains ts) bound ts (stepBy op context c) := by
  refine (Orderly.lift .advance).bind fun _ _ _ _ ↦ ?_
  refine (Orderly.lift .advance).bind fun _ _ _ _ ↦ ?_
  refine (Orderly.lift .consumeName).bind fun name _ _ _ ↦ ?_
  refine (Orderly.lift (.check fun _ ↦ Context.isCheck_of_assignable)).bind fun _ _ _ _ ↦ ?_
  refine (Orderly.lift .consume).bind fun _ _ _ _ ↦ ?_
  exact .pure (by grind)

theorem orderly_breakLoop : Orderly (Gains ts) bound ts (breakLoop c) := by
  refine (Orderly.lift .advance).bind fun _ _ _ _ ↦ ?_
  refine (Orderly.lift .readDepth).bind fun _ _ _ _ ↦ ?_
  refine (Orderly.lift .consume).bind fun _ _ _ _ ↦ ?_
  refine (Orderly.lift (.check fun _ ↦ Context.isCheck_of_enclosing)).bind fun _ _ _ _ ↦ ?_
  exact .pure (by grind)

theorem orderly_continueLoop : Orderly (Gains ts) bound ts (continueLoop c) := by
  refine (Orderly.lift .advance).bind fun _ _ _ _ ↦ ?_
  refine (Orderly.lift .consume).bind fun _ _ _ _ ↦ ?_
  refine (Orderly.lift (.check fun _ ↦ Context.isCheck_of_enclosing)).bind fun _ _ _ _ ↦ ?_
  exact .pure (by grind)

theorem orderly_giveBack (hfuel : (Production.level 0).weight ts.ahead ≤ fuel)
    (hbound : (Production.level 0).weight ts.ahead < bound) :
    Orderly (Gains ts) bound ts (giveBack fuel c) := by
  refine (Orderly.lift .advance).bind fun _ mid _ _ ↦ ?_
  refine (Orderly.lift .at?).bind fun isBare rest _ hbare ↦ ?_
  obtain ⟨hbare, rfl⟩ := hbare
  refine (Orderly.lift (.check fun _ ↦ Context.isCheck_of_mayReturn)).bind fun _ rest _ hrest ↦ ?_
  obtain rfl := hrest
  split
  · rename_i hisBare
    refine (Orderly.lift .advance).bind fun _ _ _ hadvance ↦ ?_
    have hgains := hadvance (hbare hisBare ▸ Option.some_ne_none _)
    exact .pure (by grind)
  · refine (orderly_expr (by grind) (by grind)).bind fun value _ _ _ ↦ ?_
    exact (Orderly.lift .consume).bind fun _ _ _ _ ↦ .pure (by grind)

theorem orderly_exit : Orderly (Gains ts) bound ts (exit c) := by
  refine (Orderly.lift .advance).bind fun _ _ _ _ ↦ ?_
  exact (Orderly.lift .consume).bind fun _ _ _ _ ↦ .pure (by grind)

theorem orderly_unset : Orderly (Gains ts) bound ts (unset c) := by
  refine (Orderly.lift .advance).bind fun _ _ _ _ ↦ ?_
  refine (Orderly.lift .consumeName).bind fun name _ _ _ ↦ ?_
  refine (Orderly.lift (.check fun _ ↦ Context.isCheck_of_assignable)).bind fun _ _ _ _ ↦ ?_
  exact (Orderly.lift .consume).bind fun _ _ _ _ ↦ .pure (by grind)

theorem orderly_uses : Orderly (Gains ts) bound ts (uses c) := by
  refine (Orderly.lift .advance).bind fun _ _ _ _ ↦ ?_
  refine (Orderly.lift .readTarget).bind fun target _ _ _ ↦ ?_
  exact (Orderly.lift .consume).bind fun _ _ _ _ ↦ .pure (by grind)

theorem orderly_eval (hfuel : (Production.level 0).weight ts.ahead ≤ fuel)
    (hbound : (Production.level 0).weight ts.ahead < bound) :
    Orderly (Gains ts) bound ts (eval fuel c) := by
  refine (orderly_expr hfuel hbound).bind fun e _ _ _ ↦ ?_
  exact (Orderly.lift .consume).bind fun _ _ _ _ ↦ .pure (by grind)

/-- A condition takes its parenthesis before the expression begins. -/
theorem orderly_condition (hfuel : 12 * ts.ahead.length ≤ fuel)
    (hbound : 12 * ts.ahead.length ≤ bound) {context : String} :
    Orderly (Gains ts) bound ts (condition fuel context) := by
  refine (Orderly.lift .consume).bind fun _ _ _ _ ↦ ?_
  refine (orderly_expr (by grind) (by grind)).bind fun e _ _ _ ↦ ?_
  exact (Orderly.lift .consume).bind fun _ _ _ _ ↦ .pure (by grind)

/-- A round over parameters takes a name. -/
theorem orderly_params (hfuel : 12 * ts.ahead.length < fuel) {before : List String} :
    Orderly (fun _ _ ↦ True) (12 * ts.ahead.length + 11) ts (params fuel before) := by
  induction fuel generalizing ts before with
  | zero => omega
  | succ fuel ih =>
    rw [params]
    refine Orderly.bind (Q := Gains ts) (.within ?_ (fun _ _ ↦ id) (by grind))
      fun param mid _ hparam ↦ ?_
    · refine (Orderly.lift .consumeName).bind fun param mid _ _ ↦ ?_
      split
      · exact .lift (.fail (by simp))
      · exact .pure (by grind)
    · refine (Orderly.lift .accept).bind fun isComma rest _ _ ↦ ?_
      split
      · exact (ih (by grind)).mono (fun _ _ _ ↦ id) (by grind)
      · exact .pure trivial

theorem orderly_paramList (hfuel : 12 * ts.ahead.length ≤ fuel)
    (hbound : 12 * ts.ahead.length ≤ bound) :
    Orderly (fun _ _ ↦ True) bound ts (paramList fuel) := by
  refine (Orderly.lift .consume).bind fun _ mid _ _ ↦ ?_
  refine (Orderly.lift .at?).bind fun isClosed rest _ hclosed ↦ ?_
  obtain ⟨-, rfl⟩ := hclosed
  dsimp only
  split
  · exact Orderly.bind (Q := fun _ _ ↦ True) (.pure trivial) fun _ _ _ _ ↦
      (Orderly.lift .consume).bind fun _ _ _ _ ↦ .pure trivial
  · refine ((orderly_params (by grind)).mono (fun _ _ _ ↦ id) (by grind)).bind fun _ _ _ _ ↦ ?_
    exact (Orderly.lift .consume).bind fun _ _ _ _ ↦ .pure trivial

/-- The head of a function takes its name at least. -/
theorem orderly_head (hfuel : 12 * ts.ahead.length ≤ fuel) (hbound : 12 * ts.ahead.length ≤ bound) :
    Orderly (Gains ts) bound ts (head fuel c) := by
  refine (Orderly.lift .acceptKeyword).bind fun _ _ _ _ ↦ ?_
  refine (Orderly.lift .acceptKeyword).bind fun isTail _ _ _ ↦ ?_
  refine (Orderly.lift .readReturns).bind fun returns _ _ _ ↦ ?_
  refine (Orderly.lift .consumeName).bind fun name _ _ _ ↦ ?_
  split
  · exact .lift (.fail (by simp))
  · refine (orderly_paramList (by grind) (by grind)).bind fun names _ _ _ ↦ ?_
    exact .pure (by grind)

end Simple

/-! ### Statements -/

/-- Only an expression starts where there is no token. -/
theorem next?_ne_none_of_form {ts : Tokens} (h : Form.ofTokens ts.ahead ≠ .eval) :
    ts.next? ≠ none := by
  obtain ⟨ahead, stop⟩ := ts
  cases ahead with
  | nil => exact absurd rfl h
  | cons t rest => exact Option.some_ne_none _

/-- Traces of statements are in order if there is fuel for their weight. -/
structure StmtsOrderly (fuel : Nat) : Prop where
  stmt : ∀ c ts bound, Production.statement.weight ts.ahead ≤ fuel →
    Production.statement.weight ts.ahead < bound → Orderly (Gains ts) bound ts (stmt fuel c)
  branches : ∀ c ts, 12 * ts.ahead.length < fuel →
    Orderly (Gains ts) (12 * ts.ahead.length + 11) ts (branches fuel c)
  block : ∀ c ts bound, Production.block.weight ts.ahead ≤ fuel →
    Production.block.weight ts.ahead < bound → Orderly (Gains ts) bound ts (block fuel c)
  stmts : ∀ c ts, Production.round.weight ts.ahead ≤ fuel →
    Orderly (Gains ts) (Production.statements.weight ts.ahead) ts (stmts fuel c)

namespace StmtsOrderly

variable {fuel bound : Nat} {ts : Tokens} {c : Context}

theorem zero : StmtsOrderly 0 := by
  constructor <;> grind

/-- A statement takes a token before another statement begins in it. -/
theorem stmt_succ (ih : StmtsOrderly fuel) (hfuel : Production.statement.weight ts.ahead ≤ fuel + 1)
    (hbound : Production.statement.weight ts.ahead < bound) :
    Orderly (Gains ts) bound ts (Tracer.stmt (fuel + 1) c) := by
  rw [Tracer.stmt]
  refine .within ?_ (fun _ _ ↦ id) hbound
  refine (Orderly.lift .form).bind fun form mid _ hform ↦ ?_
  obtain ⟨hform, rfl⟩ := hform
  cases form with
  | declare => exact orderly_declare (by grind) (by grind)
  | condition =>
    refine (Orderly.lift .advance).bind fun _ rest _ hadvance ↦ ?_
    -- the branches are rounds, so they must not start where the statement does
    have hgains := hadvance (next?_ne_none_of_form (hform ▸ by simp))
    exact (ih.branches c rest (by grind)).mono (by grind) (by grind)
  | loop =>
    refine (Orderly.lift .advance).bind fun _ _ _ _ ↦ ?_
    refine (orderly_condition (by grind) (by grind)).bind fun test _ _ _ ↦ ?_
    refine (ih.block _ _ _ (by grind) (by grind)).bind fun body _ _ _ ↦ ?_
    exact .pure (by grind)
  | breakLoop => exact orderly_breakLoop
  | continueLoop => exact orderly_continueLoop
  | function =>
    refine (Orderly.lift .advance).bind fun _ _ _ _ ↦ ?_
    refine (orderly_head (by grind) (by grind)).bind fun head _ _ _ ↦ ?_
    refine (Orderly.lift .consume).bind fun _ _ _ _ ↦ ?_
    refine (Orderly.within (ih.stmts _ _ (by grind)) (fun _ _ ↦ id) (by grind)).bind
      fun body _ _ _ ↦ ?_
    exact .pure (by grind)
  | giveBack => exact orderly_giveBack (by grind) (by grind)
  | exit => exact orderly_exit
  | unset => exact orderly_unset
  | uses => exact orderly_uses
  | block =>
    refine (ih.block _ _ _ (by grind) (by grind)).bind fun body _ _ _ ↦ ?_
    exact .pure (by grind)
  | increment => exact orderly_stepBy
  | decrement => exact orderly_stepBy
  | assign => exact orderly_assign (by grind) (by grind)
  | assignAt => exact orderly_assignAt (by grind) (by grind)
  | eval => exact orderly_eval (by grind) (by grind)

/-- A branch takes its condition before the next one begins. -/
theorem branches_succ (ih : StmtsOrderly fuel) (hfuel : 12 * ts.ahead.length < fuel + 1) :
    Orderly (Gains ts) (12 * ts.ahead.length + 11) ts (Tracer.branches (fuel + 1) c) := by
  rw [Tracer.branches]
  refine Orderly.bind (Q := Gains ts) (.within ?_ (fun _ _ ↦ id) (by grind))
    fun branch mid _ hbranch ↦ ?_
  · refine (orderly_condition (by grind) (by grind)).bind fun test _ _ _ ↦ ?_
    refine (ih.block _ _ _ (by grind) (by grind)).bind fun body _ _ _ ↦ ?_
    exact .pure (by grind)
  refine (Orderly.lift .acceptKeyword).bind fun isElif _ _ _ ↦ ?_
  split
  · refine ((ih.branches _ _ (by grind)).mono (fun _ _ _ ↦ id) (by grind)).bind fun next _ _ _ ↦ ?_
    exact .pure (by grind)
  refine (Orderly.lift .acceptKeyword).bind fun isElse _ _ _ ↦ ?_
  split
  · refine (ih.block _ _ _ (by grind) (by grind)).bind fun last _ _ _ ↦ ?_
    exact .pure (by grind)
  · exact .pure (by grind)

/-- A block takes its brace first. -/
theorem block_succ (ih : StmtsOrderly fuel) (hfuel : Production.block.weight ts.ahead ≤ fuel + 1)
    (hbound : Production.block.weight ts.ahead < bound) :
    Orderly (Gains ts) bound ts (Tracer.block (fuel + 1) c) := by
  rw [Tracer.block]
  refine .within ?_ (fun _ _ ↦ id) hbound
  refine (Orderly.lift .consume).bind fun _ _ _ _ ↦ ?_
  refine (Orderly.within (ih.stmts _ _ (by grind)) (fun _ _ ↦ id) (by grind)).bind
    fun body _ _ _ ↦ ?_
  exact .pure (by grind)

/-- A round over statements reads one, or takes the brace that ends them. -/
theorem stmts_succ (ih : StmtsOrderly fuel) (hfuel : Production.round.weight ts.ahead ≤ fuel + 1) :
    Orderly (Gains ts) (Production.statements.weight ts.ahead) ts (Tracer.stmts (fuel + 1) c) := by
  rw [Tracer.stmts]
  refine (Orderly.lift .at?).bind fun isClosed mid _ hmid ↦ ?_
  obtain ⟨-, rfl⟩ := hmid
  refine (Orderly.lift .atEnd).bind fun isEnd rest _ hrest ↦ ?_
  obtain rfl := hrest
  split
  · exact (Orderly.lift .consume).bind fun _ _ _ _ ↦ .pure (by grind)
  · refine (Orderly.within (ih.stmt _ _ _ (by grind) (by grind)) (fun _ _ ↦ id) (by grind)).bind
      fun s _ _ _ ↦ ?_
    refine ((ih.stmts _ _ (by grind)).mono (fun _ _ _ ↦ id) (by grind)).bind fun ss _ _ _ ↦ ?_
    exact .pure (by grind)

end StmtsOrderly

/-- Traces of statements are in order, with enough fuel for their weight. -/
theorem stmtsOrderly (fuel : Nat) : StmtsOrderly fuel := by
  induction fuel with
  | zero => exact .zero
  | succ fuel ih =>
    exact {
      stmt := fun _ _ _ ↦ ih.stmt_succ
      branches := fun _ _ ↦ ih.branches_succ
      block := fun _ _ _ ↦ ih.block_succ
      stmts := fun _ _ ↦ ih.stmts_succ }

theorem orderly_all {fuel : Nat} {ts : Tokens} {c : Context}
    (hfuel : Production.round.weight ts.ahead ≤ fuel) :
    Orderly (fun _ _ ↦ True) (Production.statements.weight ts.ahead) ts (all fuel c) := by
  induction fuel generalizing ts c with
  | zero => grind
  | succ fuel ih =>
    rw [all]
    refine (Orderly.lift .atEnd).bind fun isEnd rest _ hrest ↦ ?_
    obtain rfl := hrest
    split
    · exact .pure trivial
    · refine (Orderly.within ((stmtsOrderly fuel).stmt _ _ _ (by grind) (by grind)) (fun _ _ ↦ id)
        (by grind)).bind fun s _ _ _ ↦ ?_
      refine ((ih (by grind)).mono (fun _ _ _ ↦ id) (by grind)).bind fun ss _ _ _ ↦ ?_
      exact .pure trivial

end Tracer

end Scriptlet
