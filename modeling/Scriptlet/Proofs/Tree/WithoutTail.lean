import Scriptlet.Proofs.Tree.Forms

/-!
# Programs without `tail`

The keyword `tail` in the head of a function asks for its last calls to take the place of the
function itself. Here it is taken out, of tokens and of trees.
-/

namespace Scriptlet

/-- The keyword `tail`. -/
def Kind.isTail : Kind → Bool
  | .keyword .tail => true
  | _ => false

/-- Kinds but the keyword `tail`. -/
def withoutTail (ks : List Kind) : List Kind :=
  ks.filter fun k ↦ !k.isTail

/-- The tokens but the keyword `tail`. -/
def Tokens.withoutTail (ts : Tokens) : Tokens :=
  { ts with ahead := ts.ahead.filter fun t ↦ !t.kind.isTail }

/-- The keyword goes from tokens as it does from kinds. -/
theorem Tokens.kinds_withoutTail (ts : Tokens) :
    ts.withoutTail.kinds = Scriptlet.withoutTail ts.kinds := by
  simp [Tokens.withoutTail, Tokens.kinds, Scriptlet.withoutTail, List.filter_map,
    Function.comp_def]

section

variable {k : Kind} {ks ks' : List Kind}

@[simp]
theorem withoutTail_nil : withoutTail [] = [] :=
  rfl

theorem Kind.isTail_eq_false (hk : k ≠ .keyword .tail) : k.isTail = false := by
  cases k with
  | keyword w => cases w <;> first | rfl | exact absurd rfl hk
  | _ => rfl

theorem withoutTail_cons (hk : k ≠ .keyword .tail) :
    withoutTail (k :: ks) = k :: withoutTail ks :=
  List.filter_cons_of_pos (by simp [Kind.isTail_eq_false hk])

@[simp]
theorem withoutTail_append : withoutTail (ks ++ ks') = withoutTail ks ++ withoutTail ks' :=
  List.filter_append ..

/-- Where there is no such keyword all stay. -/
theorem withoutTail_eq_self (h : ∀ k ∈ ks, k ≠ .keyword .tail) : withoutTail ks = ks :=
  List.filter_eq_self.2 fun k hk ↦ by simp [Kind.isTail_eq_false (h k hk)]

/-- There is no `tail` inside an expression. -/
theorem Phrase.Spelled.withoutTail_eq {p : Phrase} (h : p.Spelled ks) : withoutTail ks = ks := by
  refine withoutTail_eq_self fun k hk ↦ ?_
  rintro rfl
  exact Bool.false_ne_true (List.all_eq_true.1 h.all_isInner _ hk)

@[simp]
theorem withoutTail_optional_tail (b : Bool) : withoutTail (Keyword.optional .tail b) = [] := by
  cases b <;> rfl

/-- Other keywords that may stand somewhere stay. -/
theorem withoutTail_optional {k : Keyword} (hk : k ≠ .tail) (b : Bool) :
    withoutTail (k.optional b) = k.optional b := by
  cases b with
  | true => exact withoutTail_cons (by simpa using hk)
  | false => rfl

/-- Types are spelled without it. -/
theorem Tag.Spelled.withoutTail_eq {type : Tag} (h : type.Spelled ks) : withoutTail ks = ks := by
  cases h with
  | omitted => rfl
  | given h => cases h <;> rfl

theorem Returns.Spelled.withoutTail_eq {returns : Returns} (h : returns.Spelled ks) :
    withoutTail ks = ks := by
  cases h with
  | typed h => cases h <;> rfl
  | _ => rfl

@[simp]
theorem withoutTail_paramKinds (params : List String) :
    withoutTail (paramKinds params) = paramKinds params := by
  fun_induction paramKinds params with
  | case1 | case2 => rfl
  | case3 _ _ _ ih => rw [withoutTail_cons (by simp), withoutTail_cons (by simp), ih]

end

/-! ### Trees -/

/-- A head that does not ask for anything. -/
def Head.withoutTail (head : Head) : Head :=
  { head with isTail := false }

mutual

/-- A statement in which no function asks for anything. -/
def Stmt.withoutTail : Stmt → Stmt
  | .ifElse e body otherwise => .ifElse e (Stmt.withoutTailAll body) (Stmt.withoutTailAll otherwise)
  | .whileLoop e body => .whileLoop e (Stmt.withoutTailAll body)
  | .function head body => .function head.withoutTail (Stmt.withoutTailAll body)
  | .block body => .block (Stmt.withoutTailAll body)
  | s => s

/-- Statements in which no function asks for anything. -/
def Stmt.withoutTailAll : List Stmt → List Stmt
  | [] => []
  | s :: ss => s.withoutTail :: Stmt.withoutTailAll ss

end

/-- A part of a program in which no function asks for anything. -/
def Clause.withoutTail : Clause → Clause
  | .stmt s => .stmt s.withoutTail
  | .condition s => .condition s.withoutTail
  | .block ss => .block (Stmt.withoutTailAll ss)
  | .stmts ss => .stmts (Stmt.withoutTailAll ss)

end Scriptlet
