import Scriptlet.Proofs.Tree.ReadExpr
import Scriptlet.Proofs.Tree.Valid
import Scriptlet.Tree.Read

/-!
# Reading statements

Whatever the readers of statements make of some tokens is spelled by those tokens and valid where it
stands: a `break` has enough loops around it, a `return` is allowed, and no function has two
parameters alike (`Clause.Sound`). The form of a statement is told from a few tokens, and each form
has one lemma. The whole program follows by recursion on fuel (`Clause.sound`).
-/

namespace Scriptlet

open Reader Tokens

variable {fuel : Nat} {c c' : Context} {ts ts' : Tokens} {s : Stmt} {ks : List Kind}

/-! ### Forms -/

/-- The kind that a form is told from, where it is told from a single one. -/
def Form.first? : Form → Option Kind
  | .declare => some (.keyword .let_)
  | .condition => some (.keyword .if_)
  | .loop => some (.keyword .while_)
  | .breakLoop => some (.keyword .break_)
  | .continueLoop => some (.keyword .continue_)
  | .function => some (.keyword .func)
  | .giveBack => some (.keyword .return_)
  | .exit => some (.keyword .exit)
  | .unset => some (.keyword .del)
  | .uses => some (.keyword .import_)
  | .block => some (.symbol .leftBrace)
  | .increment => some (.symbol .plus)
  | .decrement => some (.symbol .minus)
  | .assign | .assignAt | .eval => none

/-- A form that is told from a kind has it next. -/
theorem next?_of_first? {k : Kind} (h : (Form.ofTokens ts.ahead).first? = some k) :
    ts.next? = some k := by
  obtain ⟨ahead, stop⟩ := ts
  rcases ahead with - | ⟨⟨kind, span⟩, rest⟩
  · cases h
  · simp only [Tokens.next?, List.head?_cons, Option.map_some]
    rw [← h]
    cases kind with
    | keyword k => cases k <;> first | rfl | cases h
    | symbol s =>
      cases s with
      | plus | minus => 
        simp only [Form.ofTokens] at h ⊢
        split at h
        · simp [*, Form.first?]
        · cases h
      | _ => first | rfl | cases h
    | name s => 
      simp only [Form.ofTokens] at h ⊢
      split at h
      · cases h
      · split at h <;> cases h
    | _ => cases h

/-- A plus begins an increment if another one follows. -/
theorem form_eq_of_plus {mid : Tokens} (h : Takes [.symbol .plus] ts mid) :
    Form.ofTokens ts.ahead = if startsWith .plus mid.ahead then .increment else .eval := by
  obtain ⟨span, rfl⟩ := takes_singleton.1 h
  rfl

theorem form_eq_of_minus {mid : Tokens} (h : Takes [.symbol .minus] ts mid) :
    Form.ofTokens ts.ahead = if startsWith .minus mid.ahead then .decrement else .eval := by
  obtain ⟨span, rfl⟩ := takes_singleton.1 h
  rfl

/-! ### What is read is spelled -/

namespace Clause

/-- Reading makes this clause of the tokens between two states. -/
def Reads (fuel : Nat) (c c' : Context) (ts ts' : Tokens) : Clause → Prop
  | .stmt s => readStmt fuel c ts = .ok ((s, c'), ts')
  | .condition s => readIf fuel c ts = .ok ((s, c'), ts')
  | .block ss => readBlock fuel c ts = .ok ((ss, c'), ts')
  | .stmts ss => readBody fuel c ts = .ok ((ss, c'), ts')

/-- The tokens between two states are of these kinds. The statements of a block are read together
with the brace behind them. -/
def Taken (ks : List Kind) (ts ts' : Tokens) : Clause → Prop
  | .stmts _ => Takes (ks ++ [.symbol .rightBrace]) ts ts'
  | .stmt _ | .condition _ | .block _ => Takes ks ts ts'

/-- A clause with so many loops around it in its body is valid. -/
def valid (loops : Nat) (place : Place) : Clause → Bool
  | .stmt s => s.valid loops place
  | .condition s => s.valid loops place && s.isAlternative
  | .block ss | .stmts ss => Stmt.validAll loops place ss

/-- What is known of a clause that was read. -/
structure Fine (c c' : Context) (ts ts' : Tokens) (cl : Clause) : Prop where
  spelled : ∃ ks, cl.Taken ks ts ts' ∧ cl.Spelled ks
  valid : cl.valid c.loops c.place = true
  loops : c'.loops = c.loops
  place : c'.place = c.place

end Clause

open Clause (Fine)

/-- An expression that was read is spelled by its tokens. -/
theorem exists_spelled_of_readExpr {e : Expr} (h : readExpr fuel ts = .ok (e, ts')) :
    ∃ ks, Takes ks ts ts' ∧ Phrase.Spelled (.level 0 e) ks :=
  Phrase.sound fuel (p := .level 0 e) h

/-- A keyword that may stand there is taken if it does. -/
theorem takes_optional_of_acceptKeyword {k : Keyword} {b : Bool}
    (h : acceptKeyword k ts = .ok (b, ts')) : Takes (k.optional b) ts ts' := by
  cases b with
  | true => exact acceptKeyword_eq_true.1 h
  | false => exact takes_nil.2 (acceptKeyword_eq_false.1 h).2

theorem Context.declare_eq_ok {name : String} {b : Binding} (h : c.declare name b = .ok c') :
    c'.loops = c.loops ∧ c'.place = c.place := by
  rw [Context.declare] at h
  split at h
  · cases h
  · split at h
    · cases h
    · cases h
      exact ⟨rfl, rfl⟩

theorem Context.assigned_loops_place (name : String) :
    (c.assigned name).loops = c.loops ∧ (c.assigned name).place = c.place := by
  rw [Context.assigned]
  split
  · exact ⟨rfl, rfl⟩
  · split <;> exact ⟨rfl, rfl⟩

/-- A type is `null`, or it is spelled by what was taken. -/
theorem takes_of_readType {isNull : Bool} {type : Tag}
    (h : readType ts = .ok ((isNull, type), ts')) :
    isNull = true ∧ type = .auto ∧ Takes [.keyword .null] ts ts' ∨
      isNull = false ∧ ∃ ks, type.Spelled ks ∧ Takes ks ts ts' := by
  rw [readType] at h
  obtain ⟨isNull', mid, hnull, h⟩ := bind_eq_ok.1 h
  cases isNull' with
  | true =>
    obtain ⟨⟨⟩, rfl⟩ := pure_eq_ok.1 h
    exact .inl ⟨rfl, rfl, acceptKeyword_eq_true.1 hnull⟩
  | false =>
    obtain ⟨-, rfl⟩ := acceptKeyword_eq_false.1 hnull
    obtain ⟨type?, mid, htype, h⟩ := bind_eq_ok.1 h
    obtain ⟨⟨⟩, rfl⟩ := pure_eq_ok.1 h
    cases type? with
    | none => exact .inr ⟨rfl, [], .omitted, takes_nil.2 (acceptType?_eq_none.1 htype).2⟩
    | some type =>
      obtain ⟨k, hk, htakes⟩ := acceptType?_eq_some.1 htype
      exact .inr ⟨rfl, _, .given (Tag.named_iff.2 hk), htakes⟩

/-- A look at a literal takes nothing. -/
theorem eq_of_fitsLiteral {type : Tag} {u : Unit} (h : fitsLiteral type ts = .ok (u, ts')) :
    ts = ts' := by
  rw [fitsLiteral] at h
  split at h
  · split at h
    · split at h
      · split at h <;> cases h
        rfl
      · cases h
        rfl
    · cases h
      rfl
  · cases h
    rfl

/-- An initial value is an equals sign and an expression, or nothing. -/
theorem takes_of_readInit {isNull : Bool} {type : Tag} {init : Option Expr}
    (h : readInit fuel isNull type ts = .ok (init, ts')) :
    init = none ∧ ts = ts' ∨
      isNull = false ∧ ∃ e ks, init = some e ∧ Phrase.Spelled (.level 0 e) ks ∧
        Takes (.symbol .equal :: ks) ts ts' := by
  cases isNull with
  | true =>
    obtain ⟨rfl, rfl⟩ := pure_eq_ok.1 h
    exact .inl ⟨rfl, rfl⟩
  | false =>
    obtain ⟨isGiven, mid, hequal, h⟩ := bind_eq_ok.1 h
    cases isGiven with
    | true =>
      obtain ⟨_, mid', hfits, h⟩ := bind_eq_ok.1 h
      obtain rfl := eq_of_fitsLiteral hfits
      obtain ⟨e, mid', he, h⟩ := bind_eq_ok.1 h
      obtain ⟨rfl, rfl⟩ := pure_eq_ok.1 h
      obtain ⟨ks, hks, he⟩ := exists_spelled_of_readExpr he
      exact .inr ⟨rfl, e, ks, rfl, he, (accept_eq_true.1 hequal).cons hks⟩
    | false =>
      obtain ⟨-, rfl⟩ := accept_eq_false.1 hequal
      obtain ⟨rfl, rfl⟩ := pure_eq_ok.1 h
      exact .inl ⟨rfl, rfl⟩

/-- A declaration that was read is spelled by its tokens, and valid. -/
theorem read_of_readDeclare (hk : ts.next? = some (.keyword .let_))
    (h : readDeclare fuel c ts = .ok ((s, c'), ts')) : Fine c c' ts ts' (.stmt s) := by
  simp only [readDeclare, bind_eq_ok, check_eq_ok, consume_eq_ok, pure_eq_ok] at h
  obtain ⟨_, mid₁, hlet, isConst, mid₂, hconst, isStatic, mid₃, hstatic, ⟨isNull, type⟩, mid₄,
    htype, ⟨name, span⟩, mid₅, hname, init, mid₆, hinit, _, mid₇, hend, c₁, mid₈, ⟨hdeclare, rfl⟩,
    ⟨⟩, rfl⟩ := h
  have hlet := advance_eq_ok hk hlet
  have hconst := takes_optional_of_acceptKeyword hconst
  have hstatic := takes_optional_of_acceptKeyword hstatic
  have hname := takes_of_consumeName hname
  obtain ⟨hloops, hplace⟩ := Context.declare_eq_ok hdeclare
  refine ⟨?_, rfl, hloops, hplace⟩
  rcases takes_of_readInit hinit with ⟨rfl, rfl⟩ | ⟨rfl, e, ks', rfl, he, hks'⟩
  · rcases takes_of_readType htype with ⟨rfl, rfl, hnull⟩ | ⟨rfl, ks, hks, htype⟩
    · exact ⟨_, hlet.cons (hconst.trans (hstatic.trans (hnull.cons (hname.cons hend)))),
        .declareNull isConst isStatic⟩
    · exact ⟨_, hlet.cons (hconst.trans (hstatic.trans (htype.trans (hname.cons hend)))),
        .declare isConst isStatic hks⟩
  · rcases takes_of_readType htype with ⟨hnull, -⟩ | ⟨-, ks, hks, htype⟩
    · cases hnull
    · obtain ⟨mid, hequal, hks'⟩ := takes_cons.1 hks'
      exact ⟨_, hlet.cons (hconst.trans (hstatic.trans (htype.trans (hname.cons (hequal.cons
        (hks'.trans hend)))))), .initialise isConst isStatic hks he⟩

theorem read_of_readAssign (h : readAssign fuel c ts = .ok ((s, c'), ts')) :
    Fine c c' ts ts' (.stmt s) := by
  simp only [readAssign, bind_eq_ok, check_eq_ok, consume_eq_ok, pure_eq_ok] at h
  obtain ⟨⟨name, span⟩, mid₁, hname, _, _, ⟨-, rfl⟩, _, mid₂, hequal, value, mid₃, hvalue, _, mid₄,
    hend, ⟨⟩, rfl⟩ := h
  obtain ⟨ks, hks, hvalue⟩ := exists_spelled_of_readExpr hvalue
  obtain ⟨hloops, hplace⟩ := Context.assigned_loops_place (c := c) name
  exact ⟨⟨_, (takes_of_consumeName hname).cons (hequal.cons (hks.trans hend)), .assign hvalue⟩,
    rfl, hloops, hplace⟩

theorem read_of_readAssignAt (h : readAssignAt fuel c ts = .ok ((s, c'), ts')) :
    Fine c c' ts ts' (.stmt s) := by
  simp only [readAssignAt, bind_eq_ok, check_eq_ok, consume_eq_ok, pure_eq_ok] at h
  obtain ⟨⟨name, span⟩, mid₁, hname, _, _, ⟨-, rfl⟩, _, mid₂, hopen, i, mid₃, hi, _, mid₄, hclose,
    _, mid₅, hequal, value, mid₆, hvalue, _, mid₇, hend, ⟨⟩, rfl⟩ := h
  obtain ⟨ks, hks, hi⟩ := exists_spelled_of_readExpr hi
  obtain ⟨ks', hks', hvalue⟩ := exists_spelled_of_readExpr hvalue
  exact ⟨⟨_, (takes_of_consumeName hname).cons (hopen.cons (hks.trans (hclose.cons (hequal.cons
    (hks'.trans hend))))), .assignAt hi hvalue⟩, rfl, rfl, rfl⟩

theorem read_of_readStep {op : BinaryOp} {context : String} {k : Kind}
    (hk : ts.next? = some k) (hk' : ∀ mid, Takes [k] ts mid → mid.next? = some k)
    (hspelled : ∀ name, Clause.Spelled (.stmt (.step op name))
      [k, k, .name name, .symbol .semicolon])
    (h : readStep op context c ts = .ok ((s, c'), ts')) : Fine c c' ts ts' (.stmt s) := by
  simp only [readStep, bind_eq_ok, check_eq_ok, consume_eq_ok, pure_eq_ok] at h
  obtain ⟨_, mid₁, hfirst, _, mid₂, hsecond, ⟨name, span⟩, mid₃, hname, _, _, ⟨-, rfl⟩, _, mid₄,
    hend, ⟨⟩, rfl⟩ := h
  have hfirst := advance_eq_ok hk hfirst
  have hsecond := advance_eq_ok (hk' mid₁ hfirst) hsecond
  exact ⟨⟨_, hfirst.cons (hsecond.cons ((takes_of_consumeName hname).cons hend)), hspelled name⟩,
    rfl, rfl, rfl⟩

/-- A depth is an integer, or 1 without one. -/
theorem takes_of_readDepth {depth : Nat} (h : readDepth ts = .ok (depth, ts')) :
    depth = 1 ∧ ts = ts' ∨ ∃ n : Int64, depth = n.toInt.toNat ∧ Takes [.int n] ts ts' := by
  rw [readDepth] at h
  obtain ⟨k?, mid, hpeek, h⟩ := bind_eq_ok.1 h
  obtain ⟨rfl, rfl⟩ := peek?_eq_ok.1 hpeek
  generalize hk : ts.next? = k? at h
  split at h
  · obtain ⟨_, mid, hadvance, h⟩ := bind_eq_ok.1 h
    obtain ⟨rfl, rfl⟩ := pure_eq_ok.1 h
    exact .inr ⟨_, rfl, advance_eq_ok hk hadvance⟩
  · obtain ⟨rfl, rfl⟩ := pure_eq_ok.1 h
    exact .inl ⟨rfl, rfl⟩

/-- So many loops have to be around. -/
theorem Context.enclosing_eq_ok {keyword : Keyword} {depth : Nat} {u : Unit} :
    c.enclosing keyword depth = .ok u ↔ 1 ≤ depth ∧ depth ≤ c.loops := by
  rw [Context.enclosing]
  split
  · simp; omega
  · split
    · simp; omega
    · simp; omega

/-- A `break` that was read has its loops around it. -/
theorem read_of_readBreak (hk : ts.next? = some (.keyword .break_))
    (h : readBreak c ts = .ok ((s, c'), ts')) : Fine c c' ts ts' (.stmt s) := by
  simp only [readBreak, bind_eq_ok, check_eq_ok, consume_eq_ok, pure_eq_ok] at h
  obtain ⟨_, mid₁, hfirst, depth, mid₂, hdepth, _, mid₃, hend, _, _, ⟨hloops, rfl⟩, ⟨⟩, rfl⟩ := h
  have hfirst := advance_eq_ok hk hfirst
  refine ⟨?_, by simpa [Clause.valid, Stmt.valid] using Context.enclosing_eq_ok.1 hloops, rfl, rfl⟩
  rcases takes_of_readDepth hdepth with ⟨rfl, rfl⟩ | ⟨n, rfl, hn⟩
  · exact ⟨_, hfirst.cons hend, .breakOne⟩
  · exact ⟨_, hfirst.cons (hn.cons hend), .breakLoop n⟩

theorem read_of_readContinue (hk : ts.next? = some (.keyword .continue_))
    (h : readContinue c ts = .ok ((s, c'), ts')) : Fine c c' ts ts' (.stmt s) := by
  simp only [readContinue, bind_eq_ok, check_eq_ok, consume_eq_ok, pure_eq_ok] at h
  obtain ⟨_, mid₁, hfirst, _, mid₂, hend, _, _, ⟨hloops, rfl⟩, ⟨⟩, rfl⟩ := h
  exact ⟨⟨_, (advance_eq_ok hk hfirst).cons hend, .continueLoop⟩,
    by simpa [Clause.valid, Stmt.valid] using (Context.enclosing_eq_ok.1 hloops).2, rfl, rfl⟩

/-- A `return` is allowed where its place allows it. -/
theorem Context.mayReturn_eq_ok {isBare : Bool} {u : Unit} :
    c.mayReturn isBare = .ok u ↔ c.place.allows isBare = true := by
  obtain ⟨blocks, loops, place, functions⟩ := c
  rcases place with - | ⟨_ | _⟩ <;> cases isBare <;> simp [Context.mayReturn, Place.allows]

/-- A `return` that was read stands where it may. -/
theorem read_of_readReturn (hk : ts.next? = some (.keyword .return_))
    (h : readReturn fuel c ts = .ok ((s, c'), ts')) : Fine c c' ts ts' (.stmt s) := by
  simp only [readReturn, bind_eq_ok, check_eq_ok] at h
  obtain ⟨_, mid₁, hfirst, isBare, _, hbare, _, _, ⟨hallows, rfl⟩, h⟩ := h
  obtain ⟨hsemicolon, rfl⟩ := at?_eq_ok.1 hbare
  have hallows := Context.mayReturn_eq_ok.1 hallows
  cases isBare with
  | true =>
    obtain ⟨_, mid₂, hend, h⟩ := bind_eq_ok.1 h
    obtain ⟨⟨⟩, rfl⟩ := pure_eq_ok.1 h
    have htakes := (advance_eq_ok hk hfirst).cons (advance_eq_ok (hsemicolon.1 rfl) hend)
    exact ⟨⟨_, htakes, .giveBackNone⟩, hallows, rfl, rfl⟩
  | false =>
    obtain ⟨value, mid₂, hvalue, h⟩ := bind_eq_ok.1 h
    obtain ⟨_, mid₃, hend, h⟩ := bind_eq_ok.1 h
    obtain ⟨⟨⟩, rfl⟩ := pure_eq_ok.1 h
    obtain ⟨ks, hks, hvalue⟩ := exists_spelled_of_readExpr hvalue
    exact ⟨⟨_, (advance_eq_ok hk hfirst).cons (hks.trans (consume_eq_ok.1 hend)), .giveBack hvalue⟩,
      hallows, rfl, rfl⟩

theorem read_of_readExit (hk : ts.next? = some (.keyword .exit))
    (h : readExit c ts = .ok ((s, c'), ts')) : Fine c c' ts ts' (.stmt s) := by
  simp only [readExit, bind_eq_ok, consume_eq_ok, pure_eq_ok] at h
  obtain ⟨_, mid₁, hfirst, _, mid₂, hend, ⟨⟩, rfl⟩ := h
  exact ⟨⟨_, (advance_eq_ok hk hfirst).cons hend, .exit⟩, rfl, rfl, rfl⟩

theorem read_of_readUnset (hk : ts.next? = some (.keyword .del))
    (h : readUnset c ts = .ok ((s, c'), ts')) : Fine c c' ts ts' (.stmt s) := by
  simp only [readUnset, bind_eq_ok, check_eq_ok, consume_eq_ok, pure_eq_ok] at h
  obtain ⟨_, mid₁, hfirst, ⟨name, span⟩, mid₂, hname, _, _, ⟨-, rfl⟩, _, mid₃, hend, ⟨⟩, rfl⟩ := h
  exact ⟨⟨_, (advance_eq_ok hk hfirst).cons ((takes_of_consumeName hname).cons hend), .unset⟩,
    rfl, rfl, rfl⟩

theorem read_of_readUses (hk : ts.next? = some (.keyword .import_))
    (h : readUses c ts = .ok ((s, c'), ts')) : Fine c c' ts ts' (.stmt s) := by
  simp only [readUses, bind_eq_ok, consume_eq_ok, pure_eq_ok] at h
  obtain ⟨_, mid₁, hfirst, target, mid₂, htarget, _, mid₃, hend, ⟨⟩, rfl⟩ := h
  have hfirst := advance_eq_ok hk hfirst
  rw [readTarget] at htarget
  obtain ⟨k?, mid, hpeek, h⟩ := bind_eq_ok.1 htarget
  obtain ⟨rfl, rfl⟩ := peek?_eq_ok.1 hpeek
  generalize hk : mid₁.next? = k? at h
  refine ⟨?_, rfl, rfl, rfl⟩
  split at h
  · obtain ⟨_, mid, hadvance, h⟩ := bind_eq_ok.1 h
    obtain ⟨rfl, rfl⟩ := pure_eq_ok.1 h
    exact ⟨_, hfirst.cons ((advance_eq_ok hk hadvance).cons hend), .usesName⟩
  · obtain ⟨_, mid, hadvance, h⟩ := bind_eq_ok.1 h
    obtain ⟨rfl, rfl⟩ := pure_eq_ok.1 h
    exact ⟨_, hfirst.cons ((advance_eq_ok hk hadvance).cons hend), .usesText⟩
  · exact absurd h unexpected_ne_ok

/-- An expression that was read as a statement is spelled as one. -/
theorem read_of_readEval (hform : Form.ofTokens ts.ahead = .eval)
    (h : readEval fuel c ts = .ok ((s, c'), ts')) : Fine c c' ts ts' (.stmt s) := by
  simp only [readEval, bind_eq_ok, consume_eq_ok, pure_eq_ok] at h
  obtain ⟨e, mid₁, he, _, mid₂, hend, ⟨⟩, rfl⟩ := h
  obtain ⟨ks, hks, he⟩ := exists_spelled_of_readExpr he
  refine ⟨⟨_, hks.trans hend, .eval he ?_⟩, rfl, rfl, rfl⟩
  rintro ⟨ks, rfl⟩
  obtain ⟨mid, hfirst, hks⟩ := takes_cons.1 hks
  rw [form_eq_of_minus hfirst, if_pos (startsWith_eq_true.2 hks.next?)] at hform
  cases hform

/-! ### Heads of functions -/

/-- What a function gives back is spelled by what was taken. -/
theorem takes_of_readReturns {r : Returns} (h : readReturns ts = .ok (r, ts')) :
    ∃ ks, r.Spelled ks ∧ Takes ks ts ts' := by
  rw [readReturns] at h
  obtain ⟨isVoid, mid, hvoid, h⟩ := bind_eq_ok.1 h
  cases isVoid with
  | true =>
    obtain ⟨rfl, rfl⟩ := pure_eq_ok.1 h
    exact ⟨_, .void, acceptKeyword_eq_true.1 hvoid⟩
  | false =>
    obtain ⟨-, rfl⟩ := acceptKeyword_eq_false.1 hvoid
    obtain ⟨type?, mid, htype, h⟩ := bind_eq_ok.1 h
    cases type? with
    | none =>
      obtain ⟨rfl, rfl⟩ := pure_eq_ok.1 h
      exact ⟨[], .omitted, takes_nil.2 (acceptType?_eq_none.1 htype).2⟩
    | some type =>
      obtain ⟨k, hk, htakes⟩ := acceptType?_eq_some.1 htype
      by_cases hauto : type = .auto
      · subst hauto
        obtain ⟨rfl, rfl⟩ := pure_eq_ok.1 h
        obtain rfl : k = .auto := by cases k <;> first | rfl | cases hk
        exact ⟨_, .auto, htakes⟩
      · have h : (pure (.typed type) : Reader Returns) mid = .ok (r, ts') := by
          cases type <;> first | exact h | exact absurd rfl hauto
        obtain ⟨rfl, rfl⟩ := pure_eq_ok.1 h
        exact ⟨_, .typed (Tag.named_iff.2 hk) hauto, htakes⟩

/-- Parameters with the ones before them. -/
theorem takes_of_readParams {before params : List String} (hbefore : before.Nodup)
    (h : readParams fuel before ts = .ok (params, ts')) :
    ∃ more, params = before ++ more ∧ more ≠ [] ∧ Takes (paramKinds more) ts ts' ∧
      params.Nodup := by
  induction fuel generalizing before ts with
  | zero => exact absurd h exhausted_ne_ok
  | succ fuel ih =>
    rw [readParams] at h
    obtain ⟨⟨param, span⟩, mid, hname, h⟩ := bind_eq_ok.1 h
    have hname := takes_of_consumeName hname
    simp only at h
    split at h
    · exact absurd h fail_ne_ok
    · rename_i hnew
      have hnodup : (before ++ [param]).Nodup := by
        rw [List.contains_eq_mem, decide_eq_true_eq] at hnew
        exact List.nodup_append.2 ⟨hbefore, by simp, by simp; exact fun a ha h ↦ hnew (h ▸ ha)⟩
      obtain ⟨isComma, mid', hcomma, h⟩ := bind_eq_ok.1 h
      cases isComma with
      | true =>
        obtain ⟨more, rfl, hne, htakes, hnodup⟩ := ih hnodup h
        refine ⟨param :: more, by simp, by simp, ?_, hnodup⟩
        obtain ⟨p, ps, rfl⟩ := List.exists_cons_of_ne_nil hne
        exact hname.cons ((accept_eq_true.1 hcomma).cons htakes)
      | false =>
        obtain ⟨-, rfl⟩ := accept_eq_false.1 hcomma
        obtain ⟨rfl, rfl⟩ := pure_eq_ok.1 h
        exact ⟨[param], rfl, by simp, hname, hnodup⟩

/-- Parameters are spelled in parentheses, no two of them alike. -/
theorem takes_of_readParamList {params : List String}
    (h : readParamList fuel ts = .ok (params, ts')) :
    params.Nodup ∧
      Takes (.symbol .leftParen :: (paramKinds params ++ [.symbol .rightParen])) ts ts' := by
  rw [readParamList] at h
  obtain ⟨_, mid₁, hopen, h⟩ := bind_eq_ok.1 h
  have hopen := consume_eq_ok.1 hopen
  obtain ⟨isEmpty, _, hempty, h⟩ := bind_eq_ok.1 h
  obtain ⟨-, rfl⟩ := at?_eq_ok.1 hempty
  cases isEmpty with
  | true =>
    obtain ⟨params, _, hparams, h⟩ := bind_eq_ok.1 h
    obtain ⟨rfl, rfl⟩ := pure_eq_ok.1 hparams
    obtain ⟨_, mid₃, hclose, h⟩ := bind_eq_ok.1 h
    obtain ⟨rfl, rfl⟩ := pure_eq_ok.1 h
    exact ⟨List.nodup_nil, hopen.cons (consume_eq_ok.1 hclose)⟩
  | false =>
    obtain ⟨params, mid₂, hparams, h⟩ := bind_eq_ok.1 h
    obtain ⟨more, rfl, -, htakes, hnodup⟩ := takes_of_readParams List.nodup_nil hparams
    obtain ⟨_, mid₃, hclose, h⟩ := bind_eq_ok.1 h
    obtain ⟨rfl, rfl⟩ := pure_eq_ok.1 h
    exact ⟨hnodup, hopen.cons (htakes.trans (consume_eq_ok.1 hclose))⟩

/-- The head of a function is spelled by what was taken. -/
theorem takes_of_readHead {head : Head} (h : readHead fuel c ts = .ok (head, ts')) :
    head.params.Nodup ∧ ∃ isInline ks, head.returns.Spelled ks ∧
      Takes (Keyword.optional .inline isInline ++ (Keyword.optional .tail head.isTail ++
        (ks ++ .name head.name :: .symbol .leftParen ::
          (paramKinds head.params ++ [.symbol .rightParen])))) ts ts' := by
  simp only [readHead, bind_eq_ok] at h
  obtain ⟨isInline, mid₁, hinline, isTail, mid₂, htail, returns, mid₃, hreturns, ⟨name, span⟩, mid₄,
    hname, h⟩ := h
  obtain ⟨ks, hks, hreturns⟩ := takes_of_readReturns hreturns
  simp only at h
  split at h
  · exact absurd h fail_ne_ok
  · obtain ⟨params, mid₅, hparams, h⟩ := bind_eq_ok.1 h
    obtain ⟨rfl, rfl⟩ := pure_eq_ok.1 h
    obtain ⟨hnodup, hparams⟩ := takes_of_readParamList hparams
    exact ⟨hnodup, isInline, ks, hks, (takes_optional_of_acceptKeyword hinline).trans
      ((takes_optional_of_acceptKeyword htail).trans (hreturns.trans
        ((takes_of_consumeName hname).cons hparams)))⟩

/-! ### Statements with parts -/

/-- A condition between parentheses. -/
theorem takes_of_readCondition {context : String} {e : Expr}
    (h : readCondition fuel context ts = .ok (e, ts')) :
    ∃ ks mid mid', Phrase.Spelled (.level 0 e) ks ∧ Takes [.symbol .leftParen] ts mid ∧
      Takes ks mid mid' ∧ Takes [.symbol .rightParen] mid' ts' := by
  simp only [readCondition, bind_eq_ok, consume_eq_ok, pure_eq_ok] at h
  obtain ⟨_, mid₁, hopen, e', mid₂, he, _, mid₃, hclose, rfl, rfl⟩ := h
  obtain ⟨ks, hks, he⟩ := exists_spelled_of_readExpr he
  exact ⟨ks, mid₁, mid₂, he, hopen, hks, hclose⟩

namespace Clause

/-- Clauses read with some fuel are spelled and valid. -/
def Sound (fuel : Nat) : Prop :=
  ∀ {c c' : Context} {ts ts' : Tokens} {p : Clause}, p.Reads fuel c c' ts ts' → Fine c c' ts ts' p

namespace Sound

/-- A block is its statements between braces. -/
theorem block {ss : List Stmt} (ih : Sound fuel)
    (h : readBlock (fuel + 1) c ts = .ok ((ss, c'), ts')) : Fine c c' ts ts' (.block ss) := by
  rw [readBlock] at h
  obtain ⟨_, mid, hopen, h⟩ := bind_eq_ok.1 h
  obtain ⟨⟨body, inner⟩, mid', hbody, h⟩ := bind_eq_ok.1 h
  obtain ⟨⟨⟩, rfl⟩ := pure_eq_ok.1 h
  obtain ⟨⟨ks, hks, hspelled⟩, hvalid, hloops, hplace⟩ := ih (p := .stmts ss) hbody
  exact ⟨⟨_, (consume_eq_ok.1 hopen).cons hks, .block hspelled⟩, hvalid, hloops, hplace⟩

/-- Statements are read one after the other, up to the brace. -/
theorem stmts {ss : List Stmt} (ih : Sound fuel)
    (h : readBody (fuel + 1) c ts = .ok ((ss, c'), ts')) : Fine c c' ts ts' (.stmts ss) := by
  rw [readBody] at h
  obtain ⟨isClosed, _, hclosed, h⟩ := bind_eq_ok.1 h
  obtain ⟨-, rfl⟩ := at?_eq_ok.1 hclosed
  obtain ⟨isEnd, _, hend, h⟩ := bind_eq_ok.1 h
  obtain ⟨-, rfl⟩ := atEnd_eq_ok.1 hend
  split at h
  · obtain ⟨_, mid, hclose, h⟩ := bind_eq_ok.1 h
    obtain ⟨⟨⟩, rfl⟩ := pure_eq_ok.1 h
    exact ⟨⟨[], consume_eq_ok.1 hclose, .nil⟩, rfl, rfl, rfl⟩
  · obtain ⟨⟨s, c₁⟩, mid, hs, h⟩ := bind_eq_ok.1 h
    obtain ⟨⟨ss, c₂⟩, mid', hss, h⟩ := bind_eq_ok.1 h
    obtain ⟨⟨⟩, rfl⟩ := pure_eq_ok.1 h
    obtain ⟨⟨ks, hks, hs⟩, hvalid, hloops, hplace⟩ := ih (p := .stmt s) hs
    obtain ⟨⟨ks', hks', hss⟩, hvalid', hloops', hplace'⟩ := ih (p := .stmts ss) hss
    refine ⟨⟨ks ++ ks', ?_, .cons hs hss⟩, ?_, hloops'.trans hloops, hplace'.trans hplace⟩
    · rw [Taken, List.append_assoc]
      exact hks.trans hks'
    · rw [hloops, hplace] at hvalid'
      exact Bool.and_eq_true_iff.2 ⟨hvalid, hvalid'⟩

/-- A condition has a branch, and maybe others. -/
theorem condition (ih : Sound fuel) (h : readIf (fuel + 1) c ts = .ok ((s, c'), ts')) :
    Fine c c' ts ts' (.condition s) := by
  rw [readIf] at h
  obtain ⟨e, mid₁, he, h⟩ := bind_eq_ok.1 h
  obtain ⟨ks, mid, mid', he, hopen, hks, hclose⟩ := takes_of_readCondition he
  obtain ⟨⟨body, c₁⟩, mid₂, hbody, h⟩ := bind_eq_ok.1 h
  obtain ⟨⟨ks', hks', hblock⟩, hvalid, hloops, hplace⟩ := ih (p := .block body) hbody
  rw [Clause.valid] at hvalid
  obtain ⟨isElif, mid₃, helif, h⟩ := bind_eq_ok.1 h
  -- Another condition, a last branch, or none.
  cases isElif with
  | true =>
    obtain ⟨⟨next, c₂⟩, mid₄, hnext, h⟩ := bind_eq_ok.1 h
    obtain ⟨⟨⟩, rfl⟩ := pure_eq_ok.1 h
    obtain ⟨⟨ks'', hks'', hnext⟩, hvalid', hloops', hplace'⟩ := ih (p := .condition next) hnext
    refine ⟨⟨_, hopen.cons (hks.trans (hclose.cons (hks'.trans
      ((acceptKeyword_eq_true.1 helif).cons hks'')))), .elseIf he hblock hnext⟩, ?_,
      hloops'.trans hloops, hplace'.trans hplace⟩
    rw [Clause.valid, hloops, hplace, Bool.and_eq_true] at hvalid'
    have hself : (Stmt.ifElse e body [next]).isAlternative = true := rfl
    simp [Clause.valid, Stmt.valid, Stmt.validAll, hvalid, hvalid', hself]
  | false =>
    obtain ⟨-, rfl⟩ := acceptKeyword_eq_false.1 helif
    obtain ⟨isElse, mid₃, helse, h⟩ := bind_eq_ok.1 h
    cases isElse with
    | true =>
      obtain ⟨⟨last, c₂⟩, mid₄, hlast, h⟩ := bind_eq_ok.1 h
      obtain ⟨⟨⟩, rfl⟩ := pure_eq_ok.1 h
      obtain ⟨⟨ks'', hks'', hlast⟩, hvalid', hloops', hplace'⟩ := ih (p := .block last) hlast
      refine ⟨⟨_, hopen.cons (hks.trans (hclose.cons (hks'.trans
        ((acceptKeyword_eq_true.1 helse).cons hks'')))), .orElse he hblock hlast⟩, ?_,
        hloops'.trans hloops, hplace'.trans hplace⟩
      rw [Clause.valid, hloops, hplace] at hvalid'
      simp [Clause.valid, Stmt.valid, Stmt.validAll, hvalid, hvalid', Stmt.isAlternative]
    | false =>
      obtain ⟨-, rfl⟩ := acceptKeyword_eq_false.1 helse
      obtain ⟨⟨⟩, rfl⟩ := pure_eq_ok.1 h
      refine ⟨⟨_, hopen.cons (hks.trans (hclose.cons hks')), .noElse he hblock⟩, ?_, hloops, hplace⟩
      simp [Clause.valid, Stmt.valid, Stmt.validAll, hvalid, Stmt.isAlternative]

/-- A loop counts as one more around its body. -/
theorem whileLoop (ih : Sound fuel) (hk : ts.next? = some (.keyword .while_))
    (h : (do
      let _ ← advance
      let condition ← readCondition fuel "after 'while'"
      let (body, c) ← readBlock fuel c.enterLoop
      return (.whileLoop condition body, c.exitLoop) : Reader (Stmt × Context)) ts =
        .ok ((s, c'), ts')) :
    Fine c c' ts ts' (.stmt s) := by
  obtain ⟨_, mid₁, hfirst, h⟩ := bind_eq_ok.1 h
  obtain ⟨e, mid₂, he, h⟩ := bind_eq_ok.1 h
  obtain ⟨ks, mid, mid', he, hopen, hks, hclose⟩ := takes_of_readCondition he
  obtain ⟨⟨body, c₁⟩, mid₃, hbody, h⟩ := bind_eq_ok.1 h
  obtain ⟨⟨⟩, rfl⟩ := pure_eq_ok.1 h
  obtain ⟨⟨ks', hks', hbody⟩, hvalid, hloops, hplace⟩ := ih (p := .block body) hbody
  refine ⟨⟨_, (advance_eq_ok hk hfirst).cons (hopen.cons (hks.trans (hclose.cons hks'))),
    .whileLoop he hbody⟩, hvalid, ?_, hplace⟩
  rw [Context.exitLoop, hloops]
  rfl

/-- The body of a function has no loops around it. -/
theorem function (ih : Sound fuel) (hk : ts.next? = some (.keyword .func))
    (h : (do
      let _ ← advance
      let head ← readHead fuel c
      consume .leftBrace "before function body"
      let (body, inner) ←
        readBody fuel (c.enterFunction head.name (head.returns == .void) head.params)
      return (.function head body, c.exitFunction inner) : Reader (Stmt × Context)) ts =
        .ok ((s, c'), ts')) :
    Fine c c' ts ts' (.stmt s) := by
  obtain ⟨_, mid₁, hfirst, h⟩ := bind_eq_ok.1 h
  obtain ⟨head, mid₂, hhead, h⟩ := bind_eq_ok.1 h
  obtain ⟨hnodup, isInline, ks, hreturns, hhead⟩ := takes_of_readHead hhead
  obtain ⟨_, mid₃, hopen, h⟩ := bind_eq_ok.1 h
  obtain ⟨⟨body, inner⟩, mid₄, hbody, h⟩ := bind_eq_ok.1 h
  obtain ⟨⟨⟩, rfl⟩ := pure_eq_ok.1 h
  obtain ⟨⟨ks', hks', hbody⟩, hvalid, hloops, hplace⟩ := ih (p := .stmts body) hbody
  refine ⟨⟨_, ?_, .function isInline hreturns hbody⟩, ?_, rfl, rfl⟩
  · have := (advance_eq_ok hk hfirst).cons (hhead.trans ((consume_eq_ok.1 hopen).cons hks'))
    simpa [Taken] using this
  · exact Bool.and_eq_true_iff.2 ⟨hvalid, by simpa using hnodup⟩

theorem stmt (ih : Sound fuel) (h : readStmt (fuel + 1) c ts = .ok ((s, c'), ts')) :
    Fine c c' ts ts' (.stmt s) := by
  rw [readStmt] at h
  obtain ⟨f, _, hf, h⟩ := bind_eq_ok.1 h
  obtain ⟨hform, rfl⟩ : Form.ofTokens ts.ahead = f ∧ ts = _ := by
    simpa [form] using hf
  have hk {k : Kind} (hfirst : f.first? = some k) : ts.next? = some k :=
    next?_of_first? (hform ▸ hfirst)
  cases f with
  | declare => exact read_of_readDeclare (hk rfl) h
  | condition =>
    obtain ⟨_, mid, hfirst, h⟩ := bind_eq_ok.1 h
    obtain ⟨⟨ks, hks, hspelled⟩, hvalid, hloops, hplace⟩ := ih (p := .condition s) h
    exact ⟨⟨_, (advance_eq_ok (hk rfl) hfirst).cons hks, .ifElse hspelled⟩,
      (Bool.and_eq_true_iff.1 hvalid).1, hloops, hplace⟩
  | loop => exact ih.whileLoop (hk rfl) h
  | breakLoop => exact read_of_readBreak (hk rfl) h
  | continueLoop => exact read_of_readContinue (hk rfl) h
  | function => exact ih.function (hk rfl) h
  | giveBack => exact read_of_readReturn (hk rfl) h
  | exit => exact read_of_readExit (hk rfl) h
  | unset => exact read_of_readUnset (hk rfl) h
  | uses => exact read_of_readUses (hk rfl) h
  | block =>
    obtain ⟨⟨body, c₁⟩, mid, hbody, h⟩ := bind_eq_ok.1 h
    obtain ⟨⟨⟩, rfl⟩ := pure_eq_ok.1 h
    obtain ⟨⟨ks, hks, hspelled⟩, hvalid, hloops, hplace⟩ := ih (p := .block body) hbody
    exact ⟨⟨ks, hks, .nested hspelled⟩, hvalid, hloops, hplace⟩
  | increment =>
    refine read_of_readStep (hk rfl) (fun mid hmid ↦ ?_) (fun _ ↦ .increment) h
    rw [form_eq_of_plus hmid] at hform
    exact startsWith_eq_true.1 (by simpa using hform)
  | decrement =>
    refine read_of_readStep (hk rfl) (fun mid hmid ↦ ?_) (fun _ ↦ .decrement) h
    rw [form_eq_of_minus hmid] at hform
    exact startsWith_eq_true.1 (by simpa using hform)
  | assign => exact read_of_readAssign h
  | assignAt => exact read_of_readAssignAt h
  | eval => exact read_of_readEval hform h

end Sound

/-- **Clauses that are read are spelled by what was taken for them, and valid.** -/
theorem sound (fuel : Nat) : Sound fuel := by
  induction fuel with
  | zero =>
    intro c c' ts ts' p h
    cases p <;> cases h
  | succ fuel ih =>
    intro c c' ts ts' p h
    cases p with
    | stmt s => exact ih.stmt h
    | condition s => exact ih.condition h
    | block ss => exact ih.block h
    | stmts ss => exact ih.stmts h

end Clause

/-! ### Programs -/

/-- The kinds of the tokens ahead. -/
def Tokens.kinds (ts : Tokens) : List Kind :=
  ts.ahead.map Token.kind

theorem fine_of_readAll {ss : List Stmt} (h : readAll fuel c ts = .ok ((ss, c'), ts')) :
    ts'.ahead = [] ∧ (∃ ks, Takes ks ts ts' ∧ Program.Spelled ss ks) ∧
      Stmt.validAll c.loops c.place ss = true := by
  induction fuel generalizing c ts ss with
  | zero => cases h
  | succ fuel ih =>
    rw [readAll] at h
    obtain ⟨isEnd, _, hend, h⟩ := bind_eq_ok.1 h
    obtain ⟨hnext, rfl⟩ := atEnd_eq_ok.1 hend
    cases isEnd with
    | true =>
      obtain ⟨⟨⟩, rfl⟩ := pure_eq_ok.1 h
      refine ⟨?_, ⟨[], takes_nil.2 rfl, .nil⟩, rfl⟩
      simpa [Tokens.next?] using hnext.1 rfl
    | false =>
      obtain ⟨⟨s, c₁⟩, mid, hs, h⟩ := bind_eq_ok.1 h
      obtain ⟨⟨ss, c₂⟩, mid', hss, h⟩ := bind_eq_ok.1 h
      obtain ⟨⟨⟩, rfl⟩ := pure_eq_ok.1 h
      obtain ⟨⟨ks, hks, hs⟩, hvalid, hloops, hplace⟩ := Clause.sound fuel (p := .stmt s) hs
      obtain ⟨hahead, ⟨ks', hks', hss⟩, hvalid'⟩ := ih hss
      rw [hloops, hplace] at hvalid'
      exact ⟨hahead, ⟨ks ++ ks', hks.trans hks', .cons hs hss⟩,
        Bool.and_eq_true_iff.2 ⟨hvalid, hvalid'⟩⟩

/-- **A program that is read is spelled by its tokens, and valid.** -/
theorem Program.spelled_and_valid_of_ofTokens {p : Program} (h : Program.ofTokens ts = .ok p) :
    p.Spelled ts.kinds ∧ Stmt.validAll 0 .top p = true := by
  rw [Program.ofTokens] at h
  rcases hread : readAll (fuelFor ts.ahead.length) .start ts with e | ⟨⟨ss, c'⟩, ts'⟩
  · rw [hread] at h
    cases h
  · rw [hread] at h
    cases h
    obtain ⟨hahead, ⟨ks, ⟨taken, rfl, rfl⟩, hspelled⟩, hvalid⟩ := fine_of_readAll hread
    rw [Tokens.kinds, hahead, List.append_nil]
    exact ⟨hspelled, hvalid⟩

end Scriptlet
