import Scriptlet.Proofs.Tree.Forms

/-!
# What reading a statement depends on

A reader does two things at once: it follows the grammar and it checks names, loops and types
against its context. `Settles` takes the two apart. Tokens that spell a tree are read as that tree
and as nothing else, **if and only if** the checks on the context pass, and the tokens themselves
have no further say in it.

This module has the statements that have no statements inside them.
-/

namespace Scriptlet

open Reader Tokens

variable {fuel : Nat} {c c' : Context} {ts ts' mid : Tokens} {ks ks' : List Kind} {e : Expr}

/-! ### Readers that only checks can stop -/

/-- The cause is that of a check: it is neither about the grammar nor about fuel. -/
structure Cause.IsCheck (cause : Cause) : Prop where
  kind_ne : cause.kind ≠ .grammar
  ne_outOfFuel : cause ≠ .outOfFuel

namespace Context

variable {name : String} {cause : Cause}

/-- A declaration fails at a check. -/
theorem isCheck_of_declare {b : Binding} (h : c.declare name b = .error cause) : cause.IsCheck := by
  rw [declare] at h
  split at h
  · cases h
    exact ⟨by simp [Cause.kind], by simp⟩
  · split at h <;> cases h
    exact ⟨by simp [Cause.kind], by simp⟩

theorem isCheck_of_assignable (h : c.assignable name = .error cause) : cause.IsCheck := by
  rw [assignable] at h
  split at h <;> cases h
  exact ⟨by simp [Cause.kind], by simp⟩

/-- So does a `break` or a `continue`. -/
theorem isCheck_of_enclosing {keyword : Keyword} {depth : Nat}
    (h : c.enclosing keyword depth = .error cause) : cause.IsCheck := by
  rw [enclosing] at h
  split at h
  · cases h
    exact ⟨by simp [Cause.kind], by simp⟩
  · split at h <;> cases h
    exact ⟨by simp [Cause.kind], by simp⟩

theorem isCheck_of_mayReturn {isBare : Bool} (h : c.mayReturn isBare = .error cause) :
    cause.IsCheck := by
  unfold mayReturn at h
  split at h <;> cases h <;> exact ⟨by simp [Cause.kind], by simp⟩

end Context

/-- What a reader comes to is decided by checks: it gives what `P` says and leaves `ts'`, or it
fails at a check. -/
structure Reader.Decided {β : Type} (P : β → Prop) (ts' : Tokens)
    (x : Except Complaint (β × Tokens)) : Prop where
  ok : ∀ r, x = .ok r ↔ P r.1 ∧ r.2 = ts'
  error : ∀ e, x = .error e → e.cause.IsCheck

namespace Reader.Decided

variable {α β γ : Type} {a : α} {P P' : β → Prop} {x : Except Complaint (β × Tokens)}

theorem congr (h : Decided P ts' x) (hP : ∀ b, P b ↔ P' b) : Decided P' ts' x :=
  ⟨fun r ↦ (h.ok r).trans (and_congr_left' (hP r.1)), h.error⟩

/-- Nothing is left to decide. -/
theorem of_eq_ok {b : β} (h : x = .ok (b, ts')) : Decided (· = b) ts' x := by
  subst h
  exact ⟨fun r ↦ by rw [Except.ok.injEq, eq_comm, Prod.ext_iff], nofun⟩

/-- A check has failed. -/
theorem of_eq_error {e : Complaint} (h : x = .error e) (he : e.cause.IsCheck) (hP : ∀ b, ¬P b) :
    Decided P ts' x := by
  subst h
  refine ⟨fun r ↦ iff_of_false nofun fun h ↦ hP _ h.1, ?_⟩
  rintro _ ⟨⟩
  exact he

/-- A check decides by its result. -/
theorem check {result : Except Cause β} {span : Span}
    (hcause : ∀ cause, result = .error cause → cause.IsCheck) :
    Decided (result = .ok ·) ts (Reader.check result span ts) := by
  cases result with
  | ok b => exact (of_eq_ok rfl).congr fun _ ↦ by rw [Except.ok.injEq, eq_comm]
  | error cause => exact of_eq_error rfl (hcause cause rfl) nofun

/-- Checks decide one after the other. -/
theorem bind {x : Reader β} {f : β → Reader γ} {R : β → γ → Prop} (h : Decided P mid (x ts))
    (hf : ∀ b, P b → Decided (R b) ts' (f b mid)) :
    Decided (fun d ↦ ∃ b, P b ∧ R b d) ts' ((x >>= f) ts) := by
  rcases hx : x ts with e | ⟨b, mid'⟩
  · have hP (b : β) : ¬P b := fun hb ↦ by simpa [hx] using (h.ok (b, mid)).2 ⟨hb, rfl⟩
    have hbind : (x >>= f) ts = .error e := by
      change (x ts >>= fun p ↦ f p.1 p.2) = _
      rw [hx]
      rfl
    exact of_eq_error hbind (h.error _ hx) fun _ ⟨b, hb, _⟩ ↦ hP b hb
  · obtain ⟨hb, rfl⟩ : P b ∧ mid' = mid := (h.ok _).1 hx
    rw [bind_run hx]
    refine (hf b hb).congr fun d ↦ ⟨fun hd ↦ ⟨b, hb, hd⟩, fun ⟨b', hb', hd⟩ ↦ ?_⟩
    -- There is one answer only.
    have hb'' : x ts = .ok (b', mid') := (h.ok _).2 ⟨hb', rfl⟩
    cases hx.symm.trans hb''
    exact hd

/-- Going on after a reader that only checks something. -/
theorem bind_of_and {A : Prop} {b : β} {x : Reader β} {f : β → Reader γ} {R : γ → Prop}
    (h : Decided (fun b' ↦ A ∧ b' = b) mid (x ts)) (hf : Decided R ts' (f b mid)) :
    Decided (fun d ↦ A ∧ R d) ts' ((x >>= f) ts) := by
  have hbind : Decided (fun d ↦ ∃ b', (A ∧ b' = b) ∧ R d) ts' ((x >>= f) ts) := by
    refine h.bind ?_
    rintro _ ⟨-, rfl⟩
    exact hf
  exact hbind.congr fun d ↦ by simp

/-- Going on after a check. -/
theorem check_bind {result : Except Cause β} {span : Span} {f : β → Reader (α × Context)}
    {g : β → Context} (hcause : ∀ cause, result = .error cause → cause.IsCheck)
    (hf : ∀ b, f b ts = .ok ((a, g b), ts')) :
    Decided (fun p ↦ p.1 = a ∧ ∃ b, result = .ok b ∧ p.2 = g b) ts'
      ((Reader.check result span >>= f) ts) := by
  refine ((check hcause).bind fun b _ ↦ of_eq_ok (hf b)).congr fun p ↦ ?_
  simp only [Prod.ext_iff]
  exact ⟨fun ⟨b, hb, ha, hc⟩ ↦ ⟨ha, b, hb, hc⟩, fun ⟨ha, b, hb, hc⟩ ↦ ⟨b, hb, ha, hc⟩⟩

end Reader.Decided

/-! ### Statements without parts -/

theorem form_run {f : Form} (h : Form.ofTokens ts.ahead = f) : form ts = .ok (f, ts) := by
  rw [form, h]

/-- The form of tokens whose first kind tells it. -/
theorem form_run_of_first {f : Form} {k : Kind} (h : Takes [k] ts mid)
    (hf : ∀ span rest, Form.ofTokens (⟨k, span⟩ :: rest) = f) : form ts = .ok (f, ts) := by
  obtain ⟨span, rfl⟩ := takes_singleton.1 h
  exact form_run (hf span mid.ahead)

/-- What follows does not go on with a condition. -/
def Tokens.EndsIf (ts : Tokens) : Prop :=
  ts.next? ≠ some (.keyword .elif) ∧ ts.next? ≠ some (.keyword .else_)

/-- Reading some tokens as a tree comes down to checks on what is known before them. -/
def Settles {α : Type} (read : Nat → Context → Reader (α × Context)) (slack : Nat)
    (Ends : Tokens → Prop) (Q : Context → Context → Prop) (a : α) (ks : List Kind) : Prop :=
  ∀ ⦃fuel : Nat⦄ ⦃c : Context⦄ ⦃ts ts' : Tokens⦄, Takes ks ts ts' → Ends ts' →
    16 * ks.length + 1 ≤ fuel + slack →
    Decided (fun p ↦ p.1 = a ∧ Q c p.2) ts' (read fuel c ts)

/-- A statement is settled by checks. -/
abbrev Stmt.Settled (Q : Context → Context → Prop) (s : Stmt) (ks : List Kind) : Prop :=
  Settles readStmt 2 EndsIf Q s ks

/-- Nothing is checked. -/
theorem decided_of_eq_ok {α : Type} {a : α} {x : Except Complaint ((α × Context) × Tokens)}
    (h : x = .ok ((a, c), ts')) : Decided (fun p ↦ p.1 = a ∧ p.2 = c) ts' x :=
  (Decided.of_eq_ok h).congr fun _ ↦ Prod.ext_iff

namespace Stmt

variable {name : String} {value i : Expr}

/-- An assignment is settled by whether its name can be assigned to. -/
theorem settled_assign (h : Phrase.Spelled (.level 0 value) ks) :
    (Stmt.assign name value).Settled
      (fun c c' ↦ ∃ u, c.assignable name = .ok u ∧ c' = c.assigned name)
      (.name name :: .symbol .equal :: (ks ++ [.symbol .semicolon])) := by
  intro fuel c ts ts' ht _ hfuel
  simp only [List.length_cons, List.length_append] at hfuel
  obtain ⟨f, rfl⟩ : ∃ f, fuel = f + 1 := ⟨fuel - 1, by omega⟩
  obtain ⟨mid₁, hname, ht⟩ := takes_cons.1 ht
  obtain ⟨mid₂, hequal, ht⟩ := takes_cons.1 ht
  obtain ⟨mid₃, hvalue, hend⟩ := takes_append.1 ht
  obtain ⟨span, hspan⟩ := exists_consumeName hname
  have hread : readExpr f mid₂ = .ok (value, mid₃) :=
    readExpr_of_spelled h hvalue hend.next? rfl (by omega)
  rw [readStmt, bind_run (form_run (form_eq_assign hname hequal.next?))]
  simp only [readAssign, bind_run (hspan _)]
  refine .check_bind (fun _ ↦ Context.isCheck_of_assignable) fun _ ↦ ?_
  rw [consume_bind hequal, bind_run hread, consume_bind hend]
  rfl

theorem settled_assignAt (hi : Phrase.Spelled (.level 0 i) ks)
    (h : Phrase.Spelled (.level 0 value) ks') :
    (Stmt.assignAt name i value).Settled (fun c c' ↦ ∃ u, c.assignable name = .ok u ∧ c' = c)
      (.name name :: .symbol .leftBracket ::
        (ks ++ .symbol .rightBracket :: .symbol .equal :: (ks' ++ [.symbol .semicolon]))) := by
  intro fuel c ts ts' ht _ hfuel
  simp only [List.length_cons, List.length_append] at hfuel
  obtain ⟨f, rfl⟩ : ∃ f, fuel = f + 1 := ⟨fuel - 1, by omega⟩
  obtain ⟨mid₁, hname, ht⟩ := takes_cons.1 ht
  obtain ⟨mid₂, hopen, ht⟩ := takes_cons.1 ht
  obtain ⟨mid₃, hindex, ht⟩ := takes_append.1 ht
  obtain ⟨mid₄, hclose, ht⟩ := takes_cons.1 ht
  obtain ⟨mid₅, hequal, ht⟩ := takes_cons.1 ht
  obtain ⟨mid₆, hvalue, hend⟩ := takes_append.1 ht
  obtain ⟨span, hspan⟩ := exists_consumeName hname
  -- The brackets of the index are in pairs, so the search comes to the last one.
  have hassigns : assignsItem 0 mid₁.ahead = true :=
    (assignsItem_of_open 0 hopen).trans ((hi.assignsItem_eq hindex 0).trans
      ((assignsItem_of_last hclose).trans (startsWith_eq_true.2 hequal.next?)))
  have hreadi : readExpr f mid₂ = .ok (i, mid₃) :=
    readExpr_of_spelled hi hindex hclose.next? rfl (by omega)
  have hread : readExpr f mid₅ = .ok (value, mid₆) :=
    readExpr_of_spelled h hvalue hend.next? rfl (by omega)
  rw [readStmt, bind_run (form_run (form_eq_assignAt hname hopen.next? hassigns))]
  simp only [readAssignAt, bind_run (hspan _)]
  refine .check_bind (fun _ ↦ Context.isCheck_of_assignable) fun _ ↦ ?_
  rw [consume_bind hopen, bind_run hreadi, consume_bind hclose, consume_bind hequal, bind_run hread,
    consume_bind hend]
  rfl

/-- Two signs and a name, once the signs tell the form. -/
theorem settled_step {s : Symbol} {op : BinaryOp}
    (hform : ∀ {f : Nat} {c : Context} {ts mid : Tokens}, Takes [.symbol s] ts mid →
      mid.next? = some (.symbol s) →
      ∃ context, readStmt (f + 1) c ts = readStep op context c ts) :
    (Stmt.step op name).Settled (fun c c' ↦ ∃ u, c.assignable name = .ok u ∧ c' = c)
      [.symbol s, .symbol s, .name name, .symbol .semicolon] := by
  intro fuel c ts ts' ht _ hfuel
  simp only [List.length_cons] at hfuel
  obtain ⟨f, rfl⟩ : ∃ f, fuel = f + 1 := ⟨fuel - 1, by omega⟩
  obtain ⟨mid₁, hfirst, ht⟩ := takes_cons.1 ht
  obtain ⟨mid₂, hsecond, ht⟩ := takes_cons.1 ht
  obtain ⟨mid₃, hname, hend⟩ := takes_cons.1 ht
  obtain ⟨_, hfirst'⟩ := exists_advance hfirst
  obtain ⟨_, hsecond'⟩ := exists_advance hsecond
  obtain ⟨span, hspan⟩ := exists_consumeName hname
  obtain ⟨context, hread⟩ := @hform f c _ _ hfirst hsecond.next?
  rw [hread]
  simp only [readStep, bind_run hfirst', bind_run hsecond', bind_run (hspan _)]
  refine .check_bind (fun _ ↦ Context.isCheck_of_assignable) fun _ ↦ ?_
  rw [consume_bind hend]
  rfl

theorem settled_increment :
    (Stmt.step .add name).Settled (fun c c' ↦ ∃ u, c.assignable name = .ok u ∧ c' = c)
      [.symbol .plus, .symbol .plus, .name name, .symbol .semicolon] := by
  refine settled_step fun hfirst hsecond ↦ ⟨"after '++'", ?_⟩
  rw [readStmt, bind_run (form_run (form_eq_of_plus hfirst)),
    if_pos (startsWith_eq_true.2 hsecond)]

theorem settled_decrement :
    (Stmt.step .subtract name).Settled (fun c c' ↦ ∃ u, c.assignable name = .ok u ∧ c' = c)
      [.symbol .minus, .symbol .minus, .name name, .symbol .semicolon] := by
  refine settled_step fun hfirst hsecond ↦ ⟨"after '--'", ?_⟩
  rw [readStmt, bind_run (form_run (form_eq_of_minus hfirst)),
    if_pos (startsWith_eq_true.2 hsecond)]

theorem settled_breakOne :
    (Stmt.breakLoop 1).Settled (fun c c' ↦ ∃ u, c.enclosing .break_ 1 = .ok u ∧ c' = c)
      [.keyword .break_, .symbol .semicolon] := by
  intro fuel c ts ts' ht _ hfuel
  simp only [List.length_cons] at hfuel
  obtain ⟨f, rfl⟩ : ∃ f, fuel = f + 1 := ⟨fuel - 1, by omega⟩
  obtain ⟨mid₁, hfirst, hend⟩ := takes_cons.1 ht
  obtain ⟨_, hfirst'⟩ := exists_advance hfirst
  have hdepth : readDepth mid₁ = .ok (1, mid₁) := by
    rw [readDepth, bind_run (peek?_eq_ok.2 ⟨rfl, rfl⟩), hend.next?]
    rfl
  rw [readStmt, bind_run (form_run_of_first hfirst fun _ _ ↦ rfl)]
  simp only [readBreak, bind_run hfirst', bind_run hdepth, consume_bind hend]
  exact .check_bind (fun _ ↦ Context.isCheck_of_enclosing) fun _ ↦ rfl

/-- A `break` is settled by the loops around it. -/
theorem settled_breakLoop (n : Int64) :
    (Stmt.breakLoop n.toInt.toNat).Settled
      (fun c c' ↦ ∃ u, c.enclosing .break_ n.toInt.toNat = .ok u ∧ c' = c)
      [.keyword .break_, .int n, .symbol .semicolon] := by
  intro fuel c ts ts' ht _ hfuel
  simp only [List.length_cons] at hfuel
  obtain ⟨f, rfl⟩ : ∃ f, fuel = f + 1 := ⟨fuel - 1, by omega⟩
  obtain ⟨mid₁, hfirst, ht⟩ := takes_cons.1 ht
  obtain ⟨mid₂, hn, hend⟩ := takes_cons.1 ht
  obtain ⟨_, hfirst'⟩ := exists_advance hfirst
  obtain ⟨_, hn'⟩ := exists_advance hn
  have hdepth : readDepth mid₁ = .ok (n.toInt.toNat, mid₂) := by
    rw [readDepth, bind_run (peek?_eq_ok.2 ⟨rfl, rfl⟩), hn.next?]
    exact bind_run hn'
  rw [readStmt, bind_run (form_run_of_first hfirst fun _ _ ↦ rfl)]
  simp only [readBreak, bind_run hfirst', bind_run hdepth, consume_bind hend]
  exact .check_bind (fun _ ↦ Context.isCheck_of_enclosing) fun _ ↦ rfl

theorem settled_continueLoop :
    Stmt.continueLoop.Settled (fun c c' ↦ ∃ u, c.enclosing .continue_ 1 = .ok u ∧ c' = c)
      [.keyword .continue_, .symbol .semicolon] := by
  intro fuel c ts ts' ht _ hfuel
  simp only [List.length_cons] at hfuel
  obtain ⟨f, rfl⟩ : ∃ f, fuel = f + 1 := ⟨fuel - 1, by omega⟩
  obtain ⟨mid₁, hfirst, hend⟩ := takes_cons.1 ht
  obtain ⟨_, hfirst'⟩ := exists_advance hfirst
  rw [readStmt, bind_run (form_run_of_first hfirst fun _ _ ↦ rfl)]
  simp only [readContinue, bind_run hfirst', consume_bind hend]
  exact .check_bind (fun _ ↦ Context.isCheck_of_enclosing) fun _ ↦ rfl

/-- A `return` is settled by its place. -/
theorem settled_giveBackNone :
    (Stmt.giveBack none).Settled (fun c c' ↦ ∃ u, c.mayReturn true = .ok u ∧ c' = c)
      [.keyword .return_, .symbol .semicolon] := by
  intro fuel c ts ts' ht _ hfuel
  simp only [List.length_cons] at hfuel
  obtain ⟨f, rfl⟩ : ∃ f, fuel = f + 1 := ⟨fuel - 1, by omega⟩
  obtain ⟨mid₁, hfirst, hend⟩ := takes_cons.1 ht
  obtain ⟨_, hfirst'⟩ := exists_advance hfirst
  obtain ⟨_, hend'⟩ := exists_advance hend
  have hbare : at? .semicolon mid₁ = .ok (true, mid₁) := at?_eq_ok.2 ⟨by simp [hend.next?], rfl⟩
  rw [readStmt, bind_run (form_run_of_first hfirst fun _ _ ↦ rfl)]
  simp only [readReturn, bind_run hfirst', bind_run hbare, if_pos]
  exact .check_bind (fun _ ↦ Context.isCheck_of_mayReturn) fun _ ↦ bind_run hend'

theorem settled_giveBack (h : Phrase.Spelled (.level 0 value) ks) :
    (Stmt.giveBack (some value)).Settled (fun c c' ↦ ∃ u, c.mayReturn false = .ok u ∧ c' = c)
      (.keyword .return_ :: (ks ++ [.symbol .semicolon])) := by
  intro fuel c ts ts' ht _ hfuel
  simp only [List.length_cons, List.length_append] at hfuel
  obtain ⟨f, rfl⟩ : ∃ f, fuel = f + 1 := ⟨fuel - 1, by omega⟩
  obtain ⟨mid₁, hfirst, ht⟩ := takes_cons.1 ht
  obtain ⟨mid₂, hvalue, hend⟩ := takes_append.1 ht
  obtain ⟨_, hfirst'⟩ := exists_advance hfirst
  have hbare : at? .semicolon mid₁ = .ok (false, mid₁) := by
    refine at?_eq_ok.2 ⟨?_, rfl⟩
    obtain ⟨k, ks', rfl, hk⟩ := h.exists_opens (by simp [Phrase.slack])
    rw [hvalue.next?]
    refine iff_of_false (by simp) ?_
    rintro ⟨⟩
    cases hk
  have hread : readExpr f mid₁ = .ok (value, mid₂) :=
    readExpr_of_spelled h hvalue hend.next? rfl (by omega)
  rw [readStmt, bind_run (form_run_of_first hfirst fun _ _ ↦ rfl)]
  simp only [readReturn, bind_run hfirst', bind_run hbare, Bool.false_eq_true, if_false]
  refine .check_bind (fun _ ↦ Context.isCheck_of_mayReturn) fun _ ↦ ?_
  rw [bind_run hread, consume_bind hend]
  rfl

theorem settled_exit :
    Stmt.exit.Settled (fun c c' ↦ c' = c) [.keyword .exit, .symbol .semicolon] := by
  intro fuel c ts ts' ht _ hfuel
  simp only [List.length_cons] at hfuel
  obtain ⟨f, rfl⟩ : ∃ f, fuel = f + 1 := ⟨fuel - 1, by omega⟩
  obtain ⟨mid₁, hfirst, hend⟩ := takes_cons.1 ht
  obtain ⟨_, hfirst'⟩ := exists_advance hfirst
  rw [readStmt, bind_run (form_run_of_first hfirst fun _ _ ↦ rfl)]
  simp only [readExit, bind_run hfirst', consume_bind hend]
  exact decided_of_eq_ok rfl

/-- A `del` is settled like an assignment, and the name is forgotten. -/
theorem settled_unset :
    (Stmt.unset name).Settled (fun c c' ↦ ∃ u, c.assignable name = .ok u ∧ c' = c.forget name)
      [.keyword .del, .name name, .symbol .semicolon] := by
  intro fuel c ts ts' ht _ hfuel
  simp only [List.length_cons] at hfuel
  obtain ⟨f, rfl⟩ : ∃ f, fuel = f + 1 := ⟨fuel - 1, by omega⟩
  obtain ⟨mid₁, hfirst, ht⟩ := takes_cons.1 ht
  obtain ⟨mid₂, hname, hend⟩ := takes_cons.1 ht
  obtain ⟨_, hfirst'⟩ := exists_advance hfirst
  obtain ⟨span, hspan⟩ := exists_consumeName hname
  rw [readStmt, bind_run (form_run_of_first hfirst fun _ _ ↦ rfl)]
  simp only [readUnset, bind_run hfirst', bind_run (hspan _)]
  refine .check_bind (fun _ ↦ Context.isCheck_of_assignable) fun _ ↦ ?_
  rw [consume_bind hend]
  rfl

/-- A name or a text, once its kind tells the target. -/
theorem settled_uses {k : Kind} {target : String}
    (htarget : ∀ {ts mid : Tokens}, Takes [k] ts mid → readTarget ts = .ok (target, mid)) :
    (Stmt.uses target).Settled (fun c c' ↦ c' = c) [.keyword .import_, k, .symbol .semicolon] := by
  intro fuel c ts ts' ht _ hfuel
  simp only [List.length_cons] at hfuel
  obtain ⟨f, rfl⟩ : ∃ f, fuel = f + 1 := ⟨fuel - 1, by omega⟩
  obtain ⟨mid₁, hfirst, ht⟩ := takes_cons.1 ht
  obtain ⟨mid₂, hk, hend⟩ := takes_cons.1 ht
  obtain ⟨_, hfirst'⟩ := exists_advance hfirst
  rw [readStmt, bind_run (form_run_of_first hfirst fun _ _ ↦ rfl)]
  simp only [readUses, bind_run hfirst', bind_run (htarget hk), consume_bind hend]
  exact decided_of_eq_ok rfl

theorem readTarget_of_name {target : String} (ht : Takes [.name target] ts mid) :
    readTarget ts = .ok (target, mid) := by
  obtain ⟨_, ht'⟩ := exists_advance ht
  rw [readTarget, bind_run (peek?_eq_ok.2 ⟨rfl, rfl⟩), ht.next?]
  exact bind_run ht'

theorem readTarget_of_text {target : String} (ht : Takes [.str target] ts mid) :
    readTarget ts = .ok (target, mid) := by
  obtain ⟨_, ht'⟩ := exists_advance ht
  rw [readTarget, bind_run (peek?_eq_ok.2 ⟨rfl, rfl⟩), ht.next?]
  exact bind_run ht'

/-- An expression is a statement without any check. -/
theorem settled_eval (h : Phrase.Spelled (.level 0 e) ks)
    (hstep : ¬[.symbol .minus, .symbol .minus] <+: ks) :
    (Stmt.eval e).Settled (fun c c' ↦ c' = c) (ks ++ [.symbol .semicolon]) := by
  intro fuel c ts ts' ht _ hfuel
  simp only [List.length_append, List.length_cons] at hfuel
  obtain ⟨f, rfl⟩ : ∃ f, fuel = f + 1 := ⟨fuel - 1, by omega⟩
  obtain ⟨mid, he, hend⟩ := takes_append.1 ht
  have hread : readExpr f ts = .ok (e, mid) :=
    readExpr_of_spelled h he hend.next? rfl (by omega)
  rw [readStmt, bind_run (form_run (form_eq_eval h hstep he hend))]
  simp only [readEval, bind_run hread, consume_bind hend]
  exact decided_of_eq_ok rfl

end Stmt

/-! ### Declarations -/

/-- A keyword that may be left out is taken if it is there. -/
theorem exists_acceptKeyword {k : Keyword} {b : Bool} (ht : Takes (k.optional b ++ ks) ts ts')
    (hks : ∃ k' ks', ks = k' :: ks' ∧ k' ≠ .keyword k) :
    ∃ mid, acceptKeyword k ts = .ok (b, mid) ∧ Takes ks mid ts' := by
  obtain ⟨k', ks', rfl, hne⟩ := hks
  obtain ⟨mid, hk, hrest⟩ := takes_append.1 ht
  cases b with
  | true => exact ⟨mid, acceptKeyword_eq_true.2 hk, hrest⟩
  | false =>
    obtain rfl := takes_nil.1 hk
    refine ⟨ts, acceptKeyword_eq_false.2 ⟨?_, rfl⟩, hrest⟩
    rwa [hrest.next?, Ne, Option.some.injEq]

/-- A type in front of a name begins with none of the other keywords. -/
theorem Tag.Spelled.exists_cons {type : Tag} {name : String} (h : type.Spelled ks) (k : Keyword)
    (hk : typeOfKeyword? k = none) (rest : List Kind) :
    ∃ k' ks', ks ++ .name name :: rest = k' :: ks' ∧ k' ≠ .keyword k := by
  cases h with
  | omitted => exact ⟨_, _, rfl, by simp⟩
  | given htype =>
    refine ⟨_, _, rfl, ?_⟩
    rintro ⟨⟩
    rw [Tag.named_iff, hk] at htype
    cases htype

/-- A type that is spelled in front of a name is read. -/
theorem Tag.Spelled.readType_eq {type : Tag} {name : String} (h : type.Spelled ks)
    (ht : Takes ks ts mid) (hname : mid.next? = some (.name name)) :
    readType ts = .ok ((false, type), mid) := by
  have hnull : ts.next? ≠ some (.keyword .null) := by
    cases h with
    | omitted =>
      obtain rfl := takes_nil.1 ht
      simp [hname]
    | given htype =>
      rw [ht.next?]
      rintro ⟨⟩
      cases htype
  rw [readType, bind_run (acceptKeyword_eq_false.2 ⟨hnull, rfl⟩)]
  cases h with
  | omitted =>
    obtain rfl := takes_nil.1 ht
    have hnone : acceptType? ts = .ok (none, ts) :=
      acceptType?_eq_none.2 ⟨fun k hk ↦ by simp [hname] at hk, rfl⟩
    exact bind_run hnone
  | given htype => exact bind_run (acceptType?_eq_some.2 ⟨_, Tag.named_iff.1 htype, ht⟩)

/-- A literal that is all of an initial value fits the declared type. -/
def LiteralFits (type : Tag) : List Kind → Prop
  | [k] => ∀ v, k.literal? = some v → ∃ v', v.coerce type = .ok v'
  | _ => True

/-- Whether a literal fits is decided without taking it. -/
theorem decided_fitsLiteral {type : Tag} (h : Phrase.Spelled (.level 0 e) ks)
    (ht : Takes ks ts mid) (hend : mid.next? = some (.symbol .semicolon)) :
    Decided (fun u ↦ LiteralFits type ks ∧ u = ()) ts (fitsLiteral type ts) := by
  have hinner := h.all_isInner
  obtain ⟨k, ks', rfl, -⟩ := h.exists_opens (by simp [Phrase.slack])
  obtain ⟨mid', hk, hrest⟩ := takes_cons.1 ht
  -- No expression holds a semicolon, so one that follows the first token ends it.
  have hsemicolon : startsWith .semicolon mid'.ahead = decide (ks' = []) := by
    cases ks' with
    | nil =>
      obtain rfl := takes_nil.1 hrest
      simp [startsWith_eq_true.2 hend]
    | cons k' ks' =>
      have hne : k' ≠ .symbol .semicolon := by
        rintro rfl
        simp [Kind.isInner] at hinner
      have hnot : ¬startsWith .semicolon mid'.ahead = true := by
        rw [startsWith_eq_true, hrest.next?, Option.some.injEq]
        exact hne
      simpa using hnot
  obtain ⟨span, hts⟩ := takes_singleton.1 hk
  have hok (hread : fitsLiteral type ts = .ok ((), ts)) (hfits : LiteralFits type (k :: ks')) :
      Decided (fun u ↦ LiteralFits type (k :: ks') ∧ u = ()) ts (fitsLiteral type ts) :=
    (Decided.of_eq_ok hread).congr fun _ ↦ (and_iff_right hfits).symm
  cases ks' with
  | nil =>
    rcases hv : k.literal? with - | v
    · exact hok (by simp [fitsLiteral, hts, hv]) (by simp [LiteralFits, hv])
    · rcases hcoerce : v.coerce type with e | v'
      · have hread : fitsLiteral type ts = .error ⟨.literal type v.tag, span⟩ := by
          simp [fitsLiteral, hts, hsemicolon, hv, hcoerce]
        refine .of_eq_error hread ⟨by simp [Cause.kind], by simp⟩ fun _ ↦ ?_
        simp [LiteralFits, hv, hcoerce]
      · exact hok (by simp [fitsLiteral, hts, hv, hcoerce]) (by simp [LiteralFits, hv, hcoerce])
  | cons k' ks' =>
    refine hok ?_ (by simp [LiteralFits])
    rcases hv : k.literal? with - | v <;> simp [fitsLiteral, hts, hsemicolon, hv]

namespace Stmt

variable {name : String}

/-- A declaration, once its type and its initial value are known to be read. -/
theorem settled_declare_of (isConst isStatic : Bool) {isNull : Bool} {type : Tag}
    {init : Option Expr} {Q : Prop} (ks ks' : List Kind)
    (hfirst : ∀ k, k = .const ∨ k = .static → ∀ rest, ∃ k' ks'',
      ks ++ .name name :: rest = k' :: ks'' ∧ k' ≠ .keyword k)
    (htype : ∀ {ts mid : Tokens}, Takes ks ts mid → mid.next? = some (.name name) →
      readType ts = .ok ((isNull, type), mid))
    (hinit : ∀ {f : Nat} {ts mid : Tokens}, Takes ks' ts mid →
      mid.next? = some (.symbol .semicolon) → 16 * ks'.length ≤ f →
      Decided (fun init' ↦ Q ∧ init' = init) mid (readInit f isNull type ts)) :
    (Stmt.declare isConst type name init).Settled
      (fun c c' ↦ Q ∧ c.declare name (if isConst then .constant else .mutable) = .ok c')
      (.keyword .let_ :: (Keyword.optional .const isConst ++ (Keyword.optional .static isStatic ++
        (ks ++ .name name :: (ks' ++ [.symbol .semicolon]))))) := by
  intro fuel c ts ts' ht _ hfuel
  simp only [List.length_cons, List.length_append] at hfuel
  obtain ⟨f, rfl⟩ : ∃ f, fuel = f + 1 := ⟨fuel - 1, by omega⟩
  obtain ⟨mid₁, hlet, ht⟩ := takes_cons.1 ht
  -- Neither modifier can be mistaken for what stands behind it.
  have hstatic' : ∃ k' ks'', Keyword.optional .static isStatic ++
      (ks ++ .name name :: (ks' ++ [.symbol .semicolon])) = k' :: ks'' ∧ k' ≠ .keyword .const := by
    cases isStatic with
    | true => exact ⟨_, _, rfl, by simp⟩
    | false => exact hfirst _ (.inl rfl) _
  obtain ⟨mid₂, hconst, ht⟩ := exists_acceptKeyword ht hstatic'
  obtain ⟨mid₃, hstatic, ht⟩ := exists_acceptKeyword ht (hfirst _ (.inr rfl) _)
  obtain ⟨mid₄, hks, ht⟩ := takes_append.1 ht
  obtain ⟨mid₅, hname, ht⟩ := takes_cons.1 ht
  obtain ⟨mid₆, hks', hend⟩ := takes_append.1 ht
  obtain ⟨_, hlet'⟩ := exists_advance hlet
  obtain ⟨span, hspan⟩ := exists_consumeName hname
  have hread := hinit hks' hend.next? (show 16 * ks'.length ≤ f by omega)
  rw [readStmt, bind_run (form_run_of_first hlet fun _ _ ↦ rfl)]
  simp only [readDeclare, bind_run hlet', bind_run hconst, bind_run hstatic,
    bind_run (htype hks hname.next?), bind_run (hspan _)]
  refine (hread.bind_of_and ?_).congr fun p ↦ and_left_comm
  rw [consume_bind hend]
  refine (Decided.check_bind (fun _ ↦ Context.isCheck_of_declare) fun _ ↦ rfl).congr fun p ↦ ?_
  simp

theorem decided_readInit_none {f : Nat} {isNull : Bool} {type : Tag}
    (hend : ts.next? = some (.symbol .semicolon)) :
    Decided (fun init ↦ True ∧ init = none) ts (readInit f isNull type ts) := by
  have hread : readInit f isNull type ts = .ok (none, ts) := by
    cases isNull with
    | true => rfl
    | false => exact bind_run (accept_eq_false.2 ⟨by simp [hend], rfl⟩)
  exact (Decided.of_eq_ok hread).congr fun _ ↦ (true_and _).to_iff.symm

/-- A declaration without a value is settled by whether the name is free in its block. -/
theorem settled_declare (isConst isStatic : Bool) {type : Tag} (htype : type.Spelled ks) :
    (Stmt.declare isConst type name none).Settled
      (fun c c' ↦ True ∧ c.declare name (if isConst then .constant else .mutable) = .ok c')
      (.keyword .let_ :: (Keyword.optional .const isConst ++ (Keyword.optional .static isStatic ++
        (ks ++ [.name name, .symbol .semicolon])))) := by
  refine settled_declare_of isConst isStatic ks [] (fun k hk ↦ ?_) htype.readType_eq
    fun ht hend _ ↦ takes_nil.1 ht ▸ decided_readInit_none (takes_nil.1 ht ▸ hend)
  exact htype.exists_cons k (by rcases hk with rfl | rfl <;> rfl)

theorem settled_declareNull (isConst isStatic : Bool) :
    (Stmt.declare isConst .auto name none).Settled
      (fun c c' ↦ True ∧ c.declare name (if isConst then .constant else .mutable) = .ok c')
      (.keyword .let_ :: (Keyword.optional .const isConst ++ (Keyword.optional .static isStatic ++
        [.keyword .null, .name name, .symbol .semicolon]))) := by
  refine settled_declare_of isConst isStatic [.keyword .null] [] (fun k hk rest ↦ ?_)
    (fun ht _ ↦ bind_run (acceptKeyword_eq_true.2 ht))
    fun ht hend _ ↦ takes_nil.1 ht ▸ decided_readInit_none (takes_nil.1 ht ▸ hend)
  exact ⟨_, _, rfl, by rcases hk with rfl | rfl <;> simp⟩

/-- One with a value is settled by that and by whether a literal fits. -/
theorem settled_initialise (isConst isStatic : Bool) {type : Tag} (htype : type.Spelled ks)
    (h : Phrase.Spelled (.level 0 e) ks') :
    (Stmt.declare isConst type name (some e)).Settled
      (fun c c' ↦ LiteralFits type ks' ∧
        c.declare name (if isConst then .constant else .mutable) = .ok c')
      (.keyword .let_ :: (Keyword.optional .const isConst ++ (Keyword.optional .static isStatic ++
        (ks ++ .name name :: .symbol .equal :: (ks' ++ [.symbol .semicolon]))))) := by
  refine settled_declare_of isConst isStatic ks (.symbol .equal :: ks') (fun k hk ↦ ?_)
    htype.readType_eq fun {f ts mid} ht hend hfuel ↦ ?_
  · exact htype.exists_cons k (by rcases hk with rfl | rfl <;> rfl)
  · obtain ⟨mid', hequal, ht⟩ := takes_cons.1 ht
    rw [List.length_cons] at hfuel
    have hread : readExpr f mid' = .ok (e, mid) := readExpr_of_spelled h ht hend rfl (by omega)
    change Decided _ _ ((accept .equal >>= _ : Reader (Option Expr)) ts)
    rw [bind_run (accept_eq_true.2 hequal)]
    simp only [if_true]
    exact (decided_fitsLiteral h ht hend).bind_of_and (.of_eq_ok (bind_run hread))

end Stmt

end Scriptlet
