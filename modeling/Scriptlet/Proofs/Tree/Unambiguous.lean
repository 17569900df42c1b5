import Scriptlet.Proofs.Tree.Checked
import Scriptlet.Proofs.Tree.Settles
import Scriptlet.Proofs.Tree.WithoutTail

/-!
# The grammar is not ambiguous

Tokens that the reader accepts spell **one tree only**, the one that it gives: whatever tree they
spell, the reader gives that one if it gives any. It would also accept them without the keyword
`tail`, since no check depends on it, and then the tree is the same but for that. The checks that
decide about acceptance imply those that are stated for trees alone.
-/

namespace Scriptlet

open Reader Tokens

variable {fuel : Nat} {c c' : Context} {ts ts' mid : Tokens} {ks ks' ks'' : List Kind} {e : Expr}
  {Q Q' : Context → Context → Prop}

/-! ### Heads -/

/-- What a function gives back, in front of its name, begins with none of the other keywords. -/
theorem Returns.Spelled.exists_cons {returns : Returns} {name : String} (h : returns.Spelled ks)
    (k : Keyword) (hk : typeOfKeyword? k = none) (hvoid : k ≠ .void) (rest : List Kind) :
    ∃ k' ks', ks ++ .name name :: rest = k' :: ks' ∧ k' ≠ .keyword k := by
  cases h with
  | omitted => exact ⟨_, _, rfl, by simp⟩
  | void => exact ⟨_, _, rfl, by simpa using hvoid.symm⟩
  | auto =>
    refine ⟨_, _, rfl, ?_⟩
    rintro ⟨⟩
    cases hk
  | typed htype =>
    refine ⟨_, _, rfl, ?_⟩
    rintro ⟨⟩
    rw [Tag.named_iff, hk] at htype
    cases htype

/-- What a function gives back is read as it is spelled. -/
theorem Returns.Spelled.readReturns_eq {returns : Returns} {name : String}
    (h : returns.Spelled ks) (ht : Takes ks ts mid) (hname : mid.next? = some (.name name)) :
    readReturns ts = .ok (returns, mid) := by
  rw [readReturns]
  cases h with
  | void => exact bind_run (acceptKeyword_eq_true.2 ht)
  | omitted =>
    obtain rfl := takes_nil.1 ht
    have hnone : acceptType? ts = .ok (none, ts) :=
      acceptType?_eq_none.2 ⟨fun k hk ↦ by simp [hname] at hk, rfl⟩
    rw [bind_run (acceptKeyword_eq_false.2 ⟨by simp [hname], rfl⟩)]
    exact bind_run hnone
  | auto =>
    rw [bind_run (acceptKeyword_eq_false.2 ⟨by simp [ht.next?], rfl⟩)]
    exact bind_run (acceptType?_eq_some.2 ⟨_, rfl, ht⟩)
  | @typed k type htype hauto =>
    have hvoid : ts.next? ≠ some (.keyword .void) := by
      rw [ht.next?]
      rintro ⟨⟩
      cases htype
    rw [bind_run (acceptKeyword_eq_false.2 ⟨hvoid, rfl⟩)]
    have haccept := acceptType?_eq_some.2 ⟨k, Tag.named_iff.1 htype, ht⟩
    simp only [Bool.false_eq_true, if_false, bind_run haccept]
    cases type <;> rfl

theorem length_le_paramKinds (params : List String) :
    params.length ≤ (paramKinds params).length := by
  fun_induction paramKinds params with
  | case1 => exact Nat.le_refl _
  | case2 => exact Nat.le_refl _
  | case3 => simp only [List.length_cons] at *; omega

/-- Parameters are read unless there is one twice. -/
theorem decided_readParams {before params : List String} (hbefore : before.Nodup)
    (hparams : params ≠ []) (ht : Takes (paramKinds params) ts mid)
    (hend : mid.next? ≠ some (.symbol .comma)) (hfuel : params.length ≤ fuel) :
    Decided (fun all ↦ (before ++ params).Nodup ∧ all = before ++ params) mid
      (readParams fuel before ts) := by
  -- The induction is on the parameters that are left; those before are known to differ.
  induction params generalizing before fuel ts with
  | nil => exact absurd rfl hparams
  | cons param params ih =>
    obtain ⟨f, rfl⟩ : ∃ f, fuel = f + 1 :=
      ⟨fuel - 1, by simp only [List.length_cons] at hfuel; omega⟩
    obtain ⟨mid₁, hname, ht⟩ : ∃ mid₁, Takes [.name param] ts mid₁ ∧
        Takes (paramKinds (param :: params)).tail mid₁ mid := by
      cases params <;> exact takes_cons.1 ht
    obtain ⟨span, hspan⟩ := exists_consumeName hname
    rw [readParams, bind_run (hspan _)]
    by_cases hmem : before.contains param = true
    · simp only [hmem, if_true]
      refine .of_eq_error rfl ⟨by simp [Cause.kind], by simp⟩ fun _ h ↦ ?_
      rw [List.contains_iff_mem] at hmem
      exact (List.nodup_append.1 h.1).2.2 _ hmem _ List.mem_cons_self rfl
    simp only [hmem, Bool.false_eq_true, if_false]
    have hnodup : (before ++ [param]).Nodup := by
      rw [List.contains_iff_mem] at hmem
      exact List.nodup_append.2 ⟨hbefore, by simp, by grind⟩
    cases params with
    | nil =>
      obtain rfl := takes_nil.1 ht
      rw [bind_run (accept_eq_false.2 ⟨hend, rfl⟩)]
      exact (Decided.of_eq_ok rfl).congr fun _ ↦ (and_iff_right hnodup).symm
    | cons next params =>
      obtain ⟨mid₂, hcomma, ht⟩ := takes_cons.1 ht
      rw [bind_run (accept_eq_true.2 hcomma)]
      have hfuel' : (next :: params).length ≤ f := by simpa using hfuel
      simpa using ih hnodup (by simp) ht hfuel'

/-- Parameters are settled by whether two are alike. -/
theorem decided_readParamList {params : List String}
    (ht : Takes (.symbol .leftParen :: (paramKinds params ++ [.symbol .rightParen])) ts mid)
    (hfuel : params.length ≤ fuel) :
    Decided (fun all ↦ params.Nodup ∧ all = params) mid (readParamList fuel ts) := by
  obtain ⟨mid₁, hopen, ht⟩ := takes_cons.1 ht
  obtain ⟨mid₂, hparams, hclose⟩ := takes_append.1 ht
  rw [readParamList, consume_bind hopen]
  cases params with
  | nil =>
    obtain rfl := takes_nil.1 hparams
    have hat : at? .rightParen mid₁ = .ok (true, mid₁) :=
      at?_eq_ok.2 ⟨by simp [hclose.next?], rfl⟩
    simp only [bind_run hat, if_true]
    rw [pure_bind, consume_bind hclose]
    exact (Decided.of_eq_ok rfl).congr fun _ ↦ (and_iff_right List.nodup_nil).symm
  | cons param params =>
    have hat : at? .rightParen mid₁ = .ok (false, mid₁) := by
      refine at?_eq_ok.2 ⟨?_, rfl⟩
      cases params <;> simp [hparams.next?]
    have hread := decided_readParams List.nodup_nil (by simp) hparams (by simp [hclose.next?]) hfuel
    simp only [bind_run hat, Bool.false_eq_true, if_false]
    refine hread.bind_of_and ?_
    rw [consume_bind hclose]
    exact .of_eq_ok rfl

/-- A head is read unless its name is taken or one of its parameters is there twice. -/
theorem decided_readHead (isInline : Bool) {head : Head} (hreturns : head.returns.Spelled ks)
    (ht : Takes (Keyword.optional .inline isInline ++ (Keyword.optional .tail head.isTail ++
      (ks ++ .name head.name :: .symbol .leftParen ::
        (paramKinds head.params ++ [.symbol .rightParen])))) ts mid)
    (hfuel : head.params.length ≤ fuel) :
    Decided (fun head' ↦ (c.functions.contains head.name = false ∧ head.params.Nodup) ∧
      head' = head) mid (readHead fuel c ts) := by
  have hfirst (k : Keyword) (hk : k = .inline ∨ k = .tail) (rest : List Kind) :
      ∃ k' ks', ks ++ .name head.name :: rest = k' :: ks' ∧ k' ≠ .keyword k :=
    hreturns.exists_cons k (by rcases hk with rfl | rfl <;> rfl)
      (by rcases hk with rfl | rfl <;> simp) rest
  obtain ⟨mid₁, hinline, ht⟩ := exists_acceptKeyword ht (by
    cases head.isTail with
    | true => exact ⟨_, _, rfl, by simp⟩
    | false => exact hfirst .inline (.inl rfl) _)
  obtain ⟨mid₂, htail, ht⟩ := exists_acceptKeyword ht (hfirst .tail (.inr rfl) _)
  obtain ⟨mid₃, hks, ht⟩ := takes_append.1 ht
  obtain ⟨mid₄, hname, ht⟩ := takes_cons.1 ht
  obtain ⟨span, hspan⟩ := exists_consumeName hname
  simp only [readHead, bind_run hinline, bind_run htail,
    bind_run (hreturns.readReturns_eq hks hname.next?), bind_run (hspan _)]
  cases c.functions.contains head.name with
  | true => exact .of_eq_error rfl ⟨by simp [Cause.kind], by simp⟩ fun _ ↦ by simp
  | false =>
    simp only [Bool.false_eq_true, if_false, true_and]
    exact (decided_readParamList ht hfuel).bind_of_and (.of_eq_ok rfl)

/-! ### Statements with statements inside them -/

/-- A part of a program is settled by checks. -/
def Clause.Settled (Q : Context → Context → Prop) : Clause → List Kind → Prop
  | .stmt s, ks => s.Settled Q ks
  | .condition s, ks => Settles readIf 4 EndsIf Q s ks
  | .block ss, ks => Settles readBlock 4 (fun _ ↦ True) Q ss ks
  | .stmts ss, ks => Settles readBody 0 (fun _ ↦ True) Q ss (ks ++ [.symbol .rightBrace]) ∧
      Settles readAll 0 (fun ts ↦ ts.next? = none) Q ss ks

/-- Going on after a part that is settled. -/
theorem Settles.bind {α β : Type} {read : Nat → Context → Reader (α × Context)} {slack : Nat}
    {Ends : Tokens → Prop} {R : Context → Context → Prop} {a : α} {b : β}
    {f : α × Context → Reader (β × Context)}
    (h : Settles read slack Ends Q a ks) (ht : Takes ks ts mid) (hend : Ends mid)
    (hfuel : 16 * ks.length + 1 ≤ fuel + slack)
    (hf : ∀ c₁, Decided (fun p ↦ p.1 = b ∧ R c₁ p.2) ts' (f (a, c₁) mid)) :
    Decided (fun p ↦ p.1 = b ∧ ∃ c₁, Q c c₁ ∧ R c₁ p.2) ts' ((read fuel c >>= f) ts) := by
  have hbind : Decided (fun p ↦ ∃ q : α × Context, (q.1 = a ∧ Q c q.2) ∧ p.1 = b ∧ R q.2 p.2) ts'
      ((read fuel c >>= f) ts) := by
    refine (h ht hend hfuel).bind ?_
    rintro ⟨_, c₁⟩ ⟨rfl, -⟩
    exact hf c₁
  refine hbind.congr fun p ↦ ⟨?_, ?_⟩
  · rintro ⟨⟨_, c₁⟩, ⟨-, hQ⟩, hb, hR⟩
    exact ⟨hb, c₁, hQ, hR⟩
  · rintro ⟨hb, c₁, hQ, hR⟩
    exact ⟨(a, c₁), ⟨rfl, hQ⟩, hb, hR⟩

/-- Nothing more is checked after a part that is settled. -/
theorem Settles.bind_of_eq_ok {α β : Type} {read : Nat → Context → Reader (α × Context)}
    {slack : Nat} {Ends : Tokens → Prop} {a : α} {b : β} {f : α × Context → Reader (β × Context)}
    {g : Context → Context} (h : Settles read slack Ends Q a ks) (ht : Takes ks ts ts')
    (hend : Ends ts') (hfuel : 16 * ks.length + 1 ≤ fuel + slack)
    (hf : ∀ c₁, f (a, c₁) ts' = .ok ((b, g c₁), ts')) :
    Decided (fun p ↦ p.1 = b ∧ ∃ c₁, Q c c₁ ∧ p.2 = g c₁) ts' ((read fuel c >>= f) ts) :=
  h.bind (R := fun c₁ c' ↦ c' = g c₁) ht hend hfuel fun c₁ ↦ decided_of_eq_ok (hf c₁)

/-- What takes nothing and does not fail may follow. -/
theorem Settles.bind_of_eq_ok_self {α β : Type} {read : Nat → Context → Reader (α × Context)}
    {slack : Nat} {Ends : Tokens → Prop} {a : α} {b : β} {f : α × Context → Reader (β × Context)}
    (h : Settles read slack Ends Q a ks) (ht : Takes ks ts ts') (hend : Ends ts')
    (hfuel : 16 * ks.length + 1 ≤ fuel + slack) (hf : ∀ c₁, f (a, c₁) ts' = .ok ((b, c₁), ts')) :
    Decided (fun p ↦ p.1 = b ∧ Q c p.2) ts' ((read fuel c >>= f) ts) :=
  (h.bind_of_eq_ok ht hend hfuel hf).congr fun p ↦ by simp

/-- A condition in parentheses is read. -/
theorem readCondition_run (h : Phrase.Spelled (.level 0 e) ks)
    (ht : Takes (.symbol .leftParen :: (ks ++ [.symbol .rightParen])) ts mid)
    (hfuel : 16 * ks.length ≤ fuel) (context : String) :
    readCondition fuel context ts = .ok (e, mid) := by
  obtain ⟨mid₁, hopen, ht⟩ := takes_cons.1 ht
  obtain ⟨mid₂, he, hclose⟩ := takes_append.1 ht
  rw [readCondition, consume_bind hopen,
    bind_run (readExpr_of_spelled h he hclose.next? rfl hfuel), consume_bind hclose]
  rfl

namespace Clause

/-- A condition is settled by its branches. -/
theorem settled_ifElse {s : Stmt} (h : Settles readIf 4 EndsIf Q s ks) :
    s.Settled Q (.keyword .if_ :: ks) := by
  intro fuel c ts ts' ht hend hfuel
  rw [List.length_cons] at hfuel
  obtain ⟨f, rfl⟩ : ∃ f, fuel = f + 1 := ⟨fuel - 1, by omega⟩
  obtain ⟨mid, hfirst, ht⟩ := takes_cons.1 ht
  obtain ⟨_, hfirst'⟩ := exists_advance hfirst
  rw [readStmt, bind_run (form_run_of_first hfirst fun _ _ ↦ rfl)]
  simp only [bind_run hfirst']
  have hfuel' : 16 * ks.length + 1 ≤ f + 4 := by omega
  exact h ht hend hfuel'

/-- A loop is settled by its body, inside one more loop. -/
theorem settled_whileLoop {body : List Stmt} (h : Phrase.Spelled (.level 0 e) ks)
    (hbody : Settles readBlock 4 (fun _ ↦ True) Q body ks') :
    (Clause.stmt (.whileLoop e body)).Settled
      (fun c c' ↦ ∃ c₁, Q c.enterLoop c₁ ∧ c' = c₁.exitLoop)
      (.keyword .while_ :: .symbol .leftParen :: (ks ++ .symbol .rightParen :: ks')) := by
  intro fuel c ts ts' ht _ hfuel
  simp only [List.length_cons, List.length_append] at hfuel
  obtain ⟨f, rfl⟩ : ∃ f, fuel = f + 1 := ⟨fuel - 1, by omega⟩
  obtain ⟨mid₁, hfirst, ht⟩ := takes_cons.1 ht
  obtain ⟨mid₂, hcondition, ht⟩ : ∃ mid₂,
      Takes (.symbol .leftParen :: (ks ++ [.symbol .rightParen])) mid₁ mid₂ ∧ Takes ks' mid₂ ts' :=
    takes_append.1 (by simpa using ht)
  obtain ⟨_, hfirst'⟩ := exists_advance hfirst
  have hread : readCondition f "after 'while'" mid₁ = .ok (e, mid₂) :=
    readCondition_run h hcondition (by omega) _
  rw [readStmt, bind_run (form_run_of_first hfirst fun _ _ ↦ rfl)]
  simp only [bind_run hfirst', bind_run hread]
  exact hbody.bind_of_eq_ok ht trivial (by omega) fun _ ↦ rfl

/-- A function is settled by its name, its parameters and its body. -/
theorem settled_function (isInline : Bool) {head : Head} {body : List Stmt}
    (hreturns : head.returns.Spelled ks)
    (hbody : Settles readBody 0 (fun _ ↦ True) Q body (ks' ++ [.symbol .rightBrace])) :
    (Clause.stmt (.function head body)).Settled
      (fun c c' ↦ (c.functions.contains head.name = false ∧ head.params.Nodup) ∧
        ∃ inner, Q (c.enterFunction head.name (head.returns == .void) head.params) inner ∧
          c' = c.exitFunction inner)
      (.keyword .func :: (Keyword.optional .inline isInline ++
        (Keyword.optional .tail head.isTail ++ (ks ++ .name head.name :: .symbol .leftParen ::
          (paramKinds head.params ++ .symbol .rightParen :: .symbol .leftBrace ::
            (ks' ++ [.symbol .rightBrace])))))) := by
  intro fuel c ts ts' ht _ hfuel
  have hparams := length_le_paramKinds head.params
  simp only [List.length_cons, List.length_append] at hfuel
  obtain ⟨f, rfl⟩ : ∃ f, fuel = f + 1 := ⟨fuel - 1, by omega⟩
  obtain ⟨mid₁, hfirst, ht⟩ := takes_cons.1 ht
  obtain ⟨mid₂, hhead, ht⟩ : ∃ mid₂,
      Takes (Keyword.optional .inline isInline ++ (Keyword.optional .tail head.isTail ++
        (ks ++ .name head.name :: .symbol .leftParen ::
          (paramKinds head.params ++ [.symbol .rightParen])))) mid₁ mid₂ ∧
      Takes (.symbol .leftBrace :: (ks' ++ [.symbol .rightBrace])) mid₂ ts' :=
    takes_append.1 (by simpa using ht)
  obtain ⟨mid₃, hopen, ht⟩ := takes_cons.1 ht
  obtain ⟨_, hfirst'⟩ := exists_advance hfirst
  rw [readStmt, bind_run (form_run_of_first hfirst fun _ _ ↦ rfl)]
  simp only [bind_run hfirst']
  have hread := decided_readHead (c := c) isInline hreturns hhead (show _ ≤ f by omega)
  refine (hread.bind_of_and ?_).congr fun p ↦ and_left_comm
  rw [consume_bind hopen]
  have hfuel' : 16 * (ks' ++ [Kind.symbol .rightBrace]).length + 1 ≤ f + 0 := by
    simp only [List.length_append, List.length_cons]
    omega
  exact hbody.bind_of_eq_ok ht trivial hfuel' fun _ ↦ rfl

theorem settled_nested {body : List Stmt}
    (h : Settles readBlock 4 (fun _ ↦ True) Q body (.symbol .leftBrace :: ks)) :
    (Stmt.block body).Settled Q (.symbol .leftBrace :: ks) := by
  intro fuel c ts ts' ht _ hfuel
  obtain ⟨f, rfl⟩ : ∃ f, fuel = f + 1 := ⟨fuel - 1, by rw [List.length_cons] at hfuel; omega⟩
  obtain ⟨mid, hfirst, -⟩ := takes_cons.1 ht
  rw [readStmt, bind_run (form_run_of_first hfirst fun _ _ ↦ rfl)]
  exact h.bind_of_eq_ok_self ht trivial (by omega) fun _ ↦ rfl

/-- What has been read of a condition before its alternative. -/
theorem decided_readIf {body : List Stmt} {s : Stmt} {R : Context → Context → Prop}
    (h : Phrase.Spelled (.level 0 e) ks)
    (hbody : Settles readBlock 4 (fun _ ↦ True) Q body ks')
    (ht : Takes (.symbol .leftParen :: (ks ++ .symbol .rightParen :: ks')) ts mid)
    (hfuel : 16 * (ks.length + ks'.length) ≤ fuel)
    (hf : ∀ c₁, Decided (fun p ↦ p.1 = s ∧ R c₁ p.2) ts' ((do
        if ← acceptKeyword .elif then
          let (next, c) ← readIf fuel c₁
          return (.ifElse e body [next], c)
        else if ← acceptKeyword .else_ then
          let (last, c) ← readBlock fuel c₁
          return (.ifElse e body [.block last], c)
        else return (.ifElse e body [], c₁) : Reader (Stmt × Context)) mid)) :
    Decided (fun p ↦ p.1 = s ∧ ∃ c₁, Q c c₁ ∧ R c₁ p.2) ts' (readIf (fuel + 1) c ts) := by
  obtain ⟨mid', hcondition, ht⟩ : ∃ mid',
      Takes (.symbol .leftParen :: (ks ++ [.symbol .rightParen])) ts mid' ∧ Takes ks' mid' mid :=
    takes_append.1 (by simpa using ht)
  have hread : readCondition fuel "before condition" ts = .ok (e, mid') :=
    readCondition_run h hcondition (by omega) _
  rw [readIf, bind_run hread]
  exact hbody.bind ht trivial (by omega) hf

/-- A last branch without `else` is settled by its block. -/
theorem settled_noElse {body : List Stmt} (h : Phrase.Spelled (.level 0 e) ks)
    (hbody : Settles readBlock 4 (fun _ ↦ True) Q body ks') :
    Settles readIf 4 EndsIf Q (.ifElse e body [])
      (.symbol .leftParen :: (ks ++ .symbol .rightParen :: ks')) := by
  intro fuel c ts ts' ht hend hfuel
  simp only [List.length_cons, List.length_append] at hfuel
  obtain ⟨f, rfl⟩ : ∃ f, fuel = f + 1 := ⟨fuel - 1, by omega⟩
  refine Decided.congr (decided_readIf (R := fun c₁ c' ↦ c' = c₁) (s := .ifElse e body []) h hbody
    ht (by omega) fun c₁ ↦ ?_) fun p ↦ by simp
  simp only [bind_run (acceptKeyword_eq_false.2 ⟨hend.1, rfl⟩),
    bind_run (acceptKeyword_eq_false.2 ⟨hend.2, rfl⟩), Bool.false_eq_true, if_false]
  exact decided_of_eq_ok rfl

/-- A branch is settled before those behind it. -/
theorem settled_elseIf {body : List Stmt} {next : Stmt} (h : Phrase.Spelled (.level 0 e) ks)
    (hbody : Settles readBlock 4 (fun _ ↦ True) Q body ks')
    (hnext : Settles readIf 4 EndsIf Q' next ks'') :
    (Clause.condition (.ifElse e body [next])).Settled (fun c c' ↦ ∃ c₁, Q c c₁ ∧ Q' c₁ c')
      (.symbol .leftParen :: (ks ++ .symbol .rightParen :: (ks' ++ .keyword .elif :: ks''))) := by
  intro fuel c ts ts' ht hend hfuel
  simp only [List.length_cons, List.length_append] at hfuel
  obtain ⟨f, rfl⟩ : ∃ f, fuel = f + 1 := ⟨fuel - 1, by omega⟩
  obtain ⟨mid, ht, ht'⟩ : ∃ mid,
      Takes (.symbol .leftParen :: (ks ++ .symbol .rightParen :: ks')) ts mid ∧
        Takes (.keyword .elif :: ks'') mid ts' :=
    takes_append.1 (by simpa using ht)
  obtain ⟨mid', hfirst, ht'⟩ := takes_cons.1 ht'
  refine decided_readIf h hbody ht (by omega) fun c₁ ↦ ?_
  simp only [bind_run (acceptKeyword_eq_true.2 hfirst), if_true]
  exact hnext.bind_of_eq_ok_self ht' hend (by omega) fun _ ↦ rfl

/-- So is the last branch before its `else`. -/
theorem settled_orElse {body last : List Stmt} (h : Phrase.Spelled (.level 0 e) ks)
    (hbody : Settles readBlock 4 (fun _ ↦ True) Q body ks')
    (hlast : Settles readBlock 4 (fun _ ↦ True) Q' last ks'') :
    (Clause.condition (.ifElse e body [.block last])).Settled
      (fun c c' ↦ ∃ c₁, Q c c₁ ∧ Q' c₁ c')
      (.symbol .leftParen :: (ks ++ .symbol .rightParen :: (ks' ++ .keyword .else_ :: ks''))) := by
  intro fuel c ts ts' ht _ hfuel
  simp only [List.length_cons, List.length_append] at hfuel
  obtain ⟨f, rfl⟩ : ∃ f, fuel = f + 1 := ⟨fuel - 1, by omega⟩
  obtain ⟨mid, ht, ht'⟩ : ∃ mid,
      Takes (.symbol .leftParen :: (ks ++ .symbol .rightParen :: ks')) ts mid ∧
        Takes (.keyword .else_ :: ks'') mid ts' :=
    takes_append.1 (by simpa using ht)
  obtain ⟨mid', hfirst, ht'⟩ := takes_cons.1 ht'
  have helif : acceptKeyword .elif mid = .ok (false, mid) :=
    acceptKeyword_eq_false.2 ⟨by simp [hfirst.next?], rfl⟩
  refine decided_readIf h hbody ht (by omega) fun c₁ ↦ ?_
  simp only [bind_run helif, bind_run (acceptKeyword_eq_true.2 hfirst), Bool.false_eq_true,
    if_false, if_true]
  exact hlast.bind_of_eq_ok_self ht' trivial (by omega) fun _ ↦ rfl

/-- A block is entered, settled and left. -/
theorem settled_block {body : List Stmt}
    (h : Settles readBody 0 (fun _ ↦ True) Q body (ks ++ [.symbol .rightBrace])) :
    (Clause.block body).Settled (fun c c' ↦ ∃ c₁, Q c.enterBlock c₁ ∧ c' = c₁.exitBlock)
      (.symbol .leftBrace :: (ks ++ [.symbol .rightBrace])) := by
  intro fuel c ts ts' ht _ hfuel
  rw [List.length_cons] at hfuel
  obtain ⟨f, rfl⟩ : ∃ f, fuel = f + 1 := ⟨fuel - 1, by omega⟩
  obtain ⟨mid, hopen, ht⟩ := takes_cons.1 ht
  rw [readBlock, consume_bind hopen]
  exact h.bind_of_eq_ok ht trivial (by omega) fun _ ↦ rfl

theorem settled_nil : (Clause.stmts []).Settled (fun c c' ↦ c' = c) [] := by
  constructor
  · intro fuel c ts ts' ht _ hfuel
    obtain ⟨f, rfl⟩ : ∃ f, fuel = f + 1 := ⟨fuel - 1, by omega⟩
    have hat : at? .rightBrace ts = .ok (true, ts) := at?_eq_ok.2 ⟨by simp [ht.next?], rfl⟩
    rw [readBody, bind_run hat]
    simp only [Bool.true_or, if_true]
    rw [bind_run (atEnd_eq_ok.2 ⟨iff_of_false Bool.false_ne_true (by simp [ht.next?]), rfl⟩),
      consume_bind ht]
    exact decided_of_eq_ok rfl
  · intro fuel c ts ts' ht hend hfuel
    obtain ⟨f, rfl⟩ : ∃ f, fuel = f + 1 := ⟨fuel - 1, by omega⟩
    obtain rfl := takes_nil.1 ht
    rw [readAll, bind_run (atEnd_eq_ok.2 ⟨iff_of_true rfl hend, rfl⟩)]
    exact decided_of_eq_ok rfl

end Clause

/-! ### Sequences of statements -/

/-- The kind may begin a statement, as far as the tokens that go on with other things are
concerned. -/
def Kind.begins : Kind → Bool
  | .keyword .elif | .keyword .else_ | .keyword .tail | .symbol .rightBrace => false
  | _ => true

/-- A statement begins with a kind that does not go on with the one before it. -/
theorem Clause.Spelled.exists_begins {s : Stmt} (h : Clause.Spelled (.stmt s) ks) :
    ∃ k rest, ks = k :: rest ∧ k.begins = true := by
  cases h with
  | nested hbody =>
    cases hbody
    exact ⟨_, _, rfl, rfl⟩
  | eval h =>
    obtain ⟨k, ks', rfl, hk⟩ := h.exists_opens (by simp [Phrase.slack])
    refine ⟨k, _, rfl, ?_⟩
    cases k with
    | keyword w => cases w <;> first | rfl | cases hk
    | symbol s => cases s <;> first | rfl | cases hk
    | _ => rfl
  | _ => exact ⟨_, _, rfl, rfl⟩

theorem Clause.Spelled.head?_begins {ss : List Stmt} (h : Clause.Spelled (.stmts ss) ks) :
    ∀ k ∈ ks.head?, k.begins = true := by
  cases h with
  | nil => simp
  | cons h =>
    obtain ⟨k, rest, rfl, hk⟩ := h.exists_begins
    simpa using hk

theorem Clause.Spelled.head?_withoutTail_begins {ss : List Stmt}
    (h : Clause.Spelled (.stmts ss) ks) :
    ∀ k ∈ (Scriptlet.withoutTail ks).head?, k.begins = true := by
  cases h with
  | nil => simp
  | cons h =>
    obtain ⟨k, rest, rfl, hk⟩ := h.exists_begins
    have hne : k ≠ .keyword .tail := by
      rintro rfl
      cases hk
    simpa [withoutTail_cons hne] using hk

/-- Where a statement begins or a block ends, a condition does not go on. -/
theorem endsIf_of_begins (h : ∀ k, ts.next? = some k → k = .symbol .rightBrace ∨ k.begins = true) :
    ts.EndsIf := by
  constructor <;>
  · intro hk
    rcases h _ hk with hk | hk <;> cases hk

namespace Clause

/-- A statement is settled before those behind it. -/
theorem settled_cons {s : Stmt} {ss : List Stmt} {k : Kind} (hk : k.begins = true)
    (h : s.Settled Q (k :: ks)) (hks' : ∀ k ∈ ks'.head?, k.begins = true)
    (hs : (Clause.stmts ss).Settled Q' ks') :
    (Clause.stmts (s :: ss)).Settled (fun c c' ↦ ∃ c₁, Q c c₁ ∧ Q' c₁ c') (k :: ks ++ ks') := by
  obtain ⟨hbody, hall⟩ :
    Settles readBody 0 (fun _ ↦ True) Q' ss (ks' ++ [Kind.symbol .rightBrace]) ∧
      Settles readAll 0 (fun ts ↦ ts.next? = none) Q' ss ks' := hs
  constructor
  · intro fuel c ts ts' ht _ hfuel
    rw [List.append_assoc] at ht
    simp only [List.length_append, List.length_cons] at hfuel
    obtain ⟨f, rfl⟩ : ∃ f, fuel = f + 1 := ⟨fuel - 1, by omega⟩
    obtain ⟨mid, hfirst, ht⟩ := takes_append.1 ht
    have hat : at? .rightBrace ts = .ok (false, ts) := by
      refine at?_eq_ok.2 ⟨iff_of_false Bool.false_ne_true ?_, rfl⟩
      rw [hfirst.next?]
      rintro ⟨⟩
      cases hk
    have hend : mid.EndsIf := by
      refine endsIf_of_begins fun k' hk' ↦ ?_
      cases ks' with
      | nil => exact .inl (by simpa [ht.next?] using hk'.symm)
      | cons k'' ks'' => exact .inr (hks' k' (by simpa [ht.next?] using hk'))
    rw [readBody, bind_run hat,
      bind_run (atEnd_eq_ok.2 ⟨iff_of_false Bool.false_ne_true (by simp [hfirst.next?]), rfl⟩)]
    simp only [Bool.or_self, Bool.false_eq_true, if_false]
    have hfuel' : 16 * (ks' ++ [Kind.symbol .rightBrace]).length + 1 ≤ f + 0 := by
      simp only [List.length_append, List.length_cons]
      omega
    refine h.bind hfirst hend (by simp only [List.length_cons]; omega) fun c₁ ↦ ?_
    exact hbody.bind_of_eq_ok_self ht trivial hfuel' fun _ ↦ rfl
  · intro fuel c ts ts' ht hnone hfuel
    simp only [List.length_append, List.length_cons] at hfuel
    obtain ⟨f, rfl⟩ : ∃ f, fuel = f + 1 := ⟨fuel - 1, by omega⟩
    obtain ⟨mid, hfirst, ht⟩ := takes_append.1 ht
    have hend : mid.EndsIf := by
      refine endsIf_of_begins fun k' hk' ↦ .inr ?_
      cases ks' with
      | nil =>
        obtain rfl := takes_nil.1 ht
        rw [hnone] at hk'
        cases hk'
      | cons k'' ks'' => exact hks' k' (by simpa [ht.next?] using hk')
    rw [readAll,
      bind_run (atEnd_eq_ok.2 ⟨iff_of_false Bool.false_ne_true (by simp [hfirst.next?]), rfl⟩)]
    simp only [Bool.false_eq_true, if_false]
    refine h.bind hfirst hend (by simp only [List.length_cons]; omega) fun c₁ ↦ ?_
    exact hall.bind_of_eq_ok_self ht hnone (by omega) fun _ ↦ rfl

/-! ### All parts of a program -/

/-- A statement without `tail` is settled the same way when `tail` is taken out. -/
theorem exists_settled_of_flat {s : Stmt} (h : s.Settled Q ks) (hs : s.withoutTail = s)
    (hks : Scriptlet.withoutTail ks = ks) (hQ : ∀ c c', Q c c' → s.Checked c c') :
    ∃ Q, (Clause.stmt s).Settled Q ks ∧
      (Clause.stmt s).withoutTail.Settled Q (Scriptlet.withoutTail ks) ∧
      ∀ c c', Q c c' → (Clause.stmt s).Checked c c' := by
  refine ⟨Q, h, ?_, hQ⟩
  rw [Clause.withoutTail, hs, hks]
  exact h

/-- What is spelled is settled by checks on the tree, which `tail` has no say in. -/
theorem Spelled.exists_settled {cl : Clause} (h : cl.Spelled ks) :
    ∃ Q, cl.Settled Q ks ∧ cl.withoutTail.Settled Q (Scriptlet.withoutTail ks) ∧
      ∀ c c', Q c c' → cl.Checked c c' := by
  -- The induction is on the derivation, with the checks built up along the way.
  induction h with
  | declare isConst isStatic htype =>
    refine exists_settled_of_flat (Stmt.settled_declare isConst isStatic htype) rfl ?_
      fun _ _ hQ ↦ .declare hQ.2
    simp [withoutTail_cons, withoutTail_optional, htype.withoutTail_eq]
  | initialise isConst isStatic htype h =>
    refine exists_settled_of_flat (Stmt.settled_initialise isConst isStatic htype h) rfl ?_
      fun _ _ hQ ↦ .declare hQ.2
    simp [withoutTail_cons, withoutTail_optional, htype.withoutTail_eq, h.withoutTail_eq]
  | declareNull isConst isStatic =>
    refine exists_settled_of_flat (Stmt.settled_declareNull isConst isStatic) rfl ?_
      fun _ _ hQ ↦ .declare hQ.2
    simp [withoutTail_cons, withoutTail_optional]
  | assign h =>
    refine exists_settled_of_flat (Stmt.settled_assign h) rfl ?_ ?_
    · simp [withoutTail_cons, h.withoutTail_eq]
    · rintro c _ ⟨_, hQ, rfl⟩
      exact .assign hQ
  | assignAt hi h =>
    refine exists_settled_of_flat (Stmt.settled_assignAt hi h) rfl ?_ ?_
    · simp [withoutTail_cons, hi.withoutTail_eq, h.withoutTail_eq]
    · rintro c _ ⟨_, hQ, rfl⟩
      exact .assignAt hQ
  | increment =>
    refine exists_settled_of_flat Stmt.settled_increment rfl rfl ?_
    rintro c _ ⟨_, hQ, rfl⟩
    exact .step hQ
  | decrement =>
    refine exists_settled_of_flat Stmt.settled_decrement rfl rfl ?_
    rintro c _ ⟨_, hQ, rfl⟩
    exact .step hQ
  | breakOne =>
    refine exists_settled_of_flat Stmt.settled_breakOne rfl rfl ?_
    rintro c _ ⟨_, hQ, rfl⟩
    exact .breakLoop hQ
  | breakLoop n =>
    refine exists_settled_of_flat (Stmt.settled_breakLoop n) rfl rfl ?_
    rintro c _ ⟨_, hQ, rfl⟩
    exact .breakLoop hQ
  | continueLoop =>
    refine exists_settled_of_flat Stmt.settled_continueLoop rfl rfl ?_
    rintro c _ ⟨_, hQ, rfl⟩
    exact .continueLoop hQ
  | giveBackNone =>
    refine exists_settled_of_flat Stmt.settled_giveBackNone rfl rfl ?_
    rintro c _ ⟨_, hQ, rfl⟩
    exact .giveBack hQ
  | giveBack h =>
    refine exists_settled_of_flat (Stmt.settled_giveBack h) rfl ?_ ?_
    · simp [withoutTail_cons, h.withoutTail_eq]
    · rintro c _ ⟨_, hQ, rfl⟩
      exact .giveBack hQ
  | exit =>
    refine exists_settled_of_flat Stmt.settled_exit rfl rfl ?_
    rintro c _ rfl
    exact .exit
  | unset =>
    refine exists_settled_of_flat Stmt.settled_unset rfl rfl ?_
    rintro c _ ⟨_, hQ, rfl⟩
    exact .unset hQ
  | usesName =>
    refine exists_settled_of_flat (Stmt.settled_uses Stmt.readTarget_of_name) rfl rfl ?_
    rintro c _ rfl
    exact .uses
  | usesText =>
    refine exists_settled_of_flat (Stmt.settled_uses Stmt.readTarget_of_text) rfl rfl ?_
    rintro c _ rfl
    exact .uses
  | eval h hstep =>
    refine exists_settled_of_flat (Stmt.settled_eval h hstep) rfl ?_ ?_
    · simp [withoutTail_cons, h.withoutTail_eq]
    · rintro c _ rfl
      exact .eval
  | ifElse _ ih =>
    obtain ⟨Q, hs, hs', hQ⟩ := ih
    refine ⟨Q, settled_ifElse hs, ?_, hQ⟩
    rw [withoutTail_cons (by simp)]
    exact settled_ifElse hs'
  | whileLoop h _ ih =>
    obtain ⟨Q, hbody, hbody', hQ⟩ := ih
    refine ⟨_, settled_whileLoop h hbody, ?_, ?_⟩
    · simp only [withoutTail_cons, withoutTail_append, h.withoutTail_eq, ne_eq, reduceCtorEq,
        not_false_eq_true, Kind.keyword.injEq]
      exact settled_whileLoop h hbody'
    · rintro c _ ⟨c₁, hc₁, rfl⟩
      obtain ⟨_, hchecked, rfl⟩ := hQ _ _ hc₁
      exact .whileLoop hchecked
  | @function isInline head body ks ks' hreturns _ ih =>
    obtain ⟨Q, ⟨hbody, -⟩, ⟨hbody', -⟩, hQ⟩ := ih
    refine ⟨_, settled_function isInline hreturns hbody, ?_, ?_⟩
    · simp only [withoutTail_cons, withoutTail_append, withoutTail_optional,
        withoutTail_optional_tail, withoutTail_paramKinds, withoutTail_nil, hreturns.withoutTail_eq,
        ne_eq, reduceCtorEq, not_false_eq_true, Kind.keyword.injEq]
      have hreturns' : head.withoutTail.returns.Spelled ks := hreturns
      exact settled_function isInline hreturns' hbody'
    · rintro c _ ⟨⟨hname, hparams⟩, inner, hinner, rfl⟩
      exact .function (by simpa using hname) hparams (hQ _ _ hinner)
  | nested hbody ih =>
    obtain ⟨Q, hs, hs', hQ⟩ := ih
    cases hbody
    refine ⟨Q, settled_nested hs, ?_, fun c _ hc ↦ ?_⟩
    · rw [withoutTail_cons (by simp)] at hs' ⊢
      exact settled_nested hs'
    · obtain ⟨_, hchecked, rfl⟩ := hQ _ _ hc
      exact .block hchecked
  | noElse h _ ih =>
    obtain ⟨Q, hbody, hbody', hQ⟩ := ih
    refine ⟨_, settled_noElse h hbody, ?_, fun c _ hc ↦ ?_⟩
    · simp only [withoutTail_cons, withoutTail_append, h.withoutTail_eq, ne_eq, reduceCtorEq,
        not_false_eq_true]
      exact settled_noElse h hbody'
    · obtain ⟨_, hchecked, rfl⟩ := hQ _ _ hc
      exact .ifElse hchecked .nil
  | elseIf h _ _ ih ihnext =>
    obtain ⟨Q, hbody, hbody', hQ⟩ := ih
    obtain ⟨Q', hnext, hnext', hQ'⟩ := ihnext
    refine ⟨_, settled_elseIf h hbody hnext, ?_, ?_⟩
    · simp only [withoutTail_cons, withoutTail_append, h.withoutTail_eq, ne_eq, reduceCtorEq,
        not_false_eq_true, Kind.keyword.injEq]
      exact settled_elseIf h hbody' hnext'
    · rintro c _ ⟨c₁, hc₁, hc'⟩
      obtain ⟨_, hchecked, rfl⟩ := hQ _ _ hc₁
      exact .ifElse hchecked (.cons (hQ' _ _ hc') .nil)
  | orElse h _ _ ih ihlast =>
    obtain ⟨Q, hbody, hbody', hQ⟩ := ih
    obtain ⟨Q', hlast, hlast', hQ'⟩ := ihlast
    refine ⟨_, settled_orElse h hbody hlast, ?_, ?_⟩
    · simp only [withoutTail_cons, withoutTail_append, h.withoutTail_eq, ne_eq, reduceCtorEq,
        not_false_eq_true, Kind.keyword.injEq]
      exact settled_orElse h hbody' hlast'
    · rintro c _ ⟨c₁, hc₁, hc'⟩
      obtain ⟨_, hchecked, rfl⟩ := hQ _ _ hc₁
      obtain ⟨_, hchecked', rfl⟩ := hQ' _ _ hc'
      exact .ifElse hchecked (.cons (.block hchecked') .nil)
  | block _ ih =>
    obtain ⟨Q, ⟨hbody, -⟩, ⟨hbody', -⟩, hQ⟩ := ih
    refine ⟨_, settled_block hbody, ?_, ?_⟩
    · simp only [withoutTail_cons, withoutTail_append, withoutTail_nil, ne_eq, reduceCtorEq,
        not_false_eq_true]
      exact settled_block hbody'
    · rintro c _ ⟨c₁, hc₁, rfl⟩
      exact ⟨c₁, hQ _ _ hc₁, rfl⟩
  | nil =>
    refine ⟨_, settled_nil, settled_nil, ?_⟩
    rintro c _ rfl
    exact .nil
  | cons h hs ih ihs =>
    obtain ⟨Q, hs₁, hs₁', hQ⟩ := ih
    obtain ⟨Q', hs₂, hs₂', hQ'⟩ := ihs
    obtain ⟨k, ks, rfl, hk⟩ := h.exists_begins
    have hne : k ≠ .keyword .tail := by
      rintro rfl
      cases hk
    refine ⟨_, settled_cons hk hs₁ hs.head?_begins hs₂, ?_, ?_⟩
    · rw [withoutTail_append, withoutTail_cons hne]
      rw [withoutTail_cons hne] at hs₁'
      exact settled_cons hk hs₁' hs.head?_withoutTail_begins hs₂'
    · rintro c _ ⟨c₁, hc₁, hc'⟩
      exact .cons (hQ _ _ hc₁) (hQ' _ _ hc')

end Clause

/-! ### Programs -/

theorem Tokens.takes_kinds (ts : Tokens) : Takes ts.kinds ts ⟨[], ts.stop⟩ :=
  ⟨ts.ahead, rfl, by simp⟩

/-- A program is all statements up to the end. -/
theorem Program.ofTokens_eq_ok {p : Program} :
    Program.ofTokens ts = .ok p ↔
      ∃ c mid, readAll (fuelFor ts.ahead.length) .start ts = .ok ((p, c), mid) := by
  rw [Program.ofTokens]
  rcases readAll (fuelFor ts.ahead.length) .start ts with e | ⟨⟨q, c⟩, mid⟩
  · simp [bind, Except.bind]
  · simp [bind, Except.bind, pure, Except.pure]

/-- Reading tokens that spell a program comes down to checks, since there is fuel for all of
them. -/
theorem Settles.decided_readAll {p : Program}
    (h : Settles readAll 0 (fun ts ↦ ts.next? = none) Q p ts.kinds) :
    Decided (fun r ↦ r.1 = p ∧ Q .start r.2) ⟨[], ts.stop⟩
      (readAll (fuelFor ts.ahead.length) .start ts) := by
  refine h ts.takes_kinds rfl ?_
  simp only [fuelFor, Tokens.kinds, List.length_map]
  omega

/-- A program that is settled is read if its checks pass, and as itself. -/
theorem Program.ofTokens_iff_of_settles {p : Program}
    (h : Settles readAll 0 (fun ts ↦ ts.next? = none) Q p ts.kinds) (q : Program) :
    Program.ofTokens ts = .ok q ↔ (∃ c, Q .start c) ∧ q = p := by
  simp only [Program.ofTokens_eq_ok, h.decided_readAll.ok]
  constructor
  · rintro ⟨c, mid, ⟨rfl, hQ⟩, rfl⟩
    exact ⟨⟨c, hQ⟩, rfl⟩
  · rintro ⟨⟨c, hQ⟩, rfl⟩
    exact ⟨c, _, ⟨rfl, hQ⟩, rfl⟩

/-- If it is refused it is so by a check. -/
theorem Program.isCheck_of_settles {p : Program} {complaint : Complaint}
    (h : Settles readAll 0 (fun ts ↦ ts.next? = none) Q p ts.kinds)
    (herror : Program.ofTokens ts = .error complaint) : complaint.cause.IsCheck := by
  refine h.decided_readAll.error complaint ?_
  rw [Program.ofTokens] at herror
  rcases hread : readAll (fuelFor ts.ahead.length) .start ts with e | ⟨⟨q, c⟩, mid⟩
  · rw [hread] at herror
    cases herror
    rfl
  · rw [hread] at herror
    cases herror

/-- Tokens that are accepted spell one program only. -/
theorem Program.spelled_iff_of_ofTokens {p : Program} (h : Program.ofTokens ts = .ok p)
    (q : Program) : q.Spelled ts.kinds ↔ q = p := by
  constructor
  · intro hq
    obtain ⟨Q, ⟨-, hsettles⟩, -, -⟩ := hq.exists_settled
    exact ((Program.ofTokens_iff_of_settles hsettles p).1 h).2.symm
  · rintro rfl
    exact (Program.spelled_and_valid_of_ofTokens h).1

/-- Tokens that are accepted are accepted without `tail`, wherever they stand in their texts, and
spell the same program but for that. -/
theorem Program.ofTokens_of_kinds_eq_withoutTail {ts' : Tokens} {p : Program}
    (h : Program.ofTokens ts = .ok p) (hkinds : ts'.kinds = withoutTail ts.kinds) :
    Program.ofTokens ts' = .ok (Stmt.withoutTailAll p) := by
  obtain ⟨Q, ⟨-, hsettles⟩, ⟨-, hsettles'⟩, -⟩ :=
    (Program.spelled_and_valid_of_ofTokens h).1.exists_settled
  rw [← hkinds] at hsettles'
  exact (Program.ofTokens_iff_of_settles hsettles' _).2
    ⟨((Program.ofTokens_iff_of_settles hsettles p).1 h).1, rfl⟩

theorem Program.ofTokens_withoutTail {p : Program} (h : Program.ofTokens ts = .ok p) :
    Program.ofTokens ts.withoutTail = .ok (Stmt.withoutTailAll p) :=
  Program.ofTokens_of_kinds_eq_withoutTail h ts.kinds_withoutTail

/-- The tree of tokens that are accepted passes its checks. -/
theorem Program.exists_checkedAll_of_ofTokens {p : Program} (h : Program.ofTokens ts = .ok p) :
    ∃ c, Stmt.CheckedAll .start p c := by
  obtain ⟨Q, ⟨-, hsettles⟩, -, hQ⟩ := (Program.spelled_and_valid_of_ofTokens h).1.exists_settled
  obtain ⟨c, hc⟩ := ((Program.ofTokens_iff_of_settles hsettles p).1 h).1
  exact ⟨c, hQ _ _ hc⟩

end Scriptlet
