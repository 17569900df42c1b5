import Mathlib.Data.List.Basic
import Scriptlet.Proofs.Tree.Settles
import Scriptlet.Proofs.Tree.Tracing

/-!
# Traces in order

What is at work at one place of the tokens may call something else there before it takes a token,
but not without end: ranks say who may call whom. With the number of tokens ahead a rank makes a
**weight**, and what is called always weighs less than what it is called by. A loop calls nothing
by itself. It makes rounds, and since each takes a token, they start at different places.

A trace is in order if all of this holds of everything in its log. The rules here, one for each way
to put tracers together, leave only the comparisons of weights to the tracers themselves.
-/

namespace Scriptlet

open Reader Tokens

/-! ### Places -/

/-- Some tokens are what is left of others. -/
structure Tokens.Leaves (ts rest : Tokens) : Prop where
  suffix : rest.ahead <:+ ts.ahead
  stop_eq : rest.stop = ts.stop

namespace Tokens.Leaves

variable {ts mid rest : Tokens}

theorem refl (ts : Tokens) : ts.Leaves ts :=
  ⟨List.suffix_refl _, rfl⟩

/-- What is left of a rest is left of the whole. -/
theorem trans (h : ts.Leaves mid) (h' : mid.Leaves rest) : ts.Leaves rest :=
  ⟨h'.suffix.trans h.suffix, h'.stop_eq.trans h.stop_eq⟩

@[grind →]
theorem length_le (h : ts.Leaves rest) : rest.ahead.length ≤ ts.ahead.length :=
  h.suffix.length_le

/-- Taking tokens leaves the others. -/
theorem of_takes {ks : List Kind} (h : Takes ks ts rest) : ts.Leaves rest := by
  obtain ⟨taken, -, rfl⟩ := h
  exact ⟨List.suffix_append _ _, rfl⟩

end Tokens.Leaves

/-- A token that is taken is no longer ahead. -/
theorem Tokens.Takes.length_lt {k : Kind} {ts rest : Tokens} (h : Takes [k] ts rest) :
    rest.ahead.length < ts.ahead.length := by
  obtain ⟨span, rfl⟩ := takes_singleton.1 h
  exact Nat.lt_succ_self _

/-- At least one token is taken. -/
@[grind]
def Gains {α : Type} (ts : Tokens) (_ : α) (rest : Tokens) : Prop :=
  rest.ahead.length < ts.ahead.length

/-! ### Weights -/

attribute [grind] unaryLevel

namespace Production

/-- A production has a higher rank than those that it may call before it takes a token. -/
@[grind]
def rank : Production → Nat
  | block | primary => 1
  | unary => 2
  | level n => 3 + (unaryLevel - n)
  | statement => 9
  | round => 10
  | statements | arguments => 11

/-- The weight of a production with some tokens ahead: they count first, its rank second. -/
@[grind]
def weight (p : Production) (ahead : List Token) : Nat :=
  12 * ahead.length + p.rank

end Production

namespace Activation

/-- The weight of a production when it began. -/
def weight (a : Activation) : Nat :=
  a.what.weight a.before

/-- The activation is a round of a loop. -/
def isRound (a : Activation) : Bool :=
  a.what = .round

/-- The rounds in a log start further on one after the other. -/
def RoundsAdvance (log : List Activation) : Prop :=
  (log.filter isRound).Pairwise fun a b ↦ b.before.length < a.before.length

/-- The activation ended no earlier than it began, and later if it succeeded. All that was at work
inside it began no earlier, weighs less and is in order itself. -/
inductive Orderly : Activation → Prop where
  | mk {a : Activation} (forward : a.after <:+ a.before)
      (gains : a.succeeded = true → a.after.length < a.before.length)
      (inside : ∀ b ∈ a.inner, b.before <:+ a.before) (lighter : ∀ b ∈ a.inner, b.weight < a.weight)
      (rounds : RoundsAdvance a.inner) (inner : ∀ b ∈ a.inner, b.Orderly) : Orderly a

end Activation

open Activation (RoundsAdvance)

/-- A trace from `ts` on is in order: if it succeeded, `Q` holds of the result and the tokens left,
and it did not run out of fuel if it failed. What it logged weighs less than `bound`. -/
structure Trace.Orderly {α : Type} (Q : α → Tokens → Prop) (bound : Nat) (ts : Tokens)
    (t : Trace α) : Prop where
  leaves : ts.Leaves t.rest
  post : ∀ a, t.result = .ok a → Q a t.rest
  fuelled : ∀ e, t.result = .error e → e.cause ≠ .outOfFuel
  inside : ∀ a ∈ t.log, a.before <:+ ts.ahead
  lighter : ∀ a ∈ t.log, a.weight < bound
  rounds : RoundsAdvance t.log
  /-- A round that is over took a token. -/
  passed : ∀ v, t.result = .ok v → ∀ a ∈ t.log, a.isRound = true →
    t.rest.ahead.length < a.before.length
  log : ∀ a ∈ t.log, a.Orderly

/-- A trace that logged nothing. -/
theorem Trace.Orderly.of_log_eq_nil {α : Type} {Q : α → Tokens → Prop} {bound : Nat} {ts : Tokens}
    {t : Trace α} (hlog : t.log = []) (leaves : ts.Leaves t.rest)
    (post : ∀ a, t.result = .ok a → Q a t.rest)
    (fuelled : ∀ e, t.result = .error e → e.cause ≠ .outOfFuel) : t.Orderly Q bound ts where
  leaves := leaves
  post := post
  fuelled := fuelled
  inside := by simp [hlog]
  lighter := by simp [hlog]
  rounds := by simp [RoundsAdvance, hlog]
  passed := by simp [hlog]
  log := by simp [hlog]

/-- The trace that a tracer leaves from `ts` on is in order. -/
def Tracer.Orderly {α : Type} (Q : α → Tokens → Prop) (bound : Nat) (ts : Tokens)
    (x : Tracer α) : Prop :=
  (x ts).Orderly Q bound ts

/-! ### Rules -/

namespace Tracer.Orderly

variable {α β : Type} {Q Q' : α → Tokens → Prop} {R : β → Tokens → Prop} {bound bound' : Nat}
  {ts : Tokens} {x : Tracer α} {f : α → Tracer β}

/-- A weaker condition and a higher bound will do. -/
theorem mono (h : Orderly Q bound ts x) (hQ : ∀ a rest, ts.Leaves rest → Q a rest → Q' a rest)
    (hbound : bound ≤ bound') : Orderly Q' bound' ts x :=
  { h with
    post := fun a ha ↦ hQ a _ h.leaves (h.post a ha)
    lighter := fun a ha ↦ Nat.lt_of_lt_of_le (h.lighter a ha) hbound }

theorem pure {a : α} (h : Q a ts) : Orderly Q bound ts (Pure.pure a : Tracer α) := by
  refine .of_log_eq_nil rfl (.refl ts) ?_ fun _ h ↦ by cases h
  rintro _ ⟨⟩
  exact h

/-- Two tracers in order one after the other are in order, with their logs joined. -/
theorem bind (hx : Orderly Q bound ts x)
    (hf : ∀ a mid, ts.Leaves mid → Q a mid → Orderly R bound mid (f a)) :
    Orderly R bound ts (x >>= f) := by
  change Trace.Orderly Q bound ts (x ts) at hx
  change Trace.Orderly R bound ts ((x ts).andThen f)
  generalize x ts = t at hx
  obtain ⟨result, rest, log⟩ := t
  cases result with
  | error e =>
    change Trace.Orderly R bound ts ⟨.error e, rest, log⟩
    exact {
      leaves := hx.leaves
      post := fun _ h ↦ by cases h
      fuelled := by
        rintro _ ⟨⟩
        exact hx.fuelled e rfl
      inside := hx.inside
      lighter := hx.lighter
      rounds := hx.rounds
      passed := fun _ h ↦ by cases h
      log := hx.log }
  | ok a =>
    change Trace.Orderly R bound ts ⟨(f a rest).result, (f a rest).rest, log ++ (f a rest).log⟩
    have hrest : Trace.Orderly R bound rest (f a rest) := hf a rest hx.leaves (hx.post a rfl)
    have hmem {P : Activation → Prop} (h : ∀ b ∈ log, P b) (h' : ∀ b ∈ (f a rest).log, P b) :
        ∀ b ∈ log ++ (f a rest).log, P b :=
      fun b hb ↦ (List.mem_append.1 hb).elim (h b) (h' b)
    exact {
      leaves := hx.leaves.trans hrest.leaves
      post := hrest.post
      fuelled := hrest.fuelled
      inside := hmem hx.inside fun b hb ↦ (hrest.inside b hb).trans hx.leaves.suffix
      lighter := hmem hx.lighter hrest.lighter
      rounds := by
        rw [RoundsAdvance, List.filter_append, List.pairwise_append]
        refine ⟨hx.rounds, hrest.rounds, fun b hb b' hb' ↦ ?_⟩
        obtain ⟨hb, hround⟩ := List.mem_filter.1 hb
        -- the first part is over, so all its rounds began before its end
        exact Nat.lt_of_le_of_lt (hrest.inside b' (List.mem_filter.1 hb').1).length_le
          (hx.passed a rfl b hb hround)
      passed := fun v hv ↦ hmem
        (fun b hb hround ↦
          Nat.lt_of_le_of_lt hrest.leaves.length_le (hx.passed a rfl b hb hround))
        (hrest.passed v hv)
      log := hmem hx.log hrest.log }

/-- A production is in order if what is inside it weighs less than it does and it takes a token. -/
theorem within {p : Production} (hx : Orderly Q (p.weight ts.ahead) ts x)
    (hgains : ∀ a rest, Q a rest → Gains ts a rest) (hbound : p.weight ts.ahead < bound) :
    Orderly Q bound ts (Tracer.within p x) where
  leaves := hx.leaves
  post := hx.post
  fuelled := hx.fuelled
  inside := fun a ha ↦ by
    obtain rfl := List.mem_singleton.1 ha
    exact List.suffix_refl _
  lighter := fun a ha ↦ by
    obtain rfl := List.mem_singleton.1 ha
    exact hbound
  rounds := (List.pairwise_singleton _ _).sublist List.filter_sublist
  passed := fun v hv a ha _ ↦ by
    obtain rfl := List.mem_singleton.1 ha
    exact hgains v _ (hx.post v hv)
  log := fun a ha ↦ by
    obtain rfl := List.mem_singleton.1 ha
    refine .mk hx.leaves.suffix (fun hok ↦ ?_) hx.inside hx.lighter hx.rounds hx.log
    dsimp only at hok ⊢
    rcases hresult : (x ts).result with e | v
    · rw [hresult] at hok
      cases hok
    · exact hgains v _ (hx.post v hresult)

end Tracer.Orderly

/-! ### Steps -/

/-- What a reader comes to: it leaves a rest of the tokens, with a result of which `Q` holds, or it
fails, but not for lack of fuel. -/
structure Reader.Steps {α : Type} (Q : α → Tokens → Prop) (ts : Tokens)
    (x : Except Complaint (α × Tokens)) : Prop where
  ok : ∀ a rest, x = .ok (a, rest) → ts.Leaves rest ∧ Q a rest
  error : ∀ e, x = .error e → e.cause ≠ .outOfFuel

/-- A reader that logs nothing is in order. -/
theorem Tracer.Orderly.lift {α : Type} {Q : α → Tokens → Prop} {bound : Nat} {ts : Tokens}
    {r : Reader α} (h : Steps Q ts (r ts)) : Orderly Q bound ts (liftM r : Tracer α) := by
  change Trace.Orderly Q bound ts (Tracer.step r ts)
  rw [Tracer.step]
  rcases hr : r ts with e | ⟨a, rest⟩
  · refine .of_log_eq_nil rfl (.refl ts) (fun _ h ↦ by cases h) ?_
    rintro _ ⟨⟩
    exact h.error e hr
  · refine .of_log_eq_nil rfl (h.ok a rest hr).1 ?_ fun _ h ↦ by cases h
    rintro _ ⟨⟩
    exact (h.ok a rest hr).2

namespace Reader.Steps

variable {α β : Type} {Q Q' : α → Tokens → Prop} {R : β → Tokens → Prop} {ts : Tokens}

theorem mono {x : Except Complaint (α × Tokens)} (h : Steps Q ts x)
    (hQ : ∀ a rest, Q a rest → Q' a rest) : Steps Q' ts x :=
  ⟨fun a rest ha ↦ ⟨(h.ok a rest ha).1, hQ a rest (h.ok a rest ha).2⟩, h.error⟩

theorem pure {a : α} (h : Q a ts) : Steps Q ts ((Pure.pure a : Reader α) ts) := by
  refine ⟨fun b rest hb ↦ ?_, fun e he ↦ by cases he⟩
  obtain ⟨rfl, rfl⟩ := pure_eq_ok.1 hb
  exact ⟨.refl ts, h⟩

theorem bind {r : Reader α} {f : α → Reader β} (hr : Steps Q ts (r ts))
    (hf : ∀ a mid, ts.Leaves mid → Q a mid → Steps R mid (f a mid)) :
    Steps R ts ((r >>= f) ts) := by
  change Steps R ts (r ts >>= fun p ↦ f p.1 p.2)
  generalize r ts = x at hr
  rcases x with e | ⟨a, mid⟩
  · refine ⟨fun b rest h ↦ (by cases h), ?_⟩
    rintro _ ⟨⟩
    exact hr.error e rfl
  · obtain ⟨hleaves, hQ⟩ := hr.ok a mid rfl
    have hrest := hf a mid hleaves hQ
    exact ⟨fun b rest h ↦ ⟨hleaves.trans (hrest.ok b rest h).1, (hrest.ok b rest h).2⟩, hrest.error⟩

/-- A reader that always succeeds and stays where it is. -/
theorem stay {a : α} {x : Except Complaint (α × Tokens)} (hx : x = .ok (a, ts)) (h : Q a ts) :
    Steps Q ts x := by
  subst hx
  exact pure h

/-- Any failure will do, except for lack of fuel. -/
theorem fail {cause : Cause} {span : Span} (h : cause ≠ .outOfFuel) :
    Steps Q ts ((fail cause span : Reader α) ts) := by
  refine ⟨fun a rest ha ↦ absurd ha fail_ne_ok, ?_⟩
  rintro _ ⟨⟩
  exact h

theorem unexpected {what : Expected} : Steps Q ts ((unexpected what : Reader α) ts) := by
  refine ⟨fun a rest ha ↦ absurd ha unexpected_ne_ok, fun e he ↦ ?_⟩
  rw [Reader.unexpected] at he
  split at he <;> cases he <;> simp

/-- A check takes nothing and fails for its cause. -/
theorem check {result : Except Cause α} {span : Span}
    (h : ∀ cause, result = .error cause → cause.IsCheck) :
    Steps (fun _ rest ↦ rest = ts) ts (check result span ts) := by
  cases result with
  | ok a => exact pure rfl
  | error cause => exact fail (h cause rfl).ne_outOfFuel

theorem peek? : Steps (fun k rest ↦ k = ts.next? ∧ rest = ts) ts (peek? ts) :=
  stay rfl ⟨rfl, rfl⟩

theorem at? {s : Symbol} :
    Steps (fun b rest ↦ (b = true → ts.next? = some (.symbol s)) ∧ rest = ts) ts (at? s ts) :=
  stay rfl ⟨startsWith_eq_true.1, rfl⟩

theorem atEnd : Steps (fun _ rest ↦ rest = ts) ts (atEnd ts) :=
  stay rfl rfl

theorem form : Steps (fun f rest ↦ f = Form.ofTokens ts.ahead ∧ rest = ts) ts (form ts) :=
  stay rfl ⟨rfl, rfl⟩

/-- A token that is there is taken. -/
theorem advance : Steps (fun a rest ↦ ts.next? ≠ none → Gains ts a rest) ts (advance ts) := by
  obtain ⟨ahead, stop⟩ := ts
  cases ahead with
  | nil => exact stay rfl fun h ↦ absurd rfl h
  | cons t rest =>
    refine ⟨?_, fun e he ↦ by cases he⟩
    rintro _ _ ⟨⟩
    exact ⟨⟨List.suffix_cons t rest, rfl⟩, fun _ ↦ Nat.lt_succ_self _⟩

/-- A symbol that is accepted is taken. -/
theorem accept {s : Symbol} :
    Steps (fun b rest ↦ b = true → Gains ts b rest) ts (accept s ts) := by
  refine ⟨fun b rest h ↦ ?_, fun e he ↦ ?_⟩
  · cases b with
    | true =>
      have htakes := accept_eq_true.1 h
      exact ⟨.of_takes htakes, fun _ ↦ htakes.length_lt⟩
    | false =>
      obtain ⟨-, rfl⟩ := accept_eq_false.1 h
      exact ⟨.refl ts, fun h ↦ by cases h⟩
  · rw [Reader.accept] at he
    split at he <;> cases he

theorem acceptKeyword {k : Keyword} :
    Steps (fun b rest ↦ b = true → Gains ts b rest) ts (acceptKeyword k ts) := by
  refine ⟨fun b rest h ↦ ?_, fun e he ↦ ?_⟩
  · cases b with
    | true =>
      have htakes := acceptKeyword_eq_true.1 h
      exact ⟨.of_takes htakes, fun _ ↦ htakes.length_lt⟩
    | false =>
      obtain ⟨-, rfl⟩ := acceptKeyword_eq_false.1 h
      exact ⟨.refl ts, fun h ↦ by cases h⟩
  · rw [Reader.acceptKeyword] at he
    split at he
    · split at he <;> cases he
    · cases he

/-- A symbol that has to be there is taken, or reading fails. -/
theorem consume {s : Symbol} {context : String} : Steps (Gains ts) ts (consume s context ts) := by
  refine bind accept fun b mid _ hb ↦ ?_
  cases b with
  | true => exact pure (hb rfl)
  | false => exact unexpected

theorem consumeName {context : String} : Steps (Gains ts) ts (consumeName context ts) := by
  refine ⟨fun a rest h ↦ ?_, fun e he ↦ ?_⟩
  · have htakes := takes_of_consumeName h
    exact ⟨.of_takes htakes, htakes.length_lt⟩
  · rw [Reader.consumeName] at he
    split at he
    · cases he
    · exact (unexpected (Q := fun _ _ ↦ True)).error e he

theorem acceptType? : Steps (fun _ _ ↦ True) ts (acceptType? ts) := by
  refine ⟨fun type? rest h ↦ ⟨?_, trivial⟩, fun e he ↦ ?_⟩
  · cases type? with
    | none =>
      obtain ⟨-, rfl⟩ := acceptType?_eq_none.1 h
      exact .refl ts
    | some type =>
      obtain ⟨k, -, htakes⟩ := acceptType?_eq_some.1 h
      exact .of_takes htakes
  · rw [Reader.acceptType?] at he
    split at he
    · split at he <;> cases he
    · cases he

/-- An operator that is accepted is taken. -/
theorem acceptBinary? {n : Nat} :
    Steps (fun op rest ↦ op ≠ none → Gains ts op rest) ts (acceptBinary? n ts) := by
  refine ⟨fun op? rest h ↦ ?_, fun e he ↦ ?_⟩
  · cases op? with
    | none =>
      obtain rfl := eq_of_acceptBinary? h
      exact ⟨.refl ts, fun h ↦ absurd rfl h⟩
    | some op =>
      obtain ⟨s, -, -, htakes⟩ := acceptBinary?_eq_some.1 h
      exact ⟨.of_takes htakes, fun _ ↦ htakes.length_lt⟩
  · rw [Reader.acceptBinary?] at he
    split at he
    · split at he
      · split at he <;> cases he
      · cases he
    · cases he

theorem fitsLiteral {type : Tag} :
    Steps (fun _ rest ↦ rest = ts) ts (fitsLiteral type ts) := by
  refine ⟨fun u rest h ↦ ?_, fun e he ↦ ?_⟩
  · obtain rfl := eq_of_fitsLiteral h
    exact ⟨.refl ts, rfl⟩
  · rw [Reader.fitsLiteral] at he
    split at he
    · split at he
      · split at he
        · split at he <;> cases he
          simp
        · cases he
      · cases he
    · cases he

theorem readType : Steps (fun _ _ ↦ True) ts (readType ts) := by
  refine bind acceptKeyword fun b mid _ _ ↦ ?_
  cases b with
  | true => exact pure trivial
  | false => exact bind acceptType? fun _ _ _ _ ↦ pure trivial

theorem readDepth : Steps (fun _ _ ↦ True) ts (readDepth ts) := by
  refine bind peek? fun k mid _ _ ↦ ?_
  split
  · exact bind advance fun _ _ _ _ ↦ pure trivial
  · exact pure trivial

theorem readReturns : Steps (fun _ _ ↦ True) ts (readReturns ts) := by
  refine bind acceptKeyword fun b mid _ _ ↦ ?_
  cases b with
  | true => exact pure trivial
  | false =>
    refine bind acceptType? fun _ _ _ _ ↦ ?_
    split <;> exact pure trivial

/-- A target is one token. -/
theorem readTarget : Steps (Gains ts) ts (readTarget ts) := by
  refine bind peek? fun k mid _ hk ↦ ?_
  obtain ⟨hk, rfl⟩ := hk
  split
  · exact bind advance fun _ _ _ h ↦ pure (h (hk ▸ Option.some_ne_none _))
  · exact bind advance fun _ _ _ h ↦ pure (h (hk ▸ Option.some_ne_none _))
  · exact unexpected

end Reader.Steps

end Scriptlet
