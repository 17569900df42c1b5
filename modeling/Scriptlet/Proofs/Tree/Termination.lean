import Mathlib.Data.List.Perm.Subperm
import Scriptlet.Proofs.Tree.Progress

/-!
# Reading comes to an end

A reader of a statement or of an expression that succeeds has taken a token, a reader that fails has
not gone back, and none goes beyond the end of the text. What that costs is read off the log of its
trace. Of the productions that are at work at one moment each weighs more than the one inside it, so
**the number of tokens bounds how deep they are nested**: no production is at work more often than
there are places for it to start from. And as the rounds of a loop start at different places, they
are no more than the places.

A place is a token or the end of the text, so there is one more than there are tokens ahead.

The form of a statement is told by a look ahead that takes no tokens. It is a loop of its own, over
the tokens up to a closing bracket, and it is followed here with a count of brackets that could go
below zero, but does not.
-/

namespace Scriptlet

open Reader Tokens

/-! ### What is at work at one moment -/

/-- The productions at work at one moment, innermost first: the outermost is in the log, and each
other was called by the next. -/
inductive Stacked (log : List Activation) : List Activation → Prop where
  | outermost {a : Activation} (h : a ∈ log) : Stacked log [a]
  | inner {a b : Activation} {s : List Activation} (h : Stacked log (a :: s)) (hb : b ∈ a.inner) :
      Stacked log (b :: a :: s)

/-- At most so many things have different numbers below a bound. -/
theorem length_le_of_pairwise_ne {α : Type} {l : List α} {f : α → Nat} {n : Nat}
    (h : l.Pairwise fun a b ↦ f a ≠ f b) (hlt : ∀ a ∈ l, f a < n) : l.length ≤ n := by
  have hnodup : (l.map f).Nodup := List.pairwise_map.2 h
  have hsubset : l.map f ⊆ List.range n := by
    intro k hk
    obtain ⟨a, ha, rfl⟩ := List.mem_map.1 hk
    exact List.mem_range.2 (hlt a ha)
  simpa using (List.subperm_of_subset hnodup hsubset).length_le

/-- The rounds in a log are no more than the places they may start from. -/
theorem Activation.RoundsAdvance.length_le {log : List Activation} {ahead : List Token}
    (h : RoundsAdvance log) (hinside : ∀ a ∈ log, a.before <:+ ahead) :
    (log.filter isRound).length ≤ ahead.length + 1 := by
  refine length_le_of_pairwise_ne (f := fun a ↦ a.before.length) (h.imp fun hlt ↦ by omega) ?_
  intro a ha
  have := (hinside a (List.mem_filter.1 ha).1).length_le
  omega

namespace Stacked

variable {log s : List Activation} {ahead : List Token} {bound : Nat}

/-- What holds of all in the log, and of all inside of what it holds of, holds of all at work. -/
theorem forall_mem {P : Activation → Prop} (h : Stacked log s) (hlog : ∀ a ∈ log, P a)
    (hinner : ∀ a, P a → ∀ b ∈ a.inner, P b) : ∀ a ∈ s, P a := by
  induction h with
  | outermost h =>
    intro a ha
    obtain rfl := List.mem_singleton.1 ha
    exact hlog a h
  | @inner a b s _ hb ih =>
    intro a' ha'
    rcases List.mem_cons.1 ha' with rfl | ha'
    · exact hinner a (ih a List.mem_cons_self) a' hb
    · exact ih a' ha'

/-- What is called by a production in order is in order. -/
theorem orderly (h : Stacked log s) (hlog : ∀ a ∈ log, a.Orderly) : ∀ a ∈ s, a.Orderly := by
  refine h.forall_mem hlog ?_
  rintro a ⟨-, -, -, -, -, hinner⟩
  exact hinner

/-- Whatever is at work begins within the tokens that the log keeps to. -/
theorem inside (h : Stacked log s) (hlog : ∀ a ∈ log, a.Orderly)
    (hinside : ∀ a ∈ log, a.before <:+ ahead) : ∀ a ∈ s, a.before <:+ ahead := by
  intro a ha
  refine (h.forall_mem (P := fun a ↦ a.Orderly ∧ a.before <:+ ahead)
    (fun b hb ↦ ⟨hlog b hb, hinside b hb⟩) ?_ a ha).2
  rintro a ⟨⟨-, -, hbefore, -, -, hinner⟩, ha⟩ b hb
  exact ⟨hinner b hb, (hbefore b hb).trans ha⟩

/-- Whatever is at work keeps to the bound on weights that the log keeps to. -/
theorem lighter (h : Stacked log s) (hlog : ∀ a ∈ log, a.Orderly)
    (hlighter : ∀ a ∈ log, a.weight < bound) : ∀ a ∈ s, a.weight < bound := by
  intro a ha
  refine (h.forall_mem (P := fun a ↦ a.Orderly ∧ a.weight < bound)
    (fun b hb ↦ ⟨hlog b hb, hlighter b hb⟩) ?_ a ha).2
  rintro a ⟨⟨-, -, -, hless, -, hinner⟩, ha⟩ b hb
  exact ⟨hinner b hb, Nat.lt_trans (hless b hb) ha⟩

/-- Weights grow outwards. -/
theorem pairwise_weight (h : Stacked log s) (hlog : ∀ a ∈ log, a.Orderly) :
    s.Pairwise fun a b ↦ a.weight < b.weight := by
  induction h with
  | outermost h => exact List.pairwise_singleton _ _
  | @inner a b s h hb ih =>
    obtain ⟨-, -, -, hlighter, -, -⟩ := h.orderly hlog a List.mem_cons_self
    refine List.pairwise_cons.2 ⟨fun a' ha' ↦ ?_, ih⟩
    rcases List.mem_cons.1 ha' with rfl | ha'
    · exact hlighter b hb
    · exact Nat.lt_trans (hlighter b hb) ((List.pairwise_cons.1 ih).1 a' ha')

/-- A production that is at work twice started from two places. -/
theorem pairwise_before (h : Stacked log s) (hlog : ∀ a ∈ log, a.Orderly) (p : Production) :
    (s.filter fun a ↦ a.what = p).Pairwise fun a b ↦ a.before.length ≠ b.before.length := by
  refine ((h.pairwise_weight hlog).filter _).imp_of_mem fun ha hb hlt heq ↦ ?_
  have ha := of_decide_eq_true (List.mem_filter.1 ha).2
  have hb := of_decide_eq_true (List.mem_filter.1 hb).2
  rw [Activation.weight, Activation.weight, Production.weight, Production.weight, ha, hb,
    heq] at hlt
  exact Nat.lt_irrefl _ hlt

end Stacked

/-! ### Bounds -/

/-- What a trace from `ts` on keeps to, where a success takes at least so many tokens. -/
structure Trace.Bounded {α : Type} (least : Nat) (ts : Tokens) (t : Trace α) : Prop where
  /-- The place at the end, **also after a failure**, is not before the one at the start and not
  beyond the end of the text. -/
  place : ∃ k ≤ ts.ahead.length, t.rest = ⟨ts.ahead.drop k, ts.stop⟩ ∧
    ∀ a, t.result = .ok a → least ≤ k
  /-- A failure comes from the tokens. -/
  ends : ∀ e, t.result = .error e → e.cause ≠ .outOfFuel
  /-- So do all productions on the way, each of which takes a token by a success. -/
  forward : ∀ s, Stacked t.log s → ∀ a ∈ s,
    a.after <:+ a.before ∧ (a.succeeded = true → a.after.length < a.before.length)
  depth : ∀ s, Stacked t.log s → s.length < 12 * (ts.ahead.length + 1)
  /-- No production is nested in itself more often than there are places. -/
  nesting : ∀ s, Stacked t.log s → ∀ p,
    (s.filter fun a ↦ a.what = p).length ≤ ts.ahead.length + 1
  /-- No loop makes more rounds than there are places. -/
  rounds : (t.log.filter Activation.isRound).length ≤ ts.ahead.length + 1
  innerRounds : ∀ s, Stacked t.log s → ∀ a ∈ s,
    (a.inner.filter Activation.isRound).length ≤ ts.ahead.length + 1

/-- A trace in order keeps to the bounds. -/
theorem Trace.Orderly.bounded {α : Type} {Q : α → Tokens → Prop} {bound least : Nat} {ts : Tokens}
    {t : Trace α} (h : t.Orderly Q bound ts) (hbound : bound < 12 * (ts.ahead.length + 1))
    (hleast : ∀ a rest, Q a rest → rest.ahead.length ≤ ts.ahead.length →
      rest.ahead.length + least ≤ ts.ahead.length) : t.Bounded least ts where
  place := by
    obtain ⟨taken, htaken⟩ := h.leaves.suffix
    have hlength : taken.length + t.rest.ahead.length = ts.ahead.length := by
      rw [← htaken, List.length_append]
    refine ⟨taken.length, by omega, ?_, fun a ha ↦ ?_⟩
    · rw [← htaken, List.drop_left, ← h.leaves.stop_eq]
    · have := hleast a _ (h.post a ha) h.leaves.length_le
      omega
  ends := h.fuelled
  forward := fun s hs a ha ↦ by
    obtain ⟨hforward, hgains, -, -, -, -⟩ := hs.orderly h.log a ha
    exact ⟨hforward, hgains⟩
  depth := fun s hs ↦ by
    -- Weights rise from the innermost production outward, so no two are alike.
    have hweights : s.Pairwise fun a b ↦ a.weight ≠ b.weight :=
      (hs.pairwise_weight h.log).imp Nat.ne_of_lt
    exact Nat.lt_of_le_of_lt
      (length_le_of_pairwise_ne hweights (hs.lighter h.log h.lighter)) hbound
  nesting := fun s hs p ↦ by
    refine length_le_of_pairwise_ne (hs.pairwise_before h.log p) fun a ha ↦ ?_
    have := (hs.inside h.log h.inside a (List.mem_filter.1 ha).1).length_le
    omega
  rounds := h.rounds.length_le h.inside
  innerRounds := fun s hs a ha ↦ by
    have ha' := hs.inside h.log h.inside a ha
    obtain ⟨-, -, hbefore, -, hrounds, -⟩ := hs.orderly h.log a ha
    exact hrounds.length_le fun b hb ↦ (hbefore b hb).trans ha'

/-! ### The look ahead -/

/-- A search for the bracket that closes an index: the brackets that are open, counted as an
integer, and the tokens that were not looked at yet. -/
structure BracketSearch where
  depth : Int
  ahead : List Token

namespace BracketSearch

/-- One round of the search: it goes on, or it is over and tells whether `=` follows. -/
def step (s : BracketSearch) : Bool ⊕ BracketSearch :=
  match s.ahead with
  | [] => .inl false
  | t :: rest =>
    match t.kind with
    | .symbol .leftBracket => .inr ⟨s.depth + 1, rest⟩
    | .symbol .rightBracket =>
      if s.depth - 1 = 0 then .inl (startsWith .equal rest) else .inr ⟨s.depth - 1, rest⟩
    | .symbol .semicolon => .inl false
    | _ => .inr ⟨s.depth, rest⟩

/-- At most so many rounds. -/
def runFor : (count : Nat) → BracketSearch → Bool ⊕ BracketSearch
  | 0, s => .inr s
  | count + 1, s =>
    match s.step with
    | .inl b => .inl b
    | .inr s' => runFor count s'

/-- A bracket is open, or the next token opens one. -/
def Opened (s : BracketSearch) : Prop :=
  0 < s.depth ∨ s.depth = 0 ∧ startsWith .leftBracket s.ahead = true

/-- The count stays at or above zero, also when the next token closes a bracket. -/
theorem Opened.nonneg {s : BracketSearch} (h : s.Opened) :
    0 ≤ s.depth ∧ (startsWith .rightBracket s.ahead = true → 0 ≤ s.depth - 1) := by
  rcases h with hpos | ⟨hzero, hopen⟩
  · exact ⟨by omega, fun _ ↦ by omega⟩
  · refine ⟨by omega, fun hclose ↦ ?_⟩
    rcases hahead : s.ahead with - | ⟨⟨kind, span⟩, rest⟩
    · simp [hahead, startsWith] at hopen
    · cases kind <;> simp_all [startsWith]

/-- Kinds that are neither brackets nor a semicolon are passed over. -/
theorem step_flat {k : Kind} (hk : k.isFlat = true) (depth : Int) (span : Span)
    (rest : List Token) : step ⟨depth, ⟨k, span⟩ :: rest⟩ = .inr ⟨depth, rest⟩ := by
  cases k with
  | symbol s => cases s <;> first | rfl | cases hk
  | _ => rfl

/-- One round over an open bracket answers as the look ahead does, or looks at one token and leaves
the answer and an open bracket to the rounds behind it. -/
theorem Opened.step {s : BracketSearch} (h : s.Opened) :
    s.step = .inl (assignsItem s.depth.toNat s.ahead) ∨
      ∃ s', s.step = .inr s' ∧ s'.Opened ∧ s'.ahead = s.ahead.drop 1 ∧
        s.ahead ≠ [] ∧ assignsItem s'.depth.toNat s'.ahead = assignsItem s.depth.toNat s.ahead := by
  obtain ⟨depth, ahead⟩ := s
  rcases ahead with - | ⟨⟨kind, span⟩, rest⟩
  · exact .inl rfl
  -- Brackets count; a semicolon ends the search, and so does the last bracket.
  by_cases hopen : kind = .symbol .leftBracket
  · subst hopen
    have hdepth : 0 ≤ depth := h.nonneg.1
    refine .inr ⟨⟨depth + 1, rest⟩, rfl, .inl (by simp only; omega), rfl, List.cons_ne_nil _ _, ?_⟩
    rw [assignsItem, show (depth + 1).toNat = depth.toNat + 1 by omega]
  by_cases hclose : kind = .symbol .rightBracket
  · subst hclose
    have hdepth : 0 ≤ depth - 1 := h.nonneg.2 rfl
    by_cases hlast : depth - 1 = 0
    · refine .inl ?_
      rw [assignsItem, BracketSearch.step]
      dsimp only
      rw [if_pos hlast, if_pos (by omega)]
    · refine .inr ⟨⟨depth - 1, rest⟩, if_neg hlast, .inl (by simp only; omega), rfl,
        List.cons_ne_nil _ _, ?_⟩
      rw [assignsItem]
      dsimp only
      rw [if_neg (by omega), show (depth - 1).toNat = depth.toNat - 1 by omega]
  by_cases hend : kind = .symbol .semicolon
  · subst hend
    exact .inl rfl
  have hflat : kind.isFlat = true := by
    cases kind with
    | symbol s => cases s <;> first | rfl | contradiction
    | _ => rfl
  have hdepth : 0 < depth := by
    refine h.resolve_right fun hnot ↦ hopen ?_
    cases kind <;> simp_all [startsWith]
  have htakes : Takes [kind] ⟨⟨kind, span⟩ :: rest, span⟩ ⟨rest, span⟩ :=
    takes_singleton.2 ⟨span, rfl⟩
  exact .inr ⟨⟨depth, rest⟩, step_flat hflat depth span rest, .inl hdepth, rfl,
    List.cons_ne_nil _ _, (assignsItem_of_flat depth.toNat htakes hflat).symm⟩

/-- After so many rounds so many tokens were looked at, and a bracket is open. -/
theorem Opened.of_runFor {s s' : BracketSearch} {count : Nat} (h : s.Opened)
    (hrun : s.runFor count = .inr s') : s'.Opened ∧ s'.ahead = s.ahead.drop count := by
  induction count generalizing s with
  | zero =>
    cases hrun
    exact ⟨h, rfl⟩
  | succ count ih =>
    rw [runFor] at hrun
    rcases h.step with hstep | ⟨mid, hstep, hmid, hahead, -, -⟩
    · rw [hstep] at hrun
      cases hrun
    · rw [hstep] at hrun
      obtain ⟨hopened, hdrop⟩ := ih hmid hrun
      exact ⟨hopened, by rw [hdrop, hahead, List.drop_drop, Nat.add_comm]⟩

/-- **The search is over when all tokens and the end of the text were looked at**, if not before. -/
theorem Opened.runFor_eq {s : BracketSearch} (h : s.Opened) :
    s.runFor (s.ahead.length + 1) = .inl (assignsItem s.depth.toNat s.ahead) := by
  obtain ⟨depth, ahead⟩ := s
  induction ahead generalizing depth with
  | nil =>
    rcases h.step with hstep | ⟨_, _, _, _, hne, _⟩
    · rw [runFor, hstep]
    · exact absurd rfl hne
  | cons t rest ih =>
    rw [runFor]
    rcases h.step with hstep | ⟨⟨depth', ahead'⟩, hstep, hopened, hahead, -, hsame⟩
    · rw [hstep]
    · obtain rfl : ahead' = rest := hahead
      rw [hstep]
      exact (ih depth' hopened).trans (congrArg _ hsame)

end BracketSearch

/-! ### Readers -/

/-- **Reading comes to an end**, whatever the tokens are. A statement or an expression that is read
has taken a token, a failure does not go back, and the fuel that the number of tokens gives is never
used up. The readers are the traced ones without their logs, so the bounds on nesting and rounds are
theirs. The look ahead for an assignment to an item is over by the end of the text, without ever
counting below zero. -/
theorem outcome_eq_and_bounded_and_search_ends (ts : Tokens) (c : Context) (spare : Nat) :
    let fuel := fuelFor ts.ahead.length + spare
    (readStmt fuel c ts = (Tracer.stmt fuel c ts).outcome ∧
        (Tracer.stmt fuel c ts).Bounded 1 ts) ∧
      (readExpr fuel ts = (Tracer.expr fuel ts).outcome ∧ (Tracer.expr fuel ts).Bounded 1 ts) ∧
      (readAll fuel c ts = (Tracer.all fuel c ts).outcome ∧ (Tracer.all fuel c ts).Bounded 0 ts) ∧
      ∀ ahead, startsWith .leftBracket ahead = true →
        BracketSearch.runFor (ahead.length + 1) ⟨0, ahead⟩ = .inl (assignsItem 0 ahead) ∧
        ∀ count s, BracketSearch.runFor count ⟨0, ahead⟩ = .inr s →
          s.ahead = ahead.drop count ∧ 0 ≤ s.depth ∧
            (startsWith .rightBracket s.ahead = true → 0 ≤ s.depth - 1) := by
  intro fuel
  -- There is fuel for the weight of a whole program, the heaviest of all.
  have hfuel : 12 * ts.ahead.length + 11 ≤ fuel := by
    simp only [fuel, fuelFor]
    omega
  refine ⟨⟨?_, ?_⟩, ⟨?_, ?_⟩, ⟨?_, ?_⟩, fun ahead hahead ↦ ?_⟩
  · rw [← Tracer.erase_stmt]
    rfl
  · have h := (Tracer.stmtsOrderly fuel).stmt c ts (12 * ts.ahead.length + 10) (by grind) (by grind)
    exact Trace.Orderly.bounded h (by omega) fun _ _ hgains _ ↦ hgains
  · rw [← Tracer.erase_expr]
    rfl
  · have h : Tracer.Orderly (Gains ts) (12 * ts.ahead.length + 9) ts (Tracer.expr fuel) :=
      Tracer.orderly_expr (by grind) (by grind)
    exact Trace.Orderly.bounded h (by omega) fun _ _ hgains _ ↦ hgains
  · rw [← Tracer.erase_all]
    rfl
  · have h : Tracer.Orderly (fun _ _ ↦ True) _ ts (Tracer.all fuel c) :=
      Tracer.orderly_all (by grind)
    exact Trace.Orderly.bounded h (by grind) fun _ _ _ hle ↦ hle
  · have hopened : BracketSearch.Opened ⟨0, ahead⟩ := .inr ⟨rfl, hahead⟩
    refine ⟨hopened.runFor_eq, fun count s hrun ↦ ?_⟩
    obtain ⟨hs, hdrop⟩ := hopened.of_runFor hrun
    exact ⟨hdrop, hs.nonneg⟩

end Scriptlet
