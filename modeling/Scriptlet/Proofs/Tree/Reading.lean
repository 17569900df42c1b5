import Mathlib.Data.List.Basic
import Scriptlet.Tree.Read.Stmt

/-!
# What readers take

A reader that succeeds leaves the tokens behind those it took. The lemmas here say so for the
readers of single tokens, each as an equivalence: when it succeeds, with what, and which kinds it
takes. A sequence of readers then comes apart by `Reader.bind_eq_ok`.
-/

namespace Scriptlet

namespace Tokens

/-- The kind of the next token. -/
def next? (ts : Tokens) : Option Kind :=
  ts.ahead.head?.map Token.kind

/-- The tokens between two states of a reader are of these kinds. -/
def Takes (ks : List Kind) (ts ts' : Tokens) : Prop :=
  ∃ taken : List Token, taken.map Token.kind = ks ∧ ts = ⟨taken ++ ts'.ahead, ts'.stop⟩

variable {ts ts' ts'' : Tokens} {k : Kind} {ks ks' : List Kind}

/-- No tokens are taken between a state and itself. -/
@[simp]
theorem takes_nil : Takes [] ts ts' ↔ ts = ts' := by
  simp [Takes]

/-- What is taken in two turns is taken. -/
theorem Takes.trans (h : Takes ks ts ts') (h' : Takes ks' ts' ts'') :
    Takes (ks ++ ks') ts ts'' := by
  obtain ⟨taken, rfl, rfl⟩ := h
  obtain ⟨taken', rfl, rfl⟩ := h'
  exact ⟨taken ++ taken', by simp, by simp⟩

theorem Takes.cons (h : Takes [k] ts ts') (h' : Takes ks ts' ts'') : Takes (k :: ks) ts ts'' :=
  h.trans h'

theorem takes_append : Takes (ks ++ ks') ts ts' ↔ ∃ mid, Takes ks ts mid ∧ Takes ks' mid ts' := by
  constructor
  · rintro ⟨taken, htaken, rfl⟩
    obtain ⟨l, l', rfl, rfl, rfl⟩ := List.map_eq_append_iff.1 htaken
    exact ⟨⟨l' ++ ts'.ahead, ts'.stop⟩, ⟨l, rfl, by simp⟩, l', rfl, rfl⟩
  · rintro ⟨mid, h, h'⟩
    exact h.trans h'

theorem takes_cons :
    Takes (k :: ks) ts ts' ↔ ∃ mid, Takes [k] ts mid ∧ Takes ks mid ts' := by
  rw [← List.singleton_append, takes_append]

theorem takes_singleton :
    Takes [k] ts ts' ↔ ∃ span, ts = ⟨⟨k, span⟩ :: ts'.ahead, ts'.stop⟩ := by
  constructor
  · rintro ⟨taken, htaken, rfl⟩
    obtain ⟨⟨kind, span⟩, rfl, rfl⟩ := List.map_eq_singleton_iff.1 htaken
    exact ⟨span, rfl⟩
  · rintro ⟨span, rfl⟩
    exact ⟨[⟨k, span⟩], rfl, rfl⟩

/-- The first kind taken is the next one. -/
theorem Takes.next? (h : Takes (k :: ks) ts ts') : ts.next? = some k := by
  obtain ⟨mid, h, -⟩ := takes_cons.1 h
  obtain ⟨span, rfl⟩ := takes_singleton.1 h
  rfl

/-- What is taken is settled by where it starts. -/
theorem Takes.unique {ts₁ ts₂ : Tokens} (h : Takes ks ts ts₁) (h' : Takes ks ts ts₂) :
    ts₁ = ts₂ := by
  obtain ⟨taken, rfl, rfl⟩ := h
  obtain ⟨taken', htaken, heq⟩ := h'
  rw [Tokens.mk.injEq] at heq
  have hlength : taken'.length = taken.length := by
    rw [← List.length_map Token.kind, htaken, List.length_map]
  obtain ⟨-, hahead⟩ := List.append_inj heq.1 hlength.symm
  cases ts₁
  cases ts₂
  rw [Tokens.mk.injEq]
  exact ⟨hahead, heq.2⟩

end Tokens

open Tokens

namespace Reader

variable {α β : Type} {ts ts' : Tokens}

/-- Two readers succeed one after the other if both do. -/
theorem bind_eq_ok {x : Reader α} {f : α → Reader β} {r : β × Tokens} :
    (x >>= f) ts = .ok r ↔ ∃ a mid, x ts = .ok (a, mid) ∧ f a mid = .ok r := by
  change (x ts >>= fun p ↦ f p.1 p.2) = .ok r ↔ _
  rcases x ts with e | ⟨a, mid⟩
  · constructor
    · intro h
      cases h
    · rintro ⟨_, _, ⟨⟩, _⟩
  · constructor
    · exact fun h ↦ ⟨a, mid, rfl, h⟩
    · rintro ⟨_, _, ⟨⟩, h⟩
      exact h

/-- A reader that is known to succeed hands over to the next one. -/
theorem bind_run {x : Reader α} {f : α → Reader β} {a : α} (h : x ts = .ok (a, ts')) :
    (x >>= f) ts = f a ts' := by
  change (x ts >>= fun p ↦ f p.1 p.2) = _
  rw [h]
  rfl

theorem pure_eq_ok {a b : α} : (pure a : Reader α) ts = .ok (b, ts') ↔ a = b ∧ ts = ts' := by
  change Except.ok (a, ts) = .ok (b, ts') ↔ _
  simp

theorem exhausted_ne_ok {r : α × Tokens} : (exhausted : Reader α) ts ≠ .ok r :=
  fun h ↦ by cases h

theorem fail_ne_ok {cause : Cause} {span : Span} {r : α × Tokens} :
    (fail cause span : Reader α) ts ≠ .ok r :=
  fun h ↦ by cases h

theorem unexpected_ne_ok {what : Expected} {r : α × Tokens} :
    (unexpected what : Reader α) ts ≠ .ok r := by
  rw [unexpected]
  split <;> simp

/-- A check that succeeds takes nothing. -/
theorem check_eq_ok {result : Except Cause α} {span : Span} {a : α} :
    check result span ts = .ok (a, ts') ↔ result = .ok a ∧ ts = ts' := by
  cases result with
  | ok b => exact pure_eq_ok.trans (by simp)
  | error cause => simp [check, fail]

theorem peek?_eq_ok {k? : Option Kind} :
    peek? ts = .ok (k?, ts') ↔ k? = ts.next? ∧ ts = ts' := by
  simp [peek?, Tokens.next?, eq_comm]

/-- To advance takes the next token. -/
theorem advance_eq_ok {k : Kind} (hk : ts.next? = some k) {span : Span} :
    advance ts = .ok (span, ts') → Takes [k] ts ts' := by
  obtain ⟨ahead, stop⟩ := ts
  cases ahead with
  | nil => cases hk
  | cons t rest =>
    cases hk
    rintro ⟨⟩
    exact takes_singleton.2 ⟨t.span, rfl⟩

theorem exists_advance {k : Kind} (h : Takes [k] ts ts') :
    ∃ span, advance ts = .ok (span, ts') := by
  obtain ⟨span, rfl⟩ := takes_singleton.1 h
  exact ⟨span, rfl⟩

/-- A symbol is next if the tokens start with it. -/
theorem startsWith_eq_true {s : Symbol} :
    startsWith s ts.ahead = true ↔ ts.next? = some (.symbol s) := by
  obtain ⟨ahead, stop⟩ := ts
  rcases ahead with - | ⟨⟨kind, span⟩, rest⟩
  · simp [startsWith, Tokens.next?]
  · cases kind <;> simp [startsWith, Tokens.next?]

theorem at?_eq_ok {s : Symbol} {b : Bool} :
    at? s ts = .ok (b, ts') ↔ (b = true ↔ ts.next? = some (.symbol s)) ∧ ts = ts' := by
  rw [← startsWith_eq_true]
  cases b <;> simp [at?]

theorem atEnd_eq_ok {b : Bool} :
    atEnd ts = .ok (b, ts') ↔ (b = true ↔ ts.next? = none) ∧ ts = ts' := by
  cases b <;> simp [atEnd, Tokens.next?]

/-- A symbol is accepted where it is taken. -/
theorem accept_eq_true {s : Symbol} :
    accept s ts = .ok (true, ts') ↔ Takes [.symbol s] ts ts' := by
  rw [accept, takes_singleton]
  split
  · rename_i h
    obtain ⟨ahead, stop⟩ := ts
    obtain ⟨ahead', stop'⟩ := ts'
    rcases ahead with - | ⟨⟨kind, span⟩, rest⟩
    · cases h
    · have hkind : kind = .symbol s := by simpa [Tokens.next?] using startsWith_eq_true.1 h
      simp [hkind]
  · rename_i h
    rw [startsWith_eq_true] at h
    constructor
    · rintro ⟨⟩
    · rintro ⟨span, rfl⟩
      exact absurd rfl h

/-- It is not accepted where it is not next, and nothing is taken. -/
theorem accept_eq_false {s : Symbol} :
    accept s ts = .ok (false, ts') ↔ ts.next? ≠ some (.symbol s) ∧ ts = ts' := by
  rw [accept, Ne, ← startsWith_eq_true]
  split <;> simp_all

/-- A symbol that must be there is taken. -/
theorem consume_eq_ok {s : Symbol} {context : String} {u : Unit} :
    consume s context ts = .ok (u, ts') ↔ Takes [.symbol s] ts ts' := by
  rw [consume, bind_eq_ok, ← accept_eq_true]
  constructor
  · rintro ⟨b, mid, h, h'⟩
    cases b with
    | true =>
      obtain ⟨-, rfl⟩ := pure_eq_ok.1 h'
      exact h
    | false => exact absurd h' unexpected_ne_ok
  · exact fun h ↦ ⟨true, ts', h, rfl⟩

theorem consume_bind {s : Symbol} {context : String} {f : Unit → Reader β}
    (h : Takes [.symbol s] ts ts') : (consume s context >>= f) ts = f () ts' :=
  bind_run (consume_eq_ok.2 h)

theorem acceptKeyword_eq_true {k : Keyword} :
    acceptKeyword k ts = .ok (true, ts') ↔ Takes [.keyword k] ts ts' := by
  obtain ⟨ahead, stop⟩ := ts
  obtain ⟨ahead', stop'⟩ := ts'
  rw [acceptKeyword, takes_singleton]
  rcases ahead with - | ⟨⟨kind, span⟩, rest⟩
  · simp
  · cases kind with
    | keyword k' =>
      by_cases hk : k' = k <;> simp [hk]
    | _ => simp

theorem acceptKeyword_eq_false {k : Keyword} :
    acceptKeyword k ts = .ok (false, ts') ↔ ts.next? ≠ some (.keyword k) ∧ ts = ts' := by
  obtain ⟨ahead, stop⟩ := ts
  rw [acceptKeyword]
  rcases ahead with - | ⟨⟨kind, span⟩, rest⟩
  · simp [Tokens.next?]
  · cases kind with
    | keyword k' =>
      by_cases hk : k' = k <;> simp [hk, Tokens.next?]
    | _ => simp [Tokens.next?]

/-- A name that must be there is taken. -/
theorem takes_of_consumeName {context name : String} {span : Span}
    (h : consumeName context ts = .ok ((name, span), ts')) : Takes [.name name] ts ts' := by
  obtain ⟨ahead, stop⟩ := ts
  rcases ahead with - | ⟨⟨kind, span'⟩, rest⟩
  · cases h
  · cases kind with
    | name s =>
      cases h
      exact takes_singleton.2 ⟨span, rfl⟩
    | _ => cases h

theorem exists_consumeName {name : String} (h : Takes [.name name] ts ts') :
    ∃ span, ∀ context, consumeName context ts = .ok ((name, span), ts') := by
  obtain ⟨span, rfl⟩ := takes_singleton.1 h
  exact ⟨span, fun _ ↦ rfl⟩

/-- A type is accepted if its keyword is taken. -/
theorem acceptType?_eq_some {type : Tag} :
    acceptType? ts = .ok (some type, ts') ↔
      ∃ k, typeOfKeyword? k = some type ∧ Takes [.keyword k] ts ts' := by
  obtain ⟨ahead, stop⟩ := ts
  obtain ⟨ahead', stop'⟩ := ts'
  simp only [acceptType?, takes_singleton]
  rcases ahead with - | ⟨⟨kind, span⟩, rest⟩
  · simp
  · cases kind with
    | keyword k => rcases h : typeOfKeyword? k with - | type' <;> simp [h]
    | _ => simp

theorem acceptType?_eq_none :
    acceptType? ts = .ok (none, ts') ↔
      (∀ k, ts.next? = some (.keyword k) → typeOfKeyword? k = none) ∧ ts = ts' := by
  obtain ⟨ahead, stop⟩ := ts
  simp only [acceptType?]
  rcases ahead with - | ⟨⟨kind, span⟩, rest⟩
  · simp [Tokens.next?]
  · cases kind with
    | keyword k => rcases h : typeOfKeyword? k with - | type' <;> simp [h, Tokens.next?]
    | _ => simp [Tokens.next?]

/-- An operator of a level is accepted if its symbol is taken. -/
theorem acceptBinary?_eq_some {level : Nat} {op : BinaryOp} :
    acceptBinary? level ts = .ok (some op, ts') ↔
      ∃ s, BinaryOp.ofSymbol? s = some op ∧ op.level = level ∧ Takes [.symbol s] ts ts' := by
  constructor
  · intro h
    obtain ⟨ahead, stop⟩ := ts
    simp only [acceptBinary?] at h
    split at h
    · rename_i s span rest
      split at h
      · rename_i op' hs
        split at h
        · cases h
          exact ⟨s, hs, ‹_›, takes_singleton.2 ⟨span, rfl⟩⟩
        · cases h
      · cases h
    · cases h
  · rintro ⟨s, hs, rfl, htakes⟩
    obtain ⟨span, rfl⟩ := takes_singleton.1 htakes
    simp [acceptBinary?, hs]

theorem eq_of_acceptBinary? {level : Nat} (h : acceptBinary? level ts = .ok (none, ts')) :
    ts = ts' := by
  obtain ⟨ahead, stop⟩ := ts
  simp only [acceptBinary?] at h
  split at h
  · split at h
    · split at h
      · cases h
      · cases h
        rfl
    · cases h
      rfl
  · cases h
    rfl

/-- No operator is accepted where none of the level is next. -/
theorem acceptBinary?_eq_none {level : Nat}
    (h : ∀ s op, ts.next? = some (.symbol s) → BinaryOp.ofSymbol? s = some op →
      op.level ≠ level) : acceptBinary? level ts = .ok (none, ts) := by
  obtain ⟨ahead, stop⟩ := ts
  simp only [acceptBinary?]
  split
  · rename_i s span rest
    split
    · rename_i op hs
      rw [if_neg (h s op rfl hs)]
    · rfl
  · rfl

end Reader

end Scriptlet
