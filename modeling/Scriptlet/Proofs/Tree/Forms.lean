import Scriptlet.Proofs.Tree.ReadStmt

/-!
# Telling statements apart

A statement is told from its first tokens, except that an assignment to an item starts like an
expression. It is told from one by the `=` behind the bracket that follows the name. The lemmas here
say that this goes right for whatever the grammar spells: inside an expression all brackets are
matched, and no `=` follows one of them.
-/

namespace Scriptlet

open Reader Tokens

/-! ### Expressions inside statements -/

/-- The kind may stand in an expression. -/
def Kind.isInner : Kind → Bool
  | .keyword .null => true
  | .keyword _ | .symbol .semicolon => false
  | _ => true

/-- An expression is made of kinds that may stand in one. -/
theorem Phrase.Spelled.all_isInner {p : Phrase} {ks : List Kind} (h : p.Spelled ks) :
    ks.all Kind.isInner = true := by
  induction h with
  | @operator n s op left right e ks ks' hs _ _ ihright ihmore =>
    have hinner : (Kind.symbol s).isInner = true := by cases hs <;> rfl
    simp only [List.all_cons, List.all_append, hinner, ihright, ihmore, Bool.and_self]
  | @noArg close hclose =>
    cases close <;> first | rfl | cases hclose
  | @args close e es ks ks' hclose _ _ ih ihmore =>
    have hinner : (Kind.symbol close).isInner = true := by
      cases close <;> first | rfl | cases hclose
    simp only [List.all_cons, List.all_append, List.all_nil, hinner, ih, ihmore, Bool.and_self]
  | _ => simp_all [Kind.isInner, List.all_append]

variable {fuel : Nat} {c c' : Context} {ts ts' mid : Tokens} {ks : List Kind} {e : Expr}

/-- Reading an expression in front of a symbol that cannot go on with it. -/
theorem readExpr_of_spelled {s : Symbol} (h : Phrase.Spelled (.level 0 e) ks)
    (ht : Takes ks ts mid) (hs : mid.next? = some (.symbol s)) (hstop : s.continues 0 = false)
    (hfuel : 16 * ks.length ≤ fuel) : readExpr fuel ts = .ok (e, mid) := by
  refine h.reads (p := .level 0 e) ht (fun s' hs' ↦ ?_) (by simp only [Phrase.slack]; omega)
  rw [hs, Option.some.injEq, Kind.symbol.injEq] at hs'
  exact hs' ▸ hstop

/-! ### Assignments to items -/

/-- A bracket that is opened must be closed first. -/
theorem assignsItem_of_open (d : Nat) (h : Takes [.symbol .leftBracket] ts mid) :
    assignsItem d ts.ahead = assignsItem (d + 1) mid.ahead := by
  obtain ⟨span, rfl⟩ := takes_singleton.1 h
  rfl

/-- A bracket that is closed need not be any more. -/
theorem assignsItem_of_close (d : Nat) (h : Takes [.symbol .rightBracket] ts mid) :
    assignsItem (d + 2) ts.ahead = assignsItem (d + 1) mid.ahead := by
  obtain ⟨span, rfl⟩ := takes_singleton.1 h
  rfl

/-- Behind the last bracket an assignment has its sign. -/
theorem assignsItem_of_last (h : Takes [.symbol .rightBracket] ts mid) :
    assignsItem 1 ts.ahead = startsWith .equal mid.ahead := by
  obtain ⟨span, rfl⟩ := takes_singleton.1 h
  rfl

/-- The kind neither opens nor closes a bracket. -/
def Kind.isFlat : Kind → Bool
  | .symbol .leftBracket | .symbol .rightBracket | .symbol .semicolon => false
  | _ => true

/-- All other kinds are passed over. -/
theorem assignsItem_of_flat (d : Nat) {k : Kind} (h : Takes [k] ts mid) (hk : k.isFlat = true) :
    assignsItem d ts.ahead = assignsItem d mid.ahead := by
  obtain ⟨span, rfl⟩ := takes_singleton.1 h
  cases k with
  | symbol s => cases s <;> first | rfl | cases hk
  | _ => rfl

/-- The number of brackets that a phrase closes and did not open. -/
def Phrase.unopened : Phrase → Nat
  | .args .rightBracket _ => 1
  | _ => 0

/-- Looking for the end of an index goes over a phrase. -/
theorem Phrase.Spelled.assignsItem_eq {p : Phrase} (h : p.Spelled ks) (ht : Takes ks ts ts')
    (d : Nat) : assignsItem (d + 1 + p.unopened) ts.ahead = assignsItem (d + 1) ts'.ahead := by
  -- The induction is on the derivation; brackets in an expression come in pairs.
  induction h generalizing ts ts' d with
  | level _ _ _ ihleft ihmore =>
    obtain ⟨mid, ht, ht'⟩ := takes_append.1 ht
    exact (ihleft ht d).trans (ihmore ht' d)
  | tightest _ _ ih => exact ih ht d
  | noOperator | noItem | noMoreArg =>
    obtain rfl := takes_nil.1 ht
    rfl
  | @operator n s op left right e ks ks' hs _ _ ihright ihmore =>
    obtain ⟨mid, hfirst, ht⟩ := takes_cons.1 ht
    obtain ⟨mid', ht, ht'⟩ := takes_append.1 ht
    have hflat : (Kind.symbol s).isFlat = true := by cases hs <;> rfl
    exact (assignsItem_of_flat (d + 1) hfirst hflat).trans ((ihright ht d).trans (ihmore ht' d))
  | negate _ ih | not _ ih =>
    obtain ⟨mid, hfirst, ht⟩ := takes_cons.1 ht
    exact (assignsItem_of_flat (d + 1) hfirst rfl).trans (ih ht d)
  | operand _ _ ih ihitems =>
    obtain ⟨mid, ht, ht'⟩ := takes_append.1 ht
    exact (ih ht d).trans (ihitems ht' d)
  | index _ _ ihi ihitems =>
    obtain ⟨mid₁, hopen, ht⟩ := takes_cons.1 ht
    obtain ⟨mid₂, ht, hclose⟩ := takes_append.1 ht
    obtain ⟨mid₃, hclose, ht'⟩ := takes_cons.1 hclose
    exact (assignsItem_of_open (d + 1) hopen).trans ((ihi ht (d + 1)).trans
      ((assignsItem_of_close d hclose).trans (ihitems ht' d)))
  | slice _ _ _ ihi ihj ihitems =>
    obtain ⟨mid₁, hopen, ht⟩ := takes_cons.1 ht
    obtain ⟨mid₂, ht, hcolon⟩ := takes_append.1 ht
    obtain ⟨mid₃, hcolon, ht'⟩ := takes_cons.1 hcolon
    obtain ⟨mid₄, ht', hclose⟩ := takes_append.1 ht'
    obtain ⟨mid₅, hclose, ht''⟩ := takes_cons.1 hclose
    exact (assignsItem_of_open (d + 1) hopen).trans ((ihi ht (d + 1)).trans
      ((assignsItem_of_flat (d + 2) hcolon rfl).trans ((ihj ht' (d + 1)).trans
        ((assignsItem_of_close d hclose).trans (ihitems ht'' d)))))
  | int | float | str | bool | null | var => exact assignsItem_of_flat (d + 1) ht rfl
  | call _ ih =>
    obtain ⟨mid, hname, ht⟩ := takes_cons.1 ht
    obtain ⟨mid', hopen, ht⟩ := takes_cons.1 ht
    exact (assignsItem_of_flat (d + 1) hname rfl).trans
      ((assignsItem_of_flat (d + 1) hopen rfl).trans (ih ht d))
  | paren _ ih =>
    obtain ⟨mid, hopen, ht⟩ := takes_cons.1 ht
    obtain ⟨mid', ht, hclose⟩ := takes_append.1 ht
    exact (assignsItem_of_flat (d + 1) hopen rfl).trans
      ((ih ht d).trans (assignsItem_of_flat (d + 1) hclose rfl))
  | list _ ih =>
    obtain ⟨mid, hopen, ht⟩ := takes_cons.1 ht
    exact (assignsItem_of_open (d + 1) hopen).trans (ih ht d)
  | @noArg close hclose =>
    cases close with
    | rightParen => exact assignsItem_of_flat (d + 1) ht rfl
    | rightBracket => exact assignsItem_of_close d ht
    | _ => cases hclose
  | @args close e es ks ks' hclose _ _ ih ihmore =>
    obtain ⟨mid, hfirst, ht⟩ := takes_append.1 ht
    obtain ⟨mid', hmore, hend⟩ := takes_append.1 ht
    cases close with
    | rightParen =>
      exact (ih hfirst d).trans ((ihmore hmore d).trans (assignsItem_of_flat (d + 1) hend rfl))
    | rightBracket =>
      exact (ih hfirst (d + 1)).trans ((ihmore hmore (d + 1)).trans (assignsItem_of_close d hend))
    | _ => cases hclose
  | moreArgs _ _ ih ihmore =>
    obtain ⟨mid, hcomma, ht⟩ := takes_cons.1 ht
    obtain ⟨mid', ht, ht'⟩ := takes_append.1 ht
    exact (assignsItem_of_flat (d + 1) hcomma rfl).trans ((ih ht d).trans (ihmore ht' d))

/-- What follows an operand is an operator, or follows the expression. -/
theorem Phrase.Spelled.next?_of_more {n : Nat} {left : Expr} (h : Spelled (.more n left e) ks)
    (ht : Takes ks ts ts') :
    ks = [] ∧ ts = ts' ∨
      ts.next? ≠ some (.symbol .equal) ∧ ts.next? ≠ some (.symbol .leftBracket) := by
  cases h with
  | noOperator => exact .inl ⟨rfl, takes_nil.1 ht⟩
  | operator hs hright hmore =>
    rw [ht.next?]
    refine .inr ⟨?_, ?_⟩ <;> rintro ⟨⟩ <;> cases hs

/-- What follows a primary expression is a bracket, or follows the indices. -/
theorem Phrase.Spelled.next?_eq_of_items {e' : Expr} (h : Spelled (.items e e') ks)
    (ht : Takes ks ts ts') : ks = [] ∧ ts = ts' ∨ ts.next? = some (.symbol .leftBracket) := by
  cases h with
  | noItem => exact .inl ⟨rfl, takes_nil.1 ht⟩
  | index | slice => exact .inr ht.next?

/-- Behind a bracket that follows a name there is no `=`, unless it follows the expression. -/
theorem Phrase.Spelled.next?_of_assignsItem {e e' : Expr} (h : Spelled (.items e e') ks)
    (hne : ks ≠ []) (ht : Takes ks ts ts') (hassigns : assignsItem 0 ts.ahead = true) :
    ts'.next? = some (.symbol .equal) := by
  -- What follows the bracket begins another item or is the sign itself.
  have hrest {e₁ : Expr} {ks' : List Kind} {ts₁ : Tokens} (hitems : Spelled (.items e₁ e') ks')
      (ht : Takes ks' ts₁ ts') (hequal : startsWith .equal ts₁.ahead = true) :
      ts'.next? = some (.symbol .equal) := by
    have hequal := startsWith_eq_true.1 hequal
    rcases hitems.next?_eq_of_items ht with ⟨-, rfl⟩ | hs
    · exact hequal
    · rw [hequal] at hs
      cases hs
  cases h with
  | noItem => exact absurd rfl hne
  | index hi hitems =>
    obtain ⟨mid₁, hopen, ht⟩ := takes_cons.1 ht
    obtain ⟨mid₂, hinner, ht⟩ := takes_append.1 ht
    obtain ⟨mid₃, hclose, ht⟩ := takes_cons.1 ht
    refine hrest hitems ht ?_
    rw [← assignsItem_of_last hclose, ← hi.assignsItem_eq hinner 0]
    exact (assignsItem_of_open 0 hopen).symm.trans hassigns
  | slice hi hj hitems =>
    obtain ⟨mid₁, hopen, ht⟩ := takes_cons.1 ht
    obtain ⟨mid₂, hinner, ht⟩ := takes_append.1 ht
    obtain ⟨mid₃, hcolon, ht⟩ := takes_cons.1 ht
    obtain ⟨mid₄, hinner', ht⟩ := takes_append.1 ht
    obtain ⟨mid₅, hclose, ht⟩ := takes_cons.1 ht
    refine hrest hitems ht ?_
    rw [← assignsItem_of_last hclose, ← hj.assignsItem_eq hinner' 0]
    exact (assignsItem_of_flat 1 hcolon rfl).symm.trans ((hi.assignsItem_eq hinner 0).symm.trans
      ((assignsItem_of_open 0 hopen).symm.trans hassigns))

/-- An expression that starts with a name does not read like an assignment: neither to the name nor
to an item of it. -/
theorem Phrase.Spelled.not_assigns {p : Phrase} (h : p.Spelled ks) (hslack : 4 < p.slack)
    (ht : Takes ks ts ts') {name : String} (hname : Takes [.name name] ts mid) :
    ks = [.name name] ∨ mid.next? ≠ some (.symbol .equal) ∧
      (mid.next? = some (.symbol .leftBracket) → assignsItem 0 mid.ahead = true →
        ts'.next? = some (.symbol .equal)) := by
  -- The induction goes down to the first operand, which is the name or begins with it.
  induction h generalizing ts' with
  | @level n left e ks ks' _ _ hmore ihleft _ =>
    obtain ⟨mid', ht, ht'⟩ := takes_append.1 ht
    rcases ihleft (by simp only [slack]; omega) ht with rfl | ⟨hequal, hbracket⟩
    · obtain rfl := ht.unique hname
      rcases hmore.next?_of_more ht' with ⟨rfl, rfl⟩ | ⟨hequal, hbracket⟩
      · exact .inl rfl
      · exact .inr ⟨hequal, fun hc ↦ absurd hc hbracket⟩
    · refine .inr ⟨hequal, fun hopen hassigns ↦ ?_⟩
      have hnext := hbracket hopen hassigns
      rcases hmore.next?_of_more ht' with ⟨-, rfl⟩ | ⟨hc, -⟩
      · exact hnext
      · exact absurd hnext hc
  | tightest _ _ ih => exact ih (by simp [slack]) ht
  | @operand e e' ks ks' h hitems ih _ =>
    obtain ⟨mid', ht, ht'⟩ := takes_append.1 ht
    rcases ih (by simp [slack]) ht with rfl | ⟨hequal, hbracket⟩
    · obtain rfl := ht.unique hname
      by_cases hne : ks' = []
      · subst hne
        exact .inl rfl
      · rcases hitems.next?_eq_of_items ht' with ⟨hc, -⟩ | hopen
        · exact absurd hc hne
        · exact .inr ⟨by simp [hopen], fun _ ↦ hitems.next?_of_assignsItem hne ht'⟩
    · refine .inr ⟨hequal, fun hopen hassigns ↦ ?_⟩
      have hnext := hbracket hopen hassigns
      rcases hitems.next?_eq_of_items ht' with ⟨-, rfl⟩ | hc
      · exact hnext
      · rw [hnext] at hc
        cases hc
  | var name' =>
    cases ht.next?.symm.trans hname.next?
    exact .inl rfl
  | call hargs =>
    obtain ⟨mid', hname', hopen⟩ := takes_cons.1 ht
    cases hname'.next?.symm.trans hname.next?
    obtain rfl := hname'.unique hname
    exact .inr ⟨by simp [hopen.next?], fun hc ↦ by simp [hopen.next?] at hc⟩
  | negate | not | int | float | str | bool | null | paren | list =>
    cases ht.next?.symm.trans hname.next?
  | noOperator | operator | noItem | index | slice | noArg | args | noMoreArg | moreArgs =>
    simp [slack] at hslack

/-! ### Forms -/

theorem form_eq_assign {name : String} (hname : Takes [.name name] ts mid)
    (hequal : mid.next? = some (.symbol .equal)) : Form.ofTokens ts.ahead = .assign := by
  obtain ⟨span, rfl⟩ := takes_singleton.1 hname
  simp [Form.ofTokens, startsWith_eq_true.2 hequal]

theorem form_eq_assignAt {name : String} (hname : Takes [.name name] ts mid)
    (hopen : mid.next? = some (.symbol .leftBracket)) (hassigns : assignsItem 0 mid.ahead = true) :
    Form.ofTokens ts.ahead = .assignAt := by
  have hequal : startsWith .equal mid.ahead = false := by
    rw [Bool.eq_false_iff, Ne, startsWith_eq_true, hopen]
    simp
  obtain ⟨span, rfl⟩ := takes_singleton.1 hname
  simp [Form.ofTokens, hequal, startsWith_eq_true.2 hopen, hassigns]

theorem form_eq_eval (h : Phrase.Spelled (.level 0 e) ks)
    (hstep : ¬[.symbol .minus, .symbol .minus] <+: ks) (ht : Takes ks ts mid)
    (hend : Takes [.symbol .semicolon] mid ts') : Form.ofTokens ts.ahead = .eval := by
  obtain ⟨k, ks', rfl, hk⟩ := h.exists_opens (by simp [Phrase.slack])
  obtain ⟨mid', hfirst, hrest⟩ := takes_cons.1 ht
  cases k with
  | name s =>
    -- A name is followed neither by the sign nor by an item with the sign behind it.
    have hnext : mid'.next? ≠ some (.symbol .equal) ∧
        ¬(mid'.next? = some (.symbol .leftBracket) ∧ assignsItem 0 mid'.ahead = true) := by
      rcases h.not_assigns (by simp [Phrase.slack]) ht hfirst with hks | ⟨hequal, hbracket⟩
      · cases hks
        obtain rfl := takes_nil.1 hrest
        simp [hend.next?]
      · refine ⟨hequal, fun hc ↦ ?_⟩
        have := hbracket hc.1 hc.2
        simp [hend.next?] at this
    rw [Ne, ← startsWith_eq_true, ← startsWith_eq_true, ← Bool.and_eq_true] at hnext
    obtain ⟨span, rfl⟩ := takes_singleton.1 hfirst
    simp only [Form.ofTokens]
    rw [if_neg hnext.1, if_neg hnext.2]
  | symbol s =>
    cases s with
    | minus =>
      rw [form_eq_of_minus hfirst, if_neg]
      rw [startsWith_eq_true]
      intro hminus
      cases ks' with
      | nil =>
        obtain rfl := takes_nil.1 hrest
        simp [hend.next?] at hminus
      | cons k' ks' =>
        rw [hrest.next?, Option.some.injEq] at hminus
        exact hstep ⟨ks', by rw [hminus]; rfl⟩
    | bang | leftParen | leftBracket =>
      obtain ⟨span, rfl⟩ := takes_singleton.1 hfirst
      rfl
    | _ => cases hk
  | keyword k =>
    obtain ⟨span, rfl⟩ := takes_singleton.1 hfirst
    cases k <;> first | rfl | cases hk
  | _ =>
    obtain ⟨span, rfl⟩ := takes_singleton.1 hfirst
    rfl

end Scriptlet
