import Scriptlet.Proofs.Tree.Grammar
import Scriptlet.Proofs.Tree.Reading

/-!
# Reading expressions

The readers of expressions follow the grammar. Whatever they read is spelled by the tokens they took
(`Phrase.Sound`), and whatever is spelled is read, if what follows does not go on with it and there
is fuel for its tokens (`Phrase.Spelled.reads`). Both go by the productions: the first by recursion
on fuel, the second by induction on the spelling.
-/

namespace Scriptlet

open Reader Tokens

/-! ### The tables -/

/-- The readers go by the grammar's table of operators. -/
theorem BinaryOp.spelled_iff {op : BinaryOp} {level : Nat} {s : Symbol} :
    op.Spelled level s ↔ BinaryOp.ofSymbol? s = some op ∧ op.level = level := by
  constructor
  · intro h
    cases h <;> exact ⟨rfl, rfl⟩
  · rintro ⟨hs, rfl⟩
    cases s <;> cases hs <;> constructor

/-- The readers go by the grammar's table of types. -/
theorem Tag.named_iff {type : Tag} {k : Keyword} :
    type.Named k ↔ typeOfKeyword? k = some type := by
  constructor
  · intro h
    cases h <;> rfl
  · intro h
    cases k <;> cases h <;> constructor

namespace Phrase

/-- Reading makes this phrase of the tokens between two states. -/
def Reads (fuel : Nat) (ts ts' : Tokens) : Phrase → Prop
  | .level n e => readLevel fuel n ts = .ok (e, ts')
  | .more n left e => readMore fuel n left ts = .ok (e, ts')
  | .unary e => readUnary fuel ts = .ok (e, ts')
  | .items e e' => readItems fuel e ts = .ok (e', ts')
  | .primary e => readPrimary fuel ts = .ok (e, ts')
  | .args close es => close.closes = true ∧ readArgs fuel close ts = .ok (es, ts')
  | .moreArgs es => readMoreArgs fuel ts = .ok (es, ts')

/-! ### What is read is spelled -/

/-- Phrases read with some fuel are spelled by what was taken for them. -/
def Sound (fuel : Nat) : Prop :=
  ∀ {ts ts' : Tokens} {p : Phrase}, p.Reads fuel ts ts' → ∃ ks, Takes ks ts ts' ∧ p.Spelled ks

variable {fuel n : Nat} {ts ts' : Tokens} {e e' : Expr}

namespace Sound

/-- A level is an expression of the next one, and operators behind it. -/
theorem level (ih : Sound fuel) (h : readLevel (fuel + 1) n ts = .ok (e, ts')) :
    ∃ ks, Takes ks ts ts' ∧ Spelled (.level n e) ks := by
  rw [readLevel] at h
  split at h
  · rename_i hn
    obtain ⟨left, mid, hleft, hmore⟩ := bind_eq_ok.1 h
    obtain ⟨ks, hks, hleft⟩ := ih (p := .level (n + 1) left) hleft
    obtain ⟨ks', hks', hmore⟩ := ih (p := .more n left e) hmore
    exact ⟨ks ++ ks', hks.trans hks', .level hn hleft hmore⟩
  · rename_i hn
    obtain ⟨ks, hks, h⟩ := ih (p := .unary e) h
    exact ⟨ks, hks, .tightest hn h⟩

/-- Operators of a level are taken as long as there are any. -/
theorem more {left : Expr} (ih : Sound fuel) (h : readMore (fuel + 1) n left ts = .ok (e, ts')) :
    ∃ ks, Takes ks ts ts' ∧ Spelled (.more n left e) ks := by
  rw [readMore] at h
  obtain ⟨op?, mid, hop, h⟩ := bind_eq_ok.1 h
  cases op? with
  | none =>
    obtain ⟨rfl, rfl⟩ := pure_eq_ok.1 h
    exact ⟨[], takes_nil.2 (eq_of_acceptBinary? hop), .noOperator⟩
  | some op =>
    obtain ⟨s, hs, hlevel, hks⟩ := acceptBinary?_eq_some.1 hop
    obtain ⟨right, mid', hright, hmore⟩ := bind_eq_ok.1 h
    obtain ⟨ks', hks', hright⟩ := ih (p := .level (n + 1) right) hright
    obtain ⟨ks'', hks'', hmore⟩ := ih (p := .more n (.binary op left right) e) hmore
    exact ⟨_, hks.cons (hks'.trans hks''),
      .operator (BinaryOp.spelled_iff.2 ⟨hs, hlevel⟩) hright hmore⟩

/-- A sign, or an operand with its items. -/
theorem unary (ih : Sound fuel) (h : readUnary (fuel + 1) ts = .ok (e, ts')) :
    ∃ ks, Takes ks ts ts' ∧ Spelled (.unary e) ks := by
  rw [readUnary] at h
  obtain ⟨isMinus, mid, hminus, h⟩ := bind_eq_ok.1 h
  cases isMinus with
  | true =>
    obtain ⟨e', mid', he, h⟩ := bind_eq_ok.1 h
    obtain ⟨rfl, rfl⟩ := pure_eq_ok.1 h
    obtain ⟨ks, hks, he⟩ := ih (p := .unary e') he
    exact ⟨_, (accept_eq_true.1 hminus).cons hks, .negate he⟩
  | false =>
    obtain ⟨-, rfl⟩ := accept_eq_false.1 hminus
    obtain ⟨isBang, mid, hbang, h⟩ := bind_eq_ok.1 h
    cases isBang with
    | true =>
      obtain ⟨e', mid', he, h⟩ := bind_eq_ok.1 h
      obtain ⟨rfl, rfl⟩ := pure_eq_ok.1 h
      obtain ⟨ks, hks, he⟩ := ih (p := .unary e') he
      exact ⟨_, (accept_eq_true.1 hbang).cons hks, .not he⟩
    | false =>
      obtain ⟨-, rfl⟩ := accept_eq_false.1 hbang
      obtain ⟨e', mid', he, h⟩ := bind_eq_ok.1 h
      obtain ⟨ks, hks, he⟩ := ih (p := .primary e') he
      obtain ⟨ks', hks', h⟩ := ih (p := .items e' e) h
      exact ⟨_, hks.trans hks', .operand he h⟩

/-- Items are taken as long as brackets follow. -/
theorem items (ih : Sound fuel) (h : readItems (fuel + 1) e ts = .ok (e', ts')) :
    ∃ ks, Takes ks ts ts' ∧ Spelled (.items e e') ks := by
  rw [readItems] at h
  obtain ⟨isOpen, mid, hopen, h⟩ := bind_eq_ok.1 h
  cases isOpen with
  | true =>
    obtain ⟨i, mid₁, hi, h⟩ := bind_eq_ok.1 h
    obtain ⟨ks, hks, hi⟩ := ih (p := .level 0 i) hi
    obtain ⟨isSlice, mid₂, hcolon, h⟩ := bind_eq_ok.1 h
    cases isSlice with
    | true =>
      obtain ⟨j, mid₃, hj, h⟩ := bind_eq_ok.1 h
      obtain ⟨ks', hks', hj⟩ := ih (p := .level 0 j) hj
      obtain ⟨_, mid₄, hclose, h⟩ := bind_eq_ok.1 h
      obtain ⟨ks'', hks'', h⟩ := ih (p := .items (.slice e i j) e') h
      exact ⟨_, (accept_eq_true.1 hopen).cons (hks.trans ((accept_eq_true.1 hcolon).cons
        (hks'.trans ((consume_eq_ok.1 hclose).cons hks'')))), .slice hi hj h⟩
    | false =>
      obtain ⟨-, rfl⟩ := accept_eq_false.1 hcolon
      obtain ⟨_, mid₄, hclose, h⟩ := bind_eq_ok.1 h
      obtain ⟨ks', hks', h⟩ := ih (p := .items (.index e i) e') h
      exact ⟨_, (accept_eq_true.1 hopen).cons (hks.trans ((consume_eq_ok.1 hclose).cons hks')),
        .index hi h⟩
  | false =>
    obtain ⟨-, rfl⟩ := accept_eq_false.1 hopen
    obtain ⟨rfl, rfl⟩ := pure_eq_ok.1 h
    exact ⟨[], takes_nil.2 rfl, .noItem⟩

/-- An operand is told from its first token. -/
theorem primary (ih : Sound fuel) (h : readPrimary (fuel + 1) ts = .ok (e, ts')) :
    ∃ ks, Takes ks ts ts' ∧ Spelled (.primary e) ks := by
  rw [readPrimary] at h
  obtain ⟨k?, mid, hpeek, h⟩ := bind_eq_ok.1 h
  obtain ⟨rfl, rfl⟩ := peek?_eq_ok.1 hpeek
  have hliteral {k : Kind} {e₀ : Expr} (hk : ts.next? = some k)
      (h : (advance >>= fun _ ↦ pure e₀ : Reader Expr) ts = .ok (e, ts'))
      (hspelled : Spelled (.primary e₀) [k]) : ∃ ks, Takes ks ts ts' ∧ Spelled (.primary e) ks := by
    obtain ⟨span, mid, hadvance, h⟩ := bind_eq_ok.1 h
    obtain ⟨rfl, rfl⟩ := pure_eq_ok.1 h
    exact ⟨_, advance_eq_ok hk hadvance, hspelled⟩
  -- One case for each kind that an operand may start with.
  generalize hk : ts.next? = k? at h
  split at h
  · rename_i n
    exact hliteral hk h (.int n)
  · rename_i x
    exact hliteral hk h (.float x)
  · rename_i s
    exact hliteral hk h (.str s)
  · rename_i b
    exact hliteral hk h (.bool b)
  · exact hliteral hk h .null
  · rename_i name
    obtain ⟨span, mid, hadvance, h⟩ := bind_eq_ok.1 h
    obtain ⟨isCall, mid₁, hopen, h⟩ := bind_eq_ok.1 h
    cases isCall with
    | true =>
      obtain ⟨args, mid₂, hargs, h⟩ := bind_eq_ok.1 h
      obtain ⟨rfl, rfl⟩ := pure_eq_ok.1 h
      obtain ⟨ks, hks, hargs⟩ := ih (p := .args .rightParen args) ⟨rfl, hargs⟩
      exact ⟨_, (advance_eq_ok hk hadvance).cons ((accept_eq_true.1 hopen).cons hks),
        .call hargs⟩
    | false =>
      obtain ⟨-, rfl⟩ := accept_eq_false.1 hopen
      obtain ⟨rfl, rfl⟩ := pure_eq_ok.1 h
      exact ⟨_, advance_eq_ok hk hadvance, .var name⟩
  · obtain ⟨span, mid, hadvance, h⟩ := bind_eq_ok.1 h
    obtain ⟨e', mid₁, he, h⟩ := bind_eq_ok.1 h
    obtain ⟨ks, hks, he⟩ := ih (p := .level 0 e') he
    obtain ⟨_, mid₂, hclose, h⟩ := bind_eq_ok.1 h
    obtain ⟨rfl, rfl⟩ := pure_eq_ok.1 h
    exact ⟨_, (advance_eq_ok hk hadvance).cons (hks.trans (consume_eq_ok.1 hclose)), .paren he⟩
  · obtain ⟨span, mid, hadvance, h⟩ := bind_eq_ok.1 h
    obtain ⟨items, mid₁, hitems, h⟩ := bind_eq_ok.1 h
    obtain ⟨rfl, rfl⟩ := pure_eq_ok.1 h
    obtain ⟨ks, hks, hitems⟩ := ih (p := .args .rightBracket items) ⟨rfl, hitems⟩
    exact ⟨_, (advance_eq_ok hk hadvance).cons hks, .list hitems⟩
  all_goals exact absurd h unexpected_ne_ok

/-- Arguments are spelled with commas between them. -/
theorem args {close : Symbol} {es : List Expr} (ih : Sound fuel) (hclose : close.closes = true)
    (h : readArgs (fuel + 1) close ts = .ok (es, ts')) :
    ∃ ks, Takes ks ts ts' ∧ Spelled (.args close es) ks := by
  rw [readArgs] at h
  obtain ⟨isEmpty, mid, hempty, h⟩ := bind_eq_ok.1 h
  obtain ⟨-, rfl⟩ := at?_eq_ok.1 hempty
  cases isEmpty with
  | true =>
    obtain ⟨_, mid, hend, h⟩ := bind_eq_ok.1 h
    obtain ⟨rfl, rfl⟩ := pure_eq_ok.1 h
    exact ⟨_, consume_eq_ok.1 hend, .noArg hclose⟩
  | false =>
    obtain ⟨e, mid, he, h⟩ := bind_eq_ok.1 h
    obtain ⟨ks, hks, he⟩ := ih (p := .level 0 e) he
    obtain ⟨es, mid₁, hes, h⟩ := bind_eq_ok.1 h
    obtain ⟨ks', hks', hes⟩ := ih (p := .moreArgs es) hes
    obtain ⟨_, mid₂, hend, h⟩ := bind_eq_ok.1 h
    obtain ⟨rfl, rfl⟩ := pure_eq_ok.1 h
    exact ⟨_, hks.trans (hks'.trans (consume_eq_ok.1 hend)), .args hclose he hes⟩

/-- The arguments behind the first one have a comma before them. -/
theorem moreArgs {es : List Expr} (ih : Sound fuel)
    (h : readMoreArgs (fuel + 1) ts = .ok (es, ts')) :
    ∃ ks, Takes ks ts ts' ∧ Spelled (.moreArgs es) ks := by
  rw [readMoreArgs] at h
  obtain ⟨isComma, mid, hcomma, h⟩ := bind_eq_ok.1 h
  cases isComma with
  | true =>
    obtain ⟨e, mid₁, he, h⟩ := bind_eq_ok.1 h
    obtain ⟨ks, hks, he⟩ := ih (p := .level 0 e) he
    obtain ⟨es, mid₂, hes, h⟩ := bind_eq_ok.1 h
    obtain ⟨ks', hks', hes⟩ := ih (p := .moreArgs es) hes
    obtain ⟨rfl, rfl⟩ := pure_eq_ok.1 h
    exact ⟨_, (accept_eq_true.1 hcomma).cons (hks.trans hks'), .moreArgs he hes⟩
  | false =>
    obtain ⟨-, rfl⟩ := accept_eq_false.1 hcomma
    obtain ⟨rfl, rfl⟩ := pure_eq_ok.1 h
    exact ⟨[], takes_nil.2 rfl, .noMoreArg⟩

end Sound

/-- **Phrases that are read are spelled by what was taken for them.** -/
theorem sound (fuel : Nat) : Sound fuel := by
  induction fuel with
  | zero =>
    intro ts ts' p h
    cases p with
    | args close es => cases h.2
    | _ => cases h
  | succ fuel ih =>
    intro ts ts' p h
    cases p with
    | level n e => exact ih.level h
    | more n left e => exact ih.more h
    | unary e => exact ih.unary h
    | items e e' => exact ih.items h
    | primary e => exact ih.primary h
    | args close es => exact ih.args h.1 h.2
    | moreArgs es => exact ih.moreArgs h

end Phrase

/-! ### What is spelled is read -/

/-- The kind may start an expression. -/
def Kind.opens : Kind → Bool
  | .int _ | .float _ | .str _ | .bool _ | .name _ | .keyword .null => true
  | .symbol .minus | .symbol .bang | .symbol .leftParen | .symbol .leftBracket => true
  | .keyword _ | .symbol _ => false

/-- The symbol may go on with an expression of a level. -/
def Symbol.continues (n : Nat) (s : Symbol) : Bool :=
  s = .leftParen || s = .leftBracket || (BinaryOp.ofSymbol? s).any (n ≤ ·.level)

/-- The tokens ahead do not go on with an expression of a level. -/
def Tokens.Stops (n : Nat) (ts : Tokens) : Prop :=
  ∀ s, ts.next? = some (.symbol s) → s.continues n = false

/-- Operators bind less tightly than signs. -/
theorem BinaryOp.level_lt (op : BinaryOp) : op.level < unaryLevel := by
  cases op <;> simp [level, unaryLevel]

/-- A symbol ends an expression of a level unless it opens brackets or is an operator of that level
or a tighter one. -/
theorem Symbol.continues_eq_false {n : Nat} {s : Symbol} :
    s.continues n = false ↔ s ≠ .leftParen ∧ s ≠ .leftBracket ∧
      ∀ op, BinaryOp.ofSymbol? s = some op → op.level < n := by
  rw [continues]
  cases h : BinaryOp.ofSymbol? s <;> simp [and_assoc]

/-- Whatever stops an expression of one level stops one of a higher level. -/
theorem Tokens.Stops.mono {m n : Nat} {ts : Tokens} (h : ts.Stops m)
    (hmn : m ≤ n ∨ unaryLevel ≤ n) : ts.Stops n := by
  intro s hs
  obtain ⟨hparen, hbracket, hop⟩ := Symbol.continues_eq_false.1 (h s hs)
  refine Symbol.continues_eq_false.2 ⟨hparen, hbracket, fun op hop' ↦ ?_⟩
  have := hop op hop'
  have := op.level_lt
  omega

/-- Such a symbol ends it where it is next. -/
theorem Tokens.Takes.stops {n : Nat} {s : Symbol} {ks : List Kind} {ts ts' : Tokens}
    (h : Takes (.symbol s :: ks) ts ts') (hs : s.continues n = false) : ts.Stops n := by
  intro s' hs'
  rw [h.next?, Option.some.injEq, Kind.symbol.injEq] at hs'
  exact hs' ▸ hs

namespace Phrase

variable {fuel n : Nat} {ts ts' : Tokens} {ks : List Kind} {p : Phrase}

/-- What follows a phrase does not go on with it. -/
def Ends (ts : Tokens) : Phrase → Prop
  | .level n _ | .more n _ _ => ts.Stops n
  | .unary _ | .items _ _ => ts.Stops unaryLevel
  | .primary _ => ts.next? ≠ some (.symbol .leftParen)
  | .args _ _ => True
  | .moreArgs _ => ts.Stops 0 ∧ ts.next? ≠ some (.symbol .comma)

/-- How much less fuel a phrase takes than sixteen for each of its tokens and one more. -/
def slack : Phrase → Nat
  | .level n _ => 5 + min n unaryLevel
  | .unary _ => 11
  | .primary _ => 12
  | .args _ _ => 4
  | .more _ _ _ | .items _ _ | .moreArgs _ => 0

/-- Expressions start with one of a few kinds. -/
theorem Spelled.exists_opens (h : p.Spelled ks) (hslack : 4 < p.slack) :
    ∃ k ks', ks = k :: ks' ∧ k.opens = true := by
  induction h with
  | level _ _ _ ihleft =>
    obtain ⟨k, ks', rfl, hk⟩ := ihleft (by simp only [slack]; omega)
    exact ⟨k, _, rfl, hk⟩
  | tightest _ _ ih => exact ih (by simp [slack])
  | operand _ _ ih =>
    obtain ⟨k, ks', rfl, hk⟩ := ih (by simp [slack])
    exact ⟨k, _, rfl, hk⟩
  | noOperator | operator | noItem | index | slice | noArg | args | noMoreArg | moreArgs =>
    simp [slack] at hslack
  | _ => exact ⟨_, _, rfl, rfl⟩

/-- Phrases have fuel to spare for what they start with. -/
theorem Spelled.slack_le (h : p.Spelled ks) : p.slack ≤ 12 * ks.length := by
  by_cases hslack : 4 < p.slack
  · obtain ⟨k, ks', rfl, -⟩ := h.exists_opens hslack
    have : p.slack ≤ 12 := by cases p <;> simp only [slack, unaryLevel] <;> omega
    rw [List.length_cons]
    omega
  · cases h with
    | noArg | args => simp only [slack, List.length_append, List.length_singleton]; omega
    | noOperator | operator | noItem | index | slice | noMoreArg | moreArgs => simp [slack]
    | _ => exact absurd (by simp only [slack]; omega) hslack

/-- What follows an operand of a level, be it an operator of the level below. -/
theorem Spelled.stops_of_more {left e : Expr} (h : Spelled (.more n left e) ks)
    (ht : Takes ks ts ts') (hends : ts'.Stops n) : ts.Stops (n + 1) := by
  cases h with
  | noOperator =>
    obtain rfl := takes_nil.1 ht
    exact hends.mono (.inl (Nat.le_succ n))
  | @operator _ s op _ right _ ks ks' hs hright hmore =>
    obtain ⟨hs, hop⟩ := BinaryOp.spelled_iff.1 hs
    refine ht.stops (Symbol.continues_eq_false.2 ⟨?_, ?_, fun op' hop' ↦ ?_⟩)
    · rintro rfl
      cases hs
    · rintro rfl
      cases hs
    · obtain rfl := Option.some.inj (hs.symm.trans hop')
      omega

/-- What follows an argument is a comma, or what follows them all. -/
theorem Spelled.stops_of_moreArgs {es : List Expr} (h : Spelled (.moreArgs es) ks)
    (ht : Takes ks ts ts') (hends : ts'.Stops 0) : ts.Stops 0 := by
  cases h with
  | noMoreArg =>
    obtain rfl := takes_nil.1 ht
    exact hends
  | moreArgs => exact ht.stops rfl

/-- What follows a primary expression is no call of it. -/
theorem Spelled.next?_of_items {e e' : Expr} (h : Spelled (.items e e') ks) (ht : Takes ks ts ts')
    (hends : ts'.Stops unaryLevel) : ts.next? ≠ some (.symbol .leftParen) := by
  cases h with
  | noItem =>
    obtain rfl := takes_nil.1 ht
    exact fun hnext ↦ by cases hends _ hnext
  | index | slice => simp [ht.next?]

/-- A primary expression does not start with a sign. -/
theorem Spelled.next?_of_primary {e : Expr} (h : Spelled (.primary e) ks) (ht : Takes ks ts ts') :
    ts.next? ≠ some (.symbol .minus) ∧ ts.next? ≠ some (.symbol .bang) := by
  cases h <;> simp [ht.next?]

/-- An expression does not start with a symbol that closes a list of them. -/
theorem Spelled.next?_ne_of_closes {e : Expr} {s : Symbol} (h : Spelled (.level n e) ks)
    (ht : Takes ks ts ts') (hs : s.closes = true) : ts.next? ≠ some (.symbol s) := by
  obtain ⟨k, ks, rfl, hk⟩ := h.exists_opens (by simp only [slack]; omega)
  rw [ht.next?, Ne, Option.some.injEq]
  rintro rfl
  cases s <;> simp [Symbol.closes, Kind.opens] at hs hk

/-- A phrase is never read without fuel. -/
theorem exists_fuel {length slack : Nat} (hslack : slack ≤ 12 * length)
    (hfuel : 16 * length + 1 ≤ fuel + slack) : ∃ f, fuel = f + 1 :=
  ⟨fuel - 1, by omega⟩

namespace Reads

variable {f : Nat} {mid mid₁ mid₂ mid₃ mid₄ : Tokens} {left right e e' i j : Expr}
  {es items : List Expr}

/-- A level is read by reading the next one and then operators. -/
theorem level (hn : n < unaryLevel) (hleft : Reads f ts mid (.level (n + 1) left))
    (hmore : Reads f mid ts' (.more n left e)) : Reads (f + 1) ts ts' (.level n e) := by
  rw [Reads, readLevel, if_pos hn]
  exact bind_eq_ok.2 ⟨left, mid, hleft, hmore⟩

/-- The last level is that of signs. -/
theorem tightest (hn : ¬n < unaryLevel) (h : Reads f ts ts' (.unary e)) :
    Reads (f + 1) ts ts' (.level n e) := by
  rw [Reads, readLevel, if_neg hn]
  exact h

/-- Where the expression ends no operator is read. -/
theorem noOperator (hstops : ts.Stops n) : Reads (f + 1) ts ts (.more n e e) := by
  have hnone : acceptBinary? n ts = .ok (none, ts) := acceptBinary?_eq_none fun s op hs hop ↦
    Nat.ne_of_lt ((Symbol.continues_eq_false.1 (hstops s hs)).2.2 op hop)
  rw [Reads, readMore]
  exact bind_eq_ok.2 ⟨none, ts, hnone, rfl⟩

/-- An operator is read with its right side, and then there may be more. -/
theorem operator {s : Symbol} {op : BinaryOp} (hs : BinaryOp.ofSymbol? s = some op)
    (hop : op.level = n) (htop : Takes [.symbol s] ts mid)
    (hright : Reads f mid mid₁ (.level (n + 1) right))
    (hmore : Reads f mid₁ ts' (.more n (.binary op left right) e)) :
    Reads (f + 1) ts ts' (.more n left e) := by
  rw [Reads, readMore]
  exact bind_eq_ok.2 ⟨some op, mid, acceptBinary?_eq_some.2 ⟨s, hs, hop, htop⟩,
    bind_eq_ok.2 ⟨right, mid₁, hright, hmore⟩⟩

theorem negate (hminus : Takes [.symbol .minus] ts mid) (h : Reads f mid ts' (.unary e)) :
    Reads (f + 1) ts ts' (.unary (.unary .negate e)) := by
  rw [Reads, readUnary]
  exact bind_eq_ok.2 ⟨true, mid, accept_eq_true.2 hminus, bind_eq_ok.2 ⟨e, ts', h, rfl⟩⟩

theorem not (hbang : Takes [.symbol .bang] ts mid) (h : Reads f mid ts' (.unary e)) :
    Reads (f + 1) ts ts' (.unary (.unary .not e)) := by
  have hminus : ts.next? ≠ some (.symbol .minus) := by simp [hbang.next?]
  rw [Reads, readUnary]
  exact bind_eq_ok.2 ⟨false, ts, accept_eq_false.2 ⟨hminus, rfl⟩,
    bind_eq_ok.2 ⟨true, mid, accept_eq_true.2 hbang, bind_eq_ok.2 ⟨e, ts', h, rfl⟩⟩⟩

/-- Without a sign an operand is read, and then its items. -/
theorem operand (hminus : ts.next? ≠ some (.symbol .minus))
    (hbang : ts.next? ≠ some (.symbol .bang)) (h : Reads f ts mid (.primary e))
    (hitems : Reads f mid ts' (.items e e')) : Reads (f + 1) ts ts' (.unary e') := by
  rw [Reads, readUnary]
  exact bind_eq_ok.2 ⟨false, ts, accept_eq_false.2 ⟨hminus, rfl⟩,
    bind_eq_ok.2 ⟨false, ts, accept_eq_false.2 ⟨hbang, rfl⟩,
      bind_eq_ok.2 ⟨e, mid, h, hitems⟩⟩⟩

theorem noItem (hstops : ts.Stops n) : Reads (f + 1) ts ts (.items e e) := by
  have hopen : ts.next? ≠ some (.symbol .leftBracket) := fun hnext ↦ by cases hstops _ hnext
  rw [Reads, readItems]
  exact bind_eq_ok.2 ⟨false, ts, accept_eq_false.2 ⟨hopen, rfl⟩, rfl⟩

/-- A bracket and one expression are an index. -/
theorem index (hopen : Takes [.symbol .leftBracket] ts mid) (hi : Reads f mid mid₁ (.level 0 i))
    (hclose : Takes [.symbol .rightBracket] mid₁ mid₂)
    (hitems : Reads f mid₂ ts' (.items (.index e i) e')) :
    Reads (f + 1) ts ts' (.items e e') := by
  have hcolon : mid₁.next? ≠ some (.symbol .colon) := by simp [hclose.next?]
  rw [Reads, readItems]
  exact bind_eq_ok.2 ⟨true, mid, accept_eq_true.2 hopen, bind_eq_ok.2 ⟨i, mid₁, hi,
    bind_eq_ok.2 ⟨false, mid₁, accept_eq_false.2 ⟨hcolon, rfl⟩,
      bind_eq_ok.2 ⟨(), mid₂, consume_eq_ok.2 hclose, hitems⟩⟩⟩⟩

/-- With a colon between two expressions they are a stretch. -/
theorem slice (hopen : Takes [.symbol .leftBracket] ts mid) (hi : Reads f mid mid₁ (.level 0 i))
    (hcolon : Takes [.symbol .colon] mid₁ mid₂) (hj : Reads f mid₂ mid₃ (.level 0 j))
    (hclose : Takes [.symbol .rightBracket] mid₃ mid₄)
    (hitems : Reads f mid₄ ts' (.items (.slice e i j) e')) :
    Reads (f + 1) ts ts' (.items e e') := by
  rw [Reads, readItems]
  exact bind_eq_ok.2 ⟨true, mid, accept_eq_true.2 hopen, bind_eq_ok.2 ⟨i, mid₁, hi,
    bind_eq_ok.2 ⟨true, mid₂, accept_eq_true.2 hcolon, bind_eq_ok.2 ⟨j, mid₃, hj,
      bind_eq_ok.2 ⟨(), mid₄, consume_eq_ok.2 hclose, hitems⟩⟩⟩⟩⟩

theorem int {n : Int64} (h : Takes [.int n] ts ts') : Reads (f + 1) ts ts' (.primary (.int n)) := by
  obtain ⟨span, rfl⟩ := takes_singleton.1 h
  rw [Reads, readPrimary]
  rfl

theorem float {x : Float} (h : Takes [.float x] ts ts') :
    Reads (f + 1) ts ts' (.primary (.float x)) := by
  obtain ⟨span, rfl⟩ := takes_singleton.1 h
  rw [Reads, readPrimary]
  rfl

theorem str {s : String} (h : Takes [.str s] ts ts') :
    Reads (f + 1) ts ts' (.primary (.str s)) := by
  obtain ⟨span, rfl⟩ := takes_singleton.1 h
  rw [Reads, readPrimary]
  rfl

theorem bool {b : Bool} (h : Takes [.bool b] ts ts') :
    Reads (f + 1) ts ts' (.primary (.bool b)) := by
  obtain ⟨span, rfl⟩ := takes_singleton.1 h
  rw [Reads, readPrimary]
  rfl

theorem null (h : Takes [.keyword .null] ts ts') : Reads (f + 1) ts ts' (.primary .null) := by
  obtain ⟨span, rfl⟩ := takes_singleton.1 h
  rw [Reads, readPrimary]
  rfl

/-- A name without a parenthesis behind it is a variable. -/
theorem var {name : String} (h : Takes [.name name] ts ts')
    (hopen : ts'.next? ≠ some (.symbol .leftParen)) :
    Reads (f + 1) ts ts' (.primary (.var name)) := by
  obtain ⟨span, rfl⟩ := takes_singleton.1 h
  rw [Reads, readPrimary]
  exact bind_eq_ok.2 ⟨_, _, rfl, bind_eq_ok.2 ⟨span, ts', rfl,
    bind_eq_ok.2 ⟨false, ts', accept_eq_false.2 ⟨hopen, rfl⟩, rfl⟩⟩⟩

/-- A name with a parenthesis behind it is a call. -/
theorem call {name : String} (h : Takes [.name name] ts mid)
    (hopen : Takes [.symbol .leftParen] mid mid₁)
    (hargs : Reads f mid₁ ts' (.args .rightParen es)) :
    Reads (f + 1) ts ts' (.primary (.call name es)) := by
  obtain ⟨span, rfl⟩ := takes_singleton.1 h
  rw [Reads, readPrimary]
  exact bind_eq_ok.2 ⟨_, _, rfl, bind_eq_ok.2 ⟨span, mid, rfl,
    bind_eq_ok.2 ⟨true, mid₁, accept_eq_true.2 hopen, bind_eq_ok.2 ⟨es, ts', hargs.2, rfl⟩⟩⟩⟩

theorem paren (hopen : Takes [.symbol .leftParen] ts mid) (h : Reads f mid mid₁ (.level 0 e))
    (hclose : Takes [.symbol .rightParen] mid₁ ts') : Reads (f + 1) ts ts' (.primary e) := by
  obtain ⟨span, rfl⟩ := takes_singleton.1 hopen
  rw [Reads, readPrimary]
  exact bind_eq_ok.2 ⟨_, _, rfl, bind_eq_ok.2 ⟨span, mid, rfl, bind_eq_ok.2 ⟨e, mid₁, h,
    bind_eq_ok.2 ⟨(), ts', consume_eq_ok.2 hclose, rfl⟩⟩⟩⟩

theorem list (hopen : Takes [.symbol .leftBracket] ts mid)
    (hitems : Reads f mid ts' (.args .rightBracket es)) :
    Reads (f + 1) ts ts' (.primary (.list es)) := by
  obtain ⟨span, rfl⟩ := takes_singleton.1 hopen
  rw [Reads, readPrimary]
  exact bind_eq_ok.2 ⟨_, _, rfl, bind_eq_ok.2 ⟨span, mid, rfl,
    bind_eq_ok.2 ⟨es, ts', hitems.2, rfl⟩⟩⟩

/-- A list may be closed at once. -/
theorem noArg {close : Symbol} (hcloses : close.closes = true)
    (hclose : Takes [.symbol close] ts ts') : Reads (f + 1) ts ts' (.args close []) := by
  refine ⟨hcloses, ?_⟩
  rw [readArgs]
  exact bind_eq_ok.2 ⟨true, ts, at?_eq_ok.2 ⟨by simp [hclose.next?], rfl⟩,
    bind_eq_ok.2 ⟨(), ts', consume_eq_ok.2 hclose, rfl⟩⟩

/-- Else it has an argument, and maybe others. -/
theorem args {close : Symbol} (hcloses : close.closes = true)
    (hopen : ts.next? ≠ some (.symbol close)) (h : Reads f ts mid (.level 0 e))
    (hmore : Reads f mid mid₁ (.moreArgs es)) (hclose : Takes [.symbol close] mid₁ ts') :
    Reads (f + 1) ts ts' (.args close (e :: es)) := by
  refine ⟨hcloses, ?_⟩
  rw [readArgs]
  exact bind_eq_ok.2 ⟨false, ts, at?_eq_ok.2 ⟨by simp [hopen], rfl⟩, bind_eq_ok.2 ⟨e, mid, h,
    bind_eq_ok.2 ⟨es, mid₁, hmore, bind_eq_ok.2 ⟨(), ts', consume_eq_ok.2 hclose, rfl⟩⟩⟩⟩

theorem noMoreArg (hcomma : ts.next? ≠ some (.symbol .comma)) :
    Reads (f + 1) ts ts (.moreArgs []) := by
  rw [Reads, readMoreArgs]
  exact bind_eq_ok.2 ⟨false, ts, accept_eq_false.2 ⟨hcomma, rfl⟩, rfl⟩

theorem moreArgs (hcomma : Takes [.symbol .comma] ts mid) (h : Reads f mid mid₁ (.level 0 e))
    (hmore : Reads f mid₁ ts' (.moreArgs es)) : Reads (f + 1) ts ts' (.moreArgs (e :: es)) := by
  rw [Reads, readMoreArgs]
  exact bind_eq_ok.2 ⟨true, mid, accept_eq_true.2 hcomma, bind_eq_ok.2 ⟨e, mid₁, h,
    bind_eq_ok.2 ⟨es, ts', hmore, rfl⟩⟩⟩

end Reads

/-- **With fuel for its tokens, every phrase that is spelled is read.** -/
theorem Spelled.reads (h : p.Spelled ks) (ht : Takes ks ts ts') (hends : p.Ends ts')
    (hfuel : 16 * ks.length + 1 ≤ fuel + p.slack) : p.Reads fuel ts ts' := by
  have hslack := h.slack_le
  -- The induction is on the derivation. Fuel runs down by one for each phrase, and sixteen for each
  -- token are enough.
  induction h generalizing ts ts' fuel with
  | @level n left e ks ks' hn hleft hmore ihleft ihmore =>
    obtain ⟨f, rfl⟩ := exists_fuel hslack hfuel
    obtain ⟨mid, ht, ht'⟩ := takes_append.1 ht
    have hpos := hleft.slack_le
    refine .level hn (ihleft ht (hmore.stops_of_more ht' hends) ?_ hpos)
      (ihmore ht' hends ?_ hmore.slack_le) <;>
      simp only [slack, unaryLevel, List.length_append] at hfuel hpos hn ⊢ <;> omega
  | @tightest n e ks hn h ih =>
    obtain ⟨f, rfl⟩ := exists_fuel hslack hfuel
    refine .tightest hn (ih ht (hends.mono (.inr (Nat.le_refl _))) ?_ h.slack_le)
    simp only [slack, unaryLevel] at hfuel hn ⊢
    omega
  | @noOperator n e =>
    obtain ⟨f, rfl⟩ := exists_fuel hslack hfuel
    obtain rfl := takes_nil.1 ht
    exact .noOperator hends
  | @operator n s op left right e ks ks' hs hright hmore ihright ihmore =>
    obtain ⟨f, rfl⟩ := exists_fuel hslack hfuel
    obtain ⟨hs, hop⟩ := BinaryOp.spelled_iff.1 hs
    obtain ⟨mid, htop, ht⟩ := takes_cons.1 ht
    obtain ⟨mid₁, ht, ht'⟩ := takes_append.1 ht
    refine .operator hs hop htop
      (ihright ht (hmore.stops_of_more ht' hends) ?_ hright.slack_le)
      (ihmore ht' hends ?_ hmore.slack_le) <;>
      simp only [slack, List.length_append, List.length_cons] at hfuel ⊢ <;> omega
  | @negate e ks h ih =>
    obtain ⟨f, rfl⟩ := exists_fuel hslack hfuel
    obtain ⟨mid, hminus, ht⟩ := takes_cons.1 ht
    refine .negate hminus (ih ht hends ?_ h.slack_le)
    simp only [slack, List.length_cons] at hfuel ⊢
    omega
  | @not e ks h ih =>
    obtain ⟨f, rfl⟩ := exists_fuel hslack hfuel
    obtain ⟨mid, hbang, ht⟩ := takes_cons.1 ht
    refine .not hbang (ih ht hends ?_ h.slack_le)
    simp only [slack, List.length_cons] at hfuel ⊢
    omega
  | @operand e e' ks ks' h hitems ih ihitems =>
    obtain ⟨f, rfl⟩ := exists_fuel hslack hfuel
    obtain ⟨mid, ht, ht'⟩ := takes_append.1 ht
    obtain ⟨hminus, hbang⟩ := h.next?_of_primary ht
    have hpos := h.slack_le
    refine .operand hminus hbang (ih ht (hitems.next?_of_items ht' hends) ?_ hpos)
      (ihitems ht' hends ?_ hitems.slack_le) <;>
      simp only [slack, List.length_append] at hfuel hpos ⊢ <;> omega
  | @noItem e =>
    obtain ⟨f, rfl⟩ := exists_fuel hslack hfuel
    obtain rfl := takes_nil.1 ht
    exact .noItem hends
  | @index e i e' ks ks' hi hitems ihi ihitems =>
    obtain ⟨f, rfl⟩ := exists_fuel hslack hfuel
    obtain ⟨mid, hopen, ht⟩ := takes_cons.1 ht
    obtain ⟨mid₁, ht, hclose⟩ := takes_append.1 ht
    obtain ⟨mid₂, hclose, ht'⟩ := takes_cons.1 hclose
    refine .index hopen (ihi ht (hclose.stops rfl) ?_ hi.slack_le) hclose
      (ihitems ht' hends ?_ hitems.slack_le) <;>
      simp only [slack, List.length_append, List.length_cons] at hfuel ⊢ <;> omega
  | @slice e i j e' ks ks' ks'' hi hj hitems ihi ihj ihitems =>
    obtain ⟨f, rfl⟩ := exists_fuel hslack hfuel
    obtain ⟨mid, hopen, ht⟩ := takes_cons.1 ht
    obtain ⟨mid₁, ht, hcolon⟩ := takes_append.1 ht
    obtain ⟨mid₂, hcolon, ht'⟩ := takes_cons.1 hcolon
    obtain ⟨mid₃, ht', hclose⟩ := takes_append.1 ht'
    obtain ⟨mid₄, hclose, ht''⟩ := takes_cons.1 hclose
    refine .slice hopen (ihi ht (hcolon.stops rfl) ?_ hi.slack_le) hcolon
      (ihj ht' (hclose.stops rfl) ?_ hj.slack_le) hclose
      (ihitems ht'' hends ?_ hitems.slack_le) <;>
      simp only [slack, List.length_append, List.length_cons] at hfuel ⊢ <;> omega
  | int n =>
    obtain ⟨f, rfl⟩ := exists_fuel hslack hfuel
    exact .int ht
  | float x =>
    obtain ⟨f, rfl⟩ := exists_fuel hslack hfuel
    exact .float ht
  | str s =>
    obtain ⟨f, rfl⟩ := exists_fuel hslack hfuel
    exact .str ht
  | bool b =>
    obtain ⟨f, rfl⟩ := exists_fuel hslack hfuel
    exact .bool ht
  | null =>
    obtain ⟨f, rfl⟩ := exists_fuel hslack hfuel
    exact .null ht
  | var name =>
    obtain ⟨f, rfl⟩ := exists_fuel hslack hfuel
    exact .var ht hends
  | @call name args ks hargs ih =>
    obtain ⟨f, rfl⟩ := exists_fuel hslack hfuel
    obtain ⟨mid, hname, ht⟩ := takes_cons.1 ht
    obtain ⟨mid₁, hopen, ht⟩ := takes_cons.1 ht
    refine .call hname hopen (ih ht trivial ?_ hargs.slack_le)
    simp only [slack, List.length_cons] at hfuel ⊢
    omega
  | @paren e ks h ih =>
    obtain ⟨f, rfl⟩ := exists_fuel hslack hfuel
    obtain ⟨mid, hopen, ht⟩ := takes_cons.1 ht
    obtain ⟨mid₁, ht, hclose⟩ := takes_append.1 ht
    refine .paren hopen (ih ht (hclose.stops rfl) ?_ h.slack_le) hclose
    simp only [slack, List.length_cons, List.length_append] at hfuel ⊢
    omega
  | @list items ks hitems ih =>
    obtain ⟨f, rfl⟩ := exists_fuel hslack hfuel
    obtain ⟨mid, hopen, ht⟩ := takes_cons.1 ht
    refine .list hopen (ih ht trivial ?_ hitems.slack_le)
    simp only [slack, List.length_cons] at hfuel ⊢
    omega
  | noArg hclose =>
    obtain ⟨f, rfl⟩ := exists_fuel hslack hfuel
    exact .noArg hclose ht
  | @args close e es ks ks' hclose h hmore ih ihmore =>
    obtain ⟨f, rfl⟩ := exists_fuel hslack hfuel
    obtain ⟨mid, ht, ht'⟩ := takes_append.1 ht
    obtain ⟨mid₁, ht', hend⟩ := takes_append.1 ht'
    have hstops : mid₁.Stops 0 := hend.stops (by cases close <;> first | rfl | cases hclose)
    have hcomma : mid₁.next? ≠ some (.symbol .comma) := by
      rw [hend.next?]
      rintro ⟨⟩
      cases hclose
    refine .args hclose (h.next?_ne_of_closes ht hclose)
      (ih ht (hmore.stops_of_moreArgs ht' hstops) ?_ h.slack_le)
      (ihmore ht' ⟨hstops, hcomma⟩ ?_ hmore.slack_le) hend <;>
      simp only [slack, List.length_append, List.length_cons] at hfuel ⊢ <;> omega
  | noMoreArg =>
    obtain ⟨f, rfl⟩ := exists_fuel hslack hfuel
    obtain rfl := takes_nil.1 ht
    exact .noMoreArg hends.2
  | @moreArgs e es ks ks' h hmore ih ihmore =>
    obtain ⟨f, rfl⟩ := exists_fuel hslack hfuel
    obtain ⟨mid, hcomma, ht⟩ := takes_cons.1 ht
    obtain ⟨mid₁, ht, ht'⟩ := takes_append.1 ht
    refine .moreArgs hcomma (ih ht (hmore.stops_of_moreArgs ht' hends.1) ?_ h.slack_le)
      (ihmore ht' hends ?_ hmore.slack_le) <;>
      simp only [slack, List.length_append, List.length_cons] at hfuel ⊢ <;> omega

end Phrase

end Scriptlet
