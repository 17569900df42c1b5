import Scriptlet.Proofs.Token.Spans

/-!
# The kinds of a text

Which tokens a text has, and where its fault lies, depends on the position at which it starts only
through spans. `Yields` leaves the spans out: it says which kinds a text is scanned as, or why it is
refused, from wherever it starts. The rules follow the reader: a gap adds nothing, a token adds its
kind to what the rest yields, and a fault ends it.
-/

namespace Scriptlet.Scan

/-! ### Where a token starts -/

/-- No gap begins here. -/
def Clear : List Char → Prop
  | [] => True
  | c :: cs => isSpace c = false ∧ (c = '/' → cs.head? ≠ some '/' ∧ cs.head? ≠ some '*')

/-- Where no gap begins nothing is passed over. -/
theorem skip_clear {cs : List Char} (h : Clear cs) (p : Position) :
    skip .open_ cs p = .ok (cs, p) := by
  cases cs with
  | nil => rfl
  | cons c cs =>
    obtain ⟨hspace, hslash⟩ := h
    rw [skip.eq_def]
    simp only [hspace, Bool.false_eq_true, if_false]
    split
    · rename_i hc
      obtain ⟨hline, hblock⟩ := hslash hc
      split
      · exact absurd rfl hline
      · exact absurd rfl hblock
      · rfl
    · rfl

/-- A gap is passed over to its end: no other follows it. -/
theorem clear_of_skip {gap : Gap} {cs rest : List Char} {p q : Position}
    (h : skip gap cs p = .ok (rest, q)) : Clear rest := by
  fun_induction skip gap cs p with
  | case1 | case7 =>
    cases h
    trivial
  | case5 p cs hline hblock hspace =>
    cases h
    refine ⟨rfl, fun _ ↦ ⟨fun hd ↦ ?_, fun hd ↦ ?_⟩⟩
    · obtain ⟨ds, hds⟩ := List.head?_eq_some_iff.1 hd
      exact hline ds hds
    · obtain ⟨ds, hds⟩ := List.head?_eq_some_iff.1 hd
      exact hblock ds hds
  | case6 c cs p hspace hslash =>
    cases h
    exact ⟨Bool.eq_false_iff.2 hspace, fun hc ↦ absurd hc hslash⟩
  | case9 => cases h
  | case2 | case3 | case4 | case8 | case10 | case11 | case12 | case13 | case14 =>
    rename_i ih
    exact ih h

/-! ### Symbols -/

/-- A test of all members of a list. A table of characters is checked by it: to decide a statement
about all its members as such may mean to go through all characters there are. -/
theorem forall_mem_of_all {α : Type} {P : α → Prop} [DecidablePred P] {xs : List α}
    (h : xs.all (fun x ↦ decide (P x)) = true) : ∀ x ∈ xs, P x :=
  fun x hx ↦ of_decide_eq_true (List.all_eq_true.1 h x hx)

theorem exists_kind_of_symbol? {c : Char} {cs : List Char} {l : Lexeme}
    (h : symbol? c cs = some l) : ∃ s, l.kind = .symbol s := by
  unfold symbol? at h
  split at h
  · obtain ⟨s, -, rfl⟩ := Option.map_eq_some_iff.1 h
    exact ⟨s, rfl⟩
  · split at h
    · cases h
      exact ⟨_, rfl⟩
    · obtain ⟨s, -, rfl⟩ := Option.map_eq_some_iff.1 h
      exact ⟨s, rfl⟩

/-- The characters that a symbol starts with. -/
def symbolStarts : List Char :=
  ['(', ')', '{', '}', '[', ']', ',', ':', ';', '+', '-', '*', '/', '=', '!', '<', '>', '&', '|']

/-- Other characters start no symbol. -/
theorem symbol?_eq_none {c : Char} (h : c ∉ symbolStarts) (cs : List Char) :
    symbol? c cs = none := by
  have hlone : lone? c = none := by
    unfold lone?
    split <;> first | rfl | exact absurd (by decide) h
  have hpaired (d : Char) : paired? c d = none := by
    unfold paired?
    split <;> first | rfl | exact absurd (by decide) h
  cases cs with
  | nil => rw [symbol?, hlone, Option.map_none]
  | cons d ds => rw [symbol?, hpaired d, hlone, Option.map_none]

/-! ### One token after another -/

/-- The tokens from a place on where no gap begins. -/
def tokensAt : List Char × Position → Except ScanError Tokens
  | ([], q) => .ok ⟨[], .between q q⟩
  | (c :: cs, q) =>
    match lexeme c cs with
    | .error f => .error ⟨f.cause, .between q (q.after f.text)⟩
    | .ok l =>
      (tokensFrom l.rest (q.after l.text)).map fun ts ↦
        { ts with ahead := ⟨l.kind, .between q (q.after l.text)⟩ :: ts.ahead }

/-- First the gap, then the token. -/
theorem tokensFrom_eq_bind (cs : List Char) (p : Position) :
    tokensFrom cs p = (skip .open_ cs p).bind tokensAt := by
  rw [tokensFrom]
  split
  · rename_i hskip
    rw [hskip]
    rfl
  · rename_i hskip
    rw [hskip]
    rfl
  · rename_i c rest q hskip
    have hbind : (skip .open_ cs p).bind tokensAt = tokensAt (c :: rest, q) := by
      rw [hskip]
      rfl
    rw [hbind, tokensAt]
    split
    · rename_i hf
      simp only [hf]
    · rename_i l hl
      simp only [hl]
      rcases tokensFrom l.rest (q.after l.text) with e | ts <;> rfl

/-- Where no gap begins a token does, or the text ends. -/
theorem tokensFrom_clear {cs : List Char} (h : Clear cs) (p : Position) :
    tokensFrom cs p = tokensAt (cs, p) := by
  rw [tokensFrom_eq_bind, skip_clear h]
  rfl

theorem tokensFrom_nil (p : Position) : tokensFrom [] p = .ok ⟨[], .between p p⟩ := by
  rw [tokensFrom_eq_bind]
  rfl

/-- A token that is read comes first, with its span. -/
theorem tokensAt_of_lexeme {c : Char} {cs : List Char} {l : Lexeme} (h : lexeme c cs = .ok l)
    (q : Position) :
    tokensAt (c :: cs, q) = (tokensFrom l.rest (q.after l.text)).map fun ts ↦
      { ts with ahead := ⟨l.kind, .between q (q.after l.text)⟩ :: ts.ahead } := by
  rw [tokensAt, h]

/-- A token that is refused ends the scan, with its span. -/
theorem tokensAt_of_refusal {c : Char} {cs : List Char} {f : Refusal} (h : lexeme c cs = .error f)
    (q : Position) :
    tokensAt (c :: cs, q) = .error ⟨f.cause, .between q (q.after f.text)⟩ := by
  rw [tokensAt, h]

/-- **Each token is read by itself**, from where no gap begins, and its span is that of the
characters taken. -/
theorem exists_lexeme_of_mem {source : String} {before cs : List Char} {p : Position} {ts : Tokens}
    (h : tokensFrom cs p = .ok ts) (hp : p = Position.start.after before)
    (hsource : source.toList = before ++ cs) {t : Token} (ht : t ∈ ts.ahead) :
    ∃ c cs l, Clear (c :: cs) ∧ lexeme c cs = .ok l ∧ l.kind = t.kind ∧
      l.text = slice source t.span.start t.span.stop := by
  fun_induction tokensFrom cs p generalizing before ts with
  | case1 | case3 | case4 => cases h
  | case2 =>
    cases h
    cases ht
  | case5 cs p c rest q hskip l hlexeme _ stop ts hts =>
    rename_i ih
    cases h
    obtain ⟨gap, rfl, rfl, -⟩ := exists_passes_of_skip hskip
    have hsplit : source.toList = before ++ gap ++ l.text ++ l.rest := by
      rw [hsource, (eq_append_of_lexeme hlexeme).1]
      simp only [List.append_assoc]
    have hq : p.after gap = Position.start.after (before ++ gap) := by
      rw [hp, ← Position.after_append]
    -- The token is the one just read, or one behind it.
    rcases List.mem_cons.1 ht with rfl | ht
    · exact ⟨c, rest, l, clear_of_skip hskip, hlexeme, rfl, (slice_after hq hsplit).symm⟩
    · have hstop : stop = Position.start.after (before ++ gap ++ l.text) := by
        rw [Position.after_append, ← hq]
      exact ih hts hstop hsplit ht

/-! ### What a text yields -/

/-- The kinds of tokens, or the cause of a fault. -/
def kindsOf (r : Except ScanError Tokens) : Except ScanCause (List Kind) :=
  (r.map fun ts ↦ ts.ahead.map Token.kind).mapError ScanError.cause

/-- A text is scanned as these kinds, or refused for this cause. -/
def Yields (cs : List Char) (r : Except ScanCause (List Kind)) : Prop :=
  ∀ p, kindsOf (tokensFrom cs p) = r

namespace Yields

variable {c : Char} {cs : List Char} {r : Except ScanCause (List Kind)} {ks : List Kind}

theorem nil : Yields [] (.ok []) := by
  intro p
  rw [tokensFrom_nil]
  rfl

/-- A gap in front makes no difference. -/
theorem filler {gap : List Char} (hgap : Filler false gap) (h : Yields cs r) :
    Yields (gap ++ cs) r := by
  intro p
  rw [tokensFrom_eq_bind, skip_filler hgap, ← tokensFrom_eq_bind]
  exact h _

/-- A token adds its kind to what the rest yields. -/
theorem token {l : Lexeme} (hclear : Clear (c :: cs)) (hl : lexeme c cs = .ok l)
    (h : Yields l.rest r) : Yields (c :: cs) (r.map (l.kind :: ·)) := by
  intro p
  rw [tokensFrom_clear hclear, tokensAt_of_lexeme hl, ← h (p.after l.text)]
  rcases tokensFrom l.rest (p.after l.text) with e | ts <;> rfl

/-- What is refused is so with all that follows it. -/
theorem refused {f : Refusal} (hclear : Clear (c :: cs)) (hf : lexeme c cs = .error f) :
    Yields (c :: cs) (.error f.cause) := by
  intro p
  rw [tokensFrom_clear hclear, tokensAt_of_refusal hf]
  rfl

/-- A text that is scanned as some kinds has tokens of these kinds. -/
theorem exists_ofText (h : Yields cs (.ok ks)) :
    ∃ ts, Tokens.ofText (String.ofList cs) = .ok ts ∧ ts.ahead.map Token.kind = ks := by
  have hstart := h .start
  rw [Tokens.ofText, String.toList_ofList]
  generalize tokensFrom cs .start = result at hstart
  rcases result with e | ts
  · cases hstart
  · cases hstart
    exact ⟨ts, rfl, rfl⟩

/-- A text that is refused has no tokens. -/
theorem exists_ofText_eq_error {cause : ScanCause} (h : Yields cs (.error cause)) :
    ∃ e, Tokens.ofText (String.ofList cs) = .error e ∧ e.cause = cause := by
  have hstart := h .start
  rw [Tokens.ofText, String.toList_ofList]
  generalize tokensFrom cs .start = result at hstart
  rcases result with e | ts
  · cases hstart
    exact ⟨e, rfl, rfl⟩
  · cases hstart

end Yields

end Scriptlet.Scan
