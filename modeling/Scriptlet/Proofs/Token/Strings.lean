import Mathlib.Data.List.TakeWhile
import Scriptlet.Proofs.Token.Kinds

/-!
# Strings are written and read back

Seven characters have an escape, and `escapes` is the table of them. `escapedAll` writes each of
these by its escape and every other character as it is; `unescape` reads such a text. Neither knows
of quotes or of the reader.

What the reader takes between two quotes is told by `Literal`: plain characters and escapes one
after the other, where a plain character is neither a line feed nor a backslash nor the quote. A
quote inside is therefore the second character of an escape. That it is can be seen from the left
end only: **an odd number of backslashes** stands before it.
-/

namespace Scriptlet

/-! ### Escapes -/

/-- The characters that have an escape, each with the character behind the backslash. -/
def escapes : List (Char × Char) :=
  [('\n', 'n'), ('\t', 't'), ('\r', 'r'), ('\x00', '0'), ('\\', '\\'), ('"', '"'), ('\'', '\'')]

/-- The quotes that may stand around a string. -/
def quotes : List Char :=
  ['"', '\'']

/-- A character as it is written in a string. -/
def escaped (c : Char) : List Char :=
  match escapes.find? (·.1 == c) with
  | some e => ['\\', e.2]
  | none => [c]

/-- Some characters as they are written in a string. -/
def escapedAll (cs : List Char) : List Char :=
  cs.flatMap escaped

/-- The characters that a text with escapes stands for, if all of its escapes are in the table. -/
def unescape : List Char → Option (List Char)
  | [] => some []
  | ['\\'] => none
  | '\\' :: letter :: cs =>
    (escapes.find? (·.2 == letter)).bind fun e ↦ (unescape cs).map (e.1 :: ·)
  | c :: cs => (unescape cs).map (c :: ·)

/-- The number of backslashes at the end. -/
def backslashes (cs : List Char) : Nat :=
  (cs.reverse.takeWhile (· == '\\')).length

/-- A string as it is written between two quotes. -/
def quoted (quote : Char) (v : String) : String :=
  String.ofList (quote :: (escapedAll v.toList ++ [quote]))

/-- What stands between two quotes is a string: it stands for that string, it is all on one line,
and each quote in it belongs to an escape. -/
structure WritesString (quote : Char) (inside : List Char) (v : String) : Prop where
  unescape_eq : unescape inside = some v.toList
  not_mem : '\n' ∉ inside
  odd_backslashes : ∀ before after, inside = before ++ quote :: after → backslashes before % 2 = 1

/-- A character that is no backslash stands for itself. -/
theorem unescape_cons {c : Char} (hc : c ≠ '\\') (cs : List Char) :
    unescape (c :: cs) = (unescape cs).map (c :: ·) := by
  rw [unescape.eq_def]
  split <;> simp_all

/-- A character in front matters only if there are but backslashes behind it. -/
theorem backslashes_cons (c : Char) (cs : List Char) :
    backslashes (c :: cs) =
      if c = '\\' ∧ backslashes cs = cs.length then cs.length + 1 else backslashes cs := by
  rw [backslashes, backslashes, List.reverse_cons, List.takeWhile_append, List.length_reverse]
  by_cases hall : (cs.reverse.takeWhile (· == '\\')).length = cs.length
  · by_cases hc : c = '\\' <;> simp [hall, hc]
  · simp [hall]

theorem backslashes_le_length (cs : List Char) : backslashes cs ≤ cs.length := by
  rw [backslashes, ← @List.length_reverse _ cs]
  exact (List.takeWhile_sublist _).length_le

/-- A character that is no backslash does not count. -/
theorem backslashes_cons_of_ne {c : Char} (hc : c ≠ '\\') (cs : List Char) :
    backslashes (c :: cs) = backslashes cs := by
  rw [backslashes_cons, if_neg fun h ↦ hc h.1]

/-- The backslash of an escape counts only together with another one behind it. -/
theorem backslashes_escape (letter : Char) (cs : List Char) :
    backslashes ('\\' :: letter :: cs) % 2 = backslashes cs % 2 := by
  have hle := backslashes_le_length cs
  rw [backslashes_cons, backslashes_cons letter, List.length_cons]
  by_cases h : letter = '\\' ∧ backslashes cs = cs.length
  · rw [if_pos h, if_pos ⟨rfl, rfl⟩, h.2]
    omega
  · rw [if_neg h, if_neg (by omega)]

namespace Scan

/-- Escapes are read by the table that they are written by. -/
theorem escape?_eq (letter : Char) :
    escape? letter = (escapes.find? (·.2 == letter)).map Prod.fst := by
  unfold escape?
  split
  case h_8 hn ht hr h0 hb hd hs =>
    simp [escapes, Ne.symm hn, Ne.symm ht, Ne.symm hr, Ne.symm h0, Ne.symm hb, Ne.symm hd,
      Ne.symm hs]
  all_goals rfl

/-! ### Between the quotes -/

/-- What stands between two quotes, and the characters that it stands for. -/
inductive Literal (quote : Char) : (inside value : List Char) → Prop where
  | nil : Literal quote [] []
  | plain {c : Char} {inside value : List Char} (hline : c ≠ '\n') (hquote : c ≠ quote)
      (hescape : c ≠ '\\') (h : Literal quote inside value) :
      Literal quote (c :: inside) (c :: value)
  | escape {letter v : Char} {inside value : List Char} (hv : escape? letter = some v)
      (h : Literal quote inside value) : Literal quote ('\\' :: letter :: inside) (v :: value)

variable {quote : Char} {inside value : List Char}

section

variable {cs : List Char} {r : StringRest}

/-- The quote ends the string. -/
theorem stringRest_quote (hline : quote ≠ '\n') (cs : List Char) :
    stringRest quote (quote :: cs) = .ok ⟨[], [quote], cs⟩ := by
  rw [stringRest.eq_def]
  simp only [if_neg hline, if_true]

/-- A plain character is a part of it. -/
theorem stringRest_plain {c : Char} (hline : c ≠ '\n') (hquote : c ≠ quote) (hescape : c ≠ '\\')
    (h : stringRest quote cs = .ok r) :
    stringRest quote (c :: cs) = .ok ⟨c :: r.value, c :: r.text, r.rest⟩ := by
  rw [stringRest.eq_def]
  simp only [if_neg hline, if_neg hquote, if_neg hescape, h]

/-- A backslash and a letter of the table are one character of it. -/
theorem stringRest_escape {letter v : Char} (hescape : '\\' ≠ quote)
    (hv : escape? letter = some v) (h : stringRest quote cs = .ok r) :
    stringRest quote ('\\' :: letter :: cs) =
      .ok ⟨v :: r.value, '\\' :: letter :: r.text, r.rest⟩ := by
  have hline : '\\' ≠ '\n' := by decide
  rw [stringRest.eq_def]
  simp only [if_neg hline, if_neg hescape, if_true, hv, h]

end

/-- **What the reader takes** up to the closing quote. -/
theorem exists_literal_of_stringRest {cs : List Char} {r : StringRest}
    (h : stringRest quote cs = .ok r) :
    ∃ inside, r.text = inside ++ [quote] ∧ Literal quote inside r.value := by
  fun_induction stringRest quote cs generalizing r with
  | case1 | case2 | case4 | case5 | case7 | case9 => cases h
  | case3 =>
    cases h
    exact ⟨[], rfl, .nil⟩
  | case6 letter cs v hv r hr hn hq ih =>
    cases h
    obtain ⟨inside, htext, hinside⟩ := ih hr
    exact ⟨_, congrArg (_ :: _ :: ·) htext, .escape hv hinside⟩
  | case8 c cs hn hq hc r hr ih =>
    cases h
    obtain ⟨inside, htext, hinside⟩ := ih hr
    exact ⟨_, congrArg (_ :: ·) htext, .plain hn hq hc hinside⟩

namespace Literal

/-- **What is between two quotes is taken**, whatever follows. -/
theorem stringRest_eq (h : Literal quote inside value) (hquote : quote ∈ quotes)
    (rest : List Char) :
    stringRest quote (inside ++ quote :: rest) = .ok ⟨value, inside ++ [quote], rest⟩ := by
  have hline : quote ≠ '\n' := by
    rintro rfl
    exact absurd hquote (by decide)
  have hescape : '\\' ≠ quote := by
    rintro rfl
    exact absurd hquote (by decide)
  induction h with
  | nil => exact stringRest_quote hline rest
  | plain hline' hquote' hescape' _ ih => exact stringRest_plain hline' hquote' hescape' ih
  | escape hv _ ih => exact stringRest_escape hescape hv ih

/-- A literal stands for its value. -/
theorem unescape_eq (h : Literal quote inside value) : unescape inside = some value := by
  induction h with
  | nil => rfl
  | plain _ _ hescape _ ih => rw [unescape_cons hescape, ih, Option.map_some]
  | escape hv _ ih =>
    rw [escape?_eq] at hv
    obtain ⟨e, he, rfl⟩ := Option.map_eq_some_iff.1 hv
    rw [unescape, he, ih]
    rfl

/-- A literal is all on one line. -/
theorem not_mem (h : Literal quote inside value) : '\n' ∉ inside := by
  induction h with
  | nil => exact List.not_mem_nil
  | plain hline _ _ _ ih => exact List.not_mem_cons_of_ne_of_not_mem (Ne.symm hline) ih
  | @escape letter v _ _ hv _ ih =>
    have hletter : '\n' ≠ letter := by
      rintro rfl
      cases hv
    exact List.not_mem_cons_of_ne_of_not_mem (by decide)
      (List.not_mem_cons_of_ne_of_not_mem hletter ih)

/-- A quote inside a literal has an odd number of backslashes before it. -/
theorem odd_backslashes (h : Literal quote inside value) (hquote : quote ≠ '\\')
    {before after : List Char} (hinside : inside = before ++ quote :: after) :
    backslashes before % 2 = 1 := by
  -- Pieces are taken off from the left; the quote is in the piece where `before` is used up.
  induction h generalizing before with
  | nil => cases before <;> cases hinside
  | @plain c inside _ _ hquote' hescape _ ih =>
    cases before with
    | nil => exact absurd (List.cons.inj hinside).1 hquote'
    | cons d before =>
      rw [List.cons_append, List.cons.injEq] at hinside
      rw [← hinside.1, backslashes_cons_of_ne hescape]
      exact ih hinside.2
  | @escape letter _ inside _ _ _ ih =>
    rcases before with - | ⟨d, - | ⟨d', before⟩⟩
    · exact absurd (List.cons.inj hinside).1 (Ne.symm hquote)
    · rw [← (List.cons.inj hinside).1]
      rfl
    · rw [List.cons_append, List.cons_append, List.cons.injEq, List.cons.injEq] at hinside
      rw [← hinside.1, backslashes_escape]
      exact ih hinside.2.2

end Literal

/-- Each character is written by its escape or, where it has none, as it is. -/
theorem literal_escaped_append {c : Char} (hquote : quote ∈ quotes)
    (h : Literal quote inside value) : Literal quote (escaped c ++ inside) (c :: value) := by
  have hread : ∀ e ∈ escapes, escape? e.2 = some e.1 := forall_mem_of_all (by decide)
  have hquotes : ∀ q ∈ quotes, q ∈ escapes.map Prod.fst := forall_mem_of_all (by decide)
  rw [escaped]
  split
  · rename_i e he
    have hc : e.1 = c := by simpa using List.find?_some he
    subst hc
    exact .escape (hread e (List.mem_of_find?_eq_some he)) h
  · rename_i hnone
    have hne {d : Char} (hd : d ∈ escapes.map Prod.fst) : c ≠ d := by
      rintro rfl
      obtain ⟨e, he, rfl⟩ := List.mem_map.1 hd
      exact List.find?_eq_none.1 hnone e he (beq_self_eq_true _)
    exact .plain (hne (by decide)) (hne (hquotes quote hquote)) (hne (by decide)) h

/-- **What is written stands for what was to be written.** -/
theorem literal_escapedAll (hquote : quote ∈ quotes) (value : List Char) :
    Literal quote (escapedAll value) value := by
  induction value with
  | nil => exact .nil
  | cons c value ih => exact literal_escaped_append hquote ih

/-! ### Tokens -/

/-- A literal between its quotes is a token. -/
theorem Literal.lexeme_eq (h : Literal quote inside value) (hquote : quote ∈ quotes)
    (rest : List Char) :
    lexeme quote (inside ++ quote :: rest) =
      .ok ⟨.str (String.ofList value), quote :: (inside ++ [quote]), rest⟩ := by
  have hstart : ∀ q ∈ quotes, q ∉ symbolStarts := forall_mem_of_all (by decide)
  have hquote' : (quote = '"' || quote = '\'') = true := by
    simpa [quotes] using hquote
  rw [lexeme, symbol?_eq_none (hstart quote hquote)]
  simp only [hquote', if_true, h.stringRest_eq hquote rest]

theorem wordKind_ne_str (word v : String) : wordKind word ≠ .str v := by
  unfold wordKind
  split
  · exact Kind.noConfusion
  split
  · exact Kind.noConfusion
  split <;> exact Kind.noConfusion

theorem kind_ne_str_of_number {c : Char} {cs : List Char} {l : Lexeme} (h : number c cs = .ok l)
    (v : String) : l.kind ≠ .str v := by
  unfold number at h
  split at h
  · cases h
    exact Kind.noConfusion
  · dsimp only at h
    split at h <;> cases h
    exact Kind.noConfusion

/-- What a token can be: a symbol, a string, a number, or a word. -/
theorem lexeme_cases {c : Char} {cs : List Char} {l : Lexeme} (h : lexeme c cs = .ok l) :
    symbol? c cs = some l ∨
    (c ∈ quotes ∧ ∃ r, stringRest c cs = .ok r ∧
      l = ⟨.str (String.ofList r.value), c :: r.text, r.rest⟩) ∨
    (c.isDigit ∧ number c cs = .ok l) ∨
    (c ∉ quotes ∧ ¬ c.isDigit ∧ isNameStart c ∧
      l = ⟨wordKind (String.ofList (c :: cs.takeWhile isNameRest)), c :: cs.takeWhile isNameRest,
        cs.dropWhile isNameRest⟩) := by
  -- In the order in which a reader looks: symbols, strings, numbers, names.
  unfold lexeme at h
  split at h
  · rename_i hsymbol
    cases h
    exact .inl hsymbol
  split at h
  · rename_i hquote
    split at h
    · rename_i r hr
      cases h
      exact .inr (.inl ⟨by simpa [quotes] using hquote, r, hr, rfl⟩)
    · cases h
  rename_i hquote
  split at h
  · rename_i hdigit
    exact .inr (.inr (.inl ⟨hdigit, h⟩))
  rename_i hdigit
  split at h
  · rename_i hname
    cases h
    exact .inr (.inr (.inr ⟨by simpa [quotes] using hquote, hdigit, hname, rfl⟩))
  · cases h

/-- **A token that is a string** is a literal between two quotes. -/
theorem exists_literal_of_lexeme {c : Char} {cs : List Char} {l : Lexeme} {v : String}
    (h : lexeme c cs = .ok l) (hv : l.kind = .str v) :
    c ∈ quotes ∧ ∃ inside, l.text = c :: (inside ++ [c]) ∧ Literal c inside v.toList := by
  rcases lexeme_cases h with hsymbol | ⟨hquote, r, hr, rfl⟩ | ⟨-, hnumber⟩ | ⟨-, -, -, rfl⟩
  · obtain ⟨s, hs⟩ := exists_kind_of_symbol? hsymbol
    cases hs.symm.trans hv
  · cases hv
    obtain ⟨inside, htext, hinside⟩ := exists_literal_of_stringRest hr
    rw [String.toList_ofList]
    exact ⟨hquote, inside, congrArg (c :: ·) htext, hinside⟩
  · exact absurd hv (kind_ne_str_of_number hnumber v)
  · exact absurd hv (wordKind_ne_str _ v)

/-- What was read as a literal is written as a string has to be. -/
theorem Literal.writesString {v : String} (h : Literal quote inside v.toList)
    (hquote : quote ∈ quotes) : WritesString quote inside v := by
  refine ⟨h.unescape_eq, h.not_mem, fun before after ↦ h.odd_backslashes ?_⟩
  rintro rfl
  exact absurd hquote (by decide)

end Scan

/-- The position behind characters that are all on the first line. -/
theorem Position.after_start_of_not_mem {cs : List Char} (h : '\n' ∉ cs) :
    start.after cs = ⟨String.utf8Len cs, 1, 1 + cs.length⟩ := by
  have hline : lastLine cs = cs := by
    have hall : ∀ c ∈ cs.reverse, decide (c ≠ '\n') = true := by
      intro c hc
      refine decide_eq_true ?_
      rintro rfl
      exact h (List.mem_reverse.1 hc)
    rw [lastLine, List.takeWhile_eq_self_iff.2 hall, List.reverse_reverse]
  rw [after_start, hline, List.count_eq_zero.2 h]

theorem Scan.Literal.not_mem_quoted {quote : Char} {inside value : List Char}
    (h : Literal quote inside value) (hquote : quote ∈ quotes) :
    '\n' ∉ quote :: (inside ++ [quote]) := by
  have hne : '\n' ≠ quote := by
    rintro rfl
    exact absurd hquote (by decide)
  simp [hne, h.not_mem]

/-- **A string that is written is read back**, as one token that spans the whole text. -/
theorem Tokens.ofText_quoted {quote : Char} (hquote : quote ∈ quotes) (v : String) :
    ofText (quoted quote v) =
      .ok ⟨[⟨.str v, ⟨0, (quoted quote v).utf8ByteSize, 1, 1⟩⟩],
        ⟨(quoted quote v).utf8ByteSize, (quoted quote v).utf8ByteSize, 1,
          1 + (quoted quote v).toList.length⟩⟩ := by
  have hliteral := Scan.literal_escapedAll hquote v.toList
  have hclear : ∀ q ∈ quotes, Scan.isSpace q = false ∧ q ≠ '/' :=
    Scan.forall_mem_of_all (by decide)
  have hafter := Position.after_start_of_not_mem (hliteral.not_mem_quoted hquote)
  have hlexeme := hliteral.lexeme_eq hquote []
  rw [ofText, quoted, String.toList_ofList, String.utf8ByteSize_ofList, Scan.tokensFrom_clear,
    Scan.tokensAt_of_lexeme hlexeme, Scan.tokensFrom_nil, hafter, String.ofList_toList]
  · rfl
  · exact ⟨(hclear quote hquote).1, fun h ↦ absurd h (hclear quote hquote).2⟩

/-- **Every string can be written and is read back.** Between either quote, with its escapes, a
string is the one token of its text. The other way around, a token that is a string, in any text, is
two quotes with characters between them that stand for the string, all on one line, and where each
quote of the same kind is escaped. -/
theorem Tokens.ofText_quoted_and_writesString :
    (∀ quote ∈ quotes, ∀ v : String,
      ofText (quoted quote v) =
        .ok ⟨[⟨.str v, ⟨0, (quoted quote v).utf8ByteSize, 1, 1⟩⟩],
          ⟨(quoted quote v).utf8ByteSize, (quoted quote v).utf8ByteSize, 1,
            1 + (quoted quote v).toList.length⟩⟩) ∧
    (∀ source ts, ofText source = .ok ts → ∀ t ∈ ts.ahead, ∀ v, t.kind = .str v →
      ∃ quote ∈ quotes, ∃ inside,
        slice source t.span.start t.span.stop = quote :: (inside ++ [quote]) ∧
          WritesString quote inside v) ∧
    ∀ c cs l, Scan.lexeme c cs = .ok l → ∀ v, l.kind = .str v →
      ∃ quote ∈ quotes, ∃ inside,
        l.text = quote :: (inside ++ [quote]) ∧ WritesString quote inside v := by
  have hlexeme : ∀ c cs l, Scan.lexeme c cs = .ok l → ∀ v, l.kind = .str v →
      ∃ quote ∈ quotes, ∃ inside,
        l.text = quote :: (inside ++ [quote]) ∧ WritesString quote inside v := by
    intro c cs l hl v hv
    obtain ⟨hquote, inside, htext, hinside⟩ := Scan.exists_literal_of_lexeme hl hv
    exact ⟨c, hquote, inside, htext, hinside.writesString hquote⟩
  refine ⟨fun quote hquote v ↦ ofText_quoted hquote v, fun source ts hts t ht v hv ↦ ?_, hlexeme⟩
  obtain ⟨c, cs, l, -, hl, hkind, htext⟩ :=
    Scan.exists_lexeme_of_mem hts rfl (List.nil_append _).symm ht
  rw [← htext]
  exact hlexeme c cs l hl v (hkind.trans hv)

/-- The seven characters that have an escape, and a letter of two bytes. -/
def allEscapes : String :=
  "\n\t\r\x00\\\"'é"

/-- All escapes together, and a character that needs none. -/
theorem Tokens.ofText_quoted_and_writesString_allEscapes :
    quoted '"' allEscapes = "\"\\n\\t\\r\\0\\\\\\\"\\'é\"" ∧
    ofText (quoted '"' allEscapes) =
      .ok ⟨[⟨.str allEscapes, ⟨0, 18, 1, 1⟩⟩], ⟨18, 18, 1, 18⟩⟩ ∧
    ∃ quote ∈ quotes, ∃ inside,
      slice (quoted '"' allEscapes) 0 18 = quote :: (inside ++ [quote]) ∧
        WritesString quote inside allEscapes := by
  have hquote : '"' ∈ quotes := by decide
  have hread := ofText_quoted_and_writesString.1 '"' hquote allEscapes
  have hsize : (quoted '"' allEscapes).utf8ByteSize = 18 := by decide
  have hlength : (quoted '"' allEscapes).toList.length = 17 := by decide
  rw [hsize, hlength] at hread
  refine ⟨by decide, hread, ?_⟩
  exact ofText_quoted_and_writesString.2.1 _ _ hread _ (List.mem_singleton_self _) _ rfl

end Scriptlet
