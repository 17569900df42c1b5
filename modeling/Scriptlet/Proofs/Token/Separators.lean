import Scriptlet.Proofs.Token.Strings

/-!
# Tokens are decided by their own text

A reader takes the longest token it can, and looks at up to two characters behind it to tell that it
can take no more. A blank always tells it so: no token but a string goes on over a blank, and a
string is closed by its own quote. So a token is read again from its own text, wherever that stands,
as long as a blank or the end of the text follows (`ReadsAlone`).

Hence nothing but the texts of the tokens matters: laid out anew with any gaps between them that
start with a blank, they are scanned as the same kinds.
-/

namespace Scriptlet

namespace Scan

/-! ### What a blank ends -/

/-- The text ends here, or goes on with a blank. -/
def AtBlank (rest : List Char) : Prop :=
  ∀ c ∈ rest.head?, isSpace c

/-- Some characters of a class are all that is taken where another character follows. -/
theorem takeWhile_and_dropWhile_append {f : Char → Bool} {cs rest : List Char}
    (hcs : ∀ c ∈ cs, f c) (hrest : ∀ c ∈ rest.head?, f c = false) :
    (cs ++ rest).takeWhile f = cs ∧ (cs ++ rest).dropWhile f = rest := by
  rw [List.takeWhile_append_of_pos hcs, List.dropWhile_append_of_pos hcs]
  cases rest with
  | nil => simp
  | cons c rest => simp [hrest c rfl]

/-- What holds of the four blanks holds of every blank. -/
theorem of_isSpace {P : Char → Prop} [DecidablePred P]
    (h : [' ', '\t', '\r', '\n'].all (fun c ↦ decide (P c)) = true) {c : Char} (hc : isSpace c) :
    P c :=
  forall_mem_of_all h c ((isSpace_iff c).1 hc)

/-- No symbol of two characters ends with a blank. -/
theorem paired?_of_isSpace (c : Char) {d : Char} (h : isSpace d) : paired? c d = none := by
  unfold paired?
  split <;> first | rfl | exact absurd h (by decide)

theorem isDigit_of_isSpace {c : Char} (h : isSpace c) : c.isDigit = false :=
  of_isSpace (P := fun c ↦ c.isDigit = false) (by decide) h

theorem ne_point_of_isSpace {c : Char} (h : isSpace c) : c ≠ '.' :=
  of_isSpace (P := fun c ↦ c ≠ '.') (by decide) h

theorem isNameRest_of_isSpace {c : Char} (h : isSpace c) : isNameRest c = false :=
  of_isSpace (P := fun c ↦ isNameRest c = false) (by decide) h

/-- Without a point there are no decimal places. -/
theorem places?_eq_none {rest : List Char} (h : ∀ c ∈ rest.head?, c ≠ '.') :
    places? rest = none := by
  unfold places?
  split
  · exact absurd rfl (h '.' rfl)
  · rfl

/-! ### Numbers and names -/

/-- Decimal places are digits, at least one. -/
theorem isDigit_of_places? {cs places rest : List Char} (h : places? cs = some (places, rest)) :
    places ≠ [] ∧ ∀ d ∈ places, d.isDigit := by
  unfold places? at h
  split at h
  · split at h
    · rename_i d ds hd
      cases h
      refine ⟨List.cons_ne_nil _ _, List.forall_mem_cons.2 ⟨hd, fun d hd ↦ ?_⟩⟩
      exact List.mem_takeWhile_imp hd
    · cases h
  · cases h

/-- A whole number, where neither a digit nor decimal places follow. -/
theorem number_whole {c : Char} {digits rest : List Char} (hdigits : ∀ d ∈ digits, d.isDigit)
    (hrest : ∀ d ∈ rest.head?, d.isDigit = false) (hplaces : places? rest = none) :
    number c (digits ++ rest) =
      if (Decimal.digitsValue (c :: digits) : Int) ≤ Int64.maxValue.toInt then
        .ok ⟨.int (.ofNat (Decimal.digitsValue (c :: digits))), c :: digits, rest⟩
      else .error ⟨.invalidNumber (String.ofList (c :: digits)), c :: digits⟩ := by
  obtain ⟨htake, hdrop⟩ := takeWhile_and_dropWhile_append hdigits hrest
  simp only [number, htake, hdrop, hplaces]

/-- A number with decimal places, where no digit follows. -/
theorem number_places {c : Char} {digits places rest : List Char}
    (hdigits : ∀ d ∈ digits, d.isDigit) (hne : places ≠ []) (hplaces : ∀ d ∈ places, d.isDigit)
    (hrest : ∀ d ∈ rest.head?, d.isDigit = false) :
    number c (digits ++ '.' :: (places ++ rest)) =
      .ok ⟨.float (Decimal.toFloat (Decimal.digitsValue (c :: digits ++ places))
        (-(places.length : Int))), c :: digits ++ '.' :: places, rest⟩ := by
  have hpoint : ∀ d ∈ ('.' :: (places ++ rest)).head?, d.isDigit = false := by
    rintro _ ⟨⟩
    decide
  obtain ⟨htake, hdrop⟩ := takeWhile_and_dropWhile_append hdigits hpoint
  have hread : places? ('.' :: (places ++ rest)) = some (places, rest) := by
    obtain ⟨d, ds, rfl⟩ := List.exists_cons_of_ne_nil hne
    obtain ⟨hd, hds⟩ := List.forall_mem_cons.1 hplaces
    obtain ⟨htake, hdrop⟩ := takeWhile_and_dropWhile_append hds hrest
    rw [List.cons_append, places?, if_pos hd, htake, hdrop]
  simp only [number, htake, hdrop, hread]

/-- The first character of a symbol does not start any other token. -/
theorem not_start_of_mem {c : Char} (h : c ∈ symbolStarts) :
    c ∉ quotes ∧ ¬ c.isDigit ∧ ¬ isNameStart c := by
  have hall : ∀ c ∈ symbolStarts, c ∉ quotes ∧ ¬ c.isDigit ∧ ¬ isNameStart c :=
    forall_mem_of_all (by decide)
  exact hall c h

/-- A digit starts a number. -/
theorem lexeme_digit {c : Char} (h : c.isDigit) (cs : List Char) : lexeme c cs = number c cs := by
  have hquotes : ∀ q ∈ quotes, ¬ q.isDigit := forall_mem_of_all (by decide)
  have hquote : ¬ (c = '"' || c = '\'') := by
    simpa [quotes] using fun hmem ↦ hquotes c hmem h
  rw [lexeme, symbol?_eq_none fun hmem ↦ (not_start_of_mem hmem).2.1 h]
  simp only [hquote, h, if_true, if_false, Bool.false_eq_true]

/-- A word is read as far as it goes. -/
theorem lexeme_name {c : Char} (hquote : c ∉ quotes) (hdigit : ¬ c.isDigit) (h : isNameStart c)
    (cs : List Char) :
    lexeme c cs = .ok ⟨wordKind (String.ofList (c :: cs.takeWhile isNameRest)),
      c :: cs.takeWhile isNameRest, cs.dropWhile isNameRest⟩ := by
  have hquote' : ¬ (c = '"' || c = '\'') := by simpa [quotes] using hquote
  rw [lexeme, symbol?_eq_none fun hmem ↦ (not_start_of_mem hmem).2.2 h]
  simp only [hquote', hdigit, h, if_true, if_false, Bool.false_eq_true]

/-! ### One token by itself -/

/-- A text is read as a token of this kind wherever a blank or the end of the text follows it. -/
def ReadsAlone (text : List Char) (kind : Kind) : Prop :=
  ∃ c cs, text = c :: cs ∧
    ∀ rest, AtBlank rest → Clear (c :: (cs ++ rest)) ∧
      lexeme c (cs ++ rest) = .ok ⟨kind, text, rest⟩

variable {c : Char} {cs rest text : List Char} {l : Lexeme} {kind : Kind}
  {r : Except ScanCause (List Kind)}

/-- A symbol that was read is read again in front of a blank. -/
theorem exists_symbol?_eq (h : symbol? c cs = some l) :
    ∃ text, l.text = c :: text ∧ (c = '/' → text = []) ∧
      ∀ rest, AtBlank rest → symbol? c (text ++ rest) = some ⟨l.kind, l.text, rest⟩ := by
  have hlone {s : Symbol} (hs : lone? c = some s) (rest : List Char) (hrest : AtBlank rest) :
      symbol? c rest = some ⟨.symbol s, [c], rest⟩ := by
    cases rest with
    | nil => rw [symbol?, hs, Option.map_some]
    | cons d ds => rw [symbol?, paired?_of_isSpace c (hrest d rfl), hs, Option.map_some]
  unfold symbol? at h
  split at h
  · obtain ⟨s, hs, rfl⟩ := Option.map_eq_some_iff.1 h
    exact ⟨[], rfl, fun _ ↦ rfl, hlone hs⟩
  · split at h
    · rename_i hs
      cases h
      refine ⟨[_], rfl, ?_, fun rest _ ↦ ?_⟩
      · rintro rfl
        cases hs
      · rw [List.singleton_append, symbol?, hs]
    · obtain ⟨s, hs, rfl⟩ := Option.map_eq_some_iff.1 h
      exact ⟨[], rfl, fun _ ↦ rfl, hlone hs⟩

theorem exists_number_eq (h : number c cs = .ok l) :
    ∃ text, l.text = c :: text ∧
      ∀ rest, AtBlank rest → number c (text ++ rest) = .ok ⟨l.kind, l.text, rest⟩ := by
  have hwhole : ∀ d ∈ cs.takeWhile Char.isDigit, d.isDigit := fun d hd ↦ List.mem_takeWhile_imp hd
  unfold number at h
  split at h
  · rename_i places _ hplaces
    cases h
    refine ⟨cs.takeWhile Char.isDigit ++ '.' :: places, rfl, fun rest hrest ↦ ?_⟩
    obtain ⟨hne, hdigits⟩ := isDigit_of_places? hplaces
    rw [List.append_assoc, List.cons_append]
    exact number_places hwhole hne hdigits fun d hd ↦ isDigit_of_isSpace (hrest d hd)
  · dsimp only at h
    split at h
    · rename_i hle
      cases h
      refine ⟨cs.takeWhile Char.isDigit, rfl, fun rest hrest ↦ ?_⟩
      have hplaces : places? rest = none :=
        places?_eq_none fun d hd ↦ ne_point_of_isSpace (hrest d hd)
      rw [number_whole hwhole (fun d hd ↦ isDigit_of_isSpace (hrest d hd)) hplaces, if_pos hle]
    · cases h

theorem exists_lexeme_eq (h : lexeme c cs = .ok l) :
    ∃ text, l.text = c :: text ∧ (c = '/' → text = []) ∧
      ∀ rest, AtBlank rest → lexeme c (text ++ rest) = .ok ⟨l.kind, l.text, rest⟩ := by
  -- Only a symbol starts with a slash.
  have hslash {text : List Char} (hc : c ∉ symbolStarts) : c = '/' → text = [] := by
    rintro rfl
    exact absurd (by decide) hc
  rcases lexeme_cases h with hsymbol | ⟨hquote, r, hr, rfl⟩ | ⟨hdigit, hnumber⟩ |
    ⟨hquote, hdigit, hname, rfl⟩
  · obtain ⟨text, htext, hone, hread⟩ := exists_symbol?_eq hsymbol
    refine ⟨text, htext, hone, fun rest hrest ↦ ?_⟩
    rw [lexeme, hread rest hrest]
  · obtain ⟨inside, htext, hinside⟩ := exists_literal_of_stringRest hr
    refine ⟨inside ++ [c], congrArg (c :: ·) htext,
      hslash fun hmem ↦ (not_start_of_mem hmem).1 hquote, fun rest _ ↦ ?_⟩
    rw [List.append_assoc, List.singleton_append, hinside.lexeme_eq hquote, htext]
  · obtain ⟨text, htext, hread⟩ := exists_number_eq hnumber
    refine ⟨text, htext, hslash fun hmem ↦ (not_start_of_mem hmem).2.1 hdigit, fun rest hrest ↦ ?_⟩
    rw [lexeme_digit hdigit, hread rest hrest]
  · refine ⟨cs.takeWhile isNameRest, rfl, hslash fun hmem ↦ (not_start_of_mem hmem).2.2 hname,
      fun rest hrest ↦ ?_⟩
    obtain ⟨htake, hdrop⟩ := takeWhile_and_dropWhile_append
      (fun d hd ↦ List.mem_takeWhile_imp hd : ∀ d ∈ cs.takeWhile isNameRest, isNameRest d)
      fun d hd ↦ isNameRest_of_isSpace (hrest d hd)
    rw [lexeme_name hquote hdigit hname, htake, hdrop]

/-- **A token is decided by its own text.** -/
theorem readsAlone_of_lexeme (hclear : Clear (c :: cs)) (h : lexeme c cs = .ok l) :
    ReadsAlone l.text l.kind := by
  obtain ⟨text, htext, hslash, hread⟩ := exists_lexeme_eq h
  refine ⟨c, text, htext, fun rest hrest ↦ ⟨⟨hclear.1, fun hc ↦ ?_⟩, hread rest hrest⟩⟩
  rw [hslash hc, List.nil_append]
  -- Behind a slash there is a blank, so no comment begins there.
  exact ⟨fun hhead ↦ absurd (hrest _ hhead) (by decide),
    fun hhead ↦ absurd (hrest _ hhead) (by decide)⟩

/-- A text that is a token by itself. -/
theorem ReadsAlone.of_lexeme (hc : isSpace c = false) (hslash : c ≠ '/')
    (h : lexeme c cs = .ok ⟨kind, c :: cs, []⟩) : ReadsAlone (c :: cs) kind :=
  readsAlone_of_lexeme ⟨hc, fun hc ↦ absurd hc hslash⟩ h

theorem readsAlone_symbol {s : Symbol} (hs : lone? c = some s) : ReadsAlone [c] (.symbol s) := by
  have hc : isSpace c = false := by
    refine Bool.eq_false_iff.2 fun hspace ↦ ?_
    rw [of_isSpace (P := fun c ↦ lone? c = none) (by decide) hspace] at hs
    cases hs
  have hlexeme : lexeme c [] = .ok ⟨.symbol s, [c], []⟩ := by
    rw [lexeme, symbol?, hs]
    rfl
  exact readsAlone_of_lexeme ⟨hc, fun _ ↦ ⟨by simp, by simp⟩⟩ hlexeme

/-- A token in front of a blank comes first, and the others follow. -/
theorem ReadsAlone.yields (h : ReadsAlone text kind) (hrest : AtBlank rest) (hr : Yields rest r) :
    Yields (text ++ rest) (r.map (kind :: ·)) := by
  obtain ⟨c, cs, rfl, hread⟩ := h
  obtain ⟨hclear, hlexeme⟩ := hread rest hrest
  exact .token hclear hlexeme hr

theorem Yields.blank (h : Yields rest r) : Yields (' ' :: rest) r :=
  .filler (.blank (by decide) .nil) h

/-- A token with a blank behind it. -/
theorem ReadsAlone.yields_blank (h : ReadsAlone text kind) (hr : Yields rest r) :
    Yields (text ++ ' ' :: rest) (r.map (kind :: ·)) := by
  refine h.yields ?_ hr.blank
  rintro _ ⟨⟩
  rfl

/-! ### Texts laid out anew -/

/-- Texts one after the other, each with a gap behind it that starts with a blank. -/
inductive Spaced : (texts : List (List Char)) → List Char → Prop where
  | nil : Spaced [] []
  | cons {text gap cs : List Char} {blank : Char} {texts : List (List Char)}
      (hblank : isSpace blank) (hgap : Filler false (blank :: gap)) (h : Spaced texts cs) :
      Spaced (text :: texts) (text ++ (blank :: gap ++ cs))

/-- **Only the texts of tokens matter**, not the gaps between them. -/
theorem Spaced.yields {tokens : List (List Char × Kind)} (h : Spaced (tokens.map Prod.fst) cs)
    (halone : ∀ t ∈ tokens, ReadsAlone t.1 t.2) : Yields cs (.ok (tokens.map Prod.snd)) := by
  induction tokens generalizing cs with
  | nil =>
    cases h
    exact .nil
  | cons t tokens ih =>
    rw [List.map_cons] at h
    cases h with
    | @cons _ gap cs blank _ hblank hgap h =>
    have htail := Yields.filler hgap (ih h fun t ht ↦ halone t (List.mem_cons_of_mem _ ht))
    have hrest : AtBlank (blank :: gap ++ cs) := by
      rintro _ ⟨⟩
      exact hblank
    exact (halone t List.mem_cons_self).yields hrest htail

end Scan

/-- The texts of tokens: what stands in the source where they are. -/
def Tokens.texts (ts : Tokens) (source : String) : List (List Char) :=
  ts.ahead.map fun t ↦ slice source t.span.start t.span.stop

/-- **Layout does not change tokens.** -/
theorem Tokens.exists_ofText_spaced {source : String} {ts : Tokens} (h : ofText source = .ok ts)
    {first cs : List Char} (hfirst : Scan.Filler false first)
    (hspaced : Scan.Spaced (ts.texts source) cs) :
    ∃ ts', ofText (String.ofList (first ++ cs)) = .ok ts' ∧
      ts'.ahead.map Token.kind = ts.ahead.map Token.kind := by
  let tokens := ts.ahead.map fun t ↦ (slice source t.span.start t.span.stop, t.kind)
  have halone : ∀ t ∈ tokens, Scan.ReadsAlone t.1 t.2 := by
    intro t ht
    obtain ⟨t, hmem, rfl⟩ := List.mem_map.1 ht
    obtain ⟨c, cs, l, hclear, hl, hkind, htext⟩ :=
      Scan.exists_lexeme_of_mem h rfl (List.nil_append _).symm hmem
    simp only [← htext, ← hkind]
    exact Scan.readsAlone_of_lexeme hclear hl
  have hspaced' : Scan.Spaced (tokens.map Prod.fst) cs := by
    rwa [List.map_map]
  have hyields := (hspaced'.yields halone).filler hfirst
  rw [List.map_map] at hyields
  exact hyields.exists_ofText

/-- A line comment before the first token, and block comments that nest behind it. -/
theorem Tokens.exists_ofText_spaced_comments :
    ∃ ts ts', ofText "x<='a b'" = .ok ts ∧
      ts.texts "x<='a b'" = [['x'], ['<', '='], ['\'', 'a', ' ', 'b', '\'']] ∧
      ofText "//c\nx /*/**/*/<=\n'a b'\t" = .ok ts' ∧
      ts'.ahead.map Token.kind = ts.ahead.map Token.kind := by
  have htexts : (ofText "x<='a b'").toOption.map (fun ts ↦ ts.texts "x<='a b'") =
      some [['x'], ['<', '='], ['\'', 'a', ' ', 'b', '\'']] := by
    decide +kernel
  have hbody : '\n' ∉ ['c'] := by decide
  have hfirst : Scan.Filler false ['/', '/', 'c', '\n'] := .line hbody .nil
  have hspaced : Scan.Spaced [['x'], ['<', '='], ['\'', 'a', ' ', 'b', '\'']]
      "x /*/**/*/<=\n'a b'\t".toList :=
    .cons (by decide) (.blank (by decide) (.block (.nested .nil .nil) .nil))
      (.cons (by decide) (.blank (by decide) .nil)
        (.cons (by decide) (.blank (by decide) .nil) .nil))
  have htext : String.ofList (['/', '/', 'c', '\n'] ++ "x /*/**/*/<=\n'a b'\t".toList) =
      "//c\nx /*/**/*/<=\n'a b'\t" := by
    decide
  rcases hread : ofText "x<='a b'" with e | ts
  · rw [hread] at htexts
    cases htexts
  · rw [hread] at htexts
    have htexts' := Option.some.inj htexts
    rw [← htexts'] at hspaced
    obtain ⟨ts', hread', hkinds⟩ := exists_ofText_spaced hread hfirst hspaced
    exact ⟨ts, ts', rfl, htexts', htext ▸ hread', hkinds⟩

end Scriptlet
