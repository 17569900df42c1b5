import Mathlib.Data.List.Induction
import Mathlib.Data.String.Basic
import Scriptlet.Proofs.Token.Gaps

/-!
# Spans are exact

A position is the count of what stands before it: its bytes, its line feeds, and the characters
since the last of these (`Position.after_start`). The reader never counts anything else, so what has
to be shown is that its tokens, with the gaps between them, **are** the text: `Layout` says so, and
every other fact about spans is read off a layout.
-/

namespace Scriptlet

/-! ### Positions count -/

/-- The characters behind the last line feed. -/
def lastLine (cs : List Char) : List Char :=
  (cs.reverse.takeWhile (· ≠ '\n')).reverse

/-- A line feed starts a new line; any other character makes the last one longer. -/
theorem length_lastLine_concat (cs : List Char) (c : Char) :
    (lastLine (cs ++ [c])).length = if c = '\n' then 0 else (lastLine cs).length + 1 := by
  by_cases hc : c = '\n' <;> simp [lastLine, hc]

/-- **What a position counts**: the bytes before it, the line feeds, and the characters since the
last one. Lines and columns count from one. -/
theorem Position.after_start (cs : List Char) :
    start.after cs = ⟨String.utf8Len cs, 1 + cs.count '\n', 1 + (lastLine cs).length⟩ := by
  induction cs using List.reverseRecOn with
  | nil => rfl
  | append_singleton cs c ih =>
    rw [after_append, ih, length_lastLine_concat, String.utf8Len_append, List.count_append]
    by_cases hc : c = '\n'
    · subst hc
      rfl
    · simp [after, next, hc, Nat.add_comm]

/-- The offset counts bytes. -/
theorem Position.offset_after (p : Position) (cs : List Char) :
    (p.after cs).offset = p.offset + String.utf8Len cs := by
  induction cs generalizing p with
  | nil => rfl
  | cons c cs ih =>
    rw [after_cons, ih, String.utf8Len_cons, next]
    split <;> exact (Nat.add_assoc _ _ _).trans (congrArg _ (Nat.add_comm _ _))

theorem Position.offset_le_after (p : Position) (cs : List Char) :
    p.offset ≤ (p.after cs).offset := by
  rw [offset_after]
  exact Nat.le_add_right _ _

/-- A character takes at least one byte. -/
theorem utf8Len_pos {cs : List Char} (h : cs ≠ []) : 0 < String.utf8Len cs := by
  obtain ⟨c, cs, rfl⟩ := List.exists_cons_of_ne_nil h
  rw [String.utf8Len_cons]
  exact Nat.add_pos_right _ c.utf8Size_pos

namespace Scan

/-! ### One token -/

/-- A symbol and what is left are the text. -/
theorem eq_append_of_symbol? {c : Char} {cs : List Char} {l : Lexeme}
    (h : symbol? c cs = some l) : c :: cs = l.text ++ l.rest ∧ l.text ≠ [] := by
  unfold symbol? at h
  split at h
  · obtain ⟨s, -, rfl⟩ := Option.map_eq_some_iff.1 h
    exact ⟨rfl, List.cons_ne_nil _ _⟩
  · split at h
    · cases h
      exact ⟨rfl, List.cons_ne_nil _ _⟩
    · obtain ⟨s, -, rfl⟩ := Option.map_eq_some_iff.1 h
      exact ⟨rfl, List.cons_ne_nil _ _⟩

/-- So are the rest of a string and what is left. -/
theorem eq_append_of_stringRest {quote : Char} {cs : List Char} {r : StringRest}
    (h : stringRest quote cs = .ok r) : cs = r.text ++ r.rest := by
  fun_induction stringRest quote cs generalizing r with
  | case1 | case2 | case4 | case5 | case7 | case9 => cases h
  | case3 =>
    cases h
    rfl
  | case6 e ds v hv r hr hn hq ih =>
    cases h
    exact congrArg (_ :: _ :: ·) (ih hr)
  | case8 c cs hn hq hc r hr ih =>
    cases h
    exact congrArg (_ :: ·) (ih hr)

/-- What is complained of in a string stands at the start of the text. -/
theorem prefix_of_stringRest {quote : Char} {cs : List Char} {f : Refusal}
    (h : stringRest quote cs = .error f) : f.text <+: cs := by
  fun_induction stringRest quote cs generalizing f with
  | case1 | case2 =>
    cases h
    exact List.nil_prefix
  | case3 | case6 | case8 => cases h
  | case4 | case5 =>
    cases h
    exact List.prefix_append [_] _
  | case7 e ds v hv f hf hn hq ih =>
    cases h
    exact List.cons_prefix_cons.2 ⟨rfl, List.cons_prefix_cons.2 ⟨rfl, ih hf⟩⟩
  | case9 c cs hn hq hc f hf ih =>
    cases h
    exact List.cons_prefix_cons.2 ⟨rfl, ih hf⟩

theorem eq_append_of_places? {cs places rest : List Char}
    (h : places? cs = some (places, rest)) : cs = '.' :: places ++ rest := by
  unfold places? at h
  split at h
  · split at h
    · cases h
      simp
    · cases h
  · cases h

/-- A number is the characters that it is made of, whether it fits or not. -/
theorem eq_append_of_number {c : Char} {cs : List Char} {l : Lexeme}
    (h : number c cs = .ok l) : c :: cs = l.text ++ l.rest ∧ l.text ≠ [] := by
  have hwhole : c :: cs = c :: cs.takeWhile Char.isDigit ++ cs.dropWhile Char.isDigit := by
    rw [List.cons_append, List.takeWhile_append_dropWhile]
  unfold number at h
  split at h
  · next places rest hplaces =>
    cases h
    refine ⟨?_, List.cons_ne_nil _ _⟩
    rw [hwhole, eq_append_of_places? hplaces, ← List.append_assoc]
  · dsimp only at h
    split at h
    · cases h
      exact ⟨hwhole, List.cons_ne_nil _ _⟩
    · cases h

/-- So does what is complained of in a number. -/
theorem prefix_of_number {c : Char} {cs : List Char} {f : Refusal}
    (h : number c cs = .error f) : f.text <+: c :: cs := by
  unfold number at h
  split at h
  · cases h
  · dsimp only at h
    split at h <;> cases h
    exact List.cons_prefix_cons.2 ⟨rfl, List.takeWhile_prefix _⟩

/-- **A token is characters at the head of the text**, at least one; what is left is the rest. -/
theorem eq_append_of_lexeme {c : Char} {cs : List Char} {l : Lexeme}
    (h : lexeme c cs = .ok l) : c :: cs = l.text ++ l.rest ∧ l.text ≠ [] := by
  unfold lexeme at h
  split at h
  · next hsymbol =>
    cases h
    exact eq_append_of_symbol? hsymbol
  split at h
  · split at h
    · next hr =>
      cases h
      exact ⟨congrArg (c :: ·) (eq_append_of_stringRest hr), List.cons_ne_nil _ _⟩
    · cases h
  split at h
  · exact eq_append_of_number h
  split at h
  · cases h
    refine ⟨?_, List.cons_ne_nil _ _⟩
    rw [List.cons_append, List.takeWhile_append_dropWhile]
  · cases h

/-- A fault is seen at the head of the text too. -/
theorem prefix_of_lexeme {c : Char} {cs : List Char} {f : Refusal}
    (h : lexeme c cs = .error f) : f.text <+: c :: cs := by
  unfold lexeme at h
  split at h
  · cases h
  split at h
  · split at h
    · cases h
    · next hr =>
      cases h
      exact List.cons_prefix_cons.2 ⟨rfl, prefix_of_stringRest hr⟩
  split at h
  · exact prefix_of_number h
  split at h
  · cases h
  · cases h
    exact List.prefix_append [c] cs

/-! ### All tokens -/

/-- A text from a position on is these tokens with gaps between them, and a gap at its end. -/
inductive Layout : Position → List Char → List Token → Span → Prop where
  | stop {p : Position} {gap : List Char} (hgap : Filler true gap) :
      Layout p gap [] (.between (p.after gap) (p.after gap))
  | token {p : Position} {gap text rest : List Char} {kind : Kind} {ts : List Token} {stop : Span}
      (hgap : Filler false gap) (htext : text ≠ [])
      (h : Layout (p.after (gap ++ text)) rest ts stop) :
      Layout p (gap ++ text ++ rest)
        (⟨kind, .between (p.after gap) (p.after (gap ++ text))⟩ :: ts) stop

/-- **Tokens and gaps are the text.** -/
theorem layout_of_tokensFrom {cs : List Char} {p : Position} {ts : Tokens}
    (h : tokensFrom cs p = .ok ts) : Layout p cs ts.ahead ts.stop := by
  fun_induction tokensFrom cs p generalizing ts with
  | case1 => cases h
  | case2 cs p q hskip =>
    cases h
    obtain ⟨gap, rfl, rfl, hgap⟩ := exists_passes_of_skip hskip
    rw [List.append_nil]
    exact .stop hgap
  | case3 => cases h
  | case4 => cases h
  | case5 cs p c rest q hskip l hlexeme _ stop ts hts =>
    rename_i ih
    cases h
    obtain ⟨gap, rfl, rfl, hgap⟩ := exists_passes_of_skip hskip
    obtain ⟨htext, hne⟩ := eq_append_of_lexeme hlexeme
    have hlayout := ih hts
    -- The reader moves on from the gap and then from the token; a layout does both at once.
    have hstop : stop = p.after (gap ++ l.text) := (p.after_append gap l.text).symm
    rw [hstop] at hlayout ⊢
    rw [htext, ← List.append_assoc]
    exact .token hgap hne hlayout

/-- **The fault in a text** spans characters of the text. -/
theorem exists_of_tokensFrom_eq_error {cs : List Char} {p : Position} {e : ScanError}
    (h : tokensFrom cs p = .error e) :
    ∃ before text rest, cs = before ++ text ++ rest ∧
      e.span = .between (p.after before) (p.after (before ++ text)) := by
  fun_induction tokensFrom cs p with
  | case1 cs p e' hskip =>
    cases h
    obtain ⟨opened, hspan, ⟨depth, hgap⟩ | ⟨before, text, rfl, rfl⟩⟩ := faultsIn_of_skip hskip
    · cases hgap
    · exact ⟨before, text, [], (List.append_nil _).symm, hspan⟩
  | case2 => cases h
  | case3 cs p c rest q hskip f hlexeme =>
    cases h
    obtain ⟨gap, rfl, rfl, -⟩ := exists_passes_of_skip hskip
    obtain ⟨rest', hrest⟩ := prefix_of_lexeme hlexeme
    refine ⟨gap, f.text, rest', ?_, ?_⟩
    · rw [List.append_assoc, hrest]
    · rw [p.after_append]
  | case4 cs p c rest q hskip l hlexeme _ stop e' htail ih =>
    cases h
    obtain ⟨gap, rfl, rfl, -⟩ := exists_passes_of_skip hskip
    obtain ⟨before, text, rest', hrest, hspan⟩ := ih htail
    refine ⟨gap ++ l.text ++ before, text, rest', ?_, ?_⟩
    · rw [(eq_append_of_lexeme hlexeme).1, hrest]
      simp only [List.append_assoc]
    · rw [hspan]
      simp only [stop, Position.after_append]
  | case5 => cases h

end Scan

/-! ### Spans of a text -/

/-- The characters between two bytes of a text. -/
def slice (source : String) (start stop : Nat) : List Char :=
  (String.Pos.Raw.extract source ⟨start⟩ ⟨stop⟩).toList

/-- A span lies in a text, between two characters at both ends, and its line and column are those of
its first character. -/
structure Span.Exact (source : String) (s : Span) : Prop where
  start_le_stop : s.start ≤ s.stop
  stop_le_size : s.stop ≤ source.utf8ByteSize
  isValid_start : String.Pos.Raw.IsValid source ⟨s.start⟩
  isValid_stop : String.Pos.Raw.IsValid source ⟨s.stop⟩
  line_eq : s.line = 1 + (slice source 0 s.start).count '\n'
  column_eq : s.column = 1 + (lastLine (slice source 0 s.start)).length

/-- The characters between two offsets are the text that stands there. -/
theorem slice_eq {source : String} {before text rest : List Char}
    (h : source.toList = before ++ text ++ rest) :
    slice source (String.utf8Len before) (String.utf8Len before + String.utf8Len text) = text := by
  have hsource : source = String.ofList (before ++ text ++ rest) := by
    rw [← h, String.ofList_toList]
  rw [slice, hsource, String.extract_of_valid, String.toList_ofList]

/-- The characters between two positions of a text. -/
theorem slice_after {source : String} {p : Position} {before text rest : List Char}
    (hp : p = .after .start before) (h : source.toList = before ++ text ++ rest) :
    slice source p.offset (p.after text).offset = text := by
  rw [Position.offset_after, hp, Position.after_start]
  exact slice_eq h

/-- Behind some of its characters a text can be cut. -/
theorem isValid_utf8Len {source : String} {before rest : List Char}
    (h : source.toList = before ++ rest) :
    String.Pos.Raw.IsValid source ⟨String.utf8Len before⟩ := by
  refine String.Pos.Raw.isValid_iff_exists_append.2 ⟨.ofList before, .ofList rest, ?_, ?_⟩
  · rw [← String.ofList_append, ← h, String.ofList_toList]
  · rw [String.rawEndPos, String.utf8ByteSize_ofList]

theorem utf8ByteSize_eq {source : String} {cs : List Char} (h : source.toList = cs) :
    source.utf8ByteSize = String.utf8Len cs := by
  rw [← h, ← String.utf8ByteSize_ofList, String.ofList_toList]

/-- The span from behind one part of a text to behind the next one is exact. -/
theorem Span.exact_between {source : String} {before text rest : List Char}
    (h : source.toList = before ++ text ++ rest) :
    Span.Exact source
      (.between (Position.start.after before) (Position.start.after (before ++ text))) := by
  have hsplit : source.toList = [] ++ before ++ (text ++ rest) := by
    rw [h, List.nil_append, List.append_assoc]
  have hslice : slice source 0 (String.utf8Len before) = before := by
    simpa using slice_eq hsplit
  rw [Position.after_start, Position.after_start]
  refine ⟨?_, ?_, isValid_utf8Len hsplit, isValid_utf8Len h, ?_, ?_⟩
  · show String.utf8Len before ≤ String.utf8Len (before ++ text)
    rw [String.utf8Len_append]
    exact Nat.le_add_right _ _
  · show String.utf8Len (before ++ text) ≤ source.utf8ByteSize
    rw [utf8ByteSize_eq h, String.utf8Len_append (before ++ text)]
    exact Nat.le_add_right _ _
  · show 1 + before.count '\n' = 1 + (slice source 0 (String.utf8Len before)).count '\n'
    rw [hslice]
  · show 1 + (lastLine before).length =
      1 + (lastLine (slice source 0 (String.utf8Len before))).length
    rw [hslice]

/-- The spans of tokens, and the one at the end of the text. -/
def Tokens.spans (ts : Tokens) : List Span :=
  ts.ahead.map Token.span ++ [ts.stop]

namespace Scan.Layout

variable {source : String} {p : Position} {cs : List Char} {ts : List Token} {stop : Span}

/-- The end of the text is behind all of it. -/
theorem stop_eq (h : Layout p cs ts stop) : stop = .between (p.after cs) (p.after cs) := by
  induction h with
  | stop => rfl
  | token _ _ _ ih => rw [ih, ← Position.after_append]

/-- A token is a stretch of the text that is not empty. -/
theorem exists_split (h : Layout p cs ts stop) {t : Token} (ht : t ∈ ts) :
    ∃ before text rest, cs = before ++ text ++ rest ∧ text ≠ [] ∧
      t.span = .between (p.after before) (p.after (before ++ text)) := by
  induction h with
  | stop => cases ht
  | @token p gap text rest kind ts stop _ htext _ ih =>
    rcases List.mem_cons.1 ht with rfl | ht
    · exact ⟨gap, text, rest, rfl, htext, rfl⟩
    · obtain ⟨before, text', rest', rfl, htext', hspan⟩ := ih ht
      refine ⟨gap ++ text ++ before, text', rest', by simp only [List.append_assoc], htext', ?_⟩
      rw [hspan, ← Position.after_append, ← Position.after_append]
      simp only [List.append_assoc]

/-- Nothing lies before the place where a layout begins. -/
theorem offset_le (h : Layout p cs ts stop) {s : Span} (hs : s ∈ Tokens.spans ⟨ts, stop⟩) :
    p.offset ≤ s.start := by
  induction h with
  | stop =>
    obtain rfl := List.mem_singleton.1 hs
    exact Position.offset_le_after _ _
  | @token p gap text rest kind ts stop _ _ _ ih =>
    rcases List.mem_cons.1 hs with rfl | hs
    · exact Position.offset_le_after _ _
    · exact (Position.offset_le_after p (gap ++ text)).trans (ih hs)

/-- **Spans are in order and disjoint.** -/
theorem pairwise (h : Layout p cs ts stop) :
    (Tokens.spans ⟨ts, stop⟩).Pairwise fun s t ↦ s.stop ≤ t.start := by
  induction h with
  | stop => exact List.pairwise_singleton _ _
  | token _ _ h ih => exact List.pairwise_cons.2 ⟨fun s hs ↦ h.offset_le hs, ih⟩

/-- **What stands between two spans that follow one another** is a gap. The text before the layout
is `before`, and `s₀` ends with it. -/
theorem filler_slice {before : List Char} {s₀ : Span} (h : Layout p cs ts stop)
    (hp : p = Position.start.after before) (hsource : source.toList = before ++ cs)
    (hstop : s₀.stop = p.offset) {front back : List Span} {s t : Span}
    (hspans : s₀ :: Tokens.spans ⟨ts, stop⟩ = front ++ s :: t :: back) :
    Filler back.isEmpty (slice source s.stop t.start) := by
  -- Each gap is seen from the span before it: with `front` gone, `s` is `s₀`.
  induction h generalizing before s₀ front with
  | @stop p gap hgap =>
    rcases front with - | ⟨x, front⟩
    · obtain ⟨rfl, htail⟩ := List.cons.inj hspans
      obtain ⟨rfl, rfl⟩ := List.cons.inj htail
      have hslice := slice_after hp (hsource.trans (List.append_nil _).symm)
      rw [hstop]
      exact hslice.symm ▸ hgap
    · have hlength := congrArg List.length hspans
      simp only [Tokens.spans, List.map_nil, List.nil_append, List.cons_append, List.length_cons,
        List.length_append, List.length_nil] at hlength
      omega
  | @token p gap text rest kind ts stop hgap htext h ih =>
    rcases front with - | ⟨x, front⟩
    · obtain ⟨rfl, htail⟩ := List.cons.inj hspans
      obtain ⟨rfl, rfl⟩ := List.cons.inj htail
      have hsplit : source.toList = before ++ gap ++ (text ++ rest) := by
        rw [hsource]
        simp only [List.append_assoc]
      have hback : (ts.map Token.span ++ [stop]).isEmpty = false :=
        List.isEmpty_eq_false_iff.2 (List.append_ne_nil_of_right_ne_nil _ (List.cons_ne_nil _ _))
      rw [hstop]
      exact (slice_after hp hsplit).symm ▸ hback.symm ▸ hgap
    · have hp' : p.after (gap ++ text) = Position.start.after (before ++ (gap ++ text)) := by
        rw [hp, ← Position.after_append]
      have hsource' : source.toList = before ++ (gap ++ text) ++ rest :=
        hsource.trans (List.append_assoc before (gap ++ text) rest).symm
      exact ih hp' hsource' rfl (List.cons.inj hspans).2

end Scan.Layout

/-- **Spans are exact.** Where a text has tokens, their spans and the empty one at the end of the
text are in order and disjoint, those of tokens are not empty, the last one is at the end, and
between two that follow one another, as before the first, there are only blanks, line comments and
balanced block comments. All of them, and the span of the fault where a text has no tokens, lie in
the text, between characters, with the line and column of their start. -/
theorem Tokens.exact_spans_of_ofText (source : String) :
    (∀ ts, ofText source = .ok ts →
      ts.spans.Pairwise (fun s t ↦ s.stop ≤ t.start) ∧
        (∀ t ∈ ts.ahead, t.span.start < t.span.stop) ∧
        (ts.stop.start = source.utf8ByteSize ∧ ts.stop.stop = source.utf8ByteSize) ∧
        (∀ front s t back,
          .between .start .start :: ts.spans = front ++ s :: t :: back →
            Scan.Filler back.isEmpty (slice source s.stop t.start)) ∧
        ∀ s ∈ ts.spans, s.Exact source) ∧
      ∀ e, ofText source = .error e → e.span.Exact source := by
  constructor
  · intro ts hts
    -- All about the spans of tokens is read off the layout.
    have hlayout := Scan.layout_of_tokensFrom hts
    have hstop := hlayout.stop_eq
    refine ⟨hlayout.pairwise, fun t ht ↦ ?_, ?_, fun front s t back hspans ↦ ?_, fun s hs ↦ ?_⟩
    · obtain ⟨before, text, rest, -, htext, hspan⟩ := hlayout.exists_split ht
      rw [hspan]
      show (Position.after _ before).offset < (Position.after _ (before ++ text)).offset
      rw [Position.after_append, Position.offset_after _ text]
      exact Nat.lt_add_of_pos_right (utf8Len_pos htext)
    · have hsize : (Position.start.after source.toList).offset = source.utf8ByteSize := by
        rw [Position.after_start, utf8ByteSize_eq rfl]
      rw [hstop]
      exact ⟨hsize, hsize⟩
    · exact hlayout.filler_slice rfl (List.nil_append _).symm rfl hspans
    · rcases List.mem_append.1 hs with hs | hs
      · obtain ⟨t, ht, rfl⟩ := List.mem_map.1 hs
        obtain ⟨before, text, rest, hsource, -, hspan⟩ := hlayout.exists_split ht
        rw [hspan]
        exact Span.exact_between hsource
      · rw [List.mem_singleton.1 hs, hstop]
        have hsource : source.toList = source.toList ++ [] ++ [] := by
          rw [List.append_nil, List.append_nil]
        have hexact := Span.exact_between hsource
        rwa [List.append_nil] at hexact
  · intro e he
    obtain ⟨before, text, rest, hsource, hspan⟩ := Scan.exists_of_tokensFrom_eq_error he
    rw [hspan]
    exact Span.exact_between hsource

/-- A letter of two bytes, a comment with another in it and a line feed, and a string. -/
example :
    (Tokens.ofText "é /*/* */\n*/ 'ü'").toOption.map Tokens.spans =
      some [⟨0, 2, 1, 1⟩, ⟨14, 18, 2, 4⟩, ⟨18, 18, 2, 7⟩] := by
  decide +kernel

end Scriptlet
