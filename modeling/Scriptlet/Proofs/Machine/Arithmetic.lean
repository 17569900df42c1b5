import Scriptlet.Proofs.Code.Labels
import Scriptlet.Proofs.Code.LastCalls
import Scriptlet.Proofs.Machine.Agreement
import Scriptlet.Proofs.Token.Numerals

/-!
# Arithmetic wraps

Integers are computed modulo `2 ^ 64`, from the text of a program to its global variables. On the
way, an expression of constants and operators takes so many places of the stack and leaves its value
on it, whatever else the machine does (`Expr.Computes.run`); a program that declares one variable
ends with its value.
-/

namespace Scriptlet

open Machine

/-! ### Expressions of constants -/

/-- An expression of integers and operators has a value, and takes so many places on the stack. -/
inductive Expr.Computes : Expr → (places : Nat) → Value → Prop where
  | int (n : Int64) : Computes (.int n) 1 (.int n)
  | unary {op : UnaryOp} {e : Expr} {places : Nat} {v w : Value} (h : Computes e places v)
      (hw : op.apply v = .ok w) : Computes (.unary op e) places w
  | binary {op : BinaryOp} {left right : Expr} {places places' : Nat} {v v' w : Value}
      (hleft : Computes left places v) (hright : Computes right places' v')
      (hw : op.apply v v' = .ok w) :
      Computes (.binary op left right) (max places (places' + 1)) w

section

variable {m : Machine} {o : Outline} {offset places : Nat} {i : Instr} {e : Expr} {v : Value}
  {stack stack' : List Value} {st : Store}

/-- A value takes at least one place. -/
theorem Expr.Computes.places_pos (h : e.Computes places v) : 0 < places := by
  induction h with
  | int => exact Nat.one_pos
  | unary _ _ ih => exact ih
  | binary _ _ _ ih => exact Nat.lt_of_lt_of_le ih (Nat.le_max_left ..)

/-- One instruction. -/
theorem Machine.HasAt.run_one {o' : Outline} (hi : m.HasAt offset i)
    (hexec : m.outlineExec (o.moved (offset + i.width) stack st) i = .running o') :
    m.outlineRun 1 (o.moved offset stack st) = .running o' := by
  have hstep : m.outlineStep (o.moved offset stack st) = .running o' := by
    rw [hi.outlineStep_eq rfl]
    exact congrArg (Outline.Progress.mapError _) hexec
  exact outlineRun_succ hstep 0

/-- An instruction that pushes a value, where there is room for it. -/
theorem Machine.HasAt.run_push (hi : m.HasAt offset i)
    (hexec : m.outlineExec (o.moved (offset + i.width) stack' st) i =
      (o.moved (offset + i.width) stack st).push m.limits.maxStack v)
    (hroom : stack.length < m.limits.maxStack) :
    m.outlineRun 1 (o.moved offset stack' st) =
      .running (o.moved (offset + i.width) (v :: stack) st) :=
  hi.run_one (hexec.trans (if_pos hroom))

/-- **The code of an expression of constants pushes its value**, where there is room. -/
theorem Expr.Computes.run (h : e.Computes places v) (hcode : m.Holds offset e.code) (o : Outline)
    (stack : List Value) (st : Store) (hroom : stack.length + places ≤ m.limits.maxStack) :
    ∃ n, m.outlineRun n (o.moved offset stack st) =
      .running (o.moved (offset + Instr.size e.code) (v :: stack) st) := by
  induction h generalizing offset stack with
  | int n => exact ⟨1, hcode.1.run_push rfl hroom⟩
  | @unary op e places v w h hw ih =>
    rw [Expr.code, holds_snoc] at hcode
    obtain ⟨n, hn⟩ := ih hcode.1 stack hroom
    have hpos := h.places_pos
    refine ⟨n + 1, (outlineRun_add hn 1).trans ?_⟩
    rw [Expr.code, Instr.add_size_snoc]
    refine hcode.2.run_push ?_ (by omega)
    show Outline.pushResult _ _ (op.apply v) = _
    rw [hw]
    rfl
  | @binary op left right places places' v v' w hleft hright hw ihleft ihright =>
    rw [Expr.code, holds_snoc, holds_append, Instr.add_size_append] at hcode
    obtain ⟨⟨hcode, hcode'⟩, hop⟩ := hcode
    have hpos := hleft.places_pos
    -- The right operand is computed above the value of the left one.
    obtain ⟨n, hn⟩ := ihleft hcode stack (by omega)
    obtain ⟨n', hn'⟩ := ihright hcode' (v :: stack) (by rw [List.length_cons]; omega)
    refine ⟨n + (n' + 1), (outlineRun_add hn _).trans ((outlineRun_add hn' 1).trans ?_)⟩
    rw [Expr.code, Instr.add_size_snoc, Instr.add_size_append]
    refine hop.run_push ?_ (by omega)
    show Outline.pushResult _ _ (op.apply v v') = _
    rw [hw]
    rfl

end

/-! ### A program that declares one variable -/

section

variable {isConst : Bool} {name : String} {e : Expr} {places : Nat} {v : Value}

/-- The code of a single statement without parts stands where its listing starts. -/
theorem Stmt.ListedAll.holds {m : Machine} {spot : Spot} {s : Stmt} {start stop : Nat} {L : Listing}
    {is : List Instr} (h : Stmt.ListedAll spot [s] start stop L) (hs : s.flat? spot = some is)
    (hcode : ∀ e ∈ L.entries, m.HasAt e.offset e.instr) :
    m.Holds start is ∧ stop = start + Instr.size is := by
  cases h with
  | cons h hnil =>
    cases hnil
    rw [Listing.entries_append, List.forall_mem_append] at hcode
    cases h with
    | flat h =>
      obtain rfl := Option.some.inj (h.symm.trans hs)
      exact ⟨holds_of_entriesOf hcode.1, rfl⟩
    | _ => cases hs

/-- The variable has the value of its expression in the end, whatever the host. -/
theorem Image.Lists.exists_outcome {image : Image} {L : Listing}
    (h : image.Lists [.declare isConst .auto name (some e)] L) (he : e.Computes places v)
    (table : Table) {limits : Limits} (hroom : places ≤ limits.maxStack) :
    ∃ count, ((ofImage image table limits).runFor count
      (ofImage image table limits).start).outcome? =
        some (.ended .endOfCode [(name, v)] #[]) := by
  have hruns := h.runs rfl rfl table limits
  obtain ⟨m, hm⟩ : ∃ m, m = ofImage image table limits := ⟨_, rfl⟩
  have hlimits : m.limits = limits := by rw [hm]; rfl
  have hsize : m.code.size = image.code.size := by rw [hm]; rfl
  have hstart : m.outlineStart = m.outlineStart.moved headerSize [] ⟨[[]], #[]⟩ := by
    rw [← h.mainEntry, hm]
    rfl
  rw [← hm] at hruns ⊢
  obtain ⟨hcode, hstop⟩ := h.listed.holds rfl hruns.hasAt
  rw [holds_snoc] at hcode
  have hroom' : ([] : List Value).length + places ≤ m.limits.maxStack := by
    rwa [hlimits, List.length_nil, Nat.zero_add]
  obtain ⟨n, hn⟩ := he.run hcode.1 m.outlineStart [] ⟨[[]], #[]⟩ hroom'
  have hdeclare : m.outlineRun 1
      (m.outlineStart.moved (headerSize + Instr.size e.code) [v] ⟨[[]], #[]⟩) =
      .running (m.outlineStart.moved image.code.size [] ⟨[[(name, ⟨.auto, v⟩)]], #[]⟩) := by
    rw [hstop, Instr.add_size_snoc]
    exact hcode.2.run_one rfl
  -- There is no code behind the declaration.
  have hend : m.outlineRun 1
      (m.outlineStart.moved image.code.size [] ⟨[[(name, ⟨.auto, v⟩)]], #[]⟩) =
      .ended .endOfCode
        (m.outlineStart.moved image.code.size [] ⟨[[(name, ⟨.auto, v⟩)]], #[]⟩) := by
    rw [outlineRun, outlineStep, if_neg (by simp [Outline.moved, hsize])]
  refine ⟨n + (1 + 1), ?_⟩
  rw [outcome?_runFor, hstart, outlineRun_add hn, outlineRun_add hdeclare, hend]
  rfl

/-- A declaration with an initial value is read as such. -/
theorem Program.ofTokens_declare {ts : Tokens} {ks : List Kind}
    (he : Phrase.Spelled (.level 0 e) ks)
    (hts : ts.kinds =
      .keyword .let_ :: .name name :: .symbol .equal :: (ks ++ [.symbol .semicolon])) :
    Program.ofTokens ts = .ok [.declare false .auto name (some e)] := by
  have hdeclare : (Stmt.declare false .auto name (some e)).Settled _ _ :=
    Stmt.settled_initialise false false .omitted he
  have hsettled :=
    Clause.settled_cons rfl hdeclare (fun k hk ↦ absurd hk (by simp)) Clause.settled_nil
  rw [List.append_nil] at hsettled
  have hfits : LiteralFits .auto ks := by
    unfold LiteralFits
    split
    · exact fun v _ ↦ ⟨v, rfl⟩
    · trivial
  refine (Program.ofTokens_iff_of_settles (hts ▸ hsettled.2) _).2 ⟨?_, rfl⟩
  exact ⟨_, _, ⟨hfits, rfl⟩, rfl⟩

/-- A declaration with an initial value has an image, unless its code is huge. -/
theorem Program.exists_assemble_declare {type : Tag} (stop : Span)
    (hsize : headerSize + Instr.size e.code + (Instr.decl name type).width +
      Function.main.encode.length < UInt64.size) :
    ∃ image, Program.assemble [.declare isConst type name (some e)] stop = .ok image := by
  obtain ⟨p, hp⟩ : ∃ p : Program, p = [.declare isConst type name (some e)] := ⟨_, rfl⟩
  have hdraft : p.draft = (Draft.new.expr e).emit (.decl name type) := by
    rw [hp]
    rfl
  have hbuffer : p.draft.buffer.size =
      headerSize + Instr.size e.code + (Instr.decl name type).width := by
    rw [hdraft, Draft.size_emit, Draft.size_expr]
    rfl
  have htable : (p.draft.functions.toList.flatMap Function.encode).length =
      Function.main.encode.length := by
    rw [hdraft]
    rfl
  obtain ⟨image, himage⟩ := p.exists_assemble_draft p.draft.functions.toList
  rw [← hp]
  refine ⟨image, Program.assemble_eq_ok.2 ⟨himage, ?_⟩⟩
  rw [Image.bytes_of_assemble himage]
  show (Buffer.fill _ _ _).size < _
  rw [Buffer.size_fill]
  show (p.draft.buffer.withTable _).size < _
  rw [Buffer.size_withTable, hbuffer, htable]
  exact hsize

end

/-! ### Sums of products -/

/-- A program that adds a product to a number. -/
def wrappingSum (a b c : Int64) : String :=
  s!"let x = {a} + {b} * {c};"

/-- The tree of an integer in decimal. -/
def Expr.signed (n : Int64) : Expr :=
  if n.toInt < 0 then .unary .negate (.int (-n)) else .int n

/-- The tree of a sum with a product. -/
def Expr.sum (a b c : Int64) : Expr :=
  .binary .add (.signed a) (.binary .multiply (.signed b) (.signed c))

/-- The kinds of a sum with a product. -/
def sumKinds (a b c : Int64) : List Kind :=
  signedKinds a ++ .symbol .plus :: (signedKinds b ++ .symbol .star :: signedKinds c)

section

variable (n a b c : Int64)

theorem Expr.computes_signed : (Expr.signed n).Computes 1 (.int n) := by
  rw [Expr.signed]
  split
  · exact .unary (.int (-n)) (congrArg (Except.ok ∘ Value.int) Int64.neg_neg)
  · exact .int n

/-- A sum with a product has the value that **64 signed bits** give it. -/
theorem Expr.computes_sum : (Expr.sum a b c).Computes 3 (.int (a + b * c)) :=
  .binary (computes_signed a) (.binary (computes_signed b) (computes_signed c) rfl) rfl

/-- What is spelled at a level is spelled at the one below. -/
theorem Phrase.Spelled.loosen {level : Nat} {e : Expr} {ks : List Kind}
    (h : Phrase.Spelled (.level (level + 1) e) ks) (hlevel : level < 5) :
    Phrase.Spelled (.level level e) ks := by
  have hloose := Phrase.Spelled.level hlevel h .noOperator
  rwa [List.append_nil] at hloose

/-- Two operands with an operator between them are spelled at the level of the operator. -/
theorem Phrase.Spelled.binary {s : Symbol} {op : BinaryOp} {level : Nat} {left right : Expr}
    {ks ks' : List Kind} (hs : op.Spelled level s)
    (hleft : Phrase.Spelled (.level (level + 1) left) ks)
    (hright : Phrase.Spelled (.level (level + 1) right) ks') :
    Phrase.Spelled (.level level (.binary op left right)) (ks ++ .symbol s :: ks') := by
  have hmore : Phrase.Spelled (.more level left (.binary op left right)) _ :=
    .operator hs hright .noOperator
  have hlevel : level < 5 := by cases hs <;> decide
  rw [List.append_nil] at hmore
  exact .level hlevel hleft hmore

/-- An integer in decimal is spelled by its digits, behind a minus if it is negative. -/
theorem Phrase.spelled_signed : Phrase.Spelled (.level 5 (.signed n)) (signedKinds n) := by
  refine .tightest (Nat.lt_irrefl _) ?_
  rw [Expr.signed, signedKinds]
  split
  · exact .negate (.operand (.int (-n)) .noItem)
  · exact .operand (.int n) .noItem

/-- The product is spelled inside the sum, without parentheses. -/
theorem Phrase.spelled_sum : Phrase.Spelled (.level 0 (.sum a b c)) (sumKinds a b c) := by
  have hproduct := Phrase.Spelled.binary .multiply (spelled_signed b) (spelled_signed c)
  have hsum := Phrase.Spelled.binary .add ((spelled_signed a).loosen (by decide)) hproduct
  exact ((hsum.loosen (by decide)).loosen (by decide)).loosen (by decide)

end

/-! ### From the text to the tree -/

namespace Scan

variable {rest : List Char} {r : Except ScanCause (List Kind)}

/-- The start of the declaration is scanned as three tokens. -/
theorem Yields.head (h : Yields rest r) :
    Yields ("let x = ".toList ++ rest)
      (r.map ([.keyword .let_, .name "x", .symbol .equal] ++ ·)) := by
  have hlet : ReadsAlone ['l', 'e', 't'] (.keyword .let_) := .of_lexeme rfl (by decide) rfl
  have hname : ReadsAlone ['x'] (.name "x") := .of_lexeme rfl (by decide) rfl
  have hequal : ReadsAlone ['='] (.symbol .equal) := readsAlone_symbol rfl
  have hhead := hlet.yields_blank (hname.yields_blank (hequal.yields_blank h))
  cases r <;> exact hhead

/-- An operator between blanks. -/
theorem Yields.operator {c : Char} {s : Symbol} (h : Yields rest r) (hs : lone? c = some s) :
    Yields (' ' :: c :: ' ' :: rest) (r.map (.symbol s :: ·)) :=
  ((readsAlone_symbol hs).yields_blank h).blank

theorem yields_semicolon : Yields [';'] (.ok [.symbol .semicolon]) := by
  have hsemicolon : ReadsAlone [';'] (.symbol .semicolon) := readsAlone_symbol rfl
  have hend : AtBlank [] := fun _ h ↦ absurd h (by simp)
  exact hsemicolon.yields hend .nil

end Scan

/-- The kinds of a program that adds a product to a number, if none of the three is the least
integer. -/
theorem yields_wrappingSum (a b c : Int64) :
    Scan.Yields (wrappingSum a b c).toList
      (if a = Int64.minValue ∨ b = Int64.minValue ∨ c = Int64.minValue then
        .error (.invalidNumber "9223372036854775808")
      else .ok (.keyword .let_ :: .name "x" :: .symbol .equal ::
        (sumKinds a b c ++ [.symbol .semicolon]))) := by
  have hlast := Scan.yields_semicolon.signed c (Scan.endsNumber_cons rfl (by decide))
  have hproduct := (hlast.operator (c := '*') rfl).signed b (Scan.endsNumber_cons rfl (by decide))
  have hsum := (hproduct.operator (c := '+') rfl).signed a (Scan.endsNumber_cons rfl (by decide))
  have htext : (wrappingSum a b c).toList = "let x = ".toList ++ ((toString a).toList ++
      ' ' :: '+' :: ' ' :: ((toString b).toList ++ ' ' :: '*' :: ' ' ::
        ((toString c).toList ++ [';']))) := by
    show ("let x = " ++ toString a ++ " + " ++ toString b ++ " * " ++ toString c ++ ";").toList = _
    simp only [String.toList_append, List.append_assoc]
    rfl
  rw [htext]
  convert hsum.head using 1
  simp only [Scan.withSigned]
  -- The least integer has no digits that fit; the first one among the three is the fault.
  by_cases ha : a = Int64.minValue
  · rw [if_pos (.inl ha), if_pos ha]
    rfl
  by_cases hb : b = Int64.minValue
  · rw [if_pos (.inr (.inl hb)), if_neg ha, if_pos hb]
    rfl
  by_cases hc : c = Int64.minValue
  · rw [if_pos (.inr (.inr hc)), if_neg ha, if_neg hb, if_pos hc]
    rfl
  · have hnone : ¬ (a = Int64.minValue ∨ b = Int64.minValue ∨ c = Int64.minValue) :=
      fun h ↦ h.elim ha fun h ↦ h.elim hb hc
    rw [if_neg hnone, if_neg ha, if_neg hb, if_neg hc]
    simp only [sumKinds, List.append_assoc, List.cons_append]
    rfl

theorem Expr.size_code_signed_le (n : Int64) : Instr.size (Expr.signed n).code ≤ 10 := by
  have hpush : Instr.size [.pushInt n] ≤ 10 := Nat.le_succ 9
  have hnegate : Instr.size [.pushInt (-n), .unary .negate] ≤ 10 := Nat.le_refl 10
  rw [Expr.signed]
  split
  · exact hnegate
  · exact hpush

/-- The code of a sum is short. -/
theorem Expr.size_code_sum_le (a b c : Int64) : Instr.size (Expr.sum a b c).code ≤ 32 := by
  have ha := Expr.size_code_signed_le a
  have hb := Expr.size_code_signed_le b
  have hc := Expr.size_code_signed_le c
  have hadd : Instr.size [.binary .add] = 1 := rfl
  have hmultiply : Instr.size [.binary .multiply] = 1 := rfl
  simp only [Expr.sum, Expr.code, Instr.size_append, hadd, hmultiply]
  omega

/-- A sum of integers other than the least one compiles. -/
theorem exists_compile_wrappingSum {a b c : Int64}
    (h : ¬ (a = Int64.minValue ∨ b = Int64.minValue ∨ c = Int64.minValue)) :
    ∃ image L, compile (wrappingSum a b c) = .ok image ∧
      image.Lists [.declare false .auto "x" (some (.sum a b c))] L := by
  have hyields := yields_wrappingSum a b c
  rw [if_neg h] at hyields
  obtain ⟨ts, hts, hkinds⟩ := hyields.exists_ofText
  rw [String.ofList_toList] at hts
  have hread := Program.ofTokens_declare (Phrase.spelled_sum a b c) hkinds
  have hsize : headerSize + Instr.size (Expr.sum a b c).code + (Instr.decl "x" .auto).width +
      Function.main.encode.length < UInt64.size := by
    have hcode := Expr.size_code_sum_le a b c
    have hheader : headerSize = 32 := rfl
    have hdecl : (Instr.decl "x" .auto).width = 11 := by decide
    have hmain : Function.main.encode.length = 35 := by decide
    have hbound : 110 < UInt64.size := by decide
    omega
  obtain ⟨image, himage⟩ : ∃ image,
      Program.assemble [.declare false .auto "x" (some (.sum a b c))] ts.stop = .ok image :=
    Program.exists_assemble_declare ts.stop hsize
  obtain ⟨L, hL⟩ := Program.exists_lists himage
  refine ⟨image, L, ?_, hL⟩
  rw [compile, hts]
  show compileTokens ts = _
  rw [compileTokens, hread]
  exact himage

/-- A sum with the least integer does not compile. -/
theorem exists_compile_wrappingSum_eq_error {a b c : Int64}
    (h : a = Int64.minValue ∨ b = Int64.minValue ∨ c = Int64.minValue) :
    ∃ e, compile (wrappingSum a b c) = .error (.ofScan e) ∧
      e.cause = .invalidNumber "9223372036854775808" := by
  have hyields := yields_wrappingSum a b c
  rw [if_pos h] at hyields
  obtain ⟨e, he, hcause⟩ := hyields.exists_ofText_eq_error
  rw [String.ofList_toList] at he
  refine ⟨e, ?_, hcause⟩
  rw [compile, he]
  rfl

/-- To wrap around at each step is to wrap around once at the end. -/
theorem toInt_add_mul (a b c : Int64) :
    (a + b * c).toInt = (a.toInt + b.toInt * c.toInt).bmod Int64.size := by
  rw [← Int64.toInt_ofInt, Int64.ofInt_add, Int64.ofInt_mul, Int64.ofInt_toInt, Int64.ofInt_toInt,
    Int64.ofInt_toInt]

/-- **Arithmetic wraps**, from the text to the global variables. A program that adds a product to a
number compiles if none of the three is the least integer, and then its only variable ends up with
the sum modulo `2 ^ 64`, for every host and with room for three operands. The least integer cannot
be written: its digits are refused. -/
theorem compile_and_outcome_wrappingSum (a b c : Int64) :
    (¬ (a = Int64.minValue ∨ b = Int64.minValue ∨ c = Int64.minValue) →
      ∃ image r, compile (wrappingSum a b c) = .ok image ∧
        r.toInt = (a.toInt + b.toInt * c.toInt).bmod Int64.size ∧
        ∀ (table : Table) (limits : Limits), 3 ≤ limits.maxStack →
          ∃ count, ((ofImage image table limits).runFor count
            (ofImage image table limits).start).outcome? =
              some (.ended .endOfCode [("x", .int r)] #[])) ∧
    (a = Int64.minValue ∨ b = Int64.minValue ∨ c = Int64.minValue →
      ∃ e, compile (wrappingSum a b c) = .error (.ofScan e) ∧
        e.cause = .invalidNumber "9223372036854775808") := by
  refine ⟨fun h ↦ ?_, exists_compile_wrappingSum_eq_error⟩
  obtain ⟨image, L, himage, hlists⟩ := exists_compile_wrappingSum h
  refine ⟨image, a + b * c, himage, toInt_add_mul a b c, fun table limits hroom ↦ ?_⟩
  exact hlists.exists_outcome (Expr.computes_sum a b c) table hroom

/-- The largest numbers that can be written, and a sum that cannot. -/
theorem compile_and_outcome_wrappingSum_extremes :
    wrappingSum (-Int64.maxValue) Int64.maxValue (-Int64.maxValue) =
      "let x = -9223372036854775807 + 9223372036854775807 * -9223372036854775807;" ∧
    ∃ image, compile (wrappingSum (-Int64.maxValue) Int64.maxValue (-Int64.maxValue)) = .ok image ∧
      ∃ count, ((ofImage image .empty {}).runFor count (ofImage image .empty {}).start).outcome? =
        some (.ended .endOfCode [("x", .int Int64.minValue)] #[]) := by
  refine ⟨by decide +kernel, ?_⟩
  obtain ⟨image, r, himage, hr, hrun⟩ :=
    (compile_and_outcome_wrappingSum (-Int64.maxValue) Int64.maxValue (-Int64.maxValue)).1
      (by decide)
  have hmin : r = Int64.minValue := Int64.toInt_inj.1 (hr.trans (by decide))
  rw [hmin] at hrun
  exact ⟨image, himage, hrun .empty {} (by decide)⟩

/-- The least integer in the text, where zero is added to it. -/
theorem compile_wrappingSum_minValue :
    wrappingSum Int64.minValue 0 0 = "let x = -9223372036854775808 + 0 * 0;" ∧
    compile (wrappingSum Int64.minValue 0 0) =
      .error (.ofScan ⟨.invalidNumber "9223372036854775808", ⟨9, 28, 1, 10⟩⟩) := by
  constructor <;> decide +kernel

end Scriptlet
