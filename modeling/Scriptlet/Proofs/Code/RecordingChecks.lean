import Scriptlet.Proofs.Code.Recording

/-!
# Recordings check

What a recording has beside its instructions is right, if nothing is undeclared and no body of a
function both declares a name and assigns to it: each instruction **agrees** with what is recorded
at it, and wherever the machine can go on, what is recorded there follows. This is a fact about
recordings alone; which names are bound at run time is another matter.

The names of the blocks outside a loop are the same wherever the loop is left or begun again, since
a statement adds names to the innermost block only.
-/

namespace Scriptlet

/-! ### Instructions in a row -/

variable {Marks : Nat → Note → Prop}

/-- A record is right: its instruction agrees with it, and what is recorded wherever the machine may
go on follows from it. -/
structure Record.Sound (Marks : Nat → Note → Prop) (r : Record) : Prop where
  admits : r.note.Admits r.instr
  next : r.instr.fallsThrough = true → ∃ n, Marks r.next n ∧ r.note.Leads r.instr n
  target : ∀ t, r.instr.target? = some t → ∃ n, Marks t n ∧ r.note.Leads r.instr n

/-- An instruction that nothing comes behind. -/
theorem Record.Sound.of_stops {Marks : Nat → Note → Prop} {r : Record}
    (hadmits : r.note.Admits r.instr) (hfalls : r.instr.fallsThrough = false)
    (htarget : r.instr.target? = none) : r.Sound Marks := by
  refine ⟨hadmits, fun h ↦ ?_, fun t h ↦ ?_⟩
  · rw [hfalls] at h
    cases h
  · rw [htarget] at h
    cases h

/-- Instructions in a row that do not jump agree with what is recorded, and lead from one note to
another. -/
inductive Note.Checks : Note → List Instr → Note → Prop where
  | nil {n : Note} : Checks n [] n
  | cons {n n' : Note} {i : Instr} {is : List Instr} (h : n.Admits i) (ht : i.target? = none)
      (rest : Checks (n.after i) is n') : Checks n (i :: is) n'

namespace Note.Checks

variable {n n' n'' : Note} {i : Instr} {is is' : List Instr} {offset : Nat}

/-- Checks go on where the ones before them end. -/
theorem append (h : n.Checks is n') (h' : n'.Checks is' n'') : n.Checks (is ++ is') n'' := by
  induction h with
  | nil => exact h'
  | cons h ht _ ih => exact .cons h ht (ih h')

/-- Records go on with the note that the ones before them lead to. -/
theorem recordsOf_append (h : n.Checks is n') (offset : Nat) (is' : List Instr) :
    recordsOf offset n (is ++ is') =
      recordsOf offset n is ++ recordsOf (offset + Instr.size is) n' is' := by
  induction h generalizing offset with
  | nil => rfl
  | cons _ _ _ ih =>
    rw [List.cons_append, recordsOf, recordsOf, ih, List.cons_append, Instr.size_cons,
      Nat.add_assoc]

/-- Instructions that pass their checks have right records if the place behind them is recorded. -/
theorem sound (h : n.Checks is n') (hmarks : ∀ r ∈ recordsOf offset n is, Marks r.offset r.note)
    (hexit : Marks (offset + Instr.size is) n') : ∀ r ∈ recordsOf offset n is, r.Sound Marks := by
  induction h generalizing offset with
  | nil => simp [recordsOf]
  | @cons n n' i is h ht rest ih =>
    rw [recordsOf, List.forall_mem_cons] at hmarks ⊢
    rw [Instr.size_cons, ← Nat.add_assoc] at hexit
    refine ⟨⟨h, fun _ ↦ ⟨n.after i, ?_, leads_after i⟩, fun t ht' ↦ ?_⟩, ih hmarks.2 hexit⟩
    · cases rest with
      | nil => exact hexit
      | cons => exact hmarks.2 _ (List.mem_cons_self ..)
    · rw [ht] at ht'
      cases ht'

/-- With one more instruction, which may jump. -/
theorem sound_snoc (h : n.Checks is n')
    (hmarks : ∀ r ∈ recordsOf offset n (is ++ [i]), Marks r.offset r.note)
    (hlast : Record.Sound Marks ⟨offset + Instr.size is, i, n'⟩) :
    ∀ r ∈ recordsOf offset n (is ++ [i]), r.Sound Marks := by
  rw [h.recordsOf_append, List.forall_mem_append] at hmarks ⊢
  refine ⟨h.sound hmarks.1 (hmarks.2 _ (List.mem_singleton.2 rfl)), fun r hr ↦ ?_⟩
  obtain rfl := List.mem_singleton.1 hr
  exact hlast

/-- The start is recorded, also where there are no instructions. -/
theorem marks_start (h : n.Checks is n')
    (hmarks : ∀ r ∈ recordsOf offset n is, Marks r.offset r.note)
    (hexit : Marks (offset + Instr.size is) n') : Marks offset n := by
  cases h with
  | nil => exact hexit
  | cons => exact hmarks _ (List.mem_cons_self ..)

end Note.Checks

theorem marks_of_recordsOf {offset : Nat} {n : Note} {is : List Instr}
    (hmarks : ∀ r ∈ recordsOf offset n is, Marks r.offset r.note) (his : is ≠ []) :
    Marks offset n := by
  obtain ⟨i, is, rfl⟩ := List.exists_cons_of_ne_nil his
  exact hmarks _ (List.mem_cons_self ..)

/-! ### Expressions -/

/-- The instruction works on values only: it does not jump, and changes no names. -/
def Instr.isValueOnly : Instr → Bool
  | pushInt _ | pushFloat _ | pushBool _ | pushStr _ | pushNull | get _ | makeList _ | binary _
  | unary _ | index | slice | call _ _ | tailCall _ _ | pop | setIndex _ => true
  | set _ | decl _ _ | unset _ | jump _ | jumpIfFalse _ | ret | retVoid | enterScope | exitScope
  | halt => false

mutual

/-- The code of an expression works on values only. -/
theorem Expr.all_isValueOnly_code : ∀ e : Expr, e.code.all Instr.isValueOnly = true
  | .int _ | .float _ | .str _ | .bool _ | .null | .var _ => rfl
  | .call _ args => by simp [Expr.code, all_isValueOnly_codeAll args, Instr.isValueOnly]
  | .list items => by simp [Expr.code, all_isValueOnly_codeAll items, Instr.isValueOnly]
  | .unary _ e => by simp [Expr.code, e.all_isValueOnly_code, Instr.isValueOnly]
  | .binary _ left right => by
    simp [Expr.code, left.all_isValueOnly_code, right.all_isValueOnly_code, Instr.isValueOnly]
  | .index container i => by
    simp [Expr.code, container.all_isValueOnly_code, i.all_isValueOnly_code, Instr.isValueOnly]
  | .slice container start stop => by
    simp [Expr.code, container.all_isValueOnly_code, start.all_isValueOnly_code,
      stop.all_isValueOnly_code, Instr.isValueOnly]

theorem Expr.all_isValueOnly_codeAll : ∀ es : List Expr,
    (Expr.codeAll es).all Instr.isValueOnly = true
  | [] => rfl
  | e :: es => by simp [Expr.codeAll, e.all_isValueOnly_code, all_isValueOnly_codeAll es]

end

/-- A last call works on values only, as far as names are concerned. -/
theorem Expr.all_isValueOnly_lastCode (isTail : Bool) (e : Expr) :
    (e.lastCode isTail).all Instr.isValueOnly = true := by
  cases isTail with
  | false => exact e.all_isValueOnly_code
  | true =>
    cases e with
    | call name args => simp [Expr.lastCode, Expr.all_isValueOnly_codeAll, Instr.isValueOnly]
    | _ => exact Expr.all_isValueOnly_code _

/-- Instructions that work on values only leave what is recorded as it is. -/
theorem Note.checks_values {n : Note} (hbound : n.bound = none) {is : List Instr}
    (his : is.all Instr.isValueOnly = true) : n.Checks is n := by
  induction is with
  | nil => exact .nil
  | cons i is ih =>
    rw [List.all_cons, Bool.and_eq_true] at his
    have hafter : n.after i = n := by
      obtain ⟨lets, names, bound⟩ := n
      cases hbound
      cases i <;> first | rfl | cases his.1
    refine .cons ?_ ?_ ?_
    · cases i <;> first | trivial | cases his.1
    · cases i <;> first | rfl | cases his.1
    · rw [hafter]
      exact ih his.2

/-! ### Tame statements -/

/-- What is declared and what is assigned to goes with the names that the body of a function
declares. -/
def Respects (lets : Option (List String)) (declared assigned : List String) : Prop :=
  ∀ ls, lets = some ls → (∀ name ∈ declared, name ∈ ls) ∧ ∀ name ∈ assigned, name ∉ ls

/-- What is declared and assigned in two parts may be looked at part by part. -/
theorem Respects.append {lets : Option (List String)} {ds ds' as as' : List String} :
    Respects lets (ds ++ ds') (as ++ as') ↔ Respects lets ds as ∧ Respects lets ds' as' := by
  simp only [Respects, List.forall_mem_append]
  exact ⟨fun h ↦ ⟨fun ls hls ↦ ⟨(h ls hls).1.1, (h ls hls).2.1⟩,
    fun ls hls ↦ ⟨(h ls hls).1.2, (h ls hls).2.2⟩⟩,
    fun h ls hls ↦ ⟨⟨(h.1 ls hls).1, (h.2 ls hls).1⟩, (h.1 ls hls).2, (h.2 ls hls).2⟩⟩

/-- Nothing is undeclared in a statement, and no body of a function both declares a name and assigns
to it. -/
structure Stmt.Tame (lets : Option (List String)) (s : Stmt) : Prop where
  valid : ∃ loops place, s.valid loops place = true
  keeps : s.keepsNames = true
  respects : Respects lets s.declared s.assigned
  functions : ∀ f ∈ s.functions, Stmt.Unmixed f.2

/-- The same for some statements. -/
structure Stmt.TameAll (lets : Option (List String)) (ss : List Stmt) : Prop where
  valid : ∃ loops place, Stmt.validAll loops place ss = true
  keeps : Stmt.keepsNamesAll ss = true
  respects : Respects lets (Stmt.declaredAll ss) (Stmt.assignedAll ss)
  functions : ∀ f ∈ Stmt.functionsAll ss, Stmt.Unmixed f.2

namespace Stmt

variable {lets : Option (List String)} {s : Stmt} {ss body otherwise : List Stmt} {e : Expr}

/-- The first statement is tame, and so are the others. -/
theorem TameAll.cons (h : TameAll lets (s :: ss)) : s.Tame lets ∧ TameAll lets ss := by
  obtain ⟨⟨loops, place, hvalid⟩, hkeeps, hrespects, hfunctions⟩ := h
  rw [validAll, Bool.and_eq_true] at hvalid
  rw [keepsNamesAll, Bool.and_eq_true] at hkeeps
  rw [declaredAll, assignedAll, Respects.append] at hrespects
  rw [functionsAll, List.forall_mem_append] at hfunctions
  exact ⟨⟨⟨loops, place, hvalid.1⟩, hkeeps.1, hrespects.1, hfunctions.1⟩,
    ⟨loops, place, hvalid.2⟩, hkeeps.2, hrespects.2, hfunctions.2⟩

/-- Both branches of a tame condition are tame. -/
theorem Tame.ifElse (h : Tame lets (.ifElse e body otherwise)) :
    TameAll lets body ∧ TameAll lets otherwise ∧ otherwise.all isAlternative = true := by
  obtain ⟨⟨loops, place, hvalid⟩, hkeeps, hrespects, hfunctions⟩ := h
  rw [Stmt.valid, Bool.and_eq_true, Bool.and_eq_true] at hvalid
  rw [keepsNames, Bool.and_eq_true] at hkeeps
  rw [declared, assigned, Respects.append] at hrespects
  rw [Stmt.functions, List.forall_mem_append] at hfunctions
  exact ⟨⟨⟨loops, place, hvalid.1.1⟩, hkeeps.1, hrespects.1, hfunctions.1⟩,
    ⟨⟨loops, place, hvalid.1.2⟩, hkeeps.2, hrespects.2, hfunctions.2⟩, hvalid.2⟩

theorem Tame.whileLoop (h : Tame lets (.whileLoop e body)) : TameAll lets body := by
  obtain ⟨⟨loops, place, hvalid⟩, hkeeps, hrespects, hfunctions⟩ := h
  exact ⟨⟨loops + 1, place, hvalid⟩, hkeeps, hrespects, hfunctions⟩

theorem Tame.block (h : Tame lets (.block body)) : TameAll lets body := by
  obtain ⟨⟨loops, place, hvalid⟩, hkeeps, hrespects, hfunctions⟩ := h
  exact ⟨⟨loops, place, hvalid⟩, hkeeps, hrespects, hfunctions⟩

/-- The body of a function is tame with the names that it declares. -/
theorem Tame.function {head : Head} (h : Tame lets (.function head body)) :
    TameAll (some (declaredAll body)) body := by
  obtain ⟨⟨loops, place, hvalid⟩, hkeeps, -, hfunctions⟩ := h
  rw [Stmt.valid, Bool.and_eq_true] at hvalid
  rw [Stmt.functions, List.forall_mem_cons] at hfunctions
  refine ⟨⟨_, _, hvalid.1⟩, hkeeps, fun ls hls ↦ ?_, hfunctions.2⟩
  cases hls
  exact ⟨fun _ ↦ id, hfunctions.1⟩

end Stmt

/-- What tame statements add goes to the innermost block. -/
theorem Stmt.RecordedAll.extends {lets : Option (List String)} {spot : Spot} {c c' : Context}
    {ss : List Stmt} {start stop : Nat} {R : Recording} (htame : Stmt.TameAll lets ss)
    (h : Stmt.RecordedAll lets spot c ss start stop R c') :
    c.Extends c' ∧ (ss.all Stmt.isAlternative = true → c'.names = c.names) := by
  obtain ⟨loops, place, hvalid⟩ := htame.valid
  exact h.checked.extends hvalid htame.keeps

/-! ### Loops -/

/-- The loops around a statement are recorded in the right way: with the names of the blocks outside
all blocks that were opened since. -/
structure Spot.Records (Marks : Nat → Note → Prop) (lets : Option (List String)) (spot : Spot)
    (c : Context) : Prop where
  length : spot.blocks.length = c.names.length
  pos : 0 < c.names.length
  loops : ∀ loop ∈ spot.loops, 0 < loop.blocks.length ∧ loop.blocks.length < c.names.length
  marks : ∀ loop ∈ spot.loops, ∀ target ∈ [loop.again, loop.done],
    Marks target ⟨lets, c.names.drop (c.names.length - loop.blocks.length), none⟩

namespace Spot.Records

variable {lets : Option (List String)} {spot : Spot} {c c' : Context}

theorem top : Spot.top.Records Marks lets .start :=
  ⟨rfl, Nat.one_pos, by simp [Spot.top], by simp [Spot.top]⟩

/-- The body of a function has no loops around it. -/
theorem body (head : Head) (c : Context) :
    (Spot.body head).Records Marks lets
      (c.enterFunction head.name (head.returns == .void) head.params) := by
  refine ⟨?_, ?_, by simp [Spot.body], by simp [Spot.body]⟩ <;> rw [c.names_enterFunction]
  · rfl
  · exact Nat.one_pos

/-- A block leaves what is recorded outside of it. -/
theorem inBlock (h : spot.Records Marks lets c) : spot.inBlock.Records Marks lets c.enterBlock := by
  refine ⟨?_, ?_, fun loop hl ↦ ?_, fun loop hl ↦ ?_⟩ <;>
    rw [c.names_enterBlock, List.length_cons]
  · exact congrArg (· + 1) h.length
  · exact Nat.succ_pos _
  · have := h.loops loop hl
    omega
  · have hlt := (h.loops loop hl).2
    rw [Nat.succ_sub (Nat.le_of_lt hlt), List.drop_succ_cons]
    exact h.marks loop hl

/-- A loop that is recorded at both of its ends may be left from inside. -/
theorem inLoop (h : spot.Records Marks lets c) {again done : Nat}
    (hagain : Marks again (c.note lets)) (hdone : Marks done (c.note lets)) :
    (spot.inLoop again done).inBlock.Records Marks lets c.enterLoop.enterBlock := by
  have hnames : c.enterLoop.enterBlock.names = [] :: c.names := rfl
  have hdrop : ([] :: c.names).drop (([] :: c.names).length - spot.blocks.length) = c.names := by
    rw [List.length_cons, h.length, Nat.add_sub_cancel_left, List.drop_succ_cons, List.drop_zero]
  obtain ⟨hlength, hpos, hloops, hmarks⟩ := h.inBlock
  refine ⟨hlength, hpos, List.forall_mem_cons.2 ⟨?_, hloops⟩, List.forall_mem_cons.2 ⟨?_, hmarks⟩⟩
  · rw [hnames, List.length_cons, h.length]
    exact ⟨h.pos, Nat.lt_succ_self _⟩
  · rw [hnames, hdrop]
    simpa using ⟨hagain, hdone⟩

/-- What is added to the innermost block leaves what is recorded outside of it. -/
theorem extend (h : spot.Records Marks lets c) (hc : c.Extends c') {spot' : Spot}
    (hlength : spot'.blocks.length = spot.blocks.length) (hloops : spot'.loops = spot.loops) :
    spot'.Records Marks lets c' := by
  refine ⟨by rw [hlength, h.length, hc.length], hc.length ▸ h.pos, ?_, ?_⟩ <;>
    rw [hloops, hc.length]
  · exact h.loops
  · intro loop hl
    -- Only the names of the innermost block are others, and it is left.
    obtain ⟨k, hk⟩ : ∃ k, c.names.length - loop.blocks.length = k + 1 :=
      Nat.exists_eq_succ_of_ne_zero (by have := h.loops loop hl; omega)
    have hmarks := h.marks loop hl
    rw [hk, ← List.drop_tail] at hmarks ⊢
    rw [hc.tail]
    exact hmarks

end Spot.Records

/-- Leaving blocks, as long as one is left. -/
theorem Note.checks_exits {n : Note} {count : Nat} (hbound : n.bound = none)
    (h : count + 1 ≤ n.names.length) :
    n.Checks (List.replicate count .exitScope) { n with names := n.names.drop count } := by
  induction count generalizing n with
  | zero => exact .nil
  | succ count ih =>
    have hafter : n.after .exitScope = { n with names := n.names.tail } := by
      rw [after, hbound]
      rfl
    refine .cons (show 2 ≤ n.names.length by omega) rfl ?_
    rw [hafter, ← List.drop_tail]
    refine ih hbound ?_
    simp only [List.length_tail]
    omega

/-- Leaving a loop closes the blocks inside it, and what is recorded outside holds again. -/
theorem Spot.Records.sound_leave {lets : Option (List String)} {spot : Spot} {c : Context}
    {loop : Loop} {offset target : Nat} (h : spot.Records Marks lets c) (hloop : loop ∈ spot.loops)
    (htarget : target ∈ [loop.again, loop.done])
    (hmarks : ∀ r ∈ recordsOf offset (c.note lets) (spot.leave loop target),
      Marks r.offset r.note) :
    ∀ r ∈ recordsOf offset (c.note lets) (spot.leave loop target), r.Sound Marks := by
  obtain ⟨hpos, hlt⟩ := h.loops loop hloop
  have hcount : spot.blocks.length - loop.blocks.length + 1 ≤ (c.note lets).names.length := by
    have : (c.note lets).names = c.names := rfl
    rw [this, h.length]
    omega
  refine (Note.checks_exits rfl hcount).sound_snoc hmarks ⟨trivial, nofun, fun t ht ↦ ?_⟩
  cases ht
  refine ⟨_, h.marks loop hloop target htarget, rfl, ?_, nofun⟩
  rw [← h.length]
  rfl

/-! ### Statements are recorded in the right way -/

/-- What is recorded at the start of the body of a function. -/
def Located.note (g : Located) : Note :=
  ⟨some (Stmt.declaredAll g.body), [g.head.params.reverse], none⟩

/-- All records are right, and its functions start where they are recorded to. -/
structure Recording.Sound (Marks : Nat → Note → Prop) (R : Recording) : Prop where
  records : ∀ r ∈ R.records, r.Sound Marks
  functions : ∀ g ∈ R.functions, Marks g.entry g.note ∧ g.head.params.Nodup

namespace Recording.Sound

variable {R R' : Recording}

/-- Right recordings one after the other are right together. -/
theorem append (h : R.Sound Marks) (h' : R'.Sound Marks) : (R ++ R').Sound Marks :=
  ⟨List.forall_mem_append.2 ⟨h.records, h'.records⟩,
    List.forall_mem_append.2 ⟨h.functions, h'.functions⟩⟩

theorem line {offset : Nat} {n : Note} {is : List Instr}
    (h : ∀ r ∈ recordsOf offset n is, r.Sound Marks) : (Recording.line offset n is).Sound Marks :=
  ⟨h, by simp [Recording.line]⟩

end Recording.Sound

variable {lets : Option (List String)} {spot : Spot} {c c' : Context} {start stop : Nat}

/-- Declaring a name. -/
theorem Context.checks_declare {name : String} {type : Tag} {b : Binding}
    (h : c.declare name b = .ok c') (hrespects : Respects lets [name] []) {is : List Instr}
    (his : is.all Instr.isValueOnly = true) :
    (c.note lets).Checks (is ++ [.decl name type]) (c'.note lets) := by
  obtain ⟨hnames, hnew, -⟩ := names_of_declare h
  have hafter : (c.note lets).after (.decl name type) = c'.note lets := by
    show _ = Note.mk lets c'.names none
    rw [hnames]
    rfl
  refine (Note.checks_values rfl his).append (hafter ▸ .cons ⟨hnew, fun ls hls ↦ ?_⟩ rfl .nil)
  exact (hrespects ls hls).1 name (List.mem_singleton.2 rfl)

/-- Assigning to a name. -/
theorem Context.checks_assign (hplace : c.place = .top ↔ lets = none) (name : String)
    (hrespects : Respects lets [] [name]) {is : List Instr}
    (his : is.all Instr.isValueOnly = true) :
    (c.note lets).Checks (is ++ [.set name]) ((c.assigned name).note lets) := by
  have hafter : (c.note lets).after (.set name) = (c.assigned name).note lets := by
    have hset : (c.note lets).after (.set name) = ⟨lets, if lets.isSome ∨ none = some name ∨
        name ∈ c.names.flatten then c.names else c.names.modifyHead (· ++ [name]), none⟩ := rfl
    rw [hset, Context.note]
    by_cases htop : c.place = .top
    · rw [names_assigned htop, hplace.1 htop]
      simp
    · have hsome : lets.isSome := Option.isSome_iff_ne_none.2 fun hnone ↦ htop (hplace.2 hnone)
      rw [assigned_of_place_ne htop, if_pos (.inl hsome)]
  refine (Note.checks_values rfl his).append (hafter ▸ .cons (.inr fun ls hls ↦ ?_) rfl .nil)
  exact (hrespects ls hls).2 name (List.mem_singleton.2 rfl)

/-- A statement that has no parts but expressions. -/
theorem Stmt.sound_recordsOf {s : Stmt} {is : List Instr} (htame : s.Tame lets)
    (hplace : c.place = .top ↔ lets = none) (hspot : spot.Records Marks lets c)
    (h : s.flat? spot = some is) (hchecked : s.Checked c c') (hstep : s.isStep = false)
    (hmarks : ∀ r ∈ recordsOf start (c.note lets) is, Marks r.offset r.note)
    (hexit : (∀ v, s ≠ .giveBack v) → Marks (start + Instr.size is) (c'.note lets)) :
    Marks start (c.note lets) ∧ ∀ r ∈ recordsOf start (c.note lets) is, r.Sound Marks := by
  have hplain (hs : ∀ v, s ≠ .giveBack v) (hchecks : (c.note lets).Checks is (c'.note lets)) :
      Marks start (c.note lets) ∧ ∀ r ∈ recordsOf start (c.note lets) is, r.Sound Marks :=
    ⟨hchecks.marks_start hmarks (hexit hs), hchecks.sound hmarks (hexit hs)⟩
  -- The checks that the statement has passed are what its records have to agree with.
  cases hchecked with
  | @declare _ _ isConst type name init hc =>
    cases init with
    | none =>
      cases h
      have hdefault : [type.pushDefault].all Instr.isValueOnly = true := by
        cases type <;> rfl
      exact hplain (by simp) (Context.checks_declare hc htame.respects hdefault)
    | some e =>
      cases h
      exact hplain (by simp)
        (Context.checks_declare hc htame.respects e.all_isValueOnly_code)
  | @assign _ name value =>
    cases h
    exact hplain (by simp)
      (Context.checks_assign hplace name htame.respects value.all_isValueOnly_code)
  | @assignAt _ name i value =>
    cases h
    refine hplain (by simp) (Note.checks_values rfl ?_)
    simp [i.all_isValueOnly_code, value.all_isValueOnly_code, Instr.isValueOnly]
  | step => cases hstep
  | @breakLoop _ depth =>
    cases h
    rcases hloop : spot.loop? depth with - | loop
    · rw [hloop] at hplain
      exact hplain (by simp) .nil
    · rw [hloop] at hmarks
      rw [Option.elim_some] at hmarks ⊢
      exact ⟨marks_of_recordsOf hmarks (by simp [Spot.leave]),
        hspot.sound_leave (Spot.mem_loops_of_loop? hloop) (by simp) hmarks⟩
  | continueLoop =>
    cases h
    rcases hloop : spot.loop? 1 with - | loop
    · rw [hloop] at hplain
      exact hplain (by simp) .nil
    · rw [hloop] at hmarks
      rw [Option.elim_some] at hmarks ⊢
      exact ⟨marks_of_recordsOf hmarks (by simp [Spot.leave]),
        hspot.sound_leave (Spot.mem_loops_of_loop? hloop) (by simp) hmarks⟩
  | @giveBack _ value =>
    cases value with
    | none =>
      cases h
      exact ⟨marks_of_recordsOf hmarks (by simp),
        Note.Checks.nil.sound_snoc hmarks (.of_stops trivial rfl rfl)⟩
    | some e =>
      cases h
      have hvalue := Note.checks_values (n := c.note lets) rfl
        (e.all_isValueOnly_lastCode spot.isTail)
      exact ⟨marks_of_recordsOf hmarks (by simp),
        hvalue.sound_snoc hmarks (.of_stops trivial rfl rfl)⟩
  | exit =>
    cases h
    exact hplain (by simp) (.cons trivial rfl .nil)
  | unset => cases htame.keeps
  | uses =>
    cases h
    exact hplain (by simp) .nil
  | eval =>
    cases h
    refine hplain (by simp) (Note.checks_values rfl ?_)
    simp [Expr.all_isValueOnly_code, Instr.isValueOnly]
  | ifElse => cases h
  | whileLoop => cases h
  | function => cases h
  | block => cases h

/-- A condition and the jump for the case that it is false. -/
theorem Context.sound_test {e : Expr} {next : Nat}
    (hmarks : ∀ r ∈ (Recording.line start (c.note lets)
      (e.code ++ [.jumpIfFalse next, .enterScope])).records, Marks r.offset r.note)
    (hbody : Marks (start + Instr.size (e.code ++ [.jumpIfFalse next, .enterScope]))
      (c.enterBlock.note lets))
    (hnext : Marks next (c.note lets)) :
    (Recording.line start (c.note lets) (e.code ++ [.jumpIfFalse next, .enterScope])).Sound
      Marks := by
  have hcode := Note.checks_values (n := c.note lets) rfl e.all_isValueOnly_code
  have hjump : (c.note lets).after (.jumpIfFalse next) = c.note lets := rfl
  have henter : (c.note lets).after .enterScope = c.enterBlock.note lets := rfl
  apply Recording.Sound.line
  rw [Recording.line, hcode.recordsOf_append, List.forall_mem_append] at hmarks
  rw [hcode.recordsOf_append, List.forall_mem_append]
  obtain ⟨hmarks₁, hmarks₂⟩ := hmarks
  refine ⟨hcode.sound hmarks₁ (hmarks₂ _ (List.mem_cons_self ..)), ?_⟩
  rw [recordsOf, recordsOf, recordsOf, hjump] at hmarks₂ ⊢
  rw [List.forall_mem_cons, List.forall_mem_singleton] at hmarks₂ ⊢
  refine ⟨⟨trivial, fun _ ↦ ⟨_, hmarks₂.2, hjump ▸ Note.leads_after _⟩, fun t ht ↦ ?_⟩,
    trivial, fun _ ↦ ⟨_, ?_, henter ▸ Note.leads_after _⟩, fun _ ht ↦ by cases ht⟩
  · cases ht
    exact ⟨_, hnext, hjump ▸ Note.leads_after _⟩
  · rw [Instr.size_append, Instr.size_cons, Instr.size_cons] at hbody
    simpa [Record.next, Nat.add_assoc] using hbody

/-- The end of a block and the jump behind it. -/
theorem Context.sound_skip {inner : Context} {target : Nat}
    (hmarks : ∀ r ∈ (Recording.line start (inner.note lets) [.exitScope, .jump target]).records,
      Marks r.offset r.note)
    (hnames : inner.exitBlock.names = c.names) (hlength : 2 ≤ inner.names.length)
    (htarget : Marks target (c.note lets)) :
    (Recording.line start (inner.note lets) [.exitScope, .jump target]).Sound Marks := by
  have hexit : (inner.note lets).after .exitScope = c.note lets := by
    show Note.mk lets inner.names.tail none = Note.mk lets c.names none
    rw [← inner.names_exitBlock, hnames]
  have hjump : (c.note lets).after (.jump target) = c.note lets := rfl
  apply Recording.Sound.line
  have hchecks : (inner.note lets).Checks [.exitScope] (c.note lets) :=
    hexit ▸ .cons hlength rfl .nil
  refine hchecks.sound_snoc hmarks ⟨trivial, nofun, fun t ht ↦ ?_⟩
  cases ht
  exact ⟨_, htarget, hjump ▸ Note.leads_after _⟩

/-- What is behind the body of a function that does not end with a `return`. -/
theorem Context.sound_closing {head : Head} {body : List Stmt} {q : Nat}
    (hmarks : ∀ r ∈ (Recording.line q (c.note lets) (head.closing body)).records,
      Marks r.offset r.note) :
    (Recording.line q (c.note lets) (head.closing body)).Sound Marks := by
  apply Recording.Sound.line
  rw [Recording.line] at hmarks
  rw [Head.closing] at hmarks ⊢
  split at hmarks
  · rename_i h
    rw [if_pos h]
    simp [recordsOf]
  · rename_i h
    rw [if_neg h]
    cases hreturns : head.returns with
    | void =>
      rw [hreturns] at hmarks
      exact Note.Checks.nil.sound_snoc hmarks (.of_stops trivial rfl rfl)
    | any | typed type =>
      rw [hreturns] at hmarks
      have hnull : (c.note lets).Checks [.pushNull] (c.note lets) := Note.checks_values rfl rfl
      exact hnull.sound_snoc hmarks (.of_stops trivial rfl rfl)

/-- Stepping a variable. It is bound where it is set, since it was read. -/
theorem Context.sound_step {op : BinaryOp} {name : String}
    (hmarks : ∀ r ∈ (Recording.line start (c.note lets) [.get name] ++
      Recording.line (start + Instr.size [.get name]) ((c.note lets).binding name)
        [.pushInt 1, .binary op, .set name]).records, Marks r.offset r.note)
    (hexit : Marks (start + Instr.size [.get name, .pushInt 1, .binary op, .set name])
      (c.note lets)) :
    (Recording.line start (c.note lets) [.get name] ++
      Recording.line (start + Instr.size [.get name]) ((c.note lets).binding name)
        [.pushInt 1, .binary op, .set name]).Sound Marks := by
  rw [Recording.records_append, List.forall_mem_append] at hmarks
  obtain ⟨hmarks₁, hmarks₂⟩ := hmarks
  have hset : ((c.note lets).binding name).after (.set name) = c.note lets :=
    Note.after_set_of_bound rfl
  have hchecks : ((c.note lets).binding name).Checks [.pushInt 1, .binary op, .set name]
      (c.note lets) := by
    refine .cons trivial rfl (.cons trivial rfl (.cons (.inl rfl) rfl ?_))
    show Note.Checks (((c.note lets).binding name).after (.set name)) [] _
    rw [hset]
    exact .nil
  refine .append (.line (Note.Checks.nil.sound_snoc hmarks₁ ⟨trivial, fun _ ↦ ?_, nofun⟩))
    (.line (hchecks.sound hmarks₂ ?_))
  · refine ⟨_, marks_of_recordsOf hmarks₂ (by simp), rfl, rfl, fun x hx ↦ .inl ?_⟩
    cases hx
    rfl
  · rw [Nat.add_assoc, ← Instr.size_append]
    exact hexit

mutual

/-- **The records of a tame statement are right** if what is recorded behind it is. -/
theorem Stmt.Recorded.sound {lets : Option (List String)} {spot : Spot} {c c' : Context} {s : Stmt}
    {start stop : Nat} {R : Recording} (htame : s.Tame lets)
    (hplace : c.place = .top ↔ lets = none) (hspot : spot.Records Marks lets c)
    (hmarks : ∀ r ∈ R.records, Marks r.offset r.note)
    (hexit : (∀ v, s ≠ .giveBack v) → Marks stop (c'.note lets)) :
    s.Recorded lets spot c start stop R c' → Marks start (c.note lets) ∧ R.Sound Marks
  | .flat h hchecked hstep => by
    obtain ⟨hstart, hsound⟩ :=
      Stmt.sound_recordsOf htame hplace hspot h hchecked hstep hmarks hexit
    exact ⟨hstart, .line hsound⟩
  | .step _ => by
    have hsound := Context.sound_step hmarks (hexit (by simp))
    rw [Recording.records_append, List.forall_mem_append] at hmarks
    exact ⟨marks_of_recordsOf hmarks.1 (by simp), hsound⟩
  | @Stmt.Recorded.ifElse _ _ _ c₁ c' _ _ _ _ _ _ _ _ _ _ hp hbody hnext hotherwise => by
    simp only [Recording.records_append, List.forall_mem_append] at hmarks
    obtain ⟨⟨⟨hmarks₁, hmarks₂⟩, hmarks₃⟩, hmarks₄⟩ := hmarks
    obtain ⟨htame₁, htame₂, halternative⟩ := htame.ifElse
    obtain ⟨hext₁, -⟩ := hbody.extends htame₁
    obtain ⟨hext₂, hnames⟩ := hotherwise.extends htame₂
    -- Behind the body the same names are known as before it, so one note serves for both ways to
    -- get there.
    have hback : c₁.exitBlock.names = c.names := hext₁.names_exitBlock
    have hext : c.Extends c₁.exitBlock := .of_names_eq hext₁.place hback
    have hstop : Marks _ (c'.note lets) := hexit (by simp)
    rw [Context.note_congr ((hnames halternative).trans hback)] at hstop
    have hplace' : c₁.exitBlock.place = .top ↔ lets = none := hext.place ▸ hplace
    obtain ⟨hnext', hsound₄⟩ := hotherwise.sound false htame₂ hplace' (hspot.extend hext rfl rfl)
      hmarks₄ fun _ ↦ hexit (by simp)
    have hplace₁ : c.enterBlock.place = .top ↔ lets = none := hplace
    obtain ⟨hp', hsound₂⟩ := hbody.sound false htame₁ hplace₁ hspot.inBlock hmarks₂ fun _ ↦
      marks_of_recordsOf hmarks₃ (by simp)
    have hskip := hnext' rfl
    rw [Context.note_congr hback] at hskip
    have hlength : 2 ≤ c₁.names.length := by
      have := hspot.pos
      rw [hext₁.length, c.names_enterBlock, List.length_cons]
      omega
    have hsound₁ := Context.sound_test hmarks₁ (hp ▸ hp' rfl) hskip
    have hsound₃ := Context.sound_skip hmarks₃ hback hlength hstop
    exact ⟨marks_of_recordsOf hmarks₁ (by simp),
      ((hsound₁.append hsound₂).append hsound₃).append hsound₄⟩
  | @Stmt.Recorded.whileLoop _ _ _ c₁ _ _ _ _ _ _ _ hp hbody hstop => by
    simp only [Recording.records_append, List.forall_mem_append] at hmarks
    obtain ⟨⟨hmarks₁, hmarks₂⟩, hmarks₃⟩ := hmarks
    obtain ⟨hext₁, -⟩ := hbody.extends htame.whileLoop
    have hback : c₁.exitBlock.names = c.names := hext₁.names_exitBlock
    have hdone : Marks _ (c₁.exitBlock.note lets) := hexit (by simp)
    rw [Context.note_congr hback] at hdone
    have hagain : Marks start (c.note lets) := marks_of_recordsOf hmarks₁ (by simp)
    have hplace₁ : c.enterLoop.enterBlock.place = .top ↔ lets = none := hplace
    obtain ⟨hp', hsound₂⟩ := hbody.sound false htame.whileLoop hplace₁ (hspot.inLoop hagain hdone)
      hmarks₂ fun _ ↦ marks_of_recordsOf hmarks₃ (by simp)
    have hlength : 2 ≤ c₁.names.length := by
      have := hspot.pos
      rw [hext₁.length, Context.names_enterBlock, List.length_cons]
      exact Nat.succ_le_succ this
    have hsound₁ := Context.sound_test hmarks₁ (hp ▸ hp' rfl) hdone
    have hsound₃ := Context.sound_skip hmarks₃ hback hlength hagain
    exact ⟨hagain, (hsound₁.append hsound₂).append hsound₃⟩
  | @Stmt.Recorded.function _ _ _ inner head body _ p _ _ _ _ hparams hp hbody hstop => by
    simp only [Recording.records_append, List.forall_mem_append] at hmarks
    obtain ⟨⟨⟨hmarks₁, -⟩, hmarks₂⟩, hmarks₃⟩ := hmarks
    have hbehind : Marks stop (c.note lets) := hexit (by simp)
    -- The body of a function starts anew: it knows its parameters and the names that it declares.
    have hinside : (c.enterFunction head.name (head.returns == .void) head.params).place = .top ↔
        some (Stmt.declaredAll body) = none := ⟨nofun, nofun⟩
    obtain ⟨hp', hsound₂⟩ := hbody.sound false htame.function hinside (.body head c) hmarks₂
      fun hreturns ↦ marks_of_recordsOf hmarks₃ (Head.closing_ne_nil hreturns)
    have hjump : Record.Sound Marks ⟨start, .jump stop, c.note lets⟩ := by
      refine ⟨trivial, nofun, fun t ht ↦ ?_⟩
      cases ht
      exact ⟨_, hbehind, Note.leads_after _⟩
    have hsound₁ : (Recording.line start (c.note lets) [.jump stop]).Sound Marks :=
      .line (Note.Checks.nil.sound_snoc hmarks₁ hjump)
    have hentry : Marks p (Located.note ⟨head, body, p, stop⟩) := by
      have := hp' rfl
      rwa [Context.note, c.names_enterFunction] at this
    have hhead : Recording.Sound Marks ⟨[], [⟨head, body, p, stop⟩]⟩ :=
      ⟨by simp, by simpa using ⟨hentry, hparams⟩⟩
    exact ⟨marks_of_recordsOf hmarks₁ (by simp),
      ((hsound₁.append hhead).append hsound₂).append (Context.sound_closing hmarks₃)⟩
  | @Stmt.Recorded.block _ _ _ c₁ _ _ q _ hbody => by
    simp only [Recording.records_append, List.forall_mem_append] at hmarks
    obtain ⟨⟨hmarks₁, hmarks₂⟩, hmarks₃⟩ := hmarks
    obtain ⟨hext₁, -⟩ := hbody.extends htame.block
    have hexit' : Marks (q + Instr.size [.exitScope]) (c₁.exitBlock.note lets) := hexit (by simp)
    have hplace₁ : c.enterBlock.place = .top ↔ lets = none := hplace
    obtain ⟨hp', hsound₂⟩ := hbody.sound false htame.block hplace₁ hspot.inBlock hmarks₂ fun _ ↦
      marks_of_recordsOf hmarks₃ (by simp)
    have hlength : 2 ≤ c₁.names.length := by
      have := hspot.pos
      rw [hext₁.length, c.names_enterBlock, List.length_cons]
      omega
    have henter : (c.note lets).Checks [.enterScope] (c.enterBlock.note lets) :=
      .cons trivial rfl .nil
    have hleave : (c₁.note lets).Checks [.exitScope] (c₁.exitBlock.note lets) := by
      refine .cons hlength rfl ?_
      rw [Context.note, Context.note, c₁.names_exitBlock]
      exact .nil
    exact ⟨marks_of_recordsOf hmarks₁ (by simp), ((Recording.Sound.line
      (henter.sound hmarks₁ (hp' rfl))).append hsound₂).append
        (.line (hleave.sound hmarks₃ hexit'))⟩

/-- **What is recorded in the code of tame statements is right.** As in a listing, nothing need be
recorded behind statements that end with a `return`. -/
theorem Stmt.RecordedAll.sound {lets : Option (List String)} {spot : Spot} {c c' : Context}
    {ss : List Stmt} {start stop : Nat} {R : Recording} (before : Bool)
    (htame : Stmt.TameAll lets ss) (hplace : c.place = .top ↔ lets = none)
    (hspot : spot.Records Marks lets c) (hmarks : ∀ r ∈ R.records, Marks r.offset r.note)
    (hexit : ss.foldl Stmt.endsInReturn before = false → Marks stop (c'.note lets)) :
    Stmt.RecordedAll lets spot c ss start stop R c' →
      (before = false → Marks start (c.note lets)) ∧ R.Sound Marks
  | .nil => ⟨hexit, by simp [Recording.empty], by simp [Recording.empty]⟩
  | @Stmt.RecordedAll.cons _ _ _ c₁ _ s ss _ mid _ R₁ R₂ h hs => by
    rw [Recording.records_append, List.forall_mem_append] at hmarks
    obtain ⟨htame₁, htame₂⟩ := htame.cons
    obtain ⟨loops, place, hvalid⟩ := htame₁.valid
    obtain ⟨hext, -⟩ := h.checked.extends hvalid htame₁.keeps
    have hafter : (spot.after s).blocks.length = spot.blocks.length ∧
        (spot.after s).loops = spot.loops := by
      cases s with
      | declare isConst type name init => exact ⟨List.length_modifyHead .., rfl⟩
      | _ => exact ⟨rfl, rfl⟩
    obtain ⟨hmid, hsound₂⟩ := hs.sound (Stmt.endsInReturn before s) htame₂ (hext.place ▸ hplace)
      (hspot.extend hext hafter.1 hafter.2) hmarks.2 hexit
    by_cases huses : ∃ target, s = .uses target
    · -- Nothing is written for it, so what was last before it still is.
      obtain ⟨target, rfl⟩ := huses
      cases h with
      | flat h hchecked _ =>
        cases h
        cases hchecked
        exact ⟨hmid, Recording.Sound.append ⟨by simp [Recording.line, recordsOf],
          by simp [Recording.line]⟩ hsound₂⟩
    · have hends : (∀ v, s ≠ .giveBack v) → Stmt.endsInReturn before s = false := by
        intro hreturn
        cases s with
        | uses target => exact absurd ⟨target, rfl⟩ huses
        | giveBack value => exact absurd rfl (hreturn value)
        | _ => rfl
      obtain ⟨hstart, hsound₁⟩ := h.sound htame₁ hplace hspot hmarks.1 fun hreturn ↦
        hmid (hends hreturn)
      exact ⟨fun _ ↦ hstart, hsound₁.append hsound₂⟩

end

end Scriptlet
