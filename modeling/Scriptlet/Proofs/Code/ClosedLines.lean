import Scriptlet.Proofs.Code.Checks
import Scriptlet.Proofs.Tree.Closed

/-!
# Lines of closed functions

What is said of the bodies of functions as trees is found again in their code. In the body of a
**closed** function every line uses only variables of the blocks that are noted beside it, and
undeclares none. A last call stands in the body of a function that agrees with it, and the line
behind it is a `return`. A `return` without a value stands in a function that gives back nothing.

Outside functions nothing is asked for.
-/

namespace Scriptlet

/-! ### Instructions -/

/-- An instruction uses no variables but some, and undeclares none. -/
def Instr.UsesOnly (names : List String) : Instr → Prop
  | get name | set name | setIndex name => name ∈ names
  | unset _ => False
  | _ => True

/-- More names may be used. -/
theorem Instr.UsesOnly.mono {names names' : List String} {i : Instr} (h : i.UsesOnly names)
    (hsub : names ⊆ names') : i.UsesOnly names' := by
  cases i with
  | get name | set name | setIndex name => exact hsub h
  | _ => exact h

/-- The instruction has a value to do with: it reads no variables but some, leaves no block, and is
neither a `return` nor a last call. -/
structure Instr.Reads (names : List String) (i : Instr) : Prop where
  usesOnly : i.UsesOnly names
  ne_exitScope : i ≠ .exitScope
  leaves : i.leaves = false

theorem Instr.Reads.mono {names names' : List String} {i : Instr} (h : i.Reads names)
    (hsub : names ⊆ names') : i.Reads names' :=
  ⟨h.usesOnly.mono hsub, h.ne_exitScope, h.leaves⟩

mutual

/-- The instructions of an expression read its variables only. -/
theorem Expr.reads_code : ∀ e : Expr, ∀ i ∈ e.code, i.Reads e.variables
  | .int _ | .float _ | .str _ | .bool _ | .null => by
    simp only [Expr.code, List.forall_mem_singleton]
    exact ⟨trivial, nofun, rfl⟩
  | .var name => by
    simp only [Expr.code, List.forall_mem_singleton]
    exact ⟨List.mem_singleton.2 rfl, nofun, rfl⟩
  | .call _ args => by
    simp only [Expr.code, List.forall_mem_append, List.forall_mem_singleton]
    exact ⟨Expr.reads_codeAll args, trivial, nofun, rfl⟩
  | .list items => by
    simp only [Expr.code, List.forall_mem_append, List.forall_mem_singleton]
    exact ⟨Expr.reads_codeAll items, trivial, nofun, rfl⟩
  | .unary _ e => by
    simp only [Expr.code, List.forall_mem_append, List.forall_mem_singleton]
    exact ⟨e.reads_code, trivial, nofun, rfl⟩
  | .binary _ left right => by
    simp only [Expr.code, List.forall_mem_append, List.forall_mem_singleton]
    exact ⟨⟨fun i hi ↦ (left.reads_code i hi).mono (by simp [Expr.variables]),
      fun i hi ↦ (right.reads_code i hi).mono (by simp [Expr.variables])⟩, trivial, nofun, rfl⟩
  | .index container j => by
    simp only [Expr.code, List.forall_mem_append, List.forall_mem_singleton]
    exact ⟨⟨fun i hi ↦ (container.reads_code i hi).mono (by simp [Expr.variables]),
      fun i hi ↦ (j.reads_code i hi).mono (by simp [Expr.variables])⟩, trivial, nofun, rfl⟩
  | .slice container start stop => by
    simp only [Expr.code, List.forall_mem_append, List.forall_mem_singleton]
    exact ⟨⟨⟨fun i hi ↦ (container.reads_code i hi).mono (by simp [Expr.variables]),
      fun i hi ↦ (start.reads_code i hi).mono (by simp [Expr.variables])⟩,
      fun i hi ↦ (stop.reads_code i hi).mono (by simp [Expr.variables])⟩, trivial, nofun, rfl⟩

/-- The code of some expressions reads their variables and nothing else. -/
theorem Expr.reads_codeAll : ∀ es : List Expr, ∀ i ∈ Expr.codeAll es, i.Reads (Expr.variablesAll es)
  | [] => nofun
  | e :: es => by
    simp only [Expr.codeAll, List.forall_mem_append]
    exact ⟨fun i hi ↦ (e.reads_code i hi).mono (by simp [Expr.variablesAll]),
      fun i hi ↦ (Expr.reads_codeAll es i hi).mono (by simp [Expr.variablesAll])⟩

end

/-! ### Lines in a row -/

/-- Lines in a row belong to one body, and each has one of the instructions. -/
theorem owner_of_mem_entriesOf {offset : Nat} {p : Point} {is : List Instr} {e : Entry}
    (he : e ∈ entriesOf offset p is) : e.point.owner = p.owner ∧ e.instr ∈ is := by
  induction is generalizing offset p with
  | nil => cases he
  | cons i is ih =>
    rcases List.mem_cons.1 he with rfl | he
    · exact ⟨rfl, List.mem_cons_self ..⟩
    · exact ⟨(ih he).1, List.mem_cons_of_mem _ (ih he).2⟩

/-- No names are lost as long as no block is left. -/
theorem Point.flatten_subset_after (p : Point) {i : Instr} (hi : i ≠ .exitScope) :
    p.blocks.flatten ⊆ (p.after i).blocks.flatten := by
  cases i with
  | exitScope => exact absurd rfl hi
  | decl name type =>
    rw [Point.after, Point.blocksAfter]
    cases p.blocks with
    | nil => exact List.Subset.refl _
    | cons block blocks => exact List.subset_cons_self ..
  | _ => exact List.Subset.refl _

/-- Blocks are opened but not closed in between, so the names at the start are there at each
line. -/
theorem usesOnly_of_mem_entriesOf {offset : Nat} {p : Point} {is : List Instr}
    (his : ∀ i ∈ is, i.UsesOnly p.blocks.flatten ∧ i ≠ .exitScope) {e : Entry}
    (he : e ∈ entriesOf offset p is) : e.instr.UsesOnly e.point.blocks.flatten := by
  induction is generalizing offset p with
  | nil => cases he
  | cons i is ih =>
    rw [List.forall_mem_cons] at his
    rcases List.mem_cons.1 he with rfl | he
    · exact his.1.1
    · refine ih (fun j hj ↦ ⟨?_, (his.2 j hj).2⟩) he
      exact (his.2 j hj).1.mono (p.flatten_subset_after his.1.2)

/-- What is asked of a line, given the lines around it and which last calls agree. -/
structure Entry.Sealed (Agrees : Head → String → Prop) (es : List Entry) (e : Entry) : Prop where
  usesOnly : e.point.owner.isSome → e.instr.UsesOnly e.point.blocks.flatten
  last : ∀ name count, e.instr = .tailCall name count →
    ∃ head, e.point.owner = some head ∧ Agrees head name ∧
      ∃ e' ∈ es, e'.offset = e.next ∧ e'.instr = .ret
  bare : e.instr = .retVoid → ∀ head, e.point.owner = some head → head.returns = .void

variable {Agrees : Head → String → Prop}

/-- A line that is sealed in some lines is sealed in more. -/
theorem Entry.Sealed.mono {es es' : List Entry} {e : Entry} (h : e.Sealed Agrees es)
    (hsub : es ⊆ es') : e.Sealed Agrees es' := by
  refine ⟨h.usesOnly, fun name count hi ↦ ?_, h.bare⟩
  obtain ⟨head, howner, hagrees, e', he', hret⟩ := h.last name count hi
  exact ⟨head, howner, hagrees, e', hsub he', hret⟩

/-- All lines of a listing are as they should be. -/
def Listing.Sealed (Agrees : Head → String → Prop) (L : Listing) : Prop :=
  ∀ e ∈ L.entries, e.Sealed Agrees L.entries

namespace Listing.Sealed

variable {L L' : Listing}

/-- Sealed listings one after the other are sealed together. -/
theorem append (h : L.Sealed Agrees) (h' : L'.Sealed Agrees) : (L ++ L').Sealed Agrees := by
  refine List.forall_mem_append.2 ⟨fun e he ↦ ?_, fun e he ↦ ?_⟩
  · exact (h e he).mono (List.subset_append_left _ _)
  · exact (h' e he).mono (List.subset_append_right _ _)

/-- Instructions in a row that leave the body with a value only. -/
theorem line {spot : Spot} {offset : Nat} {is : List Instr}
    (his : spot.owner.isSome →
      ∀ e ∈ entriesOf offset spot.point is, e.instr.UsesOnly e.point.blocks.flatten)
    (hleaves : ∀ i ∈ is, i.leaves = true → i = .ret) : (spot.line offset is).Sealed Agrees := by
  intro e he
  obtain ⟨howner, hmem⟩ := owner_of_mem_entriesOf he
  refine ⟨fun hsome ↦ his ?_ e he, fun name count hi ↦ ?_, fun hi ↦ ?_⟩
  · rw [howner] at hsome
    exact hsome
  · have := hleaves _ hmem (hi ▸ rfl)
    rw [hi] at this
    cases this
  · have := hleaves _ hmem (hi ▸ rfl)
    rw [hi] at this
    cases this

/-- Instructions in a row that use no variables. -/
theorem line_of_none {spot : Spot} {offset : Nat} {is : List Instr}
    (his : ∀ i ∈ is, i.UsesOnly [] ∧ (i.leaves = true → i = .ret)) :
    (spot.line offset is).Sealed Agrees :=
  line (fun _ _ he ↦ (his _ (owner_of_mem_entriesOf he).2).1.mono (List.nil_subset _))
    fun i hi ↦ (his i hi).2

/-- Instructions in a row that work with values, and one behind them. -/
theorem line_of_names {spot : Spot} {offset : Nat} {is : List Instr} {last : Instr}
    {names : List String} (his : ∀ i ∈ is, i.Reads names) (hlast : last.UsesOnly names)
    (hexit : last ≠ .exitScope) (hleaves : last.leaves = true → last = .ret)
    (hnames : spot.owner.isSome → names ⊆ spot.blocks.flatten) :
    (spot.line offset (is ++ [last])).Sealed Agrees := by
  refine line (fun hsome e he ↦ usesOnly_of_mem_entriesOf ?_ he) ?_ <;>
    rw [List.forall_mem_append, List.forall_mem_singleton]
  · exact ⟨fun i hi ↦ ⟨((his i hi).mono (hnames hsome)).usesOnly, (his i hi).ne_exitScope⟩,
      hlast.mono (hnames hsome), hexit⟩
  · exact ⟨fun i hi hc ↦ absurd ((his i hi).leaves.symm.trans hc) nofun, hleaves⟩

/-- Instructions in a row that work with values. -/
theorem line_of_reads {spot : Spot} {offset : Nat} {is : List Instr} {last : Instr}
    {names : List String} (his : ∀ i ∈ is, i.Reads names) (hlast : last.Reads names)
    (hnames : spot.owner.isSome → names ⊆ spot.blocks.flatten) :
    (spot.line offset (is ++ [last])).Sealed Agrees := by
  refine line_of_names his hlast.usesOnly hlast.ne_exitScope (fun h ↦ ?_) hnames
  rw [hlast.leaves] at h
  cases h

end Listing.Sealed

/-! ### Statements -/

/-- A function is closed, and its last calls agree. -/
def Seals (Agrees : Head → String → Prop) (f : Head × List Stmt) : Prop :=
  Stmt.closedAll [f.1.params] f.2 = true ∧
    (f.1.isTail = true → ∀ name ∈ Stmt.lastCallsAll f.2, Agrees f.1 name)

/-- Where the statement stands. -/
def Spot.place (spot : Spot) : Place :=
  match spot.owner with
  | none => .top
  | some head => .inside (head.returns == .void)

/-- A statement is valid; in the body of a function it is closed, and its last calls agree. The
functions in it are closed too, and so do their last calls. -/
structure Stmt.Sealed (Agrees : Head → String → Prop) (spot : Spot) (s : Stmt) : Prop where
  valid : ∃ loops, s.valid loops spot.place = true
  closed : spot.owner.isSome → s.closed spot.blocks = true
  last : ∀ head, spot.owner = some head → head.isTail = true → ∀ name ∈ s.lastCalls,
    Agrees head name
  functions : ∀ f ∈ s.functions, Seals Agrees f

/-- The same for some statements. -/
structure Stmt.SealedAll (Agrees : Head → String → Prop) (spot : Spot) (ss : List Stmt) : Prop where
  valid : ∃ loops, Stmt.validAll loops spot.place ss = true
  closed : spot.owner.isSome → Stmt.closedAll spot.blocks ss = true
  last : ∀ head, spot.owner = some head → head.isTail = true → ∀ name ∈ Stmt.lastCallsAll ss,
    Agrees head name
  functions : ∀ f ∈ Stmt.functionsAll ss, Seals Agrees f

namespace Stmt

variable {spot : Spot} {s : Stmt} {ss body otherwise : List Stmt} {c : Expr}

/-- The first statement is sealed where it stands, and the others behind it. -/
theorem SealedAll.cons (h : SealedAll Agrees spot (s :: ss)) :
    s.Sealed Agrees spot ∧ SealedAll Agrees (spot.after s) ss := by
  obtain ⟨⟨loops, hvalid⟩, hclosed, hlast, hfunctions⟩ := h
  rw [validAll, Bool.and_eq_true] at hvalid
  simp only [closedAll, Bool.and_eq_true] at hclosed
  simp only [lastCallsAll, List.forall_mem_append] at hlast
  rw [functionsAll, List.forall_mem_append] at hfunctions
  have howner : (spot.after s).owner = spot.owner := by cases s <;> rfl
  have hplace : (spot.after s).place = spot.place := by cases s <;> rfl
  have hblocks : (spot.after s).blocks = s.blocksAfter spot.blocks := by cases s <;> rfl
  refine ⟨⟨⟨loops, hvalid.1⟩, fun ho ↦ (hclosed ho).1, fun head ho ht ↦ (hlast head ho ht).1,
    hfunctions.1⟩, ⟨loops, hplace ▸ hvalid.2⟩, fun ho ↦ ?_,
    fun head ho ht ↦ (hlast head (howner ▸ ho) ht).2, hfunctions.2⟩
  rw [howner] at ho
  rw [hblocks]
  exact (hclosed ho).2

/-- Both branches of a sealed condition are sealed. -/
theorem Sealed.ifElse (h : Sealed Agrees spot (.ifElse c body otherwise)) :
    SealedAll Agrees spot.inBlock body ∧ SealedAll Agrees spot otherwise := by
  obtain ⟨⟨loops, hvalid⟩, hclosed, hlast, hfunctions⟩ := h
  rw [Stmt.valid, Bool.and_eq_true, Bool.and_eq_true] at hvalid
  simp only [Stmt.closed, Bool.and_eq_true] at hclosed
  simp only [lastCalls, List.forall_mem_append] at hlast
  rw [Stmt.functions, List.forall_mem_append] at hfunctions
  exact ⟨⟨⟨loops, hvalid.1.1⟩, fun ho ↦ (hclosed ho).2.1, fun head ho ht ↦ (hlast head ho ht).1,
      hfunctions.1⟩,
    ⟨loops, hvalid.1.2⟩, fun ho ↦ (hclosed ho).2.2, fun head ho ht ↦ (hlast head ho ht).2,
      hfunctions.2⟩

/-- The body of a sealed loop is sealed, wherever the ends of the loop are. -/
theorem Sealed.whileLoop (h : Sealed Agrees spot (.whileLoop c body)) (again done : Nat) :
    SealedAll Agrees (spot.inLoop again done).inBlock body := by
  obtain ⟨⟨loops, hvalid⟩, hclosed, hlast, hfunctions⟩ := h
  simp only [Stmt.closed, Bool.and_eq_true] at hclosed
  exact ⟨⟨loops + 1, hvalid⟩, fun ho ↦ (hclosed ho).2, hlast, hfunctions⟩

theorem Sealed.block (h : Sealed Agrees spot (.block body)) :
    SealedAll Agrees spot.inBlock body := by
  obtain ⟨⟨loops, hvalid⟩, hclosed, hlast, hfunctions⟩ := h
  simp only [Stmt.closed, Bool.and_eq_true] at hclosed
  exact ⟨⟨loops, hvalid⟩, fun ho ↦ (hclosed ho).2, hlast, hfunctions⟩

/-- The body of a function is sealed on its own, with nothing but its parameters. -/
theorem Sealed.function {head : Head} (h : Sealed Agrees spot (.function head body)) :
    SealedAll Agrees (.body head) body := by
  obtain ⟨⟨loops, hvalid⟩, -, -, hfunctions⟩ := h
  rw [Stmt.valid, Bool.and_eq_true] at hvalid
  rw [Stmt.functions, List.forall_mem_cons] at hfunctions
  obtain ⟨⟨hclosed, hlast⟩, hinner⟩ := hfunctions
  refine ⟨⟨0, hvalid.1⟩, fun _ ↦ hclosed, fun head' ho ↦ ?_, hinner⟩
  cases ho
  exact hlast

/-- In the body of a function, a statement uses variables of the open blocks only. -/
theorem Sealed.variables_subset (h : Sealed Agrees spot s) (howner : spot.owner.isSome) :
    s.variables ⊆ spot.blocks.flatten := by
  have hclosed := h.closed howner
  unfold Stmt.closed at hclosed
  rw [Bool.and_eq_true, List.all_eq_true] at hclosed
  exact fun name hname ↦ by simpa using hclosed.1 name hname

end Stmt

/-- The instructions of a value that is given back are those of the value, unless they make a last
call of it. -/
theorem Expr.lastCode_eq (e : Expr) (isTail : Bool) :
    e.lastCode isTail = e.code ∨ isTail = true ∧ ∃ name args, e = .call name args ∧
      e.lastCode isTail = Expr.codeAll args ++ [.tailCall name args.length] := by
  cases isTail with
  | false => exact .inl (by cases e <;> rfl)
  | true =>
    cases e with
    | call name args => exact .inr ⟨rfl, name, args, rfl, rfl⟩
    | _ => exact .inl rfl

/-- Last calls take the place of a function only inside one. -/
theorem Spot.exists_owner_of_isTail {spot : Spot} (h : spot.isTail = true) :
    ∃ head, spot.owner = some head ∧ head.isTail = true := by
  rw [Spot.isTail] at h
  cases howner : spot.owner with
  | none =>
    rw [howner] at h
    cases h
  | some head =>
    rw [howner] at h
    exact ⟨head, rfl, h⟩

/-- A last call with the `return` behind it. -/
theorem Listing.Sealed.lastCall {spot : Spot} {head : Head} {name : String} {args : List Expr}
    (howner : spot.owner = some head) (hagrees : Agrees head name)
    (hnames : Expr.variablesAll args ⊆ spot.blocks.flatten) (offset : Nat) :
    (spot.line offset (Expr.codeAll args ++ [.tailCall name args.length, .ret])).Sealed Agrees := by
  intro e he
  obtain ⟨howner', hmem⟩ := owner_of_mem_entriesOf he
  refine ⟨fun _ ↦ usesOnly_of_mem_entriesOf ?_ he, fun name' count hi ↦ ?_, fun hi ↦ ?_⟩
  · simp only [List.forall_mem_append, List.forall_mem_cons]
    exact ⟨fun i hi ↦ ⟨((Expr.reads_codeAll args i hi).mono hnames).usesOnly,
      (Expr.reads_codeAll args i hi).ne_exitScope⟩, ⟨trivial, nofun⟩, ⟨trivial, nofun⟩, nofun⟩
  -- The last call is the one that was put there; the arguments have none.
  · rw [Spot.line, entriesOf_append] at he ⊢
    rcases List.mem_append.1 he with he | he
    · have hleaves := (Expr.reads_codeAll args _ (owner_of_mem_entriesOf he).2).leaves
      rw [hi] at hleaves
      cases hleaves
    · simp only [entriesOf, List.mem_cons, List.not_mem_nil, or_false] at he
      rcases he with rfl | rfl
      · cases hi
        exact ⟨head, howner'.trans howner, hagrees, _,
          List.mem_append_right _ (List.mem_cons_of_mem _ (List.mem_singleton.2 rfl)), rfl, rfl⟩
      · cases hi
  · rw [hi] at hmem
    rcases List.mem_append.1 hmem with hmem | hmem
    · exact absurd (Expr.reads_codeAll args _ hmem).leaves nofun
    · simp at hmem

/-- In a function, a `return` stands without a value just if the function gives back nothing. -/
theorem Spot.returns_eq_void_iff {spot : Spot} {head : Head} {value : Option Expr} {loops : Nat}
    (howner : spot.owner = some head)
    (hvalid : (Stmt.giveBack value).valid loops spot.place = true) :
    head.returns = .void ↔ value = none := by
  rw [Stmt.valid, Spot.place, howner] at hvalid
  by_cases hvoid : head.returns = .void
  · have hbare : value.isNone = true := by simpa [hvoid, Place.allows] using hvalid
    simpa [hvoid] using hbare
  · have hbare : value.isNone = false := by
      simpa [beq_false_of_ne hvoid, Place.allows] using hvalid
    cases value with
    | none => cases hbare
    | some e => simp [hvoid]

/-- A bare `return` in a function that gives back nothing. -/
theorem Listing.Sealed.bare {spot : Spot} (offset : Nat)
    (hvoid : ∀ head, spot.owner = some head → head.returns = .void) :
    (spot.line offset [.retVoid]).Sealed Agrees := by
  intro e he
  obtain rfl := List.mem_singleton.1 he
  exact ⟨fun _ ↦ trivial, nofun, fun _ ↦ hvoid⟩

/-- The code of a statement that has no parts but expressions. -/
theorem Stmt.Sealed.line {spot : Spot} {s : Stmt} {is : List Instr} (h : s.Sealed Agrees spot)
    (hflat : s.flat? spot = some is) (offset : Nat) : (spot.line offset is).Sealed Agrees := by
  have hleave (depth : Nat) (target : Loop → Nat) :
      (spot.line offset ((spot.loop? depth).elim [] fun loop ↦
        spot.leave loop (target loop))).Sealed Agrees := by
    refine .line_of_none fun i hi ↦ ?_
    rcases hloop : spot.loop? depth with - | loop <;> rw [hloop] at hi
    · cases hi
    · rcases List.mem_append.1 hi with hi | hi
      · rw [List.eq_of_mem_replicate hi]
        exact ⟨trivial, fun hi ↦ by cases hi⟩
      · rw [List.mem_singleton.1 hi]
        exact ⟨trivial, fun hi ↦ by cases hi⟩
  have hnames := h.variables_subset
  -- Most statements compute values and then use one name; a `return`, a `del` and a jump out of a
  -- loop do something else.
  cases s with
  | declare isConst type name init =>
    cases init with
    | none =>
      cases hflat
      cases type <;> exact .line_of_none (by simp [Tag.pushDefault, Instr.UsesOnly, Instr.leaves])
    | some e =>
      cases hflat
      exact .line_of_reads e.reads_code ⟨trivial, by simp, rfl⟩ hnames
  | assign name e =>
    cases hflat
    exact .line_of_reads (fun i hi ↦ (e.reads_code i hi).mono (List.subset_cons_self ..))
      ⟨List.mem_cons_self .., by simp, rfl⟩ hnames
  | assignAt name j e =>
    cases hflat
    refine .line_of_reads (List.forall_mem_append.2 ⟨fun i hi ↦ (j.reads_code i hi).mono ?_,
      fun i hi ↦ (e.reads_code i hi).mono ?_⟩) ⟨List.mem_cons_self .., by simp, rfl⟩ hnames
    · exact List.subset_cons_of_subset _ (List.subset_append_left ..)
    · exact List.subset_cons_of_subset _ (List.subset_append_right ..)
  | step op name =>
    cases hflat
    have hreads : ∀ i ∈ [.get name, .pushInt 1, Instr.binary op], i.Reads [name] := by
      simp only [List.forall_mem_cons, List.not_mem_nil, false_implies, implies_true, and_true]
      exact ⟨⟨List.mem_singleton.2 rfl, by simp, rfl⟩, ⟨trivial, by simp, rfl⟩,
        ⟨trivial, by simp, rfl⟩⟩
    exact .line_of_reads hreads ⟨List.mem_singleton.2 rfl, by simp, rfl⟩ hnames
  | breakLoop depth =>
    cases hflat
    exact hleave depth Loop.done
  | continueLoop =>
    cases hflat
    exact hleave 1 Loop.again
  | giveBack value =>
    cases value with
    | none =>
      cases hflat
      obtain ⟨loops, hvalid⟩ := h.valid
      exact .bare offset fun head howner ↦ (spot.returns_eq_void_iff howner hvalid).2 rfl
    | some e =>
      have hcode : (spot.line offset (e.code ++ [.ret])).Sealed Agrees :=
        .line_of_names e.reads_code trivial (by simp) (fun _ ↦ rfl) hnames
      cases hflat
      -- A value is given back by a `return` or, if it is a call, by a last call.
      rcases e.lastCode_eq spot.isTail with heq | ⟨htail, name, args, rfl, heq⟩
      · rwa [heq]
      · obtain ⟨head, howner, hisTail⟩ := spot.exists_owner_of_isTail htail
        rw [heq, List.append_assoc]
        exact .lastCall howner (h.last head howner hisTail name (List.mem_singleton.2 rfl))
          (hnames (by rw [howner]; rfl)) offset
  | exit =>
    cases hflat
    exact .line_of_none (by simp [Instr.UsesOnly, Instr.leaves])
  | unset name =>
    cases hflat
    refine .line (fun howner ↦ ?_) (by simp [Instr.leaves])
    have hclosed := h.closed howner
    simp [Stmt.closed] at hclosed
  | uses names =>
    cases hflat
    exact .line_of_none (by simp)
  | eval e =>
    cases hflat
    exact .line_of_reads e.reads_code ⟨trivial, by simp, rfl⟩ hnames
  | ifElse | whileLoop | function | block => cases hflat

/-- The test of a condition or a loop. -/
theorem Listing.Sealed.test {spot : Spot} {c : Expr} {offset target : Nat}
    (hnames : spot.owner.isSome → c.variables ⊆ spot.blocks.flatten) :
    (spot.line offset (c.code ++ [.jumpIfFalse target, .enterScope])).Sealed Agrees := by
  have hreads : ∀ i ∈ c.code ++ [.jumpIfFalse target], i.Reads c.variables :=
    List.forall_mem_append.2 ⟨c.reads_code, List.forall_mem_singleton.2 ⟨trivial, nofun, rfl⟩⟩
  rw [List.append_cons]
  exact .line_of_reads hreads ⟨trivial, by simp, rfl⟩ hnames

/-- The end of the body of a function. -/
theorem Listing.Sealed.closing (offset : Nat) (head : Head) (body : List Stmt) :
    (((Spot.body head).afterAll body).line offset (head.closing body)).Sealed Agrees := by
  rw [Head.closing]
  split
  · exact .line_of_none (by simp)
  · split
    · rename_i hvoid
      refine .bare offset fun head' howner ↦ ?_
      rw [((Spot.body head).tail_blocks_afterAll body).2.2] at howner
      cases howner
      exact hvoid
    · exact .line_of_none (by simp [Instr.UsesOnly, Instr.leaves])

theorem Listing.Sealed.of_functions (fs : List Located) : Listing.Sealed Agrees ⟨[], fs⟩ :=
  nofun

mutual

/-- The lines of a sealed statement are sealed. -/
theorem Stmt.Listed.sealed {spot : Spot} {s : Stmt} {start stop : Nat} {L : Listing}
    (hs : s.Sealed Agrees spot) : s.Listed spot start stop L → L.Sealed Agrees
  | .flat h => hs.line h start
  | .ifElse _ hbody _ hotherwise =>
    (((Listing.Sealed.test hs.variables_subset).append (hbody.sealed hs.ifElse.1)).append
      (.line_of_none (by simp [Instr.UsesOnly, Instr.leaves]))).append
        (hotherwise.sealed hs.ifElse.2)
  | .whileLoop _ hbody _ =>
    ((Listing.Sealed.test hs.variables_subset).append (hbody.sealed (hs.whileLoop _ _))).append
      (.line_of_none (by simp [Instr.UsesOnly, Instr.leaves]))
  | .function _ hbody _ =>
    (((Listing.Sealed.line_of_none (by simp [Instr.UsesOnly, Instr.leaves])).append
      (.of_functions _)).append (hbody.sealed hs.function)).append (.closing _ _ _)
  | .block hbody =>
    ((Listing.Sealed.line_of_none (by simp [Instr.UsesOnly, Instr.leaves])).append
      (hbody.sealed hs.block)).append (.line_of_none (by simp [Instr.UsesOnly, Instr.leaves]))

/-- **The lines of closed functions are as they should be.** -/
theorem Stmt.ListedAll.sealed {spot : Spot} {ss : List Stmt} {start stop : Nat} {L : Listing}
    (hss : Stmt.SealedAll Agrees spot ss) : Stmt.ListedAll spot ss start stop L → L.Sealed Agrees
  | .nil => .of_functions _
  | .cons h hs => (h.sealed hss.cons.1).append (hs.sealed hss.cons.2)

end

/-- A program of closed functions whose last calls agree. -/
theorem Program.sealedAll {p : Program} (hvalid : Stmt.validAll 0 .top p = true)
    (hclosed : p.Closed) (hlast : p.LastCallsAgree) :
    Stmt.SealedAll (fun head name ↦ head.AgreesWith (Stmt.functionsAll p) name) .top p :=
  ⟨⟨0, hvalid⟩, nofun, nofun, fun f hf ↦ ⟨hclosed f hf, hlast f hf⟩⟩

end Scriptlet
