import Scriptlet.Proofs.Tree.Unambiguous

/-!
# Programs without modifiers

The modifiers `const`, `static` and `inline` and the statement `import` are for those who read a
program, and for the checks made while it is read. Here they are taken out, of tokens and of trees.

A program that is accepted is accepted without them, as the same tree but for them. That `static`,
`inline` and `import` are not missed is plain. A declaration without `const` declares a variable, so
**what is known differs** from then on: but a variable is allowed everything that a constant is.
What is known without modifiers is what was known with them, with all names bound as variables.
-/

namespace Scriptlet

open Reader Tokens

/-! ### Kinds -/

/-- The keyword is a modifier, or that of a statement without code. -/
def Kind.isModifier : Kind → Bool
  | .keyword .const | .keyword .static | .keyword .inline | .keyword .import_ => true
  | _ => false

/-- Kinds but the modifiers `const`, `static` and `inline` and the statements `import`. -/
def withoutModifiers : List Kind → List Kind
  | .keyword .const :: ks | .keyword .static :: ks | .keyword .inline :: ks => withoutModifiers ks
  | .keyword .import_ :: _ :: .symbol .semicolon :: ks => withoutModifiers ks
  | k :: ks => k :: withoutModifiers ks
  | [] => []

section

variable {k : Kind} {ks ks' : List Kind}

theorem withoutModifiers_cons (hk : k.isModifier = false) :
    withoutModifiers (k :: ks) = k :: withoutModifiers ks := by
  cases k with
  | keyword w => cases w <;> first | rfl | cases hk
  | _ => rfl

/-- Where there is no modifier all stay. -/
theorem withoutModifiers_append_of_forall (h : ∀ k ∈ ks, k.isModifier = false) :
    withoutModifiers (ks ++ ks') = ks ++ withoutModifiers ks' := by
  induction ks with
  | nil => rfl
  | cons k ks ih =>
    rw [List.forall_mem_cons] at h
    rw [List.cons_append, withoutModifiers_cons h.1, ih h.2, List.cons_append]

@[simp]
theorem withoutModifiers_optional_const (b : Bool) :
    withoutModifiers (Keyword.optional .const b ++ ks) = withoutModifiers ks := by
  cases b <;> rfl

@[simp]
theorem withoutModifiers_optional_static (b : Bool) :
    withoutModifiers (Keyword.optional .static b ++ ks) = withoutModifiers ks := by
  cases b <;> rfl

@[simp]
theorem withoutModifiers_optional_inline (b : Bool) :
    withoutModifiers (Keyword.optional .inline b ++ ks) = withoutModifiers ks := by
  cases b <;> rfl

/-- The keyword `tail` stays: it matters to the code. -/
@[simp]
theorem withoutModifiers_optional_tail (b : Bool) :
    withoutModifiers (Keyword.optional .tail b ++ ks) =
      Keyword.optional .tail b ++ withoutModifiers ks := by
  cases b <;> rfl

/-- There are no modifiers inside an expression. -/
theorem Phrase.Spelled.withoutModifiers_append {p : Phrase} (h : p.Spelled ks) :
    withoutModifiers (ks ++ ks') = ks ++ withoutModifiers ks' := by
  refine withoutModifiers_append_of_forall fun k hk ↦ ?_
  have hinner : k.isInner = true := List.all_eq_true.1 h.all_isInner k hk
  cases k with
  | keyword w => cases w <;> first | rfl | cases hinner
  | _ => rfl

/-- Types hold no modifier. -/
theorem Tag.Spelled.withoutModifiers_append {type : Tag} (h : type.Spelled ks) :
    withoutModifiers (ks ++ ks') = ks ++ withoutModifiers ks' := by
  cases h with
  | omitted => rfl
  | given h => cases h <;> rfl

theorem Returns.Spelled.withoutModifiers_append {returns : Returns} (h : returns.Spelled ks) :
    withoutModifiers (ks ++ ks') = ks ++ withoutModifiers ks' := by
  cases h with
  | typed h => cases h <;> rfl
  | _ => rfl

@[simp]
theorem withoutModifiers_paramKinds_append (params : List String) :
    withoutModifiers (paramKinds params ++ ks) = paramKinds params ++ withoutModifiers ks := by
  refine withoutModifiers_append_of_forall ?_
  induction params with
  | nil => simp [paramKinds]
  | cons param params ih =>
    cases params with
    | nil => simp [paramKinds, Kind.isModifier]
    | cons next params => simpa [paramKinds, Kind.isModifier] using ih

/-- No part of a program breaks off inside an `import`. -/
theorem Clause.Spelled.withoutModifiers_append {cl : Clause} (h : cl.Spelled ks)
    (ks' : List Kind) :
    withoutModifiers (ks ++ ks') = withoutModifiers ks ++ withoutModifiers ks' := by
  induction h generalizing ks' with
  | declare _ _ htype => simp [withoutModifiers, htype.withoutModifiers_append]
  | initialise _ _ htype h =>
    simp [withoutModifiers, htype.withoutModifiers_append, h.withoutModifiers_append]
  | assign h | giveBack h | eval h => simp [withoutModifiers, h.withoutModifiers_append]
  | assignAt hi h =>
    simp [withoutModifiers, hi.withoutModifiers_append, h.withoutModifiers_append]
  | ifElse _ ih => simp [withoutModifiers, ih]
  | nested _ ih => exact ih ks'
  | whileLoop h _ ih | noElse h _ ih => simp [withoutModifiers, h.withoutModifiers_append, ih]
  | function _ hreturns _ ih => simp [withoutModifiers, hreturns.withoutModifiers_append, ih]
  | elseIf h _ _ ih ih' | orElse h _ _ ih ih' =>
    simp [withoutModifiers, h.withoutModifiers_append, ih, ih']
  | block _ ih => simp [withoutModifiers, ih]
  | cons _ _ ih ih' => simp [ih, ih']
  | _ => simp [withoutModifiers]

end

/-! ### Trees -/

/-- The statement is an `import`. -/
def Stmt.isUses : Stmt → Bool
  | .uses _ => true
  | _ => false

mutual

/-- A statement that declares variables only, and has no `import` inside. -/
def Stmt.withoutModifiers : Stmt → Stmt
  | .declare _ type name init => .declare false type name init
  | .ifElse e body otherwise =>
    .ifElse e (Stmt.withoutModifiersAll body) (Stmt.withoutModifiersAll otherwise)
  | .whileLoop e body => .whileLoop e (Stmt.withoutModifiersAll body)
  | .function head body => .function head (Stmt.withoutModifiersAll body)
  | .block body => .block (Stmt.withoutModifiersAll body)
  | s => s

/-- Statements that declare variables only, without any `import`. -/
def Stmt.withoutModifiersAll : List Stmt → List Stmt
  | [] => []
  | s :: ss =>
    if s.isUses then Stmt.withoutModifiersAll ss
    else s.withoutModifiers :: Stmt.withoutModifiersAll ss

end

/-- A part of a program that declares variables only, without any `import`. -/
def Clause.withoutModifiers : Clause → Clause
  | .stmt s => if s.isUses then .stmts [] else .stmt s.withoutModifiers
  | .condition s => .condition s.withoutModifiers
  | .block ss => .block (Stmt.withoutModifiersAll ss)
  | .stmts ss => .stmts (Stmt.withoutModifiersAll ss)

section

variable {s : Stmt} {ss : List Stmt} {ks ks' : List Kind}

theorem Stmt.withoutModifiersAll_cons (hs : s.isUses = false) :
    Stmt.withoutModifiersAll (s :: ss) = s.withoutModifiers :: Stmt.withoutModifiersAll ss := by
  rw [Stmt.withoutModifiersAll, if_neg (by simp [hs])]

/-- An `import` goes. -/
theorem Stmt.withoutModifiersAll_uses (target : String) :
    Stmt.withoutModifiersAll (.uses target :: ss) = Stmt.withoutModifiersAll ss := by
  rw [Stmt.withoutModifiersAll, Stmt.isUses, if_pos rfl]

theorem Clause.withoutModifiers_stmt (hs : s.isUses = false) :
    (Clause.stmt s).withoutModifiers = .stmt s.withoutModifiers := by
  rw [Clause.withoutModifiers, if_neg (by simp [hs])]

/-- A condition is no `import`. -/
theorem Clause.Spelled.isUses_eq_false (h : Clause.Spelled (.condition s) ks) :
    s.isUses = false := by
  cases h <;> rfl

end

/-! ### What is known -/

/-- A block with all names bound as variables. -/
def Block.withoutConstants (block : Block) : Block :=
  block.map fun b ↦ (b.1, .mutable)

/-- Every name is found as before, as a variable. -/
theorem Block.lookup_withoutConstants (block : Block) (name : String) :
    block.withoutConstants.lookup name = (block.lookup name).map fun _ ↦ .mutable := by
  induction block with
  | nil => rfl
  | cons b block ih =>
    rw [withoutConstants, List.map_cons, List.lookup_cons, List.lookup_cons]
    cases name == b.1 with
    | true => rfl
    | false => exact ih

theorem Block.isSome_lookup_withoutConstants (block : Block) (name : String) :
    (block.withoutConstants.lookup name).isSome = (block.lookup name).isSome := by
  rw [lookup_withoutConstants, Option.isSome_map]

namespace Context

/-- What is known if all names are bound as variables. -/
def withoutConstants (c : Context) : Context :=
  { c with blocks := c.blocks.map Block.withoutConstants }

variable {c c' : Context} {name : String}

theorem lookup_withoutConstants :
    c.withoutConstants.lookup name = (c.lookup name).map fun _ ↦ .mutable := by
  obtain ⟨blocks, _, _, _⟩ := c
  rw [withoutConstants, lookup, lookup, List.findSome?_map]
  induction blocks with
  | nil => rfl
  | cons block blocks ih =>
    rw [List.findSome?_cons, List.findSome?_cons, Function.comp,
      Block.lookup_withoutConstants]
    cases block.lookup name with
    | none => exact ih
    | some b => rfl

/-- A variable may be assigned to. -/
theorem assignable_withoutConstants : c.withoutConstants.assignable name = .ok () := by
  rw [assignable, lookup_withoutConstants]
  cases c.lookup name <;> rfl

/-- Assignment binds variables anyway. -/
theorem withoutConstants_assigned :
    (c.assigned name).withoutConstants = c.withoutConstants.assigned name := by
  have hsome : (c.withoutConstants.lookup name).isSome = (c.lookup name).isSome := by
    rw [lookup_withoutConstants, Option.isSome_map]
  have hplace : c.withoutConstants.place = c.place := rfl
  by_cases h : c.place ≠ .top ∨ (c.lookup name).isSome
  · rw [assigned, assigned, hsome, hplace, if_pos h, if_pos h]
  · rw [assigned, assigned, hsome, hplace, if_neg h, if_neg h]
    obtain ⟨blocks, _, _, _⟩ := c
    cases blocks <;> rfl

theorem forgetIn_map_withoutConstants (blocks : List Block) :
    forgetIn name (blocks.map Block.withoutConstants) =
      (forgetIn name blocks).map Block.withoutConstants := by
  induction blocks with
  | nil => rfl
  | cons block blocks ih =>
    rw [List.map_cons, forgetIn, forgetIn, Block.isSome_lookup_withoutConstants]
    split
    · rw [List.map_cons, Block.withoutConstants, Block.withoutConstants, List.filter_map]
      rfl
    · rw [List.map_cons, ih]

/-- A name is forgotten in the same block. -/
theorem withoutConstants_forget :
    (c.forget name).withoutConstants = c.withoutConstants.forget name := by
  rw [forget, forget, withoutConstants, withoutConstants, forgetIn_map_withoutConstants]

/-- What may be declared as a constant may be declared as a variable. -/
theorem declare_withoutConstants {b : Binding} (h : c.declare name b = .ok c') :
    c.withoutConstants.declare name .mutable = .ok c'.withoutConstants := by
  obtain ⟨blocks, _, _, _⟩ := c
  cases blocks with
  | nil => cases h
  | cons block blocks =>
    simp only [declare] at h
    simp only [declare, withoutConstants, List.map_cons, Block.isSome_lookup_withoutConstants]
    by_cases hbound : (block.lookup name).isSome
    · rw [if_pos hbound] at h
      cases h
    · rw [if_neg hbound] at h ⊢
      cases h
      rfl

/-- Parameters are variables. -/
theorem withoutConstants_enterFunction (isVoid : Bool) (params : List String) :
    (c.enterFunction name isVoid params).withoutConstants =
      c.withoutConstants.enterFunction name isVoid params := by
  simp [enterFunction, withoutConstants, Block.withoutConstants, Function.comp_def]

theorem withoutConstants_exitBlock :
    c.exitBlock.withoutConstants = c.withoutConstants.exitBlock := by
  rw [exitBlock, exitBlock, withoutConstants, withoutConstants, List.map_tail]

end Context

/-! ### Acceptance -/

theorem Stmt.exists_eq_uses {s : Stmt} (h : s.isUses = true) : ∃ target, s = .uses target := by
  cases s with
  | uses target => exact ⟨target, rfl⟩
  | _ => cases h

/-- Checks that pass still pass when all names are bound as variables. -/
def Eases (Q Q' : Context → Context → Prop) : Prop :=
  ∀ c c', Q c c' → Q' c.withoutConstants c'.withoutConstants

namespace Eases

variable {Q₁ Q₁' Q₂ Q₂' : Context → Context → Prop}

/-- Checks that are eased one by one are eased one after the other. -/
theorem comp (h : Eases Q₁ Q₁') (h' : Eases Q₂ Q₂') :
    Eases (fun c c' ↦ ∃ c₁, Q₁ c c₁ ∧ Q₂ c₁ c') fun c c' ↦ ∃ c₁, Q₁' c c₁ ∧ Q₂' c₁ c' := by
  rintro c c' ⟨c₁, hc₁, hc'⟩
  exact ⟨_, h _ _ hc₁, h' _ _ hc'⟩

/-- Nothing is checked. -/
theorem unchecked : Eases (fun c c' ↦ c' = c) fun c c' ↦ c' = c :=
  fun _ _ h ↦ congrArg Context.withoutConstants h

/-- A check that asks for no name. -/
theorem check {check : Context → Except Cause Unit}
    (hcheck : ∀ c : Context, check c.withoutConstants = check c) :
    Eases (fun c c' ↦ ∃ u, check c = .ok u ∧ c' = c)
      (fun c c' ↦ ∃ u, check c = .ok u ∧ c' = c) := by
  rintro _ c ⟨u, hu, rfl⟩
  exact ⟨u, (hcheck c).trans hu, rfl⟩

/-- What can be assigned to still can be. -/
theorem assignable (name : String) {f : Context → Context}
    (hf : ∀ c, (f c).withoutConstants = f c.withoutConstants) :
    Eases (fun c c' ↦ ∃ u, c.assignable name = .ok u ∧ c' = f c)
      (fun c c' ↦ ∃ u, c.assignable name = .ok u ∧ c' = f c) := by
  rintro c _ ⟨-, -, rfl⟩
  exact ⟨(), Context.assignable_withoutConstants, hf c⟩

/-- A name that is free in its block still is. -/
theorem declare (fits : Prop) (name : String) (b : Binding) :
    Eases (fun c c' ↦ fits ∧ c.declare name b = .ok c')
      (fun c c' ↦ fits ∧ c.declare name .mutable = .ok c') :=
  fun _ _ h ↦ ⟨h.1, Context.declare_withoutConstants h.2⟩

/-- A check inside a loop is eased with it. -/
theorem loop (h : Eases Q₁ Q₁') :
    Eases (fun c c' ↦ ∃ c₁, Q₁ c.enterLoop c₁ ∧ c' = c₁.exitLoop)
      (fun c c' ↦ ∃ c₁, Q₁' c.enterLoop c₁ ∧ c' = c₁.exitLoop) := by
  rintro c _ ⟨c₁, hc₁, rfl⟩
  exact ⟨_, h _ _ hc₁, rfl⟩

theorem block (h : Eases Q₁ Q₁') :
    Eases (fun c c' ↦ ∃ c₁, Q₁ c.enterBlock c₁ ∧ c' = c₁.exitBlock)
      (fun c c' ↦ ∃ c₁, Q₁' c.enterBlock c₁ ∧ c' = c₁.exitBlock) := by
  rintro c _ ⟨c₁, hc₁, rfl⟩
  exact ⟨_, h _ _ hc₁, Context.withoutConstants_exitBlock⟩

/-- A check inside a function is eased with it. -/
theorem function (head : Head) (h : Eases Q₁ Q₁') :
    Eases
      (fun c c' ↦ (c.functions.contains head.name = false ∧ head.params.Nodup) ∧
        ∃ inner, Q₁ (c.enterFunction head.name (head.returns == .void) head.params) inner ∧
          c' = c.exitFunction inner)
      (fun c c' ↦ (c.functions.contains head.name = false ∧ head.params.Nodup) ∧
        ∃ inner, Q₁' (c.enterFunction head.name (head.returns == .void) head.params) inner ∧
          c' = c.exitFunction inner) := by
  rintro c _ ⟨hchecks, inner, hinner, rfl⟩
  refine ⟨hchecks, inner.withoutConstants, ?_, rfl⟩
  rw [← Context.withoutConstants_enterFunction]
  exact h _ _ hinner

end Eases

/-- A part of a program is settled by checks, with its modifiers and without. -/
structure Clause.Eased (cl : Clause) (ks : List Kind) : Prop where
  spelled : cl.withoutModifiers.Spelled (Scriptlet.withoutModifiers ks)
  exists_settled : ∃ Q Q', cl.Settled Q ks ∧
    cl.withoutModifiers.Settled Q' (Scriptlet.withoutModifiers ks) ∧ Eases Q Q'

namespace Clause

variable {s : Stmt} {ks : List Kind} {Q : Context → Context → Prop}

/-- A statement without modifiers. -/
theorem eased_of_flat (h : Clause.Spelled (.stmt s) ks) (hsettled : s.Settled Q ks)
    (hs : (Clause.stmt s).withoutModifiers = .stmt s)
    (hks : Scriptlet.withoutModifiers ks = ks) (hQ : Eases Q Q) :
    (Clause.stmt s).Eased ks := by
  refine ⟨?_, Q, Q, hsettled, ?_, hQ⟩ <;> rw [hs, hks]
  · exact h
  · exact hsettled

/-- An `import` is not there without modifiers. -/
theorem eased_uses {k : Kind} {target : String}
    (htarget : ∀ {ts mid : Tokens}, Takes [k] ts mid → readTarget ts = .ok (target, mid)) :
    (Clause.stmt (.uses target)).Eased [.keyword .import_, k, .symbol .semicolon] :=
  ⟨.nil, fun c c' ↦ c' = c, _, Stmt.settled_uses htarget, settled_nil, .unchecked⟩

/-- An `import` in front is read and leaves nothing behind. -/
theorem eased_cons_uses {k : Kind} {target : String} {ss : List Stmt}
    (htarget : ∀ {ts mid : Tokens}, Takes [k] ts mid → readTarget ts = .ok (target, mid))
    (hs : Clause.Spelled (.stmts ss) ks) (h : (Clause.stmts ss).Eased ks) :
    (Clause.stmts (.uses target :: ss)).Eased
      ([.keyword .import_, k, .symbol .semicolon] ++ ks) := by
  obtain ⟨hspelled, Q, Q', hsettled, hsettled', hQ⟩ := h
  have huses := settled_cons rfl (Stmt.settled_uses htarget) hs.head?_begins hsettled
  refine ⟨hspelled, _, Q', huses, hsettled', ?_⟩
  rintro c c' ⟨_, rfl, hc'⟩
  exact hQ _ _ hc'

/-- A declaration without modifiers is one of a variable. -/
theorem eased_declare {isConst : Bool} {type : Tag} {name : String} {init : Option Expr}
    {fits : Prop} {ks' : List Kind}
    (h : (Clause.stmt (.declare isConst type name init)).Settled
      (fun c c' ↦ fits ∧ c.declare name (if isConst then .constant else .mutable) = .ok c') ks)
    (h' : (Clause.stmt (.declare false type name init)).Settled
      (fun c c' ↦ fits ∧ c.declare name .mutable = .ok c') ks')
    (hspelled : Clause.Spelled (.stmt (.declare false type name init)) ks')
    (hks : Scriptlet.withoutModifiers ks = ks') :
    (Clause.stmt (.declare isConst type name init)).Eased ks := by
  subst hks
  exact ⟨hspelled, _, _, h, h', .declare _ _ _⟩

/-- What is spelled is settled with and without modifiers. -/
theorem Spelled.eased {cl : Clause} (h : cl.Spelled ks) : cl.Eased ks := by
  induction h with
  -- The one place where what is known becomes different: a name is bound as a variable.
  | declare isConst isStatic htype =>
    refine eased_declare (Stmt.settled_declare isConst isStatic htype)
      (Stmt.settled_declare false false htype) (.declare false false htype) ?_
    simp only [Scriptlet.withoutModifiers, withoutModifiers_optional_const,
      withoutModifiers_optional_static, htype.withoutModifiers_append]
    rfl
  | initialise isConst isStatic htype h =>
    refine eased_declare (Stmt.settled_initialise isConst isStatic htype h)
      (Stmt.settled_initialise false false htype h) (.initialise false false htype h) ?_
    simp only [Scriptlet.withoutModifiers, withoutModifiers_optional_const,
      withoutModifiers_optional_static, htype.withoutModifiers_append, h.withoutModifiers_append]
    rfl
  | declareNull isConst isStatic =>
    refine eased_declare (Stmt.settled_declareNull isConst isStatic)
      (Stmt.settled_declareNull false false) (.declareNull false false) ?_
    simp only [Scriptlet.withoutModifiers, withoutModifiers_optional_const,
      withoutModifiers_optional_static]
    rfl
  | assign h =>
    refine eased_of_flat (.assign h) (Stmt.settled_assign h) rfl ?_
      (.assignable _ fun _ ↦ Context.withoutConstants_assigned)
    simp [Scriptlet.withoutModifiers, h.withoutModifiers_append]
  | assignAt hi h =>
    refine eased_of_flat (.assignAt hi h) (Stmt.settled_assignAt hi h) rfl ?_
      (.assignable _ fun _ ↦ rfl)
    simp [Scriptlet.withoutModifiers, hi.withoutModifiers_append, h.withoutModifiers_append]
  | increment =>
    exact eased_of_flat .increment Stmt.settled_increment rfl rfl (.assignable _ fun _ ↦ rfl)
  | decrement =>
    exact eased_of_flat .decrement Stmt.settled_decrement rfl rfl (.assignable _ fun _ ↦ rfl)
  | breakOne => exact eased_of_flat .breakOne Stmt.settled_breakOne rfl rfl (.check fun _ ↦ rfl)
  | breakLoop n =>
    exact eased_of_flat (.breakLoop n) (Stmt.settled_breakLoop n) rfl rfl (.check fun _ ↦ rfl)
  | continueLoop =>
    exact eased_of_flat .continueLoop Stmt.settled_continueLoop rfl rfl (.check fun _ ↦ rfl)
  | giveBackNone =>
    exact eased_of_flat .giveBackNone Stmt.settled_giveBackNone rfl rfl (.check fun _ ↦ rfl)
  | giveBack h =>
    refine eased_of_flat (.giveBack h) (Stmt.settled_giveBack h) rfl ?_ (.check fun _ ↦ rfl)
    simp [Scriptlet.withoutModifiers, h.withoutModifiers_append]
  | exit => exact eased_of_flat .exit Stmt.settled_exit rfl rfl .unchecked
  | unset =>
    exact eased_of_flat .unset Stmt.settled_unset rfl rfl
      (.assignable _ fun _ ↦ Context.withoutConstants_forget)
  | usesName => exact eased_uses Stmt.readTarget_of_name
  | usesText => exact eased_uses Stmt.readTarget_of_text
  | eval h hstep =>
    refine eased_of_flat (.eval h hstep) (Stmt.settled_eval h hstep) rfl ?_ .unchecked
    rw [h.withoutModifiers_append]
    rfl
  | @ifElse s ks hs ih =>
    obtain ⟨hspelled, Q, Q', hsettled, hsettled', hQ⟩ := ih
    refine ⟨?_, Q, Q', settled_ifElse hsettled, ?_, hQ⟩ <;>
      rw [withoutModifiers_cons rfl, withoutModifiers_stmt hs.isUses_eq_false]
    · exact .ifElse hspelled
    · exact settled_ifElse hsettled'
  | whileLoop h _ ih =>
    obtain ⟨hspelled, Q, Q', hbody, hbody', hQ⟩ := ih
    refine ⟨?_, _, _, settled_whileLoop h hbody, ?_, hQ.loop⟩ <;>
      simp only [Scriptlet.withoutModifiers, h.withoutModifiers_append]
    · exact .whileLoop h hspelled
    · exact settled_whileLoop h hbody'
  | @function isInline head body ks ks' hreturns hbody ih =>
    obtain ⟨hspelled, Q, Q', ⟨hsettled, -⟩, ⟨hsettled', -⟩, hQ⟩ := ih
    refine ⟨?_, _, _, settled_function isInline hreturns hsettled, ?_, hQ.function head⟩ <;>
      simp only [Scriptlet.withoutModifiers, withoutModifiers_optional_inline,
        withoutModifiers_optional_tail, hreturns.withoutModifiers_append,
        withoutModifiers_paramKinds_append, hbody.withoutModifiers_append]
    · exact .function false hreturns hspelled
    · exact settled_function false hreturns hsettled'
  | nested hbody ih =>
    obtain ⟨hspelled, Q, Q', hsettled, hsettled', hQ⟩ := ih
    cases hbody
    refine ⟨.nested hspelled, Q, Q', settled_nested hsettled, ?_, hQ⟩
    rw [withoutModifiers_cons rfl] at hsettled' ⊢
    exact settled_nested hsettled'
  | noElse h _ ih =>
    obtain ⟨hspelled, Q, Q', hbody, hbody', hQ⟩ := ih
    refine ⟨?_, _, _, settled_noElse h hbody, ?_, hQ⟩ <;>
      simp only [Scriptlet.withoutModifiers, h.withoutModifiers_append]
    · exact .noElse h hspelled
    · exact settled_noElse h hbody'
  | elseIf h hbody hnext ih ihnext =>
    obtain ⟨hspelled, Q, Q', hsettled, hsettled', hQ⟩ := ih
    obtain ⟨hspelled₁, Q₁, Q₁', hsettled₁, hsettled₁', hQ₁⟩ := ihnext
    refine ⟨?_, _, _, settled_elseIf h hsettled hsettled₁, ?_, hQ.comp hQ₁⟩ <;>
      simp only [Scriptlet.withoutModifiers, h.withoutModifiers_append,
        hbody.withoutModifiers_append, Clause.withoutModifiers, Stmt.withoutModifiers,
        Stmt.withoutModifiersAll_cons hnext.isUses_eq_false]
    · exact .elseIf h hspelled hspelled₁
    · exact settled_elseIf h hsettled' hsettled₁'
  | orElse h hbody _ ih ihlast =>
    obtain ⟨hspelled, Q, Q', hsettled, hsettled', hQ⟩ := ih
    obtain ⟨hspelled₁, Q₁, Q₁', hsettled₁, hsettled₁', hQ₁⟩ := ihlast
    refine ⟨?_, _, _, settled_orElse h hsettled hsettled₁, ?_, hQ.comp hQ₁⟩ <;>
      simp only [Scriptlet.withoutModifiers, h.withoutModifiers_append,
        hbody.withoutModifiers_append]
    · exact .orElse h hspelled hspelled₁
    · exact settled_orElse h hsettled' hsettled₁'
  | block hbody ih =>
    obtain ⟨hspelled, Q, Q', ⟨hsettled, -⟩, ⟨hsettled', -⟩, hQ⟩ := ih
    refine ⟨?_, _, _, settled_block hsettled, ?_, hQ.block⟩ <;>
      rw [withoutModifiers_cons rfl, hbody.withoutModifiers_append]
    · exact .block hspelled
    · exact settled_block hsettled'
  | nil => exact ⟨.nil, _, _, settled_nil, settled_nil, .unchecked⟩
  | @cons s ss ks ks' h hs ih ihs =>
    -- An `import` is gone from the statements, so the others take its place.
    rcases huses : s.isUses
    · obtain ⟨hspelled, Q, Q', hsettled, hsettled', hQ⟩ := ih
      obtain ⟨hspelled₁, Q₁, Q₁', hsettled₁, hsettled₁', hQ₁⟩ := ihs
      rw [withoutModifiers_stmt huses] at hspelled hsettled'
      obtain ⟨k, rest, rfl, hk⟩ := h.exists_begins
      obtain ⟨k', rest', hrest', hk'⟩ := hspelled.exists_begins
      refine ⟨?_, _, _, settled_cons hk hsettled hs.head?_begins hsettled₁, ?_, hQ.comp hQ₁⟩ <;>
        rw [h.withoutModifiers_append, Clause.withoutModifiers, Stmt.withoutModifiersAll_cons huses]
      · exact .cons hspelled hspelled₁
      · rw [hrest'] at hsettled' ⊢
        exact settled_cons hk' hsettled' hspelled₁.head?_begins hsettled₁'
    · obtain ⟨target, rfl⟩ := Stmt.exists_eq_uses huses
      cases h with
      | usesName => exact eased_cons_uses Stmt.readTarget_of_name hs ihs
      | usesText => exact eased_cons_uses Stmt.readTarget_of_text hs ihs
      | ifElse h => cases h

end Clause

/-- **Tokens that are accepted are accepted without modifiers**, wherever they stand in their texts,
and spell the same program but for them. -/
theorem Program.ofTokens_of_kinds_eq_withoutModifiers {ts ts' : Tokens} {p : Program}
    (h : Program.ofTokens ts = .ok p) (hkinds : ts'.kinds = withoutModifiers ts.kinds) :
    Program.ofTokens ts' = .ok (Stmt.withoutModifiersAll p) := by
  obtain ⟨-, Q, Q', ⟨-, hsettles⟩, ⟨-, hsettles'⟩, hQ⟩ :=
    (Program.spelled_and_valid_of_ofTokens h).1.eased
  obtain ⟨⟨c, hc⟩, -⟩ := (Program.ofTokens_iff_of_settles hsettles p).1 h
  rw [← hkinds] at hsettles'
  exact (Program.ofTokens_iff_of_settles hsettles' _).2 ⟨⟨_, hQ _ _ hc⟩, rfl⟩

end Scriptlet
