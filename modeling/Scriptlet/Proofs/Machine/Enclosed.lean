import Scriptlet.Proofs.Code.ClosedLines
import Scriptlet.Proofs.Machine.Moves
import Scriptlet.Proofs.Machine.ScopeNames

/-!
# A call in its own scopes

A call runs inside the scopes of its caller. If its instructions use only variables that its own
scopes bind, then **what is around it does not matter**: it does the same inside any other scopes
and on top of any other calls that wait. `Outline.under` puts a call there, and `outlineExec_under`
says that executing an instruction comes to the same before and after that.

Entering a function and giving back a value are left out, since these concern the calls that wait.
-/

namespace Scriptlet

/-! ### Scopes inside others -/

namespace Scopes

variable {own rest : Scopes} {name : String}

/-- The names are listed scope by scope. -/
@[simp]
theorem length_names (scopes : Scopes) : scopes.names.length = scopes.length :=
  List.length_map ..

/-- What is around some scopes does not matter for a name: there is nothing around them, or they
bind it. -/
def Settle (own rest : Scopes) (name : String) : Prop :=
  rest = [] ∨ name ∈ own.names.flatten

/-- A name means the same whatever scopes are around, if they do not matter for it. -/
theorem var?_append (h : own.Settle rest name) : (own ++ rest).var? name = own.var? name := by
  rw [var?, var?, List.findSome?_append]
  rcases h with rfl | h
  · exact Option.or_none
  · obtain ⟨var, hvar⟩ := Option.isSome_iff_exists.1 ((isSome_var? own name).2 h)
    rw [var?] at hvar
    rw [hvar, Option.some_or]

/-- A change leaves the scopes around as they are. -/
theorem change_append (h : own.Settle rest name) (f : Vars → Vars) :
    (own ++ rest).change name f = own.change name f ++ rest := by
  rcases h with rfl | h
  · rw [List.append_nil, List.append_nil]
  · induction own with
    | nil => cases h
    | cons vars own ih =>
      rw [List.cons_append, change, change]
      split
      · rfl
      · rename_i hvars
        rw [ih, List.cons_append]
        rw [names, List.map_cons, List.flatten_cons, List.mem_append] at h
        exact h.resolve_left fun hmem ↦ hvars ((isSome_lookup_iff vars name).2 hmem)

/-- A declaration looks at the innermost scope only. -/
theorem declare_append (hown : own ≠ []) (type : Tag) (v : Value) :
    (own ++ rest).declare name type v = (own.declare name type v).map (· ++ rest) := by
  obtain ⟨vars, own, rfl⟩ := List.exists_cons_of_ne_nil hown
  rw [List.cons_append, declare, declare]
  cases v.coerce type with
  | error e => rfl
  | ok w =>
    simp only
    split <;> rfl

theorem update_append (h : own.Settle rest name) (f : Value → Except ValueError Value) :
    (own ++ rest).update name f = (own.update name f).map (· ++ rest) := by
  rw [update, update, var?_append h]
  cases own.var? name with
  | none => rfl
  | some var =>
    simp only
    cases f var.value with
    | error e => rfl
    | ok w => exact congrArg Except.ok (change_append h _)

theorem assign_append (h : own.Settle rest name) (hown : own ≠ []) (v : Value) :
    (own ++ rest).assign name v = (own.assign name v).map (· ++ rest) := by
  rw [assign, assign, var?_append h]
  cases own.var? name with
  | none => exact declare_append hown .auto v
  | some var =>
    simp only
    cases v.coerce var.type with
    | error e => rfl
    | ok w => exact congrArg Except.ok (change_append h _)

/-- So does the binding of parameters. -/
theorem bindParams_append (hown : own ≠ []) (ps : List String) (vs : List Value) :
    bindParams (own ++ rest) ps vs = (bindParams own ps vs).map (· ++ rest) := by
  induction ps generalizing own vs with
  | nil => cases vs <;> rfl
  | cons p ps ih =>
    cases vs with
    | nil => rfl
    | cons v vs =>
      rw [bindParams, bindParams, declare_append hown]
      cases hdeclare : own.declare p .auto v with
      | error e => rfl
      | ok own' =>
        have hown' : own' ≠ [] := by
          have hlength := congrArg List.length (names_of_declare hdeclare)
          rw [List.length_modifyHead, length_names, length_names] at hlength
          rintro rfl
          exact hown (List.length_eq_zero_iff.1 hlength.symm)
        exact ih hown' vs

end Scopes

/-! ### Outlines inside others -/

namespace Outline

/-- The call in progress inside other scopes, with other calls that wait. -/
def under (o : Outline) (ws : List Waiting) (rest : Scopes) : Outline :=
  { o with callers := ws, scopes := o.scopes ++ rest }

/-- The same for what an instruction or a step makes of an outline. -/
def Progress.under {ε : Type} (ws : List Waiting) (rest : Scopes) : Progress ε → Progress ε
  | running o => .running (o.under ws rest)
  | ended t o => .ended t (o.under ws rest)
  | failed e calls => .failed e calls

variable (o : Outline) (ws : List Waiting) (rest : Scopes)

@[simp]
theorem ip_under : (o.under ws rest).ip = o.ip :=
  rfl

theorem push_under (limit : Nat) (v : Value) :
    (o.under ws rest).push limit v = (o.push limit v).under ws rest := by
  rw [push, push]
  change (if o.stack.length < limit then _ else _) = _
  split <;> rfl

/-- To leave a result does not depend on what is around the call. -/
theorem pushResult_under (limit : Nat) (r : Except ValueError Value) :
    (o.under ws rest).pushResult limit r = (o.pushResult limit r).under ws rest := by
  cases r with
  | ok v => exact o.push_under ws rest limit v
  | error e => rfl

/-- An operation that leaves the scopes around as they are does so in an outline, too. -/
theorem onScopes_under (r : Except ScopeError Scopes) :
    (o.under ws rest).onScopes (r.map (· ++ rest)) = (o.onScopes r).under ws rest := by
  cases r <;> rfl

theorem jumpTo_under (codeSize target : Nat) :
    (o.under ws rest).jumpTo codeSize target = (o.jumpTo codeSize target).under ws rest := by
  rw [jumpTo, jumpTo]
  split <;> rfl

end Outline

namespace Machine

variable {m : Machine} {o : Outline} {i : Instr}

/-- Built-in functions see neither the scopes nor the calls that wait. -/
theorem outlineCallBuiltin_under (b : Builtin) (args : List Value) (ws : List Waiting)
    (rest : Scopes) :
    m.outlineCallBuiltin (o.under ws rest) b args =
      (m.outlineCallBuiltin o b args).under ws rest := by
  rw [outlineCallBuiltin, outlineCallBuiltin]
  rw [show (o.under ws rest).calls = o.calls from rfl]
  cases b.answer o.calls args with
  | ok v => exact Outline.push_under { o with calls := o.calls.push ⟨b.name, args⟩ } ws rest _ v
  | error message => rfl

/-- A call of a function that the program does not have. -/
theorem outlineCall_under {name : String} (hf : m.find? name = none) (count : Nat) (isTail : Bool)
    (ws : List Waiting) (rest : Scopes) :
    m.outlineCall (o.under ws rest) name count isTail =
      (m.outlineCall o name count isTail).under ws rest := by
  have happly (o : Outline) (args : List Value) :
      m.outlineApply (o.under ws rest) name args isTail =
        (m.outlineApply o name args isTail).under ws rest := by
    simp only [outlineApply, hf]
    cases m.table.find? name with
    | none => rfl
    | some b =>
      cases harity : b.arity with
      | none => simp only [harity, outlineCallBuiltin_under]
      | some arity =>
        simp only [harity, outlineCallBuiltin_under]
        split <;> rfl
  rw [outlineCall, outlineCall]
  change (if count ≤ o.stack.length then _ else _) = _
  split
  · exact happly { o with stack := o.stack.drop count } _
  · rfl

/-- **What is around a call does not matter to it**, as long as it uses variables of its own
scopes. -/
theorem outlineExec_under {ws : List Waiting} {rest : Scopes} (hcallee : m.callee? i = none)
    (hreturn : i.isReturn = false) (hown : o.scopes ≠ [])
    (huses : rest = [] ∨ i.UsesOnly o.scopes.names.flatten) :
    m.outlineExec (o.under ws rest) i = (m.outlineExec o i).under ws rest := by
  obtain ⟨ip, stack, blocks, returns, callers, own, calls⟩ := o
  -- An instruction that looks a name up needs what `huses` says; the others do not look outwards.
  cases i with
  | pushInt n | pushFloat x | pushBool b | pushStr s | pushNull =>
    exact Outline.push_under _ ws rest _ _
  | makeList count =>
    simp only [outlineExec]
    change (if count ≤ stack.length then _ else _) = _
    split
    · exact Outline.push_under ⟨ip, stack.drop count, blocks, returns, callers, own, calls⟩ ws rest
        _ _
    · rfl
  | get name =>
    simp only [outlineExec, Outline.under, Scopes.var?_append huses]
    cases own.var? name with
    | none => rfl
    | some var => exact Outline.push_under ⟨ip, stack, _, _, callers, own, calls⟩ ws rest _ _
  | set name =>
    cases stack with
    | nil => rfl
    | cons v stack =>
      simp only [outlineExec, Outline.under, Scopes.assign_append huses hown]
      exact Outline.onScopes_under ⟨ip, stack, _, _, callers, own, calls⟩ ws rest _
  | decl name type =>
    cases stack with
    | nil => rfl
    | cons v stack =>
      simp only [outlineExec, Outline.under, Scopes.declare_append hown]
      exact Outline.onScopes_under ⟨ip, stack, _, _, callers, own, calls⟩ ws rest _
  | unset name =>
    obtain rfl := huses.resolve_right id
    simp only [outlineExec, Outline.under, Outline.Progress.under, List.append_nil]
  | pop => cases stack <;> rfl
  | binary op | index =>
    rcases stack with - | ⟨v, - | ⟨w, stack⟩⟩
    · rfl
    · rfl
    · exact Outline.pushResult_under ⟨ip, stack, _, _, callers, own, calls⟩ ws rest _ _
  | unary op =>
    cases stack with
    | nil => rfl
    | cons v stack =>
      exact Outline.pushResult_under ⟨ip, stack, _, _, callers, own, calls⟩ ws rest _ _
  | slice =>
    rcases stack with - | ⟨u, - | ⟨v, - | ⟨w, stack⟩⟩⟩
    · rfl
    · rfl
    · rfl
    · exact Outline.pushResult_under ⟨ip, stack, _, _, callers, own, calls⟩ ws rest _ _
  | setIndex name =>
    rcases stack with - | ⟨v, - | ⟨j, stack⟩⟩
    · rfl
    · rfl
    · simp only [outlineExec, Outline.under, Scopes.update_append huses]
      exact Outline.onScopes_under ⟨ip, stack, _, _, callers, own, calls⟩ ws rest _
  | jump target => exact Outline.jumpTo_under _ ws rest _ _
  | jumpIfFalse target =>
    cases stack with
    | nil => rfl
    | cons condition stack =>
      simp only [outlineExec, Outline.under]
      cases condition.isTrue with
      | true => rfl
      | false => exact Outline.jumpTo_under ⟨ip, stack, _, _, callers, own, calls⟩ ws rest _ _
  | call name count | tailCall name count => exact outlineCall_under hcallee _ _ ws rest
  | ret | retVoid => cases hreturn
  | enterScope => rfl
  | exitScope =>
    obtain ⟨vars, own, rfl⟩ := List.exists_cons_of_ne_nil hown
    cases blocks <;> rfl
  | halt => rfl

end Machine

/-! ### What is known of a call -/

/-- Every name noted in an open block is bound in the scope that was opened for it. -/
def NamesBound (blocks : List (List String)) (own : Scopes) : Prop :=
  List.Forall₂ (· ⊆ ·) blocks own.names

/-- What is noted in some open block is bound in some scope. -/
theorem NamesBound.flatten_subset {blocks : List (List String)} {own : Scopes}
    (h : NamesBound blocks own) : blocks.flatten ⊆ own.names.flatten := by
  rw [NamesBound] at h
  generalize own.names = names at h ⊢
  induction h with
  | nil => exact List.nil_subset _
  | cons hblock _ ih =>
    rw [List.flatten_cons, List.flatten_cons]
    exact List.append_subset.2 ⟨List.subset_append_of_subset_left _ hblock,
      List.subset_append_of_subset_right _ ih⟩

namespace Instr.Rebinds

variable {i : Instr} {o o' : Outline} {blocks : List (List String)}

/-- A call keeps one scope for each open block and one for its parameters. -/
theorem length_scopes (h : i.Rebinds o o') (hlength : o.scopes.length = o.blocks + 1) :
    o'.scopes.length = o'.blocks + 1 := by
  -- Only the entering and the leaving of a block change the number of scopes.
  cases i with
  | get name =>
    obtain ⟨hblocks, hscopes, -⟩ := h
    rw [hblocks, hscopes, hlength]
  | set name =>
    obtain ⟨hblocks, v, hassign⟩ := h
    have hnames := congrArg List.length (Scopes.names_of_assign hassign)
    rw [hblocks, ← hlength, ← Scopes.length_names, hnames]
    split
    · exact Scopes.length_names _
    · rw [List.length_modifyHead, Scopes.length_names]
  | decl name type =>
    obtain ⟨hblocks, v, hdeclare⟩ := h
    rw [hblocks, ← hlength, ← Scopes.length_names, Scopes.names_of_declare hdeclare,
      List.length_modifyHead, Scopes.length_names]
  | unset name =>
    obtain ⟨hblocks, hscopes⟩ := h
    rw [hblocks, hscopes, Scopes.unset, Scopes.length_change, hlength]
  | setIndex name =>
    obtain ⟨hblocks, f, hupdate⟩ := h
    rw [hblocks, ← hlength, ← Scopes.length_names, Scopes.names_of_update hupdate,
      Scopes.length_names]
  | enterScope =>
    obtain ⟨hblocks, hscopes⟩ := h
    rw [hblocks, hscopes, List.length_cons, hlength]
  | exitScope =>
    obtain ⟨hblocks, hscopes⟩ := h
    rw [hscopes, List.length_tail, hlength, hblocks, Nat.add_sub_cancel]
  | _ =>
    obtain ⟨hblocks, hscopes⟩ := h
    rw [hblocks, hscopes, hlength]

/-- Names that are bound stay bound, and what is declared is bound too. -/
theorem namesBound (h : i.Rebinds o o') (hbound : NamesBound blocks o.scopes)
    (huses : i.UsesOnly blocks.flatten) : NamesBound (Point.blocksAfter blocks i) o'.scopes := by
  -- Assignment could bind a new name, but not to a name that is noted already.
  cases i with
  | get name => rwa [h.2.1]
  | set name =>
    obtain ⟨-, v, hassign⟩ := h
    rw [NamesBound, Scopes.names_of_assign hassign, if_pos (hbound.flatten_subset huses)]
    exact hbound
  | decl name type =>
    obtain ⟨-, v, hdeclare⟩ := h
    rw [NamesBound, Scopes.names_of_declare hdeclare, Point.blocksAfter]
    rw [NamesBound] at hbound
    generalize o.scopes.names = names at hbound ⊢
    cases hbound with
    | nil => exact .nil
    | cons hblock hrest =>
      refine .cons (List.cons_subset.2 ⟨?_, ?_⟩) hrest
      · exact List.mem_append_right _ (List.mem_singleton.2 rfl)
      · exact List.subset_append_of_subset_left _ hblock
  | unset name => cases huses
  | setIndex name =>
    obtain ⟨-, f, hupdate⟩ := h
    rw [NamesBound, Scopes.names_of_update hupdate]
    exact hbound
  | enterScope =>
    rw [NamesBound, h.2]
    exact .cons (List.nil_subset _) hbound
  | exitScope =>
    rw [NamesBound, h.2, Scopes.names, List.map_tail, ← Scopes.names, Point.blocksAfter]
    rw [NamesBound] at hbound
    generalize o.scopes.names = names at hbound ⊢
    cases hbound with
    | nil => exact .nil
    | cons _ hrest => exact hrest
  | _ =>
    rw [h.2]
    exact hbound

end Instr.Rebinds

/-- What is known at a point holds of a call: of the blocks open in it, of what it gives back, of
its own scopes, and of the calls that wait for it. Only the program itself has none. -/
structure Point.Describes (p : Point) (blocks : Nat) (returns : Returns) (own : Scopes)
    (ws : List Waiting) : Prop where
  length : own.length = blocks + 1
  top : p.owner = none → ws = []
  function : ∀ head, p.owner = some head →
    ws ≠ [] ∧ returns = head.returns ∧ NamesBound p.blocks own

namespace Point.Describes

variable {p : Point} {ws : List Waiting} {i : Instr}

/-- A call has at least the scope of its body. -/
theorem ne_nil {blocks : Nat} {returns : Returns} {own : Scopes}
    (h : p.Describes blocks returns own ws) : own ≠ [] := by
  rintro rfl
  cases h.length

/-- It depends on the owner and on the blocks only. -/
theorem congr {p' : Point} {blocks : Nat} {returns : Returns} {own : Scopes}
    (h : p.Describes blocks returns own ws) (howner : p'.owner = p.owner)
    (hblocks : p'.blocks = p.blocks) : p'.Describes blocks returns own ws := by
  refine ⟨h.length, fun hc ↦ h.top (howner ▸ hc), fun head hc ↦ ?_⟩
  rw [hblocks]
  exact h.function head (howner ▸ hc)

/-- It is kept where the call goes on. -/
theorem goesOn {o o' : Outline} (h : p.Describes o.blocks o.returns o.scopes ws)
    (huses : p.owner.isSome → i.UsesOnly p.blocks.flatten) (hrebinds : i.Rebinds o o')
    (hreturns : o'.returns = o.returns) :
    (p.after i).Describes o'.blocks o'.returns o'.scopes ws := by
  refine ⟨hrebinds.length_scopes h.length, h.top, fun head hc ↦ ?_⟩
  obtain ⟨hne, hhead, hbound⟩ := h.function head hc
  have howner : p.owner = some head := hc
  refine ⟨hne, hreturns.trans hhead, hrebinds.namesBound hbound (huses ?_)⟩
  rw [howner]
  rfl

end Point.Describes

end Scriptlet
