import Scriptlet.Proofs.Code.RecordingChecks
import Scriptlet.Proofs.Machine.Causes
import Scriptlet.Proofs.Tree.Unambiguous

/-!
# No name is declared twice

The reader records names block by block, and the machine binds them scope by scope. The two never
meet: one goes through the text once, the other goes through the code in whatever order it is run.
They agree all the same. Outside functions the names bound in the open scopes are **exactly** those
that were recorded in the open blocks; in the body of a function this holds of the names that the
body declares, as long as it does not assign to them too. So a declaration that passed the check for
duplicates never finds its name bound.

What is kept along a run is a matter of names only. `Kept` says it for the call in progress and for
each call that waits, with the names bound in its scopes.
-/

namespace Scriptlet

/-! ### Instructions that fail for a name declared twice -/

/-- The cause is a name declared twice. -/
def FaultCause.isRedeclaration : FaultCause → Bool
  | alreadyDeclared _ => true
  | _ => false

/-- A fault of values is no name declared twice. -/
theorem FaultCause.isRedeclaration_ofValueError (e : ValueError) :
    (ofValueError e).isRedeclaration = false := by
  cases e <;> rfl

/-- If it fails, then not for a name declared twice. -/
def Outline.Progress.Fresh {ε : Type} (cause : ε → FaultCause) : Outline.Progress ε → Prop
  | failed e _ => (cause e).isRedeclaration = false
  | _ => True

namespace Machine

variable {m : Machine} {o o' : Outline} {i : Instr}

/-- **Only declarations can declare a name twice**: those of variables, and those of parameters. -/
theorem Fails.isRedeclaration {cause : FaultCause} (h : m.Fails i o cause)
    (hdecl : ∀ name type, i = .decl name type → ∀ block ∈ o.scopes.names.head?, name ∉ block)
    (hcallee : ∀ f, m.callee? i = some f → f.params.Nodup) : cause.isRedeclaration = false := by
  have hscope {e : ScopeError} (he : ∀ name, e ≠ .alreadyDeclared name) :
      (FaultCause.ofScopeError e).isRedeclaration = false := by
    cases e with
    | unknown name => rfl
    | alreadyDeclared name => exact absurd rfl (he name)
    | value e => exact FaultCause.isRedeclaration_ofValueError e
  -- Only a declaration and the binding of parameters can find a name declared.
  cases h with
  | value e => exact FaultCause.isRedeclaration_ofValueError e
  | refused h =>
    refine hscope fun name heq ↦ ?_
    subst heq
    cases i with
    | set x =>
      obtain ⟨v, hv⟩ := h
      exact Scopes.assign_ne_alreadyDeclared name hv
    | decl x type =>
      obtain ⟨v, hv⟩ := h
      obtain ⟨block, hblock, hmem⟩ := Scopes.exists_mem_of_declare hv
      exact hdecl x type rfl block hblock hmem
    | setIndex x =>
      obtain ⟨f, hf⟩ := h
      exact Scopes.update_ne_alreadyDeclared name hf
    | _ => exact h
  | params hf h =>
    refine hscope fun name heq ↦ ?_
    subst heq
    refine Scopes.bindParams_ne_alreadyDeclared (hcallee _ hf) (fun block hblock p _ ↦ ?_) name h
    cases hblock
    exact List.not_mem_nil
  | _ => rfl

/-- An instruction declares no name twice if the innermost scope does not have it and no parameters
are named alike. -/
theorem fresh_outlineExec
    (hdecl : ∀ name type, i = .decl name type → ∀ block ∈ o.scopes.names.head?, name ∉ block)
    (hcallee : ∀ f, m.callee? i = some f → f.params.Nodup) : (m.outlineExec o i).Fresh id := by
  have hfails := m.failsFor_outlineExec o i
  generalize m.outlineExec o i = p at hfails ⊢
  cases p with
  | running | ended => trivial
  | failed cause calls => exact Fails.isRedeclaration hfails hdecl hcallee

end Machine

/-! ### What is kept along a run -/

/-- Of some names, those bound in scopes are recorded in the blocks that the scopes are
opened for. -/
def BoundWithin (ls : List String) : (own blocks : List (List String)) → Prop :=
  List.Forall₂ fun bound block ↦ ∀ name ∈ ls, name ∈ bound → name ∈ block

namespace BoundWithin

variable {ls : List String} {own blocks : List (List String)} {name : String}

/-- A block is entered and recorded, with no name in it. -/
theorem enterScope (h : BoundWithin ls own blocks) : BoundWithin ls ([] :: own) ([] :: blocks) :=
  .cons (fun _ _ ↦ nofun) h

/-- A block is left and its record with it. -/
theorem exitScope (h : BoundWithin ls own blocks) : BoundWithin ls own.tail blocks.tail := by
  cases h with
  | nil => exact .nil
  | cons _ h => exact h

/-- A name that is bound is recorded. -/
theorem add (h : BoundWithin ls own blocks) (name : String) :
    BoundWithin ls (own.modifyHead (· ++ [name])) (blocks.modifyHead (· ++ [name])) := by
  cases h with
  | nil => exact .nil
  | cons hhead h =>
    refine .cons (fun x hx hmem ↦ ?_) h
    exact List.mem_append.2 ((List.mem_append.1 hmem).imp_left (hhead x hx))

/-- A name that is none of them may be bound without being recorded. -/
theorem add_of_not_mem (h : BoundWithin ls own blocks) (hname : name ∉ ls) :
    BoundWithin ls (own.modifyHead (· ++ [name])) blocks := by
  cases h with
  | nil => exact .nil
  | cons hhead h =>
    refine .cons (fun x hx hmem ↦ ?_) h
    refine hhead x hx ((List.mem_append.1 hmem).resolve_right fun hlast ↦ ?_)
    exact hname (List.mem_singleton.1 hlast ▸ hx)

/-- A name that is not recorded in the innermost block is not bound there. -/
theorem not_mem_head (h : BoundWithin ls own blocks) (hname : name ∈ ls)
    (hnew : ∀ block ∈ blocks.head?, name ∉ block) : ∀ bound ∈ own.head?, name ∉ bound := by
  cases h with
  | nil => nofun
  | cons hhead h =>
    simp only [List.head?_cons, Option.mem_some_iff, forall_eq'] at hnew ⊢
    exact fun hmem ↦ hnew (hhead name hname hmem)

end BoundWithin

/-- The names bound in the scopes of calls, the call in progress first, are as recorded: exactly for
the program itself, and for a function with regard to the names that its body declares. A call that
waits is kept to what is recorded where it goes on. -/
inductive Kept (Marks : Nat → Note → Prop) :
    Note → List Waiting → (blocks : Nat) → List (List String) → Prop where
  | top {n : Note} {blocks : Nat} {names : List (List String)} (hlets : n.lets = none)
      (hnames : names = n.names) : Kept Marks n [] blocks names
  | call {n n' : Note} {ls : List String} {w : Waiting} {ws : List Waiting} {blocks : Nat}
      {bound : List String} {own rest : List (List String)} (hlets : n.lets = some ls)
      (hown : BoundWithin ls (bound :: own) n.names) (hlength : own.length = blocks)
      (hresume : Marks w.resume n') (hbound : n'.bound = none)
      (hrest : Kept Marks n' ws w.blocks rest) :
      Kept Marks n (w :: ws) blocks (bound :: own ++ rest)

namespace Kept

variable {Marks : Nat → Note → Prop} {n n' : Note} {ws : List Waiting} {blocks : Nat}
  {names : List (List String)} {name : String}

/-- Another note with the same names. -/
theorem congr (h : Kept Marks n ws blocks names) (hlets : n'.lets = n.lets)
    (hnames : n'.names = n.names) : Kept Marks n' ws blocks names := by
  cases h with
  | top h heq => exact .top (hlets.trans h) (heq.trans hnames.symm)
  | call h hown hlength hresume hbound hrest =>
    exact .call (hlets.trans h) (hnames ▸ hown) hlength hresume hbound hrest

/-- Entering a block keeps what is recorded of the calls that wait. -/
theorem enterScope (h : Kept Marks n ws blocks names) (hlets : n'.lets = n.lets)
    (hnames : n'.names = [] :: n.names) : Kept Marks n' ws (blocks + 1) ([] :: names) := by
  cases h with
  | top h heq => exact .top (hlets.trans h) (by rw [hnames, heq])
  | @call _ _ ls _ _ _ bound own rest h hown hlength hresume hbound hrest =>
    have hown' : BoundWithin ls ([] :: bound :: own) n'.names := hnames ▸ hown.enterScope
    exact .call (hlets.trans h) hown' (congrArg (· + 1) hlength) hresume hbound hrest

theorem exitScope (h : Kept Marks n ws (blocks + 1) names) (hlets : n'.lets = n.lets)
    (hnames : n'.names = n.names.tail) : Kept Marks n' ws blocks names.tail := by
  cases h with
  | top h heq => exact .top (hlets.trans h) (by rw [hnames, heq])
  | @call _ _ ls _ _ _ bound own rest h hown hlength hresume hbound hrest =>
    obtain ⟨bound', own, rfl⟩ := List.exists_cons_of_length_eq_add_one hlength
    have hown' : BoundWithin ls (bound' :: own) n'.names := hnames ▸ hown.exitScope
    exact .call (hlets.trans h) hown' (Nat.succ.inj hlength) hresume hbound hrest

/-- A name is bound and recorded. -/
theorem add (h : Kept Marks n ws blocks names) (hlets : n'.lets = n.lets)
    (hnames : n'.names = n.names.modifyHead (· ++ [name])) :
    Kept Marks n' ws blocks (names.modifyHead (· ++ [name])) := by
  cases h with
  | top h heq => exact .top (hlets.trans h) (by rw [hnames, heq])
  | @call _ _ ls _ _ _ bound own rest h hown hlength hresume hbound hrest =>
    have hown' : BoundWithin ls ((bound ++ [name]) :: own) n'.names := hnames ▸ hown.add name
    exact .call (hlets.trans h) hown' hlength hresume hbound hrest

/-- A variable is set. Outside functions its name is added to both sides, or to none. -/
theorem set (h : Kept Marks n ws blocks names) (hlets : n'.lets = n.lets)
    (hnames : n'.names = n.namesAfter (.set name)) (hadmits : n.Admits (.set name))
    (hbound : n.bound = some name → name ∈ names.flatten) :
    Kept Marks n' ws blocks
      (if name ∈ names.flatten then names else names.modifyHead (· ++ [name])) := by
  rw [Note.namesAfter] at hnames
  cases h with
  | top h heq =>
    subst heq
    refine .top (hlets.trans h) ?_
    rw [hnames, h]
    by_cases hmem : name ∈ n.names.flatten
    · rw [if_pos hmem, if_pos (.inr (.inr hmem))]
    · rw [if_neg hmem, if_neg]
      rintro (hsome | hb | hmem')
      · cases hsome
      · exact hmem (hbound hb)
      · exact hmem hmem'
  | @call _ _ ls _ _ _ bound own rest h hown hlength hresume hbound' hrest =>
    rw [if_pos (.inl (Option.isSome_iff_exists.2 ⟨ls, h⟩))] at hnames
    split
    · exact .call (hlets.trans h) (hnames ▸ hown) hlength hresume hbound' hrest
    · rename_i hfree
      -- The name is bound nowhere, so this is no step of a variable that was just read.
      have hname : name ∉ ls := hadmits.resolve_left (fun hb ↦ hfree (hbound hb)) ls h
      have hown' : BoundWithin ls ((bound ++ [name]) :: own) n'.names :=
        hnames ▸ hown.add_of_not_mem hname
      exact .call (hlets.trans h) hown' hlength hresume hbound' hrest

/-- Without the scopes of the call in progress, the call that waits for it is kept to what is
recorded where it goes on. -/
theorem exists_resume {w : Waiting} (h : Kept Marks n (w :: ws) blocks names) :
    ∃ n', Marks w.resume n' ∧ n'.bound = none ∧
      Kept Marks n' ws w.blocks (names.drop (blocks + 1)) := by
  cases h with
  | @call _ n' _ _ _ _ bound own rest _ _ hlength hresume hbound hrest =>
    refine ⟨n', hresume, hbound, ?_⟩
    rw [List.cons_append, List.drop_succ_cons, ← hlength, List.drop_left]
    exact hrest

/-- A name that may be declared is not bound in the innermost scope. -/
theorem not_mem_head (h : Kept Marks n ws blocks names) {type : Tag}
    (hadmits : n.Admits (.decl name type)) : ∀ bound ∈ names.head?, name ∉ bound := by
  cases h with
  | top _ heq => exact heq ▸ hadmits.1
  | call h hown => exact hown.not_mem_head (hadmits.2 _ h) hadmits.1

end Kept

/-- What is recorded where the next instruction is holds of the names that are bound. -/
def Outline.Kept (Marks : Nat → Note → Prop) (o : Outline) : Prop :=
  ∃ n, Marks o.ip n ∧ (∀ name, n.bound = some name → name ∈ o.scopes.names.flatten) ∧
    Scriptlet.Kept Marks n o.callers o.blocks o.scopes.names

/-- What is recorded of the code of a machine is right. -/
structure Machine.Recorded (Marks : Nat → Note → Prop) (m : Machine) : Prop where
  entry : Marks m.entry ⟨none, [[]], none⟩
  line : ∀ {offset : Nat} {n : Note}, Marks offset n → offset < m.code.size →
    ∃ i, Instr.decode m.code offset = .ok (i, offset + i.width) ∧
      Record.Sound Marks ⟨offset, i, n⟩
  function : ∀ {name : String} {f : Function}, m.find? name = some f →
    ∃ ls block, Marks f.entry.toNat ⟨some ls, [block], none⟩ ∧ f.params ⊆ block ∧ f.params.Nodup

namespace Machine.Recorded

variable {Marks : Nat → Note → Prop} {m : Machine} {o o' : Outline} {i : Instr} {n n' : Note}

/-- A function that can be called starts with its parameters recorded, no two of them alike. -/
theorem function_of_callee (h : m.Recorded Marks) {f : Function} (hcallee : m.callee? i = some f) :
    ∃ ls block, Marks f.entry.toNat ⟨some ls, [block], none⟩ ∧ f.params ⊆ block ∧
      f.params.Nodup := by
  cases i with
  | call name count | tailCall name count => exact h.function hcallee
  | _ => cases hcallee

/-- Behind a call nothing is known to be bound. -/
theorem bound_of_callee {f : Function} (hcallee : m.callee? i = some f) (hleads : n.Leads i n') :
    n'.bound = none := by
  rw [Option.eq_none_iff_forall_ne_some]
  intro name hname
  rcases hleads.bound name hname with rfl | ⟨hkeeps, -⟩
  · cases hcallee
  · cases i with
    | call | tailCall => cases hkeeps
    | _ => cases hcallee

/-- A call falls through and binds nothing where it is made. -/
theorem names_of_callee {f : Function} (hcallee : m.callee? i = some f) :
    i.fallsThrough = true ∧ n.namesAfter i = n.names := by
  cases i with
  | call | tailCall => exact ⟨rfl, rfl⟩
  | _ => cases hcallee

/-- An instruction behind which the call in progress goes on. -/
theorem kept_goesOn (hkept : Kept Marks n o.callers o.blocks o.scopes.names)
    (hbound : ∀ name, n.bound = some name → name ∈ o.scopes.names.flatten)
    (hadmits : n.Admits i) (hleads : n.Leads i n') (hrebinds : i.Rebinds o o')
    (hcallers : o'.callers = o.callers) :
    (∀ name, n'.bound = some name → name ∈ o'.scopes.names.flatten) ∧
      Kept Marks n' o'.callers o'.blocks o'.scopes.names := by
  rw [hcallers]
  have hsame (hscopes : o'.scopes.names = o.scopes.names) (hblocks : o'.blocks = o.blocks)
      (hnames : n.namesAfter i = n.names)
      (hget : ∀ name, i = .get name → name ∈ o.scopes.names.flatten) :
      (∀ name, n'.bound = some name → name ∈ o'.scopes.names.flatten) ∧
        Kept Marks n' o.callers o'.blocks o'.scopes.names := by
    rw [hscopes, hblocks]
    refine ⟨fun name hname ↦ ?_, hkept.congr hleads.lets (hleads.names.trans hnames)⟩
    exact (hleads.bound name hname).elim (hget name) fun h ↦ hbound name h.2
  have hunbound (hkeeps : Note.keepsBound i = false) (hget : ∀ name, i ≠ .get name) (name : String)
      (hname : n'.bound = some name) : name ∈ o'.scopes.names.flatten := by
    rcases hleads.bound name hname with hi | ⟨hi, -⟩
    · exact absurd hi (hget name)
    · rw [hkeeps] at hi
      cases hi
  -- What is recorded changes where scopes do; that a name is bound is recorded behind `get` only.
  cases i with
  | get name =>
    obtain ⟨hblocks, hscopes, hvar⟩ := hrebinds
    refine hsame (by rw [hscopes]) hblocks rfl fun name' h ↦ ?_
    cases h
    exact (Scopes.isSome_var? _ _).1 hvar
  | set name =>
    obtain ⟨hblocks, v, hscopes⟩ := hrebinds
    refine ⟨hunbound rfl (by simp), ?_⟩
    rw [hblocks, Scopes.names_of_assign hscopes]
    exact hkept.set hleads.lets hleads.names hadmits (hbound name)
  | decl name type =>
    obtain ⟨hblocks, v, hscopes⟩ := hrebinds
    refine ⟨hunbound rfl (by simp), ?_⟩
    rw [hblocks, Scopes.names_of_declare hscopes]
    exact hkept.add hleads.lets hleads.names
  | unset name => exact hadmits.elim
  | setIndex name =>
    obtain ⟨hblocks, f, hscopes⟩ := hrebinds
    exact hsame (Scopes.names_of_update hscopes) hblocks rfl fun _ hi ↦ by cases hi
  | enterScope =>
    obtain ⟨hblocks, hscopes⟩ := hrebinds
    refine ⟨hunbound rfl (by simp), ?_⟩
    rw [hblocks, hscopes]
    exact hkept.enterScope hleads.lets hleads.names
  | exitScope =>
    obtain ⟨hblocks, hscopes⟩ := hrebinds
    refine ⟨hunbound rfl (by simp), ?_⟩
    rw [hblocks] at hkept
    rw [hscopes, Scopes.names, List.map_tail]
    exact hkept.exitScope hleads.lets hleads.names
  | _ =>
    obtain ⟨hblocks, hscopes⟩ := hrebinds
    exact hsame (by rw [hscopes]) hblocks rfl fun _ hi ↦ by cases hi

/-- A function that begins, inside the scopes of the call that waits for it. -/
theorem kept_entry (h : m.Recorded Marks) {f : Function} (hcallee : m.callee? i = some f)
    {w : Waiting} {ws : List Waiting} {scopes scopes' : Scopes} {args : List Value}
    (hscopes : Scopes.bindParams ([] :: scopes) f.params args = .ok scopes')
    (hresume : Marks w.resume n') (hbound : n'.bound = none)
    (hrest : Kept Marks n' ws w.blocks scopes.names) :
    ∃ n, Marks f.entry.toNat n ∧ (∀ name, n.bound = some name → name ∈ scopes'.names.flatten) ∧
      Kept Marks n (w :: ws) 0 scopes'.names := by
  obtain ⟨ls, block, hentry, hparams, -⟩ := h.function_of_callee hcallee
  refine ⟨_, hentry, nofun, ?_⟩
  rw [Scopes.names_of_bindParams hscopes]
  have hown (count : Nat) :
      BoundWithin ls [f.params.take count] (Note.mk (some ls) [block] none).names :=
    .cons (fun name _ hmem ↦ hparams (List.mem_of_mem_take hmem)) .nil
  exact .call rfl (hown _) rfl hresume hbound hrest

/-- **One step keeps the names as recorded.** -/
theorem kept_step (h : m.Recorded Marks) (ho : o.Kept Marks)
    (hstep : m.outlineStep o = .running o') : o'.Kept Marks := by
  obtain ⟨n, hmarks, hbound, hkept⟩ := ho
  obtain ⟨i, next, hlt, hdecode, hmoves⟩ := exists_moves_of_outlineStep hstep
  obtain ⟨i', hdecode', hsound⟩ := h.line hmarks hlt
  obtain ⟨rfl, rfl⟩ := Prod.mk.inj (Except.ok.inj (hdecode.symm.trans hdecode'))
  -- A last call and a `return` go back to what is recorded for the call that waits.
  cases hmoves with
  | goesOn _ _ hip hcallers _ hscopes =>
    obtain ⟨n', hmarks', hleads⟩ : ∃ n', Marks o'.ip n' ∧ n.Leads i n' := by
      rcases hip with ⟨hfalls, hip⟩ | htarget
      · rw [hip]
        exact hsound.next hfalls
      · exact hsound.target _ htarget
    exact ⟨n', hmarks', kept_goesOn hkept hbound hsound.admits hleads hscopes hcallers⟩
  | enters hcallee _ hscopes =>
    obtain ⟨hfalls, hnames⟩ := names_of_callee (n := n) hcallee
    obtain ⟨n', hmarks', hleads⟩ := hsound.next hfalls
    exact h.kept_entry hcallee hscopes hmarks' (bound_of_callee hcallee hleads)
      (hkept.congr hleads.lets (hleads.names.trans hnames))
  | replaced hcallee _ hcallers hscopes =>
    obtain ⟨w, ws, hws⟩ := List.exists_cons_of_ne_nil hcallers
    replace hws : o.callers = w :: ws := hws
    rw [hws] at hkept
    obtain ⟨n', hresume, hbound', hrest⟩ := hkept.exists_resume
    rw [Scopes.names, ← List.map_drop] at hrest
    obtain ⟨n₁, hentry, hunbound, hkept₁⟩ := h.kept_entry hcallee hscopes hresume hbound' hrest
    rw [← hws] at hkept₁
    exact ⟨n₁, hentry, hunbound, hkept₁⟩
  | @givesBack w ws _ _ hcallers =>
    replace hcallers : o.callers = w :: ws := hcallers
    rw [hcallers] at hkept
    obtain ⟨n', hresume, hbound', hrest⟩ := hkept.exists_resume
    rw [Scopes.names, ← List.map_drop] at hrest
    exact ⟨n', hresume, fun name hname ↦ (by cases hbound'.symm.trans hname), hrest⟩

/-- **A step never fails because a name is declared twice.** -/
theorem fresh_step (h : m.Recorded Marks) (ho : o.Kept Marks) :
    (m.outlineStep o).Fresh Fault.cause := by
  obtain ⟨n, hmarks, -, hkept⟩ := ho
  rw [outlineStep]
  split
  · rename_i hlt
    obtain ⟨i, hdecode, hsound⟩ := h.line hmarks hlt
    rw [hdecode]
    have hexec : (m.outlineExec { o with ip := o.ip + i.width } i).Fresh id := by
      refine fresh_outlineExec (fun name type hi ↦ ?_) fun f hcallee ↦ ?_
      · subst hi
        exact hkept.not_mem_head hsound.admits
      · obtain ⟨-, -, -, -, hnodup⟩ := h.function_of_callee hcallee
        exact hnodup
    simp only
    cases hr : m.outlineExec { o with ip := o.ip + i.width } i <;> rw [hr] at hexec <;>
      exact hexec
  · trivial

/-- At the start nothing is bound, and nothing is recorded. -/
theorem kept_start (h : m.Recorded Marks) : m.outlineStart.Kept Marks :=
  ⟨_, h.entry, nofun, .top rfl rfl⟩

/-- **A run keeps the names as recorded, and never declares one twice.** -/
theorem kept_runFor (h : m.Recorded Marks) {s : State} (hout : s.Outlined o) (ho : o.Kept Marks)
    (count : Nat) :
    (∀ s', m.runFor count s = .running s' → ∃ o', s'.Outlined o' ∧ o'.Kept Marks) ∧
      ∀ f s', m.runFor count s = .failed f s' → f.cause.isRedeclaration = false := by
  induction count generalizing s o with
  | zero =>
    refine ⟨fun s' hrun ↦ ?_, fun _ _ hfail ↦ (by cases hfail)⟩
    cases hrun
    exact ⟨o, hout, ho⟩
  | succ count ih =>
    have hfresh := h.fresh_step ho
    have hstep := m.step_outlined hout
    rw [runFor]
    rcases hr : m.step s with s₁ | ⟨t, s₁⟩ | ⟨f, s₁⟩
    · obtain ⟨o₁, hout₁, hstep₁⟩ := exists_outlineStep_of_step hout hr
      exact ih hout₁ (h.kept_step ho hstep₁)
    · exact ⟨fun _ hrun ↦ (by cases hrun), fun _ _ hfail ↦ (by cases hfail)⟩
    · refine ⟨fun _ hrun ↦ (by cases hrun), fun f' s' hfail ↦ ?_⟩
      cases hfail
      rw [hr] at hstep
      generalize m.outlineStep o = p at hstep hfresh
      cases hstep with
      | failed => exact hfresh

end Machine.Recorded

/-! ### Compiled programs -/

/-- What a recording has: a note at each instruction, and one at the end of the code. -/
def Recording.Notes (R : Recording) (stop : Nat) (last : Note) (offset : Nat) (n : Note) : Prop :=
  (∃ r ∈ R.records, r.offset = offset ∧ r.note = n) ∨ offset = stop ∧ n = last

/-- **What is recorded of a compiled program is right.** -/
theorem Image.Lists.recorded {image : Image} {p : Program} {L : Listing} (h : image.Lists p L)
    (htame : Stmt.TameAll none p) {R : Recording} {c : Context}
    (hR : Stmt.RecordedAll none .top .start p headerSize image.code.size R c)
    (hcovers : R.Covers L) (hvalid : Stmt.validAll 0 .top p = true) (table : Table)
    (limits : Limits) :
    (Machine.ofImage image table limits).Recorded (R.Notes image.code.size (c.note none)) := by
  have hlines : ∀ r ∈ R.records, R.Notes image.code.size (c.note none) r.offset r.note :=
    fun r hr ↦ .inl ⟨r, hr, rfl, rfl⟩
  obtain ⟨hstart, hsound⟩ := hR.sound false htame ⟨fun _ ↦ rfl, fun _ ↦ rfl⟩ .top hlines fun _ ↦
    .inr ⟨rfl, rfl⟩
  refine ⟨?_, fun hnotes hlt ↦ ?_, fun hf ↦ ?_⟩
  · rw [Machine.ofImage, h.mainEntry]
    exact hstart rfl
  · rcases hnotes with ⟨r, hr, rfl, rfl⟩ | ⟨rfl, -⟩
    -- A record and a line of the listing agree in offset and instruction.
    · obtain ⟨e, he, hline⟩ : ∃ e ∈ L.entries, (e.offset, e.instr) = (r.offset, r.instr) := by
        have hmem := List.mem_map_of_mem (f := fun r : Record ↦ (r.offset, r.instr)) hr
        rwa [hcovers.lines, List.mem_map] at hmem
      obtain ⟨hoffset, hinstr⟩ := Prod.mk.inj hline
      have hstands := h.stands e he
      rw [Entry.Stands, Entry.next, hoffset, hinstr] at hstands
      exact ⟨r.instr, hstands, hsound.records r hr⟩
    · exact absurd hlt (Nat.lt_irrefl _)
  · obtain ⟨g, hg, rfl⟩ := h.exists_located hf
    obtain ⟨hentry, hparams⟩ := hsound.functions g (hcovers.functions ▸ hg)
    refine ⟨Stmt.declaredAll g.body, g.head.params.reverse, ?_, ?_, ?_⟩
    · rw [h.toNat_entry hvalid hg]
      exact hentry
    · rw [g.params_function]
      exact fun name ↦ List.mem_reverse.2
    · rw [g.params_function]
      exact hparams

/-- **The check for duplicate declarations is sound.** Take a program that compiles, in which
nothing is undeclared and no body of a function both assigns to a name and declares it, any host and
any limits. No run fails because a name is declared twice. Whenever the program itself is executed,
the names bound in each open scope are exactly those that the reader has recorded in the block that
the scope was opened for. -/
theorem ne_alreadyDeclared_and_names_eq_of_compile {source : String} {ts : Tokens} {p : Program}
    {image : Image} (hts : Tokens.ofText source = .ok ts) (hp : Program.ofTokens ts = .ok p)
    (h : compile source = .ok image) (hkeeps : Stmt.keepsNamesAll p = true)
    (hunmixed : ∀ f ∈ Stmt.functionsAll p, Stmt.Unmixed f.2) (table : Table) (limits : Limits) :
    (∀ count f s, (Machine.ofImage image table limits).runFor count
        (Machine.ofImage image table limits).start = .failed f s →
      ∀ name, f.cause ≠ .alreadyDeclared name) ∧
    ∃ R c, Stmt.RecordedAll none .top .start p headerSize image.code.size R c ∧
      ∀ s, (Machine.ofImage image table limits).Reaches s → s.callers = #[] →
        ∃ o, s.Outlined o ∧
          ((∃ r ∈ R.records, r.offset = s.ip ∧ r.note.lets = none ∧
              o.scopes.names = r.note.names) ∨
            s.ip = image.code.size ∧ o.scopes.names = c.names) := by
  obtain ⟨p', hp', hassemble⟩ := exists_program_of_compileTokens (compileTokens_of_compile hts h)
  obtain rfl : p = p' := Except.ok.inj (hp.symm.trans hp')
  obtain ⟨L, hL⟩ := Program.exists_lists hassemble
  obtain ⟨-, hvalid⟩ := Program.spelled_and_valid_of_ofTokens hp
  obtain ⟨c, hchecked⟩ := Program.exists_checkedAll_of_ofTokens hp
  obtain ⟨R, hR, hcovers⟩ := hL.listed.exists_recorded none hchecked
  have htame : Stmt.TameAll none p := ⟨⟨0, .top, hvalid⟩, hkeeps, nofun, hunmixed⟩
  have hrecorded := hL.recorded htame hR hcovers hvalid table limits
  have hrun := hrecorded.kept_runFor (Machine.start_outlined _) hrecorded.kept_start
  refine ⟨fun count f s hfail name hcause ↦ ?_, R, c, hR, ?_⟩
  · have := (hrun count).2 f s hfail
    rw [hcause] at this
    cases this
  · rintro s ⟨count, hreach⟩ halone
    obtain ⟨o, hout, n, hnotes, -, hkept⟩ := (hrun count).1 s hreach
    refine ⟨o, hout, ?_⟩
    have hcallers : o.callers = [] := by
      rw [← List.length_eq_zero_iff, ← hout.size_callers, halone]
      rfl
    rw [hcallers] at hkept
    cases hkept with
    | top hlets hnames =>
      rw [hout.ip]
      rcases hnotes with ⟨r, hr, hoffset, rfl⟩ | ⟨hend, rfl⟩
      · exact .inl ⟨r, hr, hoffset, hlets, hnames⟩
      · exact .inr ⟨hend, hnames⟩

/-- A loop that declares a name each time around, where another name was bound by an assignment, and
a function that steps a name it declares and assigns to one of its caller. -/
def declaresInLoop : String :=
  "x = 2; func f(n) \x7b let a = n; ++a; x = x - 1; return a; \x7d " ++
    "while (x) \x7b let y = f(x); \x7d let y = x;"

theorem ne_alreadyDeclared_and_names_eq_declaresInLoop :
    ∃ ts p image, Tokens.ofText declaresInLoop = .ok ts ∧ Program.ofTokens ts = .ok p ∧
      compile declaresInLoop = .ok image ∧
      (∀ count f s, (Machine.ofImage image .empty {}).runFor count
          (Machine.ofImage image .empty {}).start = .failed f s →
        ∀ name, f.cause ≠ .alreadyDeclared name) ∧
      ∃ R c, Stmt.RecordedAll none .top .start p headerSize image.code.size R c ∧
        ∀ s, (Machine.ofImage image .empty {}).Reaches s → s.callers = #[] →
          ∃ o, s.Outlined o ∧
            ((∃ r ∈ R.records, r.offset = s.ip ∧ r.note.lets = none ∧
                o.scopes.names = r.note.names) ∨
              s.ip = image.code.size ∧ o.scopes.names = c.names) := by
  have hchecks : testRun declaresInLoop {} 0 (fun p _ ↦ Stmt.keepsNamesAll p &&
      decide (∀ f ∈ Stmt.functionsAll p, Stmt.Unmixed f.2)) = true := by
    decide +kernel
  obtain ⟨ts, p, image, hts, hp, hcompile, hchecks⟩ := exists_of_testRun hchecks
  rw [Bool.and_eq_true] at hchecks
  exact ⟨ts, p, image, hts, hp, hcompile, ne_alreadyDeclared_and_names_eq_of_compile hts hp
    hcompile hchecks.1 (of_decide_eq_true hchecks.2) .empty {}⟩

end Scriptlet
