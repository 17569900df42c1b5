import Scriptlet.Proofs.Code.Functions
import Scriptlet.Proofs.Code.WithoutTail
import Scriptlet.Proofs.Machine.Enclosed
import Scriptlet.Proofs.Tree.Unambiguous

/-!
# Last calls keep the meaning

Take a program whose functions are closed, and the same program without `tail`. Where the first one
replaces a call by its last call, the second one **keeps the call waiting**, at a `return` that only
hands on what it is given. So the two machines run side by side, the second one with more calls that
wait and with more scopes around those of the call in progress. Closed functions do not see these
scopes. When a value is given back, the second machine hands it on through all calls that wait at a
`return`; in the meantime the first one stands still.

`Below` relates the calls that wait and the scopes around. A step of the second machine is a step of
the first one or none at all (`Follows`), so a run that ends is a run of the first that ends alike.
Only the depth of calls can tell the two apart, since the second machine needs more of it.
-/

namespace Scriptlet

open Machine

/-! ### Giving back twice -/

/-- A value that was coerced stays as it is when it is coerced again. -/
theorem Value.coerce_of_coerce {v w : Value} {type : Tag} (h : v.coerce type = .ok w) :
    w.coerce type = .ok w := by
  by_cases hauto : type = .auto
  · subst hauto
    rfl
  · have htag := Value.tag_of_coerce hauto h
    cases type with
    | auto => exact absurd rfl hauto
    | int | float | bool => cases w <;> first | rfl | cases htag
    | str | list | null => exact if_pos htag

/-- What a call of one kind gives back, a call of another kind hands on as it is. A call without a
value counts only where nothing is given back. -/
def Absorbs (outer inner : Returns) : Prop :=
  ∀ v u, (v = none → inner = .void) → resultOf inner v = .ok u → resultOf outer (some u) = .ok u

/-- What gives anything back hands everything on. -/
theorem Absorbs.any (inner : Returns) : Absorbs .any inner :=
  fun _ _ _ _ ↦ rfl

/-- A value that has a type already is handed on by a call of the same type. -/
theorem Absorbs.refl (returns : Returns) : Absorbs returns returns := by
  intro v u hbare h
  cases returns with
  | void =>
    cases h
    rfl
  | any => rfl
  | typed type =>
    cases v with
    | none => exact absurd (hbare rfl) nofun
    | some v => exact Value.coerce_of_coerce h

/-! ### Two machines -/

variable {Marks : Nat → Point → Prop} {m : Machine} {code : Array UInt8}

/-- The machine with other code. -/
def Machine.withCode (m : Machine) (code : Array UInt8) : Machine :=
  { m with code }

/-- An instruction does the same in other code of the same size. -/
theorem Machine.outlineExec_withCode (h : code.size = m.code.size) (o : Outline) (i : Instr) :
    (m.withCode code).outlineExec o i = m.outlineExec o i := by
  cases i with
  | jump | jumpIfFalse => simp only [outlineExec, withCode, h]
  | _ => rfl

/-- A last call of a function of the host is a call. -/
theorem Machine.outlineExec_withoutTail {o : Outline} {i : Instr} (h : m.callee? i = none) :
    m.outlineExec o i.withoutTail = m.outlineExec o i := by
  cases i with
  | tailCall name count =>
    have hf : m.find? name = none := h
    simp only [Instr.withoutTail, outlineExec, outlineCall, outlineApply, hf]
  | _ => rfl

/-- What is asked of an instruction at a point, given the code without last calls. -/
structure Machine.SealedLine (m : Machine) (code : Array UInt8) (p : Point) (i : Instr)
    (next : Nat) : Prop where
  usesOnly : p.owner.isSome → i.UsesOnly p.blocks.flatten
  last : ∀ name count, i = .tailCall name count → ∃ head, p.owner = some head ∧
    (∀ f, m.find? name = some f → Absorbs head.returns f.returns) ∧ next < code.size ∧
      Instr.decode code next = .ok (.ret, next + Instr.ret.width)
  bare : i = .retVoid → ∀ head, p.owner = some head → head.returns = .void

/-- The notes on the code of a machine are right, its functions are closed, and their last calls
agree. The other code has calls in place of the last calls. -/
structure Machine.Sealed (Marks : Nat → Point → Prop) (m : Machine) (code : Array UInt8) :
    Prop where
  entry : Marks m.entry Spot.top.point
  size : code.size = m.code.size
  line : ∀ {offset : Nat} {p : Point}, Marks offset p → offset < m.code.size →
    ∃ i, Entry.Stands m.code ⟨offset, i, p⟩ ∧ Entry.Stands code ⟨offset, i.withoutTail, p⟩ ∧
      Entry.Sound Marks ⟨offset, i, p⟩ ∧ m.SealedLine code p i (offset + i.width)
  function : ∀ {name : String} {f : Function}, m.find? name = some f →
    ∃ head, Marks f.entry.toNat (Spot.body head).point ∧ f.returns = head.returns ∧
      f.params = head.params

/-! ### Calls that wait -/

/-- The calls that wait in two machines and the scopes around the call in progress, which gives back
a value of some kind. A call waits in both machines, or in the second one only and at a `return`. -/
inductive Below (Marks : Nat → Point → Prop) (code : Array UInt8) :
    Returns → List Waiting → Scopes → List Waiting → Scopes → Prop where
  | top {returns : Returns} : Below Marks code returns [] [] [] []
  | waits {returns : Returns} {w : Waiting} {ws ws' : List Waiting} {own rest rest' : Scopes}
      {p : Point} (hmarks : Marks w.resume p) (hcall : p.Describes w.blocks w.returns own ws)
      (hrest : Below Marks code w.returns ws rest ws' rest') :
      Below Marks code returns (w :: ws) (own ++ rest) (w :: ws') (own ++ rest')
  | pending {returns : Returns} {w : Waiting} {ws ws' : List Waiting} {own rest rest' : Scopes}
      (hlt : w.resume < code.size)
      (hret : Instr.decode code w.resume = .ok (.ret, w.resume + Instr.ret.width))
      (habsorbs : Absorbs w.returns returns) (hlength : own.length = w.blocks + 1) (hne : ws ≠ [])
      (hrest : Below Marks code w.returns ws rest ws' rest') :
      Below Marks code returns ws rest (w :: ws') (own ++ rest')

namespace Below

variable {returns : Returns} {ws ws' : List Waiting} {rest rest' : Scopes}

/-- In the second machine at least as many calls wait. -/
theorem length_le (h : Below Marks code returns ws rest ws' rest') : ws.length ≤ ws'.length := by
  induction h with
  | top => exact Nat.le_refl _
  | waits _ _ _ ih => exact Nat.succ_le_succ ih
  | pending _ _ _ _ _ _ ih => exact Nat.le_succ_of_le ih

/-- There is nothing around the program itself. -/
theorem eq_nil (h : Below Marks code returns [] rest ws' rest') :
    rest = [] ∧ ws' = [] ∧ rest' = [] := by
  generalize hws : [] = ws at h
  cases h with
  | top => exact ⟨rfl, rfl, rfl⟩
  | waits => cases hws
  | pending _ _ _ _ hne => exact absurd hws.symm hne

/-- A call that waits has a scope. -/
theorem rest_ne_nil (h : Below Marks code returns ws rest ws' rest') (hne : ws ≠ []) :
    rest ≠ [] := by
  induction h with
  | top => exact absurd rfl hne
  | waits _ hcall _ _ => exact List.append_ne_nil_of_left_ne_nil hcall.ne_nil _
  | pending _ _ _ _ hne _ ih => exact ih hne

/-- The global scope is the same in both. -/
theorem getLast?_eq (h : Below Marks code returns ws rest ws' rest') :
    rest'.getLast? = rest.getLast? := by
  induction h with
  | top => rfl
  | waits _ _ _ ih => rw [List.getLast?_append, List.getLast?_append, ih]
  | pending _ _ _ _ hne hrest ih =>
    rw [List.getLast?_append, ih, List.getLast?_eq_some_getLast (hrest.rest_ne_nil hne),
      Option.some_or]

/-- The global variables are the same. -/
theorem globals_under (h : Below Marks code returns ws rest ws' rest') (c : Outline) :
    (c.under ws rest).globals = (c.under ws' rest').globals := by
  simp only [Outline.globals, Outline.under, List.getLast?_append, h.getLast?_eq]

end Below

/-! ### Two runs -/

/-- The same call is in progress in two machines, above calls that wait. -/
inductive Synced (Marks : Nat → Point → Prop) (code : Array UInt8) : Outline → Outline → Prop where
  | under {c : Outline} {p : Point} {ws ws' : List Waiting} {rest rest' : Scopes}
      (hmarks : Marks c.ip p) (hcall : p.Describes c.blocks c.returns c.scopes ws)
      (hbelow : Below Marks code c.returns ws rest ws' rest') :
      Synced Marks code (c.under ws rest) (c.under ws' rest')

/-- The second machine is where the first one is, or comes there by itself. -/
inductive Follows (Marks : Nat → Point → Prop) (m : Machine) (code : Array UInt8) (o : Outline) :
    Outline → Prop where
  | here {o' : Outline} (h : Synced Marks code o o') : Follows Marks m code o o'
  | later {o' o₁ : Outline} (hstep : (m.withCode code).outlineStep o' = .running o₁)
      (h : Follows Marks m code o o₁) : Follows Marks m code o o'

/-- The first machine goes on, ends or fails like the second one, unless the second one has too many
calls that wait. -/
inductive Outline.Progress.Matches {ε : Type} (Goes : Outline → Outline → Prop)
    (cause : ε → FaultCause) (limit : Nat) : Outline.Progress ε → Outline.Progress ε → Prop where
  | running {o o' : Outline} (h : Goes o o') : Matches Goes cause limit (.running o) (.running o')
  | ended {t : Termination} {o o' : Outline} (hglobals : o.globals = o'.globals)
      (hcalls : o.calls = o'.calls) : Matches Goes cause limit (.ended t o) (.ended t o')
  | failed {e : ε} {calls : Array Call} :
      Matches Goes cause limit (.failed e calls) (.failed e calls)
  | tooDeep {r : Outline.Progress ε} {e : ε} {calls : Array Call}
      (he : cause e = .callDepth limit) : Matches Goes cause limit r (.failed e calls)

/-- What two machines make of two outlines. -/
abbrev Matches (Marks : Nat → Point → Prop) (m : Machine) (code : Array UInt8) :
    Outline.Progress FaultCause → Outline.Progress FaultCause → Prop :=
  Outline.Progress.Matches (Follows Marks m code) id m.limits.maxFrames

section

variable {c : Outline} {p : Point} {ws ws' : List Waiting} {rest rest' : Scopes}

/-! ### Giving back -/

/-- The outline of a call that goes on with some operands. -/
def Waiting.resumed (w : Waiting) (ws : List Waiting) (scopes : Scopes) (stack : List Value)
    (calls : Array Call) : Outline :=
  ⟨w.resume, stack, w.blocks, w.returns, ws, scopes, calls⟩

/-- **A value is handed on** through the calls that wait at a `return`. -/
theorem Below.exists_follows {returns : Returns} {w : Waiting} {v : Option Value} {u : Value}
    (h : Below Marks code returns (w :: ws) rest ws' rest') (hbare : v = none → returns = .void)
    (hresult : resultOf returns v = .ok u) {stack : List Value}
    (hstack : stack.length < m.limits.maxStack) (calls : Array Call) :
    ∃ w₁ ws₁, ws' = w₁ :: ws₁ ∧ Follows Marks m code (w.resumed ws rest (u :: stack) calls)
      (w₁.resumed ws₁ rest' (u :: stack) calls) := by
  generalize hws : w :: ws = waiting at h
  induction h generalizing v with
  | top => cases hws
  | @waits _ _ _ ws₁ own _ _ p hmarks hcall hrest =>
    cases hws
    refine ⟨w, ws₁, rfl, .here ?_⟩
    have hcall' : p.Describes (w.resumed [] own (u :: stack) calls).blocks w.returns own ws := hcall
    exact .under hmarks hcall' hrest
  | @pending returns w' _ ws₁ own _ rest₁ hlt hret habsorbs hlength _ hrest ih =>
    -- One step of the second machine hands the value on; the first machine has done with it.
    have hagain := habsorbs v u hbare hresult
    obtain ⟨w₁, ws₂, rfl, hfollows⟩ := ih (v := some u) nofun hagain hws
    refine ⟨w', _, rfl, .later ?_ hfollows⟩
    have hlt' : (w'.resumed (w₁ :: ws₂) (own ++ rest₁) (u :: stack) calls).ip <
        (m.withCode code).code.size := hlt
    have hret' : Instr.decode (m.withCode code).code
        (w'.resumed (w₁ :: ws₂) (own ++ rest₁) (u :: stack) calls).ip =
          .ok (.ret, w'.resume + Instr.ret.width) := hret
    have hroom : stack.length < (m.withCode code).limits.maxStack := hstack
    rw [outlineStep, if_pos hlt', hret']
    simp only [outlineExec, Waiting.resumed, outlineGiveBack, List.drop_left' hlength, hagain,
      Outline.pushResult, Outline.push, if_pos hroom, Outline.Progress.mapError]

/-- Both machines give back a value. -/
theorem Below.matches_giveBack {v : Option Value}
    (h : Below Marks code c.returns ws rest ws' rest')
    (hbare : v = none → ws ≠ [] → c.returns = .void) (hlength : c.scopes.length = c.blocks + 1) :
    Matches Marks m code (m.outlineGiveBack (c.under ws rest) v)
      (m.outlineGiveBack (c.under ws' rest') v) := by
  -- Below the program itself no call waits, in neither machine.
  cases ws with
  | nil =>
    obtain ⟨rfl, rfl, rfl⟩ := h.eq_nil
    exact .ended rfl rfl
  | cons w ws =>
    have hgive {w : Waiting} {ws : List Waiting} (rest : Scopes) :
        m.outlineGiveBack (c.under (w :: ws) rest) v =
          (w.resumed ws rest c.stack c.calls).pushResult m.limits.maxStack
            (resultOf c.returns v) := by
      simp only [outlineGiveBack, Outline.under, List.drop_left' hlength]
      rfl
    obtain ⟨w', ws₁, rfl⟩ : ∃ w' ws₁, ws' = w' :: ws₁ :=
      List.exists_cons_of_length_pos (Nat.lt_of_lt_of_le (Nat.succ_pos _) h.length_le)
    rw [hgive, hgive]
    -- The value is coerced by the call in progress, the same one in both machines.
    cases hresult : resultOf c.returns v with
    | error e => exact .failed
    | ok u =>
      rw [Outline.pushResult, Outline.pushResult]
      by_cases hstack : c.stack.length < m.limits.maxStack
      · have hpush (w : Waiting) (ws : List Waiting) (rest : Scopes) :
            (w.resumed ws rest c.stack c.calls).push m.limits.maxStack u =
              .running (w.resumed ws rest (u :: c.stack) c.calls) := if_pos hstack
        obtain ⟨w₁, ws₂, hws, hfollows⟩ :=
          h.exists_follows (fun hv ↦ hbare hv (List.cons_ne_nil _ _)) hresult hstack c.calls
        cases hws
        rw [hpush, hpush]
        exact .running hfollows
      · have hpush (w : Waiting) (ws : List Waiting) (rest : Scopes) :
            (w.resumed ws rest c.stack c.calls).push m.limits.maxStack u =
              .failed (.stackOverflow m.limits.maxStack) c.calls := if_neg hstack
        rw [hpush, hpush]
        exact .failed

/-! ### Calls -/

/-- A function is entered in a scope of its own. -/
theorem outlineEnter_under (c : Outline) (ws : List Waiting) (rest : Scopes) (f : Function)
    (args : List Value) :
    outlineEnter (c.under ws rest) f args =
      (outlineEnter { c with scopes := [] } f args).under ws (c.scopes ++ rest) := by
  have hbind : Scopes.bindParams ([] :: (c.scopes ++ rest)) f.params args =
      (Scopes.bindParams [[]] f.params args).map (· ++ (c.scopes ++ rest)) := by
    rw [← Scopes.bindParams_append (List.cons_ne_nil _ _), List.singleton_append]
  rw [outlineEnter, outlineEnter]
  simp only [Outline.under, hbind]
  exact Outline.onScopes_under ⟨_, _, _, _, c.callers, [], _⟩ ws (c.scopes ++ rest) _

/-- Both machines enter a function. -/
theorem Machine.Sealed.matches_outlineEnter (h : m.Sealed Marks code) {name : String} {f : Function}
    (hf : m.find? name = some f) {args : List Value} (hargs : args.length = f.params.length)
    (hscopes : c.scopes = []) (hne : ws ≠ [])
    (hbelow : Below Marks code f.returns ws rest ws' rest') :
    Matches Marks m code ((outlineEnter c f args).under ws rest)
      ((outlineEnter c f args).under ws' rest') := by
  cases henter : outlineEnter c f args with
  | running c' =>
    obtain ⟨own, hbind, rfl⟩ := moves_of_outlineEnter henter
    obtain ⟨head, hentry, hreturns, hparams⟩ := h.function hf
    rw [hscopes] at hbind
    have hnames : own.names = [head.params] := by
      rw [Scopes.names_of_bindParams hbind, hargs, List.take_length, hparams]
      rfl
    have hlength : own.length = 1 := by
      rw [← Scopes.length_names, hnames]
      rfl
    refine .running (.here (.under hentry ⟨hlength, nofun, fun head' hhead ↦ ?_⟩ hbelow))
    cases hhead
    refine ⟨hne, hreturns, ?_⟩
    rw [NamesBound, hnames]
    exact .cons (List.Subset.refl _) .nil
  | ended t c' =>
    rw [outlineEnter] at henter
    generalize Scopes.bindParams _ _ _ = r at henter
    cases r <;> cases henter
  | failed e calls => exact .failed

/-- What a call of a function of the program does before the function is entered. -/
theorem outlineCall_under_of_some {name : String} {f : Function} (hf : m.find? name = some f)
    (c : Outline) (ws : List Waiting) (rest : Scopes) (count : Nat) (isTail : Bool) :
    m.outlineCall (c.under ws rest) name count isTail =
      if count ≤ c.stack.length then
        if (c.stack.take count).reverse.length = f.params.length then
          m.outlineCallFunction ({ c with stack := c.stack.drop count }.under ws rest) f
            (c.stack.take count).reverse isTail
        else .failed (.arity name f.params.length (c.stack.take count).reverse.length) c.calls
      else .failed .stackUnderflow c.calls := by
  rw [outlineCall]
  simp only [outlineApply, hf]
  rfl

/-- A call waits for the function that it calls. -/
theorem outlineCallFunction_under (c : Outline) (ws : List Waiting) (rest : Scopes) (f : Function)
    (args : List Value) :
    m.outlineCallFunction (c.under ws rest) f args false =
      if ws.length + 1 < m.limits.maxFrames then
        (outlineEnter { c with scopes := [] } f args).under (⟨c.blocks, c.returns, c.ip⟩ :: ws)
          (c.scopes ++ rest)
      else .failed (.callDepth m.limits.maxFrames) c.calls := by
  rw [outlineCallFunction, if_neg (by simp), ← outlineEnter_under]
  rfl

/-- A last call takes the place of the call in progress. -/
theorem outlineCallFunction_under_of_last (c : Outline) (hlength : c.scopes.length = c.blocks + 1)
    (hne : ws ≠ []) (rest : Scopes) (f : Function) (args : List Value) :
    m.outlineCallFunction (c.under ws rest) f args true =
      (outlineEnter { c with scopes := [] } f args).under ws rest := by
  have hdrop : (c.under ws rest).scopes.drop ((c.under ws rest).blocks + 1) = rest :=
    List.drop_left' hlength
  rw [outlineCallFunction, if_pos ⟨rfl, hne⟩, hdrop]
  exact outlineEnter_under { c with scopes := [] } ws rest f args

/-- Both machines call a function, unless there are too many calls that wait. -/
theorem Machine.Sealed.matches_call (h : m.Sealed Marks code) {name : String} {f : Function}
    (hf : m.find? name = some f) (count : Nat) (hmarks : Marks c.ip p)
    (hcall : p.Describes c.blocks c.returns c.scopes ws)
    (hbelow : Below Marks code c.returns ws rest ws' rest') :
    Matches Marks m code (m.outlineCall (c.under ws rest) name count false)
      (m.outlineCall (c.under ws' rest') name count false) := by
  rw [outlineCall_under_of_some hf, outlineCall_under_of_some hf]
  split
  · split
    · rename_i hargs
      rw [outlineCallFunction_under, outlineCallFunction_under]
      -- No more calls wait in the first machine, so it has room wherever the second one has.
      by_cases hdepth : ws'.length + 1 < m.limits.maxFrames
      · have hlength := hbelow.length_le
        rw [if_pos hdepth, if_pos (by omega)]
        exact h.matches_outlineEnter hf hargs rfl (List.cons_ne_nil _ _)
          (.waits hmarks hcall hbelow)
      · rw [if_neg hdepth]
        exact .tooDeep rfl
    · exact .failed
  · exact .failed

/-- The first machine makes a last call where the second one makes a call. -/
theorem Machine.Sealed.matches_lastCall (h : m.Sealed Marks code) {name : String} {f : Function}
    (hf : m.find? name = some f) (count : Nat) (hlength : c.scopes.length = c.blocks + 1)
    (hne : ws ≠ []) (hlt : c.ip < code.size)
    (hret : Instr.decode code c.ip = .ok (.ret, c.ip + Instr.ret.width))
    (habsorbs : Absorbs c.returns f.returns)
    (hbelow : Below Marks code c.returns ws rest ws' rest') :
    Matches Marks m code (m.outlineCall (c.under ws rest) name count true)
      (m.outlineCall (c.under ws' rest') name count false) := by
  rw [outlineCall_under_of_some hf, outlineCall_under_of_some hf]
  split
  · split
    · rename_i hargs
      rw [outlineCallFunction_under_of_last { c with stack := c.stack.drop count } hlength hne,
        outlineCallFunction_under]
      split
      · exact h.matches_outlineEnter hf hargs rfl hne
          (.pending hlt hret habsorbs hlength hne hbelow)
      · exact .tooDeep rfl
    · exact .failed
  · exact .failed

/-! ### Instructions -/

/-- Outside functions there is nothing around the scopes, and inside no other scopes are used. -/
theorem Machine.SealedLine.settles {i : Instr} {next : Nat} (h : m.SealedLine code p i next)
    (hcall : p.Describes c.blocks c.returns c.scopes ws)
    (hbelow : Below Marks code c.returns ws rest ws' rest') :
    (rest = [] ∨ i.UsesOnly c.scopes.names.flatten) ∧
      (rest' = [] ∨ i.UsesOnly c.scopes.names.flatten) := by
  cases howner : p.owner with
  | none =>
    -- Only the program itself has no owner, and there is nothing around it.
    obtain rfl := hcall.top howner
    obtain ⟨hrest, -, hrest'⟩ := hbelow.eq_nil
    exact ⟨.inl hrest, .inl hrest'⟩
  | some head =>
    have huses := (h.usesOnly (by rw [howner]; rfl)).mono
      (hcall.function head howner).2.2.flatten_subset
    exact ⟨.inr huses, .inr huses⟩

/-- The call in progress goes on in both machines. -/
theorem Machine.Sealed.matches_of_goesOn {i : Instr} {offset : Nat} (hcallee : m.callee? i = none)
    (hreturn : i.isReturn = false) (hip : c.ip = offset + i.width)
    (hsound : Entry.Sound Marks ⟨offset, i, p⟩) (hline : m.SealedLine code p i (offset + i.width))
    (hcall : p.Describes c.blocks c.returns c.scopes ws)
    (hbelow : Below Marks code c.returns ws rest ws' rest') :
    Matches Marks m code (m.outlineExec (c.under ws rest) i)
      (m.outlineExec (c.under ws' rest') i) := by
  obtain ⟨hrest, hrest'⟩ := hline.settles hcall hbelow
  rw [outlineExec_under hcallee hreturn hcall.ne_nil hrest,
    outlineExec_under hcallee hreturn hcall.ne_nil hrest']
  cases hexec : m.outlineExec c i with
  | running c' =>
    cases moves_of_outlineExec hexec with
    | goesOn _ _ hip' _ hreturns hrebinds =>
      have hmarks : Marks c'.ip (p.after i) := by
        rcases hip' with ⟨hfalls, hip'⟩ | htarget
        · rw [hip', hip]
          exact hsound.next hfalls
        · exact hsound.target _ htarget
      exact .running (.here (.under hmarks (hcall.goesOn hline.usesOnly hrebinds hreturns)
        (hreturns ▸ hbelow)))
    | enters hcallee' | replaced hcallee' => cases hcallee.symm.trans hcallee'
    | givesBack hreturn' => cases hreturn.symm.trans hreturn'
  | ended t c' => exact .ended (hbelow.globals_under c') rfl
  | failed e calls => exact .failed

/-- **One instruction** in both machines, where the second one has a call for a last call. -/
theorem Machine.Sealed.matches_outlineExec (h : m.Sealed Marks code) {i : Instr} {offset : Nat}
    (hip : c.ip = offset + i.width) (hsound : Entry.Sound Marks ⟨offset, i, p⟩)
    (hline : m.SealedLine code p i (offset + i.width))
    (hcall : p.Describes c.blocks c.returns c.scopes ws)
    (hbelow : Below Marks code c.returns ws rest ws' rest') :
    Matches Marks m code (m.outlineExec (c.under ws rest) i)
      (m.outlineExec (c.under ws' rest') i.withoutTail) := by
  cases hcallee : m.callee? i with
  | some f =>
    cases i with
    | call name count =>
      have hmarks := hsound.next rfl
      rw [Entry.next, ← hip] at hmarks
      exact h.matches_call hcallee count hmarks (hcall.congr rfl rfl) hbelow
    | tailCall name count =>
      obtain ⟨head, howner, habsorbs, hlt, hret⟩ := hline.last name count rfl
      obtain ⟨hne, hreturns, -⟩ := hcall.function head howner
      rw [← hip] at hlt hret
      exact h.matches_lastCall hcallee count hcall.length hne hlt hret
        (hreturns ▸ habsorbs f hcallee) hbelow
    | _ => cases hcallee
  | none =>
    rw [outlineExec_withoutTail hcallee]
    cases hreturn : i.isReturn with
    | false => exact matches_of_goesOn hcallee hreturn hip hsound hline hcall hbelow
    | true =>
      cases i with
      | ret =>
        simp only [outlineExec, Outline.under]
        cases c.stack with
        | nil => exact .failed
        | cons v stack =>
          exact Below.matches_giveBack (c := { c with stack }) hbelow (fun hv ↦ by cases hv)
            hcall.length
      | retVoid =>
        -- In a function, `return` without a value stands only where nothing is given back.
        refine hbelow.matches_giveBack (fun _ hne ↦ ?_) hcall.length
        cases howner : p.owner with
        | none => exact absurd (hcall.top howner) hne
        | some head => rw [(hcall.function head howner).2.1, hline.bare rfl head howner]
      | _ => cases hreturn

/-! ### Steps and runs -/

/-- Faults that match do so at the same offset. -/
theorem Outline.Progress.Matches.mapError {Goes : Outline → Outline → Prop} {limit : Nat}
    {r r' : Outline.Progress FaultCause} (h : r.Matches Goes id limit r') (offset : Nat) :
    (r.mapError fun cause ↦ Fault.mk cause offset).Matches Goes Fault.cause limit
      (r'.mapError fun cause ↦ Fault.mk cause offset) := by
  cases h with
  | running h => exact .running h
  | ended hglobals hcalls => exact .ended hglobals hcalls
  | failed => exact .failed
  | tooDeep he => exact .tooDeep he

/-- A step is one instruction, wherever the call is made. -/
theorem Machine.outlineStep_under {i : Instr} (hlt : c.ip < m.code.size)
    (hstands : Entry.Stands m.code ⟨c.ip, i, p⟩) (ws : List Waiting) (rest : Scopes) :
    m.outlineStep (c.under ws rest) =
      (m.outlineExec ({ c with ip := c.ip + i.width }.under ws rest) i).mapError
        fun cause ↦ ⟨cause, c.ip⟩ := by
  have hdecode : Instr.decode m.code c.ip = .ok (i, c.ip + i.width) := hstands
  rw [outlineStep, Outline.ip_under, if_pos hlt, hdecode]
  rfl

/-- **One step** of both machines. -/
theorem Machine.Sealed.matches_outlineStep (h : m.Sealed Marks code) {o o' : Outline}
    (hsynced : Synced Marks code o o') :
    (m.outlineStep o).Matches (Follows Marks m code) Fault.cause m.limits.maxFrames
      ((m.withCode code).outlineStep o') := by
  obtain @⟨c, p, ws, ws', rest, rest', hmarks, hcall, hbelow⟩ := hsynced
  by_cases hlt : c.ip < m.code.size
  · obtain ⟨i, hstands, hstands', hsound, hline⟩ := h.line hmarks hlt
    have hlt' : c.ip < (m.withCode code).code.size := h.size ▸ hlt
    rw [outlineStep_under hlt hstands, outlineStep_under hlt' hstands',
      outlineExec_withCode h.size, Instr.width_withoutTail]
    exact .mapError (h.matches_outlineExec (c := { c with ip := c.ip + i.width }) rfl hsound hline
      hcall hbelow) c.ip
  · have hlt' : ¬ c.ip < (m.withCode code).code.size := h.size ▸ hlt
    rw [outlineStep, outlineStep, Outline.ip_under, Outline.ip_under, if_neg hlt, if_neg hlt']
    exact .ended (hbelow.globals_under c) rfl

/-- **A run** of the second machine is a run of the first one that is no longer. -/
theorem Machine.Sealed.exists_matches_outlineRun (h : m.Sealed Marks code) (count : Nat)
    {o o' : Outline} (hfollows : Follows Marks m code o o') :
    ∃ n ≤ count, (m.outlineRun n o).Matches (Follows Marks m code) Fault.cause m.limits.maxFrames
      ((m.withCode code).outlineRun count o') := by
  -- By induction on the steps of the second machine: the first one waits until it is followed.
  induction count generalizing o o' with
  | zero => exact ⟨0, Nat.le_refl 0, .running hfollows⟩
  | succ count ih =>
    rw [outlineRun]
    cases hfollows with
    | later hstep hlater =>
      obtain ⟨n, hn, hrun⟩ := ih hlater
      rw [hstep]
      exact ⟨n, Nat.le_succ_of_le hn, hrun⟩
    | here hsynced =>
      have hstep := h.matches_outlineStep hsynced
      generalize hr : m.outlineStep o = r at hstep
      generalize (m.withCode code).outlineStep o' = r' at hstep ⊢
      cases hstep with
      | running hgoes =>
        obtain ⟨n, hn, hrun⟩ := ih hgoes
        refine ⟨n + 1, Nat.succ_le_succ hn, ?_⟩
        rw [outlineRun, hr]
        exact hrun
      | ended hglobals hcalls =>
        refine ⟨1, Nat.succ_pos count, ?_⟩
        rw [outlineRun, hr]
        exact .ended hglobals hcalls
      | failed =>
        refine ⟨1, Nat.succ_pos count, ?_⟩
        rw [outlineRun, hr]
        exact .failed
      | tooDeep he => exact ⟨0, Nat.zero_le _, .tooDeep he⟩

end

/-! ### Images -/

/-- A last call that agrees with the function it goes to can hand its value on. -/
theorem Absorbs.of_agreesWith {head : Head} {name : String} {fs : List (Head × List Stmt)}
    (h : head.AgreesWith fs name) {f : Head × List Stmt} (hf : f ∈ fs) (hname : f.1.name = name) :
    Absorbs head.returns f.1.returns := by
  rcases h with hany | hsame
  · rw [hany]
    exact .any _
  · rw [hsame f hf hname]
    exact .refl _

/-- The image of a program of closed functions, beside the image of the program without `tail`. -/
theorem Image.Lists.sealed {image image' : Image} {p : Program} {L : Listing}
    (h : image.Lists p L) (hvalid : Stmt.validAll 0 .top p = true) (hclosed : p.Closed)
    (hlast : p.LastCallsAgree) (hsize : image'.code.size = image.code.size)
    (hstands : ∀ e ∈ L.entries, Entry.Stands image'.code { e with instr := e.instr.withoutTail })
    (table : Table) (limits : Limits) :
    (Machine.ofImage image table limits).Sealed h.Notes image'.code := by
  obtain ⟨hstart, hsound⟩ := h.sound hvalid
  have hsealed := h.listed.sealed (Program.sealedAll hvalid hclosed hlast)
  refine ⟨(h.noted hvalid table limits).entry, hsize, fun hnotes hlt ↦ ?_, fun hf ↦ ?_⟩
  · rcases hnotes with ⟨e, he, rfl, rfl⟩ | ⟨rfl, -⟩
    -- A last call is followed by a `return` in the other code, and agrees with what it calls.
    · have hline := hsealed e he
      refine ⟨e.instr, h.stands e he, hstands e he, hsound.entries e he, hline.usesOnly,
        fun name count hi ↦ ?_, hline.bare⟩
      obtain ⟨head, howner, hagrees, e', he', hoffset, hret⟩ := hline.last name count hi
      refine ⟨head, howner, fun f hf ↦ ?_, ?_, ?_⟩
      · obtain ⟨g, hg, rfl⟩ := h.exists_located hf
        have hname := List.find?_some hf
        rw [Bool.and_eq_true, beq_iff_eq, g.name_function] at hname
        rw [g.returns_function]
        exact .of_agreesWith hagrees (h.listed.map_functions ▸ List.mem_map_of_mem hg) hname.1
      · rw [hsize, ← Entry.next, ← hoffset]
        exact Nat.lt_of_lt_of_le e'.offset_lt_next (h.listed.within.lines e' he').2
      · have hret' := hstands e' he'
        rw [Entry.Stands, Entry.next, hret, hoffset] at hret'
        exact hret'
    · exact absurd hlt (Nat.lt_irrefl _)
  · obtain ⟨g, hg, rfl⟩ := h.exists_located hf
    refine ⟨g.head, ?_, g.returns_function, g.params_function⟩
    rw [h.toNat_entry hvalid hg]
    exact hsound.functions g hg

/-! ### Compiled programs -/

/-- The two machines start alike. -/
theorem Machine.Sealed.follows_outlineStart (h : m.Sealed Marks code) :
    Follows Marks m code m.outlineStart (m.withCode code).outlineStart := by
  have hcall : Spot.top.point.Describes 0 .void [[]] [] := ⟨rfl, fun _ ↦ rfl, nofun⟩
  exact .here (.under (c := m.outlineStart) h.entry hcall .top)

/-- How a run of one machine ends is how a run of the other one ends. -/
theorem Machine.Sealed.ends_alike (h : m.Sealed Marks code) (count : Nat) :
    (∀ t s', (m.withCode code).runFor count (m.withCode code).start = .ended t s' →
      ∃ n ≤ count, ∃ s, m.runFor n m.start = .ended t s ∧ s.globals = s'.globals ∧
        s.calls = s'.calls) ∧
    (∀ f s', (m.withCode code).runFor count (m.withCode code).start = .failed f s' →
      f.cause ≠ .callDepth m.limits.maxFrames →
        ∃ n ≤ count, ∃ s, m.runFor n m.start = .failed f s ∧ s.calls = s'.calls) := by
  -- The outlines match; both runs are described by theirs.
  obtain ⟨n, hn, hmatches⟩ := h.exists_matches_outlineRun count h.follows_outlineStart
  have hrun := runFor_outlined (m := m) n m.start_outlined
  have hrun' := runFor_outlined (m := m.withCode code) count (m.withCode code).start_outlined
  generalize m.outlineRun n m.outlineStart = o at hmatches hrun
  generalize (m.withCode code).outlineRun count (m.withCode code).outlineStart = o'
    at hmatches hrun'
  generalize hr : m.runFor n m.start = r at hrun
  constructor
  · intro t s' hended
    rw [hended] at hrun'
    cases hrun' with
    | ended hs' =>
      cases hmatches with
      | ended hglobals hcalls =>
        cases hrun with
        | @ended _ s _ hs =>
          refine ⟨n, hn, s, hr, ?_, ?_⟩
          · rw [hs.globals_eq, hglobals, hs'.globals_eq]
          · rw [hs.calls, hcalls, hs'.calls]
  · intro f s' hfailed hcause
    rw [hfailed] at hrun'
    cases hrun' with
    | failed =>
      generalize hcalls : s'.calls = calls at hmatches
      cases hmatches with
      | failed =>
        generalize hf : Outline.Progress.failed f calls = x at hrun
        cases hrun with
        | @failed _ s =>
          cases hf
          exact ⟨n, hn, s, hr, rfl⟩
        | running | ended => cases hf
      | tooDeep he => exact absurd he hcause

/-- **Last calls keep the meaning.** Take a program of closed functions whose last calls agree, and
a text that spells the same without `tail`. That is a program too. However a run of it ends, unless
too many calls wait, a run of the first program ends so as well, and it is no longer. -/
theorem exists_ends_alike_of_withoutTail_of_compile {source source' : String} {ts ts' : Tokens}
    {p : Program} {image : Image} (hts : Tokens.ofText source = .ok ts)
    (hp : Program.ofTokens ts = .ok p) (h : compile source = .ok image)
    (hts' : Tokens.ofText source' = .ok ts') (hkinds : ts'.kinds = withoutTail ts.kinds)
    (hclosed : p.Closed) (hlast : p.LastCallsAgree) :
    ∃ image', compile source' = .ok image' ∧ ∀ (table : Table) (limits : Limits) (count : Nat),
      (∀ t s', (Machine.ofImage image' table limits).runFor count
          (Machine.ofImage image' table limits).start = .ended t s' →
        ∃ n ≤ count, ∃ s, (Machine.ofImage image table limits).runFor n
          (Machine.ofImage image table limits).start = .ended t s ∧
            s.globals = s'.globals ∧ s.calls = s'.calls) ∧
      (∀ f s', (Machine.ofImage image' table limits).runFor count
          (Machine.ofImage image' table limits).start = .failed f s' →
        f.cause ≠ .callDepth limits.maxFrames →
          ∃ n ≤ count, ∃ s, (Machine.ofImage image table limits).runFor n
            (Machine.ofImage image table limits).start = .failed f s ∧ s.calls = s'.calls) := by
  obtain ⟨p', hp', hassemble⟩ := exists_program_of_compileTokens (compileTokens_of_compile hts h)
  obtain rfl : p = p' := Except.ok.inj (hp.symm.trans hp')
  obtain ⟨L, hL⟩ := Program.exists_lists hassemble
  obtain ⟨-, hvalid⟩ := Program.spelled_and_valid_of_ofTokens hp
  obtain ⟨image', hassemble', hfunctions, hentry, hsize, hstands⟩ :=
    hL.exists_withoutTail hassemble ts'.stop
  refine ⟨image', ?_, fun table limits count ↦ ?_⟩
  · have hcompile : compileTokens ts' = .ok image' := by
      rw [compileTokens, Program.ofTokens_of_kinds_eq_withoutTail hp hkinds]
      exact hassemble'
    rw [compile, hts']
    exact hcompile
  · have hm : Machine.ofImage image' table limits =
        (Machine.ofImage image table limits).withCode image'.code := by
      rw [Machine.ofImage, hfunctions, hentry]
      rfl
    rw [hm]
    exact (hL.sealed hvalid hclosed hlast hsize hstands table limits).ends_alike count

/-- A last call out of a loop, in a function that gives back integers. -/
def lastCallFromLoop : String :=
  "func tail int f(n) \x7b while (n) \x7b let m = n - 1; return f(m); \x7d return n; \x7d x = f(1);"

/-- The same call when it waits. -/
def lastCallThatWaits : String :=
  "func int f(n) \x7b while (n) \x7b let m = n - 1; return f(m); \x7d return n; \x7d x = f(1);"

/-- Two programs are compiled and differ in `tail` only, and the first is closed with last calls
that agree. -/
def tailOnly (source source' : String) : Bool :=
  match Tokens.ofText source, Tokens.ofText source' with
  | .ok ts, .ok ts' =>
    match Program.ofTokens ts, compile source with
    | .ok p, .ok _ => decide (ts'.kinds = withoutTail ts.kinds ∧ p.Closed ∧ p.LastCallsAgree)
    | _, _ => false
  | _, _ => false

/-- Without `tail` the program ends within 22 steps, so it does with it. -/
theorem exists_ends_alike_lastCallFromLoop :
    ∃ ts ts' p image image' t s', Tokens.ofText lastCallFromLoop = .ok ts ∧
      Program.ofTokens ts = .ok p ∧ compile lastCallFromLoop = .ok image ∧
      Tokens.ofText lastCallThatWaits = .ok ts' ∧ ts'.kinds = withoutTail ts.kinds ∧ p.Closed ∧
      p.LastCallsAgree ∧ compile lastCallThatWaits = .ok image' ∧
      (Machine.ofImage image' .empty {}).runFor 22 (Machine.ofImage image' .empty {}).start =
        .ended t s' ∧
      ∃ n ≤ 22, ∃ s, (Machine.ofImage image .empty {}).runFor n
        (Machine.ofImage image .empty {}).start = .ended t s ∧
          s.globals = s'.globals ∧ s.calls = s'.calls := by
  have hchecks : tailOnly lastCallFromLoop lastCallThatWaits = true := by decide +kernel
  have hends : testRun lastCallThatWaits {} 22 (fun _ r ↦ r.endsIn .endOfCode fun _ ↦ true) =
      true := by
    decide +kernel
  rw [tailOnly] at hchecks
  split at hchecks <;> [skip; cases hchecks]
  rename_i ts ts' hts hts'
  split at hchecks <;> [skip; cases hchecks]
  rename_i p image hp himage
  obtain ⟨hkinds, hclosed, hlast⟩ := of_decide_eq_true hchecks
  obtain ⟨image', himage', hruns⟩ :=
    exists_ends_alike_of_withoutTail_of_compile hts hp himage hts' hkinds hclosed hlast
  obtain ⟨_, _, image₁, -, -, himage₁, hends⟩ := exists_of_testRun hends
  obtain rfl : image' = image₁ := Except.ok.inj (himage'.symm.trans himage₁)
  obtain ⟨s', hrun, -⟩ := Machine.Progress.exists_of_endsIn hends
  exact ⟨ts, ts', p, image, image', .endOfCode, s', hts, hp, himage, hts', hkinds, hclosed, hlast,
    himage', hrun, (hruns .empty {} 22).1 .endOfCode s' hrun⟩

end Scriptlet
