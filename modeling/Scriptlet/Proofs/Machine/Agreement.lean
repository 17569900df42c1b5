import Scriptlet.Proofs.Code.Functions
import Scriptlet.Proofs.Machine.Safety
import Scriptlet.Proofs.Machine.Simulation
import Scriptlet.Proofs.Tree.Unambiguous

/-!
# Compilation preserves meaning

Calls go right by induction on the fuel of the interpreter: a call makes one step more than the body
that it runs. So the machine of a compiled program without `tail` keeps track of the interpreter
from its first step to its last, and the two agree in both directions. What the interpreter says
happens, since the machine follows it; and a run that ends has made only so many steps, so with that
much fuel the interpreter does not run out of it.
-/

namespace Scriptlet

open Machine

variable {m : Machine} {fuel : Nat}

/-! ### Bodies -/

section

variable {call : String → List Value → Interp Value} {s : Stmt} {ss : List Stmt} {st st' : Store}

/-- Statements run through if the first does and the others do behind it. -/
theorem Stmt.exists_of_runAll_cons (h : Stmt.runAll call fuel (s :: ss) st = .ok .next st') :
    ∃ st₁, s.run call fuel st = .ok .next st₁ ∧ Stmt.runAll call fuel ss st₁ = .ok .next st' := by
  change EStateM.bind (s.run call fuel) _ st = _ at h
  rw [EStateM.bind] at h
  rcases hs : s.run call fuel st with ⟨_ | _ | _ | _, st₁⟩ | _ <;> rw [hs] at h
  · exact ⟨st₁, rfl, h⟩
  all_goals cases h

theorem Stmt.run_giveBack_ne_next (value : Option Expr) :
    (Stmt.giveBack value).run call fuel st ≠ .ok .next st' := by
  cases value with
  | none => rintro ⟨⟩
  | some e =>
    change EStateM.bind (e.eval call) _ st ≠ _
    rw [EStateM.bind]
    rcases e.eval call st with ⟨v, st₁⟩ | _ <;> rintro ⟨⟩

/-- A body that ends with a `return` does not run to its end. -/
theorem Stmt.runAll_ne_next {before : Bool} (h : ss.foldl Stmt.endsInReturn before = true) :
    before = true ∨ ∀ st st', Stmt.runAll call fuel ss st ≠ .ok .next st' := by
  induction ss generalizing before with
  | nil => exact .inl h
  | cons s ss ih =>
    rcases ih h with hs | hss
    · cases s with
      | uses => exact .inl hs
      | giveBack value =>
        refine .inr fun st st' hrun ↦ ?_
        obtain ⟨st₁, hfirst, -⟩ := Stmt.exists_of_runAll_cons hrun
        exact Stmt.run_giveBack_ne_next value hfirst
      | _ => cases hs
    · refine .inr fun st st' hrun ↦ ?_
      obtain ⟨st₁, -, hrest⟩ := Stmt.exists_of_runAll_cons hrun
      exact hss st₁ st' hrest

end

/-! ### Calls -/

/-- The machine runs the code of a listing. -/
structure Machine.Runs (m : Machine) (L : Listing) : Prop where
  hasAt : ∀ e ∈ L.entries, m.HasAt e.offset e.instr
  functions : m.functions = Function.main :: L.functions.map Located.function
  entry : ∀ g ∈ L.functions, g.function.entry.toNat = g.entry
  standsIn : ∀ g ∈ L.functions, g.StandsIn L
  valid : ∀ g ∈ L.functions, Stmt.validAll 0 (.inside (g.head.returns == .void)) g.body = true
  isTail : ∀ g ∈ L.functions, g.head.isTail = false

/-- A function is found in the machine just if it is listed, and the name of the program itself is
not that of a function. -/
theorem Machine.Runs.find?_eq {L : Listing} (h : m.Runs L) (name : String) :
    m.find? name = (L.functions.find? fun g ↦
      g.head.name == name && g.head.name != Function.mainName).map Located.function := by
  have hmain : (Function.main.name == name && Function.main.name != Function.mainName) = false := by
    simp [Function.main]
  rw [Machine.find?, h.functions, List.find?_cons_of_neg (by simp [hmain]), List.find?_map]
  simp

theorem Interp.find?_eq (gs : List Located) (name : String) :
    ((gs.map Located.declared).find? fun f ↦ f.1.name == name && f.1.name != Function.mainName) =
      (gs.find? fun g ↦ g.head.name == name && g.head.name != Function.mainName).map
        Located.declared := by
  rw [List.find?_map]
  rfl

/-- The caller goes on behind a call with the value given back. -/
theorem GivesBack.tracks {o o' inner : Outline} {stack : List Value} {v : Option Value} {st : Store}
    {resume : Nat} (h : GivesBack m inner stack v st o')
    (hcallers : inner.callers = ⟨o.blocks, o.returns, resume⟩ :: o.callers)
    (hblocks : inner.blocks = 0) :
    Tracks m fuel (fun w st' o'' ↦ o'' = o.moved resume (w :: stack) st') o'
      ((do
        let w ← Interp.ofValue (resultOf inner.returns v)
        Interp.exitScope
        return w : Interp Value) st) := by
  obtain ⟨last, offset, k, hstep, hlast, hreturns, hstack, hcalls, hk, hscopes⟩ := h
  -- The `return` closes what the call has opened, down to the scope of its body.
  have hgive : m.outlineGiveBack last v =
      (o.moved resume stack { st with scopes := st.scopes.tail }).pushResult m.limits.maxStack
        (resultOf inner.returns v) := by
    have hdrop : last.scopes.drop (last.blocks + 1) = st.scopes.tail := by
      rw [hk, hblocks, Nat.zero_add, ← hscopes, List.tail_drop]
    rw [outlineGiveBack, hlast, hcallers]
    simp only [Outline.moved, hreturns, hstack, hcalls, hdrop]
  rw [hgive] at hstep
  cases hresult : resultOf inner.returns v with
  | error e =>
    rw [hresult] at hstep
    exact .of_fault hstep
  | ok w =>
    rw [hresult, Outline.pushResult, Outline.push] at hstep
    split at hstep
    · exact (Tracks.of_step hstep (.here rfl)).mono (Nat.le_succ _)
    · exact .of_limit hstep rfl

/-- The interpreter and the machine have one rule for values that are given back. -/
theorem Returns.result_returns (returns : Returns) (v : Option Value) :
    returns.result (.returns v) = resultOf returns v := by
  cases returns <;> cases v <;> rfl

/-- At the end of a body the machine gives back nothing, or null where a value is expected. -/
theorem Returns.result_next (returns : Returns) :
    returns.result .next = resultOf returns (if returns = .void then none else some .null) := by
  cases returns <;> rfl

/-- At the end of a body null is given back, or nothing. -/
theorem tracks_closing {head : Head} {body : List Stmt} {o inner : Outline} {stack : List Value}
    {st : Store} {q resume : Nat} (hreturns : bodyReturns body = false)
    (hcode : m.Holds q (head.closing body))
    (hcallers : inner.callers = ⟨o.blocks, o.returns, resume⟩ :: o.callers)
    (hblocks : inner.blocks = 0) (hinner : inner.returns = head.returns) :
    Tracks m fuel (fun w st' o'' ↦ o'' = o.moved resume (w :: stack) st') (inner.moved q stack st)
      ((do
        let w ← Interp.ofValue (head.returns.result .next)
        Interp.exitScope
        return w : Interp Value) st) := by
  rw [← hinner, Returns.result_next]
  rw [Head.closing, hreturns, if_neg Bool.false_ne_true, ← hinner] at hcode
  by_cases hvoid : inner.returns = .void
  · rw [hvoid] at hcode
    have hgive : GivesBack m inner stack none st (inner.moved q stack st) := by
      exact ⟨inner.moved (q + Instr.retVoid.width) stack st, q, 0, hcode.1.outlineStep_eq rfl, rfl,
        rfl, rfl, rfl, rfl, rfl⟩
    rw [if_pos hvoid]
    exact hgive.tracks hcallers hblocks
  · obtain ⟨hpush, hret, -⟩ : m.Holds q [.pushNull, .ret] := by
      cases hr : inner.returns with
      | void => exact absurd hr hvoid
      | any | typed => rwa [hr] at hcode
    have hgive : GivesBack m inner stack (some .null) st
        (inner.moved (q + Instr.pushNull.width) (.null :: stack) st) := by
      exact ⟨inner.moved (q + Instr.pushNull.width + Instr.ret.width) stack st,
        q + Instr.pushNull.width, 0, hret.outlineStep_eq rfl, rfl, rfl, rfl, rfl, rfl, rfl⟩
    rw [if_neg hvoid]
    exact .pushed hpush rfl (hgive.tracks hcallers hblocks)

/-- The outline in which a function starts that is called at an offset. -/
def Outline.called (o : Outline) (resume : Nat) (returns : Returns) : Outline :=
  { o with blocks := 0, returns, callers := ⟨o.blocks, o.returns, resume⟩ :: o.callers }

/-- A call takes its arguments from the stack and applies the function to them. -/
theorem outlineExec_call {o : Outline} {ip : Nat} {stack : List Value} (st : Store) (name : String)
    (args : List Value) :
    m.outlineExec (o.moved ip (args.reverse ++ stack) st) (.call name args.length) =
      m.outlineApply (o.moved ip stack st) name args false := by
  rw [outlineExec, outlineCall, if_pos (by simp [Outline.moved])]
  simp only [Outline.moved, take_reverse_append, drop_reverse_append, List.reverse_reverse]

/-- A function of the program is entered, which counts as one unit of fuel. -/
theorem tracks_enter {α : Type} {Fits : α → Store → Outline → Prop} {o : Outline} {offset : Nat}
    {stack : List Value} {st : Store} {name : String} {args : List Value} {f : Function}
    {k : Unit → Interp α} (h : m.HasAt offset (.call name args.length))
    (hf : m.find? name = some f) (hargs : args.length = f.params.length)
    (hk : ∀ st', Tracks m fuel Fits ((o.called (offset + (Instr.call name args.length).width)
      f.returns).moved f.entry.toNat stack st') (k () st')) :
    Tracks m (fuel + 1) Fits (o.moved offset (args.reverse ++ stack) st)
      ((Interp.onScopes (fun scopes ↦ Scopes.bindParams ([] :: scopes) f.params args) >>= k)
        st) := by
  have hexec : m.outlineExec (o.moved (offset + (Instr.call name args.length).width)
      (args.reverse ++ stack) st) (.call name args.length) = _ := outlineExec_call st name args
  rw [outlineApply, hf] at hexec
  simp only [if_pos hargs, outlineCallFunction, Bool.false_eq_true, false_and, if_false] at hexec
  split at hexec
  · change Tracks m (fuel + 1) Fits _ (EStateM.bind _ k st)
    rw [EStateM.bind, Interp.onScopes]
    rw [outlineEnter] at hexec
    cases hbind : Scopes.bindParams ([] :: st.scopes) f.params args with
    | error e =>
      rw [show (o.moved _ stack st).scopes = st.scopes from rfl, hbind] at hexec
      exact .fail h rfl hexec
    | ok scopes =>
      rw [show (o.moved _ stack st).scopes = st.scopes from rfl, hbind] at hexec
      exact .step h rfl hexec (hk { st with scopes })
  · exact .exceed h rfl hexec rfl

/-- A function of the host is called. -/
theorem tracks_callBuiltin {o : Outline} {offset : Nat} {stack stack' : List Value} {st : Store}
    {i : Instr} {b : Builtin} {args : List Value} (h : m.HasAt offset i)
    (hexec : m.outlineExec (o.moved (offset + i.width) stack' st) i =
      m.outlineCallBuiltin (o.moved (offset + i.width) stack st) b args) :
    Tracks m fuel (fun v st' o' ↦ o' = o.moved (offset + i.width) (v :: stack) st')
      (o.moved offset stack' st) (Interp.callBuiltin b args st) := by
  rw [outlineCallBuiltin] at hexec
  rw [Interp.callBuiltin]
  rw [show (o.moved (offset + i.width) stack st).calls = st.calls from rfl] at hexec
  cases hresult : b.answer st.calls args with
  | ok v =>
    rw [hresult] at hexec
    simp only [Outline.push] at hexec
    split at hexec
    · exact .step' h rfl hexec (.here rfl)
    · exact .exceed h rfl hexec rfl
  | error message =>
    rw [hresult] at hexec
    exact .fail h rfl hexec

/-- A function of the host is called by its name. -/
theorem tracks_callHost {o : Outline} {offset : Nat} {stack : List Value} {st : Store}
    {name : String} {args : List Value} (h : m.HasAt offset (.call name args.length))
    (hf : m.find? name = none) :
    Tracks m fuel
      (fun v st' o' ↦ o' = o.moved (offset + (Instr.call name args.length).width) (v :: stack) st')
      (o.moved offset (args.reverse ++ stack) st) (Interp.callHost m.table name args st) := by
  have hexec : m.outlineExec (o.moved (offset + (Instr.call name args.length).width)
      (args.reverse ++ stack) st) (.call name args.length) = _ := outlineExec_call st name args
  rw [outlineApply, hf] at hexec
  rw [Interp.callHost]
  -- The same three ways to fail on both sides: no such function, the wrong number of arguments, and
  -- its own error.
  cases htable : m.table.find? name with
  | none =>
    rw [htable] at hexec
    exact .fail h rfl hexec
  | some b =>
    rw [htable] at hexec
    cases harity : b.arity with
    | none =>
      simp only [harity] at hexec ⊢
      exact tracks_callBuiltin h hexec
    | some arity =>
      simp only [harity] at hexec ⊢
      split at hexec
      · rename_i hargs
        rw [if_pos hargs]
        exact tracks_callBuiltin h hexec
      · rename_i hargs
        rw [if_neg hargs]
        exact .fail h rfl hexec

/-- The body of a function starts without blocks of its own. -/
theorem Spot.suits_body {head : Head} {o : Outline} (hblocks : o.blocks = 0)
    (htail : head.isTail = false) : (Spot.body head).Suits o := by
  refine ⟨by rw [hblocks]; rfl, fun {depth loop} hloop ↦ ?_, htail⟩
  cases depth <;> cases hloop

/-- **Calls do what they mean.** -/
theorem Machine.Runs.tracksCalls {L : Listing} (h : m.Runs L) (fuel : Nat) :
    m.TracksCalls fuel (Interp.call (L.functions.map Located.declared) m.table fuel) := by
  -- By induction on the fuel: inside a call there is less of it, so all calls there are tracked.
  induction fuel with
  | zero => exact fun _ _ _ _ _ _ _ ↦ .outOfFuel (Nat.le_refl 0) rfl
  | succ fuel ih =>
    intro name args offset hi o stack st
    have hfind := h.find?_eq name
    rw [Interp.call, Interp.find?_eq]
    cases hg : L.functions.find? fun g ↦
        g.head.name == name && g.head.name != Function.mainName with
    | none =>
      rw [hg] at hfind
      exact tracks_callHost hi hfind
    | some g =>
      rw [hg, Option.map_some] at hfind
      have hmem := List.mem_of_find?_eq_some hg
      simp only [Option.map_some, Located.declared]
      rw [← g.params_function]
      split
      · rename_i hargs
        obtain ⟨q, L', hlisted, hbody, hclosing⟩ := h.standsIn g hmem
        refine tracks_enter hi hfind hargs fun st₁ ↦ ?_
        rw [h.entry g hmem, g.returns_function]
        refine .bind (hlisted.tracks ih (fun e he ↦ h.hasAt e (hbody he))
          (Spot.suits_body rfl (h.isTail g hmem)) rfl (h.valid g hmem) stack st₁) ?_
        rintro flow st₂ o' hrun harrives
        cases flow with
        | next =>
          obtain rfl := harrives
          have hreturns : bodyReturns g.body = false := by
            rw [← Bool.not_eq_true]
            intro hreturns
            rcases Stmt.runAll_ne_next hreturns with hfalse | hne
            · cases hfalse
            · exact hne _ _ hrun
          exact tracks_closing hreturns
            (holds_of_entriesOf fun e he ↦ h.hasAt e (hclosing he)) rfl rfl rfl
        -- No loop is around the body of a function, so none is left from it.
        | breaks depth =>
          obtain ⟨loop, hloop, -⟩ := harrives
          cases depth <;> cases hloop
        | continues =>
          obtain ⟨loop, hloop, -⟩ := harrives
          cases hloop
        | returns v =>
          simp only [Returns.result_returns]
          exact GivesBack.tracks harrives rfl rfl
      · rename_i hargs
        have hexec : m.outlineExec (o.moved (offset + (Instr.call name args.length).width)
            (args.reverse ++ stack) st) (.call name args.length) = _ :=
          outlineExec_call st name args
        rw [outlineApply, hfind] at hexec
        simp only [if_neg hargs] at hexec
        exact .fail hi rfl hexec

/-! ### Images -/

section

variable {image : Image} {p : Program} {L : Listing}

/-- The machine of an image runs the code of its listing. -/
theorem Image.Lists.runs (h : image.Lists p L) (hvalid : Stmt.validAll 0 .top p = true)
    (htail : Stmt.withoutTailAll p = p) (table : Table) (limits : Limits) :
    (Machine.ofImage image table limits).Runs L := by
  have hmem (g : Located) (hg : g ∈ L.functions) : g.declared ∈ Stmt.functionsAll p :=
    h.listed.map_functions ▸ List.mem_map_of_mem hg
  refine ⟨fun e he ↦ ⟨?_, h.stands e he, fun t ht ↦ ?_⟩, h.functions,
    fun g hg ↦ h.toNat_entry hvalid hg, h.listed.standsIn, fun g hg ↦ ?_, fun g hg ↦ ?_⟩
  · exact Nat.lt_of_lt_of_le (Nat.lt_add_of_pos_right e.instr.width_pos)
      (h.listed.within.lines e he).2
  · exact h.bounds_of_notes (((h.sound hvalid).2.entries e he).target t ht)
  · exact Stmt.validAll_of_mem_functionsAll p hvalid (hmem g hg)
  · exact Stmt.isTail_of_mem_functionsAll_withoutTail p (htail ▸ hmem g hg)

end

/-! ### Outcomes -/

/-- How a run has ended, unless it is still running. -/
def Machine.Progress.outcome? : Machine.Progress → Option Outcome
  | .running _ => none
  | .ended t s => some (.ended t s.globals s.calls)
  | .failed f s => some (.failed f.cause s.calls)

/-- The run has ended because of a limit of the machine. -/
def Outcome.exceeds : Outcome → Bool
  | .failed cause _ => cause.isLimit
  | .ended _ _ _ => false

/-- How a run on outlines has ended. -/
def Outline.Progress.outcome? : Outline.Progress Fault → Option Outcome
  | .running _ => none
  | .ended t o => some (.ended t o.globals o.calls)
  | .failed f calls => some (.failed f.cause calls)

/-- A run ends like the run of its outline. -/
theorem Machine.outcome?_runFor (m : Machine) (count : Nat) :
    (m.runFor count m.start).outcome? = (m.outlineRun count m.outlineStart).outcome? := by
  have h := m.runFor_outlined count m.start_outlined
  generalize m.runFor count m.start = r at h
  generalize m.outlineRun count m.outlineStart = r' at h
  cases h with
  | running => rfl
  | ended h =>
    simp only [Machine.Progress.outcome?, Outline.Progress.outcome?, h.globals_eq, h.calls]
  | failed => rfl

/-- A run that has ended stays as it is. -/
theorem Machine.outcome?_add {o : Outline} {n : Nat} {r : Outcome}
    (h : (m.outlineRun n o).outcome? = some r) (k : Nat) :
    (m.outlineRun (n + k) o).outcome? = some r := by
  induction n generalizing o with
  | zero => cases h
  | succ n ih =>
    rw [Nat.add_right_comm]
    rw [outlineRun] at h ⊢
    split
    · rename_i o' hstep
      simp only [hstep] at h
      exact ih h
    · rename_i hdone
      rcases hstep : m.outlineStep o with o' | ⟨t, o'⟩ | ⟨f, calls⟩
      · exact absurd hstep (hdone o')
      all_goals
        rw [hstep] at h
        exact h

/-- A run ends in one way only. -/
theorem Machine.outcome?_unique {o : Outline} {n n' : Nat} {r r' : Outcome}
    (h : (m.outlineRun n o).outcome? = some r) (h' : (m.outlineRun n' o).outcome? = some r') :
    r = r' := by
  have hn := outcome?_add h n'
  rw [Nat.add_comm, outcome?_add h' n, Option.some.injEq] at hn
  exact hn.symm

/-! ### Programs -/

theorem Spot.suits_top {o : Outline} (hblocks : o.blocks = 0) : Spot.top.Suits o := by
  refine ⟨by rw [hblocks]; rfl, fun {depth loop} hloop ↦ ?_, rfl⟩
  cases depth <;> cases hloop

/-- Outside all calls there are the scopes of the open blocks and the global one. -/
theorem State.Outlined.length_scopes {s : State} {o : Outline} (h : s.Outlined o)
    (hcallers : o.callers = []) : o.scopes.length = o.blocks + 1 := by
  obtain ⟨ids, hstacked, hframed⟩ := h.frames
  rw [hcallers] at hframed
  generalize s.callers.toList.reverse = cs at hframed
  cases hframed with
  | top hspans => rw [← hstacked.chain.length_eq, hspans.length]

/-- At the end of a run the global variables are in the last scope. -/
theorem Machine.globals_of_returned {m : Machine} {n : Nat} {o : Outline} {st : Store}
    (hrun : m.outlineRun n m.outlineStart = .ended .returned o) (hcallers : o.callers = [])
    (hscopes : o.scopes.drop o.blocks = st.scopes) : o.globals = st.globals := by
  have houtlined := m.runFor_outlined n m.start_outlined
  rw [hrun] at houtlined
  generalize m.runFor n m.start = r at houtlined
  cases houtlined with
  | ended h =>
    have hlength := h.length_scopes hcallers
    rw [Outline.globals, Store.globals, ← hscopes, List.getLast?_drop, if_neg (by omega)]

/-- A run of a compiled program has an outcome of the interpreter, unless a limit is exceeded. -/
theorem Image.Lists.tracks {image : Image} {p : Program} {L : Listing} (h : image.Lists p L)
    (hvalid : Stmt.validAll 0 .top p = true) (htail : Stmt.withoutTailAll p = p) {table : Table}
    {limits : Limits} {m : Machine} (hm : m = Machine.ofImage image table limits) (fuel : Nat) :
    (∃ n r, (m.outlineRun n m.outlineStart).outcome? = some r ∧
      (r.exceeds = true ∨ p.interpret table fuel = some r)) ∨
    p.interpret table fuel = none ∧
      ∃ n, fuel ≤ n ∧ (m.outlineRun n m.outlineStart).outcome? = none := by
  have hruns : m.Runs L := hm ▸ h.runs hvalid htail table limits
  have htracks := h.listed.tracks (hruns.tracksCalls fuel) hruns.hasAt
    (Spot.suits_top (o := m.outlineStart) rfl) rfl hvalid [] ⟨[[]], #[]⟩
  have hstart : m.outlineStart.moved headerSize [] ⟨[[]], #[]⟩ = m.outlineStart := by
    rw [← h.mainEntry, hm]
    rfl
  have htable : m.table = table := by rw [hm]; rfl
  have hsize : m.code.size = image.code.size := by rw [hm]; rfl
  rw [hstart, h.listed.map_functions, htable] at htracks
  rw [Program.interpret]
  generalize Stmt.runAll (Interp.call (Stmt.functionsAll p) table fuel) fuel p ⟨[[]], #[]⟩ = r
    at htracks
  -- The body of the program is tracked; what is left is how its end shows in the outline.
  cases htracks with
  | @ok n o' flow st hrun harrives =>
    left
    cases flow with
    | next =>
      obtain rfl := harrives
      have hend : m.outlineRun (n + 1) m.outlineStart =
          .ended .endOfCode (m.outlineStart.moved image.code.size [] st) := by
        rw [outlineRun_add hrun, outlineRun, outlineStep, if_neg (by simp [Outline.moved, hsize])]
      exact ⟨n + 1, _, congrArg Outline.Progress.outcome? hend, .inr rfl⟩
    | breaks depth =>
      obtain ⟨loop, hloop, -⟩ := harrives
      cases depth <;> cases hloop
    | continues =>
      obtain ⟨loop, hloop, -⟩ := harrives
      cases hloop
    | returns v =>
      -- A `return` of the program itself ends the run, with its blocks still open.
      obtain ⟨last, offset, k, hstep, hcallers, -, -, hcalls, hblocks, hscopes⟩ := harrives
      have hend : m.outlineRun (n + 1) m.outlineStart = .ended .returned last := by
        rw [outlineRun_add hrun, outlineRun, hstep, outlineGiveBack, hcallers]
        rfl
      have hk : last.blocks = k := hblocks.trans (Nat.zero_add k)
      have hglobals := globals_of_returned hend hcallers (hk ▸ hscopes)
      refine ⟨n + 1, .ended .returned st.globals st.calls, ?_, .inr rfl⟩
      rw [hend, Outline.Progress.outcome?, hglobals, hcalls]
  | @exit n o' st hrun hscopes hcalls =>
    refine .inl ⟨n, .ended .halt st.globals st.calls, ?_, .inr rfl⟩
    rw [hrun, Outline.Progress.outcome?, Outline.globals, hscopes, hcalls, Store.globals]
  | @fault n f st hrun => exact .inl ⟨n, _, congrArg Outline.Progress.outcome? hrun, .inr rfl⟩
  | @outOfFuel n o' st hn hrun =>
    exact .inr ⟨rfl, n, hn, congrArg Outline.Progress.outcome? hrun⟩
  | @limit n f calls _ hrun hf =>
    exact .inl ⟨n, _, congrArg Outline.Progress.outcome? hrun, .inl hf⟩

/-! ### Compiled programs -/

/-- Tokens without `tail` spell a program without it. -/
theorem Program.withoutTailAll_eq {ts : Tokens} {p : Program} (h : Program.ofTokens ts = .ok p)
    (htail : ∀ t ∈ ts.ahead, t.kind ≠ .keyword .tail) : Stmt.withoutTailAll p = p := by
  have hts : ts.withoutTail = ts := by
    have hfilter : ts.ahead.filter (fun t ↦ !t.kind.isTail) = ts.ahead :=
      List.filter_eq_self.2 fun t ht ↦ by simp [Kind.isTail_eq_false (htail t ht)]
    rw [Tokens.withoutTail, hfilter]
  have hwithout := Program.ofTokens_withoutTail h
  rw [hts, h, Except.ok.injEq] at hwithout
  exact hwithout.symm

/-- **Compilation preserves meaning.** Tokens without `tail` that are accepted spell one program.
What the interpreter says about that program is how a run of the image ends, and however a run ends
that exceeds no limit, the interpreter says so. -/
theorem interpret_iff_outcome_of_compileTokens {ts : Tokens} {image : Image}
    (h : compileTokens ts = .ok image) (htail : ∀ t ∈ ts.ahead, t.kind ≠ .keyword .tail) :
    ∃ p : Program, (∀ q : Program, q.Spelled ts.kinds ↔ q = p) ∧
      ∀ (table : Table) (limits : Limits),
        (∀ fuel outcome, p.interpret table fuel = some outcome →
          ∃ count r, ((Machine.ofImage image table limits).runFor count
            (Machine.ofImage image table limits).start).outcome? = some r ∧
              (r.exceeds = true ∨ r = outcome)) ∧
        (∀ count r, ((Machine.ofImage image table limits).runFor count
            (Machine.ofImage image table limits).start).outcome? = some r →
              r.exceeds = false → ∃ fuel, p.interpret table fuel = some r) := by
  obtain ⟨p, hp, hassemble⟩ := exists_program_of_compileTokens h
  obtain ⟨L, hL⟩ := Program.exists_lists hassemble
  obtain ⟨-, hvalid⟩ := Program.spelled_and_valid_of_ofTokens hp
  refine ⟨p, Program.spelled_iff_of_ofTokens hp, fun table limits ↦ ?_⟩
  have htracks := hL.tracks hvalid (Program.withoutTailAll_eq hp htail)
    (rfl : _ = Machine.ofImage image table limits)
  simp only [Machine.outcome?_runFor]
  generalize Machine.ofImage image table limits = m at htracks
  constructor
  · intro fuel outcome hinterpret
    rcases htracks fuel with ⟨n, r, hr, hexceeds | hr'⟩ | ⟨hnone, -⟩
    · exact ⟨n, r, hr, .inl hexceeds⟩
    · rw [hinterpret, Option.some.injEq] at hr'
      exact ⟨n, r, hr, .inr hr'.symm⟩
    · rw [hinterpret] at hnone
      cases hnone
  · intro count r hr hexceeds
    rcases htracks count with ⟨n, r', hr', hexceeds' | hinterpret⟩ | ⟨-, n, hn, hrunning⟩
    · rw [Machine.outcome?_unique hr hr', hexceeds'] at hexceeds
      cases hexceeds
    · exact ⟨count, Machine.outcome?_unique hr hr' ▸ hinterpret⟩
    · obtain ⟨k, rfl⟩ := Nat.exists_eq_add_of_le hn
      rw [Machine.outcome?_add hr k] at hrunning
      cases hrunning

/-- A `continue` and a `break` out of two loops, and a call of a function that is declared later and
sees a variable of its caller. -/
def nestedLoops : String :=
  "i = 0; while (true) \x7b while (true) \x7b ++i; if (i == 3) \x7b break 2; \x7d continue; " ++
    "\x7d \x7d x = f(2); func int f(n) \x7b return n - i; \x7d"

theorem interpret_iff_outcome_nestedLoops :
    ∃ ts image p globals calls, Tokens.ofText nestedLoops = .ok ts ∧
      compileTokens ts = .ok image ∧ (∀ t ∈ ts.ahead, t.kind ≠ .keyword .tail) ∧
      Program.Spelled p ts.kinds ∧
      ((Machine.ofImage image .empty {}).runFor 99
        (Machine.ofImage image .empty {}).start).outcome? =
          some (.ended .endOfCode globals calls) ∧
      ∃ fuel, p.interpret .empty fuel = some (.ended .endOfCode globals calls) := by
  have htail : (Tokens.ofText nestedLoops).toOption.map
      (fun ts ↦ ts.ahead.all fun t ↦ !t.kind.isTail) = some true := by
    decide +kernel
  have hends : testRun nestedLoops {} 99 (fun _ r ↦ r.endsIn .endOfCode fun _ ↦ true) = true := by
    decide +kernel
  obtain ⟨ts, _, image, hts, -, hcompile, hends⟩ := exists_of_testRun hends
  obtain ⟨s, hrun, -⟩ := Machine.Progress.exists_of_endsIn hends
  have himage := compileTokens_of_compile hts hcompile
  rw [hts] at htail
  have htail' : ∀ t ∈ ts.ahead, t.kind ≠ .keyword .tail := by
    intro t ht hkind
    have hfalse := List.all_eq_true.1 (Option.some.inj htail) t ht
    rw [hkind] at hfalse
    cases hfalse
  have houtcome : ((Machine.ofImage image .empty {}).runFor 99
      (Machine.ofImage image .empty {}).start).outcome? =
        some (.ended .endOfCode s.globals s.calls) := by
    rw [hrun]
    rfl
  obtain ⟨p, hp, hagrees⟩ := interpret_iff_outcome_of_compileTokens himage htail'
  exact ⟨ts, image, p, s.globals, s.calls, hts, himage, htail', (hp p).2 rfl, houtcome,
    (hagrees .empty {}).2 99 _ houtcome rfl⟩

end Scriptlet
