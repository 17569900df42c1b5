import Scriptlet.Proofs.Code.Charts
import Scriptlet.Proofs.Machine.FinalState
import Scriptlet.Proofs.Machine.Slots
import Scriptlet.Proofs.Scope.Shields

/-!
# Constants are constant

The reader refuses an assignment to a constant, and a `del` of one, once for each place in the text.
The machine comes to the same place many times, and by then a variable that covered the constant
may be gone. If this happens in a loop, the `del` that removed the variable removes the constant the
next time around (`deletesShadow_unbinds`).

Without such a `del`, the chart of a name says at each instruction of the program which scopes hold
a constant of it and which variables cover one, and a run never leaves the chart: what an
instruction does to the scopes is what its line says (`Instr.Works.exists_guarded`). From this it
follows that a constant is in its slot as long as its scope is.
-/

namespace Scriptlet

open Cover

/-! ### One instruction -/

/-- The scopes of a state are in these slots, and where a variable should cover a constant there is
one. -/
structure State.Guarded (s : State) (x : String) (k : Cover) (ids : List ScopeId)
    (scopes : Scopes) : Prop where
  stacked : s.arena.Stacked (s.frame.scope :: ids) scopes
  shields : k.Shields (scopes.bound x)

/-- What succeeds in the slots succeeds on the stack of scopes, with the result that the slots
have. -/
theorem Arena.Stacked.Yields.exists_stacked {ids : List ScopeId} {a : Arena}
    {r : Except ScopeError Scopes} (h : Arena.Stacked.Yields ids (.ok (), a) r) :
    ∃ scopes, r = .ok scopes ∧ a.Stacked ids scopes := by
  cases r with
  | ok scopes => exact ⟨scopes, rfl, h⟩
  | error e => cases h

namespace State.Guarded

variable {s s' : State} {x : String} {k k' : Cover} {ids : List ScopeId} {scopes scopes' : Scopes}

/-- What a step must do: the scopes are guarded behind it, and every constant that was there is
there still, unless its scope was released. -/
def Goes (s s' : State) (x : String) (k k' : Cover) (ids : List ScopeId) (scopes : Scopes) : Prop :=
  ∃ ids' scopes', s'.Guarded x k' ids' scopes' ∧
    ∀ {slot var}, (s'.arena.scope? slot).isSome →
      HasConst slot var k (s.frame.scope :: ids) (scopes.bound x) →
      HasConst slot var k' (s'.frame.scope :: ids') (scopes'.bound x)

/-- In the same scopes. -/
theorem goes_of_keeps (hframe : s'.frame = s.frame)
    (hstacked : s'.arena.Stacked (s.frame.scope :: ids) scopes')
    (hkeeps : k.Keeps (scopes.bound x) k' (scopes'.bound x)) : Goes s s' x k k' ids scopes := by
  refine ⟨ids, scopes', ⟨?_, hkeeps.shields⟩, fun _ h ↦ ?_⟩
  · rw [hframe]
    exact hstacked
  · rw [hframe]
    exact hkeeps.hasConst h

/-- A block covers nothing when it is entered. -/
theorem enterScope (hs : s.Guarded x k ids scopes)
    (h : s.arena.push s.frame.scope = (s'.frame.scope, s'.arena)) (hk : Fades (none :: k) k') :
    Goes s s' x k k' ids scopes := by
  have hstacked := hs.stacked.push
  rw [h] at hstacked
  have hshields : Shields (none :: k) (Scopes.bound ([] :: scopes) x) := .cons nofun hs.shields
  exact ⟨_, _, ⟨hstacked, hshields.fades hk⟩, fun _ hhas ↦ hhas.outer.fades hk⟩

/-- What a block covered comes to light when it is left, and the constants outside are still
there. -/
theorem exitScope (hs : s.Guarded x k ids scopes)
    (h : s.arena.release s.frame.scope = (some s'.frame.scope, s'.arena))
    (hk : Fades k.tail k') : Goes s s' x k k' ids scopes := by
  obtain ⟨hstacked, hshields⟩ := hs
  cases ids with
  | nil =>
    -- The only scope is the global one, which is not released.
    have hglobal : s.frame.scope = Arena.global := Option.some.inj hstacked.last
    rw [Arena.release, if_pos hglobal] at h
    cases h
  | cons parent ids =>
    obtain ⟨vars, rest, rfl, -⟩ := hstacked.exists_eq_cons
    obtain ⟨hparent, hstacked'⟩ := hstacked.release
    rw [h] at hparent hstacked'
    obtain rfl : s'.frame.scope = parent := Option.some.inj hparent
    have hshields' : Shields k.tail (Scopes.bound rest x) := by
      cases hshields with
      | cons _ hshields => exact hshields
    refine ⟨ids, rest, ⟨hstacked', hshields'.fades hk⟩, fun hlive hhas ↦ ?_⟩
    refine (hhas.exit ?_).fades hk
    -- The scope that is closed is not there any more.
    rintro rfl
    exact (List.nodup_cons.1 hstacked.nodup).1 (hstacked'.isSome_iff.1 hlive)

end State.Guarded

open State.Guarded

variable {x : String} {k k' : Cover} {ids : List ScopeId} {scopes : Scopes}

/-- **An instruction keeps the constants** if it does what its line says. -/
theorem Instr.Works.exists_guarded {i : Instr} {s s' : State} {isConst : Bool}
    (h : i.Works s s') (hs : s.Guarded x k ids scopes) (hleads : k.Leads x isConst i k') :
    Goes s s' x k k' ids scopes := by
  -- Six instructions change scopes, and a name that they change is not the constant, or it is
  -- covered.
  cases i with
  | set name =>
    obtain ⟨hframe, v, hassign⟩ := h
    obtain ⟨hk, hfades⟩ := hleads
    have hyields := hs.stacked.assign name v
    rw [hassign] at hyields
    obtain ⟨scopes', hscopes, hstacked⟩ := hyields.exists_stacked
    exact goes_of_keeps hframe hstacked ((Keeps.assign hs.shields hk hscopes).fades hfades)
  | setIndex name =>
    obtain ⟨hframe, f, hupdate⟩ := h
    obtain ⟨hk, hfades⟩ := hleads
    have hyields := hs.stacked.update name f
    rw [hupdate] at hyields
    obtain ⟨scopes', hscopes, hstacked⟩ := hyields.exists_stacked
    exact goes_of_keeps hframe hstacked ((Keeps.update hs.shields hk hscopes).fades hfades)
  | decl name type =>
    obtain ⟨hframe, v, -, hdeclare⟩ := h
    have hyields := hs.stacked.declare name type v
    rw [hdeclare] at hyields
    obtain ⟨scopes', hscopes, hstacked⟩ := hyields.exists_stacked
    rw [Leads] at hleads
    split at hleads
    · rename_i heq
      subst heq
      obtain ⟨b, -, hfades⟩ := hleads
      exact goes_of_keeps hframe hstacked ((Keeps.declare hs.shields b hscopes).fades hfades)
    · rename_i hne
      exact goes_of_keeps hframe hstacked
        ((Keeps.declare_of_ne hs.shields hne hscopes).fades hleads)
  | unset name =>
    obtain ⟨hframe, harena⟩ := h
    have hstacked := hs.stacked.unset name
    rw [← harena] at hstacked
    rw [Leads] at hleads
    split at hleads
    · rename_i heq
      subst heq
      exact goes_of_keeps hframe hstacked ((Keeps.unset hs.shields hleads.1).fades hleads.2)
    · rename_i hne
      exact goes_of_keeps hframe hstacked ((Keeps.unset_of_ne hs.shields hne).fades hleads)
  | enterScope => exact hs.enterScope h hleads
  | exitScope => exact hs.exitScope h hleads
  | _ =>
    obtain ⟨hframe, harena⟩ := h
    refine goes_of_keeps hframe ?_ ((Keeps.refl hs.shields).fades hleads)
    rw [harena]
    exact hs.stacked

/-- The declaration of a constant puts it into the innermost scope. -/
theorem Instr.Works.exists_hasConst_of_decl {type : Tag} {s s' : State}
    (h : (Instr.decl x type).Works s s') (hs : s.Guarded x k ids scopes)
    (hleads : k.Leads x true (.decl x type) k') :
    ∃ w v ids' scopes', s.stack.back? = some w ∧ w.coerce type = .ok v ∧
      s'.Guarded x k' ids' scopes' ∧
      HasConst s.frame.scope ⟨type, v⟩ k' (s'.frame.scope :: ids') (scopes'.bound x) := by
  obtain ⟨hframe, w, hback, hdeclare⟩ := h
  have hyields := hs.stacked.declare x type w
  rw [hdeclare] at hyields
  obtain ⟨scopes', hscopes, hstacked⟩ := hyields.exists_stacked
  rw [Leads, if_pos rfl] at hleads
  obtain ⟨b, hb, hfades⟩ := hleads
  obtain rfl := hb rfl
  obtain ⟨v, vs, hv, -, hbound⟩ := Scopes.bound_declare hscopes
  have hkeeps := (Keeps.declare hs.shields (some .constant) hscopes).fades hfades
  refine ⟨w, v, ids, scopes', hback, hv, ⟨?_, hkeeps.shields⟩, ?_⟩
  · rw [hframe]
    exact hstacked
  · rw [hframe, hbound]
    exact HasConst.here.fades hfades

/-! ### Runs along a chart -/

/-- Where the lines of a chart are, and the end of the code. -/
def chartMarks (C : List Line) (stop : Nat) (last : Cover) (offset : Nat) (k : Cover) : Prop :=
  (∃ l ∈ C, l.offset = offset ∧ l.cover = k) ∨ offset = stop ∧ k = last

namespace Machine

/-- A chart is right for the code of a machine that has no functions to call. -/
structure HasChart (m : Machine) (x : String) (C : List Line) (last : Cover) : Prop where
  find : ∀ name, m.find? name = none
  entry : chartMarks C m.code.size last m.entry [none]
  decode : ∀ l ∈ C, Instr.decode m.code l.offset = .ok (l.instr, l.offset + l.instr.width)
  sound : ∀ l ∈ C, l.Sound (chartMarks C m.code.size last) x
  nodup : (C.map Line.offset).Nodup

/-- A state of a run is on the chart. -/
structure OnChart (m : Machine) (x : String) (C : List Line) (last k : Cover) (s : State)
    (ids : List ScopeId) (scopes : Scopes) : Prop where
  reaches : m.Reaches s
  callers : s.callers = #[]
  marks : chartMarks C m.code.size last s.ip k
  guarded : s.Guarded x k ids scopes

variable {m : Machine} {C : List Line} {last : Cover} {s s' : State}

/-- A step from a state on the chart: its line, and what it does. -/
theorem OnChart.exists_line (hs : m.OnChart x C last k s ids scopes) (h : m.HasChart x C last)
    (hstep : m.step s = .running s') :
    ∃ l ∈ C, l.offset = s.ip ∧ l.cover = k ∧ l.instr.Works s s' ∧ s'.callers = #[] ∧
      ∃ k', chartMarks C m.code.size last s'.ip k' ∧ k.Leads x l.isConst l.instr k' := by
  obtain ⟨i, next, hlt, hdecode, hip⟩ := exists_goesOn_of_step h.find hs.callers hs.reaches hstep
  -- A state that goes on is not at the end of the code, so it is at a line.
  rcases hs.marks with ⟨l, hl, hoffset, rfl⟩ | ⟨hend, -⟩
  · have hline := h.decode l hl
    rw [hoffset, hdecode] at hline
    obtain ⟨rfl, rfl⟩ := Prod.mk.inj (Except.ok.inj hline)
    rcases exists_works_or_arena_eq h.find hs.callers hs.guarded.stacked with
      ⟨s₁, i, next, hstep₁, hdecode₁, hcallers, hworks⟩ | ⟨hdone, -⟩
    · cases hstep.symm.trans hstep₁
      cases hdecode.symm.trans hdecode₁
      refine ⟨l, hl, hoffset, rfl, hworks, hcallers, ?_⟩
      rcases hip with ⟨hfalls, hip⟩ | htarget
      · rw [hip, ← hoffset]
        exact (h.sound l hl).next hfalls
      · exact (h.sound l hl).target _ htarget
    · exact absurd hstep (hdone s')
  · rw [hend] at hlt
    exact absurd hlt (Nat.lt_irrefl _)

/-- **A step stays on the chart**, and keeps the constants that it does not release. -/
theorem OnChart.step (hs : m.OnChart x C last k s ids scopes) (h : m.HasChart x C last)
    (hstep : m.step s = .running s') :
    ∃ k' ids' scopes', m.OnChart x C last k' s' ids' scopes' ∧
      ∀ {slot var}, (s'.arena.scope? slot).isSome →
        HasConst slot var k (s.frame.scope :: ids) (scopes.bound x) →
        HasConst slot var k' (s'.frame.scope :: ids') (scopes'.bound x) := by
  obtain ⟨l, -, -, rfl, hworks, hcallers, k', hmarks, hleads⟩ := hs.exists_line h hstep
  obtain ⟨ids', scopes', hguarded, hhas⟩ := hworks.exists_guarded hs.guarded hleads
  exact ⟨k', ids', scopes', ⟨hs.reaches.step hstep, hcallers, hmarks, hguarded⟩, hhas⟩

/-- Every state that a run comes to is on the chart. -/
theorem HasChart.exists_onChart (h : m.HasChart x C last) (hs : m.Reaches s) :
    ∃ k ids scopes, m.OnChart x C last k s ids scopes := by
  obtain ⟨count, hrun⟩ := hs
  have hstart : m.OnChart x C last [none] m.start [] [[]] :=
    ⟨⟨0, rfl⟩, rfl, h.entry, ⟨.new, .cons nofun .nil⟩⟩
  -- The induction is on the steps that are left, from any state on the chart.
  suffices ∀ {s₀ k ids scopes}, m.OnChart x C last k s₀ ids scopes →
      m.runFor count s₀ = .running s → ∃ k ids scopes, m.OnChart x C last k s ids scopes from
    this hstart hrun
  clear hrun hstart
  intro s₀ k ids scopes hs₀ hrun
  induction count generalizing s₀ k ids scopes with
  | zero =>
    cases hrun
    exact ⟨k, ids, scopes, hs₀⟩
  | succ count ih =>
    obtain ⟨s₁, hstep, hrun⟩ := exists_step_of_runFor hrun
    obtain ⟨k₁, ids₁, scopes₁, hs₁, -⟩ := hs₀.step h hstep
    exact ih hs₁ hrun

/-- **A constant is in its slot as long as its scope is.** -/
theorem OnChart.find?_runFor (hs : m.OnChart x C last k s ids scopes) (h : m.HasChart x C last)
    {slot : ScopeId} {var : Var} {count : Nat}
    (hhas : HasConst slot var k (s.frame.scope :: ids) (scopes.bound x))
    (hlive : ∀ n ≤ count, ((m.runFor n s).state.arena.scope? slot).isSome) :
    ((m.runFor count s).state.arena.scope? slot).bind (·.find? x) = some var := by
  -- The induction is on the number of steps; the slot must be taken after each of them, since a
  -- slot that was vacated may be claimed again.
  induction count generalizing s k ids scopes with
  | zero => exact hhas.find? hs.guarded.stacked.chain
  | succ count ih =>
    rcases exists_works_or_arena_eq h.find hs.callers hs.guarded.stacked with
      ⟨s₁, -, -, hstep, -⟩ | ⟨hdone, harena⟩
    · have hrun (n : Nat) : m.runFor (n + 1) s = m.runFor n s₁ := by rw [runFor, hstep]
      have hlive₁ (n : Nat) (hn : n ≤ count) :
          ((m.runFor n s₁).state.arena.scope? slot).isSome := by
        rw [← hrun]
        exact hlive (n + 1) (Nat.succ_le_succ hn)
      obtain ⟨k₁, ids₁, scopes₁, hs₁, hhas₁⟩ := hs.step h hstep
      rw [hrun]
      exact ih hs₁ (hhas₁ (hlive₁ 0 (Nat.zero_le _)) hhas) hlive₁
    · -- The run is over, and its last state has the arena of the one before.
      have hrun : m.runFor (count + 1) s = m.step s := by
        rw [runFor]
        split
        · rename_i s₁ hstep
          exact absurd hstep (hdone s₁)
        · rfl
      rw [hrun, harena]
      exact hhas.find? hs.guarded.stacked.chain

end Machine

/-! ### Compiled programs -/

/-- No two lines of a listing are at one offset. -/
theorem Adjoin.nodup_offsets {start stop : Nat} {es : List Entry} (h : Adjoin start es stop) :
    (es.map Entry.offset).Nodup := by
  induction es generalizing start with
  | nil => exact List.nodup_nil
  | cons e es ih =>
    rw [List.map_cons, List.nodup_cons]
    refine ⟨fun hmem ↦ ?_, ih h.2⟩
    obtain ⟨d, hd, heq⟩ := List.mem_map.1 hmem
    have hle := (h.2.bounds.2 d hd).1
    have hlt := e.offset_lt_next
    omega

/-- **The chart of a compiled program is right.** -/
theorem Image.Lists.exists_hasChart {image : Image} {p : Program} {L : Listing}
    (h : image.Lists p L) {c : Context} (hc : Stmt.CheckedAll .start p c)
    (hfunctions : Stmt.functionsAll p = []) (hvalid : Stmt.validAll 0 .top p = true)
    (hspare : Unset.Spare p.unsets x) (table : Table) (limits : Limits) :
    ∃ C, Plots x C L p.occurrences ∧
      (Machine.ofImage image table limits).HasChart x C (c.cover x) := by
  obtain ⟨C, hplots, hcharted⟩ :=
    h.listed.exists_chart (.refl .top) hc hfunctions hvalid hspare
  obtain ⟨hstart, hsound⟩ := hcharted (chartMarks C image.code.size (c.cover x)) .top
    (fun l hl ↦ .inl ⟨l, hl, rfl, rfl⟩) (.inr ⟨rfl, rfl⟩)
  -- There is nothing to call, since a program without functions lists none.
  refine ⟨C, hplots, fun name ↦ ?_, ?_, fun l hl ↦ ?_, hsound, ?_⟩
  · have hnone : L.functions = [] := by
      rw [← List.map_eq_nil_iff, h.listed.map_functions, hfunctions]
    refine Option.eq_none_iff_forall_ne_some.2 fun f hf ↦ ?_
    obtain ⟨g, hg, -⟩ := h.exists_located hf
    rw [hnone] at hg
    cases hg
  · rw [Machine.ofImage, h.mainEntry]
    exact hstart
  · obtain ⟨e, he, hline⟩ : ∃ e ∈ L.entries, (e.offset, e.instr) = (l.offset, l.instr) := by
      have hmem := List.mem_map_of_mem (f := fun l : Line ↦ (l.offset, l.instr)) hl
      rwa [hplots.lines, List.mem_map] at hmem
    obtain ⟨hoffset, hinstr⟩ := Prod.mk.inj hline
    have hstands := h.stands e he
    rwa [Entry.Stands, Entry.next, hoffset, hinstr] at hstands
  · have hoffsets : C.map Line.offset = L.entries.map Entry.offset := by
      have hfirst := congrArg (List.map Prod.fst) hplots.lines
      rwa [List.map_map, List.map_map] at hfirst
    rw [hoffsets]
    exact h.divided.adjoin.nodup_offsets

/-- **Constants are constant**, except for a `del` in a loop that uncovers them. Take a program that
compiles and has no functions, a name, and any host and limits. Let no `del` of this name, inside a
loop and of a binding from outside the loop, stand where a constant of the name is known. Once a
`let const` of the name has been executed, the constant is bound to the value it was given, in the
slot of its scope, in every later state of the run in which this scope has not been released. -/
theorem find?_eq_of_declared_const_of_compile {source : String} {ts : Tokens} {p : Program}
    {image : Image} (hts : Tokens.ofText source = .ok ts) (hp : Program.ofTokens ts = .ok p)
    (h : compile source = .ok image) (hfunctions : Stmt.functionsAll p = []) {name : String}
    (hspare : ∀ u ∈ p.unsets, u.name = name → u.uncovers = false) (table : Table) (limits : Limits)
    {s s' : State} (hs : (Machine.ofImage image table limits).Reaches s) {o : Occurrence}
    (ho : o ∈ p.occurrences) {type : Tag} {init : Option Expr}
    (hstmt : o.stmt = .declare true type name init)
    (hip : s.ip = o.offset + Instr.size (type.initCode init))
    (hstep : (Machine.ofImage image table limits).step s = .running s') :
    ∃ w v, s.stack.back? = some w ∧ w.coerce type = .ok v ∧
      (s'.arena.scope? s.frame.scope).bind (·.find? name) = some ⟨type, v⟩ ∧
      ∀ count, (∀ n ≤ count, (((Machine.ofImage image table limits).runFor n s').state.arena.scope?
          s.frame.scope).isSome) →
        (((Machine.ofImage image table limits).runFor count s').state.arena.scope?
          s.frame.scope).bind (·.find? name) = some ⟨type, v⟩ := by
  obtain ⟨p', hp', hassemble⟩ := exists_program_of_compileTokens (compileTokens_of_compile hts h)
  obtain rfl : p = p' := Except.ok.inj (hp.symm.trans hp')
  obtain ⟨L, hcompiled⟩ := Program.exists_compiled hp hassemble
  obtain ⟨c, hc⟩ := Program.exists_checkedAll_of_ofTokens hp
  obtain ⟨C, hplots, hchart⟩ := hcompiled.lists.exists_hasChart hc hfunctions hcompiled.valid
    hspare table limits
  obtain ⟨k, ids, scopes, hon⟩ := hchart.exists_onChart hs
  obtain ⟨l, hl, hoffset, rfl, hworks, hcallers, k', hmarks, hleads⟩ :=
    hon.exists_line hchart hstep
  -- The line of the state is that of the declaration.
  obtain ⟨l', hl', hoffset', hinstr, hconst⟩ := hplots.constants o ho type init hstmt
  obtain rfl : l = l' := List.inj_on_of_nodup_map hchart.nodup hl hl'
    (hoffset.trans (hip.trans hoffset'.symm))
  rw [hinstr] at hworks hleads
  rw [hconst] at hleads
  obtain ⟨w, v, ids', scopes', hback, hv, hguarded, hhas⟩ :=
    hworks.exists_hasConst_of_decl hon.guarded hleads
  have hon' : Machine.OnChart _ name C (c.cover name) k' s' ids' scopes' :=
    ⟨hs.step hstep, hcallers, hmarks, hguarded⟩
  exact ⟨w, v, hback, hv, hhas.find? hguarded.stacked.chain,
    fun count ↦ hon'.find?_runFor hchart hhas⟩

/-- A program without functions is compiled and runs for so many steps to the declaration of a
constant, which is the statement with a number. Tests the program, its machine, and the states
before and after the declaration. -/
def testConstant (source name : String) (before index : Nat)
    (test : Program → Machine → State → State → Bool) : Bool :=
  trial source {} fun p m ↦
    match m.runFor before m.start, p.occurrences[index]? with
    | .running s, some (Occurrence.mk (.declare true .auto name' init) _ _ offset) =>
      match m.step s with
      | .running s' =>
        decide ((Stmt.functionsAll p).isEmpty = true ∧ name' = name ∧
          s.ip = offset + Instr.size (Tag.auto.initCode init)) && test p m s s'
      | _ => false
    | _, _ => false

/-- **What the test of a constant finds is so.** -/
theorem exists_of_testConstant {source name : String} {before index : Nat}
    {test : Program → Machine → State → State → Bool}
    (htest : testConstant source name before index test = true) :
    ∃ ts p image s s', Tokens.ofText source = .ok ts ∧ Program.ofTokens ts = .ok p ∧
      compile source = .ok image ∧ Stmt.functionsAll p = [] ∧
      (Machine.ofImage image .empty {}).runFor before (Machine.ofImage image .empty {}).start =
        .running s ∧
      (∃ o ∈ p.occurrences, ∃ init, o.stmt = .declare true .auto name init ∧
        s.ip = o.offset + Instr.size (Tag.auto.initCode init)) ∧
      (Machine.ofImage image .empty {}).step s = .running s' ∧
      test p (Machine.ofImage image .empty {}) s s' = true := by
  obtain ⟨ts, p, image, hts, hp, h, hpasses⟩ := exists_of_trial htest
  split at hpasses <;> [skip; cases hpasses]
  rename_i s name' init owner depth offset hrun ho
  split at hpasses <;> [skip; cases hpasses]
  rename_i s' hstep
  rw [Bool.and_eq_true, decide_eq_true_eq, List.isEmpty_iff] at hpasses
  obtain ⟨⟨hfunctions, rfl, hip⟩, hpasses⟩ := hpasses
  exact ⟨ts, p, image, s, s', hts, hp, h, hfunctions, hrun,
    ⟨_, List.mem_of_getElem? ho, init, rfl, hip⟩, hstep, hpasses⟩

/-- Each time around the loop, a constant is covered by a variable, which is removed again. -/
def coversInLoop : String :=
  "let i = 2; while (i) \x7b let const x = [i]; \x7b let x = i; x = x + 1; del x; \x7d --i; \x7d"

theorem find?_eq_coversInLoop :
    ∃ ts p image s s' w v, Tokens.ofText coversInLoop = .ok ts ∧ Program.ofTokens ts = .ok p ∧
      compile coversInLoop = .ok image ∧ Stmt.functionsAll p = [] ∧
      (∃ u ∈ p.unsets, u.name = "x" ∧ u.inner = some 2) ∧
      (∀ u ∈ p.unsets, u.name = "x" → u.uncovers = false) ∧
      (Machine.ofImage image .empty {}).runFor 28 (Machine.ofImage image .empty {}).start =
        .running s ∧
      (∃ o ∈ p.occurrences, ∃ init, o.stmt = .declare true .auto "x" init ∧
        s.ip = o.offset + Instr.size (Tag.auto.initCode init)) ∧
      (Machine.ofImage image .empty {}).step s = .running s' ∧
      s.stack.back? = some w ∧ w.coerce .auto = .ok v ∧ s.frame.scope = 1 ∧
      (((Machine.ofImage image .empty {}).runFor 13 s').state.arena.scope? 1).bind (·.find? "x") =
        some ⟨.auto, v⟩ := by
  have htest : testConstant coversInLoop "x" 28 1 (fun p m s s' ↦ decide (
      (∃ u ∈ p.unsets, u.name = "x" ∧ u.inner = some 2) ∧
      (∀ u ∈ p.unsets, u.name = "x" → u.uncovers = false) ∧ s.frame.scope = 1 ∧
      ∀ n ∈ List.range 14, ((m.runFor n s').state.arena.scope? 1).isSome)) = true := by
    decide +kernel
  obtain ⟨ts, p, image, s, s', hts, hp, h, hfunctions, hrun, hdeclares, hstep, htest⟩ :=
    exists_of_testConstant htest
  obtain ⟨o, ho, init, hstmt, hip⟩ := hdeclares
  obtain ⟨hdel, hspare, hscope, hlive⟩ := of_decide_eq_true htest
  obtain ⟨w, v, hback, hv, -, hkept⟩ := find?_eq_of_declared_const_of_compile hts hp h hfunctions
    hspare .empty {} ⟨28, hrun⟩ ho hstmt hip hstep
  rw [hscope] at hkept
  have hfound := hkept 13 fun n hn ↦ hlive n (List.mem_range.2 (Nat.lt_succ_of_le hn))
  exact ⟨ts, p, image, s, s', w, v, hts, hp, h, hfunctions, hdel, hspare, hrun,
    ⟨o, ho, init, hstmt, hip⟩, hstep, hback, hv, hscope, hfound⟩

/-- A loop removes a variable that covers a constant. -/
def deletesShadow : String :=
  "let const x = 1; \x7b let x = 2; let i = 2; while (i) \x7b del x; --i; \x7d \x7d"

/-- The second time around the loop, **the constant is removed**, though it is global and so its
scope is there to the end. -/
theorem deletesShadow_unbinds :
    ∃ ts p image s s', Tokens.ofText deletesShadow = .ok ts ∧ Program.ofTokens ts = .ok p ∧
      compile deletesShadow = .ok image ∧ Stmt.functionsAll p = [] ∧
      (Machine.ofImage image .empty {}).Reaches s ∧
      (∃ o ∈ p.occurrences, ∃ init, o.stmt = .declare true .auto "x" init ∧
        s.ip = o.offset + Instr.size (Tag.auto.initCode init)) ∧
      (Machine.ofImage image .empty {}).step s = .running s' ∧
      ((s'.arena.scope? s.frame.scope).bind (·.find? "x")).isSome ∧
      (∀ n ≤ 19, (((Machine.ofImage image .empty {}).runFor n s').state.arena.scope?
        s.frame.scope).isSome) ∧
      ((((Machine.ofImage image .empty {}).runFor 19 s').state.arena.scope?
        s.frame.scope).bind (·.find? "x")).isNone := by
  have htest : testConstant deletesShadow "x" 1 0 (fun _ m s s' ↦ decide (
      ((s'.arena.scope? s.frame.scope).bind (·.find? "x")).isSome ∧
      (∀ n ∈ List.range 20, ((m.runFor n s').state.arena.scope? s.frame.scope).isSome) ∧
      (((m.runFor 19 s').state.arena.scope? s.frame.scope).bind (·.find? "x")).isNone)) = true := by
    decide +kernel
  obtain ⟨ts, p, image, s, s', hts, hp, h, hfunctions, hrun, hdeclares, hstep, htest⟩ :=
    exists_of_testConstant htest
  obtain ⟨hbound, hlive, hgone⟩ := of_decide_eq_true htest
  exact ⟨ts, p, image, s, s', hts, hp, h, hfunctions, ⟨1, hrun⟩, hdeclares, hstep, hbound,
    fun n hn ↦ hlive n (List.mem_range.2 (Nat.lt_succ_of_le hn)), hgone⟩

end Scriptlet
