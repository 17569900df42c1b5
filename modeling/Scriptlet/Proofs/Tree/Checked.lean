import Scriptlet.Proofs.Tree.Grammar
import Scriptlet.Proofs.Tree.Meaning
import Scriptlet.Tree.Context

/-!
# Checked trees

A reader checks names, loops and `return`s while it reads, and what it knows changes as it goes on.
`Stmt.Checked c s c'` says the same of the tree alone: the checks on `s` pass where `c` is known,
and `c'` is known **behind** it. Tokens are not mentioned, so what follows from the checks can be
shown by going through the tree.

The first thing that follows is that no two functions of a program have the same name, wherever they
are defined, and that none has the name of the program itself.
-/

namespace Scriptlet

mutual

/-- A statement passes its checks, given what is known before it and behind it. -/
inductive Stmt.Checked : Context → Stmt → Context → Prop where
  | declare {c c' : Context} {isConst : Bool} {type : Tag} {name : String} {init : Option Expr}
      (h : c.declare name (if isConst then .constant else .mutable) = .ok c') :
      Checked c (.declare isConst type name init) c'
  | assign {c : Context} {name : String} {value : Expr} (h : c.assignable name = .ok ()) :
      Checked c (.assign name value) (c.assigned name)
  | assignAt {c : Context} {name : String} {i value : Expr} (h : c.assignable name = .ok ()) :
      Checked c (.assignAt name i value) c
  | step {c : Context} {op : BinaryOp} {name : String} (h : c.assignable name = .ok ()) :
      Checked c (.step op name) c
  /-- What the body leaves known is known in the alternative. -/
  | ifElse {c c₁ c' : Context} {e : Expr} {body otherwise : List Stmt}
      (hbody : CheckedAll c.enterBlock body c₁) (h : CheckedAll c₁.exitBlock otherwise c') :
      Checked c (.ifElse e body otherwise) c'
  | whileLoop {c c₁ : Context} {e : Expr} {body : List Stmt}
      (hbody : CheckedAll c.enterLoop.enterBlock body c₁) :
      Checked c (.whileLoop e body) c₁.exitBlock.exitLoop
  | breakLoop {c : Context} {depth : Nat} (h : c.enclosing .break_ depth = .ok ()) :
      Checked c (.breakLoop depth) c
  | continueLoop {c : Context} (h : c.enclosing .continue_ 1 = .ok ()) : Checked c .continueLoop c
  | function {c inner : Context} {head : Head} {body : List Stmt}
      (hname : head.name ∉ c.functions) (hparams : head.params.Nodup)
      (hbody : CheckedAll (c.enterFunction head.name (head.returns == .void) head.params) body
        inner) :
      Checked c (.function head body) (c.exitFunction inner)
  | giveBack {c : Context} {value : Option Expr} (h : c.mayReturn value.isNone = .ok ()) :
      Checked c (.giveBack value) c
  | exit {c : Context} : Checked c .exit c
  | unset {c : Context} {name : String} (h : c.assignable name = .ok ()) :
      Checked c (.unset name) (c.forget name)
  | uses {c : Context} {target : String} : Checked c (.uses target) c
  | block {c c₁ : Context} {body : List Stmt} (hbody : CheckedAll c.enterBlock body c₁) :
      Checked c (.block body) c₁.exitBlock
  | eval {c : Context} {e : Expr} : Checked c (.eval e) c

/-- Some statements pass their checks one after the other. -/
inductive Stmt.CheckedAll : Context → List Stmt → Context → Prop where
  | nil {c : Context} : CheckedAll c [] c
  | cons {c c₁ c' : Context} {s : Stmt} {ss : List Stmt} (h : Checked c s c₁)
      (hs : CheckedAll c₁ ss c') : CheckedAll c (s :: ss) c'

end

/-- A part of a program passes its checks. -/
def Clause.Checked : Clause → Context → Context → Prop
  | .stmt s, c, c' | .condition s, c, c' => s.Checked c c'
  | .block ss, c, c' => ∃ c₁, Stmt.CheckedAll c.enterBlock ss c₁ ∧ c' = c₁.exitBlock
  | .stmts ss, c, c' => Stmt.CheckedAll c ss c'

/-! ### Function names -/

/-- The names of functions, in the order of their heads. -/
def functionNames (fs : List (Head × List Stmt)) : List String :=
  fs.map fun f ↦ f.1.name

theorem functionNames_append (fs fs' : List (Head × List Stmt)) :
    functionNames (fs ++ fs') = functionNames fs ++ functionNames fs' :=
  List.map_append

/-- Names of functions are others with those of some functions behind them, none of them twice. -/
def Defines (names names' : List String) (fs : List (Head × List Stmt)) : Prop :=
  names' = names ++ functionNames fs ∧ (names.Nodup → names'.Nodup)

/-- Where no function is defined the names are the same. -/
theorem Defines.of_eq {names names' : List String} (h : names' = names) :
    Defines names names' [] := by
  subst h
  exact ⟨(List.append_nil _).symm, id⟩

/-- Functions that are defined one after the other are defined together. -/
theorem Defines.trans {names names' names'' : List String} {fs fs' : List (Head × List Stmt)}
    (h : Defines names names' fs) (h' : Defines names' names'' fs') :
    Defines names names'' (fs ++ fs') := by
  refine ⟨?_, fun hnodup ↦ h'.2 (h.2 hnodup)⟩
  rw [h'.1, h.1, functionNames_append, List.append_assoc]

namespace Context

variable {c c' : Context}

/-- A declaration of a variable defines no function. -/
theorem functions_of_declare {name : String} {b : Binding} (h : c.declare name b = .ok c') :
    c'.functions = c.functions := by
  rw [Context.declare] at h
  split at h
  · cases h
  · split at h <;> cases h
    rfl

theorem functions_assigned (c : Context) (name : String) :
    (c.assigned name).functions = c.functions := by
  rw [Context.assigned]
  split
  · rfl
  · split <;> rfl

end Context

mutual

/-- A statement that passes its checks defines the functions in it, none of them twice. -/
theorem Stmt.Checked.defines {c c' : Context} {s : Stmt} :
    s.Checked c c' → Defines c.functions c'.functions s.functions
  | .declare h => .of_eq (Context.functions_of_declare h)
  | .assign _ => .of_eq (Context.functions_assigned _ _)
  | .ifElse hbody h => by
    have hdefines := Stmt.CheckedAll.defines hbody
    have hdefines' := Stmt.CheckedAll.defines h
    exact hdefines.trans hdefines'
  | .whileLoop hbody => by
    have hdefines := Stmt.CheckedAll.defines hbody
    exact hdefines
  | .function hname _ hbody => by
    obtain ⟨hfunctions, hnodup⟩ := Stmt.CheckedAll.defines hbody
    refine ⟨?_, fun hc ↦ hnodup ?_⟩
    · rw [Context.exitFunction, hfunctions, Context.enterFunction, Stmt.functions,
        List.append_assoc]
      rfl
    · exact List.nodup_append.2 ⟨hc, List.nodup_singleton _, by grind⟩
  | .block hbody => by
    have hdefines := Stmt.CheckedAll.defines hbody
    exact hdefines
  | .assignAt _ | .step _ | .breakLoop _ | .continueLoop _ | .giveBack _ | .exit | .unset _ | .uses
  | .eval => .of_eq rfl

/-- Behind some statements, their functions are known. -/
theorem Stmt.CheckedAll.defines {c c' : Context} {ss : List Stmt} :
    Stmt.CheckedAll c ss c' →
      Defines c.functions c'.functions (Stmt.functionsAll ss)
  | .nil => .of_eq rfl
  | .cons h hs => h.defines.trans (Stmt.CheckedAll.defines hs)

end

/-- **No two functions of a checked program have the same name.** -/
theorem Program.nodup_functionNames {p : Program} {c : Context}
    (h : Stmt.CheckedAll .start p c) :
    (Function.mainName :: functionNames (Stmt.functionsAll p)).Nodup := by
  obtain ⟨hfunctions, hnodup⟩ := h.defines
  have hc := hnodup (List.nodup_singleton _)
  rwa [hfunctions] at hc

end Scriptlet
