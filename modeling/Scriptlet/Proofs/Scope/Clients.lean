import Mathlib.Data.List.GetD
import Scriptlet.Proofs.Scope.Stack

/-!
# Clients of an arena

A client opens a scope inside the innermost one, closes the innermost one, and works on variables
from **any** live scope outward. It keeps the handles that it was given, the innermost first.

What it is told is what a plain list of ordered maps would tell it (`Scopes.answer`), where a lookup
takes the first match outward. The slots behind the handles, which of them are vacant and which was
taken again, never show: a step of the client and a step of the list keep the arena stacked over the
list (`Arena.Stacked.ask`), and so do all steps of a run (`Arena.Stacked.run`).
-/

namespace Scriptlet

/-- A change of variables from some scope outward. -/
inductive Change where
  | declare (name : String) (type : Tag) (v : Value)
  | update (name : String) (f : Value → Except ValueError Value)
  | set (name : String) (v : Value)
  | assign (name : String) (v : Value)

namespace Change

/-- The change made in an arena, from a scope outward. -/
def inArena (a : Arena) (id : ScopeId) : Change → Except ScopeError Unit × Arena
  | declare name type v => a.declare id name type v
  | update name f => a.update id name f
  | set name v => a.set id name v
  | assign name v => a.assign id name v

/-- The change made in a list of scopes. -/
def inScopes (scopes : Scopes) : Change → Except ScopeError Scopes
  | declare name type v => scopes.declare name type v
  | update name f => scopes.update name f
  | set name v => scopes.set name v
  | assign name v => scopes.assign name v

end Change

/-- What a client asks for. It names a scope by how many live scopes are inside it. -/
inductive Request where
  | push
  | release
  | change (out : Nat) (c : Change)
  | unset (out : Nat) (name : String)
  | get (out : Nat) (name : String)
  | snapshot (out : Nat)

/-- What a client is told. -/
inductive Reply where
  | scope (out : Option Nat)
  | done (r : Except ScopeError Unit)
  | removed (found : Bool)
  | value (r : Except ScopeError Value)
  | vars (bs : List (String × Value))

namespace Request

/-- The request names a live scope, where so many live; the global scope is not closed. -/
def fits (live : Nat) : Request → Bool
  | push => true
  | release => decide (1 < live)
  | change out _ | unset out _ | get out _ | snapshot out => decide (out < live)

/-- The number of live scopes after a request. -/
def liveAfter (live : Nat) : Request → Nat
  | push => live + 1
  | release => live - 1
  | change _ _ | unset _ _ | get _ _ | snapshot _ => live

/-- Each of these requests names a live scope when its turn comes. -/
def allFit (live : Nat) : List Request → Bool
  | [] => true
  | r :: rs => r.fits live && allFit (r.liveAfter live) rs

end Request

/-! ### The two sides -/

/-- An arena with the handles of its live scopes, the innermost first. -/
structure Client where
  arena : Arena
  handles : List ScopeId

namespace Client

/-- A client that has only the global scope. -/
def new : Client :=
  ⟨.new, [Arena.global]⟩

/-- The handle of a scope that has so many inside it. -/
def handle (c : Client) (out : Nat) : ScopeId :=
  c.handles.getD out Arena.global

/-- Has the arena do what is asked for. A handle that the arena gives is told by its place among
those of the client. -/
def ask (c : Client) : Request → Reply × Client
  | .push =>
    let r := c.arena.push (c.handle 0)
    let handles := r.1 :: c.handles
    (.scope (handles.idxOf? r.1), ⟨r.2, handles⟩)
  | .release =>
    let r := c.arena.release (c.handle 0)
    let handles := c.handles.tail
    (.scope (r.1.bind handles.idxOf?), ⟨r.2, handles⟩)
  | .change out change =>
    let r := change.inArena c.arena (c.handle out)
    (.done r.1, ⟨r.2, c.handles⟩)
  | .unset out name =>
    let r := c.arena.unset (c.handle out) name
    (.removed r.1, ⟨r.2, c.handles⟩)
  | .get out name => (.value (c.arena.get (c.handle out) name), c)
  | .snapshot out => (.vars (c.arena.snapshot (c.handle out)), c)

/-- Asks for one thing after another; each reply comes with the number of live scopes. -/
def run (c : Client) : List Request → List (Reply × Nat) × Client
  | [] => ([], c)
  | r :: rs =>
    let told := c.ask r
    let rest := told.2.run rs
    ((told.1, told.2.arena.live) :: rest.1, rest.2)

end Client

namespace Scopes

/-- What a list of scopes tells to a client. A change sees the scopes from the named one outward,
and where it fails they stay as they are. -/
def answer (scopes : Scopes) : Request → Reply × Scopes
  | .push => (.scope (some 0), [] :: scopes)
  | .release => (.scope (some 0), scopes.tail)
  | .change out change =>
    let rest : Scopes := scopes.drop out
    let r := change.inScopes rest
    (.done (r.map fun _ ↦ ()), scopes.take out ++ r.toOption.getD rest)
  | .unset out name =>
    let rest : Scopes := scopes.drop out
    (.removed (rest.var? name).isSome, scopes.take out ++ rest.unset name)
  | .get out name => (.value (get (scopes.drop out) name), scopes)
  | .snapshot out => (.vars ((scopes.getD out []).map fun b ↦ (b.1, b.2.value)), scopes)

/-- Answers one request after another; each reply comes with the number of scopes. -/
def run (scopes : Scopes) : List Request → List (Reply × Nat) × Scopes
  | [] => ([], scopes)
  | r :: rs =>
    let told := scopes.answer r
    let rest := told.2.run rs
    ((told.1, told.2.length) :: rest.1, rest.2)

end Scopes

/-! ### One step -/

/-- The handles are those of the live scopes. -/
theorem Client.length_handles_ask (c : Client) (r : Request) :
    (c.ask r).2.handles.length = r.liveAfter c.handles.length := by
  cases r with
  | push => exact List.length_cons
  | release => exact List.length_tail
  | change | unset | get | snapshot => rfl

namespace Arena.Stacked

variable {a : Arena} {c : Client} {id : ScopeId} {before ids : List ScopeId} {front scopes : Scopes}

/-- A change is the same from any live scope outward. -/
theorem change_from (h : a.Stacked (before ++ id :: ids) (front ++ scopes))
    (hlen : before.length = front.length) (change : Change) :
    YieldsFrom (before ++ id :: ids) front scopes (change.inArena a id)
      (change.inScopes scopes) := by
  cases change with
  | declare name type v => exact h.declare_from hlen name type v
  | update name f => exact h.update_from hlen name f
  | set name v => exact h.set_from hlen name v
  | assign name v => exact h.assign_from hlen name v

/-- A live scope has handles and scopes in front of it and around it. -/
theorem exists_split (h : c.arena.Stacked c.handles scopes) {out : Nat}
    (hout : out < c.handles.length) :
    ∃ before ids, c.handles = before ++ c.handle out :: ids ∧
      before.length = (scopes.take out).length ∧
      c.arena.Stacked (before ++ c.handle out :: ids) (scopes.take out ++ scopes.drop out) := by
  have hsplit : c.handles = c.handles.take out ++ c.handle out :: c.handles.drop (out + 1) := by
    rw [Client.handle, List.getD_eq_getElem _ _ hout, ← List.drop_eq_getElem_cons hout,
      List.take_append_drop]
  refine ⟨_, _, hsplit, ?_, ?_⟩
  · rw [List.length_take, List.length_take, h.chain.length_eq]
  · rw [← hsplit, List.take_append_drop]
    exact h

/-- A snapshot lists the variables of its scope with their values. -/
theorem snapshot_eq (h : c.arena.Stacked c.handles scopes) {out : Nat}
    (hout : out < c.handles.length) :
    c.arena.snapshot (c.handle out) =
      (scopes.getD out []).map fun b ↦ (b.1, b.2.value) := by
  obtain ⟨before, ids, hids, hlen, hs⟩ := h.exists_split hout
  have hlt : out < scopes.length := h.chain.length_eq ▸ hout
  have hchain := hs.chain.of_append_append hlen
  rw [List.drop_eq_getElem_cons hlt] at hchain
  cases hchain with
  | cons hscope _ =>
    rw [snapshot, hscope, List.getD_eq_getElem _ _ hlt]
    rfl

/-- The innermost scope is the first one. -/
theorem handles_eq_cons (h : c.arena.Stacked c.handles scopes) :
    ∃ ids, c.handles = c.handle 0 :: ids := by
  rcases hids : c.handles with - | ⟨id, ids⟩
  · have hlast := h.last
    rw [hids] at hlast
    cases hlast
  · exact ⟨ids, by rw [Client.handle, hids, List.getD_cons_zero]⟩

/-- A scope that is opened is the innermost one, and empty. -/
theorem ask_push (h : c.arena.Stacked c.handles scopes) :
    (c.ask .push).1 = .scope (some 0) ∧
      (c.ask .push).2.arena.Stacked (c.ask .push).2.handles ([] :: scopes) := by
  obtain ⟨ids, hids⟩ := h.handles_eq_cons
  rw [hids] at h
  constructor
  · exact congrArg Reply.scope (by rw [List.idxOf?_cons, beq_self_eq_true, if_pos rfl])
  · have hpush := h.push
    rw [← hids] at hpush
    exact hpush

/-- The innermost scope is closed, and the handle given is that of the scope around it. -/
theorem ask_release (h : c.arena.Stacked c.handles scopes) (hlive : 1 < c.handles.length) :
    (c.ask .release).1 = .scope (some 0) ∧
      (c.ask .release).2.arena.Stacked (c.ask .release).2.handles scopes.tail := by
  obtain ⟨ids, hids⟩ := h.handles_eq_cons
  rcases ids with - | ⟨parent, ids⟩
  · rw [hids] at hlive
    exact absurd hlive (Nat.lt_irrefl 1)
  rw [hids] at h
  obtain ⟨vars, rest, rfl, -⟩ := h.exists_eq_cons
  obtain ⟨hparent, hstacked⟩ := h.release
  have htail : c.handles.tail = parent :: ids := by rw [hids, List.tail_cons]
  constructor
  · refine congrArg Reply.scope ?_
    rw [hparent, htail, Option.bind_some, List.idxOf?_cons, beq_self_eq_true, if_pos rfl]
  · rw [← htail] at hstacked
    exact hstacked

/-- **One request**: the client is told what the list of scopes tells, and the arena stays stacked
over the list. -/
theorem ask (h : c.arena.Stacked c.handles scopes) {r : Request}
    (hr : r.fits c.handles.length) :
    (c.ask r).1 = (scopes.answer r).1 ∧
      (c.ask r).2.arena.Stacked (c.ask r).2.handles (scopes.answer r).2 := by
  cases r with
  | push => exact h.ask_push
  | release => exact h.ask_release (of_decide_eq_true hr)
  | change out change =>
    obtain ⟨before, ids, hids, hlen, hs⟩ := h.exists_split (of_decide_eq_true hr)
    obtain ⟨hreply, hstacked⟩ := hs.change_from hlen change
    refine ⟨congrArg Reply.done hreply, ?_⟩
    rw [← hids] at hstacked
    exact hstacked
  | unset out name =>
    obtain ⟨before, ids, hids, hlen, hs⟩ := h.exists_split (of_decide_eq_true hr)
    obtain ⟨hreply, hstacked⟩ := hs.unset_from hlen name
    refine ⟨congrArg Reply.removed hreply, ?_⟩
    rw [← hids] at hstacked
    exact hstacked
  | get out name =>
    obtain ⟨before, ids, -, hlen, hs⟩ := h.exists_split (of_decide_eq_true hr)
    exact ⟨congrArg Reply.value (hs.get_eq_from hlen name), h⟩
  | snapshot out =>
    exact ⟨congrArg Reply.vars (h.snapshot_eq (of_decide_eq_true hr)), h⟩

/-- **A run** tells the client what the list of scopes tells, with as many live scopes as the list
is long. -/
theorem run {rs : List Request} (h : c.arena.Stacked c.handles scopes)
    (hrs : Request.allFit c.handles.length rs) :
    (c.run rs).1 = (scopes.run rs).1 ∧
      (c.run rs).2.arena.Stacked (c.run rs).2.handles (scopes.run rs).2 := by
  induction rs generalizing c scopes with
  | nil => exact ⟨rfl, h⟩
  | cons r rs ih =>
    obtain ⟨hr, hrest⟩ := Bool.and_eq_true_iff.1 hrs
    obtain ⟨hreply, hstacked⟩ := h.ask hr
    rw [← c.length_handles_ask r] at hrest
    obtain ⟨hreplies, hend⟩ := ih hstacked hrest
    refine ⟨?_, hend⟩
    rw [Client.run, Scopes.run, hreply, hreplies, hstacked.live_eq, hstacked.chain.length_eq]

/-- A new scope is in a slot that was vacant, is empty, and sees what the innermost scope saw. -/
theorem push_sees (h : c.arena.Stacked c.handles scopes) :
    (c.arena.push (c.handle 0)).1 ∉ c.handles ∧
      (c.arena.push (c.handle 0)).2.snapshot (c.arena.push (c.handle 0)).1 = [] ∧
      ∀ name, (c.arena.push (c.handle 0)).2.get (c.arena.push (c.handle 0)).1 name =
        c.arena.get (c.handle 0) name := by
  obtain ⟨ids, hids⟩ := h.handles_eq_cons
  rw [hids] at h ⊢
  have hpush := h.push
  refine ⟨(List.nodup_cons.1 hpush.nodup).1, ?_, fun name ↦ ?_⟩
  · cases hpush.chain with
    | cons hscope _ =>
      rw [snapshot, hscope]
      rfl
  · rw [hpush.get_eq, h.get_eq]
    rfl

end Arena.Stacked

/-! ### Every client -/

/-- **An arena is a stack of ordered maps.** A client that starts with the global scope, opens
scopes inside the innermost one, closes the innermost one and works from live scopes outward is told
exactly what a list of ordered maps tells, with the number of scopes after each step. At the end its
handles are distinct and are those of the occupied slots, and a scope opened then, whether in a slot
that was used before or not, is empty and sees just what is around it. -/
theorem Client.replies_eq (rs : List Request) (h : Request.allFit 1 rs) :
    (new.run rs).1 = (Scopes.run [[]] rs).1 ∧
      (new.run rs).2.handles.Nodup ∧
      (∀ id, ((new.run rs).2.arena.scope? id).isSome ↔ id ∈ (new.run rs).2.handles) ∧
      ∀ id a, (new.run rs).2.arena.push ((new.run rs).2.handle 0) = (id, a) →
        id ∉ (new.run rs).2.handles ∧ a.snapshot id = [] ∧
          ∀ name, a.get id name = (new.run rs).2.arena.get ((new.run rs).2.handle 0) name := by
  have hnew : new.arena.Stacked new.handles [[]] := Arena.Stacked.new
  obtain ⟨hreplies, hstacked⟩ := hnew.run h
  refine ⟨hreplies, hstacked.nodup, fun id ↦ hstacked.isSome_iff, fun id a hpush ↦ ?_⟩
  have hsees := hstacked.push_sees
  rw [hpush] at hsees
  exact hsees

/-- A slot that is taken again does not show the `y` of its former scope, only the `x` around it,
which is written from inside. -/
theorem Client.replies_eq_recycled :
    (Client.new.run [.change 0 (.declare "x" .int (.int 5)), .push,
        .change 0 (.declare "y" .auto (.int 2)), .release, .push, .snapshot 0, .get 0 "y",
        .change 0 (.set "x" (.bool true)), .get 1 "x"]).1 =
      [(.done (.ok ()), 1), (.scope (some 0), 2), (.done (.ok ()), 2), (.scope (some 0), 1),
        (.scope (some 0), 2), (.vars [], 2), (.value (.error (.unknown "y")), 2),
        (.done (.ok ()), 2), (.value (.ok (.int 1)), 2)] :=
  (replies_eq _ (by decide)).1.trans (by rfl)

end Scriptlet
