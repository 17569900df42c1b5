import Mathlib.Algebra.GroupWithZero.Nat
import Scriptlet.Proofs.Machine.Lockstep

/-!
# The scopes of a running machine

Frames hold plain slot numbers, and slots are vacated and taken again, so that nothing in the types
keeps a frame from a slot that means another scope by now. The main statement of this module is that
no run comes to that, **whatever the code is**: between any two instructions the scopes in use are
one chain of parent links, which starts at the innermost open block of the call in progress, goes
through the blocks of each call to the scope of its parameters, and from there on to the open
blocks of its caller, down to the global scope.
-/

namespace Scriptlet

/-- The frames of the calls in progress, the innermost first and that of the program itself last. -/
def State.frames (s : State) : List Frame :=
  s.frame :: s.callers.toList.reverse.map (·.frame)

/-- A machine comes to a state between two instructions of its run. -/
def Machine.Reaches (m : Machine) (s : State) : Prop :=
  ∃ count, m.runFor count m.start = .running s

/-- Following the parent links from a scope visits these scopes, none of them vacant, and ends at
the last one, which has no parent. -/
inductive Arena.Outward (a : Arena) : ScopeId → List ScopeId → Prop where
  | last {id : ScopeId} {s : Scope} (h : a.scope? id = some s) (hp : s.parent = none) :
      Outward a id [id]
  | next {id parent : ScopeId} {s : Scope} {ids : List ScopeId} (h : a.scope? id = some s)
      (hp : s.parent = some parent) (rest : Outward a parent ids) : Outward a id (id :: ids)

/-- The scopes of a state are one chain, cut into segments by the frames. -/
structure State.ScopeChain (s : State) (segments : List (List ScopeId)) : Prop where
  frames_ne_nil : s.frames ≠ []
  /-- The program itself runs in the global scope. -/
  bottom : (s.frames.getLast?).map (·.base) = some Arena.global
  /-- A call opens its scope inside the innermost open block of its caller. -/
  inside : s.frames.IsChain fun f caller ↦
    (s.arena.scope? f.base).bind (·.parent) = some caller.scope
  /-- Each frame has a segment, from its innermost open block to the scope of its parameters. -/
  spans : List.Forall₂
    (fun f segment ↦ segment.head? = some f.scope ∧ segment.getLast? = some f.base)
    s.frames segments
  /-- The parent links go through all segments in order. -/
  outward : s.arena.Outward s.frame.scope segments.flatten
  ends : segments.flatten.getLast? = some Arena.global
  /-- They visit every scope there is, -/
  mem_iff : ∀ id, id ∈ segments.flatten ↔ (s.arena.scope? id).isSome
  /-- and each just once. -/
  nodup : segments.flatten.Nodup
  /-- No frame holds a handle of a vacant slot, -/
  handles : ∀ f ∈ s.frames, (s.arena.scope? f.scope).isSome ∧ (s.arena.scope? f.base).isSome
  /-- and neither does a scope. -/
  links : ∀ id scope parent, s.arena.scope? id = some scope → scope.parent = some parent →
    (s.arena.scope? parent).isSome
  /-- So many scopes live as there are calls and open blocks. -/
  live : s.liveScopes = s.frameDepth + (segments.map fun segment ↦ segment.length - 1).sum

namespace Arena.Chain

variable {a : Arena} {ids : List ScopeId} {scopes : Scopes}

/-- A chain is what its parent links visit. -/
theorem outward {id : ScopeId} (h : a.Chain (id :: ids) scopes) : a.Outward id (id :: ids) := by
  induction ids generalizing id scopes with
  | nil =>
    cases h with
    | cons hs _ => exact .last hs rfl
  | cons next ids ih =>
    cases h with
    | cons hs rest => exact .next hs rfl (ih rest)

/-- The parent of the last scope of a segment is the first scope behind it. -/
theorem parent_of_getLast? {segment : List ScopeId} {base : ScopeId}
    (h : a.Chain (segment ++ ids) scopes) (hlast : segment.getLast? = some base) :
    (a.scope? base).bind (·.parent) = ids.head? := by
  induction segment generalizing scopes with
  | nil => cases hlast
  | cons id segment ih =>
    cases h with
    | cons hs rest =>
      rcases segment with - | ⟨next, segment⟩
      · obtain rfl : id = base := by simpa using hlast
        rw [hs]
        rfl
      · exact ih rest (by rwa [List.getLast?_cons_cons] at hlast)

/-- The parent of a scope on a chain is on it. -/
theorem parent_mem {id parent : ScopeId} {s : Scope} (h : a.Chain ids scopes) (hid : id ∈ ids)
    (hs : a.scope? id = some s) (hp : s.parent = some parent) : parent ∈ ids := by
  induction h with
  | nil => cases hid
  | @cons id' ids vars scopes hs' rest ih =>
    rcases List.mem_cons.1 hid with rfl | hid
    · obtain rfl := Option.some.inj (hs.symm.trans hs')
      exact List.mem_cons_of_mem _ (List.mem_of_head? hp)
    · exact List.mem_cons_of_mem _ (ih hid)

/-- The end of a chain is a chain. -/
theorem of_append {segment : List ScopeId} (h : a.Chain (segment ++ ids) scopes) :
    ∃ rest, a.Chain ids rest := by
  induction segment generalizing scopes with
  | nil => exact ⟨scopes, h⟩
  | cons id segment ih =>
    cases h with
    | cons _ rest => exact ih rest

end Arena.Chain

namespace Framed

variable {f : Frame} {cs : List Caller} {blocks : Nat} {ws : List Waiting} {ids : List ScopeId}

/-- What the frames cut a chain into. -/
theorem exists_segments {a : Arena} {scopes : Scopes} (h : Framed f cs blocks ws ids)
    (hchain : a.Chain ids scopes) :
    ∃ segments, segments.flatten = ids ∧
      List.Forall₂ (fun f segment ↦ segment.head? = some f.scope ∧
        segment.getLast? = some f.base) (f :: cs.map (·.frame)) segments ∧
      (f :: cs.map (·.frame)).IsChain fun f caller ↦
        (a.scope? f.base).bind (·.parent) = some caller.scope := by
  induction h generalizing scopes with
  | @top f blocks segment h =>
    exact ⟨[segment], by simp, .cons ⟨h.head, h.last⟩ .nil, .singleton _⟩
  | @call f blocks segment ids c cs w ws h rest _ _ ih =>
    obtain ⟨scopes', hrest⟩ := hchain.of_append
    obtain ⟨segments, hflat, hspans, hinside⟩ := ih hrest
    obtain ⟨tail, rfl⟩ := rest.eq_cons
    refine ⟨segment :: segments, by rw [List.flatten_cons, hflat], .cons ⟨h.head, h.last⟩ hspans,
      .cons_cons ?_ hinside⟩
    rw [hchain.parent_of_getLast? h.last]
    rfl

/-- The last frame has its base at the end of the chain. -/
theorem getLast?_base (h : Framed f cs blocks ws ids) :
    ((f :: cs.map (·.frame)).getLast?).map (·.base) = ids.getLast? := by
  induction h with
  | top h => rw [h.last]; rfl
  | @call f blocks segment ids c cs w ws h rest _ _ ih =>
    obtain ⟨tail, rfl⟩ := rest.eq_cons
    rw [List.map_cons, List.getLast?_cons_cons, ih, List.getLast?_append_of_ne_nil _ (by simp)]

end Framed

/-- Segments, none of them empty, hold as many scopes as there are segments and further scopes in
them. -/
theorem length_flatten_segments {frames : List Frame} {segments : List (List ScopeId)}
    (h : List.Forall₂ (fun f segment ↦ segment.head? = some f.scope ∧
      segment.getLast? = some f.base) frames segments) :
    segments.flatten.length =
      frames.length + (segments.map fun segment ↦ segment.length - 1).sum := by
  induction h with
  | nil => rfl
  | @cons f segment frames segments hf _ ih =>
    have hpos : 0 < segment.length := by
      rcases segment with - | ⟨id, segment⟩
      · cases hf.1
      · simp
    rw [List.flatten_cons, List.length_append, ih, List.map_cons, List.sum_cons, List.length_cons]
    omega

/-- The ends of the segments are on the chain. -/
theorem mem_flatten_segments {frames : List Frame} {segments : List (List ScopeId)}
    (h : List.Forall₂ (fun f segment ↦ segment.head? = some f.scope ∧
      segment.getLast? = some f.base) frames segments) {f : Frame} (hf : f ∈ frames) :
    f.scope ∈ segments.flatten ∧ f.base ∈ segments.flatten := by
  induction h with
  | nil => cases hf
  | @cons f' segment frames segments hseg _ ih =>
    rw [List.flatten_cons, List.mem_append, List.mem_append]
    rcases List.mem_cons.1 hf with rfl | hf
    · exact ⟨.inl (List.mem_of_head? hseg.1), .inl (List.mem_of_getLast? hseg.2)⟩
    · exact ⟨.inr (ih hf).1, .inr (ih hf).2⟩

/-- The scopes of a state with an outline are one chain, with a segment for each frame. -/
theorem State.Outlined.exists_scopeChain {s : State} {o : Outline} (h : s.Outlined o) :
    ∃ segments, s.ScopeChain segments := by
  obtain ⟨ids, hstacked, hframed⟩ := h.exists_chain
  obtain ⟨segments, hflat, hspans, hinside⟩ := hframed.exists_segments hstacked.chain
  -- The segments together are the chain, and the chain has all scopes.
  have hmem : ∀ id, id ∈ segments.flatten ↔ (s.arena.scope? id).isSome := by
    intro id
    rw [hflat, hstacked.isSome_iff]
  refine ⟨segments, List.cons_ne_nil _ _, ?_, hinside, hspans, ?_, ?_, hmem, ?_, ?_, ?_, ?_⟩
  · rw [State.frames, hframed.getLast?_base, hstacked.last]
  · rw [hflat]
    exact hstacked.chain.outward
  · rw [hflat, hstacked.last]
  · rw [hflat]
    exact hstacked.nodup
  · intro f hf
    obtain ⟨hscope, hbase⟩ := mem_flatten_segments hspans hf
    exact ⟨(hmem _).1 hscope, (hmem _).1 hbase⟩
  · intro id scope parent hid hparent
    have hin := hstacked.mem_of_isSome (by rw [hid]; rfl)
    exact hstacked.isSome_iff.2 (hstacked.chain.parent_mem hin hid hparent)
  · have hlen := length_flatten_segments hspans
    rw [State.liveScopes, hstacked.live_eq, ← hflat, hlen, State.frameDepth]
    simp

/-- Every state that a run comes to has an outline. -/
theorem Machine.Reaches.exists_outline {m : Machine} {s : State} (h : m.Reaches s) :
    ∃ o, s.Outlined o := by
  obtain ⟨count, hrun⟩ := h
  have hout := m.runFor_outlined count m.start_outlined
  rw [hrun] at hout
  generalize m.outlineRun count m.outlineStart = p at hout
  cases hout with
  | running h => exact ⟨_, h⟩

/-- **The scopes of a run are one chain**, for every image, every host and all limits: in every
state between two instructions the frames cut the chain of parent links into their segments, and
the chain has all the scopes that live. -/
theorem exists_scopeChain_of_reaches (image : Image) (table : Table) (limits : Limits) {s : State}
    (h : (Machine.ofImage image table limits).Reaches s) : ∃ segments, s.ScopeChain segments := by
  obtain ⟨o, hout⟩ := h.exists_outline
  exact hout.exists_scopeChain

/-- Opens a block and calls a function inside it, which opens a block of its own. -/
def callInBlock : Image where
  bytes := (((Buffer.new.emit .enterScope).emit (.call "f" 0)).emit .enterScope).bytes
  tableOffset := 52
  mainEntry := 32
  functions := [⟨"f", 51, true, false, .int, []⟩]

/-- Inside both blocks there are two frames and four scopes. -/
theorem exists_scopeChain_callInBlock :
    ∃ s, (Machine.ofImage callInBlock .empty {}).Reaches s ∧ s.frameDepth = 2 ∧
      s.liveScopes = 4 ∧ ∃ segments, s.ScopeChain segments := by
  obtain ⟨s, hrun, hdepth, hlive⟩ : ∃ s, (Machine.ofImage callInBlock .empty {}).runFor 3
      (Machine.ofImage callInBlock .empty {}).start = .running s ∧ s.frameDepth = 2 ∧
      s.liveScopes = 4 := ⟨_, rfl, rfl, rfl⟩
  exact ⟨s, ⟨3, hrun⟩, hdepth, hlive, exists_scopeChain_of_reaches _ _ _ ⟨3, hrun⟩⟩

end Scriptlet
