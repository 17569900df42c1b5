import Scriptlet.Proofs.Code.ClosedLines

/-!
# Lines that leave a call

A call is left by a `return`, with a value or without, and by a last call that takes its place.
Which of them a line may be depends on **the function that it belongs to**: a `return` without a
value stands only in functions that give back nothing, and a last call only in functions that are
declared with `tail` and give something back. Nothing else is asked of the functions.
-/

namespace Scriptlet

/-- Of the statements without parts, just `return` has an instruction that leaves a call. -/
theorem Stmt.exists_eq_giveBack {spot : Spot} {s : Stmt} {is : List Instr} {i : Instr}
    (h : s.flat? spot = some is) (hi : i ∈ is) (hleaves : i.leaves = true) :
    ∃ value, s = .giveBack value := by
  -- Values, and behind them an instruction that goes on.
  have hcode {e : Expr} (hmem : i ∈ e.code) : False := by
    rw [(e.reads_code i hmem).leaves] at hleaves
    cases hleaves
  have hlast {j : Instr} (hj : j.leaves = false) (hmem : i ∈ [j]) : False := by
    rw [List.mem_singleton.1 hmem, hj] at hleaves
    cases hleaves
  have hleave {loop : Option Loop} {target : Loop → Nat}
      (hmem : i ∈ loop.elim [] fun l ↦ spot.leave l (target l)) : False := by
    cases loop with
    | none => cases hmem
    | some l =>
      rcases List.mem_append.1 hmem with hmem | hmem
      · rw [(List.mem_replicate.1 hmem).2] at hleaves
        cases hleaves
      · exact hlast rfl hmem
  cases s with
  | giveBack value => exact ⟨value, rfl⟩
  | declare isConst type name init =>
    cases init with
    | none =>
      cases h
      rcases List.mem_cons.1 hi with rfl | hi
      · cases type <;> cases hleaves
      · exact (hlast rfl hi).elim
    | some e =>
      cases h
      exact ((List.mem_append.1 hi).elim hcode (hlast rfl)).elim
  | assign name value =>
    cases h
    exact ((List.mem_append.1 hi).elim hcode (hlast rfl)).elim
  | eval e =>
    cases h
    exact ((List.mem_append.1 hi).elim hcode (hlast rfl)).elim
  | assignAt name index value =>
    cases h
    rcases List.mem_append.1 hi with hi | hi
    · exact ((List.mem_append.1 hi).elim hcode hcode).elim
    · exact (hlast rfl hi).elim
  | step op name =>
    cases h
    simp only [List.mem_cons, List.not_mem_nil, or_false] at hi
    rcases hi with rfl | rfl | rfl | rfl <;> cases hleaves
  | breakLoop depth =>
    cases h
    exact (hleave hi).elim
  | continueLoop =>
    cases h
    exact (hleave hi).elim
  | exit | unset name =>
    cases h
    exact (hlast rfl hi).elim
  | uses target =>
    cases h
    cases hi
  | ifElse | whileLoop | function | block => cases h

/-- The line suits the function that it belongs to. -/
structure Entry.Suits (e : Entry) : Prop where
  bare : e.instr = .retVoid → ∀ head, e.point.owner = some head → head.returns = .void
  last : ∀ name count, e.instr = .tailCall name count →
    ∃ head, e.point.owner = some head ∧ head.isTail = true ∧ head.returns ≠ .void

/-- All lines suit the functions that they belong to. -/
def Listing.Suits (L : Listing) : Prop :=
  ∀ e ∈ L.entries, e.Suits

namespace Listing.Suits

variable {L L' : Listing} {spot : Spot} {is : List Instr}

/-- Lines that suit their functions do so together. -/
theorem append (h : L.Suits) (h' : L'.Suits) : (L ++ L').Suits :=
  List.forall_mem_append.2 ⟨h, h'⟩

theorem of_functions (fs : List Located) : Listing.Suits ⟨[], fs⟩ :=
  nofun

/-- Instructions in a row that leave a call with a value only. -/
theorem line (hleaves : ∀ i ∈ is, i.leaves = true → i = .ret) (offset : Nat) :
    (spot.line offset is).Suits := by
  intro e he
  have hret := hleaves e.instr (owner_of_mem_entriesOf he).2
  refine ⟨fun hi ↦ ?_, fun name count hi ↦ ?_⟩ <;>
  · have := hret (hi ▸ rfl)
    rw [hi] at this
    cases this

/-- A `return` without a value suits a function that gives none back. -/
theorem bare (hvoid : ∀ head, spot.owner = some head → head.returns = .void) (offset : Nat) :
    (spot.line offset [.retVoid]).Suits := by
  intro e he
  obtain rfl := List.mem_singleton.1 he
  exact ⟨fun _ ↦ hvoid, nofun⟩

/-- A condition and the jump for the case that it is false. -/
theorem test (c : Expr) (offset target : Nat) :
    (spot.line offset (c.code ++ [.jumpIfFalse target, .enterScope])).Suits := by
  refine line (fun i hi hleaves ↦ ?_) offset
  rcases List.mem_append.1 hi with hi | hi
  · rw [(c.reads_code i hi).leaves] at hleaves
    cases hleaves
  · simp only [List.mem_cons, List.not_mem_nil, or_false] at hi
    rcases hi with rfl | rfl <;> cases hleaves

/-- The end of the body of a function. -/
theorem closing (offset : Nat) (head : Head) (body : List Stmt) :
    (((Spot.body head).afterAll body).line offset (head.closing body)).Suits := by
  rw [Head.closing]
  split
  · exact line (List.forall_mem_nil _) offset
  · split
    · rename_i hvoid
      refine bare (fun head' howner ↦ ?_) offset
      rw [((Spot.body head).tail_blocks_afterAll body).2.2] at howner
      cases howner
      exact hvoid
    · exact line (by simp [Instr.leaves]) offset

end Listing.Suits

/-- A last call with the `return` behind it. -/
theorem Listing.Suits.lastCall {spot : Spot} {head : Head} (howner : spot.owner = some head)
    (hisTail : head.isTail = true) (hvoid : head.returns ≠ .void) (name : String)
    (args : List Expr) (offset : Nat) :
    (spot.line offset (Expr.codeAll args ++ [.tailCall name args.length, .ret])).Suits := by
  intro e he
  obtain ⟨howner', hmem⟩ := owner_of_mem_entriesOf he
  refine ⟨fun hi ↦ ?_, fun _ _ _ ↦ ⟨head, howner'.trans howner, hisTail, hvoid⟩⟩
  rw [hi] at hmem
  rcases List.mem_append.1 hmem with hmem | hmem
  · exact absurd (Expr.reads_codeAll args _ hmem).leaves nofun
  · simp at hmem

/-- The code of a statement that has no parts but expressions. -/
theorem Stmt.suits_line {spot : Spot} {s : Stmt} {is : List Instr} {loops : Nat}
    (hvalid : s.valid loops spot.place = true) (h : s.flat? spot = some is) (offset : Nat) :
    (spot.line offset is).Suits := by
  by_cases hleaves : ∃ i ∈ is, i.leaves = true
  · obtain ⟨i, hi, hleaves⟩ := hleaves
    obtain ⟨value, rfl⟩ := Stmt.exists_eq_giveBack h hi hleaves
    cases value with
    | none =>
      cases h
      exact .bare (fun head howner ↦ (spot.returns_eq_void_iff howner hvalid).2 rfl) offset
    | some e =>
      have hcode : (spot.line offset (e.code ++ [.ret])).Suits := by
        refine .line (fun i hi hleaves ↦ ?_) offset
        rcases List.mem_append.1 hi with hi | hi
        · rw [(e.reads_code i hi).leaves] at hleaves
          cases hleaves
        · exact List.mem_singleton.1 hi
      cases h
      -- Only a call that stands in a function with `tail` is made a last call.
      rcases e.lastCode_eq spot.isTail with heq | ⟨htail, name, args, rfl, heq⟩
      · rwa [heq]
      · obtain ⟨head, howner, hisTail⟩ := spot.exists_owner_of_isTail htail
        rw [heq, List.append_assoc]
        exact .lastCall howner hisTail
          (fun hvoid ↦ nomatch (spot.returns_eq_void_iff howner hvalid).1 hvoid) name args offset
  · exact .line (fun i hi hi' ↦ absurd ⟨i, hi, hi'⟩ hleaves) offset

mutual

/-- The lines of a valid statement suit the functions that they belong to. -/
theorem Stmt.Listed.suits {spot : Spot} {s : Stmt} {start stop loops : Nat} {L : Listing}
    (hvalid : s.valid loops spot.place = true) : s.Listed spot start stop L → L.Suits
  | .flat h => Stmt.suits_line hvalid h start
  | .ifElse _ hbody _ hotherwise => by
    rw [Stmt.valid, Bool.and_eq_true, Bool.and_eq_true] at hvalid
    exact (((Listing.Suits.test _ _ _).append
      (hbody.suits (show Stmt.validAll loops spot.inBlock.place _ = true from hvalid.1.1))).append
      (.line (by simp [Instr.leaves]) _)).append (hotherwise.suits hvalid.1.2)
  | .whileLoop _ hbody _ =>
    ((Listing.Suits.test _ _ _).append (hbody.suits (show Stmt.validAll (loops + 1)
      (spot.inLoop start stop).inBlock.place _ = true from hvalid))).append
      (.line (by simp [Instr.leaves]) _)
  | @Stmt.Listed.function _ head _ _ _ _ _ _ _ hbody _ => by
    rw [Stmt.valid, Bool.and_eq_true] at hvalid
    exact (((Listing.Suits.line (by simp [Instr.leaves]) _).append (.of_functions _)).append
      (hbody.suits (show Stmt.validAll 0 (Spot.body head).place _ = true from hvalid.1))).append
      (.closing _ _ _)
  | .block hbody =>
    ((Listing.Suits.line (by simp [Instr.leaves]) _).append (hbody.suits
      (show Stmt.validAll loops spot.inBlock.place _ = true from hvalid))).append
      (.line (by simp [Instr.leaves]) _)

/-- **Lines that leave a call suit the functions that they belong to.** -/
theorem Stmt.ListedAll.suits {spot : Spot} {ss : List Stmt} {start stop loops : Nat} {L : Listing}
    (hvalid : Stmt.validAll loops spot.place ss = true) :
    Stmt.ListedAll spot ss start stop L → L.Suits
  | .nil => .of_functions _
  | .cons h hs => by
    rw [Stmt.validAll, Bool.and_eq_true] at hvalid
    have hplace (s : Stmt) : (spot.after s).place = spot.place := by cases s <;> rfl
    exact (h.suits hvalid.1).append (hs.suits (hplace _ ▸ hvalid.2))

end

end Scriptlet
