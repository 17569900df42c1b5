import Scriptlet.Proofs.Code.ClosedLines

/-!
# Calls that wait

A call **waits** for the function it calls, unless it is the whole value of a `return` in a function
declared with `tail`: such a call takes the place of the one that it stands in. Which functions the
body of a function calls and waits for is read off its tree here, and the code is shown to have no
others: the lines of a body that call and wait are those of its calls that do.
-/

namespace Scriptlet

/-! ### Trees -/

mutual

/-- The functions that an expression calls, in the order of the calls. -/
def Expr.calls : Expr → List String
  | .int _ | .float _ | .str _ | .bool _ | .null | .var _ => []
  | .call name args => callsAll args ++ [name]
  | .list items => callsAll items
  | .unary _ e => e.calls
  | .binary _ left right => left.calls ++ right.calls
  | .index container i => container.calls ++ i.calls
  | .slice container start stop => container.calls ++ start.calls ++ stop.calls

/-- The functions that some expressions call. -/
def Expr.callsAll : List Expr → List String
  | [] => []
  | e :: es => e.calls ++ callsAll es

end

/-- The functions that an expression calls whose value is given back, but for its last call. -/
def Expr.waitingCalls (isTail : Bool) (e : Expr) : List String :=
  match isTail, e with
  | true, .call _ args => Expr.callsAll args
  | _, e => e.calls

mutual

/-- The functions that a statement calls and waits for. The flag tells whether it stands in a
function declared with `tail`. Functions inside the statement have calls of their own. -/
def Stmt.waitingCalls (isTail : Bool) : Stmt → List String
  | .declare _ _ _ (some e) | .assign _ e | .eval e => e.calls
  | .assignAt _ i value => i.calls ++ value.calls
  | .giveBack (some e) => e.waitingCalls isTail
  | .ifElse c body otherwise =>
    c.calls ++ waitingCallsAll isTail body ++ waitingCallsAll isTail otherwise
  | .whileLoop c body => c.calls ++ waitingCallsAll isTail body
  | .block body => waitingCallsAll isTail body
  | .declare _ _ _ none | .giveBack none | .step _ _ | .breakLoop _ | .continueLoop | .function _ _
  | .exit | .unset _ | .uses _ => []

/-- The functions that some statements call and wait for. -/
def Stmt.waitingCallsAll (isTail : Bool) : List Stmt → List String
  | [] => []
  | s :: ss => s.waitingCalls isTail ++ waitingCallsAll isTail ss

end

/-- No function of a program waits for one: each call of a function of the program that stands in
the body of a function is the whole value of a `return`, and the function is declared
with `tail`. -/
def Program.OnlyLastCalls (p : Program) : Prop :=
  ∀ f ∈ Stmt.functionsAll p, ∀ name ∈ Stmt.waitingCallsAll f.1.isTail f.2,
    ∀ g ∈ Stmt.functionsAll p, g.1.name ≠ name

instance (p : Program) : Decidable p.OnlyLastCalls :=
  inferInstanceAs (Decidable (∀ f ∈ Stmt.functionsAll p, _))

/-! ### Instructions -/

/-- The function that an instruction calls and waits for. -/
def Instr.called? : Instr → Option String
  | call name _ => some name
  | _ => none

mutual

/-- The instructions of an expression make its calls. -/
theorem Expr.filterMap_code : ∀ e : Expr, e.code.filterMap Instr.called? = e.calls
  | .int _ | .float _ | .str _ | .bool _ | .null | .var _ => rfl
  | .call _ args => by
    rw [Expr.code, List.filterMap_append, Expr.filterMap_codeAll args]
    rfl
  | .list items => by
    rw [Expr.code, List.filterMap_append, Expr.filterMap_codeAll items]
    exact List.append_nil _
  | .unary _ e => by
    rw [Expr.code, List.filterMap_append, e.filterMap_code]
    exact List.append_nil _
  | .binary _ left right => by
    rw [Expr.code, List.filterMap_append, List.filterMap_append, left.filterMap_code,
      right.filterMap_code]
    exact List.append_nil _
  | .index container i => by
    rw [Expr.code, List.filterMap_append, List.filterMap_append, container.filterMap_code,
      i.filterMap_code]
    exact List.append_nil _
  | .slice container start stop => by
    rw [Expr.code, List.filterMap_append, List.filterMap_append, List.filterMap_append,
      container.filterMap_code, start.filterMap_code, stop.filterMap_code]
    exact List.append_nil _

/-- The calls in the code of some expressions are those of the expressions. -/
theorem Expr.filterMap_codeAll :
    ∀ es : List Expr, (Expr.codeAll es).filterMap Instr.called? = Expr.callsAll es
  | [] => rfl
  | e :: es => by
    rw [Expr.codeAll, List.filterMap_append, e.filterMap_code, Expr.filterMap_codeAll es,
      Expr.callsAll]

end

/-- A last call does not wait. -/
theorem Expr.filterMap_lastCode (isTail : Bool) (e : Expr) :
    (e.lastCode isTail).filterMap Instr.called? = e.waitingCalls isTail := by
  cases isTail with
  | false =>
    have hcode : e.lastCode false = e.code := by cases e <;> rfl
    have hcalls : e.waitingCalls false = e.calls := by cases e <;> rfl
    rw [hcode, hcalls, e.filterMap_code]
  | true =>
    cases e with
    | call name args =>
      rw [Expr.lastCode, List.filterMap_append, Expr.filterMap_codeAll]
      exact List.append_nil _
    | _ => exact Expr.filterMap_code _

/-- Nothing is called to leave a loop. -/
theorem Spot.filterMap_leave (spot : Spot) (loop : Loop) (target : Nat) :
    (spot.leave loop target).filterMap Instr.called? = [] := by
  rw [Spot.leave, List.filterMap_append]
  simp [Instr.called?]

/-- The instructions of a statement without parts make its calls. -/
theorem Stmt.filterMap_flat? {spot : Spot} {s : Stmt} {is : List Instr}
    (h : s.flat? spot = some is) :
    is.filterMap Instr.called? = s.waitingCalls spot.isTail := by
  have hcode (e : Expr) {i : Instr} (hi : i.called? = none) :
      (e.code ++ [i]).filterMap Instr.called? = e.calls := by
    rw [List.filterMap_append, e.filterMap_code, List.filterMap_cons_none hi]
    exact List.append_nil _
  have hleave (loop : Option Loop) (target : Loop → Nat) :
      (loop.elim [] fun l ↦ spot.leave l (target l)).filterMap Instr.called? = [] := by
    cases loop with
    | none => rfl
    | some l => exact spot.filterMap_leave l (target l)
  -- A call inside an expression waits; only one that is the value of a `return` may not.
  cases s with
  | declare isConst type name init =>
    cases init with
    | none =>
      cases h
      cases type <;> rfl
    | some e =>
      cases h
      exact hcode e rfl
  | assign name e | eval e =>
    cases h
    exact hcode e rfl
  | assignAt name i e =>
    cases h
    rw [List.append_assoc, List.filterMap_append, i.filterMap_code, hcode e rfl, Stmt.waitingCalls]
  | breakLoop depth =>
    cases h
    exact hleave _ _
  | continueLoop =>
    cases h
    exact hleave _ _
  | giveBack value =>
    cases value with
    | none =>
      cases h
      rfl
    | some e =>
      cases h
      rw [List.filterMap_append, e.filterMap_lastCode]
      exact List.append_nil _
  | step op name | exit | unset name | uses target =>
    cases h
    rfl
  | ifElse | whileLoop | function | block => cases h

/-! ### Lines -/

/-- A function calls another one and waits for it, in a line of the listing, only if it may. -/
def Listing.WaitsOnly (May : Head → String → Prop) (L : Listing) : Prop :=
  ∀ e ∈ L.entries, ∀ head, e.point.owner = some head →
    ∀ name, e.instr.called? = some name → May head name

namespace Listing.WaitsOnly

variable {May : Head → String → Prop} {L L' : Listing} {spot : Spot} {is : List Instr}

/-- Listings one after the other wait only where they may. -/
theorem append (h : L.WaitsOnly May) (h' : L'.WaitsOnly May) : (L ++ L').WaitsOnly May :=
  List.forall_mem_append.2 ⟨h, h'⟩

theorem of_functions (fs : List Located) : Listing.WaitsOnly May ⟨[], fs⟩ :=
  List.forall_mem_nil _

/-- A line waits for no call but those of its instructions. -/
theorem line (h : ∀ head, spot.owner = some head →
    ∀ name ∈ is.filterMap Instr.called?, May head name) (offset : Nat) :
    (spot.line offset is).WaitsOnly May := by
  intro e he head howner name hname
  obtain ⟨howner', hmem⟩ := owner_of_mem_entriesOf he
  exact h head (howner'.symm.trans howner) name (List.mem_filterMap.2 ⟨_, hmem, hname⟩)

/-- Instructions in a row that call nothing. -/
theorem silent (h : is.filterMap Instr.called? = []) (offset : Nat) :
    (spot.line offset is).WaitsOnly May := by
  refine line (fun head _ ↦ ?_) offset
  rw [h]
  exact List.forall_mem_nil _

/-- A condition and the jump for the case that it is false. -/
theorem test {c : Expr} (h : ∀ head, spot.owner = some head → ∀ name ∈ c.calls, May head name)
    (offset target : Nat) :
    (spot.line offset (c.code ++ [.jumpIfFalse target, .enterScope])).WaitsOnly May := by
  refine line (fun head howner ↦ ?_) offset
  rw [List.filterMap_append, c.filterMap_code]
  exact List.forall_mem_append.2 ⟨h head howner, List.forall_mem_nil _⟩

/-- Nothing is called at the end of a function. -/
theorem closing (offset : Nat) (head : Head) (body : List Stmt) :
    (spot.line offset (head.closing body)).WaitsOnly May := by
  rw [Head.closing]
  split
  · exact silent rfl offset
  · split <;> exact silent rfl offset

end Listing.WaitsOnly

variable {May : Head → String → Prop}

mutual

/-- The lines of a statement wait only where the body that they belong to may. -/
theorem Stmt.Listed.waitsOnly {spot : Spot} {s : Stmt} {start stop : Nat} {L : Listing}
    (hown : ∀ head, spot.owner = some head → ∀ name ∈ s.waitingCalls head.isTail, May head name)
    (hinner : ∀ f ∈ s.functions, ∀ name ∈ Stmt.waitingCallsAll f.1.isTail f.2, May f.1 name) :
    s.Listed spot start stop L → L.WaitsOnly May
  | .flat h => by
    refine .line (fun head howner ↦ ?_) start
    have htail : spot.isTail = head.isTail := by
      rw [Spot.isTail, howner]
      rfl
    rw [Stmt.filterMap_flat? h, htail]
    exact hown head howner
  | .ifElse _ hbody _ hotherwise => by
    simp only [Stmt.waitingCalls, List.forall_mem_append] at hown
    rw [Stmt.functions, List.forall_mem_append] at hinner
    exact (((Listing.WaitsOnly.test (fun head ho ↦ (hown head ho).1.1) _ _).append
      (hbody.waitsOnly (fun head (ho : spot.inBlock.owner = some head) ↦ (hown head ho).1.2)
        hinner.1)).append (.silent rfl _)).append
      (hotherwise.waitsOnly (fun head ho ↦ (hown head ho).2) hinner.2)
  | .whileLoop _ hbody _ => by
    simp only [Stmt.waitingCalls, List.forall_mem_append] at hown
    exact ((Listing.WaitsOnly.test (fun head ho ↦ (hown head ho).1) _ _).append
      (hbody.waitsOnly (fun head (ho : (spot.inLoop start stop).inBlock.owner = some head) ↦
        (hown head ho).2) hinner)).append (.silent rfl _)
  | .function _ hbody _ => by
    rw [Stmt.functions, List.forall_mem_cons] at hinner
    refine (((Listing.WaitsOnly.silent rfl _).append (.of_functions _)).append
      (hbody.waitsOnly (fun head ho ↦ ?_) hinner.2)).append (.closing _ _ _)
    -- The owner of the body is the function itself.
    cases ho
    exact hinner.1
  | .block hbody =>
    ((Listing.WaitsOnly.silent rfl _).append (hbody.waitsOnly
      (fun head (ho : spot.inBlock.owner = some head) ↦ hown head ho) hinner)).append
      (.silent rfl _)

/-- **The lines of functions wait only for what their trees wait for.** -/
theorem Stmt.ListedAll.waitsOnly {spot : Spot} {ss : List Stmt} {start stop : Nat} {L : Listing}
    (hown : ∀ head, spot.owner = some head →
      ∀ name ∈ Stmt.waitingCallsAll head.isTail ss, May head name)
    (hinner : ∀ f ∈ Stmt.functionsAll ss,
      ∀ name ∈ Stmt.waitingCallsAll f.1.isTail f.2, May f.1 name) :
    Stmt.ListedAll spot ss start stop L → L.WaitsOnly May
  | .nil => .of_functions _
  | @Stmt.ListedAll.cons _ s _ _ _ _ _ _ h hs => by
    simp only [Stmt.waitingCallsAll, List.forall_mem_append] at hown
    rw [Stmt.functionsAll, List.forall_mem_append] at hinner
    have howner : (spot.after s).owner = spot.owner := by cases s <;> rfl
    rw [← howner] at hown
    exact (h.waitsOnly (fun head ho ↦ (hown head (howner.trans ho)).1) hinner.1).append
      (hs.waitsOnly (fun head ho ↦ (hown head ho).2) hinner.2)

end

end Scriptlet
