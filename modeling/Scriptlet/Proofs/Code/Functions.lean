import Scriptlet.Proofs.Code.Listing
import Scriptlet.Proofs.Tree.Meaning
import Scriptlet.Proofs.Tree.Valid
import Scriptlet.Proofs.Tree.WithoutTail

/-!
# The functions of a listing

A listing has the functions of its statements, in the order of their heads, and the code of the body
of each of them stands in it, wherever the function was declared.
-/

namespace Scriptlet

/-- The function without its offsets. -/
def Located.declared (g : Located) : Head × List Stmt :=
  (g.head, g.body)

/-- The code of a function stands in a listing: that of its body, and what is behind it. -/
def Located.StandsIn (g : Located) (L : Listing) : Prop :=
  ∃ q L', Stmt.ListedAll (.body g.head) g.body g.entry q L' ∧ L'.entries ⊆ L.entries ∧
    (((Spot.body g.head).afterAll g.body).line q (g.head.closing g.body)).entries ⊆ L.entries

/-- A function that stands in some lines stands in more. -/
theorem Located.StandsIn.mono {g : Located} {L L' : Listing} (h : g.StandsIn L)
    (hL : L.entries ⊆ L'.entries) : g.StandsIn L' := by
  obtain ⟨q, L₁, hlisted, hbody, hclosing⟩ := h
  exact ⟨q, L₁, hlisted, fun e he ↦ hL (hbody he), fun e he ↦ hL (hclosing he)⟩

mutual

/-- The functions of a statement stand in its listing. -/
theorem Stmt.Listed.standsIn {spot : Spot} {s : Stmt} {start stop : Nat} {L : Listing} :
    s.Listed spot start stop L → ∀ g ∈ L.functions, g.StandsIn L
  | .flat _ => by simp [Spot.line]
  | .ifElse _ hbody _ hotherwise => by
    simp only [Listing.functions_append, Spot.line, List.nil_append, List.append_nil,
      List.forall_mem_append]
    exact ⟨fun g hg ↦ (hbody.standsIn g hg).mono (by simp), fun g hg ↦
      (hotherwise.standsIn g hg).mono (List.subset_append_right _ _)⟩
  | .whileLoop _ hbody _ => by
    simp only [Listing.functions_append, Spot.line, List.nil_append, List.append_nil]
    exact fun g hg ↦ (hbody.standsIn g hg).mono (by simp)
  | .function _ hbody _ => by
    simp only [Listing.functions_append, Spot.line, List.nil_append, List.append_nil,
      List.forall_mem_append, List.forall_mem_singleton]
    exact ⟨⟨_, _, hbody, by simp, by simp [Spot.line]⟩, fun g hg ↦
      (hbody.standsIn g hg).mono (by simp)⟩
  | .block hbody => by
    simp only [Listing.functions_append, Spot.line, List.nil_append, List.append_nil]
    exact fun g hg ↦ (hbody.standsIn g hg).mono (by simp)

/-- The code of every function of a listing stands in it. -/
theorem Stmt.ListedAll.standsIn {spot : Spot} {ss : List Stmt} {start stop : Nat} {L : Listing} :
    Stmt.ListedAll spot ss start stop L → ∀ g ∈ L.functions, g.StandsIn L
  | .nil => by simp [Listing.empty]
  | .cons h hs => by
    rw [Listing.functions_append, List.forall_mem_append]
    exact ⟨fun g hg ↦ (h.standsIn g hg).mono (by simp), fun g hg ↦
      (hs.standsIn g hg).mono (by simp)⟩

end

/-- A statement without parts defines no function. -/
theorem Stmt.functions_of_flat? {spot : Spot} {s : Stmt} {is : List Instr}
    (h : s.flat? spot = some is) : s.functions = [] := by
  cases s with
  | ifElse | whileLoop | function | block => cases h
  | _ => rfl

mutual

/-- A listing has the functions of its statement, in the order of the text. -/
theorem Stmt.Listed.map_functions {spot : Spot} {s : Stmt} {start stop : Nat} {L : Listing} :
    s.Listed spot start stop L → L.functions.map Located.declared = s.functions
  | .flat h => (Stmt.functions_of_flat? h).symm
  | .ifElse _ hbody _ hotherwise => by
    simp only [Listing.functions_append, Spot.line, List.nil_append, List.append_nil,
      List.map_append, hbody.map_functions, hotherwise.map_functions, Stmt.functions]
  | .whileLoop _ hbody _ => by
    simp only [Listing.functions_append, Spot.line, List.nil_append, List.append_nil,
      hbody.map_functions, Stmt.functions]
  | .function _ hbody _ => by
    simp only [Listing.functions_append, Spot.line, List.nil_append, List.append_nil,
      hbody.map_functions, Stmt.functions, Located.declared, List.map_cons, List.cons_append]
  | .block hbody => by
    simp only [Listing.functions_append, Spot.line, List.nil_append, List.append_nil,
      hbody.map_functions, Stmt.functions]

/-- A listing has the functions of its statements. -/
theorem Stmt.ListedAll.map_functions {spot : Spot} {ss : List Stmt} {start stop : Nat}
    {L : Listing} : Stmt.ListedAll spot ss start stop L →
      L.functions.map Located.declared = Stmt.functionsAll ss
  | .nil => rfl
  | .cons h hs => by
    rw [Listing.functions_append, List.map_append, h.map_functions, hs.map_functions,
      Stmt.functionsAll]

end

/-! ### What holds of all functions -/

mutual

/-- The body of a function in a valid statement is valid by itself, without a loop around it. -/
theorem Stmt.validAll_of_mem_functions {loops : Nat} {place : Place} {f : Head × List Stmt} :
    ∀ s : Stmt, s.valid loops place = true → f ∈ s.functions →
      Stmt.validAll 0 (.inside (f.1.returns == .void)) f.2 = true
  | .ifElse _ body otherwise => by
    rw [Stmt.valid, Bool.and_eq_true, Bool.and_eq_true, Stmt.functions, List.mem_append]
    rintro ⟨⟨hbody, hotherwise⟩, -⟩ (hf | hf)
    · exact Stmt.validAll_of_mem_functionsAll body hbody hf
    · exact Stmt.validAll_of_mem_functionsAll otherwise hotherwise hf
  | .whileLoop _ body => Stmt.validAll_of_mem_functionsAll body
  | .block body => Stmt.validAll_of_mem_functionsAll body
  | .function head body => by
    rw [Stmt.valid, Bool.and_eq_true, Stmt.functions, List.mem_cons]
    rintro ⟨hbody, -⟩ (rfl | hf)
    · exact hbody
    · exact Stmt.validAll_of_mem_functionsAll body hbody hf
  | .declare .. | .assign .. | .assignAt .. | .step .. | .breakLoop .. | .continueLoop
  | .giveBack .. | .exit | .unset .. | .uses .. | .eval .. => fun _ hf ↦ absurd hf List.not_mem_nil

/-- The bodies of the functions of a valid program are valid. -/
theorem Stmt.validAll_of_mem_functionsAll {loops : Nat} {place : Place} {f : Head × List Stmt} :
    ∀ ss : List Stmt, Stmt.validAll loops place ss = true → f ∈ Stmt.functionsAll ss →
      Stmt.validAll 0 (.inside (f.1.returns == .void)) f.2 = true
  | [] => fun _ hf ↦ absurd hf List.not_mem_nil
  | s :: ss => by
    rw [Stmt.validAll, Bool.and_eq_true, Stmt.functionsAll, List.mem_append]
    rintro ⟨hs, hss⟩ (hf | hf)
    · exact Stmt.validAll_of_mem_functions s hs hf
    · exact Stmt.validAll_of_mem_functionsAll ss hss hf

end

mutual

/-- Without `tail`, no function has last calls that take its place. -/
theorem Stmt.isTail_of_mem_functions_withoutTail {f : Head × List Stmt} :
    ∀ s : Stmt, f ∈ s.withoutTail.functions → f.1.isTail = false
  | .ifElse _ body otherwise => by
    rw [Stmt.withoutTail, Stmt.functions, List.mem_append]
    rintro (hf | hf)
    · exact Stmt.isTail_of_mem_functionsAll_withoutTail body hf
    · exact Stmt.isTail_of_mem_functionsAll_withoutTail otherwise hf
  | .whileLoop _ body => Stmt.isTail_of_mem_functionsAll_withoutTail body
  | .block body => Stmt.isTail_of_mem_functionsAll_withoutTail body
  | .function head body => by
    rw [Stmt.withoutTail, Stmt.functions, List.mem_cons]
    rintro (rfl | hf)
    · rfl
    · exact Stmt.isTail_of_mem_functionsAll_withoutTail body hf
  | .declare .. | .assign .. | .assignAt .. | .step .. | .breakLoop .. | .continueLoop
  | .giveBack .. | .exit | .unset .. | .uses .. | .eval .. => fun hf ↦ absurd hf List.not_mem_nil

/-- Without `tail` no function has it. -/
theorem Stmt.isTail_of_mem_functionsAll_withoutTail {f : Head × List Stmt} :
    ∀ ss : List Stmt, f ∈ Stmt.functionsAll (Stmt.withoutTailAll ss) → f.1.isTail = false
  | [] => fun hf ↦ absurd hf List.not_mem_nil
  | s :: ss => by
    rw [Stmt.withoutTailAll, Stmt.functionsAll, List.mem_append]
    rintro (hf | hf)
    · exact Stmt.isTail_of_mem_functions_withoutTail s hf
    · exact Stmt.isTail_of_mem_functionsAll_withoutTail ss hf

end

end Scriptlet
