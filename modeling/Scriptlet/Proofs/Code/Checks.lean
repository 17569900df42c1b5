import Mathlib.Data.List.Basic
import Scriptlet.Proofs.Code.Listing
import Scriptlet.Proofs.Tree.Valid

/-!
# Listings check

What a listing notes beside its lines is right: each instruction finds the operands and the blocks
that it needs, and wherever it can go on, the line there is noted with what is known behind it. This
is a fact about listings alone. It says nothing about values, and nothing about functions either but
that the line at the entry of each is noted with its parameters and no operands.

The offset behind the body of a function whose last statement is a `return` belongs to the code
around the function. So a list of statements is checked without a line behind it, as long as it ends
that way.
-/

namespace Scriptlet

namespace Instr

/-- The machine may go on with the next instruction. -/
def fallsThrough : Instr → Bool
  | jump _ | ret | retVoid | halt => false
  | _ => true

/-- The offset that an instruction may go to instead. -/
def target? : Instr → Option Nat
  | jump target | jumpIfFalse target => some target
  | _ => none

/-- The machine may leave the present call. -/
def leaves : Instr → Bool
  | ret | retVoid | tailCall _ _ => true
  | _ => false

end Instr

namespace Point

/-- What an instruction needs is there: its operands, a block to leave, and no operands besides its
own where it may leave the present call. -/
structure Admits (p : Point) (i : Instr) : Prop where
  pops_le : i.pops ≤ p.height
  exit : i = .exitScope → 2 ≤ p.blocks.length
  height_eq : i.leaves = true → p.height = i.pops

/-- Instructions in a row that do not jump find what they need, and lead from one point to
another. -/
inductive Checks : Point → List Instr → Point → Prop where
  | nil {p : Point} : Checks p [] p
  | cons {p q : Point} {i : Instr} {is : List Instr} (h : p.Admits i) (ht : i.target? = none)
      (rest : Checks (p.after i) is q) : Checks p (i :: is) q

namespace Checks

variable {p q r : Point} {i : Instr} {is is' : List Instr}

/-- The point behind checked instructions is the one that they lead to. -/
theorem afterAll_eq (h : p.Checks is q) : p.afterAll is = q := by
  induction h with
  | nil => rfl
  | cons _ _ _ ih => exact ih

/-- Checks go on where the ones before them end. -/
theorem append (h : p.Checks is q) (h' : q.Checks is' r) : p.Checks (is ++ is') r := by
  induction h with
  | nil => exact h'
  | cons h ht _ ih => exact .cons h ht (ih h')

theorem snoc (h : p.Checks is q) (hi : q.Admits i) (ht : i.target? = none) :
    p.Checks (is ++ [i]) (q.after i) :=
  h.append (.cons hi ht .nil)

end Checks

end Point

/-! ### Lines -/

/-- A line can be executed, and the lines that may follow it are noted with what is known behind
it. -/
structure Entry.Sound (Marks : Nat → Point → Prop) (e : Entry) : Prop where
  admits : e.point.Admits e.instr
  next : e.instr.fallsThrough = true → Marks e.next (e.point.after e.instr)
  target : ∀ t, e.instr.target? = some t → Marks t (e.point.after e.instr)

variable {Marks : Nat → Point → Prop}

/-- Instructions in a row without jumps. -/
theorem Point.Checks.sound {offset : Nat} {p q : Point} {is : List Instr} (h : p.Checks is q)
    (hmarks : ∀ e ∈ entriesOf offset p is, Marks e.offset e.point)
    (hexit : Marks (offset + Instr.size is) q) : ∀ e ∈ entriesOf offset p is, e.Sound Marks := by
  induction h generalizing offset with
  | nil => simp [entriesOf]
  | @cons p q i is h ht rest ih =>
    rw [entriesOf, List.forall_mem_cons] at hmarks ⊢
    rw [Instr.size_cons, ← Nat.add_assoc] at hexit
    refine ⟨⟨h, fun _ ↦ ?_, fun t ht' ↦ ?_⟩, ih hmarks.2 hexit⟩
    · cases rest with
      | nil => exact hexit
      | cons => exact hmarks.2 _ (List.mem_cons_self ..)
    · rw [ht] at ht'
      cases ht'

/-- The start of checked instructions is marked, also where there are none. -/
theorem Point.Checks.marks_start {offset : Nat} {p q : Point} {is : List Instr}
    (h : p.Checks is q) (hmarks : ∀ e ∈ entriesOf offset p is, Marks e.offset e.point)
    (hexit : Marks (offset + Instr.size is) q) : Marks offset p := by
  cases h with
  | nil => exact hexit
  | cons => exact hmarks _ (List.mem_cons_self ..)

/-- The start of instructions is that of the first one. -/
theorem marks_of_ne_nil {offset : Nat} {p : Point} {is : List Instr}
    (hmarks : ∀ e ∈ entriesOf offset p is, Marks e.offset e.point) (his : is ≠ []) :
    Marks offset p := by
  obtain ⟨i, is, rfl⟩ := List.exists_cons_of_ne_nil his
  exact hmarks _ (List.mem_cons_self ..)

/-- Instructions in a row, the last of which may jump. -/
theorem Point.Checks.sound_snoc {offset : Nat} {p q : Point} {is : List Instr} {i : Instr}
    (h : p.Checks is q) (hmarks : ∀ e ∈ entriesOf offset p (is ++ [i]), Marks e.offset e.point)
    (hlast : Entry.Sound Marks ⟨offset + Instr.size is, i, q⟩) :
    ∀ e ∈ entriesOf offset p (is ++ [i]), e.Sound Marks := by
  rw [entriesOf_append, h.afterAll_eq, List.forall_mem_append] at hmarks ⊢
  refine ⟨h.sound hmarks.1 (hmarks.2 _ (List.mem_singleton.2 rfl)), fun e he ↦ ?_⟩
  obtain rfl := List.mem_singleton.1 he
  exact hlast

/-! ### Expressions -/

/-- An instruction has nothing to do with blocks, declarations, jumps and calls in progress. -/
structure Instr.IsPlain (i : Instr) : Prop where
  leaves : i.leaves = false
  target? : i.target? = none
  blocksAfter : ∀ blocks, Point.blocksAfter blocks i = blocks

/-- Some instructions need nothing and leave so many operands. -/
def Yields (is : List Instr) (count : Nat) : Prop :=
  ∀ p : Point, p.Checks is (p.push count)

namespace Yields

variable {is is' : List Instr} {m n : Nat}

theorem nil : Yields [] 0 :=
  fun _ ↦ .nil

/-- What yields values one after the other yields them all. -/
theorem append (h : Yields is m) (h' : Yields is' n) : Yields (is ++ is') (m + n) := by
  intro p
  have hpush : (p.push m).push n = p.push (m + n) := by
    rw [Point.push, Point.push, Point.push, Nat.add_assoc]
  exact hpush ▸ (h p).append (h' _)

/-- With one more instruction, which takes all the operands. -/
theorem snoc {i : Instr} (h : Yields is i.pops) (hi : i.IsPlain) :
    Yields (is ++ [i]) i.pushes := by
  intro p
  have hadmits : (p.push i.pops).Admits i := by
    refine ⟨Nat.le_add_left _ _, fun hexit ↦ ?_, fun hleaves ↦ ?_⟩
    · have := hi.blocksAfter [[]]
      rw [hexit] at this
      cases this
    · rw [hi.leaves] at hleaves
      cases hleaves
  have hafter : (p.push i.pops).after i = p.push i.pushes := by
    rw [Point.after, Point.push, Point.push]
    simp only [hi.blocksAfter, Nat.add_sub_cancel]
  exact hafter ▸ (h p).snoc hadmits hi.target?

/-- With one more instruction, which takes all the operands and leaves none. -/
theorem checks_drop {i : Instr} (h : Yields is i.pops) (hpushes : i.pushes = 0)
    (hleaves : i.leaves = false) (hexit : i ≠ .exitScope) (ht : i.target? = none) (p : Point) :
    p.Checks (is ++ [i]) { p with blocks := Point.blocksAfter p.blocks i } := by
  have hadmits : (p.push i.pops).Admits i :=
    ⟨Nat.le_add_left _ _, fun hc ↦ absurd hc hexit, fun hc ↦ by rw [hleaves] at hc; cases hc⟩
  have hafter : (p.push i.pops).after i = { p with blocks := Point.blocksAfter p.blocks i } := by
    rw [Point.after, Point.push, hpushes]
    simp only [Nat.add_sub_cancel, Nat.add_zero]
  exact hafter ▸ (h p).snoc hadmits ht

/-- An instruction without operands yields what it pushes. -/
theorem single {i : Instr} (hpops : i.pops = 0) (hi : i.IsPlain) : Yields [i] i.pushes := by
  have hnil : Yields [] i.pops := hpops ▸ nil
  exact hnil.snoc hi

end Yields

mutual

/-- The code of an expression **yields one value** and takes nothing from below. -/
theorem Expr.yields_code : ∀ e : Expr, Yields e.code 1
  | .int _ | .float _ | .str _ | .bool _ | .null | .var _ => .single rfl ⟨rfl, rfl, fun _ ↦ rfl⟩
  | .call _ args => (yields_codeAll args).snoc ⟨rfl, rfl, fun _ ↦ rfl⟩
  | .list items => (yields_codeAll items).snoc ⟨rfl, rfl, fun _ ↦ rfl⟩
  | .unary _ e => e.yields_code.snoc ⟨rfl, rfl, fun _ ↦ rfl⟩
  | .binary _ left right =>
    (left.yields_code.append right.yields_code).snoc ⟨rfl, rfl, fun _ ↦ rfl⟩
  | .index container i =>
    (container.yields_code.append i.yields_code).snoc ⟨rfl, rfl, fun _ ↦ rfl⟩
  | .slice container start stop =>
    ((container.yields_code.append start.yields_code).append stop.yields_code).snoc
      ⟨rfl, rfl, fun _ ↦ rfl⟩

/-- The code of some expressions yields a value for each of them. -/
theorem Expr.yields_codeAll : ∀ es : List Expr, Yields (Expr.codeAll es) es.length
  | [] => .nil
  | e :: es => by
    rw [Expr.codeAll, List.length_cons, Nat.add_comm]
    exact e.yields_code.append (yields_codeAll es)

end

/-- The code of a value that is given back leaves it as the only operand. -/
theorem Expr.checks_lastCode (isTail : Bool) (e : Expr) {p : Point} (hp : p.height = 0) :
    p.Checks (e.lastCode isTail) (p.push 1) := by
  cases isTail with
  | false => exact e.yields_code p
  | true =>
    cases e with
    | call name args =>
      have hheight : (p.push args.length).height = args.length := by
        rw [Point.push, hp, Nat.zero_add]
      have hafter : (p.push args.length).after (.tailCall name args.length) = p.push 1 := by
        simp [Point.after, Point.push, Point.blocksAfter, Instr.pops, Instr.pushes]
      exact hafter ▸ (Expr.yields_codeAll args p).snoc
        ⟨Nat.le_of_eq hheight.symm, fun h ↦ (by cases h), fun _ ↦ hheight⟩ rfl
    | _ => exact Expr.yields_code _ p

/-! ### Statements -/

/-- The loops around a statement are noted in the right way: with blocks outside all blocks that
were opened since. -/
structure Spot.Fits (Marks : Nat → Point → Prop) (spot : Spot) : Prop where
  blocks_ne_nil : spot.blocks ≠ []
  suffix : ∀ loop ∈ spot.loops, loop.blocks ≠ [] ∧ loop.blocks <:+ spot.blocks.tail
  again : ∀ loop ∈ spot.loops, Marks loop.again ⟨spot.owner, loop.blocks, 0⟩
  done : ∀ loop ∈ spot.loops, Marks loop.done ⟨spot.owner, loop.blocks, 0⟩

namespace Spot.Fits

variable {spot : Spot}

theorem top : Spot.top.Fits Marks :=
  ⟨by simp [Spot.top], by simp [Spot.top], by simp [Spot.top], by simp [Spot.top]⟩

theorem body (head : Head) : (Spot.body head).Fits Marks :=
  ⟨by simp [Spot.body], by simp [Spot.body], by simp [Spot.body], by simp [Spot.body]⟩

/-- A block leaves the ends of the loops around it as they are. -/
theorem inBlock (h : spot.Fits Marks) : spot.inBlock.Fits Marks :=
  ⟨by simp [Spot.inBlock],
    fun loop hl ↦ ⟨(h.suffix loop hl).1, (h.suffix loop hl).2.trans (List.tail_suffix _)⟩,
    h.again, h.done⟩

/-- A loop whose two ends are marked may be left from inside. -/
theorem inLoop (h : spot.Fits Marks) {again done : Nat} (hagain : Marks again spot.point)
    (hdone : Marks done spot.point) : (spot.inLoop again done).inBlock.Fits Marks := by
  refine ⟨by simp [Spot.inBlock], ?_, ?_, ?_⟩ <;> rw [Spot.inLoop, Spot.inBlock]
  · refine List.forall_mem_cons.2 ⟨⟨h.blocks_ne_nil, List.suffix_refl _⟩, fun loop hl ↦ ?_⟩
    exact ⟨(h.suffix loop hl).1, (h.suffix loop hl).2.trans (List.tail_suffix _)⟩
  · exact List.forall_mem_cons.2 ⟨hagain, h.again⟩
  · exact List.forall_mem_cons.2 ⟨hdone, h.done⟩

/-- A statement leaves the loops around it as they are. -/
theorem after (h : spot.Fits Marks) (s : Stmt) : (spot.after s).Fits Marks := by
  cases s with
  | declare isConst type name init =>
    refine ⟨by simpa [Spot.after] using h.blocks_ne_nil, fun loop hl ↦ ?_, h.again, h.done⟩
    rw [Spot.after, List.tail_modifyHead]
    exact h.suffix loop hl
  | _ => exact h

end Spot.Fits

/-- Leaving blocks, as long as one is left. -/
theorem Point.checks_exits {p : Point} {count : Nat} (h : count + 1 ≤ p.blocks.length) :
    p.Checks (List.replicate count .exitScope) { p with blocks := p.blocks.drop count } := by
  induction count generalizing p with
  | zero => exact .nil
  | succ count ih =>
    have hafter : p.after .exitScope = { p with blocks := p.blocks.tail } := rfl
    have hlength : count + 1 ≤ (p.after .exitScope).blocks.length := by
      rw [hafter, List.length_tail]
      omega
    refine .cons ⟨Nat.zero_le _, fun _ ↦ by omega, fun h ↦ by cases h⟩ rfl ?_
    rw [← List.drop_tail]
    exact ih hlength

theorem Spot.mem_loops_of_loop? {spot : Spot} {depth : Nat} {loop : Loop}
    (h : spot.loop? depth = some loop) : loop ∈ spot.loops := by
  cases depth with
  | zero => cases h
  | succ depth => exact List.mem_of_getElem? h

/-- Leaving a loop closes the blocks inside it one by one and then jumps to a place marked with
those outside. -/
theorem Spot.Fits.sound_leave {spot : Spot} {loop : Loop} {offset target : Nat}
    (h : spot.Fits Marks) (hloop : loop ∈ spot.loops)
    (htarget : Marks target ⟨spot.owner, loop.blocks, 0⟩)
    (hmarks : ∀ e ∈ entriesOf offset spot.point (spot.leave loop target),
      Marks e.offset e.point) :
    ∀ e ∈ entriesOf offset spot.point (spot.leave loop target), e.Sound Marks := by
  obtain ⟨hne, hsuffix⟩ := h.suffix loop hloop
  have hlength : spot.blocks.length - loop.blocks.length + 1 ≤ spot.blocks.length := by
    have := List.length_pos_iff.2 hne
    have := List.length_pos_iff.2 h.blocks_ne_nil
    omega
  have hdrop : spot.blocks.drop (spot.blocks.length - loop.blocks.length) = loop.blocks :=
    (List.suffix_iff_eq_drop.1 (hsuffix.trans (List.tail_suffix _))).symm
  refine (Point.checks_exits hlength).sound_snoc hmarks ⟨?_, fun hc ↦ (by cases hc), fun t ht ↦ ?_⟩
  · exact ⟨Nat.zero_le _, fun hc ↦ (by cases hc), fun hc ↦ (by cases hc)⟩
  · cases ht
    rw [show spot.point.blocks = spot.blocks from rfl, hdrop]
    exact htarget

/-- A statement without parts is sound if the place behind it is marked; a `return` asks for no such
place. -/
theorem Stmt.sound_flat {spot : Spot} {s : Stmt} {is : List Instr} {start : Nat}
    (hfits : spot.Fits Marks) (h : s.flat? spot = some is)
    (hmarks : ∀ e ∈ entriesOf start spot.point is, Marks e.offset e.point)
    (hexit : (∀ v, s ≠ .giveBack v) → Marks (start + Instr.size is) (spot.after s).point) :
    Marks start spot.point ∧ ∀ e ∈ entriesOf start spot.point is, e.Sound Marks := by
  have hplain (hs : ∀ v, s ≠ .giveBack v) (hchecks : spot.point.Checks is (spot.after s).point) :
      Marks start spot.point ∧ ∀ e ∈ entriesOf start spot.point is, e.Sound Marks :=
    ⟨hchecks.marks_start hmarks (hexit hs), hchecks.sound hmarks (hexit hs)⟩
  -- All but a jump out of a loop and a `return` compute values from nothing and then use them up.
  cases s with
  | declare isConst type name init =>
    cases init with
    | none =>
      cases h
      have hdefault : Yields [type.pushDefault] 1 := by
        cases type <;> exact .single rfl ⟨rfl, rfl, fun _ ↦ rfl⟩
      exact hplain (by simp) (hdefault.checks_drop (i := .decl name type) rfl rfl (by simp) rfl _)
    | some e =>
      cases h
      exact hplain (by simp)
        (e.yields_code.checks_drop (i := .decl name type) rfl rfl (by simp) rfl _)
  | assign name value =>
    cases h
    exact hplain (by simp)
      (value.yields_code.checks_drop (i := .set name) rfl rfl (by simp) rfl _)
  | assignAt name i value =>
    cases h
    have hoperands := i.yields_code.append value.yields_code
    exact hplain (by simp)
      (hoperands.checks_drop (i := .setIndex name) rfl rfl (by simp) rfl _)
  | step op name =>
    cases h
    have hget : Yields [.get name] 1 := .single rfl ⟨rfl, rfl, fun _ ↦ rfl⟩
    have hone : Yields [.pushInt 1] 1 := .single rfl ⟨rfl, rfl, fun _ ↦ rfl⟩
    have hresult := (hget.append hone).snoc (i := .binary op) ⟨rfl, rfl, fun _ ↦ rfl⟩
    exact hplain (by simp) (hresult.checks_drop (i := .set name) rfl rfl (by simp) rfl _)
  | breakLoop depth =>
    cases h
    rcases hloop : spot.loop? depth with - | loop
    · rw [hloop] at hplain
      exact hplain (by simp) .nil
    · rw [hloop] at hmarks
      rw [Option.elim_some] at hmarks ⊢
      have hmem := Spot.mem_loops_of_loop? hloop
      exact ⟨marks_of_ne_nil hmarks (by simp [Spot.leave]),
        hfits.sound_leave hmem (hfits.done loop hmem) hmarks⟩
  | continueLoop =>
    cases h
    rcases hloop : spot.loop? 1 with - | loop
    · rw [hloop] at hplain
      exact hplain (by simp) .nil
    · rw [hloop] at hmarks
      rw [Option.elim_some] at hmarks ⊢
      have hmem := Spot.mem_loops_of_loop? hloop
      exact ⟨marks_of_ne_nil hmarks (by simp [Spot.leave]),
        hfits.sound_leave hmem (hfits.again loop hmem) hmarks⟩
  -- Nothing is run behind a `return`, so the place behind it need not be marked.
  | giveBack value =>
    cases value with
    | none =>
      cases h
      have hlast : Entry.Sound Marks ⟨start, .retVoid, spot.point⟩ :=
        ⟨⟨Nat.zero_le _, by simp, fun _ ↦ rfl⟩, by simp [Instr.fallsThrough],
          by simp [Instr.target?]⟩
      exact ⟨marks_of_ne_nil hmarks (by simp), Point.Checks.nil.sound_snoc hmarks hlast⟩
    | some e =>
      cases h
      refine ⟨marks_of_ne_nil hmarks (by simp),
        (e.checks_lastCode spot.isTail rfl).sound_snoc hmarks ?_⟩
      exact ⟨⟨Nat.le_refl 1, by simp, fun _ ↦ rfl⟩, by simp [Instr.fallsThrough],
        by simp [Instr.target?]⟩
  | exit | unset name =>
    cases h
    exact hplain (by simp) (.cons ⟨Nat.zero_le _, by simp, by simp [Instr.leaves]⟩ rfl .nil)
  | uses target =>
    cases h
    exact hplain (by simp) .nil
  | eval e =>
    cases h
    exact hplain (by simp) (e.yields_code.checks_drop (i := .pop) rfl rfl (by simp) rfl _)
  | ifElse c body otherwise => cases h
  | whileLoop c body => cases h
  | function head body => cases h
  | block body => cases h

/-- Alternatives declare nothing outside their blocks. -/
theorem Spot.afterAll_of_isAlternative {spot : Spot} {ss : List Stmt}
    (h : ss.all Stmt.isAlternative = true) : spot.afterAll ss = spot := by
  induction ss with
  | nil => rfl
  | cons s ss ih =>
    rw [List.all_cons, Bool.and_eq_true] at h
    have hs : spot.after s = spot := by
      cases s with
      | declare => cases h.1
      | _ => rfl
    rw [Spot.afterAll, List.foldl_cons, hs]
    exact ih h.2

/-- Statements may note names in the innermost block only. -/
theorem Spot.tail_blocks_afterAll (spot : Spot) (ss : List Stmt) :
    (spot.afterAll ss).blocks.tail = spot.blocks.tail ∧
      (spot.afterAll ss).blocks.length = spot.blocks.length ∧
      (spot.afterAll ss).owner = spot.owner := by
  induction ss generalizing spot with
  | nil => exact ⟨rfl, rfl, rfl⟩
  | cons s ss ih =>
    have hs : (spot.after s).blocks.tail = spot.blocks.tail ∧
        (spot.after s).blocks.length = spot.blocks.length ∧ (spot.after s).owner = spot.owner := by
      cases s with
      | declare isConst type name init =>
        exact ⟨List.tail_modifyHead .., List.length_modifyHead .., rfl⟩
      | _ => exact ⟨rfl, rfl, rfl⟩
    obtain ⟨h₁, h₂, h₃⟩ := ih (spot.after s)
    exact ⟨h₁.trans hs.1, h₂.trans hs.2.1, h₃.trans hs.2.2⟩

/-- All lines of a listing can be executed, and its functions start where they are noted to. -/
structure Listing.Sound (Marks : Nat → Point → Prop) (L : Listing) : Prop where
  entries : ∀ e ∈ L.entries, e.Sound Marks
  functions : ∀ f ∈ L.functions, Marks f.entry (Spot.body f.head).point

/-- Sound listings one after the other are sound together. -/
theorem Listing.Sound.append {L L' : Listing} (h : L.Sound Marks) (h' : L'.Sound Marks) :
    (L ++ L').Sound Marks :=
  ⟨List.forall_mem_append.2 ⟨h.entries, h'.entries⟩,
    List.forall_mem_append.2 ⟨h.functions, h'.functions⟩⟩

/-- A listing is sound if each of its lines is. -/
theorem Spot.sound_line {spot : Spot} {offset : Nat} {is : List Instr}
    (h : ∀ e ∈ entriesOf offset spot.point is, e.Sound Marks) : (spot.line offset is).Sound Marks :=
  ⟨h, by simp [Spot.line]⟩

/-- A condition and the jump for the case that it is false. -/
theorem Spot.sound_test {spot : Spot} {c : Expr} {start next : Nat}
    (hmarks : ∀ e ∈ (spot.line start (c.code ++ [.jumpIfFalse next, .enterScope])).entries,
      Marks e.offset e.point)
    (hbody : Marks (start + Instr.size (c.code ++ [.jumpIfFalse next, .enterScope]))
      spot.inBlock.point)
    (hnext : Marks next spot.point) :
    (spot.line start (c.code ++ [.jumpIfFalse next, .enterScope])).Sound Marks := by
  apply Spot.sound_line
  have hcode := c.yields_code spot.point
  have hafter : (spot.point.push 1).after (.jumpIfFalse next) = spot.point := rfl
  rw [Spot.line, entriesOf_append, hcode.afterAll_eq, List.forall_mem_append] at hmarks
  rw [entriesOf_append, hcode.afterAll_eq, List.forall_mem_append]
  obtain ⟨hmarks₁, hmarks₂⟩ := hmarks
  refine ⟨hcode.sound hmarks₁ (hmarks₂ _ (List.mem_cons_self ..)), ?_⟩
  rw [entriesOf, entriesOf, entriesOf, hafter] at hmarks₂ ⊢
  rw [List.forall_mem_cons, List.forall_mem_singleton] at hmarks₂ ⊢
  refine ⟨⟨⟨Nat.le_refl 1, by simp, by simp [Instr.leaves]⟩, fun _ ↦ hmarks₂.2, fun t ht ↦ ?_⟩,
    ⟨Nat.zero_le _, by simp, by simp [Instr.leaves]⟩, fun _ ↦ ?_, by simp [Instr.target?]⟩
  · cases ht
    exact hnext
  · have henter : spot.point.after .enterScope = spot.inBlock.point := rfl
    rw [Instr.size_append, Instr.size_cons, Instr.size_cons] at hbody
    simpa [Entry.next, Nat.add_assoc, henter] using hbody

/-- The end of a block and the jump behind it. -/
theorem Spot.sound_skip {spot inner : Spot} {start target : Nat}
    (hmarks : ∀ e ∈ (inner.line start [.exitScope, .jump target]).entries, Marks e.offset e.point)
    (hblocks : inner.blocks.tail = spot.blocks) (hlength : 2 ≤ inner.blocks.length)
    (howner : inner.owner = spot.owner) (htarget : Marks target spot.point) :
    (inner.line start [.exitScope, .jump target]).Sound Marks := by
  apply Spot.sound_line
  have hafter : inner.point.after .exitScope = spot.point := by
    rw [Spot.point, Spot.point, ← hblocks, ← howner]
    rfl
  rw [Spot.line, entriesOf, entriesOf, entriesOf, hafter] at hmarks
  rw [entriesOf, entriesOf, entriesOf, hafter]
  rw [List.forall_mem_cons, List.forall_mem_singleton] at hmarks ⊢
  refine ⟨⟨⟨Nat.zero_le _, fun _ ↦ hlength, by simp [Instr.leaves]⟩, fun _ ↦ ?_,
    by simp [Instr.target?]⟩, ⟨Nat.zero_le _, by simp, by simp [Instr.leaves]⟩,
    by simp [Instr.fallsThrough], fun t ht ↦ ?_⟩
  · rw [hafter]
    exact hmarks.2
  · cases ht
    exact htarget

/-- Behind the statements of a block. -/
theorem Spot.afterAll_inBlock (spot : Spot) (ss : List Stmt) :
    (spot.inBlock.afterAll ss).blocks.tail = spot.blocks ∧
      (spot.inBlock.afterAll ss).blocks.length = spot.blocks.length + 1 ∧
      (spot.inBlock.afterAll ss).owner = spot.owner :=
  spot.inBlock.tail_blocks_afterAll ss

/-- What is behind the body of a function that does not end with a `return`. -/
theorem Spot.sound_closing {spot : Spot} {head : Head} {body : List Stmt} {q : Nat}
    (hmarks : ∀ e ∈ (spot.line q (head.closing body)).entries, Marks e.offset e.point) :
    (spot.line q (head.closing body)).Sound Marks := by
  apply Spot.sound_line
  rw [Spot.line] at hmarks
  rw [Head.closing] at hmarks ⊢
  split at hmarks
  · rename_i h
    rw [if_pos h]
    simp [entriesOf]
  · rename_i h
    rw [if_neg h]
    cases hreturns : head.returns with
    | void =>
      rw [hreturns] at hmarks
      exact Point.Checks.nil.sound_snoc hmarks ⟨⟨Nat.zero_le _, by simp, fun _ ↦ rfl⟩,
        by simp [Instr.fallsThrough], by simp [Instr.target?]⟩
    | any | typed type =>
      rw [hreturns] at hmarks
      have hnull : Yields [.pushNull] 1 := .single rfl ⟨rfl, rfl, fun _ ↦ rfl⟩
      exact (hnull spot.point).sound_snoc hmarks ⟨⟨Nat.le_refl 1, by simp, fun _ ↦ rfl⟩,
        by simp [Instr.fallsThrough], by simp [Instr.target?]⟩

/-- Where a body does not end with a `return`, one is added. -/
theorem Head.closing_ne_nil {head : Head} {body : List Stmt} (h : bodyReturns body = false) :
    head.closing body ≠ [] := by
  rw [Head.closing, h]
  cases head.returns <;> simp

mutual

/-- **The code of a statement is sound**: each line leads to places marked with the point that it
leaves. -/
theorem Stmt.Listed.sound {spot : Spot} {s : Stmt} {start stop : Nat} {L : Listing} {loops : Nat}
    {place : Place} (hvalid : s.valid loops place = true) (hfits : spot.Fits Marks)
    (hmarks : ∀ e ∈ L.entries, Marks e.offset e.point)
    (hexit : (∀ v, s ≠ .giveBack v) → Marks stop (spot.after s).point) :
    s.Listed spot start stop L → Marks start spot.point ∧ L.Sound Marks
  | .flat h => by
    obtain ⟨hstart, hsound⟩ := Stmt.sound_flat hfits h hmarks hexit
    exact ⟨hstart, Spot.sound_line hsound⟩
  | @Stmt.Listed.ifElse _ c body otherwise _ p q next _ L₁ L₂ hp hbody hnext hotherwise => by
    simp only [Listing.entries_append, List.forall_mem_append] at hmarks
    obtain ⟨⟨⟨hmarks₁, hmarks₂⟩, hmarks₃⟩, hmarks₄⟩ := hmarks
    simp only [Stmt.valid, Bool.and_eq_true] at hvalid
    obtain ⟨⟨hvalid₁, hvalid₂⟩, halternative⟩ := hvalid
    have hstop : Marks stop spot.point := hexit (by simp)
    obtain ⟨htail, hlength, howner⟩ := spot.afterAll_inBlock body
    have hpos := List.length_pos_iff.2 hfits.blocks_ne_nil
    -- The parts are gone through from the last to the first: each is entered where the one after it
    -- starts, or at the end.
    obtain ⟨hnext', hsound₄⟩ := hotherwise.sound false hvalid₂ hfits hmarks₄ fun _ ↦ by
      rwa [Spot.afterAll_of_isAlternative halternative]
    obtain ⟨hp', hsound₂⟩ := hbody.sound false hvalid₁ hfits.inBlock hmarks₂ fun _ ↦
      marks_of_ne_nil hmarks₃ (by simp)
    have hsound₁ := Spot.sound_test hmarks₁ (hp ▸ hp' rfl) (hnext' rfl)
    have hsound₃ := Spot.sound_skip hmarks₃ htail (by omega) howner hstop
    exact ⟨marks_of_ne_nil hmarks₁ (by simp),
      ((hsound₁.append hsound₂).append hsound₃).append hsound₄⟩
  | @Stmt.Listed.whileLoop _ c body _ p q _ L₁ hp hbody hstop => by
    simp only [Listing.entries_append, List.forall_mem_append] at hmarks
    obtain ⟨⟨hmarks₁, hmarks₂⟩, hmarks₃⟩ := hmarks
    -- The end of the body jumps back, so the start has to be marked before the body is looked at.
    have hdone : Marks stop spot.point := hexit (by simp)
    have hagain : Marks start spot.point := marks_of_ne_nil hmarks₁ (by simp)
    obtain ⟨htail, hlength, howner⟩ := (spot.inLoop start stop).afterAll_inBlock body
    have hpos := List.length_pos_iff.2 hfits.blocks_ne_nil
    obtain ⟨hp', hsound₂⟩ := hbody.sound false hvalid (hfits.inLoop hagain hdone) hmarks₂ fun _ ↦
      marks_of_ne_nil hmarks₃ (by simp)
    have hsound₁ := Spot.sound_test hmarks₁ (hp ▸ hp' rfl) hdone
    have hlength' : _ = spot.blocks.length + 1 := hlength
    have hsound₃ := Spot.sound_skip hmarks₃ htail (by omega) howner hagain
    exact ⟨hagain, (hsound₁.append hsound₂).append hsound₃⟩
  | @Stmt.Listed.function _ head body _ p q _ L₁ hp hbody hstop => by
    simp only [Listing.entries_append, List.forall_mem_append] at hmarks
    obtain ⟨⟨⟨hmarks₁, -⟩, hmarks₂⟩, hmarks₃⟩ := hmarks
    rw [Stmt.valid, Bool.and_eq_true] at hvalid
    have hbehind : Marks stop spot.point := hexit (by simp)
    -- A body that ends with a `return` is not left at its end, and any other has a `return` added
    -- there.
    obtain ⟨hp', hsound₂⟩ := hbody.sound false hvalid.1 (.body head) hmarks₂ fun hreturns ↦
      marks_of_ne_nil hmarks₃ (Head.closing_ne_nil hreturns)
    have hjump : Entry.Sound Marks ⟨start, .jump stop, spot.point⟩ :=
      ⟨⟨Nat.zero_le _, by simp, by simp [Instr.leaves]⟩, by simp [Instr.fallsThrough],
        fun t ht ↦ by cases ht; exact hbehind⟩
    have hsound₁ : (spot.line start [.jump stop]).Sound Marks :=
      Spot.sound_line (Point.Checks.nil.sound_snoc hmarks₁ hjump)
    have hhead : Listing.Sound Marks ⟨[], [⟨head, body, p, stop⟩]⟩ :=
      ⟨by simp, by simpa using hp' rfl⟩
    exact ⟨marks_of_ne_nil hmarks₁ (by simp),
      ((hsound₁.append hhead).append hsound₂).append (Spot.sound_closing hmarks₃)⟩
  | @Stmt.Listed.block _ body _ q L₁ hbody => by
    simp only [Listing.entries_append, List.forall_mem_append] at hmarks
    obtain ⟨⟨hmarks₁, hmarks₂⟩, hmarks₃⟩ := hmarks
    have hstop : Marks (q + Instr.size [.exitScope]) spot.point := hexit (by simp)
    obtain ⟨htail, hlength, howner⟩ := spot.afterAll_inBlock body
    have hpos := List.length_pos_iff.2 hfits.blocks_ne_nil
    obtain ⟨hp', hsound₂⟩ := hbody.sound false hvalid hfits.inBlock hmarks₂ fun _ ↦
      marks_of_ne_nil hmarks₃ (by simp)
    have henter : spot.point.Checks [.enterScope] spot.inBlock.point :=
      .cons ⟨Nat.zero_le _, by simp, by simp [Instr.leaves]⟩ rfl .nil
    have hexit' : (spot.inBlock.afterAll body).point.Checks [.exitScope] spot.point := by
      have hafter : (spot.inBlock.afterAll body).point.after .exitScope = spot.point := by
        rw [Spot.point, Spot.point, ← htail, ← howner]
        rfl
      exact hafter ▸ .cons ⟨Nat.zero_le _, fun _ ↦ (by rw [Spot.point, hlength]; omega),
        by simp [Instr.leaves]⟩ rfl .nil
    have hsound₁ := Spot.sound_line (henter.sound hmarks₁ (hp' rfl))
    have hsound₃ := Spot.sound_line (hexit'.sound hmarks₃ hstop)
    exact ⟨marks_of_ne_nil hmarks₁ (by simp), (hsound₁.append hsound₂).append hsound₃⟩

/-- The code of some statements is sound. Its start is marked unless a `return` stands before it. -/
theorem Stmt.ListedAll.sound {spot : Spot} {ss : List Stmt} {start stop : Nat} {L : Listing}
    {loops : Nat} {place : Place} (before : Bool) (hvalid : Stmt.validAll loops place ss = true)
    (hfits : spot.Fits Marks) (hmarks : ∀ e ∈ L.entries, Marks e.offset e.point)
    (hexit : ss.foldl Stmt.endsInReturn before = false → Marks stop (spot.afterAll ss).point) :
    Stmt.ListedAll spot ss start stop L →
      (before = false → Marks start spot.point) ∧ L.Sound Marks
  | .nil => ⟨hexit, by simp [Listing.empty], by simp [Listing.empty]⟩
  | @Stmt.ListedAll.cons _ s ss _ mid _ L₁ L₂ h hs => by
    rw [Listing.entries_append, List.forall_mem_append] at hmarks
    rw [Stmt.validAll, Bool.and_eq_true] at hvalid
    obtain ⟨hmid, hsound₂⟩ :=
      hs.sound (Stmt.endsInReturn before s) hvalid.2 (hfits.after s) hmarks.2 hexit
    by_cases huses : ∃ target, s = .uses target
    · -- nothing is written for it, so what was last before it still is
      obtain ⟨target, rfl⟩ := huses
      cases h with
      | flat h =>
        cases h
        exact ⟨hmid,
          Listing.Sound.append ⟨by simp [Spot.line, entriesOf], by simp [Spot.line]⟩ hsound₂⟩
    · have hends : (∀ v, s ≠ .giveBack v) → Stmt.endsInReturn before s = false := by
        intro hreturn
        cases s with
        | uses target => exact absurd ⟨target, rfl⟩ huses
        | giveBack value => exact absurd rfl (hreturn value)
        | _ => rfl
      obtain ⟨hstart, hsound₁⟩ := h.sound hvalid.1 hfits hmarks.1 fun hreturn ↦ hmid (hends hreturn)
      exact ⟨fun _ ↦ hstart, hsound₁.append hsound₂⟩

end

/-! ### Offsets -/

/-- The lines of a listing lie between two offsets. -/
structure Listing.Within (L : Listing) (start stop : Nat) : Prop where
  le : start ≤ stop
  lines : ∀ e ∈ L.entries, start ≤ e.offset ∧ e.next ≤ stop

namespace Listing.Within

variable {L L' : Listing} {start mid stop : Nat}

/-- Stretches that meet are one stretch. -/
theorem append (h : L.Within start mid) (h' : L'.Within mid stop) :
    (L ++ L').Within start stop := by
  refine ⟨Nat.le_trans h.le h'.le, List.forall_mem_append.2 ⟨fun e he ↦ ?_, fun e he ↦ ?_⟩⟩
  · exact ⟨(h.lines e he).1, Nat.le_trans (h.lines e he).2 h'.le⟩
  · exact ⟨Nat.le_trans h.le (h'.lines e he).1, (h'.lines e he).2⟩

theorem line (spot : Spot) (start : Nat) (is : List Instr) :
    (spot.line start is).Within start (start + Instr.size is) := by
  rw [Spot.line]
  generalize spot.point = p
  refine ⟨Nat.le_add_right _ _, ?_⟩
  induction is generalizing start p with
  | nil => simp [entriesOf]
  | cons i is ih =>
    rw [entriesOf, List.forall_mem_cons, Instr.size_cons]
    refine ⟨⟨Nat.le_refl _, by simp [Entry.next]⟩, fun e he ↦ ?_⟩
    have := ih (start + i.width) (p.after i) e he
    omega

end Listing.Within

mutual

/-- The lines of a statement stand between its start and its end. -/
theorem Stmt.Listed.within {spot : Spot} {s : Stmt} {start stop : Nat} {L : Listing} :
    s.Listed spot start stop L → L.Within start stop
  | .flat _ => .line ..
  | .ifElse hp hbody hnext hotherwise => by
    subst hp hnext
    exact (((Listing.Within.line ..).append hbody.within).append (.line ..)).append
      hotherwise.within
  | .whileLoop hp hbody hstop => by
    subst hp hstop
    exact ((Listing.Within.line ..).append hbody.within).append (.line ..)
  | .function hp hbody hstop => by
    subst hp hstop
    exact (((Listing.Within.line ..).append ⟨Nat.le_refl _, by simp⟩).append hbody.within).append
      (.line ..)
  | .block hbody => ((Listing.Within.line ..).append hbody.within).append (.line ..)

/-- The lines of some statements stand between their start and their end. -/
theorem Stmt.ListedAll.within {spot : Spot} {ss : List Stmt} {start stop : Nat} {L : Listing} :
    Stmt.ListedAll spot ss start stop L → L.Within start stop
  | .nil => ⟨Nat.le_refl _, by simp [Listing.empty]⟩
  | .cons h hs => h.within.append hs.within

end

end Scriptlet
