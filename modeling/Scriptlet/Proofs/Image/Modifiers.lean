import Scriptlet.Proofs.Code.LastCalls
import Scriptlet.Proofs.Machine.TailCalls
import Scriptlet.Proofs.Tree.WithoutModifiers

/-!
# Modifiers do not change code

The image of a program has no trace of `const`, `static`, `inline` and `import`: **without them the
program has the same image**, byte by byte. The first three are checked and forgotten while the
program is read. An `import` is a statement without code, and since it has none, whether a body ends
with a `return` does not depend on it either.

What the modifier `tail` does to the image is one byte for each last call.
-/

namespace Scriptlet

theorem Stmt.endsInReturn_withoutModifiers (before : Bool) (s : Stmt) :
    s.withoutModifiers.endsInReturn before = s.endsInReturn before := by
  cases s <;> rfl

/-- Modifiers and imports have no code, so a body ends with a `return` as it did with them. -/
theorem bodyReturns_withoutModifiers (body : List Stmt) :
    bodyReturns (Stmt.withoutModifiersAll body) = bodyReturns body := by
  have hfold (before : Bool) : (Stmt.withoutModifiersAll body).foldl Stmt.endsInReturn before =
      body.foldl Stmt.endsInReturn before := by
    induction body generalizing before with
    | nil => rfl
    | cons s ss ih =>
      rcases huses : s.isUses
      · rw [Stmt.withoutModifiersAll_cons huses, List.foldl_cons, List.foldl_cons,
          s.endsInReturn_withoutModifiers, ih]
      -- An `import` has no code, so what stood before it still ends the body.
      · obtain ⟨target, rfl⟩ := Stmt.exists_eq_uses huses
        rw [Stmt.withoutModifiersAll_uses, ih]
        rfl
  exact hfold false

mutual

/-- A statement without modifiers has the same code. -/
theorem Stmt.emit_withoutModifiers (l : Layout) : ∀ (s : Stmt) (d : Draft),
    s.withoutModifiers.emit l d = s.emit l d
  | .ifElse c body otherwise, d => by
    obtain ⟨done, d₁, hmake⟩ : ∃ done d₁, d.newLabel = (done, d₁) := ⟨_, _, rfl⟩
    obtain ⟨next, d₂, htest⟩ : ∃ next d₂, d₁.test c = (next, d₂) := ⟨_, _, rfl⟩
    rw [Stmt.withoutModifiers, Stmt.emit_ifElse hmake htest, Stmt.emit_ifElse hmake htest,
      Stmt.emitAll_withoutModifiers, Stmt.emitAll_withoutModifiers]
  | .whileLoop c body, d => by
    obtain ⟨again, d₁, hmake⟩ : ∃ again d₁, d.newLabel = (again, d₁) := ⟨_, _, rfl⟩
    obtain ⟨done, d₂, htest⟩ : ∃ done d₂, (d₁.bind again).test c = (done, d₂) := ⟨_, _, rfl⟩
    rw [Stmt.withoutModifiers, Stmt.emit_whileLoop hmake htest, Stmt.emit_whileLoop hmake htest,
      Stmt.emitAll_withoutModifiers]
  | .function head body, d => by
    rw [Stmt.withoutModifiers, Stmt.emit, Stmt.emit]
    simp only [bodyReturns_withoutModifiers, Stmt.emitAll_withoutModifiers]
  | .block body, d => by
    rw [Stmt.withoutModifiers, Stmt.emit, Stmt.emit, Stmt.emitAll_withoutModifiers]
  | .declare _ _ _ _, _ | .assign _ _, _ | .assignAt _ _ _, _ | .step _ _, _ | .breakLoop _, _
  | .continueLoop, _ | .giveBack _, _ | .exit, _ | .unset _, _ | .uses _, _ | .eval _, _ => rfl

/-- Some statements have the same code without their modifiers. -/
theorem Stmt.emitAll_withoutModifiers (l : Layout) : ∀ (ss : List Stmt) (d : Draft),
    Stmt.emitAll l (Stmt.withoutModifiersAll ss) d = Stmt.emitAll l ss d
  | [], _ => rfl
  | s :: ss, d => by
    rcases huses : s.isUses
    · rw [Stmt.withoutModifiersAll_cons huses, Stmt.emitAll, Stmt.emitAll,
        s.emit_withoutModifiers, Stmt.emitAll_withoutModifiers l ss]
    · obtain ⟨target, rfl⟩ := Stmt.exists_eq_uses huses
      rw [Stmt.withoutModifiersAll_uses, Stmt.emitAll_withoutModifiers l ss]
      rfl

end

/-! ### Both kinds of modifiers -/

theorem Stmt.isUses_withoutTail (s : Stmt) : s.withoutTail.isUses = s.isUses := by
  cases s <;> rfl

mutual

/-- It does not matter which modifiers are taken away first. -/
theorem Stmt.withoutTail_withoutModifiers : ∀ s : Stmt,
    s.withoutModifiers.withoutTail = s.withoutTail.withoutModifiers
  | .ifElse _ body otherwise => by
    simp only [Stmt.withoutModifiers, Stmt.withoutTail, withoutTailAll_withoutModifiersAll]
  | .whileLoop _ body | .function _ body | .block body => by
    simp only [Stmt.withoutModifiers, Stmt.withoutTail, withoutTailAll_withoutModifiersAll]
  | .declare _ _ _ _ | .assign _ _ | .assignAt _ _ _ | .step _ _ | .breakLoop _ | .continueLoop
  | .giveBack _ | .exit | .unset _ | .uses _ | .eval _ => rfl

/-- It does not matter in which order modifiers are taken out. -/
theorem Stmt.withoutTailAll_withoutModifiersAll : ∀ ss : List Stmt,
    Stmt.withoutTailAll (Stmt.withoutModifiersAll ss) =
      Stmt.withoutModifiersAll (Stmt.withoutTailAll ss)
  | [] => rfl
  | s :: ss => by
    rw [Stmt.withoutModifiersAll, Stmt.withoutTailAll, Stmt.withoutModifiersAll,
      s.isUses_withoutTail]
    split
    · exact Stmt.withoutTailAll_withoutModifiersAll ss
    · rw [Stmt.withoutTailAll, s.withoutTail_withoutModifiers,
        Stmt.withoutTailAll_withoutModifiersAll ss]

end

/-! ### Compiled programs -/

/-- The span of its end is of no account for a program that has an image. -/
theorem Program.assemble_of_assemble {p : Program} {image : Image} {stop : Span}
    (h : p.assemble stop = .ok image) (stop' : Span) : p.assemble stop' = .ok image :=
  Program.assemble_eq_ok.2 (Program.assemble_eq_ok.1 h)

/-- **A program without its modifiers is the same image.** -/
theorem Program.assemble_withoutModifiersAll (p : Program) (stop : Span) :
    Program.assemble (Stmt.withoutModifiersAll p) stop = p.assemble stop := by
  rw [Program.assemble, Program.assemble, Program.draft, Program.draft,
    Stmt.emitAll_withoutModifiers]

/-- Any kinds are those of some tokens. -/
theorem Tokens.exists_kinds_eq (ks : List Kind) : ∃ ts : Tokens, ts.kinds = ks :=
  ⟨⟨ks.map (⟨·, default⟩), default⟩, by simp [Tokens.kinds, Function.comp_def]⟩

section

variable {ts ts' : Tokens} {p : Program} {image : Image}

/-- Tokens without modifiers are compiled to the same image, wherever they stand in their texts. -/
theorem compileTokens_of_kinds_eq_withoutModifiers (h : compileTokens ts = .ok image)
    (hkinds : ts'.kinds = withoutModifiers ts.kinds) : compileTokens ts' = .ok image := by
  obtain ⟨p, hp, hassemble⟩ := exists_program_of_compileTokens h
  rw [compileTokens, Program.ofTokens_of_kinds_eq_withoutModifiers hp hkinds]
  exact (p.assemble_withoutModifiersAll _).trans (Program.assemble_of_assemble hassemble _)

/-- Tokens without modifiers and without `tail` are compiled to an image that differs in the last
calls. -/
theorem exists_compileTokens_of_kinds_eq_withoutTail (hp : Program.ofTokens ts = .ok p)
    (h : compileTokens ts = .ok image)
    (hkinds : ts'.kinds = withoutTail (withoutModifiers ts.kinds)) :
    ∃ image', compileTokens ts' = .ok image' ∧ image.DiffersInLastCalls p image' := by
  obtain ⟨q, hq, hassemble⟩ := exists_program_of_compileTokens h
  obtain rfl : p = q := Except.ok.inj (hp.symm.trans hq)
  obtain ⟨image', hassemble', hdiffers⟩ := Program.exists_differsInLastCalls hassemble ts'.stop
  -- Tokens between the two, since `tail` is taken out of tokens that are accepted.
  obtain ⟨mid, hmid⟩ := Tokens.exists_kinds_eq (withoutModifiers ts.kinds)
  have hread := Program.ofTokens_of_kinds_eq_withoutModifiers hp hmid
  rw [← hmid] at hkinds
  refine ⟨image', ?_, hdiffers⟩
  rw [compileTokens, Program.ofTokens_of_kinds_eq_withoutTail hread hkinds,
    Stmt.withoutTailAll_withoutModifiersAll]
  exact (Program.assemble_withoutModifiersAll _ _).trans hassemble'

end

/-- What is compiled was scanned. -/
theorem exists_ofText_of_compile {source : String} {image : Image}
    (h : compile source = .ok image) : ∃ ts, Tokens.ofText source = .ok ts := by
  rcases hts : Tokens.ofText source with e | ts
  · rw [compile, hts] at h
    cases h
  · exact ⟨ts, rfl⟩

/-- What is compiled from the tokens of a text is compiled from the text. -/
theorem compile_of_compileTokens {source : String} {ts : Tokens} {image : Image}
    (hts : Tokens.ofText source = .ok ts) (h : compileTokens ts = .ok image) :
    compile source = .ok image := by
  rw [compile, hts]
  exact h

/-- **Modifiers do not change code.** A text that is compiled has tokens, and these spell a program.
The same tokens without `const`, `static`, `inline` and `import` are compiled to the same image, in
whichever text they stand. Without these and without `tail` they are compiled to an image of the
same length that differs in one byte for each last call: for each `return` with a call as its value
in the body of a function declared with `tail`. -/
theorem compile_eq_and_differsInLastCalls {source : String} {image : Image}
    (h : compile source = .ok image) :
    ∃ ts p, Tokens.ofText source = .ok ts ∧ Program.ofTokens ts = .ok p ∧
      (∀ ts' : Tokens, ts'.kinds = withoutModifiers ts.kinds →
        compileTokens ts' = .ok image ∧
        ∀ source', Tokens.ofText source' = .ok ts' → compile source' = .ok image) ∧
      (∀ ts' : Tokens, ts'.kinds = withoutTail (withoutModifiers ts.kinds) →
        ∃ image', compileTokens ts' = .ok image' ∧
          (∀ source', Tokens.ofText source' = .ok ts' → compile source' = .ok image') ∧
          image.DiffersInLastCalls p image') ∧
      p.lastCalls.Nodup := by
  obtain ⟨ts, hts⟩ := exists_ofText_of_compile h
  have hcompile := compileTokens_of_compile hts h
  obtain ⟨p, hp, -⟩ := exists_program_of_compileTokens hcompile
  refine ⟨ts, p, hts, hp, fun ts' hkinds ↦ ?_, fun ts' hkinds ↦ ?_, p.nodup_lastCalls⟩
  · have hcompile' := compileTokens_of_kinds_eq_withoutModifiers hcompile hkinds
    exact ⟨hcompile', fun _ hts' ↦ compile_of_compileTokens hts' hcompile'⟩
  · obtain ⟨image', hcompile', hdiffers⟩ :=
      exists_compileTokens_of_kinds_eq_withoutTail hp hcompile hkinds
    exact ⟨image', hcompile', fun _ hts' ↦ compile_of_compileTokens hts' hcompile', hdiffers⟩

/-- All modifiers there are, with a last call in parentheses and an `import` behind it. -/
def fullyModified : String :=
  "let const static x = 1; func inline tail f(n) \x7b return (f(n)); import m; \x7d"

/-- The same without any but `tail`. -/
def modifiedByTail : String :=
  "let x = 1; func tail f(n) \x7b return (f(n)); \x7d"

/-- The same without any. -/
def unmodified : String :=
  "let x = 1; func f(n) \x7b return (f(n)); \x7d"

theorem compile_eq_and_differsInLastCalls_fullyModified :
    ∃ ts p image image', Tokens.ofText fullyModified = .ok ts ∧ Program.ofTokens ts = .ok p ∧
      compile fullyModified = .ok image ∧ compile modifiedByTail = .ok image ∧
      compile unmodified = .ok image' ∧ p.lastCalls.length = 1 ∧
      image.DiffersInLastCalls p image' := by
  have hkinds : (Tokens.ofText modifiedByTail).toOption.map Tokens.kinds =
      (Tokens.ofText fullyModified).toOption.map fun ts ↦ withoutModifiers ts.kinds := by
    decide +kernel
  have hkinds' : (Tokens.ofText unmodified).toOption.map Tokens.kinds =
      (Tokens.ofText fullyModified).toOption.map fun ts ↦
        withoutTail (withoutModifiers ts.kinds) := by
    decide +kernel
  have hlength : ((Tokens.ofText fullyModified).toOption.bind fun ts ↦
      (Program.ofTokens ts).toOption.map fun p ↦ p.lastCalls.length) = some 1 := by
    decide +kernel
  have hcompiles : (compile fullyModified).toOption.isSome = true := by
    decide +kernel
  rcases himage : compile fullyModified with e | image
  · rw [himage] at hcompiles
    cases hcompiles
  obtain ⟨ts, p, hts, hp, hsame, hdiffers, -⟩ := compile_eq_and_differsInLastCalls himage
  rw [hts] at hkinds hkinds' hlength
  rcases hts₁ : Tokens.ofText modifiedByTail with e | ts₁
  · rw [hts₁] at hkinds
    cases hkinds
  rcases hts₂ : Tokens.ofText unmodified with e | ts₂
  · rw [hts₂] at hkinds'
    cases hkinds'
  rw [hts₁] at hkinds
  rw [hts₂] at hkinds'
  obtain ⟨image', -, hcompile', hdiffers⟩ := hdiffers ts₂ (Option.some.inj hkinds')
  refine ⟨ts, p, image, image', hts, hp, rfl, (hsame ts₁ (Option.some.inj hkinds)).2 _ hts₁,
    hcompile' _ hts₂, ?_, hdiffers⟩
  have hp' : (Program.ofTokens ts).toOption.map (fun p ↦ p.lastCalls.length) = some 1 := hlength
  rw [hp] at hp'
  exact Option.some.inj hp'

end Scriptlet
