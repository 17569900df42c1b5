import Scriptlet.Command.Folder
import Scriptlet.Proofs.Image.Loading

/-!
# Compiled files run like their sources

A file that was written can be read at the path at which it was written. That is not quite obvious,
since a path is followed name by name and the new file stands in its way: the names on the way must
lead to the same folders as before. They do, because none of them can be the file itself.

With that, `compile` and then `run` of what was written come to the same machine as `exec` of the
source, **in the folder as it was before**: the image may be written over the source.
-/

namespace Scriptlet

/-- A location at which names can be followed further. -/
def Location.isOpen : Location → Bool
  | .folder _ | .outside => true
  | .file _ | .absent _ _ => false

namespace Folder

variable {f : Folder} {path q : List String} {bytes : Array UInt8} {l l' : Location}
  {name : String} {names : List String}

/-! ### Files that are put into a folder -/

/-- What is found among files one of which may have been replaced. -/
theorem find?_map_replace (files : List (List String × Array UInt8)) (path q : List String)
    (bytes : Array UInt8) :
    Folder.find? ⟨files.map fun e ↦ if e.1 == path then (path, bytes) else e⟩ q =
      if q = path then (Folder.find? ⟨files⟩ q).map fun _ ↦ bytes else Folder.find? ⟨files⟩ q := by
  induction files with
  | nil => simp [find?]
  | cons e files ih =>
    simp only [find?, List.map_cons] at ih ⊢
    by_cases hpath : e.1 = path
    · by_cases hq : q = path
      · simp [hpath, hq]
      · have hne : (path == q) = false := by simpa using Ne.symm hq
        simpa [hpath, hq, hne] using ih
    · by_cases hq : e.1 = q
      · simp [hq, show q ≠ path from hq ▸ hpath]
      · simpa [hpath, hq, List.find?_cons] using ih

/-- What was put at a path is there. -/
theorem find?_put_self (f : Folder) (path : List String) (bytes : Array UInt8) :
    (f.put path bytes).find? path = some bytes := by
  rw [put]
  split
  · rename_i hsome
    obtain ⟨old, hold⟩ := Option.isSome_iff_exists.1 hsome
    rw [find?_map_replace, if_pos rfl, hold, Option.map_some]
  · rename_i hnone
    rw [Option.not_isSome_iff_eq_none, find?, Option.map_eq_none_iff] at hnone
    simp [find?, List.find?_append, hnone]

/-- Nothing else has changed. -/
theorem find?_put_of_ne (hne : q ≠ path) : (f.put path bytes).find? q = f.find? q := by
  rw [put]
  split
  · rw [find?_map_replace, if_neg hne]
  · have hpath : (path == q) = false := by simpa using Ne.symm hne
    simp [find?, List.find?_append, hpath]

/-- No folder is lost. -/
theorem hasFolder_put (h : f.hasFolder q = true) : (f.put path bytes).hasFolder q = true := by
  rw [hasFolder, Bool.or_eq_true, List.any_eq_true] at h ⊢
  refine h.imp_right ?_
  rintro ⟨e, he, hbelow⟩
  rw [put]
  split
  · refine ⟨_, List.mem_map_of_mem he, ?_⟩
    by_cases hpath : e.1 == path
    · have heq : e.1 = path := by simpa using hpath
      simpa [heq] using hbelow
    · simpa [hpath] using hbelow
  · exact ⟨e, List.mem_append_left _ he, hbelow⟩

/-! ### Following a path -/

/-- There is room for a file at a path: there is one, or no folder is in its place. -/
def HasRoom (f : Folder) (q : List String) : Prop :=
  f.find? q = none → f.hasFolder q = false

/-- What following one name can lead to, and that a new file changes it only if it leads there. -/
theorem enter_cases (hl : l.isOpen = true) (h : f.enter l name = .ok l') :
    (l'.isOpen = true ∧
      ∀ q, f.HasRoom q → ∀ bytes, (f.put q bytes).enter l name = .ok l') ∨
    ∃ q, (l' = .file q ∨ l' = .absent q false) ∧ f.HasRoom q ∧
      ∀ bytes, (f.put q bytes).enter l name = .ok (.file q) := by
  cases l with
  | file | absent => cases hl
  | outside =>
    refine .inl ⟨?_, fun q _ bytes ↦ h⟩
    rw [enter] at h
    split at h <;> cases h
    rfl
  | folder path =>
    simp only [enter] at h ⊢
    by_cases hsame : (name == "" || name == ".") = true
    · simp only [hsame, if_true] at h ⊢
      cases h
      exact .inl ⟨rfl, fun _ _ _ ↦ rfl⟩
    by_cases hup : (name == "..") = true
    · simp only [hsame, hup, if_true, Bool.false_eq_true, if_false] at h ⊢
      cases h
      refine .inl ⟨?_, fun _ _ _ ↦ rfl⟩
      split <;> rfl
    simp only [hsame, hup, Bool.false_eq_true, if_false] at h ⊢
    -- A file in its place is found there, with the old bytes or the new ones.
    by_cases hfile : (f.find? (path ++ [name])).isSome = true
    · simp only [hfile, if_true] at h
      cases h
      refine .inr ⟨path ++ [name], .inl rfl, fun hnone ↦ ?_, fun bytes ↦ ?_⟩
      · simp [hnone] at hfile
      · simp [find?_put_self]
    · simp only [hfile, Bool.false_eq_true, if_false] at h
      rw [Option.not_isSome_iff_eq_none] at hfile
      -- A folder stays one, since no file is put in its place; otherwise the name is free.
      by_cases hfolder : f.hasFolder (path ++ [name]) = true
      · simp only [hfolder, if_true] at h
        cases h
        refine .inl ⟨rfl, fun q hq bytes ↦ ?_⟩
        have hne : path ++ [name] ≠ q := by
          rintro rfl
          simp [hq hfile] at hfolder
        simp [find?_put_of_ne hne, hfile, hasFolder_put hfolder]
      · simp only [hfolder, Bool.false_eq_true, if_false] at h
        cases h
        refine .inr ⟨path ++ [name], .inr rfl, fun _ ↦ by simpa using hfolder, fun bytes ↦ ?_⟩
        simp [find?_put_self]

/-- Names are followed one by one. -/
theorem exists_enter_of_foldlM (h : (name :: names).foldlM f.enter l = .ok l') :
    ∃ l₁, f.enter l name = .ok l₁ ∧ names.foldlM f.enter l₁ = .ok l' := by
  rw [List.foldlM_cons] at h
  rcases hl₁ : f.enter l name with e | l₁
  · rw [hl₁] at h
    cases h
  · rw [hl₁] at h
    exact ⟨l₁, rfl, h⟩

/-- A path that leads to a file ends with it. -/
theorem names_eq_nil_of_file (h : names.foldlM f.enter (.file q) = .ok l) :
    names = [] ∧ l = .file q := by
  cases names with
  | nil =>
    cases h
    exact ⟨rfl, rfl⟩
  | cons name names =>
    obtain ⟨l₁, hl₁, -⟩ := exists_enter_of_foldlM h
    cases hl₁

/-- A path that leads to nothing ends with it, or asks for a folder. -/
theorem eq_absent_of_absent {asFolder : Bool}
    (h : names.foldlM f.enter (.absent q asFolder) = .ok l) :
    names = [] ∧ l = .absent q asFolder ∨ l = .absent q true := by
  induction names generalizing asFolder with
  | nil =>
    cases h
    exact .inl ⟨rfl, rfl⟩
  | cons name names ih =>
    obtain ⟨l₁, hl₁, hrest⟩ := exists_enter_of_foldlM h
    rw [enter] at hl₁
    split at hl₁ <;> cases hl₁
    rcases ih hrest with ⟨-, hl⟩ | hl <;> exact .inr hl

/-- A path that ends with a file, or with nothing that was meant to be a folder. -/
theorem foldlM_enter_cases (hl : l.isOpen = true) (h : names.foldlM f.enter l = .ok l')
    (hl' : l' = .file q ∨ l' = .absent q false) :
    f.HasRoom q ∧ ∀ bytes, names.foldlM (f.put q bytes).enter l = .ok (.file q) := by
  induction names generalizing l with
  | nil =>
    cases h
    rcases hl' with rfl | rfl <;> cases hl
  | cons name names ih =>
    obtain ⟨l₁, hl₁, hrest⟩ := exists_enter_of_foldlM h
    rcases enter_cases hl hl₁ with ⟨hopen, hput⟩ | ⟨q', hq', hroom, hput⟩
    · -- The name leads to a folder, and it does so with the new file, too.
      obtain ⟨hroom, hput'⟩ := ih hopen hrest
      refine ⟨hroom, fun bytes ↦ ?_⟩
      rw [List.foldlM_cons, hput q hroom bytes]
      exact hput' bytes
    · -- The name is the last one.
      have hlast : names = [] ∧ q' = q := by
        rcases hq' with rfl | rfl
        · obtain ⟨rfl, rfl⟩ := names_eq_nil_of_file hrest
          simpa using hl'
        · rcases eq_absent_of_absent hrest with ⟨rfl, rfl⟩ | rfl
          · simpa using hl'
          · simp at hl'
      obtain ⟨rfl, rfl⟩ := hlast
      refine ⟨hroom, fun bytes ↦ ?_⟩
      rw [List.foldlM_cons, hput bytes]
      rfl

/-- **A file is read back where it was written.** -/
theorem read_write {f' : Folder} {path : String} (h : f.write path bytes = .ok f') :
    f'.read path = .ok bytes := by
  obtain ⟨l, hl⟩ : ∃ l, f.locate path = .ok l := by
    rcases hl : f.locate path with e | l
    · rw [write, hl] at h
      cases h
    · exact ⟨l, rfl⟩
  -- The path leads somewhere where a file may be.
  obtain ⟨q, hq, rfl⟩ : ∃ q, (l = .file q ∨ l = .absent q false) ∧ f' = f.put q bytes := by
    rw [write, hl] at h
    rcases l with q | q | - | ⟨q, - | -⟩ <;> cases h
    · exact ⟨q, .inl rfl, rfl⟩
    · exact ⟨q, .inr rfl, rfl⟩
  have hput : (f.put q bytes).locate path = .ok (.file q) := by
    rw [locate] at hl ⊢
    split at hl
    · rename_i hslash
      rw [if_pos hslash]
      exact (foldlM_enter_cases rfl hl hq).2 bytes
    · rename_i hslash
      rw [if_neg hslash]
      exact (foldlM_enter_cases rfl hl hq).2 bytes
  rw [read, hput]
  simp only [bind, Except.bind, find?_put_self]
  rfl

end Folder

/-! ### Commands -/

namespace Folder

variable {f : Folder} {args : List String} {path : String} {bytes : Array UInt8} {image : Image}
  {limits : Limits}

/-- What `compile` does with a source that has an image. -/
theorem start_compile {out : Option String}
    (hargs : Invocation.ofArgs? args = some ⟨.compile path out, limits⟩)
    (hread : f.read path = .ok bytes) (hcompiled : Invocation.compileFile bytes = .ok image) :
    f.start args = match f.write (out.getD (imagePath path)) image.bytes with
      | .error e => .done (.ofFailure (.file e)) f
      | .ok f' => .done {} f' := by
  rcases hwrite : f.write (out.getD (imagePath path)) image.bytes with e | f' <;>
    simp only [start, hargs, Command.path, hread, Except.mapError, bind, Except.bind,
      Invocation.job, hcompiled, pure, Except.pure, hwrite]

/-- What `exec` does with a source that has an image. -/
theorem start_exec (hargs : Invocation.ofArgs? args = some ⟨.exec path, limits⟩)
    (hread : f.read path = .ok bytes) (hcompiled : Invocation.compileFile bytes = .ok image) :
    f.start args = .running (.ofImage image Console.table limits) := by
  rw [start, hargs]
  simp only [Command.path, hread, Except.mapError, bind, Except.bind, Invocation.job, hcompiled,
    pure, Except.pure]

/-- What `run` does with an image. -/
theorem start_run (hargs : Invocation.ofArgs? args = some ⟨.run path, limits⟩)
    (hread : f.read path = .ok bytes) (hload : Image.load bytes = .ok image) :
    f.start args = .running (.ofImage image Console.table limits) := by
  rw [start, hargs]
  simp only [Command.path, hread, Except.mapError, bind, Except.bind, Invocation.job, hload,
    pure, Except.pure]

end Folder

/-- A file is compiled if it is text and the text is. -/
theorem compileFile_of_compile {source : String} {bytes : Array UInt8} {image : Image}
    (htext : Code.ofUtf8? bytes = some source) (h : compile source = .ok image) :
    Invocation.compileFile bytes = .ok image := by
  simp only [Invocation.compileFile, htext, h]
  rfl

/-- **Compiling keeps everything that a run depends on.** The bytes of a compiled image are loaded
as the same image, whose functions have names of their own. So they make the same machine, whatever
the host and the limits; and `compile`, then `run` of what was written, come to the same as `exec`
of the source. -/
theorem load_bytes_and_start_run_of_compile {source : String} {image : Image}
    (h : compile source = .ok image) :
    Image.load image.bytes = .ok image ∧ (image.functions.map Function.name).Nodup ∧
      (∀ (table : Table) (limits : Limits) (loaded : Image), Image.load image.bytes = .ok loaded →
        Machine.ofImage loaded table limits = Machine.ofImage image table limits) ∧
      ∀ (f f' : Folder) (path : String) (out : Option String) (bytes : Array UInt8)
        (limits limits' : Limits) (compileArgs runArgs execArgs : List String),
        Invocation.ofArgs? compileArgs = some ⟨.compile path out, limits'⟩ →
        Invocation.ofArgs? runArgs = some ⟨.run (out.getD (imagePath path)), limits⟩ →
        Invocation.ofArgs? execArgs = some ⟨.exec path, limits⟩ →
        f.read path = .ok bytes → Code.ofUtf8? bytes = some source →
        f.start compileArgs = .done {} f' →
        f.start execArgs = .running (.ofImage image Console.table limits) ∧
          f'.start runArgs = f.start execArgs := by
  obtain ⟨ts, hts⟩ := exists_tokens_of_compile h
  obtain ⟨p, hp, hassemble⟩ := exists_program_of_compileTokens hts
  obtain ⟨-, hvalid⟩ := Program.spelled_and_valid_of_ofTokens hp
  obtain ⟨c, hchecked⟩ := Program.exists_checkedAll_of_ofTokens hp
  obtain ⟨hload, hnames⟩ := Program.load_of_assemble hvalid hchecked hassemble
  refine ⟨hload, hnames, fun table limits loaded hloaded ↦ ?_, ?_⟩
  · rw [hload] at hloaded
    cases hloaded
    rfl
  intro f f' path out bytes limits limits' compileArgs runArgs execArgs hcompile hrun hexec hread
    htext hstart
  have hcompiled := compileFile_of_compile htext h
  have hwrite : f.write (out.getD (imagePath path)) image.bytes = .ok f' := by
    rw [Folder.start_compile hcompile hread hcompiled] at hstart
    rcases hf : f.write (out.getD (imagePath path)) image.bytes with e | f''
    · simp [hf, Report.ofFailure] at hstart
    · simpa [hf] using hstart
  have hexec' := Folder.start_exec hexec hread hcompiled
  refine ⟨hexec', ?_⟩
  rw [hexec', Folder.start_run hrun (Folder.read_write hwrite) hload]

/-- A function inside another one, with names beyond the Latin letters. -/
def nestedFunctions : String :=
  "func tail f(größe, b) \x7b func int g(λ) \x7b return λ + 1; \x7d return g(größe); \x7d " ++
    "let y = f(1, 2); print(y);"

theorem load_bytes_and_start_run_nestedFunctions :
    ∃ image f', compile nestedFunctions = .ok image ∧ Image.load image.bytes = .ok image ∧
      (image.functions.map Function.name).Nodup ∧
      Folder.start ⟨[(["s"], (Code.utf8 nestedFunctions).toArray)]⟩ ["compile", "s", "-o", "m"] =
        .done {} f' ∧
      f'.start ["run", "m"] =
        Folder.start ⟨[(["s"], (Code.utf8 nestedFunctions).toArray)]⟩ ["exec", "s"] := by
  obtain ⟨image, h⟩ : ∃ image, compile nestedFunctions = .ok image := by
    have hcompiles : (compile nestedFunctions).toOption.isSome = true := by decide +kernel
    rcases h : compile nestedFunctions with e | image <;> rw [h] at hcompiles
    · cases hcompiles
    · exact ⟨image, rfl⟩
  have hcompile : Invocation.ofArgs? ["compile", "s", "-o", "m"] =
      some ⟨.compile "s" (some "m"), {}⟩ := by
    decide +kernel
  have hrun : Invocation.ofArgs? ["run", "m"] =
      some ⟨.run ((some "m").getD (imagePath "s")), {}⟩ := by
    decide +kernel
  have hexec : Invocation.ofArgs? ["exec", "s"] = some ⟨.exec "s", {}⟩ := by
    decide +kernel
  obtain ⟨f, hf⟩ : ∃ f : Folder, f = ⟨[(["s"], (Code.utf8 nestedFunctions).toArray)]⟩ :=
    ⟨_, rfl⟩
  have hread : f.read "s" = .ok (Code.utf8 nestedFunctions).toArray := by
    have hslash : "s".startsWith "/" = false := by decide +kernel
    have hsplit : "s".splitOn "/" = ["s"] := by cbv
    rw [Folder.read, Folder.locate, hslash, hsplit, hf]
    rfl
  have hwrite : f.write "m" image.bytes = .ok (f.put ["m"] image.bytes) := by
    have hslash : "m".startsWith "/" = false := by decide +kernel
    have hsplit : "m".splitOn "/" = ["m"] := by cbv
    rw [Folder.write, Folder.locate, hslash, hsplit, hf]
    rfl
  have htext := Code.ofUtf8?_utf8 nestedFunctions
  have hstart := Folder.start_compile hcompile hread (compileFile_of_compile htext h)
  rw [Option.getD_some, hwrite] at hstart
  obtain ⟨hload, hnames, -, hcommands⟩ := load_bytes_and_start_run_of_compile h
  rw [← hf]
  exact ⟨image, _, h, hload, hnames, hstart,
    (hcommands f _ _ _ _ _ _ _ _ _ hcompile hrun hexec hread htext hstart).2⟩

end Scriptlet
