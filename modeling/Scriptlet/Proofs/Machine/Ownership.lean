import Scriptlet.Proofs.Image.Loading
import Scriptlet.Proofs.Machine.Moves

/-!
# Control stays in its function

The code of a function is the stretch from its entry to where the jump in front of it goes. A
function **owns** the instructions of its stretch that lie in no stretch inside it, and the program
itself owns those that lie in none. All of this is read off the bytes and the function table of an
image, without the program that it was compiled from.

Frames do not say which function they belong to, so a run is given a list beside it that does:
`Machine.ownersFor` changes it at calls and returns only, and never looks at where the run is. That
the next instruction always is one that the **innermost owner** on this list owns is then a fact
about the jumps, the ends of bodies and the return addresses. It rests on the notes of a listing,
which name the owner of every line.
-/

namespace Scriptlet

/-! ### Instructions and functions of an image -/

namespace Image

variable (image : Image)

/-- An instruction starts at the offset: reading one instruction after another comes there. -/
inductive Starts : Nat → Prop where
  | first (hlt : headerSize < image.tableOffset) : Starts headerSize
  | next {offset next : Nat} {i : Instr} (h : Starts offset)
      (hdecode : Instr.decode image.code offset = .ok (i, next))
      (hlt : next < image.tableOffset) : Starts next

/-- The instruction in front of a function jumps over it, to the offset. -/
def SkipsTo (f : Function) (stop : Nat) : Prop :=
  ∃ start, image.Starts start ∧ Instr.decode image.code start = .ok (.jump stop, f.entry.toNat)

/-- The offset lies between the entry of a function and where it is jumped over to. -/
def Covers (f : Function) (offset : Nat) : Prop :=
  ∃ stop, image.SkipsTo f stop ∧ f.entry.toNat ≤ offset ∧ offset < stop

/-- A function stands in the code of another one. -/
def IsNested (g f : Function) : Prop :=
  g ≠ f ∧ f.entry.toNat ≤ g.entry.toNat ∧
    ∃ stop stop', image.SkipsTo g stop ∧ image.SkipsTo f stop' ∧ stop ≤ stop'

/-- The functions that a program defines. -/
def defined : List Function :=
  image.functions.filter fun f ↦ f.name != Function.mainName

/-- The offset is in the code of a function but of none nested in it, or in that of no function at
all. -/
def Owns : Option Function → Nat → Prop
  | some f, offset =>
    image.Covers f offset ∧ ∀ g ∈ image.defined, image.IsNested g f → ¬image.Covers g offset
  | none, offset => ∀ g ∈ image.defined, ¬image.Covers g offset

end Image

/-! ### The lines of an image -/

namespace Adjoin

variable {start stop : Nat} {es : List Entry} {e e' : Entry}

/-- Lines that adjoin one another begin where the first one stands. -/
theorem eq_or_exists_first (h : Adjoin start es stop) :
    start = stop ∨ ∃ e ∈ es, e.offset = start := by
  cases es with
  | nil => exact .inl h
  | cons e es => exact .inr ⟨e, List.mem_cons_self .., h.1⟩

/-- Behind a line is another one or the end. -/
theorem eq_or_exists_next (h : Adjoin start es stop) (he : e ∈ es) :
    e.next = stop ∨ ∃ e' ∈ es, e'.offset = e.next := by
  induction es generalizing start with
  | nil => cases he
  | cons d es ih =>
    have hwider {P : Entry → Prop} : (∃ e' ∈ es, P e') → ∃ e' ∈ d :: es, P e' :=
      fun ⟨e', he', h⟩ ↦ ⟨e', List.mem_cons_of_mem _ he', h⟩
    rcases List.mem_cons.1 he with rfl | he
    · exact h.2.eq_or_exists_first.imp id hwider
    · exact (ih h.2 he).imp id hwider

/-- No two lines end at the same offset. -/
theorem eq_of_next_eq (h : Adjoin start es stop) (he : e ∈ es) (he' : e' ∈ es)
    (heq : e.next = e'.next) : e = e' := by
  induction es generalizing start with
  | nil => cases he
  | cons d es ih =>
    have hlater (a : Entry) (ha : a ∈ es) : d.next < a.next :=
      Nat.lt_of_le_of_lt ((h.2.bounds).2 a ha).1 a.offset_lt_next
    rcases List.mem_cons.1 he with rfl | hmem <;> rcases List.mem_cons.1 he' with rfl | hmem'
    · rfl
    · have := hlater e' hmem'
      omega
    · have := hlater e hmem
      omega
    · exact ih h.2 hmem hmem'

end Adjoin

namespace Image.Lists

variable {image : Image} {p : Program} {L : Listing}

/-- Every line is the start of an instruction. -/
theorem starts_offset (h : image.Lists p L) (hsize : image.code.size = image.tableOffset)
    {e : Entry} (he : e ∈ L.entries) : image.Starts e.offset := by
  have hlt : ∀ e ∈ L.entries, e.offset < image.tableOffset := fun e he ↦ by
    have := (h.divided.adjoin.bounds.2 e he).2
    have := e.offset_lt_next
    omega
  -- Along the lines: the first one starts an instruction, and so does the one behind each.
  have hall (es : List Entry) (start : Nat) (hadjoin : Adjoin start es image.code.size)
      (hsub : es ⊆ L.entries) (hstart : es ≠ [] → image.Starts start) :
      ∀ e ∈ es, image.Starts e.offset := by
    induction es generalizing start with
    | nil => simp
    | cons d es ih =>
      obtain ⟨rfl, hrest⟩ := hadjoin
      obtain ⟨hd, hes⟩ := List.cons_subset.1 hsub
      have hfirst := hstart (List.cons_ne_nil _ _)
      refine List.forall_mem_cons.2 ⟨hfirst, ih _ hrest hes fun hne ↦ ?_⟩
      refine .next hfirst (h.stands d hd) ?_
      obtain ⟨e, es', rfl⟩ := List.exists_cons_of_ne_nil hne
      exact hrest.1 ▸ hlt e (hes (List.mem_cons_self ..))
  refine hall L.entries _ h.divided.adjoin (fun _ ↦ id) (fun hne ↦ .first ?_) e he
  obtain ⟨hle, -⟩ := h.divided.adjoin.bounds.2 e he
  have := hlt e he
  omega

/-- Every instruction is a line. -/
theorem exists_entry_of_starts (h : image.Lists p L) (hsize : image.code.size = image.tableOffset)
    {offset : Nat} (hstarts : image.Starts offset) : ∃ e ∈ L.entries, e.offset = offset := by
  induction hstarts with
  | first hlt =>
    refine h.divided.adjoin.eq_or_exists_first.resolve_left ?_
    omega
  | @next offset next i _ hdecode hlt ih =>
    obtain ⟨e, he, rfl⟩ := ih
    have hstands := h.stands e he
    rw [Entry.Stands, hdecode] at hstands
    obtain ⟨rfl, rfl⟩ := Prod.mk.inj (Except.ok.inj hstands)
    refine (h.divided.adjoin.eq_or_exists_next he).resolve_left ?_
    omega

/-- Different functions have different names. -/
theorem eq_of_name_eq (h : image.Lists p L) (hnames : (image.functions.map Function.name).Nodup)
    {g g' : Located} (hg : g ∈ L.functions) (hg' : g' ∈ L.functions)
    (heq : g.head.name = g'.head.name) : g = g' := by
  rw [h.functions, List.map_cons, List.nodup_cons, List.map_map] at hnames
  refine List.inj_on_of_nodup_map hnames.2 hg hg' ?_
  simpa only [Function.comp_apply, Located.name_function] using heq

/-- The functions that the program defines are those of the listing. -/
theorem mem_defined (h : image.Lists p L) (hnames : (image.functions.map Function.name).Nodup)
    {f : Function} : f ∈ image.defined ↔ ∃ g ∈ L.functions, g.function = f := by
  rw [h.functions, List.map_cons, List.nodup_cons, List.mem_map] at hnames
  rw [Image.defined, List.mem_filter, h.functions, List.mem_cons, List.mem_map]
  constructor
  · rintro ⟨rfl | hmem, hmain⟩
    · simp [Function.main] at hmain
    · exact hmem
  · rintro ⟨g, hg, rfl⟩
    refine ⟨.inr ⟨g, hg, rfl⟩, bne_iff_ne.2 fun hmain ↦ ?_⟩
    exact hnames.1 ⟨g.function, List.mem_map_of_mem hg, hmain⟩

end Image.Lists

/-- An image together with what its compilation tells: a listing of its lines, and that its
functions have different names. -/
structure Image.Compiled (image : Image) (p : Program) (L : Listing) : Prop where
  lists : image.Lists p L
  valid : Stmt.validAll 0 .top p = true
  names : (image.functions.map Function.name).Nodup
  size_code : image.code.size = image.tableOffset

/-- The image of a program that was read can be listed. -/
theorem Program.exists_compiled {ts : Tokens} {p : Program} {stop : Span} {image : Image}
    (hp : Program.ofTokens ts = .ok p) (hassemble : p.assemble stop = .ok image) :
    ∃ L, image.Compiled p L := by
  obtain ⟨L, hL⟩ := Program.exists_lists hassemble
  obtain ⟨-, hvalid⟩ := Program.spelled_and_valid_of_ofTokens hp
  obtain ⟨c, hchecked⟩ := Program.exists_checkedAll_of_ofTokens hp
  obtain ⟨-, hnames⟩ := Program.load_of_assemble hvalid hchecked hassemble
  obtain ⟨himage, -⟩ := Program.assemble_eq_ok.1 hassemble
  refine ⟨L, hL, hvalid, hnames, ?_⟩
  rw [(Image.agrees_of_assemble p.tidy_draft himage).1, Image.bytes_of_assemble himage]

theorem exists_compiled_of_ofTokens {source : String} {ts : Tokens} {p : Program} {image : Image}
    (hts : Tokens.ofText source = .ok ts) (hp : Program.ofTokens ts = .ok p)
    (h : compile source = .ok image) : ∃ L, image.Compiled p L := by
  obtain ⟨p', hp', hassemble⟩ := exists_program_of_compileTokens (compileTokens_of_compile hts h)
  obtain rfl : p = p' := Except.ok.inj (hp.symm.trans hp')
  exact Program.exists_compiled hp hassemble

/-- So can the image of a text. -/
theorem exists_compiled_of_compile {source : String} {image : Image}
    (h : compile source = .ok image) : ∃ p L, image.Compiled p L := by
  obtain ⟨ts, h⟩ := exists_tokens_of_compile h
  obtain ⟨p, hp, hassemble⟩ := exists_program_of_compileTokens h
  exact ⟨p, Program.exists_compiled hp hassemble⟩

namespace Image.Compiled

variable {image : Image} {p : Program} {L : Listing} {g g' : Located} {e : Entry}

/-- The entry of a function in the table is where its body is listed. -/
theorem toNat_entry (h : image.Compiled p L) (hg : g ∈ L.functions) :
    g.function.entry.toNat = g.entry :=
  h.lists.toNat_entry h.valid hg

/-- The jump over a function is the line in front of it. -/
theorem skipsTo_iff (h : image.Compiled p L) (hg : g ∈ L.functions) {stop : Nat} :
    image.SkipsTo g.function stop ↔ stop = g.stop := by
  obtain ⟨e, he, hjump, hnext⟩ := h.lists.divided.skip g hg
  have hstands := h.lists.stands e he
  rw [Entry.Stands, hjump, hnext, ← h.toNat_entry hg] at hstands
  constructor
  · rintro ⟨start, hstart, hdecode⟩
    obtain ⟨e', he', rfl⟩ := h.lists.exists_entry_of_starts h.size_code hstart
    have hstands' := h.lists.stands e' he'
    rw [Entry.Stands, hdecode] at hstands'
    obtain ⟨hjump', hnext'⟩ := Prod.mk.inj (Except.ok.inj hstands')
    obtain rfl : e = e' :=
      h.lists.divided.adjoin.eq_of_next_eq he he' (by rw [hnext, ← hnext', h.toNat_entry hg])
    rw [hjump] at hjump'
    exact Instr.jump.inj hjump'
  · rintro rfl
    exact ⟨e.offset, h.lists.starts_offset h.size_code he, hstands⟩

/-- The jump in front of a function tells where its body ends. -/
theorem covers_iff (h : image.Compiled p L) (hg : g ∈ L.functions) {offset : Nat} :
    image.Covers g.function offset ↔ g.Covers offset := by
  simp only [Image.Covers, h.skipsTo_iff hg, h.toNat_entry hg, exists_eq_left, Located.Covers]

/-- A function is nested in another one if its body is a part of the other body. -/
theorem isNested_iff (h : image.Compiled p L) (hg : g ∈ L.functions) (hg' : g' ∈ L.functions) :
    image.IsNested g'.function g.function ↔
      g'.function ≠ g.function ∧ g.entry ≤ g'.entry ∧ g'.stop ≤ g.stop := by
  simp only [Image.IsNested, h.skipsTo_iff hg, h.skipsTo_iff hg', h.toNat_entry hg,
    h.toNat_entry hg', exists_eq_left, exists_and_left]

/-- **A line is owned by the function that its note names.** -/
theorem owns_offset (h : image.Compiled p L) (he : e ∈ L.entries) (hg : g ∈ L.functions)
    (howner : e.point.owner = some g.head) : image.Owns (some g.function) e.offset := by
  rcases h.lists.divided.belongs e he with ⟨hnone, -⟩ | ⟨g₀, hg₀, howner₀, hcovers, hinner⟩
  · rw [howner] at hnone
    cases hnone
  obtain rfl : g₀ = g := by
    refine h.lists.eq_of_name_eq h.names hg₀ hg ?_
    rw [Option.some.inj (howner₀.symm.trans howner)]
  refine ⟨(h.covers_iff hg).2 hcovers, fun f hf hnested hcovers' ↦ ?_⟩
  obtain ⟨g', hg', rfl⟩ := (h.lists.mem_defined h.names).1 hf
  obtain ⟨hne, hle, -⟩ := (h.isNested_iff hg hg').1 hnested
  -- Of the stretches around a line, all but the innermost one start before it.
  rcases hinner g' hg' ((h.covers_iff hg').1 hcovers') with rfl | ⟨hlt, -⟩
  · exact hne rfl
  · omega

/-- A line outside all functions is owned by the program itself. -/
theorem owns_offset_none (h : image.Compiled p L) (he : e ∈ L.entries)
    (howner : e.point.owner = none) : image.Owns none e.offset := by
  rcases h.lists.divided.belongs e he with ⟨-, hnone⟩ | ⟨g₀, -, howner₀, -⟩
  · intro f hf hcovers
    obtain ⟨g, hg, rfl⟩ := (h.lists.mem_defined h.names).1 hf
    exact hnone g hg ((h.covers_iff hg).1 hcovers)
  · rw [howner] at howner₀
    cases howner₀

end Image.Compiled

/-! ### The owners of frames -/

namespace Machine

variable (m : Machine)

/-- The owners of the frames, the innermost one first, behind an instruction. A call of a function
adds that function. A tail call puts it in place of the innermost owner, unless no call waits. A
return takes the innermost owner away. -/
def ownersBehind (i : Instr) (isAlone : Bool) (owners : List (Option Function)) :
    List (Option Function) :=
  match i with
  | .call name _ =>
    match m.find? name with
    | some f => some f :: owners
    | none => owners
  | .tailCall name _ =>
    match m.find? name with
    | some f => some f :: if isAlone then owners else owners.tail
    | none => owners
  | .ret | .retVoid => owners.tail
  | _ => owners

/-- The owners of the frames after at most so many steps. -/
def ownersFor : (count : Nat) → State → List (Option Function) → List (Option Function)
  | 0, _, owners => owners
  | count + 1, s, owners =>
    match m.step s, Instr.decode m.code s.ip with
    | .running s', .ok (i, _) => ownersFor count s' (m.ownersBehind i s.callers.isEmpty owners)
    | _, _ => owners

variable {m : Machine} {i : Instr} {isAlone : Bool} {owners : List (Option Function)}

/-- An instruction that neither calls a function of the program nor returns keeps the owners. -/
theorem ownersBehind_of_callee_none (hcallee : m.callee? i = none) (hreturn : i.isReturn = false) :
    m.ownersBehind i isAlone owners = owners := by
  cases i with
  | call name count | tailCall name count =>
    simp only [callee?] at hcallee
    simp only [ownersBehind, hcallee]
  | ret | retVoid => cases hreturn
  | _ => rfl

/-- A call adds its owner, in place of the innermost one if it is a last call. -/
theorem ownersBehind_of_callee {f : Function} (hcallee : m.callee? i = some f) :
    m.ownersBehind i isAlone owners =
      some f :: if i.leaves && !isAlone then owners.tail else owners := by
  cases i with
  | call name count =>
    simp only [callee?] at hcallee
    simp [ownersBehind, hcallee, Instr.leaves]
  | tailCall name count =>
    simp only [callee?] at hcallee
    cases isAlone <;> simp [ownersBehind, hcallee, Instr.leaves]
  | _ => cases hcallee

theorem ownersBehind_of_isReturn (hreturn : i.isReturn = true) :
    m.ownersBehind i isAlone owners = owners.tail := by
  cases i with
  | ret | retVoid => rfl
  | _ => cases hreturn

end Machine

/-! ### Runs -/

/-- The frames have their owners: each goes on at a line that its owner owns, and only the outermost
one is that of the program itself. -/
inductive Listing.Frames (L : Listing) (Marks : Nat → Point → Prop) :
    (offset : Nat) → List Waiting → List (Option Function) → Prop where
  | top {offset : Nat} {q : Point} (hnotes : Marks offset q) (howner : q.owner = none) :
      Frames L Marks offset [] [none]
  | inner {offset : Nat} {q : Point} {g : Located} {w : Waiting} {ws : List Waiting}
      {owners : List (Option Function)} (hnotes : Marks offset q) (hg : g ∈ L.functions)
      (howner : q.owner = some g.head) (rest : Frames L Marks w.resume ws owners) :
      Frames L Marks offset (w :: ws) (some g.function :: owners)

namespace Listing.Frames

variable {L : Listing} {Marks : Nat → Point → Prop} {offset offset' : Nat} {ws : List Waiting}
  {owners : List (Option Function)}

/-- There is one owner for each frame. -/
theorem length_eq (h : L.Frames Marks offset ws owners) : owners.length = ws.length + 1 := by
  induction h with
  | top => rfl
  | inner _ _ _ _ ih => simp only [List.length_cons, ih]

/-- The outermost frame belongs to no function. -/
theorem getLast?_eq (h : L.Frames Marks offset ws owners) : owners.getLast? = some none := by
  induction h with
  | top => rfl
  | inner _ _ _ rest ih => rw [List.getLast?_cons, ih, Option.getD_some]

/-- The innermost frame is at some noted line. It may go on at any other line of the same owner. -/
theorem exists_notes (h : L.Frames Marks offset ws owners) :
    ∃ q, Marks offset q ∧ ∀ {offset' : Nat} {q' : Point}, Marks offset' q' → q'.owner = q.owner →
      L.Frames Marks offset' ws owners := by
  cases h with
  | top hnotes howner => exact ⟨_, hnotes, fun h hq ↦ .top h (hq.trans howner)⟩
  | inner hnotes hg howner rest =>
    exact ⟨_, hnotes, fun h hq ↦ .inner h hg (hq.trans howner) rest⟩

end Listing.Frames

namespace Image.Compiled

variable {image : Image} {p : Program} {L : Listing} {table : Table} {limits : Limits}
  {o o' : Outline} {owners : List (Option Function)}

/-- Where an instruction was read, a note is one beside a line, and not the one at the end. -/
theorem exists_entry (h : image.Compiled p L) {offset next : Nat} {q : Point} {i : Instr}
    (hnotes : h.lists.Notes offset q) (hlt : offset < image.code.size)
    (hdecode : Instr.decode image.code offset = .ok (i, next)) :
    ∃ e ∈ L.entries, e.offset = offset ∧ e.instr = i ∧ e.point = q := by
  rcases hnotes with ⟨e, he, rfl, hpoint⟩ | ⟨heq, -⟩
  · have hstands := h.lists.stands e he
    rw [Entry.Stands, hdecode] at hstands
    exact ⟨e, he, rfl, (Prod.mk.inj (Except.ok.inj hstands)).1.symm, hpoint⟩
  · exact absurd heq (Nat.ne_of_lt hlt)

/-- A function starts at a line of its own. -/
theorem frames_entry (h : image.Compiled p L) {f : Function} {i : Instr}
    (hcallee : (Machine.ofImage image table limits).callee? i = some f) {w : Waiting}
    {ws : List Waiting} (rest : L.Frames h.lists.Notes w.resume ws owners) :
    L.Frames h.lists.Notes f.entry.toNat (w :: ws) (some f :: owners) := by
  obtain ⟨name, hf⟩ : ∃ name, (Machine.ofImage image table limits).find? name = some f := by
    cases i with
    | call name count | tailCall name count => exact ⟨name, hcallee⟩
    | _ => cases hcallee
  obtain ⟨g, hg, rfl⟩ := h.lists.exists_located hf
  have hentry := (h.lists.sound h.valid).2.functions g hg
  rw [h.toNat_entry hg]
  exact .inner hentry hg rfl rest

/-- **One step keeps the owners right.** -/
theorem frames_moves (h : image.Compiled p L) {i : Instr} {next : Nat}
    (hframes : L.Frames h.lists.Notes o.ip o.callers owners) (hlt : o.ip < image.code.size)
    (hdecode : Instr.decode image.code o.ip = .ok (i, next))
    (hmoves : (Machine.ofImage image table limits).Moves i { o with ip := next } o') :
    L.Frames h.lists.Notes o'.ip o'.callers
      ((Machine.ofImage image table limits).ownersBehind i o.callers.isEmpty owners) := by
  obtain ⟨q, hnotes, hgoesOn⟩ := hframes.exists_notes
  obtain ⟨i', hstands, hsound⟩ := (h.lists.noted h.valid table limits).line hnotes hlt
  obtain ⟨rfl, rfl⟩ := Prod.mk.inj (Except.ok.inj (hdecode.symm.trans hstands))
  cases hmoves with
  | goesOn hcallee hreturn hip hcallers =>
    rw [Machine.ownersBehind_of_callee_none hcallee hreturn, hcallers]
    rcases hip with ⟨hfalls, hip⟩ | htarget
    · rw [hip]
      exact hgoesOn (hsound.next hfalls) rfl
    · exact hgoesOn (hsound.target _ htarget) rfl
  | enters hcallee hcallers =>
    -- The frame that waits goes on behind the call.
    have hfalls : i.fallsThrough = true := by
      cases i with
      | call name count | tailCall name count => rfl
      | _ => cases hcallee
    have hwaits := hgoesOn (hsound.next hfalls) rfl
    have halone : (i.leaves && !o.callers.isEmpty) = false := by
      rcases hleaves : i.leaves with - | -
      · rfl
      · have hnil : o.callers = [] := hcallers hleaves
        rw [hnil]
        rfl
    rw [Machine.ownersBehind_of_callee hcallee, halone]
    exact h.frames_entry hcallee hwaits
  | replaced hcallee hleaves hcallers =>
    have hnotAlone : (i.leaves && !o.callers.isEmpty) = true := by
      rw [hleaves]
      exact congrArg (!·) (List.isEmpty_eq_false_iff.2 hcallers)
    rw [Machine.ownersBehind_of_callee hcallee, hnotAlone]
    simp only at hcallers ⊢
    generalize o.callers = ws at hframes hcallers
    cases hframes with
    | top => exact absurd rfl hcallers
    | inner _ _ _ rest => exact h.frames_entry hcallee rest
  | givesBack hreturn hcallers =>
    rw [Machine.ownersBehind_of_isReturn hreturn]
    simp only at hcallers
    rw [hcallers] at hframes
    cases hframes with
    | inner _ _ _ rest => exact rest

/-- Before the first step, only the program itself has a frame. -/
theorem frames_start (h : image.Compiled p L) :
    L.Frames h.lists.Notes (Machine.ofImage image table limits).outlineStart.ip []
      [none] :=
  .top (h.lists.noted h.valid table limits).entry rfl

/-- **A run keeps the owners right.** -/
theorem frames_runFor (h : image.Compiled p L) {s s' : State} (hout : s.Outlined o)
    (hframes : L.Frames h.lists.Notes o.ip o.callers owners) {count : Nat}
    (hrun : (Machine.ofImage image table limits).runFor count s = .running s') :
    ∃ o', s'.Outlined o' ∧ L.Frames h.lists.Notes o'.ip o'.callers
      ((Machine.ofImage image table limits).ownersFor count s owners) := by
  induction count generalizing s o owners with
  | zero =>
    cases hrun
    exact ⟨o, hout, hframes⟩
  | succ count ih =>
    obtain ⟨s₁, hstep, hrest⟩ := Machine.exists_step_of_runFor hrun
    obtain ⟨o₁, hout₁, hstep'⟩ := Machine.exists_outlineStep_of_step hout hstep
    obtain ⟨i, next, hlt, hdecode, hmoves⟩ := Machine.exists_moves_of_outlineStep hstep'
    have hframes₁ := h.frames_moves hframes hlt hdecode hmoves
    rw [← hout.isEmpty_callers] at hframes₁
    rw [Machine.ownersFor, hstep, hout.ip, hdecode]
    exact ih hout₁ hframes₁ hrest

end Image.Compiled

/-- **Control stays in its function.** Take a compiled program, any host and any limits, and the
owners that its calls and returns give to the frames. Each function is jumped over to one offset.
After any number of steps the run is at the end of the code and only the frame of the program itself
is left, or it is at the start of an instruction that the owner of the innermost frame owns. -/
theorem starts_ip_and_owns_ip_of_compile {source : String} {image : Image}
    (h : compile source = .ok image) (table : Table) (limits : Limits) (count : Nat) {s : State}
    (hrun : (Machine.ofImage image table limits).runFor count
      (Machine.ofImage image table limits).start = .running s) :
    (∀ f ∈ image.defined, ∃! stop, image.SkipsTo f stop) ∧ ∃ owner rest,
      (Machine.ofImage image table limits).ownersFor count
        (Machine.ofImage image table limits).start [none] = owner :: rest ∧
      rest.length = s.callers.size ∧ (owner :: rest).getLast? = some none ∧
      (s.ip = image.tableOffset ∧ s.callers = #[] ∨ image.Starts s.ip ∧ image.Owns owner s.ip) := by
  obtain ⟨p, L, hc⟩ := exists_compiled_of_compile h
  refine ⟨fun f hf ↦ ?_, ?_⟩
  · obtain ⟨g, hg, rfl⟩ := (hc.lists.mem_defined hc.names).1 hf
    exact ⟨g.stop, (hc.skipsTo_iff hg).2 rfl, fun stop hstop ↦ (hc.skipsTo_iff hg).1 hstop⟩
  obtain ⟨o, hout, hframes⟩ := hc.frames_runFor (Machine.start_outlined _) hc.frames_start hrun
  have hlength := hframes.length_eq
  have hlast := hframes.getLast?_eq
  rw [← hout.size_callers] at hlength
  rw [hout.ip]
  -- Behind the last line, only the program itself can go on.
  have hend {q : Point} (hnotes : hc.lists.Notes o.ip q)
      (hno : ¬∃ e ∈ L.entries, e.offset = o.ip ∧ e.point = q) :
      o.ip = image.tableOffset ∧ q.owner = none := by
    obtain ⟨hip, rfl⟩ := hnotes.resolve_left hno
    exact ⟨hip.trans hc.size_code, (Spot.top.tail_blocks_afterAll p).2.2⟩
  generalize (Machine.ofImage image table limits).ownersFor count
    (Machine.ofImage image table limits).start [none] = owners at hframes hlength hlast ⊢
  generalize hws : o.callers = ws at hframes
  generalize hip : o.ip = ip at hframes hend ⊢
  cases hframes with
  | @top _ q hnotes howner =>
    have hcallers : s.callers = #[] := by
      rw [← Array.size_eq_zero_iff, hout.size_callers, hws]
      rfl
    refine ⟨none, [], rfl, by simp [hcallers], rfl, ?_⟩
    by_cases hline : ∃ e ∈ L.entries, e.offset = ip ∧ e.point = q
    · obtain ⟨e, he, rfl, rfl⟩ := hline
      exact .inr ⟨hc.lists.starts_offset hc.size_code he, hc.owns_offset_none he howner⟩
    · exact .inl ⟨(hend hnotes hline).1, hcallers⟩
  | @inner _ q g _ _ owners hnotes hg howner =>
    refine ⟨some g.function, owners, rfl, Nat.succ.inj hlength, hlast, .inr ?_⟩
    by_cases hline : ∃ e ∈ L.entries, e.offset = ip ∧ e.point = q
    · obtain ⟨e, he, rfl, rfl⟩ := hline
      exact ⟨hc.lists.starts_offset hc.size_code he, hc.owns_offset he hg howner⟩
    · rw [(hend hnotes hline).2] at howner
      cases howner

/-- A function with another one nested in it that calls it back in its own place. Both bodies end in
a `return`, so no instruction keeps them apart from the code behind them. -/
def callsBack : String :=
  "func outer(n) \x7b func tail inner(k) \x7b if (k) \x7b return outer(k - 1); \x7d return k; \x7d " ++
    "return 1 + inner(n); \x7d outer(1);"

/-- After 22 steps the nested function has been called, and has called back; two calls wait. -/
theorem starts_ip_and_owns_ip_callsBack :
    ∃ image s, compile callsBack = .ok image ∧
      (Machine.ofImage image .empty {}).runFor 22 (Machine.ofImage image .empty {}).start =
        .running s ∧ s.callers.size = 2 ∧
      (∀ f ∈ image.defined, ∃! stop, image.SkipsTo f stop) ∧ ∃ owner rest,
        (Machine.ofImage image .empty {}).ownersFor 22
          (Machine.ofImage image .empty {}).start [none] = owner :: rest ∧
        rest.length = s.callers.size ∧ (owner :: rest).getLast? = some none ∧
        (s.ip = image.tableOffset ∧ s.callers = #[] ∨
          image.Starts s.ip ∧ image.Owns owner s.ip) := by
  have hruns : testRun callsBack {} 22 (fun _ r ↦ r.runsTo (·.callers.size == 2)) = true := by
    decide +kernel
  obtain ⟨_, _, image, -, -, h, hruns⟩ := exists_of_testRun hruns
  obtain ⟨s, hrun, hsize⟩ := Machine.Progress.exists_of_runsTo hruns
  exact ⟨image, s, h, hrun, eq_of_beq hsize, starts_ip_and_owns_ip_of_compile h .empty {} 22 hrun⟩

end Scriptlet
