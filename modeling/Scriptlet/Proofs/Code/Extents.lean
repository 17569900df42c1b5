import Scriptlet.Proofs.Code.Assembly
import Scriptlet.Proofs.Code.Checks

/-!
# Which function a line belongs to

The lines of a listing follow each other without a gap, so no two of them have the same offset. The
code of a function is one stretch of them, which the line before it jumps over; the stretches of two
functions are **nested or apart**. A line belongs to the function whose stretch is the innermost one
around it, and to the code around all of them if there is none.
-/

namespace Scriptlet

/-! ### Lines without a gap -/

/-- Lines follow each other from one offset to another. -/
def Adjoin : (start : Nat) → List Entry → (stop : Nat) → Prop
  | start, [], stop => start = stop
  | start, e :: es, stop => e.offset = start ∧ Adjoin e.next es stop

namespace Adjoin

variable {start mid stop : Nat} {es es' : List Entry} {e e' : Entry}

/-- Lines that meet follow each other. -/
theorem append (h : Adjoin start es mid) (h' : Adjoin mid es' stop) :
    Adjoin start (es ++ es') stop := by
  induction es generalizing start with
  | nil =>
    obtain rfl : start = mid := h
    exact h'
  | cons e es ih => exact ⟨h.1, ih h.2⟩

/-- Instructions in a row have lines that follow each other. -/
theorem entriesOf (start : Nat) (p : Point) (is : List Instr) :
    Adjoin start (Scriptlet.entriesOf start p is) (start + Instr.size is) := by
  induction is generalizing start p with
  | nil => rfl
  | cons i is ih =>
    rw [Instr.size_cons, ← Nat.add_assoc]
    exact ⟨rfl, ih _ _⟩

/-- Lines stand between the two offsets. -/
theorem bounds (h : Adjoin start es stop) :
    start ≤ stop ∧ ∀ e ∈ es, start ≤ e.offset ∧ e.next ≤ stop := by
  induction es generalizing start with
  | nil =>
    obtain rfl : start = stop := h
    exact ⟨Nat.le_refl _, by simp⟩
  | cons e es ih =>
    obtain ⟨rfl, hrest⟩ := h
    obtain ⟨hle, hes⟩ := ih hrest
    have hnext : e.offset ≤ e.next := Nat.le_add_right _ _
    refine ⟨Nat.le_trans hnext hle, List.forall_mem_cons.2 ⟨⟨Nat.le_refl _, hle⟩, fun e' he' ↦ ?_⟩⟩
    exact ⟨Nat.le_trans hnext (hes e' he').1, (hes e' he').2⟩

end Adjoin

theorem Entry.offset_lt_next (e : Entry) : e.offset < e.next :=
  Nat.lt_add_of_pos_right e.instr.width_pos

/-- No two lines have the same offset. -/
theorem Adjoin.eq_of_offset_eq {start stop : Nat} {es : List Entry} {e e' : Entry}
    (h : Adjoin start es stop) (he : e ∈ es) (he' : e' ∈ es) (heq : e.offset = e'.offset) :
    e = e' := by
  induction es generalizing start with
  | nil => cases he
  | cons d es ih =>
    -- All lines behind the first one have larger offsets.
    have hlater (a : Entry) (ha : a ∈ es) : d.offset < a.offset :=
      Nat.lt_of_lt_of_le d.offset_lt_next ((h.2.bounds).2 a ha).1
    rcases List.mem_cons.1 he with rfl | hmem <;> rcases List.mem_cons.1 he' with rfl | hmem'
    · rfl
    · have := hlater e' hmem'
      omega
    · have := hlater e hmem
      omega
    · exact ih h.2 hmem hmem'

/-! ### Stretches of functions -/

/-- The offset lies in the stretch of a function. -/
def Located.Covers (g : Located) (offset : Nat) : Prop :=
  g.entry ≤ offset ∧ offset < g.stop

/-- A line belongs to the innermost of the functions that cover it, or to the code around them. -/
def Listing.BelongsTo (L : Listing) (outer : Option Head) (e : Entry) : Prop :=
  e.point.owner = outer ∧ (∀ g ∈ L.functions, ¬g.Covers e.offset) ∨
  ∃ g ∈ L.functions, e.point.owner = some g.head ∧ g.Covers e.offset ∧
    ∀ g' ∈ L.functions, g'.Covers e.offset → g' = g ∨ g'.entry < g.entry ∧ g.stop ≤ g'.stop

/-- Lines without a gap are divided among the functions and the code around them. -/
structure Listing.Divided (L : Listing) (outer : Option Head) (start stop : Nat) : Prop where
  adjoin : Adjoin start L.entries stop
  extent : ∀ g ∈ L.functions, start < g.entry ∧ g.entry ≤ g.stop ∧ g.stop ≤ stop
  skip : ∀ g ∈ L.functions, ∃ e ∈ L.entries, e.instr = .jump g.stop ∧ e.next = g.entry
  belongs : ∀ e ∈ L.entries, L.BelongsTo outer e

namespace Listing

variable {L L' : Listing} {outer : Option Head} {start mid stop : Nat}

theorem append_assoc (L₁ L₂ L₃ : Listing) : L₁ ++ L₂ ++ L₃ = L₁ ++ (L₂ ++ L₃) := by
  show Listing.mk _ _ = Listing.mk _ _
  simp only [entries_append, functions_append, List.append_assoc]

/-- Functions elsewhere do not change which one a line belongs to. -/
theorem BelongsTo.mono {e : Entry} (h : L.BelongsTo outer e)
    (hsub : ∀ g ∈ L.functions, g ∈ L'.functions)
    (hnew : ∀ g ∈ L'.functions, g.Covers e.offset → g ∈ L.functions) : L'.BelongsTo outer e := by
  rcases h with ⟨howner, hnone⟩ | ⟨g, hg, howner, hcovers, hinner⟩
  · exact .inl ⟨howner, fun g hg hcovers ↦ hnone g (hnew g hg hcovers) hcovers⟩
  · exact .inr ⟨g, hsub g hg, howner, hcovers, fun g' hg' hcovers' ↦
      hinner g' (hnew g' hg' hcovers') hcovers'⟩

namespace Divided

/-- Two stretches that meet are divided together: no function of the one covers a line of the
other. -/
theorem append (h : L.Divided outer start mid) (h' : L'.Divided outer mid stop) :
    (L ++ L').Divided outer start stop := by
  obtain ⟨hle, hlines⟩ := h.adjoin.bounds
  obtain ⟨hle', hlines'⟩ := h'.adjoin.bounds
  refine ⟨h.adjoin.append h'.adjoin, List.forall_mem_append.2 ⟨fun g hg ↦ ?_, fun g hg ↦ ?_⟩,
    List.forall_mem_append.2 ⟨fun g hg ↦ ?_, fun g hg ↦ ?_⟩,
    List.forall_mem_append.2 ⟨fun e he ↦ ?_, fun e he ↦ ?_⟩⟩
  · have := h.extent g hg
    omega
  · have := h'.extent g hg
    omega
  · obtain ⟨e, he, hskip⟩ := h.skip g hg
    exact ⟨e, List.mem_append_left _ he, hskip⟩
  · obtain ⟨e, he, hskip⟩ := h'.skip g hg
    exact ⟨e, List.mem_append_right _ he, hskip⟩
  -- A line before the middle is not covered by a function behind it, and the other way round.
  · refine (h.belongs e he).mono (fun g hg ↦ List.mem_append_left _ hg) fun g hg hcovers ↦ ?_
    refine (List.mem_append.1 hg).resolve_right fun hg ↦ ?_
    have := h'.extent g hg
    have := hlines e he
    have := e.offset_lt_next
    have := hcovers.1
    omega
  · refine (h'.belongs e he).mono (fun g hg ↦ List.mem_append_right _ hg) fun g hg hcovers ↦ ?_
    refine (List.mem_append.1 hg).resolve_left fun hg ↦ ?_
    have := h.extent g hg
    have := hlines' e he
    have := hcovers.2
    omega

theorem empty : Listing.empty.Divided outer start start :=
  ⟨rfl, by simp [Listing.empty], by simp [Listing.empty], by simp [Listing.empty]⟩

/-- Lines in a row belong to the code around all functions. -/
theorem line (spot : Spot) (howner : spot.owner = outer) (start : Nat) (is : List Instr) :
    (spot.line start is).Divided outer start (start + Instr.size is) := by
  have howners (p : Point) (hp : p.owner = outer) (start : Nat) :
      ∀ e ∈ entriesOf start p is, e.point.owner = outer := by
    induction is generalizing start p with
    | nil => simp [entriesOf]
    | cons i is ih => exact List.forall_mem_cons.2 ⟨hp, ih (p.after i) hp _⟩
  refine ⟨.entriesOf .., by simp [Spot.line], by simp [Spot.line], fun e he ↦ ?_⟩
  exact .inl ⟨howners spot.point howner start e he, by simp [Spot.line]⟩

/-- A function is one stretch, behind the jump over it. -/
theorem function {head : Head} {body : List Stmt} (spot : Spot) (howner : spot.owner = outer)
    (hmid : mid = start + Instr.size [.jump stop]) (h : L.Divided (some head) mid stop) :
    (spot.line start [.jump stop] ++ ⟨[], [⟨head, body, mid, stop⟩]⟩ ++ L).Divided outer
      start stop := by
  obtain ⟨hle, hlines⟩ := h.adjoin.bounds
  have hjump := line spot howner start [.jump stop]
  have hlt : start < mid := by
    rw [hmid]
    exact Nat.lt_add_of_pos_right (Instr.width_pos _)
  have hfunctions : (spot.line start [.jump stop] ++
      ⟨[], [⟨head, body, mid, stop⟩]⟩ ++ L).functions =
        ⟨head, body, mid, stop⟩ :: L.functions := rfl
  have hentries : (spot.line start [.jump stop] ++
      ⟨[], [⟨head, body, mid, stop⟩]⟩ ++ L).entries =
        ⟨start, .jump stop, spot.point⟩ :: L.entries := rfl
  -- The function is the first of the list, and its stretch is all that stands behind the jump.
  refine ⟨?_, ?_, ?_, ?_⟩
  · rw [hentries]
    refine ⟨rfl, ?_⟩
    have hnext : Entry.next ⟨start, .jump stop, spot.point⟩ = mid := by
      rw [hmid, Instr.size_cons, Instr.size_nil]
      rfl
    rw [hnext]
    exact h.adjoin
  · rw [hfunctions, List.forall_mem_cons]
    refine ⟨⟨hlt, hle, Nat.le_refl _⟩, fun g hg ↦ ?_⟩
    have := h.extent g hg
    omega
  · rw [hfunctions, hentries, List.forall_mem_cons]
    refine ⟨⟨_, List.mem_cons_self .., rfl, ?_⟩, fun g hg ↦ ?_⟩
    · rw [hmid, Instr.size_cons, Instr.size_nil]
      rfl
    · obtain ⟨e, he, hskip⟩ := h.skip g hg
      exact ⟨e, List.mem_cons_of_mem _ he, hskip⟩
  · rw [hentries, List.forall_mem_cons]
    refine ⟨.inl ⟨howner, ?_⟩, fun e he ↦ .inr ?_⟩
    · -- The jump stands before all stretches.
      rw [hfunctions, List.forall_mem_cons]
      refine ⟨fun hcovers ↦ ?_, fun g hg hcovers ↦ ?_⟩
      · have := hcovers.1
        simp only at this
        omega
      · have := h.extent g hg
        have := hcovers.1
        simp only at this
        omega
    · -- The stretch of the function covers all of its body, and every stretch in it is smaller.
      have hline := hlines e he
      have hwidth := e.offset_lt_next
      rw [hfunctions]
      rcases h.belongs e he with ⟨howner', hnone⟩ | ⟨g, hg, howner', hcovers, hinner⟩
      · refine ⟨_, List.mem_cons_self .., howner', ⟨hline.1, by simp only; omega⟩, ?_⟩
        rw [List.forall_mem_cons]
        exact ⟨fun _ ↦ .inl rfl, fun g' hg' hcovers' ↦ absurd hcovers' (hnone g' hg')⟩
      · refine ⟨g, List.mem_cons_of_mem _ hg, howner', hcovers, ?_⟩
        rw [List.forall_mem_cons]
        have := h.extent g hg
        exact ⟨fun _ ↦ .inr ⟨by simp only; omega, by simp only; omega⟩, hinner⟩

end Divided

end Listing

mutual

/-- The lines of a statement are divided among the functions in it and the code around them. -/
theorem Stmt.Listed.divided {spot : Spot} {s : Stmt} {start stop : Nat} {L : Listing} :
    s.Listed spot start stop L → L.Divided spot.owner start stop
  | .flat _ => .line spot rfl ..
  | @Stmt.Listed.ifElse _ _ body _ _ _ _ _ _ _ _ hp hbody hnext hotherwise => by
    subst hp hnext
    -- Conditions, loops and blocks belong to the body that they stand in.
    obtain ⟨-, -, howner⟩ := spot.afterAll_inBlock body
    exact (((Listing.Divided.line spot rfl ..).append hbody.divided).append
      (.line _ howner ..)).append hotherwise.divided
  | @Stmt.Listed.whileLoop _ c body _ p q _ L₁ hp hbody hstop => by
    obtain ⟨-, -, howner⟩ := (spot.inLoop start stop).afterAll_inBlock body
    have htest := Listing.Divided.line spot rfl start (c.code ++ [.jumpIfFalse stop, .enterScope])
    have hskip := Listing.Divided.line _ howner q [.exitScope, .jump start]
    rw [← hp] at htest
    rw [← hstop] at hskip
    exact (htest.append hbody.divided).append hskip
  | @Stmt.Listed.function _ head body _ p q _ L₁ hp hbody hstop => by
    obtain ⟨-, -, howner⟩ := (Spot.body head).tail_blocks_afterAll body
    have hclosing := Listing.Divided.line _ howner q (head.closing body)
    rw [← hstop] at hclosing
    rw [Listing.append_assoc]
    exact .function spot rfl hp (hbody.divided.append hclosing)
  | @Stmt.Listed.block _ body _ _ _ hbody => by
    obtain ⟨-, -, howner⟩ := spot.afterAll_inBlock body
    exact ((Listing.Divided.line spot rfl ..).append hbody.divided).append (.line _ howner ..)

/-- **The lines of statements are divided among their functions and the code around them.** -/
theorem Stmt.ListedAll.divided {spot : Spot} {ss : List Stmt} {start stop : Nat} {L : Listing} :
    Stmt.ListedAll spot ss start stop L → L.Divided spot.owner start stop
  | .nil => .empty
  | @Stmt.ListedAll.cons _ s _ _ _ _ _ _ h hs => by
    have howner : (spot.after s).owner = spot.owner := by
      cases s <;> rfl
    exact h.divided.append (howner ▸ hs.divided)

end

/-- The lines of an image are divided among the functions and the program itself. -/
theorem Image.Lists.divided {image : Image} {p : Program} {L : Listing} (h : image.Lists p L) :
    L.Divided none headerSize image.code.size :=
  h.listed.divided

end Scriptlet
