import Mathlib.Data.List.Induction
import Scriptlet.Proofs.Code.Assembly

/-!
# Jumps are patched

A buffer is made by edits: labels are made and bound, bytes and jumps are added, and now and then
all sites are resolved, whether that works or not. Two things are true of every such buffer, and are
kept by every edit.

* Bytes that no site waits for are **settled**: no later edit and no assembly changes them
  (`Buffer.Fixed`).
* Sites lie one behind the other and hold zeros (`Buffer.Neat`), so patching one leaves the others.

So the operand of a jump is written once, when its site is resolved. But resolving takes all sites
and stops at the first label that is not bound, and the sites from there on are **lost**: their
zeros are settled, and the buffer can be assembled nevertheless.
-/

namespace Scriptlet

open Code (Spells)

/-- One step in the making of code. -/
inductive Edit where
  | newLabel
  | bind (l : Label)
  | op (op : Opcode)
  | byte (n : UInt8)
  | word (n : UInt64)
  | int (n : Int64)
  | float (x : Float)
  | text (s : String)
  | jump (op : Opcode) (l : Label)
  | resolve

/-- The bytes that an edit adds for good. The operand of a jump is not among them. -/
def Edit.bytes : Edit → List UInt8
  | newLabel | bind _ | resolve => []
  | op o | jump o _ => [o.byte]
  | byte n => [n]
  | word n => Code.word n.toNat
  | int n => Code.word n.toUInt64.toNat
  | float x => Code.word x.toBits.toNat
  | text s => Code.sized s

/-- The number of bytes that an edit adds. -/
def Edit.width : Edit → Nat
  | jump _ _ => 9
  | e => e.bytes.length

namespace Buffer

/-- A buffer after an edit. -/
def edit (b : Buffer) : Edit → Buffer
  | .newLabel => b.newLabel.2
  | .bind l => b.bind l
  | .op op => b.op op
  | .byte n => b.byte n
  | .word n => b.word n
  | .int n => b.int n
  | .float x => b.float x
  | .text s => b.text s
  | .jump op l => b.jump op l
  | .resolve => b.resolve.2

/-- A buffer after some edits. -/
def editAll (b : Buffer) (es : List Edit) : Buffer :=
  es.foldl edit b

/-- The buffer that edits make. -/
def made (es : List Edit) : Buffer :=
  new.editAll es

theorem editAll_append (b : Buffer) (es es' : List Edit) :
    b.editAll (es ++ es') = (b.editAll es).editAll es' :=
  List.foldl_append

theorem made_append (es es' : List Edit) : made (es ++ es') = (made es).editAll es' :=
  editAll_append ..

theorem made_snoc (es : List Edit) (e : Edit) : made (es ++ [e]) = (made es).edit e :=
  made_append ..

/-! ### Patching sites -/

section Patch

variable {sites : List Site} {b : Buffer}

theorem labels_patch (b : Buffer) (offset n : Nat) : (b.patch offset n).labels = b.labels := by
  rw [patch]

theorem sites_patch (b : Buffer) (offset n : Nat) : (b.patch offset n).sites = b.sites := by
  rw [patch]

theorem target?_patch (b : Buffer) (offset n : Nat) (l : Label) :
    (b.patch offset n).target? l = b.target? l := by
  rw [target?, target?, labels_patch]

/-- Patching binds no label. -/
@[simp]
theorem labels_patchSites (sites : List Site) (b : Buffer) :
    (patchSites sites b).2.labels = b.labels := by
  induction sites generalizing b with
  | nil => rfl
  | cons s sites ih =>
    rw [patchSites]
    rcases b.target? s.label with - | target
    · rfl
    · exact (ih (b.patch s.offset target)).trans (labels_patch ..)

/-- Patching adds no site. -/
@[simp]
theorem sites_patchSites (sites : List Site) (b : Buffer) :
    (patchSites sites b).2.sites = b.sites := by
  induction sites generalizing b with
  | nil => rfl
  | cons s sites ih =>
    rw [patchSites]
    rcases b.target? s.label with - | target
    · rfl
    · exact (ih (b.patch s.offset target)).trans (sites_patch ..)

/-- Patching writes over bytes that are there. -/
@[simp]
theorem size_patchSites (sites : List Site) (b : Buffer) :
    (patchSites sites b).2.size = b.size := by
  induction sites generalizing b with
  | nil => rfl
  | cons s sites ih =>
    rw [patchSites]
    rcases b.target? s.label with - | target
    · rfl
    · exact (ih (b.patch s.offset target)).trans (size_patch ..)

/-- Sites can be patched if and only if all their labels are bound. -/
theorem patchSites_eq_ok_iff :
    (patchSites sites b).1 = .ok () ↔ ∀ s ∈ sites, (b.target? s.label).isSome := by
  induction sites generalizing b with
  | nil => simp [patchSites]
  | cons s sites ih =>
    rw [patchSites, List.forall_mem_cons]
    rcases b.target? s.label with - | target
    · simp
    · simp only [ih, target?_patch, Option.isSome_some, true_and]

/-- Resolving counts the sites if all their labels are bound, and else fails. -/
theorem resolve_eq_ok_iff {n : Nat} :
    b.resolve.1 = .ok n ↔
      b.sites.length = n ∧ ∀ s ∈ b.sites, (b.target? s.label).isSome := by
  have hpatch : (patchSites b.sites { b with sites := [] }).1 = .ok () ↔
      ∀ s ∈ b.sites, (b.target? s.label).isSome := patchSites_eq_ok_iff
  have hresolve : b.resolve.1 =
      (patchSites b.sites { b with sites := [] }).1.map fun _ ↦ b.sites.length := rfl
  rw [hresolve]
  refine Iff.trans ?_ (and_congr_right fun _ ↦ hpatch)
  rcases (patchSites b.sites { b with sites := [] }).1 with l | u
  · simp [Except.map]
  · simp [Except.map]

/-- Bytes outside all sites stay as they are. -/
theorem getElem?_patchSites_of_outside {k : Nat}
    (h : ∀ s ∈ sites, s.offset + 8 ≤ b.size ∧ (k < s.offset ∨ s.offset + 8 ≤ k)) :
    (patchSites sites b).2.bytes[k]? = b.bytes[k]? := by
  induction sites generalizing b with
  | nil => rfl
  | cons s sites ih =>
    rw [List.forall_mem_cons] at h
    obtain ⟨⟨hle, hout⟩, hrest⟩ := h
    rw [patchSites]
    rcases b.target? s.label with - | target
    · rfl
    · have hpatch := ih (b := b.patch s.offset target) fun s hs ↦ by
        rw [size_patch]
        exact hrest s hs
      refine hpatch.trans ?_
      rw [bytes_patch, getElem?_overwrite _ _ _ _ (by rwa [Code.length_word]), Code.length_word,
        if_neg (by omega)]

/-- Sites lie one behind the other. -/
def Spaced (sites : List Site) : Prop :=
  sites.Pairwise fun s s' ↦ s.offset + 8 ≤ s'.offset

/-- Patching stops no later than at an offset, since a label there is not bound. -/
def Stops (b : Buffer) (sites : List Site) (offset : Nat) : Prop :=
  ∃ s ∈ sites, s.offset ≤ offset ∧ b.target? s.label = none

/-- If all labels are bound, patching does not stop. -/
theorem not_stops_of_isSome {offset : Nat} (h : ∀ s ∈ sites, (b.target? s.label).isSome) :
    ¬b.Stops sites offset := by
  rintro ⟨s, hs, -, hnone⟩
  have hsome := h s hs
  rw [hnone] at hsome
  cases hsome

/-- Patching writes the target of every site before it stops. -/
theorem exists_spells_patchSites {s : Site} (hspaced : Spaced sites)
    (hin : ∀ s ∈ sites, s.offset + 8 ≤ b.size) (hs : s ∈ sites) (hstop : ¬b.Stops sites s.offset) :
    ∃ target, b.target? s.label = some target ∧
      Spells (patchSites sites b).2.bytes s.offset (Code.word target) := by
  induction sites generalizing b with
  | nil => cases hs
  | cons s₀ sites ih =>
    obtain ⟨hfirst, hspaced⟩ := List.pairwise_cons.1 hspaced
    rw [List.forall_mem_cons] at hin
    have hle : s₀.offset ≤ s.offset := by
      rcases List.mem_cons.1 hs with rfl | hs
      · exact Nat.le_refl _
      · exact Nat.le_of_add_right_le (hfirst s hs)
    rw [patchSites]
    -- The first site is the one that is looked for, or it is patched and lies before it.
    rcases ht : b.target? s₀.label with - | target
    · exact absurd ⟨s₀, List.mem_cons_self, hle, ht⟩ hstop
    rcases List.mem_cons.1 hs with rfl | hs
    · refine ⟨target, ht, fun k hk ↦ ?_⟩
      rw [Code.length_word] at hk
      have hkeep : (patchSites sites (b.patch s.offset target)).2.bytes[s.offset + k]? =
          (b.patch s.offset target).bytes[s.offset + k]? := by
        refine getElem?_patchSites_of_outside fun s' hs' ↦ ?_
        have := hfirst s' hs'
        rw [size_patch]
        exact ⟨hin.2 s' hs', by omega⟩
      refine hkeep.trans ?_
      rw [bytes_patch, getElem?_overwrite _ _ _ _ (by rw [Code.length_word]; exact hin.1),
        Code.length_word, if_pos (by omega), Nat.add_sub_cancel_left]
    · obtain ⟨target', ht', hspells⟩ := ih (b := b.patch s₀.offset target) hspaced
        (by rw [size_patch]; exact hin.2) hs (by
          rintro ⟨s', hs', hle', hnone⟩
          rw [target?_patch] at hnone
          exact hstop ⟨s', List.mem_cons_of_mem _ hs', hle', hnone⟩)
      rw [target?_patch] at ht'
      exact ⟨target', ht', hspells⟩

/-- Patching leaves every site from where it stops. -/
theorem getElem?_patchSites_of_stops {s : Site} {k : Nat} (hspaced : Spaced sites)
    (hin : ∀ s ∈ sites, s.offset + 8 ≤ b.size) (hs : s ∈ sites) (hstop : b.Stops sites s.offset)
    (hk : s.offset ≤ k) (hk' : k < s.offset + 8) :
    (patchSites sites b).2.bytes[k]? = b.bytes[k]? := by
  induction sites generalizing b with
  | nil => cases hs
  | cons s₀ sites ih =>
    obtain ⟨hfirst, hspaced⟩ := List.pairwise_cons.1 hspaced
    rw [List.forall_mem_cons] at hin
    rw [patchSites]
    rcases ht : b.target? s₀.label with - | target
    · rfl
    -- The first site is bound, so patching stops behind it, and this one lies behind that.
    obtain ⟨s', hs', hle, hnone⟩ := hstop
    have hs' : s' ∈ sites := by
      rcases List.mem_cons.1 hs' with rfl | hs'
      · rw [ht] at hnone
        cases hnone
      · exact hs'
    have hbefore := hfirst s' hs'
    have hs : s ∈ sites := by
      rcases List.mem_cons.1 hs with rfl | hs
      · omega
      · exact hs
    have hkeep := ih (b := b.patch s₀.offset target) hspaced (by rw [size_patch]; exact hin.2) hs
      ⟨s', hs', hle, by rw [target?_patch, hnone]⟩
    refine hkeep.trans ?_
    rw [bytes_patch, getElem?_overwrite _ _ _ _ (by rw [Code.length_word]; exact hin.1),
      Code.length_word, if_neg (by omega)]

end Patch

/-! ### Buffers that edits make -/

/-- A tidy buffer whose sites lie one behind the other and hold zeros. -/
structure Neat (b : Buffer) : Prop where
  tidy : b.Tidy
  spaced : Spaced b.sites
  blank : ∀ s ∈ b.sites, Spells b.bytes s.offset (Code.word 0)

/-- What is spelled stays when bytes are added behind it. -/
theorem spells_append {b : Buffer} {offset : Nat} {xs : List UInt8} (h : Spells b.bytes offset xs)
    (hle : offset + xs.length ≤ b.size) (ys : List UInt8) :
    Spells (b.append ys).bytes offset xs := by
  intro k hk
  rw [getElem?_append, if_pos (by omega), h k hk]

/-- What is added is spelled at the old end. -/
theorem spells_append_self (b : Buffer) (xs : List UInt8) :
    Spells (b.append xs).bytes b.size xs := by
  intro k hk
  rw [getElem?_append, if_neg (by omega), Nat.add_sub_cancel_left]

namespace Neat

variable {b : Buffer}

theorem new : Buffer.new.Neat :=
  ⟨tidy_new, List.Pairwise.nil, by simp [Buffer.new]⟩

/-- Bytes behind the end touch no site. -/
theorem append (h : b.Neat) (xs : List UInt8) : (b.append xs).Neat := by
  refine ⟨h.tidy.append xs, h.spaced, fun s hs ↦ ?_⟩
  have hle := (h.tidy.sites s hs).2
  exact spells_append (h.blank s hs) (by rwa [Code.length_word]) xs

/-- The site of a jump lies behind those before it and holds zeros. -/
theorem jump (h : b.Neat) (op : Opcode) (l : Label) : (b.jump op l).Neat := by
  have hop := h.append [op.byte]
  refine ⟨h.tidy.jump op l, ?_, fun s hs ↦ ?_⟩
  · refine List.pairwise_append.2 ⟨hop.spaced, List.pairwise_singleton _ _, fun s hs s' hs' ↦ ?_⟩
    obtain rfl := List.mem_singleton.1 hs'
    exact (hop.tidy.sites s hs).2
  · rcases List.mem_append.1 hs with hs | hs
    · exact (hop.append (Code.word 0)).blank s hs
    · obtain rfl := List.mem_singleton.1 hs
      exact spells_append_self _ _

/-- No site is left, so none is in the way. -/
theorem resolve (h : b.Neat) : b.resolve.2.Neat := by
  have htidy := h.tidy
  have hsites : b.resolve.2.sites = [] := sites_patchSites _ _
  have hsize : b.resolve.2.size = b.size := size_patchSites _ _
  refine ⟨⟨hsize ▸ htidy.header, fun k hk ↦ ?_, by simp [hsites], fun l p hp ↦ ?_⟩, ?_, ?_⟩
  · rw [← htidy.opening k hk]
    refine getElem?_patchSites_of_outside fun s hs ↦ ?_
    obtain ⟨hbehind, hle⟩ := htidy.sites s hs
    rw [length_magic] at hk
    rw [headerSize] at hbehind
    exact ⟨hle, by omega⟩
  · have hlabels : b.resolve.2.labels = b.labels := labels_patchSites _ _
    rw [target?, hlabels] at hp
    rw [hsize]
    exact htidy.labels l p hp
  · rw [hsites]
    exact List.Pairwise.nil
  · simp [hsites]

/-- **Every edit** keeps a buffer neat. -/
theorem edit (h : b.Neat) (e : Edit) : (b.edit e).Neat := by
  cases e with
  | newLabel => exact ⟨h.tidy.newLabel, h.spaced, h.blank⟩
  | bind l => exact ⟨h.tidy.bind l, h.spaced, h.blank⟩
  | jump op l => exact h.jump op l
  | resolve => exact h.resolve
  | _ => exact h.append _

/-- A buffer stays neat along its edits. -/
theorem editAll (h : b.Neat) (es : List Edit) : (b.editAll es).Neat := by
  induction es generalizing b with
  | nil => exact h
  | cons e es ih => exact ih (h.edit e)

theorem made (es : List Edit) : (made es).Neat :=
  new.editAll es

end Neat

/-! ### Bytes that are settled -/

/-- Some bytes stand in the code of a buffer, and no site waits for any of them. -/
structure Fixed (b : Buffer) (offset : Nat) (xs : List UInt8) : Prop where
  spells : Spells b.bytes offset xs
  header : headerSize ≤ offset
  le_size : offset + xs.length ≤ b.size
  apart : ∀ s ∈ b.sites, offset + xs.length ≤ s.offset ∨ s.offset + 8 ≤ offset

namespace Fixed

variable {b : Buffer} {offset : Nat} {xs : List UInt8}

/-- What is fixed stays when bytes are added. -/
theorem append (h : b.Fixed offset xs) (ys : List UInt8) : (b.append ys).Fixed offset xs := by
  have hsize := b.size_append ys
  have hle := h.le_size
  exact ⟨spells_append h.spells hle ys, h.header, by omega, h.apart⟩

/-- Nothing is settled at the end. -/
theorem nil (hb : b.Tidy) : b.Fixed b.size [] :=
  ⟨fun _ hk ↦ absurd hk (Nat.not_lt_zero _), hb.header, Nat.le_refl _,
    fun s hs ↦ .inr (hb.sites s hs).2⟩

/-- Bytes that are added are fixed from the start. -/
theorem append_self (hb : b.Tidy) (xs : List UInt8) : (b.append xs).Fixed b.size xs :=
  ⟨spells_append_self b xs, hb.header, Nat.le_of_eq (b.size_append xs).symm,
    fun s hs ↦ .inr (hb.sites s hs).2⟩

/-- The operand of a jump lies behind its operation and all that was there before. -/
theorem jump_of_op {op : Opcode} (h : (b.op op).Fixed offset xs) (l : Label) :
    (b.jump op l).Fixed offset xs := by
  have hword := h.append (Code.word 0)
  refine ⟨hword.spells, hword.header, hword.le_size, fun s hs ↦ ?_⟩
  rcases List.mem_append.1 hs with hs | hs
  · exact h.apart s hs
  · obtain rfl := List.mem_singleton.1 hs
    exact .inl h.le_size

/-- Patching leaves settled bytes. -/
theorem spells_patchSites (h : b.Fixed offset xs) (hb : b.Tidy) {t : Buffer}
    (hsize : b.size ≤ t.size) (hbytes : Spells t.bytes offset xs) :
    Spells (patchSites b.sites t).2.bytes offset xs := by
  intro k hk
  rw [← hbytes k hk]
  refine getElem?_patchSites_of_outside fun s hs ↦ ?_
  have hle := (hb.sites s hs).2
  have hout := h.apart s hs
  exact ⟨by omega, by omega⟩

/-- Writing targets touches sites only. -/
theorem resolve (h : b.Fixed offset xs) (hb : b.Tidy) : b.resolve.2.Fixed offset xs := by
  have hsites : b.resolve.2.sites = [] := sites_patchSites _ _
  have hsize : b.resolve.2.size = b.size := size_patchSites _ _
  exact ⟨h.spells_patchSites hb (Nat.le_refl _) h.spells, h.header, hsize ▸ h.le_size,
    by simp [hsites]⟩

/-- **No edit** changes settled bytes. -/
theorem edit (h : b.Fixed offset xs) (hb : b.Neat) (e : Edit) : (b.edit e).Fixed offset xs := by
  cases e with
  | newLabel => exact ⟨h.spells, h.header, h.le_size, h.apart⟩
  | bind l => exact ⟨h.spells, h.header, h.le_size, h.apart⟩
  | jump op l => exact (h.append [op.byte]).jump_of_op l
  | resolve => exact h.resolve hb.tidy
  | _ => exact h.append _

/-- **Bytes that are fixed stay** along all later edits. -/
theorem editAll (h : b.Fixed offset xs) (hb : b.Neat) (es : List Edit) :
    (b.editAll es).Fixed offset xs := by
  induction es generalizing b with
  | nil => exact h
  | cons e es ih => exact ih (h.edit hb e) (hb.edit e)

/-- Settled bytes are those of the image. -/
theorem assemble (h : b.Fixed offset xs) (hb : b.Tidy) {fs : List Function} {image : Image}
    (himage : Image.assemble b fs = .ok image) : Spells image.bytes offset xs := by
  obtain ⟨b', hpatch, rfl⟩ := Image.assemble_eq_ok.1 himage
  have hsize := b.size_le_withTable fs
  have htable : Spells (b.withTable fs).bytes offset xs := by
    intro k hk
    have hheader := h.header
    have hle := h.le_size
    rw [hb.getElem?_withTable fs (by omega) (by omega), h.spells k hk]
  generalize b.withTable fs = t at hpatch hsize htable
  have hspells := h.spells_patchSites (t := { t with sites := [] }) hb hsize htable
  rwa [hpatch] at hspells

/-- What an edit adds for good is settled at once. -/
theorem edit_self (hb : b.Neat) (e : Edit) : (b.edit e).Fixed b.size e.bytes := by
  cases e with
  | newLabel => exact nil hb.tidy.newLabel
  | bind l => exact nil (hb.tidy.bind l)
  | jump op l => exact (append_self hb.tidy [op.byte]).jump_of_op l
  | resolve =>
    have hsize : b.resolve.2.size = b.size := size_patchSites _ _
    exact hsize ▸ nil hb.resolve.tidy
  | _ => exact append_self hb.tidy _

end Fixed

/-! ### Operands of jumps -/

section Operand

variable {b : Buffer} {s : Site} {l : Label} {p : Nat} {es : List Edit}

/-- An edit adds bytes of its width at the end. -/
theorem size_edit (b : Buffer) (e : Edit) : (b.edit e).size = b.size + e.width := by
  cases e with
  | newLabel => rfl
  | bind => rfl
  | jump op l =>
    refine ((b.op op).size_append (Code.word 0)).trans ?_
    rw [Buffer.op, size_append, Code.length_word]
    rfl
  | resolve => exact size_patchSites _ _
  | _ => exact size_append _ _

/-- A label that was just made is bound to nothing. -/
theorem eq_of_target?_newLabel (h : b.newLabel.2.target? l = some p) : b.target? l = some p := by
  rw [target?, newLabel, Array.getElem?_push] at h
  split at h
  · cases h
  · exact h

/-- Only binding gives a label its target, which is the end of the buffer. -/
theorem target?_of_edit {e : Edit} (h : (b.edit e).target? l = some p) :
    b.target? l = some p ∨ e = .bind l ∧ b.size = p := by
  cases e with
  | newLabel => exact .inl (eq_of_target?_newLabel h)
  | bind l' =>
    rw [edit, target?_bind] at h
    split at h
    · rename_i hbind
      exact .inr ⟨by rw [hbind.1], Option.some.inj h⟩
    · exact .inl h
  | resolve =>
    have hlabels : b.resolve.2.labels = b.labels := labels_patchSites _ _
    rw [edit, target?, hlabels] at h
    exact .inl h
  | _ => exact .inl h

/-- A label that has a target was bound there. -/
theorem exists_bind_of_target? (h : (made es).target? l = some p) :
    ∃ pre post, es = pre ++ .bind l :: post ∧ (made pre).size = p := by
  induction es using List.reverseRecOn with
  | nil => simp [made, editAll, new, target?] at h
  | append_singleton es e ih =>
    rw [made_snoc] at h
    rcases target?_of_edit h with h | ⟨rfl, hsize⟩
    · obtain ⟨pre, post, rfl, hsize⟩ := ih h
      exact ⟨pre, post ++ [e], by rw [List.append_assoc]; rfl, hsize⟩
    · exact ⟨es, [], rfl, hsize⟩

/-- A site waits until the targets are written. -/
theorem mem_sites_editAll (hs : s ∈ b.sites) (hes : .resolve ∉ es) : s ∈ (b.editAll es).sites := by
  induction es generalizing b with
  | nil => exact hs
  | cons e es ih =>
    rw [List.mem_cons, not_or] at hes
    refine ih ?_ hes.2
    cases e with
    | jump op l => exact List.mem_append_left _ hs
    | resolve => exact absurd rfl hes.1
    | _ => exact hs

/-- What resolving leaves at a site is settled. -/
theorem Neat.fixed_resolve (hb : b.Neat) (hs : s ∈ b.sites) {n : Nat}
    (h : Spells b.resolve.2.bytes s.offset (Code.word n)) :
    b.resolve.2.Fixed s.offset (Code.word n) := by
  obtain ⟨hheader, hle⟩ := hb.tidy.sites s hs
  have hsites : b.resolve.2.sites = [] := sites_patchSites _ _
  have hsize : b.resolve.2.size = b.size := size_patchSites _ _
  exact ⟨h, hheader, by rwa [Code.length_word, hsize], by simp [hsites]⟩

/-- Resolving writes the target of a site that it gets to. -/
theorem Neat.exists_fixed_resolve (hb : b.Neat) (hs : s ∈ b.sites)
    (hstop : ¬b.Stops b.sites s.offset) :
    ∃ target, b.target? s.label = some target ∧
      b.resolve.2.Fixed s.offset (Code.word target) := by
  obtain ⟨target, ht, hspells⟩ := exists_spells_patchSites (b := { b with sites := [] }) hb.spaced
    (fun s hs ↦ (hb.tidy.sites s hs).2) hs hstop
  exact ⟨target, ht, hb.fixed_resolve hs hspells⟩

/-- Resolving leaves the zeros of a site that it does not get to, **for good**. -/
theorem Neat.fixed_resolve_of_stops (hb : b.Neat) (hs : s ∈ b.sites)
    (hstop : b.Stops b.sites s.offset) : b.resolve.2.Fixed s.offset (Code.word 0) := by
  refine hb.fixed_resolve hs fun k hk ↦ ?_
  rw [← hb.blank s hs k hk]
  rw [Code.length_word] at hk
  exact getElem?_patchSites_of_stops (b := { b with sites := [] }) hb.spaced
    (fun s hs ↦ (hb.tidy.sites s hs).2) hs hstop (by omega) (by omega)

/-- An image has the targets of all sites that still wait. -/
theorem Neat.exists_spells_assemble (hb : b.Neat) (hs : s ∈ b.sites) {fs : List Function}
    {image : Image} (himage : Image.assemble b fs = .ok image) :
    ∃ target, b.target? s.label = some target ∧
      Spells image.bytes s.offset (Code.word target) := by
  obtain ⟨b', hpatch, rfl⟩ := Image.assemble_eq_ok.1 himage
  have hsize := b.size_le_withTable fs
  have htarget := b.target?_withTable fs
  generalize b.withTable fs = t at hpatch hsize htarget
  have hbound := patchSites_eq_ok_iff.1 (congrArg Prod.fst hpatch)
  obtain ⟨target, ht, hspells⟩ := exists_spells_patchSites (b := { t with sites := [] }) hb.spaced
    (fun s hs ↦ Nat.le_trans (hb.tidy.sites s hs).2 hsize) hs (not_stops_of_isSome hbound)
  rw [hpatch] at hspells
  exact ⟨target, (htarget s.label).symm.trans ht, hspells⟩

end Operand

end Buffer

/-! ### Jumps in an image -/

open Buffer (made)

namespace Edit

/-- A jump is lost if the first `resolve` behind it stops at its label or at one before. -/
def Lost (pre : List Edit) (o : Opcode) (l : Label) (post : List Edit) : Prop :=
  ∃ mid post', post = mid ++ resolve :: post' ∧ resolve ∉ mid ∧
    (made (pre ++ jump o l :: mid)).Stops (made (pre ++ jump o l :: mid)).sites
      ((made pre).size + 1)

section Jump

variable {pre post : List Edit} {o : Opcode} {l : Label} {fs : List Function} {image : Image}

/-- A jump waits up to the next `resolve`. -/
theorem mem_sites_made (hpost : resolve ∉ post) :
    ⟨(made pre).size + 1, l⟩ ∈ (made (pre ++ jump o l :: post)).sites := by
  have hjump : ⟨(made pre).size + 1, l⟩ ∈ ((made pre).jump o l).sites := by
    refine List.mem_append_right _ (List.mem_singleton.2 ?_)
    rw [Buffer.op, Buffer.size_append]
    rfl
  rw [Buffer.made_append]
  exact Buffer.mem_sites_editAll (b := (made pre).jump o l) hjump hpost

/-- A lost jump has a zero operand. -/
theorem spells_of_lost (hlost : Lost pre o l post)
    (himage : Image.assemble (made (pre ++ jump o l :: post)) fs = .ok image) :
    Spells image.bytes ((made pre).size + 1) (Code.word 0) := by
  obtain ⟨mid, post', rfl, hmid, hstop⟩ := hlost
  have hb := Buffer.Neat.made (pre ++ jump o l :: mid)
  have hfixed := hb.fixed_resolve_of_stops (mem_sites_made hmid) hstop
  rw [← List.cons_append, ← List.append_assoc, Buffer.made_append] at himage
  exact (hfixed.editAll hb.resolve post').assemble (hb.resolve.editAll post').tidy himage

/-- The operand of any other jump is where its label was bound. -/
theorem exists_spells_of_not_lost (hlost : ¬Lost pre o l post)
    (himage : Image.assemble (made (pre ++ jump o l :: post)) fs = .ok image) :
    ∃ pre' post', pre ++ jump o l :: post = pre' ++ bind l :: post' ∧
      Spells image.bytes ((made pre).size + 1) (Code.word (made pre').size) := by
  by_cases hresolve : resolve ∈ post
  · obtain ⟨mid, post', rfl, hmid⟩ := List.eq_append_cons_of_mem hresolve
    have hb := Buffer.Neat.made (pre ++ jump o l :: mid)
    obtain ⟨target, ht, hfixed⟩ := hb.exists_fixed_resolve (mem_sites_made hmid)
      fun hstop ↦ hlost ⟨mid, post', rfl, hmid, hstop⟩
    obtain ⟨pre', post'', hes, rfl⟩ := Buffer.exists_bind_of_target? ht
    rw [← List.cons_append, ← List.append_assoc] at himage ⊢
    refine ⟨pre', post'' ++ resolve :: post', by rw [hes, List.append_assoc]; rfl, ?_⟩
    rw [Buffer.made_append] at himage
    exact (hfixed.editAll hb.resolve post').assemble (hb.resolve.editAll post').tidy himage
  · have hb := Buffer.Neat.made (pre ++ jump o l :: post)
    obtain ⟨target, ht, hspells⟩ := hb.exists_spells_assemble (mem_sites_made hresolve) himage
    obtain ⟨pre', post', hes, rfl⟩ := Buffer.exists_bind_of_target? ht
    exact ⟨pre', post', hes, hspells⟩

/-- Where a jump is lost, a `resolve` fails. -/
theorem exists_resolve_of_lost (hlost : Lost pre o l post) :
    ∃ pre' post', pre ++ jump o l :: post = pre' ++ resolve :: post' ∧
      ∀ n, (made pre').resolve.1 ≠ .ok n := by
  obtain ⟨mid, post', rfl, -, s, hs, -, hnone⟩ := hlost
  refine ⟨pre ++ jump o l :: mid, post', by rw [List.append_assoc]; rfl, fun n hn ↦ ?_⟩
  have hsome := (Buffer.resolve_eq_ok_iff.1 hn).2 s hs
  rw [hnone] at hsome
  cases hsome

end Jump

/-- **What is assembled is what was written, but for lost jumps.** Whatever edits a buffer is made
by, its image has the bytes of each edit where the buffer ended then, and these leave no gaps.
Behind the operation of a jump stands the offset where its label was bound, which therefore was
bound; except for the jumps that a failed `resolve` lost, which have a zero there. If no `resolve`
fails, no jump is lost. -/
theorem image_of_assemble {es : List Edit} {fs : List Function} {image : Image}
    (h : Image.assemble (made es) fs = .ok image) :
    image.tableOffset = (made es).size ∧
      (∀ pre e post, es = pre ++ e :: post →
        Spells image.bytes (made pre).size e.bytes ∧
          (made (pre ++ [e])).size = (made pre).size + e.width) ∧
      (∀ pre o l post, es = pre ++ jump o l :: post →
        Lost pre o l post ∧ Spells image.bytes ((made pre).size + 1) (Code.word 0) ∨
          ¬Lost pre o l post ∧ ∃ pre' post', es = pre' ++ bind l :: post' ∧
            Spells image.bytes ((made pre).size + 1) (Code.word (made pre').size)) ∧
      ((∀ pre post, es = pre ++ resolve :: post → ∃ n, (made pre).resolve.1 = .ok n) →
        ∀ pre o l post, es = pre ++ jump o l :: post → ¬Lost pre o l post) := by
  refine ⟨?_, ?_, ?_, ?_⟩
  · rw [Image.bytes_of_assemble h]
  · rintro pre e post rfl
    rw [Buffer.made_append] at h
    have hb := Buffer.Neat.made pre
    have hfixed := (Buffer.Fixed.edit_self hb e).editAll (hb.edit e) post
    refine ⟨hfixed.assemble (hb.editAll (e :: post)).tidy h, ?_⟩
    rw [Buffer.made_snoc, Buffer.size_edit]
  · rintro pre o l post rfl
    by_cases hlost : Lost pre o l post
    · exact .inl ⟨hlost, spells_of_lost hlost h⟩
    · exact .inr ⟨hlost, exists_spells_of_not_lost hlost h⟩
  · rintro hok pre o l post rfl hlost
    obtain ⟨pre', post', hes, hfails⟩ := exists_resolve_of_lost hlost
    obtain ⟨n, hn⟩ := hok pre' post' hes
    exact hfails n hn

/-- A jump to a label that is never bound is found by the first `resolve`, which loses it. -/
theorem image_of_assemble_unbound :
    ∃ image, Image.assemble (made [newLabel, jump .jump ⟨0⟩, resolve]) [] = .ok image ∧
      Lost [newLabel] .jump ⟨0⟩ [resolve] ∧
      Spells image.bytes ((made [newLabel]).size + 1) (Code.word 0) := by
  obtain ⟨image, himage⟩ : ∃ image,
      Image.assemble (made [newLabel, jump .jump ⟨0⟩, resolve]) [] = .ok image := ⟨_, rfl⟩
  refine ⟨image, himage, ?_⟩
  rcases (image_of_assemble himage).2.2.1 [newLabel] .jump ⟨0⟩ [resolve] rfl with
    hlost | ⟨-, pre', post', hes, -⟩
  · exact hlost
  · have hmem : bind ⟨0⟩ ∈ [newLabel, jump .jump ⟨0⟩, resolve] :=
      hes ▸ List.mem_append_right pre' List.mem_cons_self
    simp at hmem

/-- An image can have a jump whose label is **never bound**: a `resolve` that fails takes the site
away, and nothing is left to fail at when the image is assembled. -/
theorem assembles_unbound_jump :
    (made [newLabel, jump .jump ⟨0⟩, resolve]).target? ⟨0⟩ = none ∧
      (Image.assemble (made [newLabel, jump .jump ⟨0⟩, resolve]) []).toOption.map
        (fun image ↦ image.bytes.toList.drop headerSize) =
          some (Opcode.jump.byte :: Code.word 0) := by
  decide +kernel

end Edit

end Scriptlet
