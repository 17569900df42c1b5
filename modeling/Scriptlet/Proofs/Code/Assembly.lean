import Scriptlet.Proofs.Code.Placement

/-!
# The listing of an image

To assemble a draft is to write the offsets of its labels over the words that were kept free for
them. What comes of it agrees with the draft everywhere else, so the lines that the draft has placed
stand in the image, one behind the other (`Image.Lists`). Every image that was assembled has such a
listing (`Program.exists_lists`), and all that is said of images elsewhere starts from it.
-/

namespace Scriptlet

open Buffer (Addressable Final)

namespace Buffer

/-- The offsets that the labels of a buffer are bound to. -/
def offsets (b : Buffer) (l : Label) : Nat :=
  (b.target? l).getD 0

theorem bytes_patch (b : Buffer) (offset n : Nat) :
    (b.patch offset n).bytes = overwrite b.bytes offset (Code.word n) := by
  rw [patch]

/-- Writing a word moves no label. -/
theorem offsets_patch (b : Buffer) (offset n : Nat) : (b.patch offset n).offsets = b.offsets := by
  funext l
  rw [offsets, offsets, target?, target?, patch]

theorem size_patch (b : Buffer) (offset n : Nat) : (b.patch offset n).size = b.size := by
  rw [size, bytes_patch, size_overwrite, size]

/-- Sites whose labels are all bound are filled in. -/
theorem bytes_of_patchSites {sites : List Site} {b b' : Buffer} {u : Unit}
    (h : patchSites sites b = (.ok u, b')) : b'.bytes = fill b.offsets sites b.bytes := by
  induction sites generalizing b with
  | nil =>
    cases h
    rfl
  | cons s sites ih =>
    rw [patchSites] at h
    rcases hs : b.target? s.label with - | target
    · rw [hs] at h
      cases h
    · rw [hs] at h
      rw [ih h, fill, offsets_patch, bytes_patch, offsets, hs, Option.getD_some]

/-- Writing a word into the header leaves what is behind it. -/
theorem getElem?_patch {b : Buffer} {offset n k : Nat} (hoffset : offset + 8 ≤ b.size)
    (hk : offset + 8 ≤ k) : (b.patch offset n).bytes[k]? = b.bytes[k]? := by
  rw [bytes_patch, getElem?_overwrite _ _ _ _ (by rwa [Code.length_word]), Code.length_word,
    if_neg (by omega)]

/-- A new buffer has its header and nothing else: no site and no label. -/
theorem tidy_new : Buffer.new.Tidy := by
  refine ⟨by decide, fun k hk ↦ ?_, by simp [Buffer.new], by simp [Buffer.new, target?]⟩
  rw [Buffer.new, Nat.zero_add, List.getElem?_toArray, List.getElem?_append_left hk]

end Buffer

/-- A buffer with a table behind it and its header filled in. -/
def Buffer.withTable (b : Buffer) (fs : List Function) : Buffer :=
  (((b.append (fs.flatMap Function.encode)).patch 8 b.size).patch 16 fs.length).patch 24 headerSize

/-- The table adds its own bytes, and the header is written over what is there. -/
theorem Buffer.size_withTable (b : Buffer) (fs : List Function) :
    (b.withTable fs).size = b.size + (fs.flatMap Function.encode).length := by
  rw [withTable, size_patch, size_patch, size_patch, size_append]

theorem Buffer.size_le_withTable (b : Buffer) (fs : List Function) :
    b.size ≤ (b.withTable fs).size := by
  rw [size_withTable]
  exact Nat.le_add_right ..

/-- Code keeps its bytes when the table is put behind it and the header is filled in. -/
theorem Buffer.Tidy.getElem?_withTable {b : Buffer} (hb : b.Tidy) (fs : List Function) {k : Nat}
    (hk : headerSize ≤ k) (hlt : k < b.size) : (b.withTable fs).bytes[k]? = b.bytes[k]? := by
  have hsize := b.size_append (fs.flatMap Function.encode)
  have hheader := hb.header
  rw [headerSize] at hk hheader
  rw [withTable, getElem?_patch (by simp only [size_patch]; omega) (by omega),
    getElem?_patch (by simp only [size_patch]; omega) (by omega),
    getElem?_patch (by omega) (by omega), getElem?_append, if_pos hlt]

@[simp]
theorem Buffer.labels_withTable (b : Buffer) (fs : List Function) :
    (b.withTable fs).labels = b.labels := by
  rw [withTable, patch, patch, patch, append]

@[simp]
theorem Buffer.sites_withTable (b : Buffer) (fs : List Function) :
    (b.withTable fs).sites = b.sites := by
  rw [withTable, patch, patch, patch, append]

/-- Labels are bound where they were. -/
theorem Buffer.target?_withTable (b : Buffer) (fs : List Function) (l : Label) :
    (b.withTable fs).target? l = b.target? l := by
  rw [target?, target?, labels_withTable]

/-- An image is assembled once the targets of all jumps are written. -/
theorem Image.assemble_eq_ok {b : Buffer} {fs : List Function} {image : Image} :
    Image.assemble b fs = .ok image ↔
      ∃ b', Buffer.patchSites b.sites { b.withTable fs with sites := [] } = (.ok (), b') ∧
        image = ⟨b'.bytes, b.size, headerSize, fs⟩ := by
  have hassemble : Image.assemble b fs = (b.withTable fs).resolve.1.map
      fun _ ↦ ⟨(b.withTable fs).resolve.2.bytes, b.size, headerSize, fs⟩ := by
    rcases hresolve : (b.withTable fs).resolve with ⟨_ | _, b''⟩ <;>
      rw [Buffer.withTable] at hresolve <;> simp only [Image.assemble, hresolve, Except.map]
  rw [hassemble, Buffer.resolve, Buffer.sites_withTable]
  generalize Buffer.patchSites _ _ = r
  obtain ⟨l | u, b'⟩ := r
  · simp [Except.map]
  · simp [Except.map, eq_comm]

/-- An assembled image has the bytes of its buffer, with the targets of all jumps. -/
theorem Image.bytes_of_assemble {b : Buffer} {fs : List Function} {image : Image}
    (h : Image.assemble b fs = .ok image) :
    image = ⟨Buffer.fill b.offsets b.sites (b.withTable fs).bytes, b.size, headerSize, fs⟩ := by
  obtain ⟨b', hpatch, rfl⟩ := Image.assemble_eq_ok.1 h
  have hoffsets : Buffer.offsets { b.withTable fs with sites := [] } = b.offsets := by
    funext l
    rw [Buffer.offsets, Buffer.offsets, Buffer.target?, Buffer.target?, Buffer.labels_withTable]
  rw [Buffer.bytes_of_patchSites hpatch, hoffsets]

/-- No label is bound behind the end. -/
theorem Buffer.Tidy.offsets_le {b : Buffer} (hb : b.Tidy) (l : Label) : b.offsets l ≤ b.size := by
  rw [offsets]
  rcases h : b.target? l with - | target
  · exact Nat.zero_le _
  · exact hb.labels l target h

/-- Behind the header, the code of an assembled image is that of its buffer. -/
theorem Image.agrees_of_assemble {b : Buffer} {fs : List Function} {image : Image} (hb : b.Tidy)
    (h : Image.assemble b fs = .ok image) :
    image.code.size = b.size ∧ b.size ≤ image.bytes.size ∧ b.Agrees b.offsets image.code := by
  rw [Image.bytes_of_assemble h]
  have hsize : (b.withTable fs).bytes.size = b.size + (fs.flatMap Function.encode).length :=
    b.size_withTable fs
  refine ⟨?_, ?_, fun k hk hlt ↦ ?_⟩
  · simp only [Image.code, Array.size_extract, Buffer.size_fill]
    omega
  · simp only [Buffer.size_fill]
    omega
  · simp only [Image.code]
    rw [Array.getElem?_extract, Buffer.size_fill, if_pos (by omega), Nat.zero_add]
    refine Buffer.getElem?_fill_congr (fun s hs ↦ ?_) (hb.getElem?_withTable fs hk hlt)
    have := (hb.sites s hs).2
    exact ⟨by omega, this⟩

/-- A listing is that of the code of an image, which is a program. -/
structure Image.Lists (image : Image) (p : Program) (L : Listing) : Prop where
  listed : Stmt.ListedAll .top p headerSize image.code.size L
  stands : ∀ e ∈ L.entries, e.Stands image.code
  functions : image.functions = Function.main :: L.functions.map Located.function
  mainEntry : image.mainEntry = headerSize
  code_lt : image.code.size < UInt64.size

/-- The draft of a program places its listing, whatever offsets its labels are thought to have. -/
theorem Program.places_draft (p : Program) {τ : Label → Nat} {code : Array UInt8}
    (haddr : Addressable τ code) : Draft.Places τ code .new p.draft (Stmt.ListedAll .top p) :=
  Stmt.places_emitAll haddr .top p .new Buffer.tidy_new

/-- That all labels are bound in the end can be seen without any code. -/
theorem Program.places_draft_empty (p : Program) :
    Draft.Places (fun _ ↦ 0) #[] .new p.draft (Stmt.ListedAll .top p) :=
  p.places_draft ⟨by decide, fun _ ↦ by decide⟩

/-- The draft of a program has its header, and neither a site nor a label behind its end. -/
theorem Program.tidy_draft (p : Program) : p.draft.buffer.Tidy :=
  p.places_draft_empty.keeps.tidy

/-- What it takes to assemble the image of a program. -/
theorem Program.assemble_eq_ok {p : Program} {stop : Span} {image : Image} :
    p.assemble stop = .ok image ↔
      Image.assemble p.draft.buffer p.draft.functions.toList = .ok image ∧
        image.bytes.size < UInt64.size := by
  rw [Program.assemble]
  rcases Image.assemble p.draft.buffer p.draft.functions.toList with l | image'
  · simp
  · by_cases hsize : image'.bytes.size < UInt64.size
    · simp only [if_pos hsize, Except.ok.injEq]
      exact ⟨fun h ↦ ⟨h, h ▸ hsize⟩, And.left⟩
    · simp only [if_neg hsize, reduceCtorEq, Except.ok.injEq, false_iff, not_and]
      rintro rfl
      exact hsize

/-- **An image that was assembled has a listing.** -/
theorem Program.exists_lists {p : Program} {stop : Span} {image : Image}
    (h : p.assemble stop = .ok image) : ∃ L, image.Lists p L := by
  obtain ⟨hassemble, hsize⟩ := Program.assemble_eq_ok.1 h
  obtain ⟨d, hd⟩ : ∃ d, p.draft = d := ⟨_, rfl⟩
  have htidy := p.tidy_draft
  have hbinds := p.places_draft_empty.binds
  rw [hd] at hassemble htidy hbinds
  obtain ⟨hcode, hle, hagrees⟩ := Image.agrees_of_assemble htidy hassemble
  have haddr : Addressable d.buffer.offsets image.code :=
    ⟨by omega, fun l ↦ by have := htidy.offsets_le l; omega⟩
  -- The guess at the offsets of labels is right: all of them are bound in the end.
  have hfinal : d.buffer.Final d.buffer.offsets image.code fun _ ↦ True := by
    refine ⟨hagrees, Nat.le_of_eq hcode.symm, fun l hl _ ↦ ?_⟩
    obtain ⟨target, ht⟩ := Option.isSome_iff_exists.1
      (hbinds l (Nat.zero_le _) hl List.not_mem_nil)
    rw [Buffer.offsets, ht, Option.getD_some]
  obtain ⟨-, L, hL, hstands, hf⟩ :=
    (hd ▸ p.places_draft haddr).exists_listing _ hfinal fun _ _ ↦ trivial
  rw [← hcode] at hL
  refine ⟨L, hL, hstands, ?_, ?_, by omega⟩
  · rw [Image.bytes_of_assemble hassemble]
    exact hf
  · rw [Image.bytes_of_assemble hassemble]

end Scriptlet
