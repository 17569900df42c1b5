import Scriptlet.Proofs.Code.Functions
import Scriptlet.Proofs.Image.Format
import Scriptlet.Proofs.Machine.Safety
import Scriptlet.Proofs.Tree.Unambiguous

/-!
# Images are read back

The writer of an image and its reader share no code: one puts a table behind a buffer and fills in a
header and the targets of jumps, the other takes bytes from the front and checks what it finds. They
meet in **the format**, which the reader accepts and which what is written is shown to be of.

Whatever the compiler accepts passes the checks of the reader: entries lie in the code, and no two
functions have one name, since a second one is refused where it is defined.
-/

namespace Scriptlet

open Code (Spells)

/-! ### The table -/

/-- Among bytes written for some things there is at least one for each. -/
theorem Code.length_le_length_flatMap {α : Type} (write : α → List UInt8)
    (h : ∀ a, 0 < (write a).length) (l : List α) : l.length ≤ (l.flatMap write).length := by
  induction l with
  | nil => exact Nat.le_refl 0
  | cons a l ih =>
    have := h a
    rw [List.flatMap_cons, List.length_append, List.length_cons]
    omega

/-- The bytes written for one of some things are among those for all of them. -/
theorem Code.length_le_of_mem_flatMap {α : Type} (write : α → List UInt8) {l : List α} {a : α}
    (h : a ∈ l) : (write a).length ≤ (l.flatMap write).length := by
  rw [List.flatMap_def]
  exact (List.sublist_flatten_of_mem (List.mem_map_of_mem h)).length_le

namespace Function

variable {f : Function} {fs : List Function}

/-- A flag is raised by a byte that is not zero. -/
theorem flag_ne_zero (b : Bool) : (flag b != 0) = b := by
  cases b <;> rfl

theorem length_encode (f : Function) :
    f.encode.length = 27 + f.name.utf8ByteSize + (f.params.flatMap Code.sized).length := by
  simp only [encode, List.length_append, Code.length_word, Code.length_sized, List.length_cons,
    List.length_nil]
  omega

/-- What is written for a function is a table entry if a word can count its bytes. -/
theorem written_encode (h : f.encode.length < UInt64.size) : f.Written f.encode := by
  rw [length_encode] at h
  have hcount := Code.length_le_length_flatMap Code.sized
    (fun s ↦ by rw [Code.length_sized]; omega) f.params
  refine ⟨⟨by omega, by omega, fun s hs ↦ ?_⟩, _, _, flag_ne_zero _, flag_ne_zero _, rfl⟩
  have hs := Code.length_le_of_mem_flatMap Code.sized hs
  rw [Code.length_sized] at hs
  omega

/-- The table of some functions is written entry by entry if a word can count its bytes. -/
theorem forall₂_written_encode (h : (fs.flatMap encode).length < UInt64.size) :
    List.Forall₂ Written fs (fs.map encode) := by
  rw [List.forall₂_map_right_iff, List.forall₂_same]
  intro f hf
  exact written_encode (Nat.lt_of_le_of_lt (Code.length_le_of_mem_flatMap encode hf) h)

/-- There are no more functions than bytes in the table. -/
theorem length_le_flatMap_encode (fs : List Function) :
    fs.length ≤ (fs.flatMap encode).length :=
  Code.length_le_length_flatMap encode (fun f ↦ by rw [length_encode]; omega) fs

end Function

/-! ### Assembled images -/

/-- What stands in bytes is what a reader of them finds there. -/
theorem Code.Spells.drop_toList {bytes : Array UInt8} {offset : Nat} {xs : List UInt8}
    (h : Spells bytes offset xs) :
    bytes.toList.drop offset = xs ++ bytes.toList.drop (offset + xs.length) := by
  apply List.ext_getElem?
  intro k
  rw [List.getElem?_drop, List.getElem?_append, Array.getElem?_toList]
  by_cases hk : k < xs.length
  · rw [if_pos hk, h k hk]
  · rw [if_neg hk, List.getElem?_drop, Array.getElem?_toList,
      show offset + xs.length + (k - xs.length) = offset + k by omega]

namespace Buffer

variable {b : Buffer} {xs : List UInt8} {start offset : Nat}

/-- A word that was written is there. -/
theorem spells_patch (h : offset + 8 ≤ b.size) (n : Nat) :
    Spells (b.patch offset n).bytes offset (Code.word n) := by
  intro k hk
  rw [bytes_patch, getElem?_overwrite _ _ _ _ (by rwa [Code.length_word]), if_pos (by omega),
    Nat.add_sub_cancel_left]

/-- A word written elsewhere leaves what stands in a buffer. -/
theorem spells_patch_of_spells (h : Spells b.bytes start xs) (hoffset : offset + 8 ≤ b.size)
    (hout : start + xs.length ≤ offset ∨ offset + 8 ≤ start) (n : Nat) :
    Spells (b.patch offset n).bytes start xs := by
  intro k hk
  rw [bytes_patch, getElem?_overwrite _ _ _ _ (by rwa [Code.length_word]), Code.length_word,
    if_neg (by omega), h k hk]

/-- Sites elsewhere leave what stands in bytes. -/
theorem spells_fill {τ : Label → Nat} {sites : List Site} {bytes : Array UInt8}
    (h : Spells bytes start xs)
    (hsites : ∀ s ∈ sites, s.offset + 8 ≤ bytes.size ∧
      (start + xs.length ≤ s.offset ∨ s.offset + 8 ≤ start)) :
    Spells (fill τ sites bytes) start xs := by
  intro k hk
  rw [getElem?_fill_of_outside, h k hk]
  intro s hs
  have := hsites s hs
  omega

/-- A word written behind the first bytes is one more of them. -/
theorem spells_patch_append (h : Spells b.bytes 0 xs) (hoffset : xs.length = offset)
    (hsize : offset + 8 ≤ b.size) (n : Nat) :
    Spells (b.patch offset n).bytes 0 (xs ++ Code.word n) := by
  refine .append (spells_patch_of_spells h hsize (.inl (by omega)) n) ?_
  rw [Nat.zero_add, hoffset]
  exact spells_patch hsize n

end Buffer

namespace Buffer.Tidy

variable {b : Buffer}

/-- The three words of the header tell where the table starts, how many functions there are, and
where the program starts. -/
theorem spells_header (hb : b.Tidy) (fs : List Function) :
    Spells (b.withTable fs).bytes 0 (Image.header b.size fs.length headerSize) := by
  obtain ⟨b', hb'⟩ : ∃ b', b.append (fs.flatMap Function.encode) = b' := ⟨_, rfl⟩
  have htidy : b'.Tidy := hb' ▸ hb.append _
  have hsize := htidy.header
  rw [headerSize] at hsize
  have htable : Spells (b'.patch 8 b.size).bytes 0 (magic ++ Code.word b.size) :=
    spells_patch_append htidy.opening length_magic (by omega) _
  have hcount : Spells ((b'.patch 8 b.size).patch 16 fs.length).bytes 0
      (magic ++ Code.word b.size ++ Code.word fs.length) := by
    refine spells_patch_append htable ?_ (by rw [size_patch]; omega) _
    rw [List.length_append, length_magic, Code.length_word]
  rw [withTable, hb']
  refine spells_patch_append hcount ?_ (by rw [size_patch, size_patch]; omega) _
  rw [List.length_append, List.length_append, length_magic, Code.length_word, Code.length_word]

/-- The table stands behind the code, and the header does not touch it. -/
theorem spells_table (hb : b.Tidy) (fs : List Function) :
    Spells (b.withTable fs).bytes b.size (fs.flatMap Function.encode) := by
  have hheader := hb.header
  rw [headerSize] at hheader
  have happend : Spells (b.append (fs.flatMap Function.encode)).bytes b.size
      (fs.flatMap Function.encode) := by
    intro k hk
    rw [getElem?_append, if_neg (by omega), Nat.add_sub_cancel_left]
  have hsize := b.size_append (fs.flatMap Function.encode)
  rw [withTable]
  refine spells_patch_of_spells (spells_patch_of_spells (spells_patch_of_spells happend
    (by omega) (.inr (by omega)) _) ?_ (.inr (by omega)) _) ?_ (.inr (by omega)) _ <;>
  · simp only [size_patch]
    omega

end Buffer.Tidy

namespace Image

variable {b : Buffer} {fs : List Function} {image : Image}

/-- The header of an assembled image stands at its start. -/
theorem spells_header_of_assemble (hb : b.Tidy) (h : Image.assemble b fs = .ok image) :
    Spells image.bytes 0 (header b.size fs.length headerSize) := by
  rw [bytes_of_assemble h]
  refine Buffer.spells_fill (hb.spells_header fs) fun s hs ↦ ?_
  have hsite := hb.sites s hs
  have hsize := b.size_withTable fs
  rw [Buffer.size] at hsize
  rw [length_header]
  exact ⟨by omega, .inl (by omega)⟩

/-- The table of an assembled image stands behind its code. -/
theorem spells_table_of_assemble (hb : b.Tidy) (h : Image.assemble b fs = .ok image) :
    Spells image.bytes b.size (fs.flatMap Function.encode) := by
  rw [bytes_of_assemble h]
  refine Buffer.spells_fill (hb.spells_table fs) fun s hs ↦ ?_
  have hsite := hb.sites s hs
  have hsize := b.size_withTable fs
  rw [Buffer.size] at hsize
  exact ⟨by omega, .inr (by omega)⟩

/-- An assembled image is loaded if its table is sound and its offsets fit into words. -/
theorem load_of_assemble (hb : b.Tidy) (h : Image.assemble b fs = .ok image)
    (hlt : image.bytes.size < UInt64.size)
    (hentries : ∀ f ∈ fs, Load.inCode b.size f.entry.toNat = true)
    (hnames : (fs.map Function.name).Nodup) : Image.load image.bytes = .ok image := by
  have hheader := hb.header
  have hsize : image.bytes.size = b.size + (fs.flatMap Function.encode).length := by
    rw [bytes_of_assemble h]
    exact (Buffer.size_fill _ _).trans (b.size_withTable fs)
  have hcount := Function.length_le_flatMap_encode fs
  have hopening := (spells_header_of_assemble hb h).drop_toList
  have htable := (spells_table_of_assemble hb h).drop_toList
  rw [List.drop_zero, Nat.zero_add, length_header] at hopening
  -- The table ends where the bytes end.
  rw [← hsize, List.drop_eq_nil_of_le (Nat.le_of_eq Array.length_toList), List.append_nil] at htable
  have hdrop : (image.bytes.toList.drop headerSize).drop (b.size - headerSize) =
      image.bytes.toList.drop b.size := by
    rw [List.drop_drop, Nat.add_sub_cancel' hheader]
  have hparts : image.bytes.toList = header b.size fs.length headerSize ++
      (image.bytes.toList.drop headerSize).take (b.size - headerSize) ++
      (fs.map Function.encode).flatten := by
    rw [← List.flatMap_def, ← htable, ← hdrop, List.append_assoc, List.take_append_drop]
    exact hopening
  have himage : image = ⟨image.bytes, b.size, headerSize, fs⟩ := by
    rw [bytes_of_assemble h]
  refine (load_of_format ⟨⟨hheader, ?_⟩, ⟨Nat.le_refl _, hheader⟩,
    fun f hf ↦ Load.inCode_iff.1 (hentries f hf), hnames, ⟨by omega, by omega⟩, _, _, ?_,
    Function.forall₂_written_encode (by omega), hparts⟩).trans (congrArg Except.ok himage.symm)
  · rw [Array.length_toList]
    omega
  · rw [List.length_take, List.length_drop, Array.length_toList]
    omega

end Image

/-! ### Compiled programs -/

namespace Image.Lists

variable {image : Image} {p : Program} {L : Listing}

/-- The functions of an image have the names of those of its program. -/
theorem map_name_functions (h : image.Lists p L) :
    image.functions.map Function.name =
      Function.mainName :: functionNames (Stmt.functionsAll p) := by
  rw [h.functions, ← h.listed.map_functions, functionNames, List.map_cons, List.map_map,
    List.map_map]
  refine congrArg (Function.mainName :: ·) (List.map_congr_left fun g _ ↦ ?_)
  exact g.name_function

/-- The functions of an image start in its code. -/
theorem inCode_entry (h : image.Lists p L) (hvalid : Stmt.validAll 0 .top p = true) :
    ∀ f ∈ image.functions, Load.inCode image.code.size f.entry.toNat = true := by
  simp only [Load.inCode, Bool.and_eq_true, decide_eq_true_eq]
  rw [h.functions, List.forall_mem_cons, List.forall_mem_map]
  refine ⟨h.bounds_of_notes (h.sound hvalid).1, fun g hg ↦ ?_⟩
  rw [h.toNat_entry hvalid hg]
  exact h.bounds_of_notes ((h.sound hvalid).2.functions g hg)

end Image.Lists

/-- **The image of a program that passes its checks is loaded as it is**, and its functions have
names of their own. -/
theorem Program.load_of_assemble {p : Program} {c : Context} {stop : Span} {image : Image}
    (hvalid : Stmt.validAll 0 .top p = true) (hchecked : Stmt.CheckedAll .start p c)
    (h : p.assemble stop = .ok image) :
    Image.load image.bytes = .ok image ∧ (image.functions.map Function.name).Nodup := by
  obtain ⟨L, hL⟩ := Program.exists_lists h
  obtain ⟨hassemble, hsize⟩ := Program.assemble_eq_ok.1 h
  have hnames : (image.functions.map Function.name).Nodup := by
    rw [hL.map_name_functions]
    exact Program.nodup_functionNames hchecked
  have hfunctions : image.functions = p.draft.functions.toList := by
    rw [Image.bytes_of_assemble hassemble]
  have hcode : image.code.size = p.draft.buffer.size :=
    (Image.agrees_of_assemble p.tidy_draft hassemble).1
  have hentries := hL.inCode_entry hvalid
  refine ⟨Image.load_of_assemble p.tidy_draft hassemble hsize ?_ ?_, hnames⟩
  · rwa [hcode, hfunctions] at hentries
  · rwa [hfunctions] at hnames

end Scriptlet
