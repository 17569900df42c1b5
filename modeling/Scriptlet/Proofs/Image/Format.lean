import Mathlib.Data.List.Forall2
import Scriptlet.Image.Load
import Scriptlet.Proofs.Code.Writing

/-!
# The format of an image

What bytes are an image is said here **without a reader**: as the header, the code and the table
that they are put together from. The loader accepts just these bytes and finds in them what they
were put together from.

Each part of the loader takes bytes from the front and leaves the rest, so each is settled in the
same words (`Image.Load.Reads`): it gives a result and a rest just if the bytes are that result, in
one of the ways to write it, with that rest behind. There are several ways only for the two flags of
a table entry, each of which any byte but zero raises.

**A number is written only if it fits into a word.** This is asked of each length and each count,
and not of the bytes as a whole, which may be any.
-/

namespace Scriptlet

/-! ### Words and texts -/

namespace Code

/-- A number is read back from its bytes if it fits into them. -/
theorem ofLeBytes_leBytes {k n : Nat} (h : n < 256 ^ k) : ofLeBytes (leBytes k n) = n := by
  induction k generalizing n with
  | zero =>
    rw [leBytes, ofLeBytes]
    omega
  | succ k ih =>
    have hdiv : n / 256 < 256 ^ k := Nat.div_lt_of_lt_mul (by rwa [Nat.pow_succ'] at h)
    rw [leBytes, ofLeBytes, ih hdiv, UInt8.toNat_ofNat']
    omega

/-- Bytes are those of the number that they make. -/
theorem leBytes_ofLeBytes (bs : List UInt8) : leBytes bs.length (ofLeBytes bs) = bs := by
  induction bs with
  | nil => rfl
  | cons b bs ih =>
    have hb := b.toNat_lt
    have hdiv : (b.toNat + 256 * ofLeBytes bs) / 256 = ofLeBytes bs := by
      omega
    have hmod : UInt8.ofNat (b.toNat + 256 * ofLeBytes bs) = b := by
      apply UInt8.toNat_inj.1
      rw [UInt8.toNat_ofNat']
      omega
    rw [List.length_cons, ofLeBytes, leBytes, hdiv, hmod, ih]

/-- The number of some bytes fits into them. -/
theorem ofLeBytes_lt (bs : List UInt8) : ofLeBytes bs < 256 ^ bs.length := by
  induction bs with
  | nil => decide
  | cons b bs ih =>
    have hb := b.toNat_lt
    rw [List.length_cons, ofLeBytes, Nat.pow_succ']
    omega

/-- Bytes that are the text of something are its bytes. -/
theorem ofUtf8?_eq_some_iff {bs : List UInt8} {s : String} :
    ofUtf8? bs.toArray = some s ↔ bs = utf8 s := by
  constructor
  · intro h
    rw [ofUtf8?, String.fromUTF8?] at h
    split at h
    · obtain rfl := Option.some.inj h
      rfl
    · cases h
  · rintro rfl
    exact ofUtf8?_utf8 s

end Code

theorem Tag.ofByte?_eq_some_iff {b : UInt8} {t : Tag} : Tag.ofByte? b = some t ↔ b = t.byte := by
  constructor
  · intro h
    unfold Tag.ofByte? at h
    split at h <;> cases h <;> rfl
  · rintro rfl
    exact Tag.ofByte?_byte t

namespace Function

/-- The bytes of a table entry whose flags are these bytes. -/
def encodeWith (f : Function) (void typed : UInt8) : List UInt8 :=
  Code.sized f.name ++ Code.word f.entry.toNat ++ [void, typed, f.type.byte]
    ++ Code.word f.params.length ++ f.params.flatMap Code.sized

/-- The lengths of the names in a table entry and the number of its parameters fit into words. -/
structure Fits (f : Function) : Prop where
  name : f.name.utf8ByteSize < UInt64.size
  count : f.params.length < UInt64.size
  params : ∀ s ∈ f.params, s.utf8ByteSize < UInt64.size

/-- Some bytes are a table entry, with zero for a flag that is not raised and any other byte for one
that is. -/
def Written (f : Function) (bs : List UInt8) : Prop :=
  f.Fits ∧ ∃ void typed, (void != 0) = f.isVoid ∧ (typed != 0) = f.isTyped ∧
    bs = f.encodeWith void typed

end Function

namespace Image

/-- The header of an image, given where its table starts, how many functions it has and where the
program starts. -/
def header (tableOffset count mainEntry : Nat) : List UInt8 :=
  magic ++ Code.word tableOffset ++ Code.word count ++ Code.word mainEntry

theorem length_header (tableOffset count mainEntry : Nat) :
    (header tableOffset count mainEntry).length = headerSize := by
  simp only [header, List.length_append, Code.length_word, Buffer.length_magic, headerSize]

/-- Some bytes are an image with this table offset, main entry and function table. -/
structure Format (bs : List UInt8) (tableOffset mainEntry : Nat) (functions : List Function) :
    Prop where
  table : headerSize ≤ tableOffset ∧ tableOffset ≤ bs.length
  main : headerSize ≤ mainEntry ∧ mainEntry ≤ tableOffset
  entries : ∀ f ∈ functions, headerSize ≤ f.entry.toNat ∧ f.entry.toNat ≤ tableOffset
  names : (functions.map Function.name).Nodup
  fits : tableOffset < UInt64.size ∧ functions.length < UInt64.size
  /-- The header, any code up to the table, and the entries of the table. -/
  parts : ∃ code entries, code.length = tableOffset - headerSize ∧
    List.Forall₂ Function.Written functions entries ∧
    bs = header tableOffset functions.length mainEntry ++ code ++ entries.flatten

end Image

namespace Image.Load

variable {size : Nat}

theorem bind_eq_ok {α β : Type} {x : Except FormatError α} {next : α → Except FormatError β}
    {b : β} : (x >>= next) = .ok b ↔ ∃ a, x = .ok a ∧ next a = .ok b := by
  cases x with
  | error e => exact ⟨nofun, nofun⟩
  | ok a => exact ⟨fun h ↦ ⟨a, rfl, h⟩, fun ⟨_, ha, h⟩ ↦ Except.ok.inj ha ▸ h⟩

/-- A check with more to do behind it. -/
theorem check_eq_ok {β : Type} {c : Prop} [Decidable c] {e : FormatError}
    {x : Except FormatError β} {b : β} :
    (if c then .error e else x) = .ok b ↔ ¬ c ∧ x = .ok b := by
  split
  · next hc => exact ⟨nofun, fun ⟨hnc, _⟩ ↦ absurd hc hnc⟩
  · next hc => exact ⟨fun h ↦ ⟨hc, h⟩, And.right⟩

/-- A reader gives a result and a rest just if the bytes are that result as it may be written, with
that rest behind. -/
def Reads {α : Type} (read : List UInt8 → Except FormatError (α × List UInt8))
    (written : α → List UInt8 → Prop) : Prop :=
  ∀ bs a rest, read bs = .ok (a, rest) ↔ ∃ front, written a front ∧ bs = front ++ rest

/-- A reader with more to do behind it. -/
theorem Reads.bind_eq_ok {α β : Type} {read : List UInt8 → Except FormatError (α × List UInt8)}
    {written : α → List UInt8 → Prop} (h : Reads read written) {bs : List UInt8}
    {next : α × List UInt8 → Except FormatError β} {b : β} :
    (read bs >>= next) = .ok b ↔
      ∃ a front rest, written a front ∧ bs = front ++ rest ∧ next (a, rest) = .ok b := by
  rw [Load.bind_eq_ok]
  constructor
  · rintro ⟨⟨a, rest⟩, hread, hnext⟩
    obtain ⟨front, hwritten, hbs⟩ := (h bs a rest).1 hread
    exact ⟨a, front, rest, hwritten, hbs, hnext⟩
  · rintro ⟨a, front, rest, hwritten, hbs, hnext⟩
    exact ⟨(a, rest), (h bs a rest).2 ⟨front, hwritten, hbs⟩, hnext⟩

/-! ### The readers -/

/-- Bytes are taken from the front, as many as asked for. -/
theorem split?_eq_some_iff {n : Nat} {bs front rest : List UInt8} :
    split? n bs = some (front, rest) ↔ front.length = n ∧ bs = front ++ rest := by
  induction n, bs using split?.induct generalizing front with
  | case1 bs =>
    rw [split?, Option.some_inj, Prod.mk.injEq, List.length_eq_zero_iff]
    constructor
    · rintro ⟨rfl, rfl⟩
      exact ⟨rfl, rfl⟩
    · rintro ⟨rfl, rfl⟩
      exact ⟨rfl, rfl⟩
  -- Nothing can be taken where nothing is.
  | case2 n =>
    rw [split?]
    refine ⟨nofun, fun ⟨hlen, h⟩ ↦ ?_⟩
    rw [(List.append_eq_nil_iff.1 h.symm).1] at hlen
    cases hlen
  | case3 n b bs ih =>
    rw [split?, Option.map_eq_some_iff]
    constructor
    · rintro ⟨⟨front', rest'⟩, h, heq⟩
      cases heq
      obtain ⟨rfl, rfl⟩ := ih.1 h
      exact ⟨rfl, rfl⟩
    · rintro ⟨hlen, h⟩
      cases front with
      | nil => cases hlen
      | cons b' front =>
        obtain ⟨rfl, rfl⟩ := List.cons.inj h
        exact ⟨(front, rest), ih.2 ⟨Nat.succ.inj hlen, rfl⟩, rfl⟩

/-- Bytes are read as they are. -/
theorem reads_bytes (n : Nat) : Reads (bytes size n) fun a front ↦ a.length = n ∧ front = a := by
  intro bs a rest
  have hbytes : bytes size n bs = .ok (a, rest) ↔ split? n bs = some (a, rest) := by
    rw [bytes]
    cases split? n bs with
    | none => exact ⟨nofun, nofun⟩
    | some r => rw [Except.ok.injEq, Option.some_inj]
  rw [hbytes, split?_eq_some_iff]
  constructor
  · rintro ⟨hlen, rfl⟩
    exact ⟨a, ⟨hlen, rfl⟩, rfl⟩
  · rintro ⟨_, ⟨hlen, rfl⟩, rfl⟩
    exact ⟨hlen, rfl⟩

theorem reads_byte : Reads (byte size) fun b front ↦ front = [b] := by
  intro bs b rest
  cases bs with
  | nil => exact ⟨nofun, by rintro ⟨_, rfl, h⟩; cases h⟩
  | cons b' bs =>
    rw [byte, Except.ok.injEq, Prod.mk.injEq]
    constructor
    · rintro ⟨rfl, rfl⟩
      exact ⟨_, rfl, rfl⟩
    · rintro ⟨_, rfl, h⟩
      exact List.cons.inj h

/-- A word is eight bytes, the lowest first. -/
theorem reads_word :
    Reads (word size) fun n front ↦ n < UInt64.size ∧ front = Code.word n := by
  intro bs n rest
  rw [word, (reads_bytes 8).bind_eq_ok]
  constructor
  · rintro ⟨w, _, rest', ⟨hlen, rfl⟩, rfl, h⟩
    cases h
    refine ⟨_, ⟨?_, ?_⟩, rfl⟩
    · exact Nat.lt_of_lt_of_eq (Code.ofLeBytes_lt _) (by simp [hlen, UInt64.size])
    · rw [Code.word, ← hlen, Code.leBytes_ofLeBytes]
  · rintro ⟨_, ⟨hn, rfl⟩, rfl⟩
    refine ⟨_, _, rest, ⟨Code.length_word n, rfl⟩, rfl, ?_⟩
    show Except.ok (Code.ofLeBytes (Code.word n), rest) = _
    rw [Code.word, Code.ofLeBytes_leBytes hn]

/-- A text is its length and its bytes. -/
theorem reads_text :
    Reads (text size) fun s front ↦ s.utf8ByteSize < UInt64.size ∧ front = Code.sized s := by
  intro bs s rest
  simp only [text, reads_word.bind_eq_ok, (reads_bytes _).bind_eq_ok]
  constructor
  · rintro ⟨_, _, _, ⟨hlt, rfl⟩, rfl, raw, _, rest', ⟨rfl, rfl⟩, rfl, h⟩
    split at h
    · next s' hs =>
      cases h
      obtain rfl := Code.ofUtf8?_eq_some_iff.1 hs
      rw [Code.length_utf8] at hlt ⊢
      exact ⟨_, ⟨hlt, rfl⟩, by rw [Code.sized, List.append_assoc]⟩
    · cases h
  · rintro ⟨_, ⟨hlt, rfl⟩, rfl⟩
    refine ⟨_, _, Code.utf8 s ++ rest, ⟨hlt, rfl⟩, ?_,
      _, _, rest, ⟨Code.length_utf8 s, rfl⟩, rfl, ?_⟩
    · rw [Code.sized, List.append_assoc]
    · rw [Code.ofUtf8?_utf8]

/-- Texts are read one behind the other, as many as asked for. -/
theorem reads_texts (count : Nat) : Reads (texts size count) fun ss front ↦
    ss.length = count ∧ (∀ s ∈ ss, s.utf8ByteSize < UInt64.size) ∧
    front = ss.flatMap Code.sized := by
  -- Both ways at once: what is read has the format, and whatever has it is read.
  induction count with
  | zero =>
    intro bs ss rest
    rw [texts, Except.ok.injEq, Prod.mk.injEq]
    constructor
    · rintro ⟨rfl, rfl⟩
      exact ⟨[], ⟨rfl, nofun, rfl⟩, rfl⟩
    · rintro ⟨_, ⟨hlen, -, rfl⟩, rfl⟩
      obtain rfl := List.length_eq_zero_iff.1 hlen
      exact ⟨rfl, rfl⟩
  | succ count ih =>
    intro bs ss rest
    simp only [texts, reads_text.bind_eq_ok, ih.bind_eq_ok]
    constructor
    · rintro ⟨s, _, _, ⟨hs, rfl⟩, rfl, ss', _, _, ⟨rfl, hss, rfl⟩, rfl, h⟩
      cases h
      refine ⟨_, ⟨rfl, List.forall_mem_cons.2 ⟨hs, hss⟩, rfl⟩, ?_⟩
      rw [List.flatMap_cons, List.append_assoc]
    · rintro ⟨_, ⟨hlen, hss, rfl⟩, rfl⟩
      obtain ⟨s, ss, rfl⟩ := List.exists_cons_of_length_eq_add_one hlen
      rw [List.forall_mem_cons] at hss
      refine ⟨s, _, _, ⟨hss.1, rfl⟩, ?_, ss, _, rest, ⟨Nat.succ.inj hlen, hss.2, rfl⟩, rfl, rfl⟩
      rw [List.flatMap_cons, List.append_assoc]

/-- **An entry of the table is read just if it is written as one**; a flag may be raised by any byte
but zero. -/
theorem reads_function : Reads (function size) Function.Written := by
  intro bs f rest
  simp only [function, reads_text.bind_eq_ok, reads_word.bind_eq_ok, reads_byte.bind_eq_ok]
  -- From left to right the parts are read off one by one; the other way they are given to the
  -- readers in the same order.
  constructor
  · rintro ⟨name, _, _, ⟨hname, rfl⟩, rfl,
      entry, _, _, ⟨hentry, rfl⟩, rfl,
      void, _, _, rfl, rfl,
      typed, _, _, rfl, rfl,
      tag, _, _, rfl, rfl, h⟩
    split at h
    · cases h
    · next type htype =>
      simp only [reads_word.bind_eq_ok, (reads_texts _).bind_eq_ok] at h
      obtain ⟨_, _, _, ⟨hcount, rfl⟩, rfl,
        params, _, _, ⟨rfl, hparams, rfl⟩, rfl, h⟩ := h
      cases h
      obtain rfl := Tag.ofByte?_eq_some_iff.1 htype
      refine ⟨_, ⟨⟨hname, hcount, hparams⟩, void, typed, rfl, rfl, rfl⟩, ?_⟩
      have hentry : (UInt64.ofNat entry).toNat = entry := UInt64.toNat_ofNat_of_lt' hentry
      simp only [Function.encodeWith, hentry, List.append_assoc, List.cons_append, List.nil_append]
  · rintro ⟨_, ⟨hfits, void, typed, hvoid, htyped, rfl⟩, rfl⟩
    simp only [Function.encodeWith, List.append_assoc]
    refine ⟨f.name, _, _, ⟨hfits.name, rfl⟩, rfl,
      f.entry.toNat, _, _, ⟨f.entry.toNat_lt, rfl⟩, rfl,
      void, _, _, rfl, rfl,
      typed, _, _, rfl, rfl,
      f.type.byte, _, _, rfl, rfl, ?_⟩
    simp only [Tag.ofByte?_byte, reads_word.bind_eq_ok, (reads_texts _).bind_eq_ok]
    refine ⟨_, _, _, ⟨hfits.count, rfl⟩, rfl,
      f.params, _, rest, ⟨rfl, hfits.params, rfl⟩, rfl, ?_⟩
    rw [hvoid, htyped, UInt64.ofNat_toNat]
    rfl

/-- An offset may be that of code if it lies between the header and the table. -/
theorem inCode_iff {tableOffset offset : Nat} :
    inCode tableOffset offset = true ↔ headerSize ≤ offset ∧ offset ≤ tableOffset := by
  rw [inCode, Bool.and_eq_true, decide_eq_true_eq, decide_eq_true_eq]

/-- A table is read if its entries lie in the code and have names of their own, other than those
taken before. -/
theorem reads_functions (tableOffset count : Nat) (taken : List String) :
    Reads (functions size tableOffset count taken) fun fs front ↦
      fs.length = count ∧ (∀ f ∈ fs, inCode tableOffset f.entry.toNat = true) ∧
      (fs.map Function.name).Nodup ∧ (∀ f ∈ fs, f.name ∉ taken) ∧
      ∃ parts, List.Forall₂ Function.Written fs parts ∧ front = parts.flatten := by
  induction count generalizing taken with
  | zero =>
    intro bs fs rest
    rw [functions, Except.ok.injEq, Prod.mk.injEq]
    constructor
    · rintro ⟨rfl, rfl⟩
      exact ⟨[], ⟨rfl, nofun, List.nodup_nil, nofun, [], .nil, rfl⟩, rfl⟩
    · rintro ⟨_, ⟨hlen, -, -, -, parts, hparts, rfl⟩, rfl⟩
      obtain rfl := List.length_eq_zero_iff.1 hlen
      cases hparts
      exact ⟨rfl, rfl⟩
  | succ count ih =>
    intro bs fs rest
    simp only [functions, reads_function.bind_eq_ok, check_eq_ok, (ih _).bind_eq_ok,
      Bool.not_eq_true', Bool.not_eq_false, List.contains_iff_mem]
    constructor
    · rintro ⟨f, part, _, hf, rfl, hentry, hname, fs, _, _,
        ⟨rfl, hentries, hnames, htaken, parts, hparts, rfl⟩, rfl, h⟩
      cases h
      -- Those behind this entry have none of the names taken, and this one is taken for them.
      have hnotMem : f.name ∉ fs.map Function.name := by
        rintro hmem
        obtain ⟨g, hg, heq⟩ := List.mem_map.1 hmem
        exact htaken g hg (heq ▸ List.mem_cons_self)
      have htaken' : ∀ g ∈ f :: fs, g.name ∉ taken :=
        List.forall_mem_cons.2 ⟨hname, fun g hg hmem ↦ htaken g hg (List.mem_cons_of_mem _ hmem)⟩
      refine ⟨_, ⟨rfl, List.forall_mem_cons.2 ⟨hentry, hentries⟩,
        List.nodup_cons.2 ⟨hnotMem, hnames⟩, htaken', part :: parts, .cons hf hparts, rfl⟩, ?_⟩
      rw [List.flatten_cons, List.append_assoc]
    · rintro ⟨_, ⟨hlen, hentries, hnames, htaken, parts, hparts, rfl⟩, rfl⟩
      obtain ⟨f, fs, rfl⟩ := List.exists_cons_of_length_eq_add_one hlen
      cases hparts with
      | @cons _ part _ parts hf hparts =>
        rw [List.forall_mem_cons] at hentries htaken
        rw [List.map_cons, List.nodup_cons] at hnames
        have htaken' : ∀ g ∈ fs, g.name ∉ f.name :: taken := by
          intro g hg hmem
          rcases List.mem_cons.1 hmem with heq | hmem
          · exact hnames.1 (heq ▸ List.mem_map_of_mem hg)
          · exact htaken.2 g hg hmem
        refine ⟨f, part, _, hf, ?_, hentries.1, htaken.1, fs, _, rest,
          ⟨Nat.succ.inj hlen, hentries.2, hnames.2, htaken', parts, hparts, rfl⟩, rfl, rfl⟩
        rw [List.flatten_cons, List.append_assoc]

end Image.Load

/-! ### Whole images -/

namespace Image

variable {bytes : Array UInt8}

/-- Bytes of the format are loaded as what they were put together from. -/
theorem load_of_format {tableOffset mainEntry : Nat} {fs : List Function}
    (h : Format bytes.toList tableOffset mainEntry fs) :
    Image.load bytes = .ok ⟨bytes, tableOffset, mainEntry, fs⟩ := by
  obtain ⟨code, entries, hcode, hentries, hbytes⟩ := h.parts
  have hfits := h.fits
  have htable := h.table
  have hmain := h.main
  have hdrop : bytes.toList.drop tableOffset = entries.flatten ++ [] := by
    rw [hbytes, List.append_nil]
    apply List.drop_left'
    rw [List.length_append, length_header, hcode]
    omega
  simp only [Image.load, (Load.reads_bytes _).bind_eq_ok, Load.check_eq_ok,
    Load.reads_word.bind_eq_ok, (Load.reads_functions _ _ _).bind_eq_ok]
  rw [Array.length_toList] at htable
  simp only [header, List.append_assoc] at hbytes
  -- The parts of the header in their order, then the checks, then the table.
  refine ⟨magic, _, _, ⟨Buffer.length_magic, rfl⟩, hbytes, by simp,
    tableOffset, _, _, ⟨hfits.1, rfl⟩, rfl,
    fs.length, _, _, ⟨hfits.2, rfl⟩, rfl,
    mainEntry, _, _, ⟨by omega, rfl⟩, rfl, ?_, ?_,
    fs, _, [], ⟨rfl, ?_, h.names, fun _ _ ↦ List.not_mem_nil, entries, hentries, rfl⟩, hdrop, rfl⟩
  · simpa using htable
  · simpa [Load.inCode] using hmain
  · exact fun f hf ↦ Load.inCode_iff.2 (h.entries f hf)

/-- Bytes that are loaded are of the format. -/
theorem format_of_load {image : Image} (h : Image.load bytes = .ok image) :
    image.bytes = bytes ∧
      Format bytes.toList image.tableOffset image.mainEntry image.functions := by
  simp only [Image.load, (Load.reads_bytes _).bind_eq_ok, Load.check_eq_ok,
    Load.reads_word.bind_eq_ok, (Load.reads_functions _ _ _).bind_eq_ok] at h
  obtain ⟨_, _, _, ⟨-, rfl⟩, hbytes, hmagic,
    tableOffset, _, _, ⟨htableFits, rfl⟩, rfl,
    _, _, _, ⟨hcountFits, rfl⟩, rfl,
    mainEntry, _, behind, ⟨-, rfl⟩, rfl, htable, hmain,
    fs, _, rest, ⟨rfl, hentries, hnames, -, entries, hwritten, rfl⟩, hdrop, h⟩ := h
  simp only [bne_iff_ne, ne_eq, not_not] at hmagic
  obtain rfl := hmagic
  simp only [Bool.not_eq_true', Bool.not_eq_false, Bool.and_eq_true, decide_eq_true_eq] at htable
  simp only [Bool.not_eq_true', Bool.not_eq_false, Load.inCode_iff] at hmain
  cases rest with
  | cons b rest => cases h
  | nil =>
    cases h
    have hheader : bytes.toList = header tableOffset fs.length mainEntry ++ behind := by
      simp only [hbytes, header, List.append_assoc]
    have hlen := length_header tableOffset fs.length mainEntry
    have hbehind : behind.drop (tableOffset - headerSize) = entries.flatten := by
      rw [List.append_nil, hheader, List.drop_append, List.drop_eq_nil_of_le (by omega), hlen,
        List.nil_append] at hdrop
      exact hdrop
    -- The code is what stands between the header and the table, which the reader passes over.
    refine ⟨rfl, ⟨htable, hmain, fun f hf ↦ Load.inCode_iff.1 (hentries f hf), hnames,
      ⟨htableFits, hcountFits⟩, behind.take (tableOffset - headerSize), entries, ?_, hwritten, ?_⟩⟩
    · have hsize := congrArg List.length hheader
      rw [List.length_append, hlen, Array.length_toList] at hsize
      rw [List.length_take]
      show min (tableOffset - headerSize) _ = tableOffset - headerSize
      omega
    · rw [← hbehind, List.append_assoc, List.take_append_drop, hheader]

/-- **The loader accepts exactly the format**, and then the image has the parts that the bytes were
put together from. -/
theorem load_eq_ok_iff_format (bytes : Array UInt8) (image : Image) :
    Image.load bytes = .ok image ↔ image.bytes = bytes ∧
      Format bytes.toList image.tableOffset image.mainEntry image.functions := by
  constructor
  · exact format_of_load
  · rintro ⟨rfl, hformat⟩
    exact load_of_format hformat

end Image

end Scriptlet
