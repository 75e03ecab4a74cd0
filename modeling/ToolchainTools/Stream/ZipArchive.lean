import ToolchainTools.Stream.Buffer
import ToolchainTools.Stream.Zip

/-!
# Zip archives

Where a central header ends as the format has it, and where `read_zip_file_header` leaves
the file; then the layout of a central directory with ZIP64 records, and what the calls of
`next_zip_file` and `open_zip_file` return over a file with such a directory.
-/

namespace ToolchainTools

open CLib Posix Streams

variable {ζ : Type}

/-! ## Framing -/

/-- Where the central header at `pos` ends in the format. -/
def headerEnd (content : Bytes) (pos : Nat) : Nat :=
  pos + zipFileHeaderSize + nameLen content pos + extraLen content pos + commentLen content pos

/-- The two places that hold the position behind a header: where the file is left, and what
the loop of `next_zip_file` saves. -/
theorem zipRound_pos {z : ZipContainer} (h : (zipRound z).1 = 0) :
    (readZipFileHeader { z with f := z.f.seek z.diroff }).1 = 0 ∧
      (zipRound z).2.diroff = (readZipFileHeader { z with f := z.f.seek z.diroff }).2.f.pos := by
  revert h
  unfold zipRound
  split
  · intro h
    cases h
  · rename_i f hseek
    rw [← CFile.fseekSet_eq_some hseek]
    dsimp only
    split
    · rename_i hread
      exact fun _ => ⟨hread, rfl⟩
    · split <;> intro h <;> cases h

/-- **Framing of the central directory.** When a header has been read, the position left and
saved is the end of the header exactly if the header has no comment and no record of
its extra field overruns, or it has a comment of four bytes and a record overruns. -/
theorem zip_framing_iff (z : ZipContainer) (h : (zipRound z).1 = 0) :
    ((readZipFileHeader { z with f := z.f.seek z.diroff }).2.f.pos =
          headerEnd z.f.readable z.diroff ∧
        (zipRound z).2.diroff = headerEnd z.f.readable z.diroff) ↔
      commentLen z.f.readable z.diroff =
        if headerOverruns z.f.readable z.diroff then 4 else 0 := by
  obtain ⟨hread, hsaved⟩ := zipRound_pos h
  have hpos : (readZipFileHeader { z with f := z.f.seek z.diroff }).2.f.pos =
      z.diroff + zipFileHeaderSize + nameLen z.f.readable z.diroff +
        extraLen z.f.readable z.diroff +
        (if headerOverruns z.f.readable z.diroff then 4 else 0) := (readZipFileHeader_pos hread).2.1
  rw [hsaved, and_self, hpos, headerEnd]
  cases headerOverruns z.f.readable z.diroff with
  | false =>
    simp only [Bool.false_eq_true, if_false]
    omega
  | true =>
    simp only [if_true]
    omega

/-- A central header with the given lengths and nothing else. -/
def bareHeader (nameLen extraLen commentLen : Nat) : Bytes :=
  littleBytes 4 zipFileHeaderSig ++ List.replicate 24 0 ++ littleBytes 2 nameLen ++
    littleBytes 2 extraLen ++ littleBytes 2 commentLen ++ List.replicate 12 0

/-- Two entries `a` and `b`, the first with the comment `c`. -/
def commentedZip : Bytes :=
  bareHeader 1 0 1 ++ lit "ac" ++ bareHeader 1 0 0 ++ lit "b"

/-- A container at the start of a directory. -/
def zipAt (content : Bytes) (diroff : Nat) : ZipContainer :=
  ⟨⟨[], none, 0, 0⟩, .ofBytes content, diroff, 0, 0, 0, 0, [], false⟩

/-- An entry whose extra field has a record that overruns it, with a comment of four bytes. -/
def overrunZip : Bytes := bareHeader 1 6 4 ++ lit "a" ++ [7, 0, 200, 0, 1, 2] ++ lit "note"

/-- The overrun makes up for the comment. -/
theorem zip_framing_iff_overrun :
    headerOverruns overrunZip 0 = true ∧ commentLen overrunZip 0 = 4 ∧
      (readZipFileHeader (zipAt overrunZip 0)).2.f.pos = headerEnd overrunZip 0 ∧
      (zipRound (zipAt overrunZip 0)).2.diroff = headerEnd overrunZip 0 := by
  have hover : headerOverruns overrunZip 0 = true := by decide +kernel
  have hcomment : commentLen overrunZip 0 = 4 := by decide +kernel
  have hframed := zip_framing_iff (zipAt overrunZip 0) (by decide +kernel)
  have hlen : commentLen (zipAt overrunZip 0).f.readable (zipAt overrunZip 0).diroff =
      if headerOverruns (zipAt overrunZip 0).f.readable (zipAt overrunZip 0).diroff then 4 else 0 := by
    rw [show headerOverruns (zipAt overrunZip 0).f.readable (zipAt overrunZip 0).diroff = true from
      hover, if_pos rfl]
    exact hcomment
  exact ⟨hover, hcomment, hframed.mpr hlen⟩

/-- The comment of the first entry hides the second one, and the walk still ends well. -/
theorem comment_hides_entry :
    (zipRound (zipAt commentedZip 0)).1 = 0 ∧
      (zipRound (zipAt commentedZip 0)).2.diroff ≠ headerEnd commentedZip 0 ∧
      (nextZipFile (zipAt commentedZip (headerEnd commentedZip 0))).1 = 0 ∧
      (nextZipFile (nextZipFile (zipAt commentedZip 0)).2).1 = 1 := by
  decide +kernel

/-! ## The layout of an entry -/

/-- One of the three 64-bit values of an entry. A wide one is `0xFFFFFFFF` in the header and
stands in the ZIP64 record. -/
structure ZipLength where
  value : Nat
  wide : Bool
  value_lt : value < 2 ^ 64
  narrow_lt : wide = false → value < 2 ^ 32

def ZipLength.inHeader (l : ZipLength) : Nat := if l.wide then 0xFFFFFFFF else l.value

def ZipLength.data (l : ZipLength) : Bytes := if l.wide then littleBytes 8 l.value else []

structure ZipLengths where
  uncompressed : ZipLength
  compressed : ZipLength
  headerOff : ZipLength

def ZipLengths.all (ls : ZipLengths) : List ZipLength :=
  [ls.uncompressed, ls.compressed, ls.headerOff]

def ZipLengths.data (ls : ZipLengths) : Bytes :=
  ls.uncompressed.data ++ (ls.compressed.data ++ ls.headerOff.data)

inductive ExtraRecord where
  | zip64
  | other (tag : Nat) (data : Bytes)
  deriving DecidableEq

def encodeRecord (ls : ZipLengths) : ExtraRecord → Bytes
  | .zip64 => littleBytes 2 zip64FileExtra ++ littleBytes 2 ls.data.length ++ ls.data
  | .other tag data => littleBytes 2 tag ++ littleBytes 2 data.length ++ data

def encodeExtra (ls : ZipLengths) (records : List ExtraRecord) (spare : Bytes) : Bytes :=
  records.flatMap (encodeRecord ls) ++ spare

/-- An entry of a central directory without a comment. A ZIP64 record holds exactly the
values that are `0xFFFFFFFF` in the header. A second ZIP64 record is allowed as long
as none of the values is `0xFFFFFFFF` itself. -/
structure ZipEntry where
  name : Bytes
  path : Bytes
  method : Nat
  attributes : Nat
  lengths : ZipLengths
  records : List ExtraRecord
  spare : Bytes
  /-- The fields that the reader never looks at. -/
  versions : Packed 6
  stamps : Packed 8
  disk : Packed 4
  name_length : name.length < 2 ^ 16
  name_nul : (0 : UInt8) ∉ name
  clean : cleanPath (replaceChar name backslash slash) [] = some path
  method_lt : method < 2 ^ 16
  attributes_lt : attributes < 2 ^ 32
  tags : ∀ tag data, .other tag data ∈ records → tag ≠ zip64FileExtra ∧ tag < 2 ^ 16
  spare_length : spare.length < 4
  extra_length : (encodeExtra lengths records spare).length < 2 ^ 16
  wide_record : ∀ l ∈ lengths.all, l.wide = true → .zip64 ∈ records
  narrow_values : .zip64 ∈ records → ∀ l ∈ lengths.all, l.wide = false → l.value ≠ 0xFFFFFFFF
  once : records.count .zip64 ≤ 1 ∨ ∀ l ∈ lengths.all, l.value ≠ 0xFFFFFFFF

namespace ZipEntry

def extra (e : ZipEntry) : Bytes := encodeExtra e.lengths e.records e.spare

def headerFields (e : ZipEntry) : List Bytes :=
  [littleBytes 4 zipFileHeaderSig, e.versions.1, littleBytes 2 e.method, e.stamps.1,
    littleBytes 4 e.lengths.compressed.inHeader, littleBytes 4 e.lengths.uncompressed.inHeader,
    littleBytes 2 e.name.length, littleBytes 2 e.extra.length, littleBytes 2 0, e.disk.1,
    littleBytes 4 e.attributes, littleBytes 4 e.lengths.headerOff.inHeader]

def encode (e : ZipEntry) : Bytes := e.headerFields.flatten ++ (e.name ++ e.extra)

/-- A name that ends in a slash is a directory. -/
def isFile (e : ZipEntry) : Bool := e.path.getLast? ≠ some slash

/-- What `next_zip_file` is to report. -/
def member (e : ZipEntry) : Member :=
  ⟨e.path, none, e.lengths.uncompressed.value,
    if e.attributes.testBit 22 then 0o755 else 0o644⟩

end ZipEntry

/-! ## Reading an entry -/

section Records

variable {content tail : Bytes}

theorem ZipLength.inHeader_lt (l : ZipLength) : l.inHeader < 2 ^ 32 := by
  unfold ZipLength.inHeader
  split
  · norm_num
  · rename_i h
    exact l.narrow_lt (by simpa using h)

theorem zip64Field_wide {f : CFile} {l : ZipLength} (sz : Nat)
    (hnarrow : l.wide = false → l.value ≠ 0xFFFFFFFF) (hsz : l.data.length ≤ sz)
    (h : CFile.Ahead content f (l.data ++ tail)) :
    ∃ f', zip64Field f l.inHeader sz = some (l.value, sz - l.data.length, f') ∧
      CFile.Ahead content f' tail := by
  unfold ZipLength.data at hsz h ⊢
  unfold ZipLength.inHeader
  cases hwide : l.wide with
  | false =>
    simp only [hwide, Bool.false_eq_true, if_false, List.nil_append] at h ⊢
    refine ⟨f, ?_, h⟩
    unfold zip64Field
    rw [if_neg (fun hc => hnarrow hwide hc.1)]
    rfl
  | true =>
    simp only [hwide, if_true, length_littleBytes] at h hsz ⊢
    obtain ⟨hread, hahead⟩ := h.fread (length_littleBytes 8 l.value)
    refine ⟨_, ?_, hahead⟩
    unfold zip64Field
    rw [if_pos ⟨rfl, hsz⟩, hread]
    simp only [length_littleBytes, ne_eq, not_true_eq_false, if_false]
    rw [little_64 l.value_lt]

/-- What the container holds of a value before and after the ZIP64 record. -/
def ZipLength.seen (l : ZipLength) (done : Bool) : Nat := if done then l.value else l.inHeader

/-- A container at `f` that has seen the values of an entry. -/
def ZipLengths.put (ls : ZipLengths) (done : Bool) (z : ZipContainer) (f : CFile) : ZipContainer :=
  { z with
    uncompressedLen := ls.uncompressed.seen done
    compressedLen := ls.compressed.seen done
    headerOff := ls.headerOff.seen done
    f := f }

/-- The first ZIP64 record is read in full. -/
theorem zip64Record_first {ls : ZipLengths} {z : ZipContainer} {f : CFile}
    (hexact : ∀ l ∈ ls.all, l.wide = false → l.value ≠ 0xFFFFFFFF)
    (h : CFile.Ahead content f (ls.data ++ tail)) :
    ∃ f', zip64Record (ls.put false z f) ls.data.length = some (0, ls.put true z f') ∧
      CFile.Ahead content f' tail := by
  have hlen : ls.data.length = ls.uncompressed.data.length +
      (ls.compressed.data.length + ls.headerOff.data.length) := by
    simp [ZipLengths.data]
  rw [ZipLengths.data, List.append_assoc, List.append_assoc] at h
  obtain ⟨f1, hread1, h1⟩ := zip64Field_wide ls.data.length (hexact _ (by simp [ZipLengths.all]))
      (by omega) h
  obtain ⟨f2, hread2, h2⟩ := zip64Field_wide (ls.data.length - ls.uncompressed.data.length)
      (hexact _ (by simp [ZipLengths.all])) (by omega) h1
  obtain ⟨f3, hread3, h3⟩ := zip64Field_wide
      (ls.data.length - ls.uncompressed.data.length - ls.compressed.data.length)
      (hexact _ (by simp [ZipLengths.all])) (by omega) h2
  refine ⟨f3, ?_, h3⟩
  simp only [zip64Record, ZipLengths.put, ZipLength.seen, Bool.false_eq_true, if_false, hread1,
    hread2, hread3, Option.bind_some, if_true]
  congr 2
  omega

/-- A further ZIP64 record is not needed any more. -/
theorem zip64Record_again {ls : ZipLengths} {z : ZipContainer} {f : CFile} {sz : Nat}
    (hvalues : ∀ l ∈ ls.all, l.value ≠ 0xFFFFFFFF) :
    zip64Record (ls.put true z f) sz = some (sz, ls.put true z f) := by
  have hu := hvalues ls.uncompressed (by simp [ZipLengths.all])
  have hc := hvalues ls.compressed (by simp [ZipLengths.all])
  have ho := hvalues ls.headerOff (by simp [ZipLengths.all])
  simp only [zip64Record, ZipLengths.put, ZipLength.seen, if_true, zip64Field, hu, hc, ho,
    false_and, if_false, Option.bind_some]

theorem zipExtraRecord_seek (z : ZipContainer) (ls : ZipLengths) (done : Bool) {f : CFile}
    {data : Bytes} {tag sz : Nat} (htag : tag ≠ zip64FileExtra) (hsz : data.length = sz)
    (h : CFile.Ahead content f (data ++ tail)) :
    ∃ f', zipExtraRecord (ls.put done z f) tag sz = some (ls.put done z f') ∧
      CFile.Ahead content f' tail := by
  obtain ⟨hseek, hahead⟩ := h.fseekCur hsz
  refine ⟨_, ?_, hahead⟩
  simp only [zipExtraRecord, if_neg htag, Option.bind_some]
  simp only [ZipLengths.put, hseek, Option.map_some]

theorem zipExtraRecord_first {z : ZipContainer} {ls : ZipLengths} {f : CFile}
    (hexact : ∀ l ∈ ls.all, l.wide = false → l.value ≠ 0xFFFFFFFF)
    (h : CFile.Ahead content f (ls.data ++ tail)) :
    ∃ f', zipExtraRecord (ls.put false z f) zip64FileExtra ls.data.length =
        some (ls.put true z f') ∧ CFile.Ahead content f' tail := by
  obtain ⟨f1, hrec, h1⟩ := zip64Record_first (z := z) hexact h
  obtain ⟨hseek, hahead⟩ := CFile.Ahead.fseekCur h1 (show ([] : Bytes).length = 0 from rfl)
  refine ⟨_, ?_, hahead⟩
  simp only [zipExtraRecord, if_true, hrec, Option.bind_some]
  simp only [ZipLengths.put, hseek, Option.map_some]

theorem zipExtraRecord_again {z : ZipContainer} {ls : ZipLengths} {f : CFile}
    (hvalues : ∀ l ∈ ls.all, l.value ≠ 0xFFFFFFFF)
    (h : CFile.Ahead content f (ls.data ++ tail)) :
    ∃ f', zipExtraRecord (ls.put true z f) zip64FileExtra ls.data.length =
        some (ls.put true z f') ∧ CFile.Ahead content f' tail := by
  obtain ⟨hseek, hahead⟩ := h.fseekCur rfl
  refine ⟨_, ?_, hahead⟩
  simp only [zipExtraRecord, if_true, zip64Record_again hvalues, Option.bind_some]
  simp only [ZipLengths.put, hseek, Option.map_some]

/-- One round of the loop over a record with the given tag and data. -/
theorem zipExtraLoop_cons (z : ZipContainer) {tag : Nat} {data : Bytes} (extralen : Nat)
    (htag : tag < 2 ^ 16) (hdata : data.length < 2 ^ 16) (hlen : 4 + data.length ≤ extralen)
    (h : CFile.Ahead content z.f
      (littleBytes 2 tag ++ littleBytes 2 data.length ++ data ++ tail)) :
    ∃ f', CFile.Ahead content f' (data ++ tail) ∧
      ∀ z', zipExtraRecord { z with f := f' } tag data.length = some z' →
        zipExtraLoop z extralen = zipExtraLoop z' (extralen - (4 + data.length)) := by
  rw [List.append_assoc] at h
  obtain ⟨hread, hahead⟩ := h.fread (n := 4) (by simp)
  refine ⟨_, hahead, ?_⟩
  intro z' hrec
  have h0 : field (littleBytes 2 tag ++ littleBytes 2 data.length) 0 2 = littleBytes 2 tag := by
    simpa [List.flatten] using field_flatten [] (littleBytes 2 tag) [littleBytes 2 data.length]
      rfl (length_littleBytes 2 tag)
  have h2 : field (littleBytes 2 tag ++ littleBytes 2 data.length) 2 2 =
      littleBytes 2 data.length := by
    simpa [List.flatten] using field_flatten [littleBytes 2 tag] (littleBytes 2 data.length) []
      (by simp) (length_littleBytes 2 _)
  rw [zipExtraLoop, if_pos (by omega)]
  simp only [hread, List.length_append, length_littleBytes, Nat.reduceAdd, ne_eq,
    not_true_eq_false, if_false, h0, h2, little_16 htag, little_16 hdata]
  rw [if_neg (by omega), hrec]

/-- The loop over a whole extra field. It has seen the true values at the end if it had
seen them before or if the field has a ZIP64 record. -/
theorem zipExtraLoop_encodeExtra {ls : ZipLengths} {records : List ExtraRecord} {spare : Bytes}
    (hspare : spare.length < 4) {z : ZipContainer} {done : Bool} {f : CFile}
    (htags : ∀ tag data, .other tag data ∈ records → tag ≠ zip64FileExtra ∧ tag < 2 ^ 16)
    (hlen : (encodeExtra ls records spare).length < 2 ^ 16)
    (hexact : .zip64 ∈ records → ∀ l ∈ ls.all, l.wide = false → l.value ≠ 0xFFFFFFFF)
    (honce : records.count .zip64 + (if done then 1 else 0) ≤ 1 ∨
      ∀ l ∈ ls.all, l.value ≠ 0xFFFFFFFF)
    (h : CFile.Ahead content f (encodeExtra ls records spare ++ tail)) :
    ∃ f', zipExtraLoop (ls.put done z f) (encodeExtra ls records spare).length =
        (0, ls.put (done || decide (.zip64 ∈ records)) z f') ∧ CFile.Ahead content f' tail := by
  induction records generalizing done f with
  | nil =>
    obtain ⟨hseek, hahead⟩ := h.fseekCur rfl
    refine ⟨_, ?_, hahead⟩
    rw [zipExtraLoop, if_neg (by simpa [encodeExtra] using hspare)]
    simp only [ZipLengths.put, hseek, List.not_mem_nil, decide_false, Bool.or_false]
  | cons r records ih =>
    have hsplit : encodeExtra ls (r :: records) spare =
        encodeRecord ls r ++ encodeExtra ls records spare := by
      simp [encodeExtra]
    rw [hsplit] at hlen h ⊢
    rw [List.append_assoc] at h
    rw [List.length_append] at hlen ⊢
    have hlen' : (encodeExtra ls records spare).length < 2 ^ 16 := by omega
    have htags' : ∀ tag data, .other tag data ∈ records → tag ≠ zip64FileExtra ∧ tag < 2 ^ 16 :=
      fun tag data hmem => htags tag data (List.mem_cons_of_mem _ hmem)
    have hexact' : .zip64 ∈ records → ∀ l ∈ ls.all, l.wide = false → l.value ≠ 0xFFFFFFFF :=
      fun hmem => hexact (List.mem_cons_of_mem _ hmem)
    cases r with
    | zip64 =>
      have hdata : ls.data.length < 2 ^ 16 := by
        simp only [encodeRecord, List.length_append] at hlen
        omega
      have hrest : (encodeRecord ls .zip64).length + (encodeExtra ls records spare).length -
          (4 + ls.data.length) = (encodeExtra ls records spare).length := by
        simp only [encodeRecord, List.length_append, length_littleBytes]
        omega
      obtain ⟨f1, h1, hcons⟩ := zipExtraLoop_cons (ls.put done z f)
          ((encodeRecord ls .zip64).length + (encodeExtra ls records spare).length) (by decide)
          hdata (by simp only [encodeRecord, List.length_append, length_littleBytes]; omega) h
      have hrec : ∃ f2, zipExtraRecord (ls.put done z f1) zip64FileExtra ls.data.length =
          some (ls.put true z f2) ∧
            CFile.Ahead content f2 (encodeExtra ls records spare ++ tail) := by
        cases done with
        | false => exact zipExtraRecord_first (hexact List.mem_cons_self) h1
        | true =>
          refine zipExtraRecord_again (honce.resolve_left ?_) h1
          rw [List.count_cons_self, if_pos rfl]
          omega
      obtain ⟨f2, hrec, h2⟩ := hrec
      have honce' : records.count .zip64 + (if true then 1 else 0) ≤ 1 ∨
          ∀ l ∈ ls.all, l.value ≠ 0xFFFFFFFF := by
        refine honce.imp_left fun hcount => ?_
        rw [List.count_cons_self] at hcount
        simp only [if_true]
        omega
      obtain ⟨f3, hloop, h3⟩ := ih htags' hlen' hexact' honce' h2
      refine ⟨f3, ?_, h3⟩
      rw [hcons _ hrec, hrest, hloop]
      simp
    | other tag data =>
      obtain ⟨htag, htag_lt⟩ := htags tag data List.mem_cons_self
      have hdata : data.length < 2 ^ 16 := by
        simp only [encodeRecord, List.length_append] at hlen
        omega
      have hrest : (encodeRecord ls (.other tag data)).length +
          (encodeExtra ls records spare).length - (4 + data.length) =
            (encodeExtra ls records spare).length := by
        simp only [encodeRecord, List.length_append, length_littleBytes]
        omega
      obtain ⟨f1, h1, hcons⟩ := zipExtraLoop_cons (ls.put done z f)
          ((encodeRecord ls (.other tag data)).length + (encodeExtra ls records spare).length)
          htag_lt hdata
          (by simp only [encodeRecord, List.length_append, length_littleBytes]; omega) h
      obtain ⟨f2, hrec, h2⟩ := zipExtraRecord_seek z ls done htag rfl h1
      have honce' : records.count .zip64 + (if done then 1 else 0) ≤ 1 ∨
          ∀ l ∈ ls.all, l.value ≠ 0xFFFFFFFF := by
        simpa using honce
      obtain ⟨f3, hloop, h3⟩ := ih htags' hlen' hexact' honce' h2
      refine ⟨f3, ?_, h3⟩
      rw [hcons _ hrec, hrest, hloop]
      simp

end Records

namespace ZipEntry

variable {content tail : Bytes}

/-- The values a container holds once the entry is read. -/
def put (e : ZipEntry) (z : ZipContainer) (f : CFile) : ZipContainer :=
  { z with
    f := f
    headerOff := e.lengths.headerOff.value
    compressedLen := e.lengths.compressed.value
    uncompressedLen := e.lengths.uncompressed.value
    compressionMethod := e.method
    executable := e.attributes.testBit 22
    path := e.path }

theorem length_headerFields (e : ZipEntry) : e.headerFields.flatten.length = zipFileHeaderSize := by
  simp [headerFields, zipFileHeaderSize, e.versions.2, e.stamps.2, e.disk.2]

/-- The number in a field of a header. -/
theorem field_header (e : ZipEntry) (i : Nat) {n v offset : Nat}
    (hfield : e.headerFields[i]? = some (littleBytes n v))
    (hoffset : (e.headerFields.take i).flatten.length = offset) :
    field e.headerFields.flatten offset n = littleBytes n v := by
  have hsplit : e.headerFields =
      e.headerFields.take i ++ littleBytes n v :: e.headerFields.drop (i + 1) := by
    obtain ⟨hi, hget⟩ := List.getElem?_eq_some_iff.mp hfield
    rw [← hget, List.cons_getElem_drop_succ, List.take_append_drop]
  rw [hsplit]
  exact field_flatten _ _ _ hoffset (length_littleBytes n v)

/-- What `read_zip_file_header` takes out of the header of an entry. -/
theorem header_values (e : ZipEntry) :
    little (field e.headerFields.flatten 0 4) = zipFileHeaderSig ∧
    little (field e.headerFields.flatten 10 2) = e.method ∧
    little (field e.headerFields.flatten 20 4) = e.lengths.compressed.inHeader ∧
    little (field e.headerFields.flatten 24 4) = e.lengths.uncompressed.inHeader ∧
    little (field e.headerFields.flatten 28 2) = e.name.length ∧
    little (field e.headerFields.flatten 30 2) = e.extra.length ∧
    little (field e.headerFields.flatten 38 4) = e.attributes ∧
    little (field e.headerFields.flatten 42 4) = e.lengths.headerOff.inHeader := by
  have hv := e.versions.2
  have hs := e.stamps.2
  have hd := e.disk.2
  refine ⟨?_, ?_, ?_, ?_, ?_, ?_, ?_, ?_⟩
  · rw [e.field_header 0 rfl (by simp), little_32 (by decide)]
  · rw [e.field_header 2 rfl (by simp [headerFields, hv]), little_16 e.method_lt]
  · rw [e.field_header 4 rfl (by simp [headerFields, hv, hs]),
      little_32 e.lengths.compressed.inHeader_lt]
  · rw [e.field_header 5 rfl (by simp [headerFields, hv, hs]),
      little_32 e.lengths.uncompressed.inHeader_lt]
  · rw [e.field_header 6 rfl (by simp [headerFields, hv, hs]), little_16 e.name_length]
  · rw [e.field_header 7 rfl (by simp [headerFields, hv, hs]),
      little_16 (v := e.extra.length) e.extra_length]
  · rw [e.field_header 10 rfl (by simp [headerFields, hv, hs, hd]), little_32 e.attributes_lt]
  · rw [e.field_header 11 rfl (by simp [headerFields, hv, hs, hd]),
      little_32 e.lengths.headerOff.inHeader_lt]

/-- Without a ZIP64 record the header has the true values. -/
theorem seen_of_no_record (e : ZipEntry) {l : ZipLength} (hl : l ∈ e.lengths.all) :
    l.seen (decide (.zip64 ∈ e.records)) = l.value := by
  by_cases hmem : .zip64 ∈ e.records
  · simp [ZipLength.seen, hmem]
  · have hwide : l.wide = false := by
      by_contra hw
      exact hmem (e.wide_record l hl (by simpa using hw))
    simp [ZipLength.seen, ZipLength.inHeader, hmem, hwide]

/-- **Reading an entry.** The header, the name and the extra field are read, and the file is
left behind them. -/
theorem readZipFileHeader_encode (e : ZipEntry) {z : ZipContainer}
    (h : CFile.Ahead content z.f (e.encode ++ tail)) :
    ∃ f', readZipFileHeader z = (0, e.put z f') ∧ CFile.Ahead content f' tail := by
  unfold encode at h
  rw [List.append_assoc, List.append_assoc] at h
  obtain ⟨hread, h1⟩ := h.fread e.length_headerFields
  obtain ⟨hname, h2⟩ := h1.fread rfl
  obtain ⟨hsig, hmethod, hcomp, huncomp, hnlen, helen, hattr, hoff⟩ := e.header_values
  have hclean : cleanPath (replaceChar (cstr e.name) backslash slash) [] = some e.path := by
    rw [cstr_of_not_mem e.name_nul, e.clean]
  have honce : e.records.count .zip64 + (if false then 1 else 0) ≤ 1 ∨
      ∀ l ∈ e.lengths.all, l.value ≠ 0xFFFFFFFF := by
    simpa using e.once
  obtain ⟨f', hloop, h3⟩ := zipExtraLoop_encodeExtra e.spare_length
    (z := { z with
      compressionMethod := e.method
      executable := e.attributes.testBit 22
      path := e.path }) e.tags e.extra_length e.narrow_values honce h2
  refine ⟨f', ?_, h3⟩
  have hu := e.seen_of_no_record (l := e.lengths.uncompressed) (by simp [ZipLengths.all])
  have hc := e.seen_of_no_record (l := e.lengths.compressed) (by simp [ZipLengths.all])
  have ho := e.seen_of_no_record (l := e.lengths.headerOff) (by simp [ZipLengths.all])
  unfold readZipFileHeader
  simp only [hread, e.length_headerFields, hsig, hnlen, hname, hclean, helen, ne_eq,
    not_true_eq_false, or_self, if_false, hmethod, hcomp, huncomp, hattr, hoff]
  simp only [ZipLengths.put, Bool.false_or, hu, hc, ho] at hloop
  rw [put, ← hloop]
  rfl

end ZipEntry

end ToolchainTools
