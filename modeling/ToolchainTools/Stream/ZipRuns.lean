import ToolchainTools.Stream.ZipArchive

/-!
# Runs over a zip file

The position in the directory survives whatever the member streams do to the shared
`FILE`, because `next_zip_file` seeks to `diroff` first. So the calls report the entries
one by one, however many members are opened in between and however far they are read.
-/

namespace ToolchainTools

open CLib Posix Streams

variable {ζ : Type} {content tail : Bytes}

/-! ## The directory ahead -/

/-- The directory at `diroff` holds the entries `es` and ends before `tail`. -/
def DirectoryAhead (content tail : Bytes) (z : ZipContainer) (es : List ZipEntry) : Prop :=
  CFile.Ahead content (z.f.seek z.diroff) (es.flatMap ZipEntry.encode ++ tail)

theorem DirectoryAhead.fseekSet {z : ZipContainer} {es : List ZipEntry}
    (h : DirectoryAhead content tail z es) :
    z.f.fseekSet z.diroff = some (z.f.seek z.diroff) := by
  have hle : z.diroff ≤ content.length := h.pos_le
  have hsmall := h.small
  unfold CFile.fseekSet
  rw [if_pos (by omega)]

/-- A round over an entry reads it and moves to the next one. -/
theorem zipRound_entry {z : ZipContainer} {e : ZipEntry} {es : List ZipEntry}
    (h : DirectoryAhead content tail z (e :: es)) :
    ∃ f', zipRound z = (0, { e.put z f' with diroff := f'.pos }) ∧
      f'.Working content ∧
      DirectoryAhead content tail { e.put z f' with diroff := f'.pos } es := by
  have hahead : CFile.Ahead content (z.f.seek z.diroff)
      (e.encode ++ (es.flatMap ZipEntry.encode ++ tail)) := by
    have h' := h
    rw [DirectoryAhead, List.flatMap_cons, List.append_assoc] at h'
    exact h'
  obtain ⟨f', hread, hnext⟩ :=
    e.readZipFileHeader_encode (z := { z with f := z.f.seek z.diroff }) hahead
  refine ⟨f', ?_, hnext.toWorking, ?_⟩
  · unfold zipRound
    rw [h.fseekSet]
    dsimp only
    rw [hread]
    rfl
  · exact ⟨hnext.toWorking.seek _, hnext.small, hnext.pos_le, hnext.drop_eq⟩

/-- A round behind the last entry reports the end. -/
theorem zipRound_end {z : ZipContainer} (hended : tail.take 4 ≠ littleBytes 4 zipFileHeaderSig)
    (h : DirectoryAhead content tail z []) : (zipRound z).1 = 1 := by
  have hdata : ((z.f.seek z.diroff).fread zipFileHeaderSize).1 = tail.take zipFileHeaderSize := by
    rw [CFile.fread_fst, CFile.readable_of_good h.good, h.content_eq, h.drop_eq]
    rfl
  have hread : (readZipFileHeader { z with f := z.f.seek z.diroff }).1 = 1 := by
    unfold readZipFileHeader
    dsimp only
    rw [hdata, if_pos]
    by_contra hnot
    rw [not_or, Classical.not_not, Classical.not_not] at hnot
    obtain ⟨hlen, hsig⟩ := hnot
    have hfield : field (tail.take zipFileHeaderSize) 0 4 = tail.take 4 := by
      simpa [field, zipFileHeaderSize] using List.take_take (i := 4) (j := 46) (l := tail)
    rw [hfield] at hsig
    have hfour : (tail.take 4).length = 4 := by
      rw [List.length_take] at hlen ⊢
      unfold zipFileHeaderSize at hlen
      omega
    have := littleBytes_little (tail.take 4)
    rw [hfour, hsig] at this
    exact hended this.symm
  unfold zipRound
  rw [h.fseekSet]
  dsimp only
  rw [hread]
  rfl

/-- The entries that are reported. -/
def filesOf (es : List ZipEntry) : List ZipEntry := es.filter ZipEntry.isFile

/-- What the container holds when it has reported an entry. -/
structure Reported (content : Bytes) (e : ZipEntry) (z : ZipContainer) : Prop where
  member : z.h = e.member
  uncompressedLen : z.uncompressedLen = e.lengths.uncompressed.value
  headerOff : z.headerOff = e.lengths.headerOff.value
  compressedLen : z.compressedLen = e.lengths.compressed.value
  method : z.compressionMethod = e.method
  working : z.f.Working content

/-- One call: it reports the first file ahead, or the end. -/
theorem nextZipFile_spec (hended : tail.take 4 ≠ littleBytes 4 zipFileHeaderSig)
    {es : List ZipEntry} {z : ZipContainer} (h : DirectoryAhead content tail z es) :
    (filesOf es = [] → (nextZipFile z).1 = 1) ∧
    ∀ e rest, filesOf es = e :: rest →
      ∃ z' es', nextZipFile z = (0, z') ∧ Reported content e z' ∧
        DirectoryAhead content tail z' es' ∧ filesOf es' = rest := by
  induction es generalizing z with
  | nil =>
    refine ⟨fun _ => ?_, fun e rest hfiles => by cases hfiles⟩
    have hround := zipRound_end hended h
    rw [nextZipFile, dif_neg (by rw [hround]; decide)]
    exact hround
  | cons e es ih =>
    obtain ⟨f', hround, hworking, hnext⟩ := zipRound_entry h
    cases hfile : e.isFile with
    | true =>
      have hslash : (e.put z f').path.getLast? ≠ some slash := by
        simpa [ZipEntry.isFile, ZipEntry.put] using hfile
      have hcall : nextZipFile z =
          (0, { e.put z f' with diroff := f'.pos, h := e.member }) := by
        rw [nextZipFile, hround]
        dsimp only
        rw [dif_pos rfl, if_neg hslash]
        rfl
      refine ⟨fun hfiles => ?_, fun e' rest hfiles => ?_⟩
      · rw [filesOf, List.filter_cons_of_pos hfile] at hfiles
        cases hfiles
      · rw [filesOf, List.filter_cons_of_pos hfile] at hfiles
        cases hfiles
        exact ⟨_, es, hcall, ⟨rfl, rfl, rfl, rfl, rfl, hworking⟩, hnext, rfl⟩
    | false =>
      have hslash : (e.put z f').path.getLast? = some slash := by
        simpa [ZipEntry.isFile, ZipEntry.put] using hfile
      have hcall : nextZipFile z = nextZipFile { e.put z f' with diroff := f'.pos } := by
        rw [nextZipFile, hround]
        dsimp only
        rw [dif_pos rfl, if_pos hslash]
      have hskip : filesOf (e :: es) = filesOf es := by
        rw [filesOf, List.filter_cons_of_neg (by simp [hfile]), filesOf]
      rw [hskip, hcall]
      exact ih hnext

/-! ## Using the members -/

/-- What a user does with the member at hand: open it any number of times, one stream after
the other, and read each stream as far as it likes. -/
inductive ZipUse (Z : Codec ζ) (rounds : Nat) : ZipContainer → ZipContainer → Prop
  | done (z : ZipContainer) : ZipUse Z rounds z z
  | refused {z z₁ z₂ : ZipContainer} : openZipFile Z z = (none, z₁) → ZipUse Z rounds z₁ z₂ →
      ZipUse Z rounds z z₂
  | read {z z₁ z₂ : ZipContainer} {s s' : ZipStream ζ} : openZipFile Z z = (some s, z₁) →
      Reads (readZip Z rounds) s s' → ZipUse Z rounds (closeZipFile z₁ s') z₂ →
      ZipUse Z rounds z z₂

theorem readZip_preserves (Z : Codec ζ) (rounds : Nat) (content : Bytes) :
    Preserves (readZip Z rounds) fun s => s.file.Working content := by
  intro s consume need w s' hread h
  cases s with
  | stored s =>
    simp only [readZip, Option.map_eq_some_iff] at hread
    obtain ⟨⟨w1, s1⟩, hread, heq⟩ := hread
    cases heq
    exact readLimit_preserves (readFile_preserves content) _ _ _ _ _ hread h
  | inflated s =>
    simp only [readZip, Option.map_eq_some_iff] at hread
    obtain ⟨⟨w1, s1⟩, hread, heq⟩ := hread
    cases heq
    exact readZlib_preserves (readLimit_preserves (readFile_preserves content)) rounds
      _ _ _ _ _ hread h

theorem seekZipBody_working {z : ZipContainer} (h : z.f.Working content) :
    (seekZipBody z).2.Working content := by
  unfold seekZipBody
  split
  · exact h
  · rename_i f hseek
    have hf := h.fseekSet hseek
    dsimp only
    split
    · exact hf.fread _
    · split
      · exact hf.fread _
      · rename_i f' hcur
        exact (hf.fread _).fseekSet hcur

/-- Opening a member moves the file and nothing else. -/
theorem openZipFile_frame {Z : Codec ζ} {z z' : ZipContainer} {s : Option (ZipStream ζ)}
    (hopen : openZipFile Z z = (s, z')) (h : z.f.Working content) :
    z'.f.Working content ∧ z'.diroff = z.diroff ∧ ∀ s', s = some s' → s'.file = z'.f := by
  have hbody := seekZipBody_working h
  unfold openZipFile at hopen
  split at hopen
  · rename_i f heq
    rw [heq] at hbody
    cases hopen
    exact ⟨hbody, rfl, by simp⟩
  · rename_i f heq
    rw [heq] at hbody
    dsimp only at hopen
    split at hopen
    · cases hopen
      refine ⟨hbody, rfl, ?_⟩
      intro s' hs'
      simp only [openZlib, Option.map_eq_some_iff] at hs'
      obtain ⟨_, ⟨_, -, rfl⟩, rfl⟩ := hs'
      rfl
    · split at hopen
      · cases hopen
        refine ⟨hbody, rfl, ?_⟩
        intro s' hs'
        cases hs'
        rfl
      · cases hopen
        exact ⟨hbody, rfl, by simp⟩

/-- The position in the directory does not depend on where the file is. -/
theorem DirectoryAhead.moved {z z' : ZipContainer} {es : List ZipEntry}
    (h : DirectoryAhead content tail z es) (hf : z'.f.Working content)
    (hdiroff : z'.diroff = z.diroff) : DirectoryAhead content tail z' es := by
  refine ⟨hf.seek _, h.small, ?_, ?_⟩
  · rw [hdiroff]
    exact h.pos_le
  · rw [hdiroff]
    exact h.drop_eq

theorem ZipUse.directoryAhead {Z : Codec ζ} {rounds : Nat} {z z' : ZipContainer}
    {es : List ZipEntry} (huse : ZipUse Z rounds z z') (hf : z.f.Working content)
    (h : DirectoryAhead content tail z es) : DirectoryAhead content tail z' es := by
  induction huse with
  | done z => exact h
  | refused hopen _ ih =>
    obtain ⟨hworking, hdiroff, -⟩ := openZipFile_frame hopen hf
    exact ih hworking (h.moved hworking hdiroff)
  | @read z z1 z2 s s' hopen hreads _ ih =>
    obtain ⟨hworking, hdiroff, hfile⟩ := openZipFile_frame hopen hf
    have hs : s.file.Working content := by
      rw [hfile s rfl]
      exact hworking
    have hs' : s'.file.Working content := (readZip_preserves Z rounds content).reads hreads hs
    exact ih hs' (h.moved hs' hdiroff)

/-- `k` calls of `next_zip_file` have reported a member, each of which has been used. -/
inductive ZipCalls (Z : Codec ζ) (rounds : Nat) (z : ZipContainer) : Nat → ZipContainer → Prop
  | start : ZipCalls Z rounds z 0 z
  | next {k : Nat} {z₁ z₂ z₃ : ZipContainer} : ZipCalls Z rounds z k z₁ →
      nextZipFile z₁ = (0, z₂) → ZipUse Z rounds z₂ z₃ → ZipCalls Z rounds z (k + 1) z₃

/-- After `k` calls the first `k` files are done with. -/
theorem ZipCalls.directoryAhead {Z : Codec ζ} {rounds : Nat} {z z' : ZipContainer} {k : Nat}
    {es : List ZipEntry} (hended : tail.take 4 ≠ littleBytes 4 zipFileHeaderSig)
    (h : DirectoryAhead content tail z es) (hcalls : ZipCalls Z rounds z k z') :
    k ≤ (filesOf es).length ∧
      ∃ es', DirectoryAhead content tail z' es' ∧ filesOf es' = (filesOf es).drop k := by
  induction hcalls with
  | start => exact ⟨Nat.zero_le _, es, h, rfl⟩
  | @next k z1 z2 z3 hcalls hnext huse ih =>
    obtain ⟨hk, es1, h1, hfiles⟩ := ih
    obtain ⟨hend, hfile⟩ := nextZipFile_spec hended h1
    cases hes : filesOf es1 with
    | nil =>
      have hone := hend hes
      rw [hnext] at hone
      cases hone
    | cons e rest =>
      obtain ⟨z', es2, hcall, hreported, h2, hrest⟩ := hfile e rest hes
      rw [hnext] at hcall
      cases hcall
      have hlt : k < (filesOf es).length := by
        have := congrArg List.length (hes.symm.trans hfiles)
        rw [List.length_cons, List.length_drop] at this
        omega
      refine ⟨hlt, es2, huse.directoryAhead hreported.working h2, ?_⟩
      rw [hrest, ← List.tail_drop, ← hfiles, hes, List.tail_cons]

/-! ## Stored members -/

/-- Where the data of an entry starts: behind its local header, name and extra field. -/
def ZipEntry.bodyOffset (content : Bytes) (e : ZipEntry) : Nat :=
  e.lengths.headerOff.value + zipLocalHeaderSize +
    (little (field content (e.lengths.headerOff.value + 26) 2) +
      little (field content (e.lengths.headerOff.value + 28) 2))

/-- The local header and the data lie in the file. -/
structure ZipEntry.HasBody (content : Bytes) (e : ZipEntry) : Prop where
  header : e.lengths.headerOff.value + zipLocalHeaderSize ≤ content.length
  body : e.bodyOffset content + e.lengths.compressed.value ≤ content.length

def ZipEntry.body (content : Bytes) (e : ZipEntry) : Bytes :=
  (content.drop (e.bodyOffset content)).take e.lengths.compressed.value

/-- The contract that the streams of stored members keep. -/
def storedContract (Z : Codec ζ) (rounds : Nat) (content : Bytes) :
    Contract (readZip Z rounds) where
  valid
    | .stored s => (limitContract (fileContract content)).valid s
    | .inflated _ => False
  rest
    | .stored s => (limitContract (fileContract content)).rest s
    | .inflated _ => []
  lent
    | .stored s => (limitContract (fileContract content)).lent s
    | .inflated _ => 0
  lent_le s hv := by
    cases s with
    | stored s => exact (limitContract (fileContract content)).lent_le s hv
    | inflated s => exact hv.elim
  serve s consume need hv hconsume hneed := by
    cases s with
    | stored s =>
      obtain ⟨w, s', hread, hvalid, hlent, hserve⟩ :=
        (limitContract (fileContract content)).serve s consume need hv hconsume hneed
      refine ⟨w, .stored s', ?_, hvalid, hlent, hserve⟩
      simp only [readZip, hread, Option.map_some]
    | inflated s => exact hv.elim

/-- With its local header in the file, an entry's data is found. -/
theorem seekZipBody_hasBody {e : ZipEntry} {z : ZipContainer} (hz : Reported content e z)
    (hsmall : content.length < 2 ^ 63) (hbody : e.HasBody content) :
    ∃ f, seekZipBody z = (true, f) ∧ f.Working content ∧ f.eof = false ∧
      f.pos = e.bodyOffset content := by
  have hheader := hbody.header
  have hin := hbody.body
  have hseek : z.f.fseekSet z.headerOff = some (z.f.seek z.headerOff) := by
    unfold CFile.fseekSet
    rw [if_pos (by rw [hz.headerOff]; omega)]
  have hdata : ((z.f.seek z.headerOff).fread zipLocalHeaderSize).1 =
      (content.drop e.lengths.headerOff.value).take zipLocalHeaderSize := by
    rw [CFile.fread_fst, CFile.seek_readable, CFile.readable_of_good hz.working.good,
      CFile.seek_pos, hz.working.content_eq, hz.headerOff]
  have hlen : ((z.f.seek z.headerOff).fread zipLocalHeaderSize).1.length =
      zipLocalHeaderSize := by
    rw [hdata, List.length_take, List.length_drop]
    omega
  have hpos : ((z.f.seek z.headerOff).fread zipLocalHeaderSize).2.pos =
      e.lengths.headerOff.value + zipLocalHeaderSize := by
    rw [CFile.fread_pos_of_length hlen, CFile.seek_pos, hz.headerOff]
  have h26 : field ((z.f.seek z.headerOff).fread zipLocalHeaderSize).1 26 2 =
      field content (e.lengths.headerOff.value + 26) 2 := by
    rw [hdata, field_field _ _ _ _ _ (by decide)]
  have h28 : field ((z.f.seek z.headerOff).fread zipLocalHeaderSize).1 28 2 =
      field content (e.lengths.headerOff.value + 28) 2 := by
    rw [hdata, field_field _ _ _ _ _ (by decide)]
  have hcur : ((z.f.seek z.headerOff).fread zipLocalHeaderSize).2.fseekCur
      (little (field content (e.lengths.headerOff.value + 26) 2) +
        little (field content (e.lengths.headerOff.value + 28) 2)) =
      some (((z.f.seek z.headerOff).fread zipLocalHeaderSize).2.seek (e.bodyOffset content)) := by
    unfold CFile.fseekCur CFile.fseekSet
    rw [hpos, ← ZipEntry.bodyOffset, if_pos (by omega)]
  refine ⟨((z.f.seek z.headerOff).fread zipLocalHeaderSize).2.seek (e.bodyOffset content), ?_,
    ((hz.working.seek _).fread _).seek _, rfl, rfl⟩
  unfold seekZipBody
  rw [hseek]
  dsimp only
  rw [if_neg (by rw [hlen]; simp), h26, h28, hcur]

/-- Opening a stored entry gives a stream over its data. -/
theorem openZipFile_stored (Z : Codec ζ) (rounds : Nat) {e : ZipEntry} {z : ZipContainer}
    (hz : Reported content e z) (hsmall : content.length < 2 ^ 63) (hmethod : e.method = 0)
    (hbody : e.HasBody content) :
    ∃ s z', openZipFile Z z = (some s, z') ∧
      (storedContract Z rounds content).valid s ∧
      (storedContract Z rounds content).rest s = e.body content := by
  obtain ⟨f, hseek, hf, heof, hpos⟩ := seekZipBody_hasBody hz hsmall hbody
  refine ⟨.stored (openLimited (openFileStream f) z.compressedLen), { z with f := f }, ?_, ?_, ?_⟩
  · unfold openZipFile
    rw [hseek]
    simp [hz.method, hmethod]
  · refine ⟨⟨⟨hf.good, hf.no_err, fun _ => heof, by simp [openLimited, openFileStream], le_rfl, ?_⟩,
      hf.content_eq⟩, ?_⟩
    · simp only [openLimited, openFileStream, hf.content_eq, List.length_nil]
      omega
    · rw [openLimited, hz.compressedLen]
      exact e.lengths.compressed.value_lt
  · show ((openFileStream f).rest).take z.compressedLen = e.body content
    simp only [FileStream.rest, openFileStream, List.drop_nil, List.nil_append, hf.content_eq,
      hpos, hz.compressedLen, ZipEntry.body]

/-! ## Enumeration -/

/-- A file with a central directory at `diroff`. -/
structure ZipImage where
  content : Bytes
  diroff : Nat
  entries : List ZipEntry
  tail : Bytes
  /-- Positions in a file fit `off_t`. -/
  small : content.length < 2 ^ 63
  inside : diroff ≤ content.length
  directory : content.drop diroff = entries.flatMap ZipEntry.encode ++ tail
  ended : tail.take 4 ≠ littleBytes 4 zipFileHeaderSig

/-- A container over the file, at the start of its directory. -/
structure ZipImage.Opened (image : ZipImage) (z : ZipContainer) : Prop where
  working : z.f.Working image.content
  diroff : z.diroff = image.diroff

/-- **Zip enumeration.** After any number of calls, with any use of the members in between,
the next call reports the next file of the directory with its true lengths and its mode,
or the end behind the last one. A stored member whose data lies in the file is opened as
a stream of exactly that data. -/
theorem zip_enumeration (Z : Codec ζ) (rounds : Nat) (image : ZipImage) {z z' : ZipContainer}
    {k : Nat} (hz : image.Opened z) (hcalls : ZipCalls Z rounds z k z') :
    k ≤ (filesOf image.entries).length ∧
    (k = (filesOf image.entries).length → (nextZipFile z').1 = 1) ∧
    ∀ e, (filesOf image.entries)[k]? = some e →
      ∃ z'', nextZipFile z' = (0, z'') ∧ z''.h = e.member ∧
        z''.uncompressedLen = e.lengths.uncompressed.value ∧
        z''.compressedLen = e.lengths.compressed.value ∧
        (e.method = 0 → e.HasBody image.content →
          ∃ s z₁, openZipFile Z z'' = (some s, z₁) ∧
            (∃ C : Contract (readZip Z rounds), C.valid s ∧ C.rest s = e.body image.content) ∧
            (∃ got s', Drains (readZip Z rounds) s [] got s') ∧
            ∀ got s', Drains (readZip Z rounds) s [] got s' → got = e.body image.content) := by
  have hdir : DirectoryAhead image.content image.tail z image.entries := by
    refine ⟨hz.working.seek _, image.small, ?_, ?_⟩
    · rw [CFile.seek_pos, hz.diroff]
      exact image.inside
    · rw [CFile.seek_pos, hz.diroff]
      exact image.directory
  obtain ⟨hk, es', hahead, hfiles⟩ := hcalls.directoryAhead image.ended hdir
  obtain ⟨hend, hfile⟩ := nextZipFile_spec image.ended hahead
  refine ⟨hk, fun hall => ?_, fun e he => ?_⟩
  · apply hend
    rw [hfiles, hall, List.drop_length]
  · obtain ⟨hlt, hget⟩ := List.getElem?_eq_some_iff.mp he
    have hcons : filesOf es' = e :: (filesOf image.entries).drop (k + 1) := by
      rw [hfiles, ← hget, List.cons_getElem_drop_succ]
    obtain ⟨z'', es'', hcall, hreported, -, -⟩ := hfile e _ hcons
    refine ⟨z'', hcall, hreported.member, hreported.uncompressedLen, hreported.compressedLen, ?_⟩
    intro hmethod hbody
    obtain ⟨s, z₁, hopen, hvalid, hrest⟩ :=
      openZipFile_stored Z rounds hreported image.small hmethod hbody
    refine ⟨s, z₁, hopen, ⟨_, hvalid, hrest⟩, ?_, ?_⟩
    · exact (storedContract Z rounds image.content).exists_drains hvalid List.nil_prefix
        (Nat.zero_le _)
    · intro got s' hdrains
      rw [← hrest]
      exact (storedContract Z rounds image.content).drains_eq hdrains hvalid List.nil_prefix
        (Nat.zero_le _)

/-- The directory entry `d/`. -/
def plainDirEntry : ZipEntry where
  name := lit "d\\"
  path := lit "d/"
  method := 0
  attributes := 0
  lengths := ⟨⟨0, false, by decide, by decide⟩, ⟨0, false, by decide, by decide⟩,
    ⟨0, false, by decide, by decide⟩⟩
  records := [.other 7 [1, 2]]
  spare := [0]
  versions := zeroField 6
  stamps := zeroField 8
  disk := zeroField 4
  name_length := by decide
  name_nul := by decide
  clean := by decide +kernel
  method_lt := by decide
  attributes_lt := by decide
  tags := by simp [zip64FileExtra]
  spare_length := by decide
  extra_length := by decide
  wide_record := by decide
  narrow_values := by decide
  once := by decide

/-- The executable `a` of two stored bytes, with the uncompressed length in a ZIP64 record. -/
def plainFileEntry : ZipEntry where
  name := lit "a"
  path := lit "a"
  method := 0
  attributes := 2 ^ 22
  lengths := ⟨⟨2, true, by decide, by decide⟩, ⟨2, false, by decide, by decide⟩,
    ⟨0, false, by decide, by decide⟩⟩
  records := [.zip64]
  spare := []
  versions := zeroField 6
  stamps := zeroField 8
  disk := zeroField 4
  name_length := by decide
  name_nul := by decide
  clean := by decide +kernel
  method_lt := by decide
  attributes_lt := by decide
  tags := by simp
  spare_length := by decide
  extra_length := by decide
  wide_record := by decide
  narrow_values := by decide
  once := by decide

/-- A local header with the name `a`, the data `hi`, and the directory. -/
def plainImage : ZipImage where
  content := List.replicate 26 0 ++ littleBytes 2 1 ++ littleBytes 2 0 ++ lit "ahi" ++
    [plainDirEntry, plainFileEntry].flatMap ZipEntry.encode ++ lit "end"
  diroff := 33
  entries := [plainDirEntry, plainFileEntry]
  tail := lit "end"
  small := by decide +kernel
  inside := by decide +kernel
  directory := by decide
  ended := by decide

theorem plainImage_opened : plainImage.Opened (zipAt plainImage.content plainImage.diroff) :=
  ⟨⟨rfl, rfl, rfl⟩, rfl⟩

theorem zip_enumeration_plain :
    plainImage.Opened (zipAt plainImage.content plainImage.diroff) ∧
    plainFileEntry.body plainImage.content = lit "hi" ∧
    ∃ z, nextZipFile (zipAt plainImage.content plainImage.diroff) = (0, z) ∧
      z.h = ⟨lit "a", none, 2, 0o755⟩ ∧
      ∃ s z₁, openZipFile noCodec z = (some s, z₁) ∧
        ∀ got s', Drains (readZip noCodec 8) s [] got s' →
          got = plainFileEntry.body plainImage.content := by
  have h := (zip_enumeration noCodec 8 plainImage plainImage_opened .start).2.2 plainFileEntry
    (by rfl)
  obtain ⟨z, hnext, hmember, -, -, hstored⟩ := h
  obtain ⟨s, z₁, hopen, -, -, hdrains⟩ := hstored rfl ⟨by decide +kernel, by decide +kernel⟩
  have hexpected : plainFileEntry.member = ⟨lit "a", none, 2, 0o755⟩ := by decide
  exact ⟨plainImage_opened, by decide, z, hnext, hmember.trans hexpected, s, z₁, hopen,
    hdrains⟩

end ToolchainTools
