import ToolchainTools.Path
import ToolchainTools.Stream.Container
import ToolchainTools.Stream.Limit
import ToolchainTools.Stream.Zlib

/-!
# The zip container (`tools/stream/container-zip.c`, `tools/stream/zip.h`)

The container walks the central directory of a seekable file. Its position there is kept
in `diroff`, because the member streams move the position of the same `FILE`.
-/

namespace ToolchainTools

open CLib Posix Streams

variable {ζ : Type}

def replaceChar (p : Bytes) (old new : UInt8) : Bytes := p.map fun c => if c = old then new else c

/-! ## The end of the central directory -/

def zipCentralDirEndSize : Nat := 22
def zipCentralDirEndSig : Nat := 0x06054b50
def zip64CentralDirLocatorSize : Nat := 20
def zip64CentralDirLocatorSig : Nat := 0x07064b50

def findCentralDir64 (f : CFile) (off : Nat) : Int × CFile :=
  match f.fseekEnd (off + zip64CentralDirLocatorSize) with
  | none => (-2, f)
  | some f =>
    let (cd, f) := f.fread zip64CentralDirLocatorSize
    if cd.length ≠ zip64CentralDirLocatorSize then (-2, f)
    else if little (field cd 0 4) ≠ zip64CentralDirLocatorSig then (-2, f)
    else
      let diroff : Int := (little (field cd 8 8) : Int).bmod (2 ^ 64)
      if diroff < 0 then (-2, f) else (diroff, f)

/-- The directory end record at position `p`, if one is there. -/
def centralDirAt (f : CFile) (off : Nat) (buf : Bytes) (p : Nat) : Option (Int × CFile) :=
  let c := field buf p zipCentralDirEndSize
  if little (field c 0 4) = zipCentralDirEndSig ∧
      p + zipCentralDirEndSize + little (field c 20 2) = off then
    let dirOffset := little (field c 16 4)
    if dirOffset = 0xFFFFFFFF then some (findCentralDir64 f p) else some (dirOffset, f)
  else none

/-- The loop over the candidate positions below `n`, downwards. -/
def findCentralDirLoop (f : CFile) (off : Nat) (buf : Bytes) : Nat → Int × CFile
  | 0 => (-1, f)
  | p + 1 =>
    match centralDirAt f off buf p with
    | some r => r
    | none => findCentralDirLoop f off buf p

def findCentralDir (f : CFile) (off : Nat) : Int × CFile :=
  if off < zipCentralDirEndSize then (-2, f)
  else
    match f.fseekEnd off with
    | none => (-2, f)
    | some f =>
      let (buf, f) := f.fread off
      if buf.length ≠ off then (-2, f)
      else findCentralDirLoop f off buf (off - zipCentralDirEndSize + 1)

/-! ## The container -/

structure ZipContainer where
  h : Member
  f : CFile
  diroff : Nat
  headerOff : Nat
  uncompressedLen : Nat
  compressedLen : Nat
  compressionMethod : Nat
  path : Bytes
  executable : Bool

/-- The loop of `open_zip`, which a file of 22 or of 1024 bytes without a central directory
keeps busy for ever. -/
def openZipLoop (zipSize : Nat) : Nat → Nat → CFile → Option (Option ZipContainer)
  | 0, _, _ => none
  | fuel + 1, off, f =>
    let off := if off > zipSize then zipSize else off
    match findCentralDir f off with
    | (diroff, f) =>
      if diroff < -1 then some none
      else if 0 ≤ diroff then
        some (some ⟨⟨[], none, 0, 0⟩, f, diroff.toNat, 0, 0, 0, 0, [], false⟩)
      else if off = zipCentralDirEndSize then openZipLoop zipSize fuel 1024 f
      else if off = 1024 then openZipLoop zipSize fuel (65 * 1024) f
      else some none

def openZip (fuel : Nat) (f : CFile) : Option (Option ZipContainer) :=
  openZipLoop f.content.length fuel zipCentralDirEndSize ((f.fseekEnd 0).getD f)

/-! ## Central headers -/

def zipFileHeaderSize : Nat := 46
def zipFileHeaderSig : Nat := 0x02014b50
def zip64FileExtra : Nat := 1

/-- Read one 64-bit length of a ZIP64 record if it is needed: the field that is `0xFFFFFFFF`
takes the next eight of the `sz` bytes left. `none` for a short read. -/
def zip64Field (f : CFile) (value sz : Nat) : Option (Nat × Nat × CFile) :=
  if value = 0xFFFFFFFF ∧ 8 ≤ sz then
    let (buf, f) := f.fread 8
    if buf.length ≠ 8 then none else some (little buf, sz - 8, f)
  else some (value, sz, f)

/-- The three fields of a ZIP64 record, in the order of the code. -/
def zip64Record (z : ZipContainer) (sz : Nat) : Option (Nat × ZipContainer) :=
  (zip64Field z.f z.uncompressedLen sz).bind fun (u, sz, f) =>
  (zip64Field f z.compressedLen sz).bind fun (c, sz, f) =>
  (zip64Field f z.headerOff sz).bind fun (h, sz, f) =>
  some (sz, { z with uncompressedLen := u, compressedLen := c, headerOff := h, f := f })

/-- The data of a record of `sz` bytes: what a ZIP64 record leaves unread, or all of it, is
stepped over. -/
def zipExtraRecord (z : ZipContainer) (tag sz : Nat) : Option ZipContainer :=
  (if tag = zip64FileExtra then zip64Record z sz else some (sz, z)).bind fun (sz, z) =>
  (z.f.fseekCur sz).map fun f => { z with f := f }

/-- `while (extralen >= 4)` with the seek behind it. -/
def zipExtraLoop (z : ZipContainer) (extralen : Nat) : Int × ZipContainer :=
  if 4 ≤ extralen then
    let r := z.f.fread 4
    let z : ZipContainer := { z with f := r.2 }
    if r.1.length ≠ 4 then (-1, z)
    else
      let tag := little (field r.1 0 2)
      let sz := little (field r.1 2 2)
      if 4 + sz > extralen then
        match z.f.fseekCur extralen with
        | none => (-1, z)
        | some f => (0, { z with f := f })
      else
        match zipExtraRecord z tag sz with
        | none => (-1, z)
        | some z => zipExtraLoop z (extralen - (4 + sz))
  else
    match z.f.fseekCur extralen with
    | none => (-1, z)
    | some f => (0, { z with f := f })
termination_by extralen
decreasing_by omega

def readZipFileHeader (z : ZipContainer) : Int × ZipContainer :=
  let r := z.f.fread zipFileHeaderSize
  let fh := r.1
  if fh.length ≠ zipFileHeaderSize ∨ little (field fh 0 4) ≠ zipFileHeaderSig then
    (1, { z with f := r.2 })
  else
    let namelen := little (field fh 28 2)
    let name := r.2.fread namelen
    let z : ZipContainer :=
      { z with
        f := name.2
        headerOff := little (field fh 42 4)
        compressedLen := little (field fh 20 4)
        uncompressedLen := little (field fh 24 4)
        compressionMethod := little (field fh 10 2)
        executable := (little (field fh 38 4)).testBit 22 }
    if name.1.length ≠ namelen then (-1, z)
    else
      match cleanPath (replaceChar (cstr name.1) backslash slash) [] with
      | none => (-1, { z with path := [] })
      | some path => zipExtraLoop { z with path := path } (little (field fh 30 2))

/-! ## Where a header ends -/

theorem zip64Field_pos {f f' : CFile} {value sz value' sz' : Nat}
    (h : zip64Field f value sz = some (value', sz', f')) :
    f'.pos + sz' = f.pos + sz ∧ f'.readable = f.readable := by
  unfold zip64Field at h
  split at h
  · rename_i hneed
    dsimp only at h
    split at h
    · cases h
    · rename_i hlen
      cases h
      have hpos := f.fread_pos 8
      rw [CFile.fread_fst] at hlen
      refine ⟨?_, CFile.fread_readable f 8⟩
      omega
  · cases h
    exact ⟨rfl, rfl⟩

theorem zip64Record_pos {z z' : ZipContainer} {sz sz' : Nat}
    (h : zip64Record z sz = some (sz', z')) :
    z'.f.pos + sz' = z.f.pos + sz ∧ z'.f.readable = z.f.readable := by
  simp only [zip64Record, Option.bind_eq_some_iff] at h
  obtain ⟨⟨u, sz1, f1⟩, h1, ⟨c, sz2, f2⟩, h2, ⟨o, sz3, f3⟩, h3, he⟩ := h
  cases he
  have hp1 := zip64Field_pos h1
  have hp2 := zip64Field_pos h2
  have hp3 := zip64Field_pos h3
  dsimp only at hp1 hp2 hp3
  refine ⟨?_, ?_⟩
  · dsimp only
    omega
  · exact hp3.2.trans (hp2.2.trans hp1.2)

theorem zipExtraRecord_pos {z z' : ZipContainer} {tag sz : Nat}
    (h : zipExtraRecord z tag sz = some z') :
    z'.f.pos = z.f.pos + sz ∧ z'.f.readable = z.f.readable := by
  simp only [zipExtraRecord, Option.bind_eq_some_iff, Option.map_eq_some_iff] at h
  obtain ⟨⟨sz1, z1⟩, hrec, f, hseek, rfl⟩ := h
  have hf := CFile.fseekSet_eq_some hseek
  dsimp only at hf
  rw [hf]
  split at hrec
  · obtain ⟨hpos, hread⟩ := zip64Record_pos hrec
    exact ⟨hpos, hread⟩
  · cases hrec
    exact ⟨rfl, rfl⟩

/-- Whether the records of an extra field of `extralen` bytes at `pos` end in one whose
declared size runs past the field. -/
def extraOverruns (content : Bytes) (pos extralen : Nat) : Bool :=
  if 4 ≤ extralen then
    let sz := little (field content (pos + 2) 2)
    if 4 + sz > extralen then true
    else extraOverruns content (pos + (4 + sz)) (extralen - (4 + sz))
  else false
termination_by extralen
decreasing_by omega

/-- The loop over the records stops at the end of the extra field, or four bytes behind it
when a record overruns. -/
theorem zipExtraLoop_pos {z : ZipContainer} {extralen : Nat} (h : (zipExtraLoop z extralen).1 = 0) :
    (zipExtraLoop z extralen).2.f.pos = z.f.pos + extralen +
        (if extraOverruns z.f.readable z.f.pos extralen then 4 else 0) ∧
      (zipExtraLoop z extralen).2.f.readable = z.f.readable := by
  fun_induction zipExtraLoop z extralen with
  | case1 | case2 | case4 | case6 => cases h
  | case3 z extralen hmore r z1 hlen sz hbreak f hseek =>
    have hpos : r.2.pos = z.f.pos + 4 := CFile.fread_pos_of_length (Classical.not_not.mp hlen)
    have hsz : little (field z.f.readable (z.f.pos + 2) 2) = sz := by
      simp only [sz, r, CFile.fread_fst]
      rw [field_field _ _ _ _ _ (by omega)]
    have hover : extraOverruns z.f.readable z.f.pos extralen = true := by
      rw [extraOverruns, if_pos hmore, hsz, if_pos hbreak]
    have hf := CFile.fseekSet_eq_some hseek
    rw [hover, hf]
    refine ⟨?_, CFile.fread_readable z.f 4⟩
    simp only [CFile.seek_pos, z1, hpos, if_true]
    omega
  | case5 z extralen hmore r z1 hlen tag sz hbreak z2 hrec ih =>
    have hpos : r.2.pos = z.f.pos + 4 := CFile.fread_pos_of_length (Classical.not_not.mp hlen)
    have hsz : little (field z.f.readable (z.f.pos + 2) 2) = sz := by
      simp only [sz, r, CFile.fread_fst]
      rw [field_field _ _ _ _ _ (by omega)]
    obtain ⟨hpos2, hread2⟩ := zipExtraRecord_pos hrec
    have hread : z2.f.readable = z.f.readable := hread2.trans (CFile.fread_readable z.f 4)
    have hover : extraOverruns z.f.readable z.f.pos extralen =
        extraOverruns z2.f.readable z2.f.pos (extralen - (4 + sz)) := by
      rw [extraOverruns, if_pos hmore, hsz, if_neg hbreak, hread, hpos2]
      congr 1
      simp only [z1, hpos]
      omega
    obtain ⟨hend, hsame⟩ := ih h
    refine ⟨?_, hsame.trans hread⟩
    rw [hend, hover, hpos2]
    simp only [z1, hpos]
    omega
  | case7 z extralen hdone f hseek =>
    have hf := CFile.fseekSet_eq_some hseek
    rw [extraOverruns, if_neg hdone, hf]
    exact ⟨rfl, rfl⟩

/-- The lengths that the central header at `pos` declares. -/
def nameLen (content : Bytes) (pos : Nat) : Nat := little (field content (pos + 28) 2)
def extraLen (content : Bytes) (pos : Nat) : Nat := little (field content (pos + 30) 2)
def commentLen (content : Bytes) (pos : Nat) : Nat := little (field content (pos + 32) 2)

/-- Whether a record of the extra field of the header at `pos` overruns. -/
def headerOverruns (content : Bytes) (pos : Nat) : Bool :=
  extraOverruns content (pos + zipFileHeaderSize + nameLen content pos) (extraLen content pos)

/-- Where an accepted header leaves the file. -/
theorem readZipFileHeader_pos {z : ZipContainer} (h : (readZipFileHeader z).1 = 0) :
    z.f.pos + zipFileHeaderSize ≤ z.f.readable.length ∧
      (readZipFileHeader z).2.f.pos =
        z.f.pos + zipFileHeaderSize + nameLen z.f.readable z.f.pos +
          extraLen z.f.readable z.f.pos +
          (if headerOverruns z.f.readable z.f.pos then 4 else 0) ∧
      (readZipFileHeader z).2.f.readable = z.f.readable := by
  revert h
  unfold readZipFileHeader
  dsimp only
  split
  · intro h
    cases h
  · rename_i hhead
    rw [not_or, Classical.not_not, Classical.not_not] at hhead
    split
    · intro h
      cases h
    · rename_i hname
      split
      · intro h
        cases h
      · intro h
        obtain ⟨hend, hsame⟩ := zipExtraLoop_pos h
        rw [Classical.not_not] at hname
        have hpos1 := CFile.fread_pos_of_length hhead.1
        have hpos2 := CFile.fread_pos_of_length hname
        have hlen := hhead.1
        rw [CFile.fread_fst, List.length_take, List.length_drop] at hlen
        have hn : little (field (z.f.fread zipFileHeaderSize).1 28 2) =
            nameLen z.f.readable z.f.pos := by
          rw [CFile.fread_fst, field_field _ _ _ _ _ (by decide), nameLen]
        have he : little (field (z.f.fread zipFileHeaderSize).1 30 2) =
            extraLen z.f.readable z.f.pos := by
          rw [CFile.fread_fst, field_field _ _ _ _ _ (by decide), extraLen]
        refine ⟨by unfold zipFileHeaderSize at hlen ⊢; omega, ?_, ?_⟩
        · rw [hend]
          dsimp only
          rw [hpos2, hpos1, hn, he, CFile.fread_readable, CFile.fread_readable, headerOverruns]
        · rw [hsame, CFile.fread_readable, CFile.fread_readable]

/-! ## Walking the directory -/

/-- One round of the loop of `next_zip_file`: read the header at `diroff` and save where the
next one starts. -/
def zipRound (z : ZipContainer) : Int × ZipContainer :=
  match z.f.fseekSet z.diroff with
  | none => (-1, z)
  | some f =>
    let r := readZipFileHeader { z with f := f }
    if r.1 = 0 then (0, { r.2 with diroff := r.2.f.pos })
    else if r.1 < 0 then (-1, r.2)
    else (1, r.2)

theorem zipRound_diroff {z : ZipContainer} (h : (zipRound z).1 = 0) :
    z.diroff + zipFileHeaderSize ≤ z.f.readable.length ∧
      z.diroff + zipFileHeaderSize ≤ (zipRound z).2.diroff ∧
      (zipRound z).2.f.readable = z.f.readable := by
  revert h
  unfold zipRound
  split
  · intro h
    cases h
  · rename_i f hseek
    have hf := CFile.fseekSet_eq_some hseek
    dsimp only
    split
    · rename_i hread
      intro _
      obtain ⟨hin, hend, hsame⟩ := readZipFileHeader_pos hread
      subst hf
      simp only [CFile.seek_pos, CFile.seek_readable] at hin hend hsame
      refine ⟨hin, ?_, hsame⟩
      dsimp only
      omega
    · split <;> intro h <;> cases h

/-- `next_zip_file`: the next entry that is not a directory. -/
def nextZipFile (z : ZipContainer) : Int × ZipContainer :=
  let r := zipRound z
  if _h : r.1 = 0 then
    if r.2.path.getLast? = some slash then nextZipFile r.2
    else
      (0, { r.2 with
        h := ⟨r.2.path, none, r.2.uncompressedLen, if r.2.executable then 0o755 else 0o644⟩ })
  else r
termination_by z.f.readable.length - z.diroff
decreasing_by
  obtain ⟨hin, hnext, hsame⟩ := zipRound_diroff _h
  rw [hsame]
  unfold zipFileHeaderSize at hin hnext
  omega

/-! ## Member streams -/

/-- A stored member is read through the limit, a deflated one through `inflate`. -/
inductive ZipStream (ζ : Type) where
  | stored (s : LimitStream FileStream)
  | inflated (s : ZlibStream ζ (LimitStream FileStream))

def readZip (Z : Codec ζ) (fuel : Nat) : Reader (ZipStream ζ)
  | .stored s, consume, need =>
    (readLimit readFile s consume need).map fun r => (r.1, .stored r.2)
  | .inflated s, consume, need =>
    (readZlib Z (readLimit readFile) fuel s consume need).map fun r => (r.1, .inflated r.2)

/-- The `FILE` below a member stream. -/
def ZipStream.file : ZipStream ζ → CFile
  | .stored s => s.source.f
  | .inflated s => s.source.source.f

def zipLocalHeaderSize : Nat := 30

/-- Behind the local header of the current entry, its name and its extra field. -/
def seekZipBody (z : ZipContainer) : Bool × CFile :=
  match z.f.fseekSet z.headerOff with
  | none => (false, z.f)
  | some f =>
    let lh := f.fread zipLocalHeaderSize
    if lh.1.length ≠ zipLocalHeaderSize then (false, lh.2)
    else
      match lh.2.fseekCur (little (field lh.1 26 2) + little (field lh.1 28 2)) with
      | none => (false, lh.2)
      | some f => (true, f)

def openZipFile (Z : Codec ζ) (z : ZipContainer) : Option (ZipStream ζ) × ZipContainer :=
  match seekZipBody z with
  | (false, f) => (none, { z with f := f })
  | (true, f) =>
    let s := openLimited (openFileStream f) z.compressedLen
    let z := { z with f := f }
    if z.compressionMethod = 8 then ((openZlib Z s).map .inflated, z)
    else if z.compressionMethod = 0 then (some (.stored s), z)
    else (none, z)

/-- Both kinds of stream have moved the `FILE` of the container. -/
def closeZipFile (z : ZipContainer) (s : ZipStream ζ) : ZipContainer := { z with f := s.file }

def zipContainer (Z : Codec ζ) (rounds : Nat) : Container ZipContainer (ZipStream ζ) where
  nextFile _ z := ((nextZipFile z).1, (nextZipFile z).2)
  member z := z.h
  openFile := openZipFile Z
  read := readZip Z rounds
  closeFile := closeZipFile

end ToolchainTools
