import ToolchainTools.Stream.TarScan

/-!
# Tar archives

An archive is a list of members followed by zero blocks. A regular file and a link are
given by what they store; a member of another typeflag is given by its header block and
its body. The header readers give back what an encoded header stores
(`readTarHeader_file_member`, `readTarHeader_link_member`).
-/

namespace ToolchainTools

open CLib Posix Streams

variable {σ : Type} {read : Reader σ}

/-! ## Members as they are stored -/

/-- The header fields that say nothing about the member; of these the reader looks at the magic
number only, for whether the prefix field counts. -/
structure TarInfo where
  uid : Packed 8
  gid : Packed 8
  mtime : Packed 12
  chksum : Packed 8
  magic : Packed 6
  version : Packed 2
  uname : Packed 32
  gname : Packed 32
  devmajor : Packed 8
  devminor : Packed 8
  unused : Packed 12

/-- A field filled up with NULs. -/
def padTo (n : Nat) (b : Bytes) : Bytes := b ++ List.replicate (n - b.length) 0

/-- The fields of a header in their order; `leading` is what the prefix field holds. -/
def headerFields (info : TarInfo) (leading name mode size : Bytes) (typeflag : UInt8)
    (linkname : Bytes) : List Bytes :=
  [padTo 100 name, padTo 8 mode, info.uid.1, info.gid.1, padTo 12 size, info.mtime.1,
    info.chksum.1, [typeflag], padTo 100 linkname, info.magic.1, info.version.1, info.uname.1,
    info.gname.1, info.devmajor.1, info.devminor.1, padTo 155 leading, info.unused.1]

def encodeHeader (info : TarInfo) (leading name mode size : Bytes) (typeflag : UInt8)
    (linkname : Bytes) : Bytes :=
  (headerFields info leading name mode size typeflag linkname).flatten

/-- Header fields that are all zero. -/
def plainInfo : TarInfo where
  uid := zeroField 8
  gid := zeroField 8
  mtime := zeroField 12
  chksum := zeroField 8
  magic := zeroField 6
  version := zeroField 2
  uname := zeroField 32
  gname := zeroField 32
  devmajor := zeroField 8
  devminor := zeroField 8
  unused := zeroField 12

instance neZero_eight : NeZero (8 : Nat) := ⟨by decide⟩

def octal (ds : List (Fin 8)) : Bytes := ds.map fun d => UInt8.ofNat (48 + d.val)

def octalValue (ds : List (Fin 8)) : Nat := ds.foldl (fun n d => n * 8 + d.val) 0

/-- Digits as they stand in a field, with the spaces that some archivers put behind them. -/
def number (ds : List (Fin 8)) (spaces : Nat) : Bytes := octal ds ++ List.replicate spaces 32

/-- What the reader takes a prefix and a name for, which it joins without a slash. -/
def storedPath (leading name : Bytes) : Option Bytes :=
  if leading = [] then cleanPath [] (stripTopDir name) else cleanPath (stripTopDir leading) name

/-- The two fields in which the path of a member is stored. -/
structure TarPath where
  leading : Bytes
  name : Bytes
  path : Bytes
  leading_length : leading.length ≤ 155
  leading_nul : (0 : UInt8) ∉ leading
  name_length : name.length ≤ 100
  name_nul : (0 : UInt8) ∉ name
  clean : storedPath leading name = some path

structure TarFile extends TarPath where
  info : TarInfo
  mode : List (Fin 8)
  modeSpaces : Nat
  size : List (Fin 8)
  sizeSpaces : Nat
  content : Bytes
  padding : Bytes
  ustar : leading ≠ [] → info.magic.1 = ustarMagic
  mode_length : mode.length ≤ 7
  mode_fits : mode.length + modeSpaces ≤ 8
  size_length : size.length ≤ 11
  size_fits : size.length + sizeSpaces ≤ 12
  size_value : octalValue size = content.length
  padding_length : padding.length < tarBlockSize
  aligned : tarBlockSize ∣ content.length + padding.length

/-- A target that a link may have: the name of something beside it. -/
def LinkTarget (lnk : Bytes) : Prop :=
  (lnk ≠ [] ∧ lnk ≠ dot ∧ lnk ≠ dotdot) ∧ ∀ c ∈ [0, colon, slash, backslash], c ∉ lnk

instance decidableLinkTarget (lnk : Bytes) : Decidable (LinkTarget lnk) :=
  inferInstanceAs (Decidable ((lnk ≠ [] ∧ lnk ≠ dot ∧ lnk ≠ dotdot) ∧
    ∀ c ∈ [0, colon, slash, backslash], c ∉ lnk))

structure TarLink extends TarPath where
  info : TarInfo
  mode : Packed 8
  size : Packed 12
  typeflag : UInt8
  linkname : Bytes
  ustar : leading ≠ [] → info.magic.1 = ustarMagic
  flag : typeflag = lnkType ∨ typeflag = symType
  linkname_length : linkname.length ≤ 100
  target : LinkTarget linkname

/-- A member of another typeflag: it has no body, or the body that its size field says. -/
structure TarOther where
  header : Bytes
  content : Bytes
  padding : Bytes
  header_length : header.length = tarBlockSize
  flag : ¬ interpreted (tarTypeflag header)
  sized : content = [] ∨ strtoull (cstr (tarSize header)) 8 = content.length
  padding_length : padding.length < tarBlockSize
  aligned : tarBlockSize ∣ content.length + padding.length

inductive TarMember where
  | file (f : TarFile)
  | link (l : TarLink)
  | other (o : TarOther)

namespace TarMember

def header : TarMember → Bytes
  | file f =>
    encodeHeader f.info f.leading f.name (number f.mode f.modeSpaces) (number f.size f.sizeSpaces)
      regType []
  | link l => encodeHeader l.info l.leading l.name l.mode.1 l.size.1 l.typeflag l.linkname
  | other o => o.header

def body : TarMember → Bytes
  | file f => f.content ++ f.padding
  | link _ => []
  | other o => o.content ++ o.padding

/-- What `next_tar_file` is to report of a member, with the bytes of a regular file. -/
def item : TarMember → Option (Member × Option Bytes)
  | file f => some (⟨f.path, none, f.content.length, octalValue f.mode⟩, some f.content)
  | link l => some (⟨l.path, some l.linkname, 0, 0⟩, none)
  | other _ => none

end TarMember

/-- The bytes of an archive: its members and a number of zero blocks. -/
def encodeTar (ms : List TarMember) (zeros : Nat) : Bytes :=
  ms.flatMap (fun m => m.header ++ m.body) ++ List.replicate (tarBlockSize * zeros) 0

/-! ## Fields of an encoded header -/

theorem length_padTo {n : Nat} {b : Bytes} (h : b.length ≤ n) : (padTo n b).length = n := by
  simp [padTo]
  omega

theorem cstr_padTo {n : Nat} {b : Bytes} (hnul : (0 : UInt8) ∉ b) : cstr (padTo n b) = b := by
  unfold padTo
  cases hk : n - b.length with
  | zero =>
    rw [List.replicate_zero, List.append_nil]
    exact cstr_of_not_mem hnul
  | succ k =>
    rw [List.replicate_succ]
    exact cstr_append_zero hnul

section Header

variable (info : TarInfo) (leading : Bytes) {name mode size linkname : Bytes} (flag : UInt8)
  (hname : name.length ≤ 100) (hmode : mode.length ≤ 8) (hsize : size.length ≤ 12)
  (hlink : linkname.length ≤ 100)

include hname in
theorem tarName_encodeHeader :
    tarName (encodeHeader info leading name mode size flag linkname) = padTo 100 name :=
  field_flatten [] (padTo 100 name) _ rfl (length_padTo hname)

include hname hmode in
theorem tarMode_encodeHeader :
    tarMode (encodeHeader info leading name mode size flag linkname) = padTo 8 mode :=
  field_flatten [padTo 100 name] (padTo 8 mode) _ (by simp [length_padTo hname])
    (length_padTo hmode)

include hname hmode hsize in
theorem tarSize_encodeHeader :
    tarSize (encodeHeader info leading name mode size flag linkname) = padTo 12 size :=
  field_flatten [padTo 100 name, padTo 8 mode, info.uid.1, info.gid.1] (padTo 12 size) _
    (by simp [length_padTo hname, length_padTo hmode, info.uid.2, info.gid.2])
    (length_padTo hsize)

include hname hmode hsize in
theorem tarTypeflag_encodeHeader :
    tarTypeflag (encodeHeader info leading name mode size flag linkname) = flag := by
  have hfield : field (encodeHeader info leading name mode size flag linkname) 156 1 = [flag] :=
    field_flatten [padTo 100 name, padTo 8 mode, info.uid.1, info.gid.1, padTo 12 size,
      info.mtime.1, info.chksum.1] [flag] _
      (by simp [length_padTo hname, length_padTo hmode, length_padTo hsize, info.uid.2,
        info.gid.2, info.mtime.2, info.chksum.2]) rfl
  have hget : (field (encodeHeader info leading name mode size flag linkname) 156 1).head? =
      some flag := by
    rw [hfield]
    rfl
  rw [field, List.head?_take, if_neg one_ne_zero, List.head?_drop] at hget
  rw [tarTypeflag, List.getD_eq_getElem?_getD, hget]
  rfl

include hname hmode hsize hlink in
theorem tarLinkname_encodeHeader :
    tarLinkname (encodeHeader info leading name mode size flag linkname) = padTo 100 linkname :=
  field_flatten [padTo 100 name, padTo 8 mode, info.uid.1, info.gid.1, padTo 12 size,
    info.mtime.1, info.chksum.1, [flag]] (padTo 100 linkname) _
    (by simp [length_padTo hname, length_padTo hmode, length_padTo hsize, info.uid.2,
      info.gid.2, info.mtime.2, info.chksum.2]) (length_padTo hlink)

include hname hmode hsize hlink in
theorem tarMagic_encodeHeader :
    tarMagic (encodeHeader info leading name mode size flag linkname) = info.magic.1 :=
  field_flatten [padTo 100 name, padTo 8 mode, info.uid.1, info.gid.1, padTo 12 size,
    info.mtime.1, info.chksum.1, [flag], padTo 100 linkname] info.magic.1 _
    (by simp [length_padTo hname, length_padTo hmode, length_padTo hsize, length_padTo hlink,
      info.uid.2, info.gid.2, info.mtime.2, info.chksum.2]) info.magic.2

include hname hmode hsize hlink in
theorem tarPrefix_encodeHeader (hleading : leading.length ≤ 155) :
    tarPrefix (encodeHeader info leading name mode size flag linkname) = padTo 155 leading :=
  field_flatten [padTo 100 name, padTo 8 mode, info.uid.1, info.gid.1, padTo 12 size,
    info.mtime.1, info.chksum.1, [flag], padTo 100 linkname, info.magic.1, info.version.1,
    info.uname.1, info.gname.1, info.devmajor.1, info.devminor.1] (padTo 155 leading) _
    (by simp [length_padTo hname, length_padTo hmode, length_padTo hsize, length_padTo hlink,
      info.uid.2, info.gid.2, info.mtime.2, info.chksum.2, info.magic.2, info.version.2,
      info.uname.2, info.gname.2, info.devmajor.2, info.devminor.2]) (length_padTo hleading)

include hname hmode hsize hlink in
theorem length_encodeHeader (hleading : leading.length ≤ 155) :
    (encodeHeader info leading name mode size flag linkname).length = tarBlockSize := by
  simp only [encodeHeader, headerFields, List.flatten_cons, List.flatten_nil, List.length_append,
    List.length_singleton, List.length_nil, length_padTo hname, length_padTo hmode,
    length_padTo hsize, length_padTo hlink, length_padTo hleading, info.uid.2, info.gid.2,
    info.mtime.2, info.chksum.2, info.magic.2, info.version.2, info.uname.2, info.gname.2,
    info.devmajor.2, info.devminor.2, info.unused.2, tarBlockSize]

end Header

theorem cleanTarName_encodeHeader (info : TarInfo) (p : TarPath) {mode size linkname : Bytes}
    (flag : UInt8) (hmode : mode.length ≤ 8) (hsize : size.length ≤ 12)
    (hlink : linkname.length ≤ 100) (hustar : p.leading ≠ [] → info.magic.1 = ustarMagic) :
    cleanTarName (encodeHeader info p.leading p.name mode size flag linkname) = some p.path := by
  have hhead : (padTo 155 p.leading).headD 0 ≠ 0 ↔ p.leading ≠ [] := by
    have hnul := p.leading_nul
    cases hleading : p.leading with
    | nil => simp [padTo]
    | cons b bs =>
      rw [hleading] at hnul
      have hb : b ≠ 0 := fun hb => hnul (by rw [hb]; exact List.mem_cons_self)
      simp [padTo, hb]
  rw [← p.clean]
  unfold cleanTarName storedPath
  rw [tarName_encodeHeader info p.leading flag p.name_length, cstr_padTo p.name_nul,
    tarPrefix_encodeHeader info p.leading flag p.name_length hmode hsize hlink p.leading_length,
    cstr_padTo p.leading_nul,
    tarMagic_encodeHeader info p.leading flag p.name_length hmode hsize hlink]
  dsimp only
  by_cases hleading : p.leading = []
  · rw [if_pos hleading, if_neg fun h => hhead.mp h.2 hleading]
  · rw [if_neg hleading, if_pos ⟨hustar hleading, hhead.mpr hleading⟩]

/-! ## Octal numbers -/

theorem digit_octal (d : Fin 8) : digit 8 (UInt8.ofNat (48 + d.val)) = some d.val := by
  fin_cases d <;> decide

theorem radix_eight (r : Bytes) : radix 8 r = (8, r) := by
  unfold radix
  split <;> simp

theorem digits_number (acc : Nat) (ds : List (Fin 8)) (spaces : Nat) :
    digits 8 acc (number ds spaces) = ds.foldl (fun n d => n * 8 + d.val) acc := by
  induction ds generalizing acc with
  | nil => cases spaces <;> rfl
  | cons d ds ih =>
    simp only [number, octal, List.map_cons, List.cons_append, digits, digit_octal,
      List.foldl_cons]
    exact ih _

theorem strto_number (ds : List (Fin 8)) (spaces : Nat) :
    strto (number ds spaces) 8 = (false, octalValue ds) := by
  cases ds with
  | nil =>
    have hspace : (number [] spaces).dropWhile isspace = [] := by
      simp [number, octal, isspace]
    rw [strto, hspace]
    rfl
  | cons d ds =>
    have hspace : (number (d :: ds) spaces).dropWhile isspace = number (d :: ds) spaces := by
      fin_cases d <;> rfl
    have hsign : sign (number (d :: ds) spaces) = (false, number (d :: ds) spaces) := by
      fin_cases d <;> rfl
    simp only [strto, hspace, hsign, radix_eight, digits_number, octalValue]

theorem number_nul (ds : List (Fin 8)) (spaces : Nat) : (0 : UInt8) ∉ number ds spaces := by
  intro h
  rcases List.mem_append.mp h with h | h
  · obtain ⟨d, -, hd⟩ := List.mem_map.mp h
    revert hd
    fin_cases d <;> decide
  · exact absurd (List.eq_of_mem_replicate h) (by decide)

theorem octalValue_lt (ds : List (Fin 8)) : octalValue ds < 8 ^ ds.length := by
  have hacc : ∀ (ds : List (Fin 8)) (acc : Nat),
      ds.foldl (fun n d => n * 8 + d.val) acc < (acc + 1) * 8 ^ ds.length := by
    intro ds
    induction ds with
    | nil => intro acc; simp
    | cons d ds ih =>
      intro acc
      have hstep := ih (acc * 8 + d.val)
      have hd := d.isLt
      calc (d :: ds).foldl (fun n d => n * 8 + d.val) acc
          < (acc * 8 + d.val + 1) * 8 ^ ds.length := hstep
        _ ≤ ((acc + 1) * 8) * 8 ^ ds.length := Nat.mul_le_mul_right _ (by omega)
        _ = (acc + 1) * 8 ^ (d :: ds).length := by rw [List.length_cons, Nat.pow_succ]; ring
  simpa [octalValue] using hacc ds 0

theorem octalValue_lt_of_length {ds : List (Fin 8)} {n : Nat} (h : ds.length ≤ n) :
    octalValue ds < 8 ^ n :=
  (octalValue_lt ds).trans_le (Nat.pow_le_pow_right (by norm_num) h)

/-- A number of at most eleven octal digits is read back. -/
theorem strtoull_number {ds : List (Fin 8)} (h : ds.length ≤ 11) (spaces : Nat) :
    strtoull (number ds spaces) 8 = octalValue ds := by
  have := octalValue_lt_of_length h
  simp only [strtoull, strto_number]
  rw [if_neg (by omega)]
  simp

theorem strtoll_number {ds : List (Fin 8)} (h : ds.length ≤ 7) (spaces : Nat) :
    toInt32 (strtoll (number ds spaces) 8) = octalValue ds := by
  have := octalValue_lt_of_length h
  simp only [strtoll, strto_number, Bool.false_eq_true, if_false, toInt32]
  rw [min_eq_left (by omega), Int.bmod_eq_of_le (by omega) (by omega)]

/-! ## What the header readers make of an encoded header -/

theorem length_number (ds : List (Fin 8)) (spaces : Nat) :
    (number ds spaces).length = ds.length + spaces := by
  simp [number, octal]

/-- The padding computed from the size is the padding in the archive. -/
theorem tarPadding_eq {size padding : Nat} (hsize : size < 8 ^ 11) (hlt : padding < tarBlockSize)
    (haligned : tarBlockSize ∣ size + padding) : tarPadding size = padding := by
  obtain ⟨k, hk⟩ := haligned
  simp only [tarBlockSize] at hlt hk
  have hround : (size + 511) / 512 * 512 = size + padding := by omega
  simp only [tarPadding, tarBlockSize]
  rw [add64_of_lt (by omega), hround, sub64_of_le (by omega) (by omega)]
  omega

namespace TarFile

variable (f : TarFile)

theorem content_lt : f.content.length < 8 ^ 11 := by
  rw [← f.size_value]
  exact octalValue_lt_of_length f.size_length

theorem mode_le : (number f.mode f.modeSpaces).length ≤ 8 := by
  rw [length_number]
  exact f.mode_fits

theorem size_le : (number f.size f.sizeSpaces).length ≤ 12 := by
  rw [length_number]
  exact f.size_fits

end TarFile

theorem TarMember.header_length (m : TarMember) : m.header.length = tarBlockSize := by
  cases m with
  | file f =>
    exact length_encodeHeader f.info f.leading regType f.name_length f.mode_le f.size_le
      (Nat.zero_le _) f.leading_length
  | link l =>
    exact length_encodeHeader l.info l.leading l.typeflag l.name_length l.mode.2.le l.size.2.le
      l.linkname_length l.leading_length
  | other o => exact o.header_length

theorem TarFile.typeflag (f : TarFile) : tarTypeflag (TarMember.file f).header = regType :=
  tarTypeflag_encodeHeader f.info f.leading regType f.name_length f.mode_le f.size_le

theorem TarLink.typeflag_header (l : TarLink) : tarTypeflag (TarMember.link l).header = l.typeflag :=
  tarTypeflag_encodeHeader l.info l.leading l.typeflag l.name_length l.mode.2.le l.size.2.le

/-- The typeflag of a member is interpreted exactly when there is something to report. -/
theorem TarMember.interpreted_header (m : TarMember) :
    interpreted (tarTypeflag m.header) ↔ m.item.isSome := by
  cases m with
  | file f => simp [f.typeflag, interpreted, TarMember.item]
  | link l =>
    rw [l.typeflag_header]
    have hint : interpreted l.typeflag := by
      rcases l.flag with h | h
      · exact Or.inl h
      · exact Or.inr (Or.inl h)
    simp [hint, TarMember.item]
  | other o => simpa [TarMember.item, TarMember.header] using o.flag

theorem readTarHeader_file_member (c : TarContainer σ) (f : TarFile) :
    readTarHeader c (TarMember.file f).header =
      (0, { c with
        h := ⟨f.path, none, f.content.length, octalValue f.mode⟩
        padding := f.padding.length
        fileOpened := false }) := by
  have hname : cleanTarName (TarMember.file f).header = some f.path :=
    cleanTarName_encodeHeader f.info f.toTarPath regType f.mode_le f.size_le (Nat.zero_le _) f.ustar
  have hmode : tarMode (TarMember.file f).header = padTo 8 (number f.mode f.modeSpaces) :=
    tarMode_encodeHeader f.info f.leading regType f.name_length f.mode_le
  have hsize : tarSize (TarMember.file f).header = padTo 12 (number f.size f.sizeSpaces) :=
    tarSize_encodeHeader f.info f.leading regType f.name_length f.mode_le f.size_le
  rw [readTarHeader_file (by rw [f.typeflag]; decide)]
  simp only [readTarFileHeader, hname, hmode, hsize, cstr_padTo (number_nul _ _),
    strtoll_number f.mode_length, strtoull_number f.size_length, f.size_value,
    tarPadding_eq f.content_lt f.padding_length f.aligned]

theorem cleanTarLinkname_of_field {t lnk : Bytes} (h : LinkTarget lnk)
    (hfield : tarLinkname t = padTo 100 lnk) : cleanTarLinkname t = some lnk := by
  obtain ⟨⟨hne, hdot, hdotdot⟩, hchars⟩ := h
  simp only [List.forall_mem_cons] at hchars
  obtain ⟨hnul, hcolon, hslash, hbackslash, -⟩ := hchars
  unfold cleanTarLinkname
  dsimp only
  rw [hfield, cstr_padTo hnul, strchr_eq_none_iff.mpr hcolon, strchr_eq_none_iff.mpr hslash,
    strchr_eq_none_iff.mpr hbackslash, if_neg]
  simp [hne, hdot, hdotdot]

theorem readTarHeader_link_member (c : TarContainer σ) (l : TarLink) :
    readTarHeader c (TarMember.link l).header =
      (0, { c with h := ⟨l.path, some l.linkname, 0, 0⟩, padding := 0, fileOpened := true }) := by
  have hname : cleanTarName (TarMember.link l).header = some l.path :=
    cleanTarName_encodeHeader l.info l.toTarPath l.typeflag l.mode.2.le l.size.2.le
      l.linkname_length l.ustar
  have hlink : cleanTarLinkname (TarMember.link l).header = some l.linkname :=
    cleanTarLinkname_of_field l.target (tarLinkname_encodeHeader l.info l.leading l.typeflag
      l.name_length l.mode.2.le l.size.2.le l.linkname_length)
  rw [readTarHeader_link (by rw [l.typeflag_header]; exact l.flag)]
  simp only [readTarLinkHeader, hname, hlink]

end ToolchainTools
