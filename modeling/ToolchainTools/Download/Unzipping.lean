import ToolchainTools.Download.Packages
import ToolchainTools.Stream.Buffer
import ToolchainTools.Stream.Feeds
import ToolchainTools.Stream.ZipLocate

/-!
# Unzipping

The files of a zip archive are extracted one by one, each over what the ones before it have left
(`extractPath_overlay`). Entries of directories are passed over. As every member is a feed of its
data, an archive is unpacked to exactly its files (`unpackContainer_zip`).
-/

namespace ToolchainTools

open CLib Posix Streams Trees

variable {ζ σ : Type}

/-! ## One file over others -/

section File

variable {read : Reader σ} {data dir path : Bytes} {os₀ os : OS} {leaves : Leaves}

/-- Where a site is free, there is nothing but directories on the way to what is below. -/
theorem Site.way {fs : FS} {L l r : Loc} (h : Site fs L) (hpre : l <+: L ++ r) :
    fs.get l = none ∨ fs.get l = some .dir := by
  rcases List.prefix_or_prefix_of_prefix hpre (List.prefix_append L r) with hup | hdown
  · exact h.above l hup
  · by_cases heq : l = L
    · rw [heq]
      exact Or.inl h.free
    · exact Or.inl (FS.get_eq_none_of_below (by rw [h.free]; simp) hdown heq)

theorem Site.below {fs : FS} {L : Loc} (h : Site fs L) (r : Loc) : fs.get (L ++ r) = none := by
  by_cases heq : L ++ r = L
  · rw [heq]
    exact h.free
  · exact FS.get_eq_none_of_below (by rw [h.free]; simp) (List.prefix_append L r) heq

/-- A file is laid over the leaves that are there, none of which is related to it. -/
theorem extractPath_overlay (F : Feed read) {s : σ} (h : F.ahead data s) (hlent : F.lent s = 0)
    {fuel : Nat} (mode : Int) (hfuel : data.length < fuel) (hquiet : Posix.Quiet os₀)
    (hdir : PlainPath dir) (hcwd : os₀.fs.get os₀.cwd = some .dir)
    (hsite : Site os₀.fs (os₀.cwd ++ components dir))
    (hbecomes : Becomes os₀ (overlay .dir os₀.fs.get
      (shift (os₀.cwd ++ components dir) leaves)) os)
    (hpath : dotdot ∉ components path) (hout : normalPath path ∉ way [] (components path))
    (hleaves : ∀ e ∈ leaves, Unrelated e.1 (normalPath path)) :
    ∃ r, extractPath read fuel s dir path mode os = r ∧ r.code = some 0 ∧
      Becomes os₀ (overlay .dir os₀.fs.get (shift (os₀.cwd ++ components dir)
        (leaves ++ [(normalPath path, .file data (OS.modeBits mode))]))) r.os := by
  have hcomps : components (joinPath dir path) = components dir ++ components path :=
    components_append dir path
  have hstart : startOf os.cwd (joinPath dir path) = os₀.cwd := by
    rw [hbecomes.goes.cwd, startOf_joinPath hdir.ne_nil, hdir.startOf]
  have hno : dotdot ∉ components dir ++ components path := by
    rw [List.mem_append, not_or]
    exact ⟨hdir.no_dotdot, hpath⟩
  have hplace : lexical os₀.cwd (components dir ++ components path) =
      os₀.cwd ++ components dir ++ normalPath path := by
    rw [lexical_append, lexical_ordinary hdir, lexical_of_no_dotdot hpath]
    rfl
  -- the new place is not related to any leaf
  have hshifted : ∀ e ∈ shift (os₀.cwd ++ components dir) leaves,
      Unrelated e.1 (os₀.cwd ++ components dir ++ normalPath path) := by
    intro e he
    obtain ⟨k, hk, rfl⟩ := mem_shift.mp he
    obtain ⟨hone, hother⟩ := hleaves k hk
    exact ⟨fun hpre => hone ((List.prefix_append_right_inj _).mp hpre),
      fun hpre => hother ((List.prefix_append_right_inj _).mp hpre)⟩
  have hstartDir : os.fs.get os₀.cwd = some .dir := by
    rw [hbecomes.get]
    rcases overlay_cases .dir os₀.fs.get (shift (os₀.cwd ++ components dir) leaves) os₀.cwd with
      habove | ⟨e, he, heq, -⟩ | hbase
    · exact habove
    · refine absurd ?_ (hshifted e he).1
      rw [heq, List.append_assoc]
      exact List.prefix_append _ _
    · rw [hbase]
      exact hcwd
  have hclear : Clear os.fs.get os₀.cwd (components dir ++ components path) := by
    intro l hl
    have hpre := ((mem_way_iff hno).mp (Or.inl hl)).2
    rw [hplace] at hpre
    rw [hbecomes.get]
    rcases overlay_cases .dir os₀.fs.get (shift (os₀.cwd ++ components dir) leaves) l with
      habove | ⟨e, he, rfl, -⟩ | hbase
    · exact Or.inr habove
    · exact absurd hpre (hshifted e he).1
    · rw [hbase]
      exact hsite.way hpre
  have hfree : os.fs.get (os₀.cwd ++ components dir ++ normalPath path) = none := by
    rw [hbecomes.get, overlay_base fun e he => (hshifted e he).2]
    exact hsite.below _
  have hend : os₀.cwd ++ components dir ++ normalPath path ∉
      way os₀.cwd (components dir ++ components path) := by
    rw [way_append, List.mem_append, not_or, lexical_ordinary hdir, mem_way_append hpath]
    refine ⟨fun hmem => ?_, hout⟩
    have hpre := ((mem_way_iff hdir.no_dotdot).mp (Or.inl hmem)).2
    rw [lexical_ordinary hdir] at hpre
    rw [(List.prefix_append _ (normalPath path)).eq_of_length_le hpre.length_le |>.symm] at hmem
    exact hdir.not_mem_way os₀.cwd hmem
  obtain ⟨r, hr, hcode, hput⟩ := @extractPath_feed σ read data dir path os F s h hlent fuel mode hfuel
    (hquiet.of_goes hbecomes.goes) (by rw [hstart]; exact hstartDir)
    (by rw [hstart, hcomps]; exact hclear) (by rw [hstart, hcomps, hplace]; exact hend)
    (by rw [hstart, hcomps, hplace]; exact hfree)
  refine ⟨r, hr, hcode, ?_⟩
  rw [hstart, hcomps, putting_overlay hno hstartDir, hplace] at hput
  rw [shift_append, ← overlay_append fun a ha b hb => ?_]
  · exact (hbecomes.trans hput).congr fun l => by
      rw [show os.fs.get = _ from funext hbecomes.get]
      rfl
  · rw [List.mem_singleton.mp hb]
    exact hshifted a ha

/-- What every read keeps of the stream holds when extraction returns. -/
theorem extractFileLoop_stream {P : σ → Prop} (hp : Preserves read P) {f : Loc} {fuel len : Nat}
    {s : σ} {failed : Bool} (h : P s) : P (extractFileLoop read f fuel len s os failed).s := by
  induction fuel generalizing len s os failed with
  | zero => exact h
  | succ fuel ih =>
    unfold extractFileLoop
    split
    · exact h
    · rename_i w s' hread
      have hs := hp _ _ _ _ _ hread h
      split
      · exact hs
      · split
        · exact hs
        · exact ih hs

theorem extractPath_stream {P : σ → Prop} (hp : Preserves read P) {fuel : Nat} {s : σ} {mode : Int}
    (h : P s) : P (extractPath read fuel s dir path mode os).s := by
  unfold extractPath
  split
  · exact h
  · exact extractFileLoop_stream hp h

end File

/-! ## The files of an archive -/

/-- The leaves that the files of an archive become. -/
def zipLeaves (files : List (ZipEntry × Bytes)) : Leaves :=
  files.map fun e => (normalPath e.1.path, .file e.2 (OS.modeBits e.1.member.fileMode))

/-- A file that can be extracted as `e.2`, whatever the file system holds elsewhere. -/
structure Extractable (Z : Codec ζ) (content : Bytes) (e : ZipEntry × Bytes) : Prop where
  body : e.1.HasBody content
  gives : e.1.Gives Z content e.2
  ends : normalPath e.1.path ∉ way [] (components e.1.path)

section Zip

variable {Z : Codec ζ} {content tail dir : Bytes} {os₀ os : OS} {rounds : Nat}

theorem ZipEntry.no_dotdot (e : ZipEntry) : dotdot ∉ components e.path :=
  (cleanPath_eq_some_iff.mp e.clean).2.no_dotdot

/-- One file is extracted, and the directory behind it is ahead. -/
theorem extractContainer_zip_file (hsmall : content.length < 2 ^ 63) {z : ZipContainer}
    {es : List ZipEntry} {e : ZipEntry × Bytes} {fuel : Nat} {leaves : Leaves}
    (hz : Reported content e.1 z) (hdirectory : DirectoryAhead content tail z es)
    (he : Extractable Z content e) (hrounds : 2 * (content.length + e.2.length) + 2 < rounds)
    (hfuel : e.2.length < fuel) (hquiet : Posix.Quiet os₀) (hdir : PlainPath dir)
    (hcwd : os₀.fs.get os₀.cwd = some .dir) (hsite : Site os₀.fs (os₀.cwd ++ components dir))
    (hbecomes : Becomes os₀ (overlay .dir os₀.fs.get
      (shift (os₀.cwd ++ components dir) leaves)) os)
    (hleaves : ∀ k ∈ leaves, Unrelated k.1 (normalPath e.1.path)) :
    ∃ s z₁ r, openZipFile Z z = (some s, z₁) ∧
      extractPath (readZip Z rounds) fuel s dir e.1.path e.1.member.fileMode os = r ∧
      r.code = some 0 ∧ DirectoryAhead content tail (closeZipFile z₁ r.s) es ∧
      Becomes os₀ (overlay .dir os₀.fs.get (shift (os₀.cwd ++ components dir)
        (leaves ++ zipLeaves [e]))) r.os := by
  obtain ⟨s, z₁, hopen, F, hahead, hlent⟩ := openZipFile_feed hz hsmall he.body he.gives hrounds
  obtain ⟨hworking, hdiroff, hfile⟩ := openZipFile_frame hopen hz.working
  obtain ⟨r, hr, hcode, hlaid⟩ := extractPath_overlay F hahead hlent e.1.member.fileMode hfuel hquiet
    hdir hcwd hsite hbecomes e.1.no_dotdot he.ends hleaves
  have hclosed : r.s.file.Working content := by
    rw [← hr]
    refine extractPath_stream (readZip_preserves Z rounds content) ?_
    rw [hfile s rfl]
    exact hworking
  exact ⟨s, z₁, r, hopen, hr, hcode, hdirectory.moved hclosed hdiroff, hlaid⟩

/-- All files are extracted, in the order of the directory. -/
theorem extractContainer_zip (hsmall : content.length < 2 ^ 63)
    (hended : tail.take 4 ≠ littleBytes 4 zipFileHeaderSig) (hquiet : Posix.Quiet os₀)
    (hdir : PlainPath dir) (hcwd : os₀.fs.get os₀.cwd = some .dir)
    (hsite : Site os₀.fs (os₀.cwd ++ components dir)) {done files : List (ZipEntry × Bytes)}
    {es : List ZipEntry} {z : ZipContainer} {fuel : Nat} (hes : files.map Prod.fst = filesOf es)
    (hfiles : ∀ e ∈ files, Extractable Z content e)
    (hrounds : ∀ e ∈ files, 2 * (content.length + e.2.length) + 2 < rounds)
    (hfuel : ∀ e ∈ files, files.length + e.2.length < fuel) (hmore : files.length < fuel)
    (hpairs : (done ++ files).Pairwise fun a b =>
      Unrelated (normalPath a.1.path) (normalPath b.1.path))
    (hdirectory : DirectoryAhead content tail z es)
    (hbecomes : Becomes os₀ (overlay .dir os₀.fs.get
      (shift (os₀.cwd ++ components dir) (zipLeaves done))) os) :
    ∃ z' os', extractContainer (zipContainer Z rounds) dir fuel z os = (some 0, z', os') ∧
      Becomes os₀ (overlay .dir os₀.fs.get
        (shift (os₀.cwd ++ components dir) (zipLeaves (done ++ files)))) os' := by
  induction files generalizing done es z fuel os with
  | nil =>
    obtain ⟨n, rfl⟩ : ∃ n, fuel = n + 1 := ⟨fuel - 1, by omega⟩
    have hend : (nextZipFile z).1 = 1 := (nextZipFile_spec hended hdirectory).1 hes.symm
    have hnext : (zipContainer Z rounds).nextFile n z = (some 1, (nextZipFile z).2) := by
      rw [← hend]
      rfl
    refine ⟨(nextZipFile z).2, os, ?_, by rwa [List.append_nil]⟩
    unfold extractContainer
    rw [hnext]
    rfl
  | cons e files ih =>
    obtain ⟨n, rfl⟩ : ∃ n, fuel = n + 1 := ⟨fuel - 1, by omega⟩
    have hcount := hfuel e List.mem_cons_self
    rw [List.length_cons] at hcount hmore
    obtain ⟨z', es', hnext, hz, hdirectory', hes'⟩ :=
      (nextZipFile_spec hended hdirectory).2 e.1 (files.map Prod.fst) hes.symm
    have hleaves : ∀ k ∈ zipLeaves done, Unrelated k.1 (normalPath e.1.path) := by
      intro k hk
      obtain ⟨d, hd, rfl⟩ := List.mem_map.mp hk
      exact (List.pairwise_append.mp hpairs).2.2 d hd e List.mem_cons_self
    obtain ⟨s, z₁, r, hopen, hr, hcode, hclosed, hlaid⟩ := extractContainer_zip_file hsmall hz
      hdirectory' (hfiles e List.mem_cons_self) (hrounds e List.mem_cons_self)
      (show e.2.length < n by omega) hquiet hdir hcwd hsite hbecomes hleaves
    have hleaves' : zipLeaves (done ++ [e]) = zipLeaves done ++ zipLeaves [e] := List.map_append
    rw [← hleaves'] at hlaid
    obtain ⟨z'', os', hrest, hend⟩ := @ih r.os (done ++ [e]) es' (closeZipFile z₁ r.s) n hes'.symm
      (fun k hk => hfiles k (List.mem_cons_of_mem _ hk))
      (fun k hk => hrounds k (List.mem_cons_of_mem _ hk))
      (fun k hk => by
        have := hfuel k (List.mem_cons_of_mem _ hk)
        rw [List.length_cons] at this
        omega)
      (by omega) (by rwa [List.append_assoc, List.singleton_append]) hclosed hlaid
    rw [List.append_assoc, List.singleton_append] at hend
    refine ⟨z'', os', ?_, hend⟩
    have hnext' : (zipContainer Z rounds).nextFile n z = (some 0, z') := by
      show (some (nextZipFile z).1, (nextZipFile z).2) = _
      rw [hnext]
    have hmember : (zipContainer Z rounds).member z' = e.1.member := hz.member
    have hopen' : (zipContainer Z rounds).openFile z' = (some s, z₁) := hopen
    have hr' : extractPath (zipContainer Z rounds).read n s dir e.1.member.filePath
        e.1.member.fileMode os = r := hr
    have hlink : e.1.member.linkTarget = none := rfl
    rw [← hrest]
    simp [extractContainer, hnext', hmember, hopen', hr', hcode, hlink]
    rfl

end Zip

/-! ## Whole archives -/

/-- A zip archive whose central directory is found behind its last end record, with the files
that are extracted from it. -/
structure ZipArchive (Z : Codec ζ) (content : Bytes) (files : List (ZipEntry × Bytes)) where
  last : Nat
  entries : List ZipEntry
  tail : Bytes
  small : content.length < 2 ^ 63
  located : LastEndRecord content last
  narrow : endRecordOffset content last ≠ 0xFFFFFFFF
  inside : endRecordOffset content last ≤ content.length
  directory : content.drop (endRecordOffset content last) =
    entries.flatMap ZipEntry.encode ++ tail
  ended : tail.take 4 ≠ littleBytes 4 zipFileHeaderSig
  files_eq : files.map Prod.fst = filesOf entries
  extractable : ∀ e ∈ files, Extractable Z content e
  unrelated : files.Pairwise fun a b => Unrelated (normalPath a.1.path) (normalPath b.1.path)

namespace ZipArchive

variable {Z : Codec ζ} {content dir : Bytes} {files : List (ZipEntry × Bytes)} {os : OS}

theorem opened (A : ZipArchive Z content files) {fuel : Nat} (hfuel : 3 ≤ fuel) :
    ∃ z, openZip fuel (.ofBytes content) = some (some z) ∧
      DirectoryAhead content A.tail z A.entries := by
  have hnew : CFile.Working content (.ofBytes content) := ⟨rfl, rfl, rfl⟩
  obtain ⟨f, hf, hopen⟩ := openZip_last hnew A.small A.located hfuel
  have hsmall := A.small
  have hinside := A.inside
  have hnonneg : ¬ (endRecordOffset content A.last : Int) < -1 := by omega
  rw [endRecordResult, if_neg A.narrow, endSearch, if_neg hnonneg] at hopen
  refine ⟨_, hopen, hf.seek _, A.small, ?_, ?_⟩
  · exact A.inside
  · exact A.directory

/-- **Unzipping.** An archive is unpacked to exactly its files. -/
theorem unpackContainer_zip (A : ZipArchive Z content files) {rounds fuel : Nat}
    (hrounds : ∀ e ∈ files, 2 * (content.length + e.2.length) + 2 < rounds)
    (hfuel : ∀ e ∈ files, files.length + e.2.length < fuel) (hmore : files.length < fuel)
    {z : ZipContainer} (hz : DirectoryAhead content A.tail z A.entries)
    (hquiet : Posix.Quiet os) (hdir : PlainPath dir) (hcwd : os.fs.get os.cwd = some .dir)
    (hsite : Site os.fs (os.cwd ++ components dir)) :
    ∃ os', unpackContainer (zipContainer Z rounds) dir fuel z os = (.next, os') ∧
      Becomes os (overlay .dir os.fs.get
        (shift (os.cwd ++ components dir) (zipLeaves files))) os' := by
  have hstart : Becomes os (overlay .dir os.fs.get (shift (os.cwd ++ components dir)
      (zipLeaves []))) os := by
    refine ⟨.refl os, fun l => ?_⟩
    rw [show shift (os.cwd ++ components dir) (zipLeaves []) = [] from rfl, overlay_nil]
  obtain ⟨z', os', hextract, hend⟩ := @extractContainer_zip ζ Z content A.tail dir os os rounds
    A.small A.ended hquiet hdir hcwd hsite [] files A.entries z fuel A.files_eq A.extractable hrounds
    hfuel hmore A.unrelated hz hstart
  refine ⟨os', ?_, hend⟩
  unfold unpackContainer
  rw [hextract]
  rfl

end ZipArchive

/-! ## Inflated files -/

/-- **Inflating into a file.** The inflate filter may fail for a consumer that asks for more than
fits its buffer, but `extract_file` never makes it fail: whatever the codec holds back and however
the source cuts its bytes, all the inflated data is written, and nothing else. -/
theorem inflated_is_written {Z : Codec ζ} {read : Reader σ} {enc dec : Bytes}
    (D : Inflates Z enc dec) (C : Contract read) {s : σ} (hv : C.valid s) (hrest : C.rest s = enc)
    (hdec : dec.length < 2 ^ 63) {ds : ZlibStream ζ σ} (hopen : openZlib Z s = some ds)
    {rounds fuel : Nat} (hrounds : 2 * (enc.length + dec.length) + 2 < rounds)
    (hfuel : dec.length < fuel) {f : Loc} {os : OS} {m : Int} (hquiet : Posix.Quiet os)
    (hfile : os.fs.get f = some (.file [] m)) :
    (extractFile (readZlib Z read rounds) fuel ds f os).code = some 0 ∧
      (extractFile (readZlib Z read rounds) fuel ds f os).os.fs.get f = some (.file dec m) ∧
      ∀ l, l ≠ f → (extractFile (readZlib Z read rounds) fuel ds f os).os.fs.get l = os.fs.get l := by
  obtain ⟨hopened, hinflated⟩ := openZlib_valid (D := D) hv hrest hopen
  have hahead : (inflateFeed D C hdec hrounds).ahead dec ds := by
    refine ⟨hopened, ?_, hinflated⟩
    unfold openZlib at hopen
    obtain ⟨z, -, rfl⟩ := Option.map_eq_some_iff.mp hopen
    exact Or.inl rfl
  have hlent : (inflateFeed D C hdec hrounds).lent ds = 0 := by
    unfold openZlib at hopen
    obtain ⟨z, -, rfl⟩ := Option.map_eq_some_iff.mp hopen
    rfl
  obtain ⟨r, rfl, hcode, hwritten⟩ := extractFile_feed (inflateFeed D C hdec hrounds) hahead hlent
    hfuel hquiet hfile
  exact ⟨hcode, hwritten, (extractFileLoop_frame _ f fuel 0 ds os false).2⟩

/-- Data on which a consumer that asks for more fails. -/
theorem inflated_is_written_long :
    ∃ ds, openZlib (heldCodec longDeflate longRun) (openBufferStream longDeflate) = some ds ∧
      (extractFile (readZlib (heldCodec longDeflate longRun) readBuffer 70000) 40000 ds tmpFile.1
        tmpFile.2).os.fs.get tmpFile.1 = some (.file longRun OS.createMode) := by
  have hne : longDeflate ≠ [] := by decide
  have hlen : longRun.length = 33000 := List.length_replicate
  have henc : longDeflate.length = 49 := by decide
  have hfile : tmpFile.2.fs.get tmpFile.1 = some (.file [] OS.createMode) := by decide
  have hdec : longRun.length < 2 ^ 63 := by
    rw [hlen]
    norm_num
  have hrounds : 2 * (longDeflate.length + longRun.length) + 2 < 70000 := by
    rw [hlen, henc]
    norm_num
  have hfuel : longRun.length < 40000 := by
    rw [hlen]
    norm_num
  have hsource : bufferContract.rest (openBufferStream longDeflate) = longDeflate := rfl
  have hall := @inflated_is_written _ _ _ _ _ _ (heldInflates longDeflate longRun hne)
    bufferContract _ trivial hsource hdec _ rfl _ _ hrounds hfuel _ _ _ (fun _ => rfl) hfile
  exact ⟨_, rfl, hall.2.1⟩

end ToolchainTools
