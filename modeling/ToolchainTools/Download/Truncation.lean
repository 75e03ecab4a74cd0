import ToolchainTools.Download.Extract
import ToolchainTools.Stream.TarRuns

/-!
# Archives that end early

A stream that breaks off looks to its reader like one that ends there. `next_tar_file`
notices this when it has something left to step over, and in the middle of a header, but
not when the body of a regular file whose size is a multiple of the block size is cut
short: there is no padding to step over, and the end of the stream is taken for the end
of the archive. So of the extractions that return zero exactly those leave a short file
behind that meet such a body (`cut_tar_iff`).
-/

namespace ToolchainTools

open CLib Posix Streams

variable {σ κ τ : Type} {read : Reader σ}

/-! ## What an extraction writes -/

/-- The regular members that `extract_container` comes to, each with the node of its file right
after `extract_path`. -/
def extractedFiles (K : Container κ τ) (dir : Bytes) : Nat → κ → OS → List (Member × Option Node)
  | 0, _, _ => []
  | fuel + 1, c, os =>
    match K.nextFile fuel c with
    | (none, _) => []
    | (some err, c) =>
      if err < 0 then []
      else if err > 0 then []
      else
        let m := K.member c
        match m.linkTarget with
        | some target =>
          match os.symlink target (joinPath dir m.filePath) with
          | (false, _) => []
          | (true, os) => extractedFiles K dir fuel c os
        | none =>
          match K.openFile c with
          | (none, _) => []
          | (some s, c) =>
            let r := extractPath K.read fuel s dir m.filePath m.fileMode os
            let f := (openPath os dir m.filePath m.fileMode).1
            (m, f.bind r.os.fs.get) ::
              match r.code with
              | none => []
              | some err =>
                if err = 0 then extractedFiles K dir fuel (K.closeFile c r.s) r.os else []

/-- The file holds as many bytes as the member has. -/
def WrittenWhole (e : Member × Option Node) : Prop :=
  ∃ content mode, e.2 = some (.file content mode) ∧ content.length = e.1.fileSize

/-- The size that the header of a regular file gives. -/
def headerSize (t : Bytes) : Nat := strtoull (cstr (tarSize t)) 8

/-- Going from header to header, the bytes end within the body of a regular file whose size is a
multiple of the block size. -/
inductive CutUnpadded : Bytes → Prop
  | here {bytes t rest : Bytes} : tarScan bytes = .header t rest → tarTypeflag t = regType →
      tarBlockSize ∣ headerSize t → rest.length < headerSize t → CutUnpadded bytes
  | file {bytes t rest : Bytes} : tarScan bytes = .header t rest → tarTypeflag t = regType →
      CutUnpadded (rest.drop (headerSize t + tarPadding (headerSize t))) → CutUnpadded bytes
  | link {bytes t rest : Bytes} : tarScan bytes = .header t rest →
      tarTypeflag t = lnkType ∨ tarTypeflag t = symType → CutUnpadded rest → CutUnpadded bytes

/-! ## Opening and writing one member -/

theorem openPath_file {os os' : OS} {dir file : Bytes} {mode : Int} {f : Loc}
    (h : openPath os dir file mode = (some f, os')) :
    ∃ m, os'.fs.get f = some (.file [] m) := by
  unfold openPath at h
  dsimp only at h
  split at h
  · cases h
  · rename_i loc os1 hopen
    have hempty : ∃ m, os1.fs.get loc = some (.file [] m) := by
      rcases OS.fopenWrite_cases (makeDirectory os (joinPath dir file)) (joinPath dir file) with
        hfail | ⟨l, -, ⟨hadd, hdone⟩ | ⟨c, m, hget, hdone⟩⟩
      · rw [hfail] at hopen
        cases hopen
      · rw [hdone] at hopen
        cases hopen
        exact ⟨_, (FS.get_add hadd _ _).trans (if_pos rfl)⟩
      · rw [hdone] at hopen
        cases hopen
        exact ⟨_, (FS.get_update (OS.isLeaf_of_file hget) _ _).trans (if_pos rfl)⟩
    cases h
    obtain ⟨m, hm⟩ := hempty
    rcases os1.fchmod_cases f mode with hsame | ⟨c, m', hget, hdone⟩
    · rw [hsame]
      exact ⟨m, hm⟩
    · rw [hm] at hget
      cases hget
      rw [hdone]
      exact ⟨OS.modeBits mode, (FS.get_update (OS.isLeaf_of_file hm) _ _).trans (if_pos rfl)⟩

/-- When the extraction of a limited stream returns zero, the file holds the bytes of the limit,
or as many as the source had, and the source is behind them. -/
theorem extractPath_limit (C : Contract read) {ls : LimitStream σ} (hv : ls.Valid C) (fuel : Nat)
    (dir file : Bytes) (mode : Int) (os : OS)
    (hcode : (extractPath (readLimit read) fuel ls dir file mode os).code = some 0) :
    ∃ f m, (openPath os dir file mode).1 = some f ∧
      (extractPath (readLimit read) fuel ls dir file mode os).os.fs.get f =
        some (.file ((C.rest ls.source).take ls.left) m) ∧
      C.valid (extractPath (readLimit read) fuel ls dir file mode os).s.source ∧
      C.rest (extractPath (readLimit read) fuel ls dir file mode os).s.source =
        (C.rest ls.source).drop ls.left := by
  unfold extractPath at hcode ⊢
  rcases hopen : openPath os dir file mode with ⟨f, os'⟩
  rw [hopen] at hcode
  cases f with
  | none => cases hcode
  | some f =>
    obtain ⟨m, hm⟩ := openPath_file hopen
    obtain ⟨got, hdrain, hwritten⟩ := extractFileLoop_drains [] hm rfl hcode
    obtain ⟨hgot, hvalid, hrest⟩ :=
      drains_limit C hdrain hv List.nil_prefix (Nat.zero_le _) (Nat.zero_le _)
    rw [List.nil_append] at hgot
    rw [List.nil_append, hgot] at hwritten
    exact ⟨f, m, rfl, hwritten, hvalid, hrest⟩

/-- On a finite source the extraction of a limited stream returns. -/
theorem extractFileLoop_limit_total (C : Contract read) {ls : LimitStream σ} (hv : ls.Valid C)
    {f : Loc} {fuel len : Nat} {os : OS} {failed : Bool} (hlent : len ≤ C.lent ls.source)
    (hleft : len ≤ ls.left)
    (hfuel : (C.rest ls.source).length + (if len = 0 then 1 else 0) < fuel) :
    ∃ code, (extractFileLoop (readLimit read) f fuel len ls os failed).code = some code ∧
      C.valid (extractFileLoop (readLimit read) f fuel len ls os failed).s.source ∧
      (C.rest (extractFileLoop (readLimit read) f fuel len ls os failed).s.source).length ≤
        (C.rest ls.source).length := by
  induction fuel generalizing ls len os failed with
  | zero => omega
  | succ fuel ih =>
    obtain ⟨w, ls', hread, hv', hleft', hrest, hwl, -⟩ :=
      readLimit_serve C hv hlent hleft (by norm_num : (1 : Nat) < 2 ^ 63)
    have hshort : (C.rest ls'.source).length ≤ (C.rest ls.source).length := by
      rw [hrest, List.length_drop]
      omega
    unfold extractFileLoop
    simp only [hread]
    split
    · exact ⟨0, rfl, hv'.source, hshort⟩
    · rename_i hne
      split
      · exact ⟨-1, rfl, hv'.source, hshort⟩
      · have hle := C.lent_le _ hv.source
        have hfuel' : (C.rest ls'.source).length + (if w.bytes.length = 0 then 1 else 0) < fuel := by
          rw [if_neg hne, hrest, List.length_drop]
          split at hfuel <;> omega
        obtain ⟨code, hcode, hvalid, hless⟩ := ih hv' (by omega) (by omega) hfuel'
        exact ⟨code, hcode, hvalid, hless.trans hshort⟩

theorem extractPath_limit_total (C : Contract read) {ls : LimitStream σ} (hv : ls.Valid C)
    {fuel : Nat} (dir file : Bytes) (mode : Int) (os : OS)
    (hfuel : (C.rest ls.source).length + 1 < fuel) :
    ∃ code, (extractPath (readLimit read) fuel ls dir file mode os).code = some code ∧
      C.valid (extractPath (readLimit read) fuel ls dir file mode os).s.source ∧
      (C.rest (extractPath (readLimit read) fuel ls dir file mode os).s.source).length ≤
        (C.rest ls.source).length := by
  unfold extractPath
  split
  · exact ⟨-1, rfl, hv.source, le_rfl⟩
  · exact extractFileLoop_limit_total C hv (Nat.zero_le _) (Nat.zero_le _) (by simpa using hfuel)

/-! ## One round of an extraction -/

section Round

variable {dir : Bytes} {fuel : Nat} {c c' : TarContainer σ} {os : OS}

theorem extractContainer_finish (hnext : nextTarFile read fuel c = (some 1, c')) :
    extractContainer (tarContainer read) dir (fuel + 1) c os = (some 0, c', os) ∧
      extractedFiles (tarContainer read) dir (fuel + 1) c os = [] := by
  have hnext' : (tarContainer read).nextFile fuel c = (some 1, c') := hnext
  constructor
  · simp [extractContainer, hnext']
  · simp [extractedFiles, hnext']

theorem extractContainer_link {target : Bytes} (hnext : nextTarFile read fuel c = (some 0, c'))
    (hlink : c'.h.linkTarget = some target)
    (hcode : (extractContainer (tarContainer read) dir (fuel + 1) c os).1 = some 0) :
    ∃ os', extractContainer (tarContainer read) dir (fuel + 1) c os =
        extractContainer (tarContainer read) dir fuel c' os' ∧
      extractedFiles (tarContainer read) dir (fuel + 1) c os =
        extractedFiles (tarContainer read) dir fuel c' os' := by
  have hnext' : (tarContainer read).nextFile fuel c = (some 0, c') := hnext
  have hlink' : ((tarContainer read).member c').linkTarget = some target := hlink
  rcases hsym : os.symlink target (joinPath dir ((tarContainer read).member c').filePath) with
    ⟨ok, os'⟩
  cases ok with
  | false => simp [extractContainer, hnext', hlink', hsym] at hcode
  | true =>
    refine ⟨os', ?_, ?_⟩
    · simp [extractContainer, hnext', hlink', hsym]
    · simp [extractedFiles, hnext', hlink', hsym]

/-- A round over a regular file writes the bytes of the file that the source has. -/
theorem extractContainer_file (C : Contract read) (hnext : nextTarFile read fuel c = (some 0, c'))
    (hfile : c'.h.linkTarget = none) (hopened : c'.fileOpened = false) (hv : C.valid c'.s)
    (hsize : c'.h.fileSize < 2 ^ 64)
    (hcode : (extractContainer (tarContainer read) dir (fuel + 1) c os).1 = some 0) :
    ∃ c'' os' m, extractContainer (tarContainer read) dir (fuel + 1) c os =
        extractContainer (tarContainer read) dir fuel c'' os' ∧
      extractedFiles (tarContainer read) dir (fuel + 1) c os =
        (c'.h, some (.file ((C.rest c'.s).take c'.h.fileSize) m)) ::
          extractedFiles (tarContainer read) dir fuel c'' os' ∧
      C.valid c''.s ∧ C.rest c''.s = (C.rest c'.s).drop c'.h.fileSize ∧
      tarSkip c'' = c'.padding := by
  have hnext' : (tarContainer read).nextFile fuel c = (some 0, c') := hnext
  have hopen : (tarContainer read).openFile c' =
      (some (openLimited c'.s c'.h.fileSize), { c' with fileOpened := true }) := by
    simp [tarContainer, openTarFile, hopened]
  have hfile' : ((tarContainer read).member c').linkTarget = none := hfile
  have hread : (tarContainer read).read = readLimit read := rfl
  have hmember : (tarContainer read).member c' = c'.h := rfl
  generalize hr : extractPath (readLimit read) fuel (openLimited c'.s c'.h.fileSize) dir
    c'.h.filePath c'.h.fileMode os = r
  have hr' : extractPath (tarContainer read).read fuel (openLimited c'.s c'.h.fileSize) dir
      ((tarContainer read).member c').filePath ((tarContainer read).member c').fileMode os = r := hr
  have hzero : r.code = some 0 := by
    simp only [extractContainer, hnext', hfile', hopen, hr'] at hcode
    simp only [lt_irrefl, if_false] at hcode
    cases hcase : r.code with
    | none => simp [hcase] at hcode
    | some err =>
      simp only [hcase] at hcode
      split at hcode
      · rename_i h0
        rw [h0]
      · exact hcode
  have hvalid : (openLimited c'.s c'.h.fileSize).Valid C := ⟨hv, hsize⟩
  have hpath := extractPath_limit C hvalid (fuel) dir c'.h.filePath c'.h.fileMode os
    (by rw [hr]; exact hzero)
  rw [hr] at hpath
  obtain ⟨f, m, hf, hwritten, hvs, hrest⟩ := hpath
  refine ⟨closeTarFile { c' with fileOpened := true } r.s, r.os, m, ?_, ?_, hvs, hrest, rfl⟩
  · simp [extractContainer, hnext', hfile', hopen, hr', hzero]
    rfl
  · simp only [extractedFiles, hnext', hfile', hopen, hr', hzero]
    simp only [hmember, hf, Option.bind_some, hwritten]
    rfl

end Round

/-! ## Whole extractions -/

theorem strtoull_lt (s : Bytes) (base : Nat) : strtoull s base < 2 ^ 64 := by
  unfold strtoull
  dsimp only
  split
  · norm_num
  · split
    · exact Nat.mod_lt _ (by norm_num)
    · omega

/-- A body has no padding exactly when its size is a multiple of the block size. -/
theorem tarPadding_eq_zero_iff (size : Nat) :
    tarPadding size = 0 ↔ tarBlockSize ∣ size := by
  simp only [tarPadding, tarBlockSize, add64, sub64]
  omega

theorem tarScan_interpreted {bytes t rest : Bytes} (h : tarScan bytes = .header t rest) :
    interpreted (tarTypeflag t) := by
  fun_induction tarScan bytes with
  | case1 => cases h
  | case2 => cases h
  | case3 bytes _ _ hflag =>
    cases h
    exact hflag
  | case4 bytes _ _ _ ih => exact ih h

/-- What a header that is accepted says of its member. -/
theorem readTarHeader_zero {c : TarContainer σ} {t : Bytes} (h : (readTarHeader c t).1 = 0) :
    ((tarTypeflag t = lnkType ∨ tarTypeflag t = symType) ∧
      ∃ target, (readTarHeader c t).2.h.linkTarget = some target ∧
        (readTarHeader c t).2.padding = 0 ∧ (readTarHeader c t).2.fileOpened = true) ∨
    (¬ (tarTypeflag t = lnkType ∨ tarTypeflag t = symType) ∧
      (readTarHeader c t).2.h.linkTarget = none ∧
      (readTarHeader c t).2.h.fileSize = headerSize t ∧
      (readTarHeader c t).2.padding = tarPadding (headerSize t) ∧
      (readTarHeader c t).2.fileOpened = false) := by
  by_cases hflag : tarTypeflag t = lnkType ∨ tarTypeflag t = symType
  · left
    refine ⟨hflag, ?_⟩
    rw [readTarHeader_link hflag] at h ⊢
    unfold readTarLinkHeader at h ⊢
    cases hname : cleanTarName t with
    | none => simp [hname] at h
    | some path =>
      cases hlnk : cleanTarLinkname t with
      | none => simp [hname, hlnk] at h
      | some lnk => exact ⟨lnk, rfl, rfl, rfl⟩
  · right
    refine ⟨hflag, ?_⟩
    rw [readTarHeader_file hflag] at h ⊢
    unfold readTarFileHeader at h ⊢
    cases hname : cleanTarName t with
    | none => simp [hname] at h
    | some path => exact ⟨rfl, rfl, rfl, rfl⟩

/-- The three ways a scan can go on where a body of a regular file is cut. -/
theorem cutUnpadded_file_iff {bytes t rest : Bytes} (hscan : tarScan bytes = .header t rest)
    (hflag : ¬ (tarTypeflag t = lnkType ∨ tarTypeflag t = symType)) :
    CutUnpadded bytes ↔
      (tarBlockSize ∣ headerSize t ∧ rest.length < headerSize t) ∨
        CutUnpadded (rest.drop (headerSize t + tarPadding (headerSize t))) := by
  have hreg : tarTypeflag t = regType := by
    rcases tarScan_interpreted hscan with h | h | h
    · exact absurd (Or.inl h) hflag
    · exact absurd (Or.inr h) hflag
    · exact h
  constructor
  · intro h
    cases h with
    | here hs _ hblocks hless =>
      rw [hscan] at hs
      cases hs
      exact Or.inl ⟨hblocks, hless⟩
    | file hs _ hcut =>
      rw [hscan] at hs
      cases hs
      exact Or.inr hcut
    | link hs hlink _ =>
      rw [hscan] at hs
      cases hs
      exact absurd hlink hflag
  · rintro (⟨hblocks, hless⟩ | hcut)
    · exact .here hscan hreg hblocks hless
    · exact .file hscan hreg hcut

theorem cutUnpadded_link_iff {bytes t rest : Bytes} (hscan : tarScan bytes = .header t rest)
    (hflag : tarTypeflag t = lnkType ∨ tarTypeflag t = symType) :
    CutUnpadded bytes ↔ CutUnpadded rest := by
  have hreg : tarTypeflag t ≠ regType := by
    rcases hflag with h | h <;> rw [h] <;> decide
  constructor
  · intro h
    cases h with
    | here hs hr _ _ =>
      rw [hscan] at hs
      cases hs
      exact absurd hr hreg
    | file hs hr _ =>
      rw [hscan] at hs
      cases hs
      exact absurd hr hreg
    | link hs _ hcut =>
      rw [hscan] at hs
      cases hs
      exact hcut
  · exact .link hscan hflag

theorem not_cutUnpadded_finish {bytes : Bytes} (hscan : tarScan bytes = .finish) :
    ¬ CutUnpadded bytes := by
  intro h
  cases h with
  | here hs => rw [hscan] at hs; cases hs
  | file hs => rw [hscan] at hs; cases hs
  | link hs => rw [hscan] at hs; cases hs

section Run

variable {dir : Bytes} {fuel : Nat} {c : TarContainer σ} {os : OS}

/-- A call that fails ends the extraction with its code. -/
theorem extractContainer_broken {c' : TarContainer σ}
    (hnext : nextTarFile read fuel c = (some (-1), c')) :
    (extractContainer (tarContainer read) dir (fuel + 1) c os).1 = some (-1) := by
  have hnext' : (tarContainer read).nextFile fuel c = (some (-1), c') := hnext
  simp [extractContainer, hnext']

/-- An extraction that returns zero has stepped over what was left of the member before, and has
written all files whole exactly when no body without padding is cut. -/
theorem extraction_whole_iff (C : Contract read) (hv : C.valid c.s)
    (hfuel : (C.rest c.s).length + 1 < fuel)
    (hcode : (extractContainer (tarContainer read) dir fuel c os).1 = some 0) :
    tarSkip c ≤ (C.rest c.s).length ∧
      ((∀ e ∈ extractedFiles (tarContainer read) dir fuel c os, WrittenWhole e) ↔
        ¬ CutUnpadded ((C.rest c.s).drop (tarSkip c))) := by
  induction fuel generalizing c os with
  | zero => omega
  | succ fuel ih =>
    have hskip : tarSkip c ≤ (C.rest c.s).length := by
      by_contra hlong
      obtain ⟨s, hearly⟩ := skipLoop_early C (tarSkip c) hv (Nat.zero_le _)
          (by rw [List.drop_zero]; omega)
      have hnext : nextTarFile read fuel c = (some (-1), { c with padding := 0, s := s }) := by
        simp only [nextTarFile, hearly]
      rw [extractContainer_broken hnext] at hcode
      cases hcode
    refine ⟨hskip, ?_⟩
    have hscan := nextTarFile_scan C hv hskip (show (C.rest c.s).length < fuel by omega)
    cases hcase : tarScan ((C.rest c.s).drop (tarSkip c)) with
    | finish =>
      rw [hcase] at hscan
      obtain ⟨s, hnext, -, -⟩ := hscan
      rw [(extractContainer_finish hnext).2]
      simp [not_cutUnpadded_finish hcase]
    | broken =>
      rw [hcase] at hscan
      obtain ⟨s, hnext, -⟩ := hscan
      rw [extractContainer_broken hnext] at hcode
      cases hcode
    | header t rest =>
      rw [hcase] at hscan
      obtain ⟨s, hnext, hvs, hrest⟩ := hscan
      have hless := tarScan_length hcase
      rw [List.length_drop] at hless
      simp only [tarBlockSize] at hless
      rcases readTarHeader_code { c with padding := 0 } t with h0 | h0
      · rw [h0] at hnext
        rcases readTarHeader_zero h0 with ⟨hflag, target, htarget, hpad, hopened⟩ |
          ⟨hflag, htarget, hsize, hpad, hopened⟩
        · obtain ⟨os', hsame, hfiles⟩ := extractContainer_link hnext htarget hcode
          rw [hsame] at hcode
          have hskip' : tarSkip { (readTarHeader { c with padding := 0 } t).2 with s := s } = 0 := by
            simp [tarSkip, hpad, hopened]
          obtain ⟨-, hiff⟩ := ih hvs (by rw [hrest]; omega) hcode
          rw [hskip', List.drop_zero, hrest] at hiff
          rw [hfiles, hiff, cutUnpadded_link_iff hcase hflag]
        · have hlt : headerSize t < 2 ^ 64 := strtoull_lt _ _
          obtain ⟨c'', os', m, hsame, hfiles, hv'', hrest'', hskip''⟩ :=
            extractContainer_file C hnext htarget hopened hvs (by rw [hsize]; exact hlt) hcode
          rw [hsame] at hcode
          dsimp only at hfiles hrest'' hskip''
          rw [hsize, hrest] at hfiles hrest''
          rw [hpad] at hskip''
          obtain ⟨hle, hiff⟩ := ih hv'' (by rw [hrest'', List.length_drop]; omega) hcode
          rw [hskip'', hrest'', List.drop_drop] at hiff
          rw [hskip'', hrest'', List.length_drop] at hle
          rw [hfiles, List.forall_mem_cons, hiff, cutUnpadded_file_iff hcase hflag, not_or]
          -- a short body leaves nothing to step over, so there was no padding
          have hhead : WrittenWhole ((readTarHeader { c with padding := 0 } t).2.h,
              some (.file (rest.take (headerSize t)) m)) ↔
                ¬ (tarBlockSize ∣ headerSize t ∧ rest.length < headerSize t) := by
            rw [← tarPadding_eq_zero_iff]
            unfold WrittenWhole
            rw [hsize]
            constructor
            · rintro ⟨content, mode, hnode, hlen⟩ ⟨-, hshort⟩
              cases hnode
              rw [List.length_take] at hlen
              omega
            · intro hnot
              refine ⟨_, _, rfl, ?_⟩
              rw [List.length_take]
              by_cases hshort : rest.length < headerSize t
              · exact absurd ⟨by omega, hshort⟩ hnot
              · omega
          rw [hhead]
      · rw [h0] at hnext
        rw [extractContainer_broken hnext] at hcode
        cases hcode

theorem readTarLinkHeader_size {t : Bytes} (h : c.h.fileSize < 2 ^ 64) :
    (readTarLinkHeader c t).2.h.fileSize < 2 ^ 64 := by
  unfold readTarLinkHeader
  split
  · exact h
  · split
    · exact h
    · norm_num

theorem readTarFileHeader_size {t : Bytes} (h : c.h.fileSize < 2 ^ 64) :
    (readTarFileHeader c t).2.h.fileSize < 2 ^ 64 := by
  unfold readTarFileHeader
  dsimp only
  split
  · exact h
  · exact strtoull_lt _ _

/-- The size of a member always fits its type. -/
theorem headerLoop_size {consume : Nat} (h : c.h.fileSize < 2 ^ 64) :
    (headerLoop read c fuel consume).2.h.fileSize < 2 ^ 64 := by
  induction fuel generalizing c consume with
  | zero => exact h
  | succ fuel ih =>
    unfold headerLoop
    split
    · exact h
    · rename_i w s _
      split
      · exact h
      · split
        · exact h
        · dsimp only
          split
          · have hlink := readTarLinkHeader_size (c := { c with s := s })
              (t := w.bytes.take tarBlockSize) h
            split <;> exact hlink
          · split
            · have hfile := readTarFileHeader_size (c := { c with s := s })
                (t := w.bytes.take tarBlockSize) h
              split <;> exact hfile
            · exact ih h

theorem nextTarFile_size (h : c.h.fileSize < 2 ^ 64) :
    (nextTarFile read fuel c).2.h.fileSize < 2 ^ 64 := by
  unfold nextTarFile
  dsimp only
  split
  · exact h
  · exact h
  · exact headerLoop_size h

/-- On a finite source an extraction returns. -/
theorem extractContainer_tar_total (C : Contract read) (hv : C.valid c.s)
    (hsize : c.h.fileSize < 2 ^ 64) (hfuel : (C.rest c.s).length + 1 < fuel) :
    ∃ code, (extractContainer (tarContainer read) dir fuel c os).1 = some code := by
  induction fuel generalizing c os with
  | zero => omega
  | succ fuel ih =>
    obtain ⟨err, c', hnext, hv', hless⟩ :=
      nextTarFile_total C hv (show (C.rest c.s).length < fuel by omega)
    have hnext' : (tarContainer read).nextFile fuel c = (some err, c') := hnext
    have hsize' : c'.h.fileSize < 2 ^ 64 := by
      have : (nextTarFile read fuel c).2.h.fileSize < 2 ^ 64 := nextTarFile_size hsize
      rwa [hnext] at this
    unfold extractContainer
    simp only [hnext']
    split
    · exact ⟨err, rfl⟩
    · split
      · exact ⟨0, rfl⟩
      · have hshort := hless (by omega)
        simp only [tarBlockSize] at hshort
        split
        · split
          · exact ⟨-1, rfl⟩
          · exact ih hv' hsize' (by omega)
        · split
          · exact ⟨-1, rfl⟩
          · rename_i ls c'' hopen
            have hls : ls = openLimited c'.s c'.h.fileSize ∧ c'' = { c' with fileOpened := true } := by
              simp only [tarContainer, openTarFile] at hopen
              split at hopen
              · cases hopen
              · cases hopen
                exact ⟨rfl, rfl⟩
            obtain ⟨rfl, rfl⟩ := hls
            obtain ⟨err, herr, hvr, hrest⟩ := extractPath_limit_total C
              (show (openLimited c'.s c'.h.fileSize).Valid C from ⟨hv', hsize'⟩) dir c'.h.filePath
              c'.h.fileMode os (show _ < fuel by dsimp only [openLimited]; omega)
            have herr' : (extractPath (tarContainer read).read fuel
                (openLimited c'.s c'.h.fileSize) dir ((tarContainer read).member c').filePath
                ((tarContainer read).member c').fileMode os).code = some err := herr
            simp only [herr']
            split
            · exact ih hvr hsize' (lt_of_le_of_lt (Nat.add_le_add_right hrest 1)
                (by dsimp only [openLimited]; omega))
            · exact ⟨err, rfl⟩

end Run

/-! ## Where an archive may be cut -/

/-- The cut falls behind the header and before the end of the body of a regular file whose size
is a multiple of the block size. -/
def CutInside (ms : List TarMember) (cut : Nat) : Prop :=
  ∃ front f back, ms = front ++ .file f :: back ∧ tarBlockSize ∣ f.content.length ∧
    (encodeTar front 0).length + tarBlockSize ≤ cut ∧
    cut < (encodeTar front 0).length + tarBlockSize + f.content.length

theorem length_encodeTar_cons (m : TarMember) (ms : List TarMember) (zeros : Nat) :
    (encodeTar (m :: ms) zeros).length =
      tarBlockSize + m.body.length + (encodeTar ms zeros).length := by
  rw [encodeTar_cons, List.length_append, List.length_append, m.header_length, Nat.add_assoc]

theorem not_cutInside_short {ms : List TarMember} {cut : Nat} (h : cut < tarBlockSize) :
    ¬ CutInside ms cut := by
  rintro ⟨front, f, back, -, -, hle, -⟩
  omega

/-- Where the cut can fall in an archive that starts with `m`. -/
theorem cutInside_cons {m : TarMember} {ms : List TarMember} {cut : Nat} :
    CutInside (m :: ms) cut ↔
      (∃ f, m = .file f ∧ tarBlockSize ∣ f.content.length ∧ tarBlockSize ≤ cut ∧
        cut < tarBlockSize + f.content.length) ∨
      CutInside ms (cut - (tarBlockSize + m.body.length)) := by
  have hempty : (encodeTar [] 0).length = 0 := rfl
  constructor
  · rintro ⟨front, f, back, hms, hblocks, hle, hlt⟩
    cases front with
    | nil =>
      cases hms
      rw [hempty] at hle hlt
      exact Or.inl ⟨f, rfl, hblocks, by omega, by omega⟩
    | cons m' front =>
      cases hms
      rw [length_encodeTar_cons] at hle hlt
      exact Or.inr ⟨front, f, back, rfl, hblocks, by omega, by omega⟩
  · rintro (⟨f, rfl, hblocks, hle, hlt⟩ | ⟨front, f, back, rfl, hblocks, hle, hlt⟩)
    · exact ⟨[], f, ms, rfl, hblocks, by rw [hempty]; omega, by rw [hempty]; omega⟩
    · refine ⟨m :: front, f, back, rfl, hblocks, ?_, ?_⟩
      · rw [length_encodeTar_cons]
        simp only [tarBlockSize] at hle ⊢
        omega
      · rw [length_encodeTar_cons]
        simp only [tarBlockSize] at hle hlt ⊢
        omega

theorem InertBody.take {body : Bytes} (h : InertBody body) (n : Nat) : InertBody (body.take n) := by
  intro k hk
  rw [List.length_take] at hk
  have hfield : field (body.take n) (tarBlockSize * k) tarBlockSize =
      field body (tarBlockSize * k) tarBlockSize := by
    unfold field
    rw [List.drop_take, List.take_take, Nat.min_eq_left]
    rw [Nat.mul_succ] at hk
    omega
  rw [hfield]
  exact h k (by omega)

/-- A scan of inert blocks finds no header. -/
theorem not_cutUnpadded_inert {body : Bytes} (h : InertBody body) : ¬ CutUnpadded body := by
  have hscan : ∀ t rest, tarScan body ≠ .header t rest := by
    fun_induction tarScan body with
    | case1 => simp
    | case2 => simp
    | case3 body hne hlen hflag =>
      have hfirst := h 0 (by omega)
      rw [Nat.mul_zero, field, List.drop_zero] at hfirst
      exact absurd hflag hfirst
    | case4 body hne hlen hflag ih =>
      have htake : (body.take tarBlockSize).length = tarBlockSize := by
        rw [List.length_take]
        omega
      rw [← List.take_append_drop tarBlockSize body] at h
      exact ih (h.tail htake)
  intro hcut
  cases hcut with
  | here hs => exact hscan _ _ hs
  | file hs => exact hscan _ _ hs
  | link hs => exact hscan _ _ hs

/-- Only what a scan finds matters. -/
theorem CutUnpadded.congr {a b : Bytes} (h : tarScan a = tarScan b) (hcut : CutUnpadded a) :
    CutUnpadded b := by
  cases hcut with
  | here hs hflag hblocks hless => exact .here (h ▸ hs) hflag hblocks hless
  | file hs hflag hrest => exact .file (h ▸ hs) hflag hrest
  | link hs hflag hrest => exact .link (h ▸ hs) hflag hrest

theorem headerSize_file (f : TarFile) : headerSize (TarMember.file f).header = f.content.length := by
  have hsize : tarSize (TarMember.file f).header = padTo 12 (number f.size f.sizeSpaces) :=
    tarSize_encodeHeader f.info f.leading regType f.name_length f.mode_le f.size_le
  rw [headerSize, hsize, cstr_padTo (number_nul _ _), strtoull_number f.size_length, f.size_value]

/-- In an archive whose other bodies are inert, the headers that the code comes to are those of
the members, so the position of the cut decides. -/
theorem cutUnpadded_archive_iff {ms : List TarMember} (hinert : Inert ms) (zeros cut : Nat) :
    CutUnpadded ((encodeTar ms zeros).take cut) ↔ CutInside ms cut := by
  induction ms generalizing cut with
  | nil =>
    have hnot : ¬ CutUnpadded ((encodeTar [] zeros).take cut) :=
      not_cutUnpadded_inert ((inertBody_zeros _).take cut)
    refine ⟨fun h => absurd h hnot, ?_⟩
    rintro ⟨front, f, back, hms, -⟩
    simp at hms
  | cons m ms ih =>
    have hinert' : Inert ms := fun o ho => hinert o (List.mem_cons_of_mem _ ho)
    by_cases hcut : cut < tarBlockSize
    · refine ⟨fun h => absurd h ?_, fun h => absurd h (not_cutInside_short hcut)⟩
      apply not_cutUnpadded_inert
      intro k hk
      rw [List.length_take] at hk
      simp only [tarBlockSize] at hk hcut
      omega
    · have hsplit : (encodeTar (m :: ms) zeros).take cut =
          m.header ++ (m.body ++ encodeTar ms zeros).take (cut - tarBlockSize) := by
        rw [encodeTar_cons, List.take_append, m.header_length,
          List.take_of_length_le (by rw [m.header_length]; omega)]
      have hbehind : ((m.body ++ encodeTar ms zeros).take (cut - tarBlockSize)).drop m.body.length =
          (encodeTar ms zeros).take (cut - (tarBlockSize + m.body.length)) := by
        rw [List.drop_take, List.drop_left, Nat.sub_sub]
      rw [hsplit, cutInside_cons, ← ih hinert', ← hbehind]
      cases m with
      | file f =>
        have hflag := f.typeflag
        have hscan : tarScan ((TarMember.file f).header ++
            ((TarMember.file f).body ++ encodeTar ms zeros).take (cut - tarBlockSize)) = .header _ _ :=
          tarScan_header (TarMember.header_length _) (by rw [hflag]; decide)
        rw [cutUnpadded_file_iff hscan (by rw [hflag]; decide), headerSize_file,
          tarPadding_eq f.content_lt f.padding_length f.aligned]
        have hbody : (TarMember.file f).body.length = f.content.length + f.padding.length :=
          List.length_append
        rw [hbody]
        refine or_congr ?_ Iff.rfl
        simp only [List.length_take, List.length_append, hbody]
        constructor
        · rintro ⟨hblocks, hless⟩
          exact ⟨f, rfl, hblocks, by omega, by omega⟩
        · rintro ⟨f', hf, hblocks, -, hlt⟩
          cases hf
          exact ⟨hblocks, by omega⟩
      | link l =>
        have hlink : tarTypeflag (TarMember.link l).header = lnkType ∨
            tarTypeflag (TarMember.link l).header = symType := by
          rw [l.typeflag_header]
          exact l.flag
        have hscan : tarScan ((TarMember.link l).header ++
            ((TarMember.link l).body ++ encodeTar ms zeros).take (cut - tarBlockSize)) = .header _ _ :=
          tarScan_header (TarMember.header_length _)
            ((TarMember.link l).interpreted_header.mpr rfl)
        rw [cutUnpadded_link_iff hscan hlink]
        simp [TarMember.body]
      | other o =>
        have hbody : InertBody (TarMember.other o).body := hinert o List.mem_cons_self
        have hpass := tarScan_pass o.header_length o.flag
          (((TarMember.other o).body ++ encodeTar ms zeros).take (cut - tarBlockSize))
        have hsame : CutUnpadded ((TarMember.other o).header ++
              ((TarMember.other o).body ++ encodeTar ms zeros).take (cut - tarBlockSize)) ↔
            CutUnpadded (((TarMember.other o).body ++ encodeTar ms zeros).take (cut - tarBlockSize)) :=
          ⟨.congr hpass, .congr hpass.symm⟩
        rw [hsame]
        simp only [reduceCtorEq, false_and, exists_false, false_or]
        by_cases hlong : (TarMember.other o).body.length ≤ cut - tarBlockSize
        · rw [List.take_append, List.take_of_length_le hlong, List.drop_left]
          have hskip := (tarScan_body
            (by rw [TarMember.body, List.length_append]; exact o.aligned)
            ((encodeTar ms zeros).take (cut - tarBlockSize - (TarMember.other o).body.length))).1 hbody
          exact ⟨.congr hskip, .congr hskip.symm⟩
        · rw [List.take_append_of_le_length (by omega), List.drop_eq_nil_of_le (by
            rw [List.length_take]; omega)]
          refine iff_of_false (not_cutUnpadded_inert (hbody.take _)) (not_cutUnpadded_finish ?_)
          rw [tarScan, if_pos rfl]

/-! ## The archive that breaks off -/

/-- **A cut-off archive.** Over any source that holds the first `cut` bytes of an archive, the
extraction returns; when it returns zero, every file of a regular member that it came to has
the size of the member if and only if the bytes do not end within a body whose size is a
multiple of the block size. When the bodies of the other members are inert, this is where
the cut falls. -/
theorem cut_tar_iff (C : Contract read) (ms : List TarMember) (zeros cut : Nat) {s : σ}
    (hv : C.valid s) (hrest : C.rest s = (encodeTar ms zeros).take cut) (dir : Bytes) (os : OS)
    {fuel : Nat} (hfuel : (encodeTar ms zeros).length + 1 < fuel) :
    (∃ code, (extractContainer (tarContainer read) dir fuel (openTar s) os).1 = some code) ∧
    ((extractContainer (tarContainer read) dir fuel (openTar s) os).1 = some 0 →
      ((∀ e ∈ extractedFiles (tarContainer read) dir fuel (openTar s) os, WrittenWhole e) ↔
        ¬ CutUnpadded ((encodeTar ms zeros).take cut))) ∧
    (Inert ms → (CutUnpadded ((encodeTar ms zeros).take cut) ↔ CutInside ms cut)) := by
  have hshort : (C.rest (openTar s).s).length + 1 < fuel := by
    have : C.rest (openTar s).s = (encodeTar ms zeros).take cut := hrest
    rw [this, List.length_take]
    omega
  refine ⟨extractContainer_tar_total C hv (by simp [openTar]) hshort, ?_, ?_⟩
  · intro hcode
    obtain ⟨-, hiff⟩ := extraction_whole_iff C (c := openTar s) hv hshort hcode
    have hskip : tarSkip (openTar s) = 0 := by simp [tarSkip, openTar, add64]
    rw [hskip, List.drop_zero] at hiff
    rw [hiff]
    show ¬ CutUnpadded (C.rest s) ↔ _
    rw [hrest]
  · intro hinert
    exact cutUnpadded_archive_iff hinert zeros cut

/-- `host/ld` with one block of content. -/
def blockFile : TarFile where
  toTarPath := plainFile.toTarPath
  info := plainInfo
  mode := [7, 5, 5]
  modeSpaces := 0
  size := [1, 0, 0, 0]
  sizeSpaces := 0
  content := List.replicate 512 104
  padding := []
  ustar := plainFile.ustar
  mode_length := plainFile.mode_length
  mode_fits := by decide
  size_length := by decide
  size_fits := by decide
  size_value := by decide +kernel
  padding_length := plainDir.padding_length
  aligned := by decide +kernel

theorem inert_block : Inert [.file blockFile] := by
  intro o ho
  simp at ho

/-- The archive of `blockFile` without its zero block is extracted whole. -/
theorem cut_tar_iff_block :
    (extractContainer (tarContainer readBuffer) (lit "out") 2048
        (openTar (openBufferStream ((encodeTar [.file blockFile] 1).take 1024))) freshOS).1 =
      some 0 ∧
    ∀ e ∈ extractedFiles (tarContainer readBuffer) (lit "out") 2048
        (openTar (openBufferStream ((encodeTar [.file blockFile] 1).take 1024))) freshOS,
      WrittenWhole e := by
  have hcode : (extractContainer (tarContainer readBuffer) (lit "out") 2048
      (openTar (openBufferStream ((encodeTar [.file blockFile] 1).take 1024))) freshOS).1 =
        some 0 := by decide +kernel
  obtain ⟨-, hwhole, hcut⟩ := cut_tar_iff bufferContract [.file blockFile] 1 1024
    (s := openBufferStream ((encodeTar [.file blockFile] 1).take 1024)) trivial rfl (lit "out")
    freshOS (show _ < 2048 by decide +kernel)
  refine ⟨hcode, (hwhole hcode).mpr ?_⟩
  rw [hcut inert_block, cutInside_cons]
  have hlen : blockFile.content.length = 512 := List.length_replicate ..
  have hbody : (TarMember.file blockFile).body.length = 512 :=
    (congrArg List.length (List.append_nil _)).trans hlen
  rintro (⟨f, hf, -, -, hlt⟩ | hrest)
  · cases hf
    rw [hlen] at hlt
    simp [tarBlockSize] at hlt
  · exact not_cutInside_short (by rw [hbody]; decide) hrest

/-- The same archive cut within its body gives zero as well, and a short file. -/
theorem cut_body_returns_zero :
    (extractContainer (tarContainer readBuffer) (lit "out") 2048
        (openTar (openBufferStream ((encodeTar [.file blockFile] 1).take 612))) freshOS).1 =
      some 0 ∧
    ¬ ∀ e ∈ extractedFiles (tarContainer readBuffer) (lit "out") 2048
        (openTar (openBufferStream ((encodeTar [.file blockFile] 1).take 612))) freshOS,
      WrittenWhole e := by
  have hcode : (extractContainer (tarContainer readBuffer) (lit "out") 2048
      (openTar (openBufferStream ((encodeTar [.file blockFile] 1).take 612))) freshOS).1 =
        some 0 := by decide +kernel
  refine ⟨hcode, ?_⟩
  obtain ⟨-, hiff⟩ := extraction_whole_iff bufferContract
    (c := openTar (openBufferStream ((encodeTar [.file blockFile] 1).take 612))) trivial
    (by decide +kernel) hcode
  rw [hiff, not_not]
  have hlen : blockFile.content.length = 512 := List.length_replicate ..
  refine (cutUnpadded_archive_iff inert_block 1 612).mpr (cutInside_cons.mpr (Or.inl ?_))
  exact ⟨blockFile, rfl, by rw [hlen]; decide, by decide, by rw [hlen]; decide⟩

end ToolchainTools
