import ToolchainTools.Download.Entries

/-!
# The order of the members of a tar archive

Extraction takes the members as they come, and stops at the first one that it cannot make.
`Stage` follows the tree through a run, and `order_iff` says which two orders of an archive
leave the same tree and return the same value.
-/

namespace ToolchainTools

open CLib Posix Streams

variable {σ : Type} {read : Reader σ}

/-! ## Reading the archive -/

section Reading

variable {C : Contract read} {fuel : Nat} {c c' : TarContainer σ} {m : TarEntry} {tail : Bytes}
  {dir : Bytes} {os : OS}

theorem TarEntry.content_lt (m : TarEntry) : m.content.length < 2 ^ 64 := by
  cases h : m.target with
  | none =>
    rw [← (m.file h).2.1]
    exact strtoull_lt _ _
  | some lnk =>
    rw [(m.link lnk h).2.2.1]
    norm_num

theorem readTarHeader_fileEntry (c : TarContainer σ) (h : m.target = none) :
    readTarHeader c m.header = (0, { c with
      h := ⟨m.path, none, m.content.length, m.mode⟩
      padding := m.padding.length
      fileOpened := false }) := by
  obtain ⟨hflag, hsize, hpad⟩ := m.file h
  have hsize' : strtoull (cstr (tarSize m.header)) 8 = m.content.length := hsize
  rw [readTarHeader_file (by rw [hflag]; decide)]
  simp only [readTarFileHeader, m.name, hsize', ← hpad]
  rfl

theorem readTarHeader_linkEntry (c : TarContainer σ) {lnk : Bytes} (h : m.target = some lnk) :
    readTarHeader c m.header =
      (0, { c with h := ⟨m.path, some lnk, 0, 0⟩, padding := 0, fileOpened := true }) := by
  obtain ⟨hflag, hlnk, -⟩ := m.link lnk h
  rw [readTarHeader_link hflag]
  simp only [readTarLinkHeader, m.name, hlnk]

theorem TarEntry.interpreted (m : TarEntry) :
    ToolchainTools.interpreted (tarTypeflag m.header) := by
  cases h : m.target with
  | none => exact Or.inr (Or.inr (m.file h).1)
  | some lnk =>
    rcases (m.link lnk h).1 with hflag | hflag
    · exact Or.inl hflag
    · exact Or.inr (Or.inl hflag)

/-- The next call reads the header of the next member. -/
theorem Ahead.entry (h : Ahead C fuel c (m.header ++ (m.content ++ m.padding ++ tail))) :
    ∃ s, nextTarFile read fuel c = (some (readTarHeader { c with padding := 0 } m.header).1,
        { (readTarHeader { c with padding := 0 } m.header).2 with s := s }) ∧
      C.valid s ∧ C.rest s = m.content ++ m.padding ++ tail ∧
      (C.rest s).length + tarBlockSize < fuel := by
  have hscan : tarScan (m.header ++ (m.content ++ m.padding ++ tail)) =
      .header m.header (m.content ++ m.padding ++ tail) :=
    tarScan_header m.header_length m.interpreted
  obtain ⟨s, hs, hv, hrest, -⟩ := h.header hscan
  refine ⟨s, hs, hv, hrest, ?_⟩
  have hlen := tarScan_length (h.scan.trans hscan)
  have hfuel := h.fuel
  rw [List.length_drop] at hlen
  rw [hrest]
  simp only [tarBlockSize] at hlen ⊢
  omega

theorem Ahead.fileEntry (h : Ahead C fuel c (m.header ++ (m.content ++ m.padding ++ tail)))
    (hfile : m.target = none) :
    ∃ c', nextTarFile read fuel c = (some 0, c') ∧
      c'.h = ⟨m.path, none, m.content.length, m.mode⟩ ∧ c'.padding = m.padding.length ∧
      c'.fileOpened = false ∧ C.valid c'.s ∧
      C.rest c'.s = m.content ++ m.padding ++ tail ∧
      (C.rest c'.s).length + tarBlockSize < fuel := by
  obtain ⟨s, hs, hv, hrest, hfuel⟩ := h.entry
  rw [readTarHeader_fileEntry _ hfile] at hs
  exact ⟨_, hs, rfl, rfl, rfl, hv, hrest, hfuel⟩

theorem Ahead.linkEntry (h : Ahead C fuel c (m.header ++ (m.content ++ m.padding ++ tail)))
    {lnk : Bytes} (hlink : m.target = some lnk) :
    ∃ c', nextTarFile read fuel c = (some 0, c') ∧ c'.h = ⟨m.path, some lnk, 0, 0⟩ ∧
      Ahead C (fuel - 1) c' tail := by
  obtain ⟨s, hs, hv, hrest, hfuel⟩ := h.entry
  rw [readTarHeader_linkEntry _ hlink] at hs
  obtain ⟨-, -, hcontent, hpadding⟩ := m.link lnk hlink
  rw [hcontent, hpadding, List.nil_append, List.nil_append] at hrest
  refine ⟨_, hs, rfl, hv, ?_, ?_, ?_⟩
  · simp [tarSkip]
  · simp only [tarSkip, if_true, List.drop_zero, hrest]
  · simp only [tarBlockSize] at hfuel
    dsimp only
    omega

/-- After a regular file has been read to its end the next member is ahead. -/
theorem Ahead.of_content (hrest : C.rest c.s = m.padding ++ tail)
    (hopened : c.fileOpened = true) (hpadding : c.padding = m.padding.length) (hv : C.valid c.s)
    (hfuel : (C.rest c.s).length < fuel) : Ahead C fuel c tail := by
  have hskip : tarSkip c = m.padding.length := by rw [tarSkip, hopened, if_pos rfl, hpadding]
  refine ⟨hv, ?_, ?_, hfuel⟩
  · rw [hskip, hrest, List.length_append]
    omega
  · rw [hskip, hrest, List.drop_left]

/-- A member of another typeflag is stepped over. -/
theorem Ahead.stepOver {o : TarOther}
    (h : Ahead C fuel c (o.header ++ (o.content ++ o.padding ++ tail)))
    (hinert : InertBody (o.content ++ o.padding)) : Ahead C fuel c tail := by
  refine ⟨h.valid, h.skip, ?_, h.fuel⟩
  rw [h.scan, tarScan_pass o.header_length o.flag]
  exact (tarScan_body (by rw [List.length_append]; exact o.aligned) tail).1 hinert

theorem ahead_openTar {s : σ} (hv : C.valid s) (hfuel : (C.rest s).length < fuel) :
    Ahead C fuel (openTar s) (C.rest s) := by
  refine ⟨hv, ?_, ?_, hfuel⟩
  · simp [openTar, tarSkip, add64]
  · simp [openTar, tarSkip, add64]

theorem Ahead.finishEntries {zeros : Nat}
    (h : Ahead C fuel c (List.replicate (tarBlockSize * zeros) 0)) :
    ∃ c', nextTarFile read fuel c = (some 1, c') := by
  have hscan := nextTarFile_scan C h.valid h.skip h.fuel
  rw [h.scan, tarScan_zeros] at hscan
  obtain ⟨s, hs, -⟩ := hscan
  exact ⟨_, hs⟩

/-- A round over a link. -/
theorem extractContainer_symlink {target : Bytes} {os' : OS} {made : Bool}
    (hnext : nextTarFile read fuel c = (some 0, c')) (hlink : c'.h.linkTarget = some target)
    (hsym : os.symlink target (joinPath dir c'.h.filePath) = (made, os')) :
    extractContainer (tarContainer read) dir (fuel + 1) c os =
      if made then extractContainer (tarContainer read) dir fuel c' os' else (some (-1), c', os') := by
  have hnext' : (tarContainer read).nextFile fuel c = (some 0, c') := hnext
  have hlink' : ((tarContainer read).member c').linkTarget = some target := hlink
  have hsym' : os.symlink target (joinPath dir ((tarContainer read).member c').filePath) =
      (made, os') := hsym
  cases made <;> simp [extractContainer, hnext', hlink', hsym']

/-- A round over a regular file. -/
theorem extractContainer_extractPath {r : Extracted (LimitStream σ)} {code : Int}
    (hnext : nextTarFile read fuel c = (some 0, c')) (hfile : c'.h.linkTarget = none)
    (hopened : c'.fileOpened = false)
    (hr : extractPath (readLimit read) fuel (openLimited c'.s c'.h.fileSize) dir c'.h.filePath
      c'.h.fileMode os = r) (hcode : r.code = some code) :
    extractContainer (tarContainer read) dir (fuel + 1) c os =
      if code = 0 then extractContainer (tarContainer read) dir fuel
        (closeTarFile { c' with fileOpened := true } r.s) r.os
      else (some code, closeTarFile { c' with fileOpened := true } r.s, r.os) := by
  have hnext' : (tarContainer read).nextFile fuel c = (some 0, c') := hnext
  have hopen : (tarContainer read).openFile c' =
      (some (openLimited c'.s c'.h.fileSize), { c' with fileOpened := true }) := by
    simp [tarContainer, openTarFile, hopened]
  have hfile' : ((tarContainer read).member c').linkTarget = none := hfile
  have hr' : extractPath (tarContainer read).read fuel (openLimited c'.s c'.h.fileSize) dir
      ((tarContainer read).member c').filePath ((tarContainer read).member c').fileMode os = r := hr
  simp [extractContainer, hnext', hfile', hopen, hr', hcode]
  rfl

end Reading

/-! ## One member -/

theorem Fresh.bare {os₀ : OS} {dir : Bytes} (h : Fresh os₀ dir) :
    Bare (startOf os₀.cwd dir) dir os₀.fs.get := by
  constructor
  · intro l hl
    obtain ⟨k, -, rfl⟩ := mem_way.mp hl
    exact h.ancestors k
  · intro l hl
    have hmissing : os₀.fs.get (lexical (startOf os₀.cwd dir) (components dir)) = none := h.missing
    by_cases heq : l = lexical (startOf os₀.cwd dir) (components dir)
    · rw [heq, hmissing]
    · exact FS.get_eq_none_of_below (by rw [hmissing]; simp) hl heq

theorem get_dir_of_prefix {fs : FS} {l l' : Loc} (hdir : fs.get l = some .dir) (hpre : l' <+: l) :
    fs.get l' = some .dir := by
  by_contra hnot
  by_cases heq : l = l'
  · rw [← heq] at hnot
    exact hnot hdir
  · rw [FS.get_eq_none_of_below hnot hpre heq] at hdir
    cases hdir

/-- A system in which the members `before` have been extracted from the system `os₀`. -/
structure Stage (os₀ : OS) (dir : Bytes) (before : List TarEntry) (os : OS) : Prop where
  becomes : Becomes os₀ (laid (startOf os₀.cwd dir) dir os₀.fs.get
    (dirsMade (startOf os₀.cwd dir) dir before) before) os
  fresh : Fresh os₀ dir
  quiet : Quiet os₀

namespace Stage

variable {os₀ os : OS} {dir : Bytes} {before : List TarEntry} {m : TarEntry}

theorem start_dir (h : Stage os₀ dir before os) :
    os.fs.get (startOf os₀.cwd dir) = some .dir := by
  have hbase := h.fresh.sandbox.start_dir
  rw [h.becomes.get]
  by_cases hl : startOf os₀.cwd dir ∈ dirsMade (startOf os₀.cwd dir) dir before
  · exact laid_dir hl
  · rw [laid_base hl]
    · exact hbase
    · intro a _ heq
      have hnone := h.fresh.bare.below (a.place (startOf os₀.cwd dir) dir)
        (by rw [a.place_eq]; exact List.prefix_append _ _)
      rw [heq, hbase] at hnone
      cases hnone

theorem start_path (h : Stage os₀ dir before os) (file : Bytes) :
    startOf os.cwd (joinPath dir file) = startOf os₀.cwd dir := by
  rw [h.becomes.goes.cwd]
  exact startOf_joinPath h.fresh.sandbox.nonempty file

theorem clear (h : Stage os₀ dir before os) (hn : Next (startOf os₀.cwd dir) dir before m) :
    Clear os.fs.get (startOf os₀.cwd dir) (m.comps dir) := by
  intro l hl
  rw [h.becomes.get]
  exact hn.clear h.fresh.bare l hl

/-- A regular file that can be made is made. -/
theorem file (h : Stage os₀ dir before os) (hn : Next (startOf os₀.cwd dir) dir before m)
    (htarget : m.target = none) (hm : Makeable (startOf os₀.cwd dir) dir before m)
    (C : Contract read) {ls : LimitStream σ} (hv : ls.Valid C) {fuel : Nat}
    (hfuel : (C.rest ls.source).length + 1 < fuel)
    (hcontent : (C.rest ls.source).take ls.left = m.content) :
    ∃ r, extractPath (readLimit read) fuel ls dir m.path m.mode os = r ∧ r.code = some 0 ∧
      Stage os₀ dir (before ++ [m]) r.os ∧ C.valid r.s.source ∧
      C.rest r.s.source = (C.rest ls.source).drop ls.left := by
  obtain ⟨r, hr, hcode, hbecomes, hvalid, hrest⟩ :=
    extractPath_way C hv m.mode hfuel (h.quiet.of_goes h.becomes.goes) (h.start_path m.path) h.start_dir
      (h.clear hn) hm.1 (by rw [h.becomes.get]; exact hn.missing h.fresh.bare hm.1)
  refine ⟨r, hr, hcode, ⟨(h.becomes.trans hbecomes).congr fun l => ?_, h.fresh, h.quiet⟩, hvalid,
    hrest⟩
  have hnode : Node.file m.content (OS.modeBits m.mode) = m.node := by rw [TarEntry.node, htarget]
  rw [hn.laid_concat hm.1, ← paving_laid htarget, hcontent, hnode]
  unfold putting
  rw [Function.update_apply]
  have hpaving : paving os.fs.get (startOf os₀.cwd dir) (m.comps dir) l =
      paving (laid (startOf os₀.cwd dir) dir os₀.fs.get
        (dirsMade (startOf os₀.cwd dir) dir before) before) (startOf os₀.cwd dir) (m.comps dir) l := by
    unfold paving
    rw [h.becomes.get]
  rw [← hpaving]
  rfl

/-- A regular file that cannot be made leaves its directories. -/
theorem file_stop (h : Stage os₀ dir before os) (hn : Next (startOf os₀.cwd dir) dir before m)
    (htarget : m.target = none) (hm : ¬ Makeable (startOf os₀.cwd dir) dir before m)
    (read : Reader σ) (fuel : Nat) (s : σ) :
    ∃ os', extractPath read fuel s dir m.path m.mode os = ⟨some (-1), s, os', false⟩ ∧
      Becomes os₀ (laid (startOf os₀.cwd dir) dir os₀.fs.get
        (dirsMade (startOf os₀.cwd dir) dir (before ++ [m])) before) os' := by
  have hin : m.place (startOf os₀.cwd dir) dir ∈ m.dirs (startOf os₀.cwd dir) dir := by
    by_contra hout
    exact hm ⟨hout, Or.inl htarget⟩
  obtain ⟨os', hr, hbecomes⟩ := extractPath_occupied read fuel s m.mode
    (h.quiet.of_goes h.becomes.goes) (h.start_path m.path) h.start_dir
    (h.clear hn) hin
  refine ⟨os', hr, (h.becomes.trans hbecomes).congr fun l => ?_⟩
  rw [← paving_laid htarget]
  unfold paving
  rw [h.becomes.get]
  rfl

/-- The directory of a link is there exactly when it was made for a regular file. -/
theorem paved_link (h : Stage os₀ dir before os)
    (hout : m.place (startOf os₀.cwd dir) dir ∉ m.dirs (startOf os₀.cwd dir) dir)
    (hmade : (m.place (startOf os₀.cwd dir) dir).dropLast ∈
      dirsMade (startOf os₀.cwd dir) dir before) :
    Paved os.fs (startOf os₀.cwd dir) (m.comps dir) := by
  have hparent : os.fs.get (m.place (startOf os₀.cwd dir) dir).dropLast = some .dir := by
    rw [h.becomes.get]
    exact laid_dir hmade
  intro l hl
  rcases TarEntry.mem_dirs.mp hl with hway | hway
  · -- the file has led through the same directories to `dir`
    obtain ⟨f, hf, htarget, -⟩ := mem_dirsMade.mp hmade
    rw [h.becomes.get]
    exact laid_dir (mem_dirsMade.mpr ⟨f, hf, htarget, TarEntry.mem_dirs.mpr (Or.inl hway)⟩)
  · have hpre := (TarEntry.below_of_mem hway).2
    have hne : l ≠ m.place (startOf os₀.cwd dir) dir := by
      rintro rfl
      exact hout hl
    obtain ⟨tail, htail⟩ := hpre
    have htne : tail ≠ [] := by
      rintro rfl
      rw [List.append_nil] at htail
      exact hne htail
    refine get_dir_of_prefix hparent ?_
    rw [← htail, List.dropLast_append_of_ne_nil htne]
    exact List.prefix_append _ _

theorem link (h : Stage os₀ dir before os) (hn : Next (startOf os₀.cwd dir) dir before m)
    {lnk : Bytes} (htarget : m.target = some lnk)
    (hm : Makeable (startOf os₀.cwd dir) dir before m) :
    ∃ os', os.symlink lnk (joinPath dir m.path) = (true, os') ∧
      Stage os₀ dir (before ++ [m]) os' := by
  have hne : m.target ≠ none := by rw [htarget]; simp
  have hmade := hm.2.resolve_left hne
  have hpaved := h.paved_link hm.1 hmade
  have hmissing : os.fs.get (m.place (startOf os₀.cwd dir) dir) = none := by
    rw [h.becomes.get]
    exact hn.missing h.fresh.bare hm.1
  have hplace : m.place (startOf os₀.cwd dir) dir =
      lexical (startOf os.cwd (joinPath dir m.path)) (components (joinPath dir m.path)) := by
    rw [h.start_path]
    rfl
  obtain ⟨os', hsym, hbecomes⟩ := symlink_way lnk (h.quiet.of_goes h.becomes.goes)
    (joinPath_ne_nil dir m.path) (by rw [h.start_path]; exact hpaved) (by rw [← hplace]; exact hmissing)
  refine ⟨os', hsym, ⟨(h.becomes.trans hbecomes).congr fun l => ?_, h.fresh, h.quiet⟩⟩
  have hnode : Node.link lnk = m.node := by rw [TarEntry.node, htarget]
  rw [← hplace, Function.update_apply, hn.laid_concat hm.1, hnode, laid_link hne, h.becomes.get]

/-- A link that cannot be made changes nothing. -/
theorem link_stop (h : Stage os₀ dir before os) (hn : Next (startOf os₀.cwd dir) dir before m)
    {lnk : Bytes} (htarget : m.target = some lnk)
    (hm : ¬ Makeable (startOf os₀.cwd dir) dir before m) :
    ∃ os', os.symlink lnk (joinPath dir m.path) = (false, os') ∧
      Becomes os₀ (laid (startOf os₀.cwd dir) dir os₀.fs.get
        (dirsMade (startOf os₀.cwd dir) dir (before ++ [m])) before) os' := by
  have hne : m.target ≠ none := by rw [htarget]; simp
  have hclear := h.clear hn
  have hplace : lexical (startOf os.cwd (joinPath dir m.path)) (components (joinPath dir m.path)) =
      m.place (startOf os₀.cwd dir) dir := by
    rw [h.start_path]
    rfl
  have hfail : (os.symlink lnk (joinPath dir m.path)).1 = false := by
    by_contra hmade
    rw [Bool.not_eq_false] at hmade
    have hfree : LinkFree os.fs (startOf os.cwd (joinPath dir m.path))
        (components (joinPath dir m.path)) := by
      rw [h.start_path]
      refine hclear.linkFree fun t hlink => ?_
      by_cases hin : m.place (startOf os₀.cwd dir) dir ∈ m.dirs (startOf os₀.cwd dir) dir
      · rcases hclear _ hin with hl | hl
        all_goals
          unfold TarEntry.place at hl
          rw [hl] at hlink
          cases hlink
      · have hl := hn.missing h.fresh.bare hin
        rw [← h.becomes.get] at hl
        unfold TarEntry.place at hl
        rw [hl] at hlink
        cases hlink
    obtain ⟨hpaved, hadd⟩ := paved_of_symlink hfree (by rw [h.start_path]; exact h.start_dir) hmade
    rw [hplace] at hadd
    rw [h.start_path] at hpaved
    have hout : m.place (startOf os₀.cwd dir) dir ∉ m.dirs (startOf os₀.cwd dir) dir := by
      intro hin
      have hmiss := hadd.2.1
      rw [hpaved _ hin] at hmiss
      cases hmiss
    -- the directory is new, so it was made for a regular file
    have hparent := hadd.2.2
    rw [h.becomes.get] at hparent
    rcases laid_eq_dir hparent with hdirs | hbase
    · exact hm ⟨hout, Or.inr hdirs⟩
    · have hnormal : normalPath m.path ≠ [] := by
        intro hnil
        apply hout
        rw [m.place_eq, hnil, List.append_nil]
        exact m.dir_mem
      rw [m.place_eq, List.dropLast_append_of_ne_nil hnormal,
        h.fresh.bare.below _ (List.prefix_append _ _)] at hbase
      cases hbase
  rcases os.symlink_cases lnk (joinPath dir m.path) with hsym | ⟨loc, -, -, hsym⟩
  · refine ⟨os.tick, hsym, ?_⟩
    rw [laid_link hne]
    exact h.becomes.trans ((becomes_tick os).congr h.becomes.get)
  · rw [hsym] at hfail
    cases hfail

end Stage

/-! ## Whole extractions -/

section Run

variable {C : Contract read} {fuel : Nat} {c : TarContainer σ} {os₀ os : OS} {dir bytes : Bytes}
  {before ms : List TarEntry}

/-- From any stage on, the extraction runs through and returns zero, or it stops behind some
members, has made the directories of the next one too, and returns -1. -/
theorem Stage.extract (henc : Encodes ms bytes) (h : Stage os₀ dir before os)
    (hahead : Ahead C fuel c bytes)
    (hrun : RunsThrough (startOf os₀.cwd dir) dir before)
    (hpairs : (before ++ ms).Pairwise Unnested) :
    ∃ r, extractContainer (tarContainer read) dir (fuel + 1) c os = r ∧
      ((RunsThrough (startOf os₀.cwd dir) dir (before ++ ms) ∧ r.1 = some 0 ∧
          Stage os₀ dir (before ++ ms) r.2.2) ∨
        ∃ made m, StopsBehind (startOf os₀.cwd dir) dir (before ++ ms) made m ∧
          r.1 = some (-1) ∧
          Becomes os₀ (laid (startOf os₀.cwd dir) dir os₀.fs.get
            (dirsMade (startOf os₀.cwd dir) dir (made ++ [m])) made) r.2.2) := by
  induction henc generalizing before fuel c os with
  | zeros =>
    obtain ⟨c', hnext⟩ := hahead.finishEntries
    refine ⟨_, (extractContainer_finish hnext).1, Or.inl ⟨?_, rfl, ?_⟩⟩
    · rwa [List.append_nil]
    · rwa [List.append_nil]
  | other o hinert _ ih => exact ih h (hahead.stepOver hinert) hrun hpairs
  | @entry m ms tail _ ih =>
    have hsplit : before ++ m :: ms = (before ++ [m]) ++ ms := by simp
    have hnextm : Next (startOf os₀.cwd dir) dir before m :=
      ⟨hrun.free, fun a ha => (List.pairwise_append.mp hpairs).2.2 a ha m List.mem_cons_self⟩
    have hstops : ¬ Makeable (startOf os₀.cwd dir) dir before m →
        StopsBehind (startOf os₀.cwd dir) dir (before ++ m :: ms) before m :=
      fun hm => ⟨⟨ms, rfl⟩, hrun, hm⟩
    cases htarget : m.target with
    | none =>
      obtain ⟨c1, hnext, hh, hpadding, hopened, hv, hrest, hfuel⟩ := hahead.fileEntry htarget
      simp only [tarBlockSize] at hfuel
      have hsize : c1.h.fileSize = m.content.length := by rw [hh]
      have hpath : c1.h.filePath = m.path := by rw [hh]
      have hmode : c1.h.fileMode = m.mode := by rw [hh]
      have hlimit : (openLimited c1.s c1.h.fileSize).Valid C :=
        ⟨hv, by rw [openLimited, hsize]; exact m.content_lt⟩
      have htake : (C.rest (openLimited c1.s c1.h.fileSize).source).take
          (openLimited c1.s c1.h.fileSize).left = m.content := by
        simp only [openLimited, hrest, hsize, List.append_assoc, List.take_left]
      by_cases hm : Makeable (startOf os₀.cwd dir) dir before m
      · obtain ⟨r, hr, hcode, hstage, hvalid, hrest'⟩ :=
          h.file hnextm htarget hm C hlimit (show _ + 1 < fuel by dsimp only [openLimited]; omega)
            htake
        rw [← hpath, ← hmode] at hr
        rw [extractContainer_extractPath hnext (by rw [hh]) hopened hr hcode, if_pos rfl]
        have hrest2 : C.rest r.s.source = m.padding ++ tail := by
          rw [hrest']
          simp only [openLimited, hrest, hsize, List.append_assoc, List.drop_left]
        obtain ⟨n, rfl⟩ : ∃ n, fuel = n + 1 := ⟨fuel - 1, by omega⟩
        have hshort : (C.rest r.s.source).length < n := by
          rw [hrest2]
          rw [hrest] at hfuel
          simp only [List.length_append] at hfuel ⊢
          omega
        rw [hsplit] at hpairs ⊢
        exact ih hstage (Ahead.of_content hrest2 rfl hpadding hvalid hshort) (hrun.concat hm) hpairs
      · obtain ⟨os', hr, hbecomes⟩ := h.file_stop hnextm htarget hm (readLimit read) fuel
          (openLimited c1.s c1.h.fileSize)
        rw [← hpath, ← hmode] at hr
        rw [extractContainer_extractPath hnext (by rw [hh]) hopened hr rfl, if_neg (by decide)]
        exact ⟨_, rfl, Or.inr ⟨before, m, hstops hm, rfl, hbecomes⟩⟩
    | some lnk =>
      obtain ⟨c1, hnext, hh, hahead'⟩ := hahead.linkEntry htarget
      have hpath : c1.h.filePath = m.path := by rw [hh]
      by_cases hm : Makeable (startOf os₀.cwd dir) dir before m
      · obtain ⟨os', hsym, hstage⟩ := h.link hnextm htarget hm
        rw [← hpath] at hsym
        rw [extractContainer_symlink hnext (by rw [hh]) hsym, if_pos rfl]
        obtain ⟨n, rfl⟩ : ∃ n, fuel = n + 1 := ⟨fuel - 1, by have := hahead.fuel; omega⟩
        rw [hsplit] at hpairs ⊢
        exact ih hstage hahead' (hrun.concat hm) hpairs
      · obtain ⟨os', hsym, hbecomes⟩ := h.link_stop hnextm htarget hm
        rw [← hpath] at hsym
        rw [extractContainer_symlink hnext (by rw [hh]) hsym, if_neg (by decide)]
        exact ⟨_, rfl, Or.inr ⟨before, m, hstops hm, rfl, hbecomes⟩⟩

/-- A whole archive into a fresh directory. -/
theorem Fresh.extract (hfresh : Fresh os₀ dir) (hquiet : Quiet os₀) {s : σ} (hv : C.valid s)
    (henc : Encodes ms (C.rest s)) (hfuel : (C.rest s).length + 1 < fuel)
    (hpairs : ms.Pairwise Unnested) :
    ∃ r, extractContainer (tarContainer read) dir fuel (openTar s) os₀ = r ∧
      ((RunsThrough (startOf os₀.cwd dir) dir ms ∧ r.1 = some 0 ∧ Stage os₀ dir ms r.2.2) ∨
        ∃ made m, StopsBehind (startOf os₀.cwd dir) dir ms made m ∧ r.1 = some (-1) ∧
          Becomes os₀ (laid (startOf os₀.cwd dir) dir os₀.fs.get
            (dirsMade (startOf os₀.cwd dir) dir (made ++ [m])) made) r.2.2) := by
  obtain ⟨n, rfl⟩ : ∃ n, fuel = n + 1 := ⟨fuel - 1, by omega⟩
  have hstage : Stage os₀ dir [] os₀ := by
    refine ⟨⟨.refl os₀, fun l => ?_⟩, hfresh, hquiet⟩
    exact (laid_base (by simp [dirsMade]) (by simp)).symm
  have hahead := ahead_openTar hv (show (C.rest s).length < n by omega)
  exact hstage.extract henc hahead (by rintro before m rest heq; simp at heq) hpairs

end Run

/-! ## Two orders -/

/-- Both orders run through, or both stop behind the same members and have then made the same
directories. -/
def SameEnd (start : Loc) (dir : Bytes) (ms₁ ms₂ : List TarEntry) : Prop :=
  (RunsThrough start dir ms₁ ∧ RunsThrough start dir ms₂) ∨
    ∃ before₁ m₁ before₂ m₂, StopsBehind start dir ms₁ before₁ m₁ ∧
      StopsBehind start dir ms₂ before₂ m₂ ∧ (∀ m, m ∈ before₁ ↔ m ∈ before₂) ∧
      ∀ l, l ∈ dirsMade start dir (before₁ ++ [m₁]) ↔ l ∈ dirsMade start dir (before₂ ++ [m₂])

section Orders

variable {start : Loc} {dir : Bytes} {base : Loc → Option Node} {ms : List TarEntry}
  {a b : TarEntry}

instance : Std.Symm Unnested := ⟨fun _ _ h => ⟨h.2, h.1⟩⟩

/-- The members of an archive are told apart by their places. -/
theorem eq_of_place_eq (hpairs : ms.Pairwise Unnested) (ha : a ∈ ms) (hb : b ∈ ms)
    (h : a.place start dir = b.place start dir) : a = b := by
  by_contra hne
  exact (hpairs.forall ha hb hne).place_ne h

/-- A member is not on the way to any member. -/
theorem not_mem_dirsMade_of_mem (hpairs : ms.Pairwise Unnested) (ha : a ∈ ms)
    (hfree : a.place start dir ∉ a.dirs start dir) {made : List TarEntry} (hmade : made ⊆ ms) :
    a.place start dir ∉ dirsMade start dir made := by
  intro hmem
  obtain ⟨b, hb, -, hl⟩ := mem_dirsMade.mp hmem
  by_cases hab : a = b
  · rw [← hab] at hl
    exact hfree hl
  · exact (hpairs.forall ha (hmade hb) hab).not_mem_dirs hfree hl

/-- The two stops leave the same tree. -/
structure SameTree (start : Loc) (dir : Bytes) (base : Loc → Option Node)
    (made made' : List TarEntry) (m m' : TarEntry) : Prop where
  eq : ∀ l, laid start dir base (dirsMade start dir (made ++ [m])) made l =
    laid start dir base (dirsMade start dir (made' ++ [m'])) made' l

variable {made made' : List TarEntry} {m m' : TarEntry}

theorem SameTree.symm (h : SameTree start dir base made made' m m') :
    SameTree start dir base made' made m' m := ⟨fun l => (h.eq l).symm⟩

/-- What has been made before the one stop has been made before the other. -/
theorem SameTree.mem (h : SameTree start dir base made made' m m') (hb : Bare start dir base)
    (hpairs : ms.Pairwise Unnested) (hrun : RunsThrough start dir made)
    (hsub : made ++ [m] ⊆ ms) (hsub' : made' ++ [m'] ⊆ ms) {a : TarEntry} (ha : a ∈ made) :
    a ∈ made' := by
  have hams : a ∈ ms := hsub (List.mem_append_left _ ha)
  have hout : a.place start dir ∉ dirsMade start dir (made ++ [m]) :=
    not_mem_dirsMade_of_mem hpairs hams (hrun.free a ha) hsub
  have hhere : laid start dir base (dirsMade start dir (made ++ [m])) made (a.place start dir) =
      some a.node :=
    laid_place ha hout fun b hb' heq =>
      eq_of_place_eq hpairs (hsub (List.mem_append_left _ hb')) hams heq
  rw [h.eq] at hhere
  rcases (laid_node hhere a.node_ne_dir).2 with ⟨b, hb', hplace, -⟩ | hbase
  · rwa [← eq_of_place_eq hpairs (hsub' (List.mem_append_left _ hb')) hams hplace]
  · rw [hb.below _ (by rw [a.place_eq]; exact List.prefix_append _ _)] at hbase
    cases hbase

/-- So have the directories. -/
theorem SameTree.dirs (h : SameTree start dir base made made' m m') (hb : Bare start dir base)
    {l : Loc} (hl : l ∈ dirsMade start dir (made ++ [m])) :
    l ∈ dirsMade start dir (made' ++ [m']) := by
  obtain ⟨f, hf, htarget, hway⟩ := mem_dirsMade.mp hl
  have hgo : ∀ k, k ∈ dirsMade start dir (made ++ [m]) → base k = none →
      k ∈ dirsMade start dir (made' ++ [m']) := by
    intro k hk hnone
    have hdir : laid start dir base (dirsMade start dir (made ++ [m])) made k = some .dir :=
      laid_dir hk
    rw [h.eq] at hdir
    refine (laid_eq_dir hdir).resolve_right ?_
    rw [hnone]
    simp
  rcases TarEntry.mem_dirs.mp hway with hup | hdown
  · -- `dir` itself is new, and what has made it has gone through the same directories
    have hself := hgo _ (mem_dirsMade.mpr ⟨f, hf, htarget, f.dir_mem⟩)
      (hb.below _ List.prefix_rfl)
    obtain ⟨f', hf', htarget', -⟩ := mem_dirsMade.mp hself
    exact mem_dirsMade.mpr ⟨f', hf', htarget', TarEntry.mem_dirs.mpr (Or.inl hup)⟩
  · exact hgo l hl (hb.below l (TarEntry.below_of_mem hdown).1)

theorem StopsBehind.subset (h : StopsBehind start dir ms made m) : made ++ [m] ⊆ ms := by
  obtain ⟨⟨rest, rfl⟩, -⟩ := h
  intro a ha
  rcases List.mem_append.mp ha with ha | ha
  · exact List.mem_append_left _ ha
  · rw [List.mem_singleton.mp ha]
    simp

end Orders

/-- **Orders of a tar archive.** Let no path of a member be another one's or a directory on
the way to it, let `dir` not exist, and let no call fail for a reason of its own. Two orders
of the members give the same return value and the same tree if and only if both run
through, or both stop behind the same members with the same directories made. An order runs
through when no path ends at a directory (it ends in neither `/` nor `.`) and each link
comes behind a regular file in or below the link's directory. What is stepped over between
the members may differ. -/
theorem order_iff (C : Contract read) {os : OS} {dir : Bytes} (hfresh : Fresh os dir)
    (hquiet : Quiet os) {ms₁ ms₂ : List TarEntry} (hperm : ms₁.Perm ms₂)
    (hpairs : ms₁.Pairwise Unnested) {s₁ s₂ : σ} (hv₁ : C.valid s₁) (hv₂ : C.valid s₂)
    (henc₁ : Encodes ms₁ (C.rest s₁)) (henc₂ : Encodes ms₂ (C.rest s₂)) {fuel : Nat}
    (hfuel₁ : (C.rest s₁).length + 1 < fuel) (hfuel₂ : (C.rest s₂).length + 1 < fuel) :
    ∃ code₁ c₁ os₁ code₂ c₂ os₂,
      extractContainer (tarContainer read) dir fuel (openTar s₁) os = (some code₁, c₁, os₁) ∧
      extractContainer (tarContainer read) dir fuel (openTar s₂) os = (some code₂, c₂, os₂) ∧
      ((code₁ = code₂ ∧ ∀ l, os₁.fs.get l = os₂.fs.get l) ↔
        SameEnd (startOf os.cwd dir) dir ms₁ ms₂) := by
  have hpairs₂ : ms₂.Pairwise Unnested := (hperm.pairwise_iff fun h => ⟨h.2, h.1⟩).mp hpairs
  have hbare := hfresh.bare
  obtain ⟨⟨code₁, c₁, os₁⟩, hrun₁, hend₁⟩ := hfresh.extract hquiet hv₁ henc₁ hfuel₁ hpairs
  obtain ⟨⟨code₂, c₂, os₂⟩, hrun₂, hend₂⟩ := hfresh.extract hquiet hv₂ henc₂ hfuel₂ hpairs₂
  dsimp only at hend₁ hend₂
  rcases hend₁ with ⟨hthrough₁, rfl, hstage₁⟩ | ⟨made₁, m₁, hstop₁, rfl, hbecomes₁⟩
  · rcases hend₂ with ⟨hthrough₂, rfl, hstage₂⟩ | ⟨made₂, m₂, hstop₂, rfl, hbecomes₂⟩
    · refine ⟨_, _, _, _, _, _, hrun₁, hrun₂, iff_of_true ⟨rfl, fun l => ?_⟩
        (Or.inl ⟨hthrough₁, hthrough₂⟩)⟩
      rw [hstage₁.becomes.get, hstage₂.becomes.get]
      refine laid_congr (fun l => ?_) (fun m => hperm.mem_iff)
        (fun a ha b hb => eq_of_place_eq hpairs ha hb) l
      simp only [mem_dirsMade, hperm.mem_iff]
    · refine ⟨_, _, _, _, _, _, hrun₁, hrun₂, iff_of_false (fun h => by cases h.1) ?_⟩
      rintro (⟨-, hthrough₂⟩ | ⟨_, _, _, _, hstop, -⟩)
      · exact hstop₂.not_runsThrough hthrough₂
      · exact hstop.not_runsThrough hthrough₁
  · rcases hend₂ with ⟨hthrough₂, rfl, hstage₂⟩ | ⟨made₂, m₂, hstop₂, rfl, hbecomes₂⟩
    · refine ⟨_, _, _, _, _, _, hrun₁, hrun₂, iff_of_false (fun h => by cases h.1) ?_⟩
      rintro (⟨hthrough₁, -⟩ | ⟨_, _, _, _, -, hstop, -⟩)
      · exact hstop₁.not_runsThrough hthrough₁
      · exact hstop.not_runsThrough hthrough₂
    · refine ⟨_, _, _, _, _, _, hrun₁, hrun₂, ?_⟩
      have hsub₁ := hstop₁.subset
      have hsub₂ : made₂ ++ [m₂] ⊆ ms₁ := fun a ha => hperm.mem_iff.mpr (hstop₂.subset ha)
      constructor
      · rintro ⟨-, heq⟩
        have hsame : SameTree (startOf os.cwd dir) dir os.fs.get made₁ made₂ m₁ m₂ :=
          ⟨fun l => by rw [← hbecomes₁.get, ← hbecomes₂.get, heq]⟩
        refine Or.inr ⟨made₁, m₁, made₂, m₂, hstop₁, hstop₂, fun a => ?_, fun l => ?_⟩
        · exact ⟨hsame.mem hbare hpairs hstop₁.2.1 hsub₁ hsub₂,
            hsame.symm.mem hbare hpairs hstop₂.2.1 hsub₂ hsub₁⟩
        · exact ⟨hsame.dirs hbare, hsame.symm.dirs hbare⟩
      · rintro (⟨hthrough₁, -⟩ | ⟨b₁, n₁, b₂, n₂, hs₁, hs₂, hmade, hdirs⟩)
        · exact absurd hthrough₁ hstop₁.not_runsThrough
        · obtain ⟨rfl, rfl⟩ := hstop₁.unique hs₁
          obtain ⟨rfl, rfl⟩ := hstop₂.unique hs₂
          refine ⟨rfl, fun l => ?_⟩
          rw [hbecomes₁.get, hbecomes₂.get]
          exact laid_congr hdirs hmade (fun a ha b hb => eq_of_place_eq hpairs
            (hsub₁ (List.mem_append_left _ ha)) (hsub₁ (List.mem_append_left _ hb))) l

/-! ## A link before its directory -/

/-- The file `host/lib/x` of two bytes. -/
def libFile : TarEntry where
  header := encodeHeader plainInfo [] (lit "host/lib/x") (octal [6, 4, 4]) (octal [2]) regType []
  content := [104, 105]
  padding := List.replicate 510 0
  path := lit "lib/x"
  target := none
  header_length := by decide +kernel
  name := by decide +kernel
  file _ := by decide +kernel
  link _ h := by cases h

/-- The symbolic link `host/lib/y` to `x`. -/
def libLink : TarEntry where
  header := encodeHeader plainInfo [] (lit "host/lib/y") [] [] symType (lit "x")
  content := []
  padding := []
  path := lit "lib/y"
  target := some (lit "x")
  header_length := by decide +kernel
  name := by decide +kernel
  file h := by cases h
  link lnk h := by
    cases h
    exact ⟨by decide, by decide, rfl, rfl⟩

theorem lib_unnested : [libFile, libLink].Pairwise Unnested := by
  rw [List.pairwise_pair]
  constructor
  · decide
  · decide

theorem order_iff_lib :
    ∃ code₁ c₁ os₁ code₂ c₂ os₂,
      extractContainer (tarContainer readBuffer) (lit "out") 4096
        (openTar (openBufferStream (encodeEntries [libFile, libLink] 2))) freshOS =
          (some code₁, c₁, os₁) ∧
      extractContainer (tarContainer readBuffer) (lit "out") 4096
        (openTar (openBufferStream (encodeEntries [libLink, libFile] 2))) freshOS =
          (some code₂, c₂, os₂) ∧
      ((code₁ = code₂ ∧ ∀ l, os₁.fs.get l = os₂.fs.get l) ↔
        SameEnd [lit "w"] (lit "out") [libFile, libLink] [libLink, libFile]) :=
  order_iff bufferContract freshOS_fresh (fun _ => rfl) (.swap _ _ _) lib_unnested trivial trivial
    (encodes_encodeEntries _ 2) (encodes_encodeEntries _ 2) (by decide +kernel)
    (by decide +kernel)

/-- With the file first both members are made, with the link first none is. -/
theorem link_before_directory :
    [libFile, libLink].Perm [libLink, libFile] ∧ [libFile, libLink].Pairwise Unnested ∧
    Fresh freshOS (lit "out") ∧ Quiet freshOS ∧
    (extractContainer (tarContainer readBuffer) (lit "out") 4096
      (openTar (openBufferStream (encodeEntries [libFile, libLink] 2))) freshOS).1 = some 0 ∧
    (extractContainer (tarContainer readBuffer) (lit "out") 4096
      (openTar (openBufferStream (encodeEntries [libLink, libFile] 2))) freshOS).1 = some (-1) ∧
    (extractContainer (tarContainer readBuffer) (lit "out") 4096
      (openTar (openBufferStream (encodeEntries [libFile, libLink] 2))) freshOS).2.2.fs.get
        [lit "w", lit "out", lit "lib", lit "y"] = some (.link (lit "x")) ∧
    (extractContainer (tarContainer readBuffer) (lit "out") 4096
      (openTar (openBufferStream (encodeEntries [libLink, libFile] 2))) freshOS).2.2.fs.get
        [lit "w", lit "out", lit "lib", lit "y"] = none := by
  refine ⟨.swap _ _ _, lib_unnested, freshOS_fresh, fun _ => rfl, ?_, ?_, ?_, ?_⟩
  all_goals decide +kernel

end ToolchainTools
