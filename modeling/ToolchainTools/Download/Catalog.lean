import ToolchainTools.Download.Unzipping

/-!
# What a url stands for

`main` chooses by the ending of a url how the file that came from there is unpacked (`formOf`).
A file of that form is a package of leaves (`Package`), and with enough rounds it is unpacked to
exactly these leaves, at whatever path and into whatever file system (`Package.unpacks`).
-/

namespace ToolchainTools

open CLib Posix Streams Trees

variable {ζ ξ : Type}

/-- How a file is unpacked. -/
inductive Form where
  | xzTar
  | tar
  | zip
  | xz
  | file
  deriving DecidableEq

def formOf (url : Bytes) : Form :=
  if endsWith url (lit ".txz") || endsWith url (lit ".tar.xz") then .xzTar
  else if endsWith url (lit ".tar") then .tar
  else if endsWith url (lit ".zip") then .zip
  else if endsWith url (lit ".xz") then .xz
  else .file

section Form

variable {env : Env ζ ξ} {os : OS} {path url : Bytes} {f : CFile}

theorem unpack_file (h : formOf url = .file) :
    unpack env os path url f = unpackStream readFile path env.fuel (openFileStream f) os := by
  unfold formOf at h
  unfold unpack
  split_ifs at h ⊢
  rfl

theorem unpack_tar (h : formOf url = .tar) :
    unpack env os path url f =
      unpackContainer (tarContainer readFile) path env.fuel (openTar (openFileStream f)) os := by
  unfold formOf at h
  unfold unpack
  split_ifs at h ⊢
  rfl

theorem unpack_xz (h : formOf url = .xz) {s : XzStream ξ FileStream}
    (hopen : openXzDecoder env.X (openFileStream f) = some s) :
    unpack env os path url f = unpackStream (readXz env.X readFile env.fuel) path env.fuel s os := by
  unfold formOf at h
  unfold unpack
  rw [hopen]
  split_ifs at h ⊢
  rfl

theorem unpack_xzTar (h : formOf url = .xzTar) {s : XzStream ξ FileStream}
    (hopen : openXzDecoder env.X (openFileStream f) = some s) :
    unpack env os path url f =
      unpackContainer (tarContainer (readXz env.X readFile env.fuel)) path env.fuel (openTar s)
        os := by
  unfold formOf at h
  unfold unpack
  rw [hopen]
  split_ifs at h ⊢
  rfl

theorem unpack_zip (h : formOf url = .zip) {z : ZipContainer}
    (hopen : openZip env.fuel f = some (some z)) :
    unpack env os path url f = unpackContainer (zipContainer env.Z env.fuel) path env.fuel z os := by
  unfold formOf at h
  unfold unpack
  rw [hopen]
  split_ifs at h ⊢
  rfl

end Form

/-! ## Compressed files -/

/-- A file that the decoder expands to `dec`; bytes behind the compressed stream are allowed. -/
structure XzFile (X : XzDecoder ξ) (content dec : Bytes) : Prop where
  starts : X.init ≠ none
  decodes : ∃ enc, enc <+: content ∧ Nonempty (XzDecodes X enc dec)
  small : content.length + 1 < 2 ^ 63
  dec_small : dec.length < 2 ^ 63

section Streams

variable {X : XzDecoder ξ} {content dec : Bytes}

theorem openFileStream_valid (hsmall : content.length < 2 ^ 63) :
    (fileContract content).valid (openFileStream (.ofBytes content)) ∧
      (fileContract content).rest (openFileStream (.ofBytes content)) = content := by
  refine ⟨⟨⟨rfl, rfl, fun _ => rfl, by simp [openFileStream], le_rfl, ?_⟩, rfl⟩, rfl⟩
  simpa [openFileStream, CFile.ofBytes] using hsmall

/-- Through the decoder the file is a stream of what it expands to. -/
theorem XzFile.opened (h : XzFile X content dec) :
    ∃ ds, openXzDecoder X (openFileStream (.ofBytes content)) = some ds ∧
      ∀ fuel, 2 * (content.length + dec.length) + 1 < fuel →
        ∃ C : Contract (readXz X readFile fuel), C.valid ds ∧ C.rest ds = dec ∧ C.lent ds = 0 := by
  obtain ⟨x, hinit⟩ := Option.ne_none_iff_exists'.mp h.starts
  obtain ⟨enc, henc, ⟨D⟩⟩ := h.decodes
  obtain ⟨hlive, hfed, hmade⟩ := D.start x hinit
  have hsmall := h.small
  obtain ⟨hv, hrest⟩ := openFileStream_valid (show content.length < 2 ^ 63 by omega)
  refine ⟨⟨x, false, openFileStream (.ofBytes content), [], 0, [], 0, 0⟩, ?_, fun fuel hfuel => ?_⟩
  · rw [openXzDecoder, hinit, Option.map_some]
  · have hlength := henc.length_le
    refine ⟨xzContract D (fileContract content) content henc hsmall h.dec_small (by omega), ?_, ?_,
      rfl⟩
    · refine ⟨hv, List.nil_prefix, Nat.zero_le _, le_rfl, Nat.zero_le _, ?_, ?_, fun _ => hlive,
        by simp, le_rfl, Nat.zero_le _⟩
      · rw [hfed]
        exact hrest
      · rw [hmade]
        exact List.nil_prefix
    · show XzStream.rest D _ = dec
      rw [XzStream.rest, hmade]
      rfl

end Streams

/-! ## Packages -/

/-- A file that is one of a package's forms, and the leaves that it becomes. -/
inductive Package (Z : Codec ζ) (X : XzDecoder ξ) (url content : Bytes) : Leaves → Prop
  | file (hform : formOf url = .file) (hsmall : content.length < 2 ^ 63) :
      Package Z X url content [([], .file content 0o644)]
  | xz {dec : Bytes} (hform : formOf url = .xz) (hxz : XzFile X content dec) :
      Package Z X url content [([], .file dec 0o644)]
  | tar {ms : List TarEntry} (hform : formOf url = .tar) (hsmall : content.length < 2 ^ 63)
      (henc : Encodes ms content) (horder : InOrder ms) (hpairs : ms.Pairwise Unnested) :
      Package Z X url content (tarLeaves ms)
  | xzTar {ms : List TarEntry} {dec : Bytes} (hform : formOf url = .xzTar)
      (hxz : XzFile X content dec) (henc : Encodes ms dec) (horder : InOrder ms)
      (hpairs : ms.Pairwise Unnested) : Package Z X url content (tarLeaves ms)
  | zip {files : List (ZipEntry × Bytes)} (hform : formOf url = .zip)
      (A : ZipArchive Z content files) : Package Z X url content (zipLeaves files)

namespace Package

variable {Z : Codec ζ} {X : XzDecoder ξ} {url content : Bytes} {leaves : Leaves}

/-- No leaf of a package is another one or above it. -/
theorem unrelated (h : Package Z X url content leaves) :
    leaves.Pairwise fun a b => Unrelated a.1 b.1 := by
  cases h with
  | file | xz => exact List.pairwise_singleton _ _
  | tar _ _ _ _ hpairs => exact List.pairwise_map.mpr (hpairs.imp fun h => h)
  | xzTar _ _ _ _ hpairs => exact List.pairwise_map.mpr (hpairs.imp fun h => h)
  | zip _ A => exact List.pairwise_map.mpr A.unrelated

/-- With enough rounds, a package is unpacked to its leaves. -/
theorem unpacks (h : Package Z X url content leaves) :
    ∃ n, ∀ env : Env ζ ξ, env.Z = Z → env.X = X → n ≤ env.fuel →
      Unpacks env url content leaves := by
  cases h with
  | file hform hsmall =>
    refine ⟨content.length + 1, fun env _ _ hfuel os path hquiet hpath hcwd hsite => ?_⟩
    obtain ⟨hv, hrest⟩ := openFileStream_valid hsmall
    rw [unpack_file hform]
    exact unpackStream_feed (fileContract content).feed ⟨hv, hrest⟩ rfl (by omega) hquiet hpath hcwd
      hsite
  | @xz dec hform hxz =>
    obtain ⟨ds, hopen, hstream⟩ := hxz.opened
    refine ⟨2 * (content.length + dec.length) + 2, fun env _ hX hfuel => ?_⟩
    subst hX
    obtain ⟨C, hv, hrest, hlent⟩ := hstream env.fuel (by omega)
    intro os path hquiet hpath hcwd hsite
    rw [unpack_xz hform hopen]
    exact unpackStream_feed C.feed ⟨hv, hrest⟩ hlent (by omega) hquiet hpath hcwd hsite
  | @tar ms hform hsmall henc horder hpairs =>
    refine ⟨content.length + 2, fun env _ _ hfuel os path hquiet hpath hcwd hsite => ?_⟩
    obtain ⟨hv, hrest⟩ := openFileStream_valid hsmall
    rw [unpack_tar hform]
    exact unpackContainer_tar (fileContract content) hv (by rwa [hrest]) (by rw [hrest]; omega) hpairs
      horder hquiet hpath hcwd hsite
  | @xzTar ms dec hform hxz henc horder hpairs =>
    obtain ⟨ds, hopen, hstream⟩ := hxz.opened
    refine ⟨2 * (content.length + dec.length) + 2, fun env _ hX hfuel => ?_⟩
    subst hX
    obtain ⟨C, hv, hrest, -⟩ := hstream env.fuel (by omega)
    intro os path hquiet hpath hcwd hsite
    rw [unpack_xzTar hform hopen]
    exact unpackContainer_tar C hv (by rwa [hrest]) (by rw [hrest]; omega) hpairs horder hquiet hpath
      hcwd hsite
  | @zip files hform A =>
    -- the rounds that the largest file takes, and one for each file
    let most := (files.map fun e => e.2.length).sum
    have hle : ∀ e ∈ files, e.2.length ≤ most := fun e he =>
      List.single_le_sum (by simp) _ (List.mem_map_of_mem he)
    refine ⟨2 * (content.length + most) + files.length + 3, fun env hZ _ hfuel => ?_⟩
    subst hZ
    obtain ⟨z, hopen, hz⟩ := A.opened (show 3 ≤ env.fuel by omega)
    intro os path hquiet hpath hcwd hsite
    rw [unpack_zip hform hopen]
    refine A.unpackContainer_zip (fun e he => ?_) (fun e he => ?_) (by omega) hz hquiet hpath hcwd
      hsite
    · have := hle e he
      omega
    · have := hle e he
      omega

end Package

section Results

variable {Z : Codec ζ} {X : XzDecoder ξ} {url content : Bytes} {leaves : Leaves}

/-- **Unpacking.** Whatever the form of a package is and whatever the file system holds elsewhere,
unpacking it at a free place succeeds with enough rounds. Every leaf is then at its place with its
mode, there is nothing else at the path but the directories above the leaves, and everything that
is not at the path is as it was, apart from the directories that lead there. -/
theorem package_is_unpacked (h : Package Z X url content leaves) :
    ∃ n, ∀ env : Env ζ ξ, env.Z = Z → env.X = X → n ≤ env.fuel → ∀ os path, Posix.Quiet os →
      PlainPath path → os.fs.get os.cwd = some .dir → Site os.fs (os.cwd ++ components path) →
      ∃ os', unpack env os path url (.ofBytes content) = (.next, os') ∧
        (∀ e ∈ leaves, os'.fs.get (os.cwd ++ components path ++ e.1) = some e.2) ∧
        (∀ r node, os'.fs.get (os.cwd ++ components path ++ r) = some node →
          (r, node) ∈ leaves ∨ node = .dir ∧ Above leaves r) ∧
        ∀ l, ¬ os.cwd ++ components path <+: l →
          os'.fs.get l = os.fs.get l ∨
            os'.fs.get l = some .dir ∧ l <+: os.cwd ++ components path := by
  obtain ⟨n, hn⟩ := h.unpacks
  refine ⟨n, fun env hZ hX hfuel os path hquiet hpath hcwd hsite => ?_⟩
  obtain ⟨os', hunpack, hb⟩ := hn env hZ hX hfuel os path hquiet hpath hcwd hsite
  -- nothing is below a place that is free
  have hplant : os'.fs.get = plant .dir (os.cwd ++ components path) leaves os.fs.get := by
    funext l
    rw [hb.get, plant]
    congr 1
    funext l
    unfold prune
    split
    · rename_i hpre
      obtain ⟨r, rfl⟩ := hpre
      exact hsite.below r
    · rfl
  have hbelow : ∀ r, os'.fs.get (os.cwd ++ components path ++ r) =
      overlay .dir (fun _ => none) leaves r := by
    intro r
    rw [hplant, plant_below]
  refine ⟨os', hunpack, fun e he => ?_, fun r node hnode => ?_, fun l hl => ?_⟩
  · rw [hbelow, overlay_leaf h.unrelated he]
  · rw [hbelow] at hnode
    unfold overlay at hnode
    split at hnode
    · rename_i habove
      cases hnode
      exact Or.inr ⟨rfl, habove⟩
    · rw [Option.or_none] at hnode
      exact Or.inl (mem_of_lookup_eq hnode)
  · rcases overlay_cases .dir os.fs.get (shift (os.cwd ++ components path) leaves) l with
      hdir | ⟨e, he, heq, -⟩ | hsame
    · by_cases hpre : l <+: os.cwd ++ components path
      · exact Or.inr ⟨(hb.get l).trans hdir, hpre⟩
      · have hunrelated : Unrelated (os.cwd ++ components path) l := ⟨hl, hpre⟩
        left
        rw [hplant, plant_unrelated hunrelated]
    · obtain ⟨k, -, rfl⟩ := mem_shift.mp he
      exact absurd (heq ▸ List.prefix_append _ k.1) hl
    · exact Or.inl ((hb.get l).trans hsame)

/-- An archive with a directory, a file and a link beside it. -/
def libArchive : Bytes := plainDir.header ++ encodeEntries [libFile, libLink] 2

theorem encodes_libArchive : Encodes [libFile, libLink] libArchive := by
  refine Encodes.other plainDir (fun k hk => ?_) (encodes_encodeEntries _ 2)
  simp [plainDir, tarBlockSize] at hk

theorem package_is_unpacked_lib :
    ∃ n, ∀ env : Env Unit Unit, env.Z = noCodec → env.X = noXzDecoder → n ≤ env.fuel →
      ∃ os', unpack env freshOS (lit "out") (lit "http://h/lib.tar")
          (.ofBytes libArchive) = (.next, os') ∧
        os'.fs.get [lit "w", lit "out", lit "lib", lit "x"] =
          some (.file (lit "hi") 0o644) ∧
        os'.fs.get [lit "w", lit "out", lit "lib", lit "y"] = some (.link (lit "x")) := by
  have horder : InOrder [libFile, libLink] := by
    intro before m rest hsplit
    cases before with
    | nil =>
      cases hsplit
      exact ⟨by decide, Or.inl rfl⟩
    | cons f before =>
      cases before with
      | nil =>
        cases hsplit
        exact ⟨by decide, Or.inr ⟨libFile, by simp, rfl, by decide, by decide⟩⟩
      | cons g before =>
        have hlength := congrArg List.length hsplit
        simp at hlength
  have hpackage : Package noCodec noXzDecoder (lit "http://h/lib.tar")
      libArchive (tarLeaves [libFile, libLink]) :=
    .tar (by decide) (by decide +kernel) encodes_libArchive horder lib_unnested
  have habove : ∀ l ∈ ([lit "w", lit "out"] : Loc).inits,
      freshOS.fs.get l = none ∨ freshOS.fs.get l = some .dir := by decide
  obtain ⟨n, hn⟩ := package_is_unpacked hpackage
  refine ⟨n, fun env hZ hX hfuel => ?_⟩
  obtain ⟨os', hunpack, hleaves, -, -⟩ := hn env hZ hX hfuel freshOS (lit "out") (fun _ => rfl)
    (by decide) (by decide) ⟨by decide, fun l hl => habove l ((List.mem_inits l _).mpr hl)⟩
  exact ⟨os', hunpack, hleaves ([lit "lib", lit "x"], .file (lit "hi") 0o644) (by decide),
    hleaves ([lit "lib", lit "y"], .link (lit "x")) (by decide)⟩

end Results

end ToolchainTools
