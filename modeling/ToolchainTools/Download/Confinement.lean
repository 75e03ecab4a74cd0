import ToolchainTools.Download.Extract
import ToolchainTools.Stream.Buffer
import ToolchainTools.Stream.TarArchive
import ToolchainTools.Stream.ZipArchive

/-!
# Extraction stays in its directory

The invariant of a run of `extract_container` into `dir` is `Sandbox`: no place on the way
to `dir` is a symbolic link, and every link below `dir` points to a neighbour by a single
ordinary name. A member path has no `..`, so whatever links earlier members have made,
resolving `dir/path` ends below `dir`; and a link target accepted by
`clean_tar_linkname` is an ordinary name, so a new link keeps the invariant.
-/

namespace ToolchainTools

open CLib Posix Streams

variable {σ κ τ ζ : Type}

/-- The place that the text of `dir` names. -/
def dirLoc (cwd : Loc) (dir : Bytes) : Loc := lexical (startOf cwd dir) (components dir)

/-- `dir` names a place where nothing is, and what exists on the way there are real
directories. -/
structure Fresh (os : OS) (dir : Bytes) : Prop where
  cwd_dir : os.fs.get os.cwd = some .dir
  missing : os.fs.get (dirLoc os.cwd dir) = none
  ancestors : ∀ k, os.fs.get (lexical (startOf os.cwd dir) ((components dir).take k)) = none ∨
    os.fs.get (lexical (startOf os.cwd dir) ((components dir).take k)) = some .dir

/-- An effect inside `dir`, or the creation of an ancestor directory of `dir`. Only a
directory can be made at `dir` itself. -/
inductive Confined (cwd : Loc) (dir : Bytes) : Effect → Prop
  | inside {e : Effect} : dirLoc cwd dir <+: e.loc → e.loc ≠ dirLoc cwd dir → Confined cwd dir e
  | mkdir {loc : Loc} : dirLoc cwd dir <+: loc → Confined cwd dir (.mkdir loc)
  | ancestor (k : Nat) :
      Confined cwd dir (.mkdir (lexical (startOf cwd dir) ((components dir).take k)))

structure Sandbox (cwd : Loc) (dir : Bytes) (log : List Effect) (os : OS) : Prop where
  cwd_eq : os.cwd = cwd
  start_dir : os.fs.get (startOf cwd dir) = some .dir
  nonempty : dir ≠ []
  free : LinkFree os.fs (startOf cwd dir) (components dir)
  flat : FlatBelow os.fs (dirLoc cwd dir)
  effects : ∃ new, os.log = new ++ log ∧ ∀ e ∈ new, Confined cwd dir e

variable {cwd : Loc} {dir : Bytes} {log : List Effect} {os : OS}

/-! ## Paths below `dir` -/

theorem components_replicate_slash (q : Bytes) (m : Nat) :
    components (q ++ List.replicate m slash) = components q ++ List.replicate m [] := by
  induction m generalizing q with
  | zero => simp
  | succ m ih =>
    rw [List.replicate_succ, components_append, ← List.nil_append (List.replicate m slash), ih]
    rfl

/-- A piece of `dir/file` that ends at a slash, without its trailing slashes, names a place
on the way to `dir` or goes on below it. -/
theorem components_upto {file upto rest : Bytes}
    (hsplit : joinPath dir file = upto ++ slash :: rest) :
    (∃ k, components (OS.stripSlashes upto) = (components dir).take k) ∨
      ∃ xs, xs ≠ [] ∧ xs <+: components file ∧
        components (OS.stripSlashes upto) = components dir ++ xs := by
  obtain ⟨m, hm⟩ := OS.stripSlashes_append upto
  have hall : components dir ++ components file =
      components (OS.stripSlashes upto) ++ (List.replicate m [] ++ components rest) := by
    rw [← components_append, ← joinPath, hsplit, components_append, ← List.append_assoc,
      ← components_replicate_slash, ← hm]
  rcases List.append_eq_append_iff.mp hall with ⟨xs, hxs, hfile⟩ | ⟨xs, hxs, -⟩
  · by_cases hnil : xs = []
    · left
      refine ⟨(components dir).length, ?_⟩
      rw [hxs, hnil, List.append_nil, List.take_length]
    · exact Or.inr ⟨xs, hnil, ⟨_, hfile.symm⟩, hxs⟩
  · left
    exact ⟨(components (OS.stripSlashes upto)).length, by rw [hxs, List.take_left]⟩

theorem startOf_of_head {p q : Bytes} (h : p.head? = q.head?) (cwd : Loc) :
    startOf cwd p = startOf cwd q := by
  simp [startOf, h]

theorem startOf_joinPath (hdir : dir ≠ []) (file : Bytes) :
    startOf cwd (joinPath dir file) = startOf cwd dir := by
  apply startOf_of_head
  obtain ⟨b, bs, rfl⟩ := List.exists_cons_of_ne_nil hdir
  rfl

theorem startOf_upto {file upto rest : Bytes} (hdir : dir ≠ [])
    (hsplit : joinPath dir file = upto ++ slash :: rest) (hne : OS.stripSlashes upto ≠ []) :
    startOf cwd (OS.stripSlashes upto) = startOf cwd dir := by
  rw [← startOf_joinPath hdir file]
  apply startOf_of_head
  obtain ⟨m, hm⟩ := OS.stripSlashes_append upto
  obtain ⟨b, bs, hb⟩ := List.exists_cons_of_ne_nil hne
  rw [hb] at hm
  rw [hsplit, hb, hm]
  rfl

namespace Sandbox

/-- Whatever `dir/file` resolves to lies in `dir`, which is then a real directory, as is
every place on the way to it. -/
theorem locate_join (h : Sandbox cwd dir log os) {file : Bytes} (hfile : dotdot ∉ components file)
    {followLast : Bool} {loc : Loc} (hloc : os.locate followLast (joinPath dir file) = some loc) :
    dirLoc cwd dir <+: loc ∧
      ∀ k, os.fs.get (lexical (startOf cwd dir) ((components dir).take k)) = some .dir := by
  unfold OS.locate resolve at hloc
  rw [if_neg (by simp [joinPath]), h.cwd_eq, startOf_joinPath h.nonempty, joinPath,
    components_append] at hloc
  obtain ⟨hdirs, hwalk⟩ := walk_append h.free (components_ne_nil file) h.start_dir hloc
  exact ⟨walk_below h.flat List.prefix_rfl hfile hwalk, hdirs⟩

theorem dir_of_locate_join {k : Nat}
    (h : ∀ k, os.fs.get (lexical (startOf cwd dir) ((components dir).take k)) = some .dir)
    {loc : Loc} (hmissing : os.fs.get loc = none) :
    loc ≠ lexical (startOf cwd dir) ((components dir).take k) := by
  rintro rfl
  rw [h k] at hmissing
  cases hmissing

theorem dirLoc_eq_take (cwd : Loc) (dir : Bytes) :
    dirLoc cwd dir = lexical (startOf cwd dir) ((components dir).take (components dir).length) := by
  rw [List.take_length, dirLoc]

/-- A call that changes nothing keeps the invariant. -/
theorem tick (h : Sandbox cwd dir log os) : Sandbox cwd dir log os.tick :=
  ⟨h.cwd_eq, h.start_dir, h.nonempty, h.free, h.flat, h.effects⟩

/-- A change keeps the invariant when it keeps the start directory, puts links nowhere on the
way to `dir` and only flat ones below it, and is a confined effect. -/
theorem act (h : Sandbox cwd dir log os) {fs : FS} {e : Effect}
    (hstart : fs.get (startOf cwd dir) = some .dir)
    (hlinks : ∀ l t, fs.get l = some (.link t) → os.fs.get l = some (.link t) ∨
      (Ordinary t ∧ ∀ k, l ≠ lexical (startOf cwd dir) ((components dir).take k)))
    (he : Confined cwd dir e) : Sandbox cwd dir log (os.tick.act fs e) := by
  refine ⟨h.cwd_eq, hstart, h.nonempty, ?_, ?_, ?_⟩
  · intro k t hlink
    rcases hlinks _ t hlink with hold | ⟨-, hnew⟩
    · exact h.free k t hold
    · exact hnew k rfl
  · intro l t hbelow hne hlink
    rcases hlinks l t hlink with hold | ⟨hnew, -⟩
    · exact h.flat l t hbelow hne hold
    · exact hnew
  · obtain ⟨new, hlog, hnew⟩ := h.effects
    refine ⟨e :: new, by simp [hlog], ?_⟩
    intro e' he'
    rcases List.mem_cons.mp he' with rfl | hmem
    · exact he
    · exact hnew e' hmem

/-- Adding a directory or a file makes no link. -/
theorem add (h : Sandbox cwd dir log os) {loc : Loc} (hadd : os.fs.Addable loc) {node : Node}
    (hnode : ∀ t, node ≠ .link t) {e : Effect} (he : Confined cwd dir e) :
    Sandbox cwd dir log (os.tick.act (os.fs.add loc node) e) := by
  refine h.act ?_ ?_ he
  · rw [FS.get_add hadd, if_neg]
    · exact h.start_dir
    · rintro rfl
      have hmissing := hadd.2.1
      rw [h.start_dir] at hmissing
      cases hmissing
  · intro l t hlink
    rw [FS.get_add hadd] at hlink
    split at hlink
    · exact absurd (Option.some.inj hlink) (hnode t)
    · exact Or.inl hlink

/-- Writing to a file makes no link. -/
theorem update (h : Sandbox cwd dir log os) {loc : Loc} {c : Bytes} {m : Int}
    (hfile : os.fs.get loc = some (.file c m)) {c' : Bytes} {m' : Int} {e : Effect}
    (he : Confined cwd dir e) :
    Sandbox cwd dir log (os.tick.act (os.fs.update loc (.file c' m')) e) := by
  refine h.act ?_ ?_ he
  · rw [FS.get_update_ne]
    · exact h.start_dir
    · rintro rfl
      rw [h.start_dir] at hfile
      cases hfile
  · intro l t hlink
    rw [FS.get_update (OS.isLeaf_of_file hfile)] at hlink
    split at hlink
    · cases hlink
    · exact Or.inl hlink

/-! ## The calls of an extraction -/

theorem mkdir (h : Sandbox cwd dir log os) {file upto rest : Bytes}
    (hfile : dotdot ∉ components file) (hsplit : joinPath dir file = upto ++ slash :: rest) :
    Sandbox cwd dir log (os.mkdir upto).2 := by
  rcases os.mkdir_cases upto with hfail | ⟨loc, hloc, hadd, hdone⟩
  · rw [hfail]
    exact h.tick
  · rw [hdone]
    refine h.add hadd (by simp) ?_
    unfold OS.locate resolve at hloc
    split at hloc
    · cases hloc
    · rename_i hne
      rw [h.cwd_eq, startOf_upto h.nonempty hsplit hne] at hloc
      rcases components_upto hsplit with ⟨k, hk⟩ | ⟨xs, hxs, hpre, hk⟩
      · rw [hk] at hloc
        rw [walk_lexical (h.free.take k) hloc]
        exact .ancestor k
      · rw [hk] at hloc
        obtain ⟨-, hwalk⟩ := walk_append h.free hxs h.start_dir hloc
        have hdd : dotdot ∉ xs := fun hmem => hfile (hpre.subset hmem)
        exact .mkdir (walk_below h.flat List.prefix_rfl hdd hwalk)

theorem makeDirectory (h : Sandbox cwd dir log os) {file : Bytes}
    (hfile : dotdot ∉ components file) :
    Sandbox cwd dir log (makeDirectory os (joinPath dir file)) :=
  makeDirectory_rule (fun _ _ _ hsplit hos => hos.mkdir hfile hsplit) h

theorem symlink (h : Sandbox cwd dir log os) {file target : Bytes}
    (hfile : dotdot ∉ components file) (htarget : Ordinary target) :
    Sandbox cwd dir log (os.symlink target (joinPath dir file)).2 := by
  rcases os.symlink_cases target (joinPath dir file) with hfail | ⟨loc, hloc, hadd, hdone⟩
  · rw [hfail]
    exact h.tick
  · rw [hdone]
    obtain ⟨hbelow, hdirs⟩ := h.locate_join hfile hloc
    have hnot : ∀ k, loc ≠ lexical (startOf cwd dir) ((components dir).take k) :=
      fun k => dir_of_locate_join hdirs hadd.2.1
    refine h.act ?_ ?_ (.inside hbelow ?_)
    · rw [FS.get_add_ne]
      · exact h.start_dir
      · exact Ne.symm (hnot 0)
    · intro l t hlink
      rw [FS.get_add hadd] at hlink
      split at hlink
      · rename_i hl
        cases hlink
        exact Or.inr ⟨htarget, fun k => hl ▸ hnot k⟩
      · exact Or.inl hlink
    · rw [dirLoc_eq_take]
      exact hnot _

/-- An open file lies strictly inside `dir`. -/
theorem fopenWrite (h : Sandbox cwd dir log os) {file : Bytes} (hfile : dotdot ∉ components file) :
    Sandbox cwd dir log (os.fopenWrite (joinPath dir file)).2 ∧
      ∀ f, (os.fopenWrite (joinPath dir file)).1 = some f →
        dirLoc cwd dir <+: f ∧ f ≠ dirLoc cwd dir := by
  rcases os.fopenWrite_cases (joinPath dir file) with
    hfail | ⟨loc, hloc, ⟨hadd, hdone⟩ | ⟨c, m, hget, hdone⟩⟩
  · rw [hfail]
    exact ⟨h.tick, by simp⟩
  · obtain ⟨hbelow, hdirs⟩ := h.locate_join hfile hloc
    have hne : loc ≠ dirLoc cwd dir := by
      rw [dirLoc_eq_take]
      exact dir_of_locate_join hdirs hadd.2.1
    rw [hdone]
    refine ⟨h.add hadd (by simp) (.inside hbelow hne), ?_⟩
    rintro f hf
    cases hf
    exact ⟨hbelow, hne⟩
  · obtain ⟨hbelow, hdirs⟩ := h.locate_join hfile hloc
    have hne : loc ≠ dirLoc cwd dir := by
      rintro rfl
      rw [dirLoc_eq_take, hdirs] at hget
      cases hget
    rw [hdone]
    refine ⟨h.update hget (.inside hbelow hne), ?_⟩
    rintro f hf
    cases hf
    exact ⟨hbelow, hne⟩

theorem fchmod (h : Sandbox cwd dir log os) {f : Loc} (hf : dirLoc cwd dir <+: f)
    (hne : f ≠ dirLoc cwd dir) (mode : Int) : Sandbox cwd dir log (os.fchmod f mode) := by
  rcases os.fchmod_cases f mode with hfail | ⟨c, m, hget, hdone⟩
  · rw [hfail]
    exact h.tick
  · rw [hdone]
    exact h.update hget (.inside hf hne)

theorem fwrite (h : Sandbox cwd dir log os) {f : Loc} (hf : dirLoc cwd dir <+: f)
    (hne : f ≠ dirLoc cwd dir) (data : Bytes) : Sandbox cwd dir log (os.fwrite f data).2 := by
  rcases os.fwrite_cases f data with hfail | ⟨c, m, hget, hdone⟩
  · rw [hfail]
    exact h.tick
  · rw [hdone]
    exact h.update hget (.inside hf hne)

theorem extractPath (h : Sandbox cwd dir log os) {read : Reader σ} {fuel : Nat} {s : σ}
    {file : Bytes} {mode : Int} (hfile : dotdot ∉ components file) :
    Sandbox cwd dir log (extractPath read fuel s dir file mode os).os := by
  obtain ⟨hopen, hin⟩ := (h.makeDirectory hfile).fopenWrite hfile
  unfold ToolchainTools.extractPath openPath
  dsimp only
  cases hcall : (ToolchainTools.makeDirectory os (joinPath dir file)).fopenWrite
    (joinPath dir file) with
  | mk result os' =>
    rw [hcall] at hopen hin
    cases result with
    | none => exact hopen
    | some f =>
      obtain ⟨hbelow, hne⟩ := hin f rfl
      exact extractFileLoop_rule (fun _ data hos => hos.fwrite hbelow hne data)
        (hopen.fchmod hbelow hne mode)

end Sandbox

/-! ## Containers -/

/-- A member with a safe path and, for a link, an ordinary name as its target. -/
def CleanMember (m : Member) : Prop :=
  SafePath m.filePath ∧ ∀ t, m.linkTarget = some t → Ordinary t

/-- Every member that a container reports is clean. -/
def CleanMembers (K : Container κ τ) : Prop :=
  ∀ fuel c c', K.nextFile fuel c = (some 0, c') → CleanMember (K.member c')

theorem extractContainer_sandbox {K : Container κ τ} (hclean : CleanMembers K) {fuel : Nat} {c : κ}
    (h : Sandbox cwd dir log os) :
    Sandbox cwd dir log (extractContainer K dir fuel c os).2.2 := by
  refine extractContainer_rule ⟨?_, ?_⟩ h
  · rintro os target m hos htarget ⟨n, c₀, c₁, hnext, rfl⟩
    obtain ⟨hpath, hlink⟩ := hclean n c₀ c₁ hnext
    exact hos.symlink hpath.no_dotdot (hlink target htarget)
  · rintro os m fuel s hos - ⟨n, c₀, c₁, hnext, rfl⟩
    exact hos.extractPath (hclean n c₀ c₁ hnext).1.no_dotdot

/-- A place where nothing is, reached through real directories, is where a run can start. -/
theorem Fresh.sandbox (h : Fresh os dir) : Sandbox os.cwd dir os.log os := by
  have hnolink : ∀ k t, os.fs.get (lexical (startOf os.cwd dir) ((components dir).take k)) ≠
      some (.link t) := by
    intro k t hlink
    rcases h.ancestors k with hk | hk
    · rw [hk] at hlink
      cases hlink
    · rw [hk] at hlink
      cases hlink
  have hstart : os.fs.get (startOf os.cwd dir) = some .dir := by
    unfold startOf
    split
    · exact os.fs.get_root
    · exact h.cwd_dir
  refine ⟨rfl, hstart, ?_, hnolink, ?_, [], rfl, by simp⟩
  · rintro rfl
    have hmissing := h.missing
    simp only [dirLoc, components, lexical, true_or, if_true] at hmissing
    rw [hstart] at hmissing
    cases hmissing
  · intro l t hbelow hne hlink
    rw [FS.get_eq_none_of_below (by rw [h.missing]; simp) hbelow hne] at hlink
    cases hlink

/-! ## The tar container -/

theorem ordinary_of_cleanTarLinkname {t lnk : Bytes} (h : cleanTarLinkname t = some lnk) :
    Ordinary lnk := by
  unfold cleanTarLinkname at h
  dsimp only at h
  split at h
  · cases h
  · rename_i hcond
    cases h
    simp only [not_or, Option.not_isSome_iff_eq_none, strchr_eq_none_iff] at hcond
    exact ⟨hcond.1, hcond.2.2.2.2.1, hcond.2.2.2.2.2, hcond.2.2.1⟩

theorem safePath_of_cleanTarName {t path : Bytes} (h : cleanTarName t = some path) :
    SafePath path := by
  unfold cleanTarName at h
  dsimp only at h
  split at h
  · exact (cleanPath_eq_some_iff.mp h).2
  · exact (cleanPath_eq_some_iff.mp h).2

theorem readTarFileHeader_clean {c : TarContainer σ} {t : Bytes}
    (h : (readTarFileHeader c t).1 = 0) : CleanMember (readTarFileHeader c t).2.h := by
  unfold readTarFileHeader at h ⊢
  cases hpath : cleanTarName t with
  | none => simp [hpath] at h
  | some path =>
    simp only
    exact ⟨safePath_of_cleanTarName hpath, by simp⟩

theorem readTarLinkHeader_clean {c : TarContainer σ} {t : Bytes}
    (h : (readTarLinkHeader c t).1 = 0) : CleanMember (readTarLinkHeader c t).2.h := by
  unfold readTarLinkHeader at h ⊢
  cases hpath : cleanTarName t with
  | none => simp [hpath] at h
  | some path =>
    cases hlnk : cleanTarLinkname t with
    | none => simp [hpath, hlnk] at h
    | some lnk =>
      refine ⟨safePath_of_cleanTarName hpath, fun l hl => ?_⟩
      cases hl
      exact ordinary_of_cleanTarLinkname hlnk

theorem headerLoop_clean {read : Reader σ} {c c' : TarContainer σ} {fuel consume : Nat}
    (h : headerLoop read c fuel consume = (some 0, c')) :
    CleanMember c'.h := by
  induction fuel generalizing c consume with
  | zero => cases h
  | succ fuel ih =>
    unfold headerLoop at h
    split at h
    · cases h
    · split at h
      · cases h
      · split at h
        · cases h
        · dsimp only at h
          split at h
          · split at h
            · cases h
            · simp only [Prod.mk.injEq, Option.some.injEq] at h
              obtain ⟨hcode, rfl⟩ := h
              exact readTarLinkHeader_clean hcode
          · split at h
            · split at h
              · cases h
              · simp only [Prod.mk.injEq, Option.some.injEq] at h
                obtain ⟨hcode, rfl⟩ := h
                exact readTarFileHeader_clean hcode
            · exact ih h

/-- However the stream behaves, the tar container reports clean members only. -/
theorem tarContainer_clean (read : Reader σ) : CleanMembers (tarContainer read) := by
  intro fuel c c' h
  have h' : nextTarFile read fuel c = (some 0, c') := h
  unfold nextTarFile at h'
  dsimp only at h'
  split at h'
  · cases h'
  · cases h'
  · exact headerLoop_clean h'

/-! ## The zip container -/

theorem zip64Record_path {z z' : ZipContainer} {sz sz' : Nat}
    (h : zip64Record z sz = some (sz', z')) : z'.path = z.path := by
  simp only [zip64Record, Option.bind_eq_some_iff] at h
  obtain ⟨_, _, _, _, _, _, he⟩ := h
  cases he
  rfl

theorem zipExtraRecord_path {z z' : ZipContainer} {tag sz : Nat}
    (h : zipExtraRecord z tag sz = some z') : z'.path = z.path := by
  simp only [zipExtraRecord, Option.bind_eq_some_iff, Option.map_eq_some_iff] at h
  obtain ⟨⟨sz1, z1⟩, hrec, f, -, rfl⟩ := h
  split at hrec
  · have hpath := zip64Record_path hrec
    exact hpath
  · cases hrec
    rfl

theorem zipExtraLoop_path (z : ZipContainer) (extralen : Nat) :
    (zipExtraLoop z extralen).2.path = z.path := by
  fun_induction zipExtraLoop z extralen with
  | case1 | case2 | case3 | case4 | case6 | case7 => rfl
  | case5 z extralen hmore r z1 hlen tag sz hbreak z2 hrec ih =>
    rw [ih, zipExtraRecord_path hrec]

theorem readZipFileHeader_path {z : ZipContainer} (h : (readZipFileHeader z).1 = 0) :
    SafePath (readZipFileHeader z).2.path := by
  revert h
  unfold readZipFileHeader
  dsimp only
  split
  · intro h
    cases h
  · split
    · intro h
      cases h
    · split
      · intro h
        cases h
      · rename_i path hpath
        intro _
        rw [zipExtraLoop_path]
        exact (cleanPath_eq_some_iff.mp hpath).2

theorem zipRound_path {z : ZipContainer} (h : (zipRound z).1 = 0) :
    SafePath (zipRound z).2.path := by
  revert h
  unfold zipRound
  split
  · intro h
    cases h
  · dsimp only
    split
    · rename_i hread
      intro _
      exact readZipFileHeader_path hread
    · split <;> intro h <;> cases h

theorem nextZipFile_clean {z : ZipContainer} (h : (nextZipFile z).1 = 0) :
    CleanMember (nextZipFile z).2.h := by
  fun_induction nextZipFile z with
  | case1 z r hround hdir ih => exact ih h
  | case2 z r hround hfile => exact ⟨zipRound_path hround, by simp⟩
  | case3 z r hround => exact absurd h hround

/-- Whatever bytes the file has, the zip container reports clean members only. -/
theorem zipContainer_clean (Z : Codec ζ) (rounds : Nat) : CleanMembers (zipContainer Z rounds) := by
  intro fuel z z' h
  simp only [zipContainer, Prod.mk.injEq, Option.some.injEq] at h
  obtain ⟨hcode, rfl⟩ := h
  exact nextZipFile_clean hcode

/-! ## Confinement -/

/-- **Extraction confinement.** Whatever a stream given to `open_tar` or a file given to
`open_zip` holds, whichever calls fail, and at every point of the run: all that
`extract_container` has changed since its start lies inside `dir`, except for the
directories it has made on the way there. -/
theorem extraction_confined {os : OS} {dir : Bytes} (h : Fresh os dir) (fuel : Nat) :
    (∀ (read : Reader σ) (s : σ), ∃ new,
      (extractContainer (tarContainer read) dir fuel (openTar s) os).2.2.log = new ++ os.log ∧
        ∀ e ∈ new, Confined os.cwd dir e) ∧
    ∀ (Z : Codec ζ) (rounds : Nat) (f : CFile) (z : ZipContainer),
      openZip fuel f = some (some z) → ∃ new,
        (extractContainer (zipContainer Z rounds) dir fuel z os).2.2.log = new ++ os.log ∧
          ∀ e ∈ new, Confined os.cwd dir e := by
  constructor
  · intro read s
    exact (extractContainer_sandbox (tarContainer_clean read) h.sandbox).effects
  · intro Z rounds f z _
    exact (extractContainer_sandbox (zipContainer_clean Z rounds) h.sandbox).effects

theorem freshOS_fresh : Fresh freshOS (lit "out") := by
  have hcomp : components (lit "out") = [lit "out"] := by decide
  refine ⟨by decide, by decide, ?_⟩
  intro k
  rw [hcomp]
  cases k with
  | zero => exact Or.inr (by decide)
  | succ k =>
    rw [List.take_succ_cons, List.take_nil]
    exact Or.inl (by decide)

/-- A file `lib/x`, a link `bin` to `lib`, and a file `bin/y` that goes through the link. -/
def linkingTar : Bytes :=
  encodeHeader plainInfo [] (lit "top/lib/x") (octal [6, 4, 4]) [] regType [] ++
    encodeHeader plainInfo [] (lit "top/bin") [] [] symType (lit "lib") ++
    encodeHeader plainInfo [] (lit "top/bin/y") (octal [6, 4, 4]) [] regType []

/-- A zip file of the stored file `lib/x` of two bytes. -/
def storedZip : Bytes :=
  List.replicate 30 0 ++ lit "hi" ++
    (littleBytes 4 zipFileHeaderSig ++ List.replicate 16 0 ++ littleBytes 4 2 ++ littleBytes 4 2 ++
      littleBytes 2 5 ++ List.replicate 16 0 ++ lit "lib/x") ++
    (littleBytes 4 zipCentralDirEndSig ++ List.replicate 12 0 ++ littleBytes 4 32 ++ littleBytes 2 0)

theorem extraction_confined_linking :
    Fresh freshOS (lit "out") ∧
    (extractContainer (tarContainer readBuffer) (lit "out") 8
      (openTar (openBufferStream linkingTar)) freshOS).2.2.log.map Effect.loc =
        [[lit "w", lit "out", lit "lib", lit "y"], [lit "w", lit "out", lit "lib", lit "y"],
          [lit "w", lit "out", lit "bin"],
          [lit "w", lit "out", lit "lib", lit "x"], [lit "w", lit "out", lit "lib", lit "x"],
          [lit "w", lit "out", lit "lib"], [lit "w", lit "out"]] ∧
    (∃ new,
      (extractContainer (tarContainer readBuffer) (lit "out") 8
        (openTar (openBufferStream linkingTar)) freshOS).2.2.log = new ++ freshOS.log ∧
        ∀ e ∈ new, Confined freshOS.cwd (lit "out") e) ∧
    ∃ z, openZip 8 (.ofBytes storedZip) = some (some z) ∧
      (extractContainer (zipContainer noCodec 8) (lit "out") 8 z freshOS).2.2.log =
        [.write [lit "w", lit "out", lit "lib", lit "x"],
          .chmod [lit "w", lit "out", lit "lib", lit "x"],
          .create [lit "w", lit "out", lit "lib", lit "x"],
          .mkdir [lit "w", lit "out", lit "lib"], .mkdir [lit "w", lit "out"]] ∧
      ∃ new,
        (extractContainer (zipContainer noCodec 8) (lit "out") 8 z freshOS).2.2.log =
            new ++ freshOS.log ∧
          ∀ e ∈ new, Confined freshOS.cwd (lit "out") e := by
  have h := extraction_confined (σ := BufStream) (ζ := Unit) freshOS_fresh 8
  have hzip : (openZip 8 (.ofBytes storedZip)).map (Option.map fun z =>
      (extractContainer (zipContainer noCodec 8) (lit "out") 8 z freshOS).2.2.log) =
      some (some [.write [lit "w", lit "out", lit "lib", lit "x"],
        .chmod [lit "w", lit "out", lit "lib", lit "x"],
        .create [lit "w", lit "out", lit "lib", lit "x"],
        .mkdir [lit "w", lit "out", lit "lib"], .mkdir [lit "w", lit "out"]]) := by decide +kernel
  simp only [Option.map_eq_some_iff] at hzip
  obtain ⟨_, hopen, z, rfl, hlog⟩ := hzip
  exact ⟨freshOS_fresh, by decide +kernel, h.1 readBuffer _, z, hopen, hlog, h.2 noCodec 8 _ z hopen⟩

end ToolchainTools
