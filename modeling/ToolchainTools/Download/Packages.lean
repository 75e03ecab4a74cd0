import ToolchainTools.Download.Arrivals
import ToolchainTools.Download.Order
import ToolchainTools.Stream.XzRuns
import ToolchainTools.Trees.Overlay

/-!
# Packages

What a url stands for is a package: the leaves of a tree, each a regular file or a link. Unpacking
lays these leaves at the path of its line and makes the directories above them, whatever else the
tree holds (`Unpacks`). A file is a package of one leaf, and so is the data in an `.xz` file; an
archive is a package of its members if it runs through.
-/

namespace ToolchainTools

open CLib Posix Streams Trees

/-- The leaves of a tree. -/
abbrev Leaves : Type := List (Loc × Node)

/-- A path below the working directory, without empty names, dots and slashes at its end. -/
def PlainPath (path : Bytes) : Prop := ∀ c ∈ components path, Ordinary c

instance decidablePlainPath (path : Bytes) : Decidable (PlainPath path) :=
  inferInstanceAs (Decidable (∀ c ∈ components path, Ordinary c))

/-! ## Places -/

section Places

variable {start l : Loc} {cs : List Name} {path : Bytes} {os : OS}

/-- The places on a way without `..` are those from its start to its end. -/
theorem mem_way_iff (hno : dotdot ∉ cs) :
    l ∈ way start cs ∨ l = lexical start cs ↔ start <+: l ∧ l <+: lexical start cs := by
  induction cs generalizing start with
  | nil =>
    constructor
    · rintro (hl | rfl)
      · simp [way] at hl
      · exact ⟨List.prefix_rfl, List.prefix_rfl⟩
    · rintro ⟨h1, h2⟩
      exact Or.inr (h2.eq_of_length_le h1.length_le)
  | cons c cs ih =>
    simp only [List.mem_cons, not_or] at hno
    have hbelow : lexical start [c] <+: lexical (lexical start [c]) cs :=
      lexical_below List.prefix_rfl hno.2
    rw [way_cons, lexical_cons start c cs, List.mem_cons, or_assoc, ih hno.2]
    have hstep : lexical start [c] = start ∨ lexical start [c] = start ++ [c] := by
      simp only [lexical, Ne.symm hno.1, if_false]
      split
      · exact Or.inl rfl
      · exact Or.inr rfl
    rcases hstep with heq | heq
    · rw [heq] at hbelow ⊢
      constructor
      · rintro (rfl | hl)
        · exact ⟨List.prefix_rfl, hbelow⟩
        · exact hl
      · exact Or.inr
    · rw [heq] at hbelow ⊢
      constructor
      · rintro (rfl | hl)
        · exact ⟨List.prefix_rfl, (List.prefix_append _ _).trans hbelow⟩
        · exact ⟨(List.prefix_append _ _).trans hl.1, hl.2⟩
      · rintro ⟨hl, hend⟩
        by_cases hlen : l.length ≤ start.length
        · exact Or.inl (hl.eq_of_length_le hlen).symm
        · refine Or.inr ⟨List.prefix_of_prefix_length_le hbelow hend ?_, hend⟩
          rw [List.length_append, List.length_singleton]
          omega

theorem PlainPath.no_dotdot (h : PlainPath path) : dotdot ∉ components path :=
  fun hmem => (h _ hmem).2.2.1 rfl

theorem PlainPath.ne_nil (h : PlainPath path) : path ≠ [] := by
  rintro rfl
  exact (h [] (by simp [components])).1 rfl

theorem PlainPath.startOf (h : PlainPath path) (cur : Loc) : startOf cur path = cur := by
  have hhead : path.head? ≠ some slash := by
    intro hhead
    obtain ⟨rest, rfl⟩ : ∃ rest, path = slash :: rest := by
      cases path with
      | nil => cases hhead
      | cons b rest =>
        cases hhead
        exact ⟨rest, rfl⟩
    exact (h [] (by simp [components])).1 rfl
  unfold Posix.startOf
  rw [if_neg hhead]

theorem lexical_ordinary {cs : List Name} (h : ∀ c ∈ cs, Ordinary c) (cur : Loc) :
    lexical cur cs = cur ++ cs := by
  induction cs generalizing cur with
  | nil => simp [lexical]
  | cons c cs ih =>
    obtain ⟨hne, hdot, hdotdot, -⟩ := h c List.mem_cons_self
    simp only [lexical, hne, hdot, hdotdot, or_self, if_false]
    rw [ih (fun d hd => h d (List.mem_cons_of_mem _ hd)), List.append_assoc, List.singleton_append]

/-- The place of a path of a line. -/
theorem PlainPath.place (h : PlainPath path) (cur : Loc) :
    dirLoc cur path = cur ++ components path := by
  unfold dirLoc
  rw [h.startOf, lexical_ordinary h]

/-- What is put at the end of a way is a leaf that is laid over the tree. -/
theorem putting_overlay {fs : FS} {node : Node} (hno : dotdot ∉ cs) (hdir : fs.get start = some .dir) :
    putting fs.get start cs node = overlay .dir fs.get [(lexical start cs, node)] := by
  have hend : start <+: lexical start cs := lexical_below List.prefix_rfl hno
  funext l
  rw [overlay_singleton, putting]
  by_cases hl : l = lexical start cs
  · rw [if_pos hl, hl, Function.update_self]
  · rw [if_neg hl, Function.update_of_ne hl, paving]
    by_cases hway : l ∈ way start cs
    · rw [if_pos hway, if_pos ((mem_way_iff hno).mp (Or.inl hway)).2]
    · rw [if_neg hway]
      split
      · rename_i hpre
        -- a place above the start
        rcases List.prefix_or_prefix_of_prefix hpre hend with hup | hdown
        · exact get_dir_of_prefix hdir hup
        · rcases (mem_way_iff hno).mpr ⟨hdown, hpre⟩ with hmem | heq
          · exact absurd hmem hway
          · exact absurd heq hl
      · rfl

end Places

/-! ## Single files -/

section File

variable {σ : Type} {read : Reader σ} {rest dir file : Bytes} {os : OS}

/-- A feed is extracted whole to a path whose place is free. -/
theorem extractPath_feed (F : Feed read) {s : σ} (h : F.ahead rest s) (hlent : F.lent s = 0)
    {fuel : Nat} (mode : Int) (hfuel : rest.length < fuel) (hquiet : Posix.Quiet os)
    (hdir : os.fs.get (startOf os.cwd (joinPath dir file)) = some .dir)
    (hclear : Clear os.fs.get (startOf os.cwd (joinPath dir file)) (components (joinPath dir file)))
    (hout : lexical (startOf os.cwd (joinPath dir file)) (components (joinPath dir file)) ∉
      way (startOf os.cwd (joinPath dir file)) (components (joinPath dir file)))
    (hfree : os.fs.get (lexical (startOf os.cwd (joinPath dir file))
      (components (joinPath dir file))) = none) :
    ∃ r, extractPath read fuel s dir file mode os = r ∧ r.code = some 0 ∧
      Becomes os (putting os.fs.get (startOf os.cwd (joinPath dir file))
        (components (joinPath dir file)) (.file rest (OS.modeBits mode))) r.os := by
  have hmade := makeDirectory_way hquiet rfl hdir hclear
  have hpaved := paved_of_paving hmade
  generalize hos1 : makeDirectory os (joinPath dir file) = os1 at hmade hpaved
  have hquiet1 := hquiet.of_goes hmade.goes
  have hmiss : os1.fs.get (lexical (startOf os.cwd (joinPath dir file))
      (components (joinPath dir file))) = none := by
    rw [hmade.get, paving, if_neg hout, hfree]
  have hstart : startOf os1.cwd (joinPath dir file) = startOf os.cwd (joinPath dir file) := by
    rw [hmade.goes.cwd]
  have hopened := (fopenWrite_way hquiet1 (joinPath_ne_nil dir file) (by rwa [hstart])).1
    (by rwa [hstart])
  rw [hstart] at hopened
  obtain ⟨os2, hopen, hcreated⟩ := hopened
  generalize hcs : components (joinPath dir file) = cs at *
  generalize hst : startOf os.cwd (joinPath dir file) = start at *
  have hfile2 : os2.fs.get (lexical start cs) = some (.file [] OS.createMode) := by
    rw [hcreated.get, Function.update_self]
  have hquiet2 := hquiet1.of_goes hcreated.goes
  have hmode := fchmod_file hquiet2 hfile2 mode
  generalize hos3 : os2.fchmod (lexical start cs) mode = os3 at hmode
  have hfile3 : os3.fs.get (lexical start cs) = some (.file [] (OS.modeBits mode)) := by
    rw [hmode.get, Function.update_self]
  obtain ⟨r, hr, hcode, hwritten⟩ :=
    extractFile_feed F h hlent hfuel (hquiet2.of_goes hmode.goes) hfile3
  obtain ⟨hgoes, hframe⟩ := extractFileLoop_frame read (lexical start cs) fuel 0 s os3 false
  rw [show extractFileLoop read (lexical start cs) fuel 0 s os3 false = r from hr] at hgoes hframe
  refine ⟨r, ?_, hcode, ((hmade.goes.trans hcreated.goes).trans hmode.goes).trans hgoes, fun l => ?_⟩
  · unfold extractPath openPath
    simp only [hos1, hopen, hos3, hr]
  · unfold putting
    by_cases hl : l = lexical start cs
    · rw [hl, Function.update_self]
      exact hwritten
    · rw [Function.update_of_ne hl, hframe l hl, hmode.get, Function.update_of_ne hl,
        hcreated.get, Function.update_of_ne hl, hmade.get]

end File

/-! ## Unpacking -/

/-- The place `L` is free, and nothing but directories is above it. -/
structure Site (fs : FS) (L : Loc) : Prop where
  free : fs.get L = none
  above : ∀ l, l <+: L → fs.get l = none ∨ fs.get l = some .dir

section Unpack

variable {ζ ξ σ : Type} {env : Env ζ ξ} {read : Reader σ} {path url content : Bytes} {os os' : OS}
  {leaves : Leaves}

/-- The file `content` from `url` is unpacked to exactly these leaves, at whatever path. -/
def Unpacks (env : Env ζ ξ) (url content : Bytes) (leaves : Leaves) : Prop :=
  ∀ os path, Posix.Quiet os → PlainPath path → os.fs.get os.cwd = some .dir →
    Site os.fs (os.cwd ++ components path) →
    ∃ os', unpack env os path url (.ofBytes content) = (.next, os') ∧
      Becomes os (overlay .dir os.fs.get (shift (os.cwd ++ components path) leaves)) os'

theorem Site.clear {start : Loc} {cs : List Name} (h : Site os.fs (lexical start cs))
    (hno : dotdot ∉ cs) : Clear os.fs.get start cs :=
  fun _ hl => h.above _ ((mem_way_iff hno).mp (Or.inl hl)).2

theorem Site.fresh (h : Site os.fs (os.cwd ++ components path)) (hpath : PlainPath path)
    (hcwd : os.fs.get os.cwd = some .dir) : Fresh os path := by
  refine ⟨hcwd, by rw [hpath.place]; exact h.free, fun k => ?_⟩
  rw [hpath.startOf, lexical_ordinary fun c hc => hpath c (List.mem_of_mem_take hc)]
  exact h.above _ ((List.prefix_append_right_inj _).mpr (List.take_prefix k _))

/-- The end of a plain path is not on its way. -/
theorem PlainPath.not_mem_way (h : PlainPath path) (cur : Loc) :
    cur ++ components path ∉ way cur (components path) := by
  intro hmem
  obtain ⟨k, hk, heq⟩ := mem_way.mp hmem
  rw [lexical_ordinary fun c hc => h c (List.mem_of_mem_take hc), List.append_cancel_left_eq] at heq
  have := congrArg List.length heq
  rw [List.length_take] at this
  omega

/-- A stream that is not an archive becomes one file. -/
theorem unpackStream_feed (F : Feed read) {s : σ} (h : F.ahead content s) (hlent : F.lent s = 0)
    {fuel : Nat} (hfuel : content.length < fuel) (hquiet : Posix.Quiet os) (hpath : PlainPath path)
    (hcwd : os.fs.get os.cwd = some .dir) (hsite : Site os.fs (os.cwd ++ components path)) :
    ∃ os', unpackStream read path fuel s os = (.next, os') ∧
      Becomes os (overlay .dir os.fs.get
        (shift (os.cwd ++ components path) [([], .file content 0o644)])) os' := by
  have hcomps : components (joinPath (lit ".") path) = dot :: components path :=
    components_append (lit ".") path
  have hstart : startOf os.cwd (joinPath (lit ".") path) = os.cwd := rfl
  have hno : dotdot ∉ dot :: components path := by
    simp only [List.mem_cons, not_or]
    exact ⟨by decide, hpath.no_dotdot⟩
  have hplace : lexical os.cwd (dot :: components path) = os.cwd ++ components path := by
    rw [lexical_cons, ← lexical_ordinary hpath]
    rfl
  have hway : way os.cwd (dot :: components path) = os.cwd :: way os.cwd (components path) :=
    way_cons ..
  have hne : os.cwd ++ components path ≠ os.cwd := by simp [components_ne_nil]
  obtain ⟨r, hr, hcode, hbecomes⟩ := @extractPath_feed σ read content (lit ".") path os F s h hlent
    fuel 0o644 hfuel hquiet (by rw [hstart]; exact hcwd)
    (by rw [hstart, hcomps]; exact Site.clear (by rw [hplace]; exact hsite) hno)
    (by
      rw [hstart, hcomps, hplace, hway, List.mem_cons, not_or]
      exact ⟨hne, hpath.not_mem_way os.cwd⟩)
    (by rw [hstart, hcomps, hplace]; exact hsite.free)
  refine ⟨r.os, ?_, ?_⟩
  · unfold unpackStream
    dsimp only
    rw [hr, hcode]
    rfl
  · rw [hstart, hcomps, putting_overlay hno hcwd, hplace] at hbecomes
    rw [shift, List.map_singleton, List.append_nil]
    exact hbecomes

end Unpack

/-! ## Archives -/

/-- The leaves that the members of an archive become. -/
def tarLeaves (ms : List TarEntry) : Leaves := ms.map fun m => (normalPath m.path, m.node)

/-- An archive whose members can all be made in this order: no path ends at a directory, and each
link comes behind a regular file in or below the directory of the link. -/
def InOrder (ms : List TarEntry) : Prop :=
  ∀ before m rest, ms = before ++ m :: rest →
    normalPath m.path ∉ way [] (components m.path) ∧
      (m.target = none ∨ ∃ f ∈ before, f.target = none ∧
        (normalPath m.path).dropLast <+: normalPath f.path ∧
        (normalPath m.path).dropLast ≠ normalPath f.path)

section Tar

variable {start l : Loc} {dir : Bytes} {m : TarEntry} {ms : List TarEntry} {fs : FS}

theorem mem_way_append {cur : Loc} {cs : List Name} (hno : dotdot ∉ cs) :
    cur ++ l ∈ way cur cs ↔ l ∈ way [] cs := by
  rw [mem_way, mem_way]
  refine exists_congr fun k => and_congr_right fun _ => ?_
  rw [lexical_of_no_dotdot fun hmem => hno (List.mem_of_mem_take hmem), List.append_cancel_left_eq]

theorem normalPath_ne_nil (h : normalPath m.path ∉ way [] (components m.path)) :
    normalPath m.path ≠ [] := by
  intro hnil
  apply h
  obtain ⟨c, cs, hcs⟩ := List.exists_cons_of_ne_nil (components_ne_nil m.path)
  rw [hnil, hcs, way_cons]
  exact List.mem_cons_self

/-- Such an archive runs through in every directory. -/
theorem InOrder.runsThrough (h : InOrder ms) (hdir : PlainPath dir) :
    RunsThrough start dir ms := by
  intro before m rest hsplit
  obtain ⟨hout, hlink⟩ := h before m rest hsplit
  have hend := lexical_ordinary hdir start
  refine ⟨fun hmem => ?_, hlink.imp_right ?_⟩
  · rw [m.place_eq] at hmem
    rcases TarEntry.mem_dirs.mp hmem with hup | hdown
    · -- the ways to the directory are shorter
      have hpre := ((mem_way_iff hdir.no_dotdot).mp (Or.inl hup)).2
      have heq := (List.prefix_append (lexical start (components dir)) (normalPath m.path)).eq_of_length_le
        hpre.length_le
      rw [← heq, hend] at hup
      exact hdir.not_mem_way start hup
    · exact hout ((mem_way_append m.safe.no_dotdot).mp hdown)
  · rintro ⟨f, hf, htarget, hpre, hne⟩
    rw [mem_dirsMade]
    refine ⟨f, hf, htarget, TarEntry.mem_dirs.mpr (Or.inr ?_)⟩
    rw [m.place_eq, List.dropLast_append_of_ne_nil (normalPath_ne_nil hout),
      mem_way_append f.safe.no_dotdot]
    exact ((mem_way_iff f.safe.no_dotdot).mpr ⟨List.nil_prefix, hpre⟩).resolve_right hne

/-- The places of two members are unrelated. -/
theorem place_unrelated {a b : TarEntry} (h : Unnested a b) :
    Unrelated (a.place start dir) (b.place start dir) := by
  rw [a.place_eq, b.place_eq]
  constructor
  · exact fun hpre => h.1 ((List.prefix_append_right_inj _).mp hpre)
  · exact fun hpre => h.2 ((List.prefix_append_right_inj _).mp hpre)

theorem TarEntry.prefix_of_mem_dirs (hno : dotdot ∉ components dir) (h : l ∈ m.dirs start dir) :
    l <+: m.place start dir := by
  rcases TarEntry.mem_dirs.mp h with hup | hdown
  · rw [m.place_eq]
    exact ((mem_way_iff hno).mp (Or.inl hup)).2.trans (List.prefix_append _ _)
  · exact (TarEntry.below_of_mem hdown).2

/-- A directory that is made is above a member. -/
theorem above_of_dirsMade (hrun : RunsThrough start dir ms) (hno : dotdot ∉ components dir)
    (h : l ∈ dirsMade start dir ms) : ∃ m ∈ ms, l <+: m.place start dir ∧ l ≠ m.place start dir := by
  obtain ⟨f, hf, -, hway⟩ := mem_dirsMade.mp h
  exact ⟨f, hf, TarEntry.prefix_of_mem_dirs hno hway, fun heq => hrun.free f hf (heq ▸ hway)⟩

/-- What is above a member has been made, unless it is above the start. -/
theorem dirsMade_of_above (hrun : RunsThrough start dir ms) (hno : dotdot ∉ components dir)
    (hm : m ∈ ms) (hl : start <+: l) (hpre : l <+: m.place start dir)
    (hne : l ≠ m.place start dir) : l ∈ dirsMade start dir ms := by
  have hmade : ∀ f ∈ ms, f.target = none → l <+: f.place start dir → l ≠ f.place start dir →
      l ∈ dirsMade start dir ms := by
    intro f hf htarget hpre hne
    have hnof : dotdot ∉ f.comps dir := by
      unfold TarEntry.comps joinPath
      rw [components_append, List.mem_append, not_or]
      exact ⟨hno, f.safe.no_dotdot⟩
    exact mem_dirsMade.mpr ⟨f, hf, htarget, ((mem_way_iff hnof).mpr ⟨hl, hpre⟩).resolve_right hne⟩
  by_cases htarget : m.target = none
  · exact hmade m hm htarget hpre hne
  · -- a link is below a directory that has been made for a regular file
    obtain ⟨before, rest, hsplit⟩ := List.append_of_mem hm
    obtain ⟨f, hf, hfile, hparent⟩ :=
      mem_dirsMade.mp ((hrun before m rest hsplit).2.resolve_left htarget)
    have hfm : f ∈ ms := by
      rw [hsplit]
      exact List.mem_append_left _ hf
    have hup : l <+: (m.place start dir).dropLast := by
      obtain ⟨tail, htail⟩ := hpre
      have htne : tail ≠ [] := by
        rintro rfl
        exact hne (by rw [← htail, List.append_nil])
      rw [← htail, List.dropLast_append_of_ne_nil htne]
      exact List.prefix_append _ _
    have hbelow := TarEntry.prefix_of_mem_dirs hno hparent
    refine hmade f hfm hfile (hup.trans hbelow) fun heq => ?_
    rw [heq] at hup
    rw [hbelow.eq_of_length_le hup.length_le] at hparent
    exact hrun.free f hfm hparent

/-- What an archive that runs through leaves in the tree. -/
theorem laid_overlay (hrun : RunsThrough start dir ms) (hno : dotdot ∉ components dir)
    (hpairs : ms.Pairwise Unnested) (hstart : fs.get start = some .dir) :
    laid start dir fs.get (dirsMade start dir ms) ms =
      overlay .dir fs.get (ms.map fun m => (m.place start dir, m.node)) := by
  have hunrelated : (ms.map fun m => (m.place start dir, m.node)).Pairwise
      fun a b => Unrelated a.1 b.1 :=
    List.pairwise_map.mpr (hpairs.imp fun h => place_unrelated h)
  funext l
  by_cases hhere : ∃ m ∈ ms, m.place start dir = l
  · obtain ⟨m, hm, rfl⟩ := hhere
    rw [laid_place hm (not_mem_dirsMade_of_mem hpairs hm (hrun.free m hm) (List.Subset.refl ms))
      fun a ha => eq_of_place_eq hpairs ha hm]
    exact (overlay_leaf hunrelated (List.mem_map.mpr ⟨m, hm, rfl⟩)).symm
  · have hnone : ∀ a ∈ ms, a.place start dir ≠ l := fun a ha heq => hhere ⟨a, ha, heq⟩
    by_cases habove : ∃ m ∈ ms, l <+: m.place start dir
    · obtain ⟨m, hm, hpre⟩ := habove
      rw [overlay_above ⟨_, List.mem_map.mpr ⟨m, hm, rfl⟩, hpre, (hnone m hm).symm⟩]
      by_cases hmade : l ∈ dirsMade start dir ms
      · exact laid_dir hmade
      · rw [laid_base hmade hnone]
        have hplace : start <+: m.place start dir :=
          lexical_below List.prefix_rfl (by
            unfold TarEntry.comps joinPath
            rw [components_append, List.mem_append, not_or]
            exact ⟨hno, m.safe.no_dotdot⟩)
        rcases List.prefix_or_prefix_of_prefix hpre hplace with hup | hdown
        · exact get_dir_of_prefix hstart hup
        · exact absurd (dirsMade_of_above hrun hno hm hdown hpre (hnone m hm).symm) hmade
    · rw [overlay_base, laid_base]
      · intro hmem
        obtain ⟨m, hm, hpre, -⟩ := above_of_dirsMade hrun hno hmem
        exact habove ⟨m, hm, hpre⟩
      · exact hnone
      · intro e he hpre
        obtain ⟨m, hm, rfl⟩ := List.mem_map.mp he
        exact habove ⟨m, hm, hpre⟩

theorem shift_tarLeaves (start : Loc) (dir : Bytes) (ms : List TarEntry) :
    shift (lexical start (components dir)) (tarLeaves ms) =
      ms.map fun m => (m.place start dir, m.node) := by
  unfold shift tarLeaves
  rw [List.map_map]
  refine List.map_congr_left fun m _ => ?_
  rw [m.place_eq]
  rfl

/-- An archive in order is unpacked to its members. -/
theorem unpackContainer_tar {σ : Type} {read : Reader σ} (C : Contract read) {s : σ}
    (hv : C.valid s) (henc : Encodes ms (C.rest s)) {fuel : Nat}
    (hfuel : (C.rest s).length + 1 < fuel) (hpairs : ms.Pairwise Unnested)
    (hms : InOrder ms) {os : OS} (hquiet : Posix.Quiet os) (hdir : PlainPath dir)
    (hcwd : os.fs.get os.cwd = some .dir) (hsite : Site os.fs (os.cwd ++ components dir)) :
    ∃ os', unpackContainer (tarContainer read) dir fuel (openTar s) os = (.next, os') ∧
      Becomes os (overlay .dir os.fs.get
        (shift (os.cwd ++ components dir) (tarLeaves ms))) os' := by
  have hrun : RunsThrough (startOf os.cwd dir) dir ms := hms.runsThrough hdir
  obtain ⟨⟨code, c, os'⟩, hextract, hend⟩ :=
    (hsite.fresh hdir hcwd).extract hquiet hv henc hfuel hpairs
  rcases hend with ⟨-, hcode, hstage⟩ | ⟨made, m, hstop, -⟩
  · dsimp only at hcode hstage
    subst hcode
    refine ⟨os', ?_, ?_⟩
    · unfold unpackContainer
      rw [hextract]
      rfl
    · have hbecomes := hstage.becomes
      rw [hdir.startOf] at hbecomes hrun
      rw [laid_overlay hrun hdir.no_dotdot hpairs hcwd, ← shift_tarLeaves,
        lexical_ordinary hdir] at hbecomes
      exact hbecomes
  · exact absurd hrun hstop.not_runsThrough

end Tar

end ToolchainTools
