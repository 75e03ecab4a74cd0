import ToolchainTools.Download.Placing

/-!
# Members of a tar archive and what they leave in the tree

A regular file makes the directories on its way, a link does not, so a link can only be made
behind a regular file in or below its directory (`Makeable`). `laid` says what the tree holds
after a number of members have been made, and forgets their order (`laid_congr`).
-/


namespace ToolchainTools

open CLib Posix Streams

variable {σ : Type} {read : Reader σ}

/-! ## Members and archives -/

/-- A regular file or a link that the header readers accept. -/
structure TarEntry where
  header : Bytes
  content : Bytes
  padding : Bytes
  path : Bytes
  target : Option Bytes
  header_length : header.length = tarBlockSize
  name : cleanTarName header = some path
  file : target = none → tarTypeflag header = regType ∧ headerSize header = content.length ∧
    padding.length = tarPadding content.length
  link : ∀ lnk, target = some lnk →
    (tarTypeflag header = lnkType ∨ tarTypeflag header = symType) ∧
      cleanTarLinkname header = some lnk ∧ content = [] ∧ padding = []

/-- The bytes of an archive of such members. -/
def encodeEntries (ms : List TarEntry) (zeros : Nat) : Bytes :=
  ms.flatMap (fun m => m.header ++ (m.content ++ m.padding)) ++
    List.replicate (tarBlockSize * zeros) 0

/-- The bytes are an archive of the members `ms`. Between them stands what is stepped over: the
headers of directories and of members of other typeflags, whose bodies nothing takes for headers. -/
inductive Encodes : List TarEntry → Bytes → Prop
  | zeros (n : Nat) : Encodes [] (List.replicate (tarBlockSize * n) 0)
  | entry (m : TarEntry) {ms : List TarEntry} {tail : Bytes} (htail : Encodes ms tail) :
      Encodes (m :: ms) (m.header ++ (m.content ++ m.padding ++ tail))
  | other (o : TarOther) {ms : List TarEntry} {tail : Bytes}
      (hinert : InertBody (o.content ++ o.padding)) (htail : Encodes ms tail) :
      Encodes ms (o.header ++ (o.content ++ o.padding ++ tail))

theorem encodes_encodeEntries (ms : List TarEntry) (zeros : Nat) :
    Encodes ms (encodeEntries ms zeros) := by
  induction ms with
  | nil => exact .zeros zeros
  | cons m ms ih =>
    have hcons : encodeEntries (m :: ms) zeros =
        m.header ++ (m.content ++ m.padding ++ encodeEntries ms zeros) := by
      simp [encodeEntries, List.append_assoc]
    rw [hcons]
    exact .entry m ih

/-- The names of a path without the empty ones and the dots. -/
def normalPath (path : Bytes) : Loc := lexical [] (components path)

/-- Neither path is the other one or a directory on the way to it. -/
def Unnested (a b : TarEntry) : Prop :=
  ¬ normalPath a.path <+: normalPath b.path ∧ ¬ normalPath b.path <+: normalPath a.path

namespace TarEntry

def mode (m : TarEntry) : Int := toInt32 (strtoll (cstr (tarMode m.header)) 8)

def node (m : TarEntry) : Node :=
  match m.target with
  | none => .file m.content (OS.modeBits m.mode)
  | some lnk => .link lnk

def comps (dir : Bytes) (m : TarEntry) : List Name := components (joinPath dir m.path)

/-- Where the member is put when `dir` is looked up from `start`. -/
def place (start : Loc) (dir : Bytes) (m : TarEntry) : Loc := lexical start (m.comps dir)

/-- The directories that lead there. -/
def dirs (start : Loc) (dir : Bytes) (m : TarEntry) : List Loc := way start (m.comps dir)

end TarEntry

/-- The directories that the regular files among the members make. -/
def dirsMade (start : Loc) (dir : Bytes) (ms : List TarEntry) : List Loc :=
  (ms.filter fun m => m.target.isNone).flatMap (TarEntry.dirs start dir)

/-- The member can be made behind the members `before`: its path does not end at a directory,
and the directory of a link has been made for a regular file. -/
def Makeable (start : Loc) (dir : Bytes) (before : List TarEntry) (m : TarEntry) : Prop :=
  m.place start dir ∉ m.dirs start dir ∧
    (m.target = none ∨ (m.place start dir).dropLast ∈ dirsMade start dir before)

/-- Every member can be made behind those before it. -/
def RunsThrough (start : Loc) (dir : Bytes) (ms : List TarEntry) : Prop :=
  ∀ before m rest, ms = before ++ m :: rest → Makeable start dir before m

/-- The first member that cannot be made is `m`, behind the members `before`. -/
def StopsBehind (start : Loc) (dir : Bytes) (ms before : List TarEntry) (m : TarEntry) : Prop :=
  (∃ rest, ms = before ++ m :: rest) ∧ RunsThrough start dir before ∧
    ¬ Makeable start dir before m

/-- What the tree holds when the directories `dirs` and the members `ms` have been made. -/
def laid (start : Loc) (dir : Bytes) (base : Loc → Option Node) (dirs : List Loc)
    (ms : List TarEntry) (l : Loc) : Option Node :=
  if l ∈ dirs then some .dir
  else
    match ms.find? fun m => m.place start dir = l with
    | some m => some m.node
    | none => base l

/-! ## Places -/

theorem lexical_of_no_dotdot {cs : List Name} (h : dotdot ∉ cs) (cur : Loc) :
    lexical cur cs = cur ++ lexical [] cs := by
  induction cs generalizing cur with
  | nil => simp [lexical]
  | cons c cs ih =>
    simp only [List.mem_cons, not_or] at h
    simp only [lexical, Ne.symm h.1, if_false]
    split
    · exact ih h.2 cur
    · rw [ih h.2, ih h.2 ([] ++ [c]), List.nil_append, List.append_assoc]

theorem TarEntry.safe (m : TarEntry) : SafePath m.path := safePath_of_cleanTarName m.name

section Places

variable {start : Loc} {dir : Bytes} {a b m : TarEntry} {before ms : List TarEntry}

theorem TarEntry.place_eq (start : Loc) (dir : Bytes) (m : TarEntry) :
    m.place start dir = lexical start (components dir) ++ normalPath m.path := by
  unfold place comps joinPath
  rw [components_append, lexical_append, lexical_of_no_dotdot m.safe.no_dotdot, normalPath]

/-- A directory on the way to a member leads to `dir`, or lies below it on the way to the
member. -/
theorem TarEntry.mem_dirs {l : Loc} :
    l ∈ m.dirs start dir ↔ l ∈ way start (components dir) ∨
      l ∈ way (lexical start (components dir)) (components m.path) := by
  unfold dirs comps joinPath
  rw [components_append, way_append, List.mem_append]

/-- A directory on the way from `dir` to a member. -/
theorem TarEntry.below_of_mem {l : Loc}
    (h : l ∈ way (lexical start (components dir)) (components m.path)) :
    lexical start (components dir) <+: l ∧ l <+: m.place start dir := by
  obtain ⟨k, -, rfl⟩ := mem_way.mp h
  have hno := m.safe.no_dotdot
  have htake : dotdot ∉ (components m.path).take k := fun hmem => hno (List.mem_of_mem_take hmem)
  have hdrop : dotdot ∉ (components m.path).drop k := fun hmem => hno (List.mem_of_mem_drop hmem)
  refine ⟨lexical_below List.prefix_rfl htake, ?_⟩
  rw [m.place_eq, normalPath, ← lexical_of_no_dotdot hno]
  conv_rhs => rw [← List.take_append_drop k (components m.path), lexical_append]
  exact lexical_below List.prefix_rfl hdrop

theorem TarEntry.dir_mem (m : TarEntry) :
    lexical start (components dir) ∈ m.dirs start dir := by
  unfold dirs comps joinPath
  rw [components_append]
  exact way_of_append (components_ne_nil m.path)

theorem Unnested.place_ne (h : Unnested a b) : a.place start dir ≠ b.place start dir := by
  intro he
  rw [a.place_eq, b.place_eq] at he
  exact h.1 (List.append_cancel_left he ▸ List.prefix_rfl)

/-- No member lies on the way to another one. -/
theorem Unnested.not_mem_dirs (h : Unnested a b) (ha : a.place start dir ∉ a.dirs start dir) :
    a.place start dir ∉ b.dirs start dir := by
  intro hmem
  rcases TarEntry.mem_dirs.mp hmem with hl | hl
  · exact ha (TarEntry.mem_dirs.mpr (Or.inl hl))
  · have hpre := (TarEntry.below_of_mem hl).2
    rw [a.place_eq, b.place_eq] at hpre
    exact h.1 ((List.prefix_append_right_inj _).mp hpre)

theorem mem_dirsMade {l : Loc} :
    l ∈ dirsMade start dir ms ↔ ∃ m ∈ ms, m.target = none ∧ l ∈ m.dirs start dir := by
  unfold dirsMade
  simp only [List.mem_flatMap, List.mem_filter, Option.isNone_iff_eq_none]
  constructor
  · rintro ⟨m, ⟨hm, ht⟩, hl⟩
    exact ⟨m, hm, ht, hl⟩
  · rintro ⟨m, hm, ht, hl⟩
    exact ⟨m, ⟨hm, ht⟩, hl⟩

theorem dirsMade_concat (ms : List TarEntry) (m : TarEntry) :
    dirsMade start dir (ms ++ [m]) =
      dirsMade start dir ms ++ if m.target = none then m.dirs start dir else [] := by
  unfold dirsMade
  rw [List.filter_append, List.flatMap_append]
  congr 1
  cases h : m.target <;> simp [h]

theorem not_mem_dirsMade (hm : m.place start dir ∉ m.dirs start dir)
    (hapart : ∀ a ∈ before, Unnested a m) : m.place start dir ∉ dirsMade start dir before := by
  intro hmem
  obtain ⟨a, ha, -, hl⟩ := mem_dirsMade.mp hmem
  obtain ⟨h1, h2⟩ := hapart a ha
  exact Unnested.not_mem_dirs ⟨h2, h1⟩ hm hl

end Places

/-! ## What the tree holds -/

/-- The tree before the extraction: `dir` is missing, and what exists on the way there are
directories. -/
structure Bare (start : Loc) (dir : Bytes) (base : Loc → Option Node) : Prop where
  clear : ∀ l ∈ way start (components dir), base l = none ∨ base l = some .dir
  below : ∀ l, lexical start (components dir) <+: l → base l = none

section Laid

variable {start : Loc} {dir : Bytes} {base : Loc → Option Node} {dirs : List Loc}
  {before ms : List TarEntry} {m : TarEntry} {l : Loc}

theorem laid_dir (h : l ∈ dirs) : laid start dir base dirs ms l = some .dir := if_pos h

theorem TarEntry.node_ne_dir (m : TarEntry) : m.node ≠ .dir := by
  unfold node
  split <;> simp

/-- A directory is one that has been made or was there before. -/
theorem laid_eq_dir (h : laid start dir base dirs ms l = some .dir) :
    l ∈ dirs ∨ base l = some .dir := by
  unfold laid at h
  split at h
  · rename_i hl
    exact Or.inl hl
  · split at h
    · rename_i a _
      exact absurd (Option.some.inj h) a.node_ne_dir
    · exact Or.inr h

/-- Where no member is put and no directory made, nothing has changed. -/
theorem laid_base (hdirs : l ∉ dirs) (hplaces : ∀ a ∈ ms, a.place start dir ≠ l) :
    laid start dir base dirs ms l = base l := by
  unfold laid
  rw [if_neg hdirs, List.find?_eq_none.mpr fun a ha => by simpa using hplaces a ha]

/-- A place that holds a member's node is the place of a member with that node. -/
theorem laid_node {node : Node} (h : laid start dir base dirs ms l = some node)
    (hne : node ≠ .dir) :
    l ∉ dirs ∧ ((∃ a ∈ ms, a.place start dir = l ∧ a.node = node) ∨ base l = some node) := by
  unfold laid at h
  split at h
  · exact absurd (Option.some.inj h).symm hne
  · rename_i hl
    refine ⟨hl, ?_⟩
    split at h
    · rename_i a ha
      refine Or.inl ⟨a, List.mem_of_find?_eq_some ha, ?_, Option.some.inj h⟩
      simpa using List.find?_some ha
    · exact Or.inr h

/-- Each member stands at its own place. -/
theorem laid_place (hm : m ∈ ms) (hdirs : m.place start dir ∉ dirs)
    (hinj : ∀ a ∈ ms, a.place start dir = m.place start dir → a = m) :
    laid start dir base dirs ms (m.place start dir) = some m.node := by
  unfold laid
  rw [if_neg hdirs]
  cases hfind : ms.find? fun a => a.place start dir = m.place start dir with
  | none =>
    have := List.find?_eq_none.mp hfind m hm
    simp at this
  | some a =>
    have hplace : a.place start dir = m.place start dir := by
      simpa using List.find?_some hfind
    rw [hinj a (List.mem_of_find?_eq_some hfind) hplace]

/-- The order of the members and of the directories is forgotten. -/
theorem laid_congr {dirs' : List Loc} {ms' : List TarEntry} (hdirs : ∀ l, l ∈ dirs ↔ l ∈ dirs')
    (hms : ∀ m, m ∈ ms ↔ m ∈ ms')
    (hinj : ∀ a ∈ ms, ∀ b ∈ ms, a.place start dir = b.place start dir → a = b) (l : Loc) :
    laid start dir base dirs ms l = laid start dir base dirs' ms' l := by
  by_cases hl : l ∈ dirs
  · rw [laid_dir hl, laid_dir ((hdirs l).mp hl)]
  · have hl' : l ∉ dirs' := fun h => hl ((hdirs l).mpr h)
    by_cases hplace : ∃ a ∈ ms, a.place start dir = l
    · obtain ⟨a, ha, rfl⟩ := hplace
      rw [laid_place ha hl fun b hb => hinj b hb a ha,
        laid_place ((hms a).mp ha) hl' fun b hb => hinj b ((hms b).mpr hb) a ha]
    · have hnone : ∀ a ∈ ms, a.place start dir ≠ l := fun a ha h => hplace ⟨a, ha, h⟩
      rw [laid_base hl hnone, laid_base hl' fun a ha => hnone a ((hms a).mpr ha)]

/-- The members before are made, and `m` is the next one. -/
structure Next (start : Loc) (dir : Bytes) (before : List TarEntry) (m : TarEntry) : Prop where
  free : ∀ a ∈ before, a.place start dir ∉ a.dirs start dir
  unnested : ∀ a ∈ before, Unnested a m

theorem Next.clear (hb : Bare start dir base) (h : Next start dir before m) :
    Clear (laid start dir base (dirsMade start dir before) before) start (m.comps dir) := by
  intro l hl
  by_cases hmade : l ∈ dirsMade start dir before
  · exact Or.inr (laid_dir hmade)
  · rw [laid_base hmade]
    · rcases TarEntry.mem_dirs.mp hl with hl | hl
      · exact hb.clear l hl
      · exact Or.inl (hb.below l (TarEntry.below_of_mem hl).1)
    · rintro a ha rfl
      exact (h.unnested a ha).not_mem_dirs (h.free a ha) hl

/-- Nothing is at the place of the next member. -/
theorem Next.missing (hb : Bare start dir base) (h : Next start dir before m)
    (hm : m.place start dir ∉ m.dirs start dir) :
    laid start dir base (dirsMade start dir before) before (m.place start dir) = none := by
  rw [laid_base (not_mem_dirsMade hm h.unnested)
    fun a ha => (h.unnested a ha).place_ne]
  exact hb.below _ (by rw [m.place_eq]; exact List.prefix_append _ _)

/-- The next member at its place. -/
theorem Next.laid_concat (h : Next start dir before m)
    (hm : m.place start dir ∉ m.dirs start dir) (l : Loc) :
    laid start dir base (dirsMade start dir (before ++ [m])) (before ++ [m]) l =
      if l = m.place start dir then some m.node
      else laid start dir base (dirsMade start dir (before ++ [m])) before l := by
  have hout : m.place start dir ∉ dirsMade start dir (before ++ [m]) := by
    rw [dirsMade_concat, List.mem_append, not_or]
    refine ⟨not_mem_dirsMade hm h.unnested, ?_⟩
    split
    · exact hm
    · simp
  split
  · rename_i hl
    subst hl
    refine laid_place (by simp) hout ?_
    intro a ha heq
    rcases List.mem_append.mp ha with ha | ha
    · exact absurd heq (h.unnested a ha).place_ne
    · exact List.mem_singleton.mp ha
  · rename_i hl
    unfold laid
    rw [List.find?_append]
    have hlast : [m].find? (fun a => decide (a.place start dir = l)) = none := by
      simpa using fun h => hl h.symm
    rw [hlast, Option.or_none]

/-- A regular file paves its way. -/
theorem paving_laid (hfile : m.target = none) (l : Loc) :
    paving (laid start dir base (dirsMade start dir before) before) start (m.comps dir) l =
      laid start dir base (dirsMade start dir (before ++ [m])) before l := by
  unfold paving
  rw [dirsMade_concat, if_pos hfile]
  by_cases hl : l ∈ m.dirs start dir
  · rw [if_pos (show l ∈ way start (m.comps dir) from hl), laid_dir (List.mem_append_right _ hl)]
  · rw [if_neg (show l ∉ way start (m.comps dir) from hl)]
    have hmem : l ∈ dirsMade start dir before ++ m.dirs start dir ↔
        l ∈ dirsMade start dir before := by
      rw [List.mem_append, or_iff_left hl]
    unfold laid
    simp only [hmem]

/-- A link makes no directory. -/
theorem laid_link (hlink : m.target ≠ none) :
    laid start dir base (dirsMade start dir (before ++ [m])) before =
      laid start dir base (dirsMade start dir before) before := by
  rw [dirsMade_concat, if_neg hlink, List.append_nil]

end Laid

/-! ## Where an order stops -/

section Stops

variable {start : Loc} {dir : Bytes} {before before' ms : List TarEntry} {m m' : TarEntry}

theorem RunsThrough.initial (h : RunsThrough start dir (before ++ ms)) :
    RunsThrough start dir before := by
  rintro front a rest rfl
  exact h front a (rest ++ ms) (by simp)

theorem RunsThrough.concat (h : RunsThrough start dir before) (hm : Makeable start dir before m) :
    RunsThrough start dir (before ++ [m]) := by
  intro front a rest heq
  rcases List.eq_nil_or_concat rest with rfl | ⟨rest, last, rfl⟩
  · obtain ⟨rfl, hlast⟩ := List.append_inj' heq rfl
    cases hlast
    exact hm
  · rw [List.concat_eq_append, ← List.cons_append, ← List.append_assoc] at heq
    obtain ⟨rfl, -⟩ := List.append_inj' heq rfl
    exact h front a rest rfl

theorem RunsThrough.free (h : RunsThrough start dir before) :
    ∀ a ∈ before, a.place start dir ∉ a.dirs start dir := by
  intro a ha
  obtain ⟨front, rest, rfl⟩ := List.append_of_mem ha
  exact (h front a rest rfl).1

/-- An order that stops does not run through. -/
theorem StopsBehind.not_runsThrough (h : StopsBehind start dir ms before m) :
    ¬ RunsThrough start dir ms := by
  obtain ⟨⟨rest, rfl⟩, -, hnot⟩ := h
  exact fun hrun => hnot (hrun before m rest rfl)

/-- There is one place where an order stops. -/
theorem StopsBehind.unique (h : StopsBehind start dir ms before m)
    (h' : StopsBehind start dir ms before' m') : before = before' ∧ m = m' := by
  obtain ⟨⟨rest, rfl⟩, hrun, hnot⟩ := h
  obtain ⟨⟨rest', heq⟩, hrun', hnot'⟩ := h'
  rcases List.append_eq_append_iff.mp heq with ⟨mid, hmid, htail⟩ | ⟨mid, hmid, htail⟩
  · cases mid with
    | nil =>
      rw [List.nil_append] at htail
      cases htail
      exact ⟨by rw [hmid, List.append_nil], rfl⟩
    | cons a mid =>
      cases htail
      exact absurd (hrun' before m mid hmid) hnot
  · cases mid with
    | nil =>
      rw [List.nil_append] at htail
      cases htail
      exact ⟨by rw [hmid, List.append_nil], rfl⟩
    | cons a mid =>
      cases htail
      exact absurd (hrun before' m' mid hmid) hnot'

end Stops

end ToolchainTools
