import ToolchainTools.Vcxproj.Lines

/-!
# When a project file is well-formed

The strings of the configuration are printed into the project files without any escaping.
So a file is read as it is meant exactly when every string fits the places where it
stands: the names of the targets between tags and in attributes, the directories and files
in attributes, and all others between tags.
-/

namespace ToolchainTools.Vcxproj

open Xml

/-! ## Fixed names and texts -/

/-- The names of elements and attributes. -/
abbrev names : List Text :=
  [rootName, str "ProjectConfiguration", str "Configuration", str "Platform", str "ItemGroup",
    str "ClCompile", str "ClInclude", str "None", str "PropertyGroup", str "ProjectGuid",
    str "Keyword", str "ProjectName", str "Import", str "ConfigurationType",
    str "UseDebugLibraries", str "PlatformToolset", str "ImportGroup", str "ItemDefinitionGroup",
    str "NMakeOutput", str "NMakePreprocessorDefinitions", str "NMakeBuildCommandLine",
    str "NMakeReBuildCommandLine", str "NMakeCleanCommandLine", str "NMakeIncludeSearchPath",
    str "IntDir", str "SourcePath", str "ExcludePath"]

/-- The attributes that go together. -/
abbrev attrNames : List (List Text) :=
  [[], [str "Include"], [str "Label"], [str "Project"], [str "Condition"],
    [str "Condition", str "Label"], [str "Label", str "Condition"],
    [str "Project", str "Condition", str "Label"],
    [str "DefaultTargets", str "ToolsVersion", str "xmlns"]]

/-- The texts around the strings. -/
abbrev fixedTexts : List Text :=
  [str "|", str "'", str "'$(Configuration)|$(Platform)'=='", str "ProjectConfigurations",
    str "Globals", str "MakeFileProj", str "$(VCTargetsPath)\\Microsoft.Cpp.Default.props",
    str "Configuration", str "Makefile", str "true", str "false", str "v140",
    str "$(VCTargetsPath)\\Microsoft.Cpp.props", str "ExtensionSettings", str "Shared",
    str "PropertySheets", str "$(UserRootDir)\\Microsoft.Cpp.$(Platform).user.props",
    str "exists('$(UserRootDir)\\Microsoft.Cpp.$(Platform).user.props')",
    str "LocalAppDataPlatform", str "UserMacros", str "$(VCTargetsPath)\\Microsoft.Cpp.targets",
    str "ExtensionTargets", str "$(SolutionDir)\\", str " $(SolutionDir) ", str " ",
    str " -t clean ", str "$(ProjectDir)", str ";$(SolutionDir)\\", str ";",
    str "$(SolutionDir)\\obj\\$(Configuration)\\", str "\\", str "..\\", str "-",
    str "\x7b", str "\x7d", str "Build", str "14.0",
    str "http://schemas.microsoft.com/developer/msbuild/2003"]

theorem names_checked :
    (names ++ attrNames.flatten).all (fun n =>
      n.head?.any isNameStart && n.all isNameChar && n.all Ordinary) = true ∧
    attrNames.all (fun ns => decide ns.Nodup) = true ∧
    fixedTexts.all (fun s => s.all Ordinary && decide (s ≠ [])) = true := by
  decide +kernel

theorem clean_of_ordinary {s : Text} (h : s.all Ordinary = true) : Clean s := (fitAttr_fixed h).2

theorem fixedName {n : Text} (h : n ∈ names ++ attrNames.flatten) : IsName n ∧ Clean n := by
  have := List.all_eq_true.mp names_checked.1 n h
  simp only [Bool.and_eq_true] at this
  exact ⟨⟨this.1.1, List.all_eq_true.mp this.1.2⟩, clean_of_ordinary this.2⟩

theorem elementName {n : Text} (h : n ∈ names) : IsName n ∧ Clean n :=
  fixedName (List.mem_append_left _ h)

theorem attrName {attrs : List (Text × Text)} (h : attrs.map Prod.fst ∈ attrNames)
    {a : Text × Text} (ha : a ∈ attrs) : IsName a.1 ∧ Clean a.1 :=
  fixedName (List.mem_append_right _
    (List.mem_flatten.mpr ⟨_, h, List.mem_map.mpr ⟨a, ha, rfl⟩⟩))

theorem attrNodup {attrs : List (Text × Text)} (h : attrs.map Prod.fst ∈ attrNames) :
    (attrs.map Prod.fst).Nodup := by
  have := List.all_eq_true.mp names_checked.2.1 _ h
  simpa using this

theorem ordinary_fixed {s : Text} (h : s ∈ fixedTexts) : s.all Ordinary = true := by
  have := List.all_eq_true.mp names_checked.2.2 s h
  rw [Bool.and_eq_true] at this
  exact this.1

theorem fixed_ne_nil {s : Text} (h : s ∈ fixedTexts) : s ≠ [] := by
  have := List.all_eq_true.mp names_checked.2.2 s h
  rw [Bool.and_eq_true] at this
  simpa using this.2

/-! ## Lines with fixed names -/

section Fixed

variable {n : Nat} {name s left right : Text} {attrs : List (Text × Text)}
  {ls : List Line} {top : Text} {stack final : List Text}

theorem fit_plainLine (h : name ∈ names) : (plainLine n name s).Fit ↔ FitText s :=
  fit_text_iff (elementName h).2

theorem fit_andLine (h : name ∈ names) :
    (andLine n name left right).Fit ↔ FitText left ∧ FitText right :=
  fit_and_iff (elementName h).2 left right

theorem fit_start (h : name ∈ names) (ha : attrs.map Prod.fst ∈ attrNames) :
    (Line.start n name attrs).Fit ↔ ∀ a ∈ attrs, FitAttr a.2 :=
  fit_start_iff (elementName h).2 fun _ hmem => (attrName ha hmem).2

theorem fit_empty (h : name ∈ names) (ha : attrs.map Prod.fst ∈ attrNames) :
    (Line.empty n name attrs).Fit ↔ ∀ a ∈ attrs, FitAttr a.2 :=
  fit_empty_iff (elementName h).2 fun _ hmem => (attrName ha hmem).2

theorem fit_stop_iff (h : name ∈ names) : (Line.stop n name).Fit ↔ True :=
  iff_true_intro (fit_stop (elementName h).2)

theorem laid_plainLine (h : name ∈ names) :
    Laid (plainLine n name s :: ls) top stack final ↔ Laid ls top stack final := by
  constructor
  · rintro ⟨-, t, st, hnest, hls⟩
    cases hnest
    exact hls
  · intro hls
    exact ⟨layout_text (elementName h).1 s, top, stack, rfl, hls⟩

theorem laid_andLine (h : name ∈ names) :
    Laid (andLine n name left right :: ls) top stack final ↔ Laid ls top stack final := by
  constructor
  · rintro ⟨-, t, st, hnest, hls⟩
    cases hnest
    exact hls
  · intro hls
    exact ⟨layout_and (elementName h).1 left right, top, stack, rfl, hls⟩

theorem laid_start (h : name ∈ names) (ha : attrs.map Prod.fst ∈ attrNames) :
    Laid (.start n name attrs :: ls) top stack final ↔ Laid ls name (top :: stack) final := by
  constructor
  · rintro ⟨-, t, st, hnest, hls⟩
    obtain ⟨rfl, rfl⟩ := List.cons.inj hnest
    exact hls
  · intro hls
    exact ⟨⟨(elementName h).1, fun _ hmem => (attrName ha hmem).1, attrNodup ha⟩,
      name, top :: stack, rfl, hls⟩

theorem laid_empty (h : name ∈ names) (ha : attrs.map Prod.fst ∈ attrNames) :
    Laid (.empty n name attrs :: ls) top stack final ↔ Laid ls top stack final := by
  constructor
  · rintro ⟨-, t, st, hnest, hls⟩
    cases hnest
    exact hls
  · intro hls
    exact ⟨⟨(elementName h).1, fun _ hmem => (attrName ha hmem).1, attrNodup ha⟩,
      top, stack, rfl, hls⟩

theorem laid_stop (h : name ∈ names) :
    Laid (.stop n name :: ls) name (top :: stack) final ↔ Laid ls top stack final := by
  constructor
  · rintro ⟨-, t, st, hnest, hls⟩
    obtain ⟨rfl, rfl⟩ := List.cons.inj hnest
    exact hls
  · intro hls
    exact ⟨⟨(elementName h).1, rfl⟩, top, stack, rfl, hls⟩

end Fixed

/-! ## The lines lie within each other -/

theorem laid_nil {top : Text} {stack final : List Text} :
    Laid [] top stack final ↔ top :: stack = final := Iff.rfl

theorem kind_mem (k : Kind) : k.name ∈ names := by
  cases k <;> simp [Kind.name]

section Layout

variable {top : Text} {stack : List Text}

theorem laid_configurationLines (t : Target) :
    Laid (configurationLines t) top stack (top :: stack) := by
  simp (disch := simp) only [configurationLines, laid_start, laid_plainLine,
    laid_stop, laid_nil]

theorem laid_itemLines (fn : PrintFn) (vcxfile : Text) (df : Text × Text) :
    Laid (itemLines fn vcxfile df) top stack (top :: stack) := by
  unfold itemLines
  split
  · rw [laid_empty (kind_mem fn.kind) (by simp)]
    rfl
  · rfl

theorem laid_globalsLines (uuid name : Text) :
    Laid (globalsLines uuid name) top stack (top :: stack) := by
  simp (disch := simp) only [globalsLines, laid_start, laid_plainLine,
    laid_stop, laid_empty, laid_nil]

theorem laid_typeLines (debug : Target → Bool) (t : Target) :
    Laid (typeLines debug t) top stack (top :: stack) := by
  simp (disch := simp) only [typeLines, laid_start, laid_plainLine, laid_stop,
    laid_nil]

theorem laid_importLines : Laid importLines top stack (top :: stack) := by
  simp (disch := simp) only [importLines, laid_start, laid_empty, laid_stop,
    laid_nil]

theorem laid_sheetLines (t : Target) : Laid (sheetLines t) top stack (top :: stack) := by
  simp (disch := simp) only [sheetLines, laid_start, laid_empty, laid_stop,
    laid_nil]

theorem laid_macroLines : Laid macroLines top stack (top :: stack) := by
  simp (disch := simp) only [macroLines, laid_empty, laid_nil]

theorem laid_tailLines : Laid tailLines top stack (top :: stack) := by
  simp (disch := simp) only [tailLines, laid_start, laid_empty, laid_stop,
    laid_nil]

theorem laid_buildLines (p : Project) (slnDefines slnIncludes : List Text)
    (downloadExe ninjaExe : Text) (t : Target) :
    Laid (buildLines p slnDefines slnIncludes downloadExe ninjaExe t) top stack
      (top :: stack) := by
  simp (disch := simp) only [buildLines, laid_start, laid_plainLine,
    laid_andLine, laid_empty, laid_stop, laid_nil]

theorem laid_commandLines (c : Command) (t : Target) :
    Laid (commandLines c t) top stack (top :: stack) := by
  simp (disch := simp) only [commandLines, laid_start, laid_plainLine,
    laid_stop, laid_nil]

theorem laid_defaultLines (downloadExe ninjaExe : Text) (t : Target) :
    Laid (defaultLines downloadExe ninjaExe t) top stack (top :: stack) := by
  simp (disch := simp) only [defaultLines, laid_start, laid_plainLine,
    laid_andLine, laid_stop, laid_nil]

theorem laid_groupStart (label : List (Text × Text)) (h : label.map Prod.fst ∈ attrNames) :
    Laid [.start 2 (str "ItemGroup") label] top stack (str "ItemGroup" :: top :: stack) := by
  rw [laid_start (by simp) h]
  rfl

theorem laid_groupBreak :
    Laid groupBreak (str "ItemGroup") (top :: stack) (str "ItemGroup" :: top :: stack) := by
  simp (disch := simp) only [groupBreak, laid_stop, laid_start, laid_nil]

theorem laid_groupEnd :
    Laid [.stop 2 (str "ItemGroup")] (str "ItemGroup") (top :: stack) (top :: stack) := by
  rw [laid_stop (by simp)]
  rfl

end Layout

/-! ## What fits -/

/-- The names of a target are fit to stand between tags and in attributes. -/
structure FitTarget (t : Target) : Prop where
  vsText : FitText t.vs
  platformText : FitText t.platform
  vsAttr : FitAttr t.vs
  platformAttr : FitAttr t.platform

/-- The files that are listed, without the directories that they share with the project file. -/
def FitItems (list : Text → List Text) (fn : PrintFn) (vcxfile dir : Text) : Prop :=
  ∀ df ∈ filesOf list dir, fn.prints df.2 = true →
    FitAttr (commonDirs vcxfile df.1).2 ∧ FitAttr df.2

/-- What the lines of one target are made of. -/
structure FitBuild (p : Project) (slnDefines slnIncludes : List Text)
    (downloadExe ninjaExe : Text) (t : Target) : Prop where
  target : FitText (ninjaTarget p t)
  defines : ∀ d ∈ slnDefines ++ t.defines, FitText d
  includes : ∀ i ∈ slnIncludes ++ t.includes, FitText i
  download : FitText downloadExe
  ninja : FitText ninjaExe

/-- All strings of a project file fit. -/
structure FitProject (list : Text → List Text) (p : Project) (tgts : List Target)
    (slnDefines slnIncludes : List Text) (downloadExe ninjaExe : Text) : Prop where
  name : FitText p.name
  targets : ∀ t ∈ tgts, FitTarget t
  items : ∀ fn ∈ [printCfile, printHfile, printOther], ∀ dir ∈ p.dirs,
    FitItems list fn p.file dir
  builds : ∀ t ∈ tgts, FitBuild p slnDefines slnIncludes downloadExe ninjaExe t

/-- All strings of a command file fit. -/
structure FitCommand (list : Text → List Text) (c : Command) (tgts : List Target)
    (filesFn : Option PrintFn) : Prop where
  name : FitText c.name
  targets : ∀ t ∈ tgts, FitTarget t
  items : ∀ fn, filesFn = some fn → FitItems list fn [] (str ".")
  commands : ∀ t ∈ tgts, FitText (forDefault t c.build) ∧ FitText (forDefault t c.rebuild) ∧
    FitText (forDefault t c.clean)

/-- All strings of `_BUILD_ALL` fit. -/
structure FitDefault (list : Text → List Text) (downloadExe ninjaExe : Text)
    (tgts : List Target) : Prop where
  targets : ∀ t ∈ tgts, FitTarget t
  items : FitItems list printNinja [] (str ".")
  commands : ∀ t ∈ tgts, FitText (forDefault t downloadExe) ∧ FitText (forDefault t ninjaExe) ∧
    FitText t.defaultTarget

/-! ## Strings -/

theorem fitAttr_configuration (t : Target) :
    FitAttr (configuration t) ↔ FitAttr t.vs ∧ FitAttr t.platform := by
  rw [configuration, fitAttr_append, fitAttr_fixed_append (ordinary_fixed (by simp))]

theorem fitAttr_condition (t : Target) :
    FitAttr (condition t) ↔ FitAttr t.vs ∧ FitAttr t.platform := by
  rw [condition, fitAttr_fixed_append (ordinary_fixed (by simp)), fitAttr_append,
    fitAttr_configuration]
  exact and_iff_left (fitAttr_fixed (ordinary_fixed (by simp)))

theorem fitAttr_upDirs (prev : Text) : FitAttr (upDirs prev) := by
  fun_induction upDirs prev with
  | case1 => exact fitAttr_fixed rfl
  | case2 prev c next h ih =>
    rw [fitAttr_fixed_append (ordinary_fixed (by simp))]
    exact ih

theorem fitAttr_relativePath (vcxfile dir : Text) :
    FitAttr (relativePath vcxfile dir) ↔ FitAttr (commonDirs vcxfile dir).2 := by
  unfold relativePath
  rw [fitAttr_append, and_iff_right (fitAttr_upDirs _)]
  split
  · rename_i hnil
    rw [hnil]
  · rw [fitAttr_append]
    exact and_iff_left (fitAttr_fixed (ordinary_fixed (by simp)))

theorem fitText_joinDefines (ds : List Text) :
    FitText (joinDefines ds) ↔ ∀ d ∈ ds, FitText d := by
  cases ds with
  | nil => simp [joinDefines, fitText_nil]
  | cons d ds =>
    have hsep (d : Text) : ';' :: d = str ";" ++ id d := by simp [str]
    rw [joinDefines, fitText_flatMap (fixed_ne_nil (by simp)) (ordinary_fixed (by simp)) hsep,
      List.forall_mem_cons]
    rfl

theorem fitText_joinIncludes (is : List Text) :
    FitText (str "$(ProjectDir)" ++ joinIncludes is) ↔ ∀ i ∈ is, FitText i := by
  have hfixed : FitText (str "$(ProjectDir)") := fitText_fixed (ordinary_fixed (by simp))
  rw [joinIncludes, fitText_flatMap (fixed_ne_nil (by simp)) (ordinary_fixed (by simp))
    (fun i => rfl) (str "$(ProjectDir)") is]
  exact and_iff_right hfixed

theorem fitText_replaceChar (s : Text) : FitText (replaceChar s '/' '\\') ↔ FitText s := by
  refine fitText_map ?_ s
  intro c
  by_cases hc : c = '/'
  · subst hc
    exact Or.inr ⟨by decide, by decide⟩
  · exact Or.inl (if_neg hc)

theorem fitText_ninjaCall {option : Text} (h : option ∈ fixedTexts)
    (downloadExe ninjaExe target : Text) :
    FitText (ninjaCall downloadExe ninjaExe option target) ↔
      FitText downloadExe ∧ FitText ninjaExe ∧ FitText target := by
  rw [ninjaCall, fitText_append_fixed (fixed_ne_nil (by simp)) (ordinary_fixed (by simp)),
    fitText_append_fixed (fixed_ne_nil h) (ordinary_fixed h)]

theorem ordinary_hexUpper {n : Nat} (h : n < 16) : Ordinary (hexUpper n) = true := by
  interval_cases n <;> decide

theorem ordinary_hexByte (b : UInt8) : (hexByte b).all Ordinary = true := by
  have hb : b.toNat < 256 := b.toNat_lt
  have h1 := ordinary_hexUpper (n := b.toNat / 16) (by omega)
  have h2 := ordinary_hexUpper (n := b.toNat % 16) (by omega)
  simp only [hexByte, List.all_cons, List.all_nil, h1, h2, Bool.and_self]

theorem fitText_generateUuid (h : Fin 20 → UInt8) : FitText (generateUuid h) := by
  refine fitText_fixed ?_
  have hdash : (str "-").all Ordinary = true := ordinary_fixed (by simp)
  have hopen : (str "\x7b").all Ordinary = true := ordinary_fixed (by simp)
  have hclose : (str "\x7d").all Ordinary = true := ordinary_fixed (by simp)
  unfold generateUuid
  simp only [List.all_append, ordinary_hexByte, hdash, hopen, hclose, Bool.and_self]

/-! ## Lines that fit -/

theorem fit_configurationLines (t : Target) :
    (∀ l ∈ configurationLines t, l.Fit) ↔ FitTarget t := by
  simp (disch := simp) only [configurationLines, List.forall_mem_cons, fit_start, fit_plainLine,
    fit_stop_iff, fitAttr_configuration, List.not_mem_nil, false_imp_iff, implies_true, and_true]
  constructor
  · rintro ⟨⟨h1, h2⟩, h3, h4⟩
    exact ⟨h3, h4, h1, h2⟩
  · rintro ⟨h3, h4, h1, h2⟩
    exact ⟨⟨h1, h2⟩, h3, h4⟩

theorem fit_itemLines (list : Text → List Text) (fn : PrintFn) (vcxfile dir : Text) :
    (∀ l ∈ (filesOf list dir).flatMap (itemLines fn vcxfile), l.Fit) ↔
      FitItems list fn vcxfile dir := by
  rw [List.forall_mem_flatMap]
  refine forall₂_congr fun df _ => ?_
  unfold itemLines
  split
  · rename_i hprints
    rw [List.forall_mem_singleton, fit_empty (kind_mem fn.kind) (by simp),
      List.forall_mem_singleton, fitAttr_append, fitAttr_relativePath]
    exact ⟨fun h _ => h, fun h => h hprints⟩
  · rename_i hprints
    exact iff_of_true (by simp) fun h => absurd h hprints

theorem fit_globalsLines (hash : Fin 20 → UInt8) (name : Text) :
    (∀ l ∈ globalsLines (generateUuid hash) name, l.Fit) ↔ FitText name := by
  have h1 : FitAttr (str "Globals") := fitAttr_fixed (ordinary_fixed (by simp))
  have h2 : FitText (str "MakeFileProj") := fitText_fixed (ordinary_fixed (by simp))
  have h3 : FitAttr (str "$(VCTargetsPath)\\Microsoft.Cpp.Default.props") :=
    fitAttr_fixed (ordinary_fixed (by simp))
  simp (disch := simp) only [globalsLines, List.forall_mem_cons, fit_start, fit_plainLine,
    fit_stop_iff, fit_empty, h1, h2, h3, fitText_generateUuid, List.not_mem_nil, false_imp_iff,
    implies_true, and_true, true_and]

theorem fit_typeLines (debug : Target → Bool) {t : Target} (ht : FitTarget t) :
    ∀ l ∈ typeLines debug t, l.Fit := by
  have h1 : FitAttr (str "Configuration") := fitAttr_fixed (ordinary_fixed (by simp))
  have h2 : FitText (str "Makefile") := fitText_fixed (ordinary_fixed (by simp))
  have h3 : FitText (if debug t then str "true" else str "false") := by
    split
    · exact fitText_fixed (ordinary_fixed (by simp))
    · exact fitText_fixed (ordinary_fixed (by simp))
  have h4 : FitText (str "v140") := fitText_fixed (ordinary_fixed (by simp))
  simp (disch := simp) only [typeLines, List.forall_mem_cons, fit_start, fit_plainLine,
    fit_stop_iff, fitAttr_condition, h1, h2, h3, h4, ht.vsAttr, ht.platformAttr,
    List.not_mem_nil, false_imp_iff, implies_true, and_true]

theorem fit_importLines : ∀ l ∈ importLines, l.Fit := by
  have h1 : FitAttr (str "$(VCTargetsPath)\\Microsoft.Cpp.props") :=
    fitAttr_fixed (ordinary_fixed (by simp))
  have h2 : FitAttr (str "ExtensionSettings") := fitAttr_fixed (ordinary_fixed (by simp))
  have h3 : FitAttr (str "Shared") := fitAttr_fixed (ordinary_fixed (by simp))
  simp (disch := simp) only [importLines, List.forall_mem_cons, fit_start, fit_empty,
    fit_stop_iff, h1, h2, h3, List.not_mem_nil, false_imp_iff, implies_true, and_true]

theorem fit_sheetLines {t : Target} (ht : FitTarget t) : ∀ l ∈ sheetLines t, l.Fit := by
  have h1 : FitAttr (str "PropertySheets") := fitAttr_fixed (ordinary_fixed (by simp))
  have h2 : FitAttr (str "$(UserRootDir)\\Microsoft.Cpp.$(Platform).user.props") :=
    fitAttr_fixed (ordinary_fixed (by simp))
  have h3 : FitAttr (str "exists('$(UserRootDir)\\Microsoft.Cpp.$(Platform).user.props')") :=
    fitAttr_fixed (ordinary_fixed (by simp))
  have h4 : FitAttr (str "LocalAppDataPlatform") := fitAttr_fixed (ordinary_fixed (by simp))
  simp (disch := simp) only [sheetLines, List.forall_mem_cons, fit_start, fit_empty,
    fit_stop_iff, fitAttr_condition, h1, h2, h3, h4, ht.vsAttr, ht.platformAttr,
    List.not_mem_nil, false_imp_iff, implies_true, and_true]

theorem fit_macroLines : ∀ l ∈ macroLines, l.Fit := by
  have h1 : FitAttr (str "UserMacros") := fitAttr_fixed (ordinary_fixed (by simp))
  simp (disch := simp) only [macroLines, List.forall_mem_cons, fit_empty, h1, List.not_mem_nil,
    false_imp_iff, implies_true, and_true]

theorem fit_tailLines : ∀ l ∈ tailLines, l.Fit := by
  have h1 : FitAttr (str "$(VCTargetsPath)\\Microsoft.Cpp.targets") :=
    fitAttr_fixed (ordinary_fixed (by simp))
  have h2 : FitAttr (str "ExtensionTargets") := fitAttr_fixed (ordinary_fixed (by simp))
  simp (disch := simp) only [tailLines, List.forall_mem_cons, fit_start, fit_empty,
    fit_stop_iff, h1, h2, List.not_mem_nil, false_imp_iff, implies_true, and_true]

theorem fit_groupLines :
    (∀ l ∈ [Line.start 2 (str "ItemGroup") [(str "Label", str "ProjectConfigurations")]],
      l.Fit) ∧ (∀ l ∈ groupBreak, l.Fit) ∧ ∀ l ∈ [Line.stop 2 (str "ItemGroup")], l.Fit := by
  have h1 : FitAttr (str "ProjectConfigurations") := fitAttr_fixed (ordinary_fixed (by simp))
  simp (disch := simp) only [groupBreak, List.forall_mem_cons, fit_start, fit_stop_iff, h1,
    List.not_mem_nil, false_imp_iff, implies_true, and_true]

theorem fit_buildLines (p : Project) (slnDefines slnIncludes : List Text)
    (downloadExe ninjaExe : Text) {t : Target} (ht : FitTarget t) :
    (∀ l ∈ buildLines p slnDefines slnIncludes downloadExe ninjaExe t, l.Fit) ↔
      FitBuild p slnDefines slnIncludes downloadExe ninjaExe t := by
  have h1 : (str "$(SolutionDir)\\").all Ordinary = true := ordinary_fixed (by simp)
  have h2 : FitText (str "$(SolutionDir)\\obj\\$(Configuration)\\") :=
    fitText_fixed (ordinary_fixed (by simp))
  simp (disch := simp) only [buildLines, List.forall_mem_cons, fit_start, fit_empty,
    fit_plainLine, fit_andLine, fit_stop_iff, fitAttr_condition, fitText_ninjaCall,
    fitText_joinDefines, fitText_joinIncludes, fitText_fixed_append h1, fitText_replaceChar, h2,
    ht.vsAttr, ht.platformAttr, List.not_mem_nil, false_imp_iff, implies_true, and_true, true_and]
  constructor
  · rintro ⟨htarget, hdefines, ⟨hdownload, hninja, -⟩, -, -, hincludes⟩
    exact ⟨htarget, hdefines, hincludes, hdownload, hninja⟩
  · rintro ⟨htarget, hdefines, hincludes, hdownload, hninja⟩
    have hcall : FitText downloadExe ∧ FitText ninjaExe ∧ FitText (ninjaTarget p t) :=
      ⟨hdownload, hninja, htarget⟩
    exact ⟨htarget, hdefines, hcall, ⟨hcall, hcall⟩, hcall, hincludes⟩

theorem fit_commandLines (c : Command) {t : Target} (ht : FitTarget t) :
    (∀ l ∈ commandLines c t, l.Fit) ↔
      FitText (forDefault t c.build) ∧ FitText (forDefault t c.rebuild) ∧
        FitText (forDefault t c.clean) := by
  simp (disch := simp) only [commandLines, List.forall_mem_cons, fit_start, fit_plainLine,
    fit_stop_iff, fitAttr_condition, ht.vsAttr, ht.platformAttr, List.not_mem_nil, false_imp_iff,
    implies_true, and_true, true_and]

theorem fit_defaultLines (downloadExe ninjaExe : Text) {t : Target} (ht : FitTarget t) :
    (∀ l ∈ defaultLines downloadExe ninjaExe t, l.Fit) ↔
      FitText (forDefault t downloadExe) ∧ FitText (forDefault t ninjaExe) ∧
        FitText t.defaultTarget := by
  simp (disch := simp) only [defaultLines, List.forall_mem_cons, fit_start, fit_plainLine,
    fit_andLine, fit_stop_iff, fitAttr_condition, fitText_ninjaCall, ht.vsAttr, ht.platformAttr,
    List.not_mem_nil, false_imp_iff, implies_true, and_true, true_and, and_self]

/-! ## Files that are read as they are meant -/

/-- A file is read as the document of the lines. -/
def ReadsAs (file : Text) (lines : List Line) : Prop :=
  parseDocument file = some (documentEvents rootName rootAttrs lines)

theorem isDeclaration : IsDeclaration declaration := by
  refine ⟨by decide, ?_⟩
  intro rest
  simp [declaration, str, afterDeclaration]

theorem readsAs_iff {lines : List Line} (h : Laid lines rootName [] [rootName]) :
    ReadsAs (projectDocument lines) lines ↔ ∀ l ∈ lines, l.Fit := by
  have hattrs : rootAttrs.map Prod.fst ∈ attrNames := by simp [rootAttrs]
  have hroot := elementName (n := rootName) (by simp)
  have hfit : ∀ a ∈ rootAttrs, FitAttr a.2 := by
    simp only [rootAttrs, List.forall_mem_cons]
    exact ⟨fitAttr_fixed (ordinary_fixed (by simp)), fitAttr_fixed (ordinary_fixed (by simp)),
      fitAttr_fixed (ordinary_fixed (by simp)), by simp⟩
  have hclean : Clean declaration := by simp [Clean, declaration, str, isChar]
  exact parseDocument_fit_iff isDeclaration hroot.1 (fun a ha => (attrName hattrs ha).1)
    (attrNodup hattrs) hclean hroot.2 (fun a ha => (attrName hattrs ha).2) hfit h

theorem laid_projectLines (list : Text → List Text) (p : Project) (tgts : List Target)
    (slnDefines slnIncludes : List Text) (downloadExe ninjaExe : Text) :
    Laid (projectLines list p tgts slnDefines slnIncludes downloadExe ninjaExe) rootName []
      [rootName] := by
  have hitems (fn : PrintFn) : Laid
      (p.dirs.flatMap fun dir => (filesOf list dir).flatMap (itemLines fn p.file))
      (str "ItemGroup") [rootName] [str "ItemGroup", rootName] :=
    Laid.flatMap fun dir _ => Laid.flatMap fun df _ => laid_itemLines fn p.file df
  exact (laid_groupStart _ (by simp)).append (Laid.flatMap fun t _ => laid_configurationLines t)
    |>.append laid_groupBreak |>.append (hitems printCfile)
    |>.append laid_groupBreak |>.append (hitems printHfile)
    |>.append laid_groupBreak |>.append (hitems printOther)
    |>.append laid_groupEnd |>.append (laid_globalsLines _ _)
    |>.append (Laid.flatMap fun t _ => laid_typeLines isDebugTarget t)
    |>.append laid_importLines |>.append (Laid.flatMap fun t _ => laid_sheetLines t)
    |>.append laid_macroLines |>.append (Laid.flatMap fun t _ => laid_buildLines p _ _ _ _ t)
    |>.append laid_tailLines

theorem laid_commandFileLines (list : Text → List Text) (uuid name : Text) (tgts : List Target)
    (filesFn : Option PrintFn) {lines : Target → List Line}
    (hlines : ∀ t, Laid (lines t) rootName [] [rootName]) :
    Laid (commandFileLines list uuid name tgts filesFn lines) rootName [] [rootName] := by
  have hitems : Laid (commandItems list filesFn) (str "ItemGroup") [rootName]
      [str "ItemGroup", rootName] := by
    cases filesFn with
    | none => rfl
    | some fn => exact Laid.flatMap fun df _ => laid_itemLines fn [] df
  exact (laid_groupStart _ (by simp)).append (Laid.flatMap fun t _ => laid_configurationLines t)
    |>.append laid_groupBreak |>.append hitems
    |>.append laid_groupEnd |>.append (laid_globalsLines _ _)
    |>.append (Laid.flatMap fun t _ => laid_typeLines (fun _ => false) t)
    |>.append laid_importLines |>.append (Laid.flatMap fun t _ => laid_sheetLines t)
    |>.append laid_macroLines |>.append (Laid.flatMap fun t _ => hlines t)
    |>.append laid_tailLines

theorem fit_projectLines (list : Text → List Text) (p : Project) (tgts : List Target)
    (slnDefines slnIncludes : List Text) (downloadExe ninjaExe : Text) :
    (∀ l ∈ projectLines list p tgts slnDefines slnIncludes downloadExe ninjaExe, l.Fit) ↔
      FitProject list p tgts slnDefines slnIncludes downloadExe ninjaExe := by
  obtain ⟨hgroup, hbreak, hend⟩ := fit_groupLines
  have hitems (fn : PrintFn) :
      (∀ l ∈ p.dirs.flatMap fun dir => (filesOf list dir).flatMap (itemLines fn p.file), l.Fit) ↔
        ∀ dir ∈ p.dirs, FitItems list fn p.file dir := by
    rw [List.forall_mem_flatMap]
    exact forall₂_congr fun dir _ => fit_itemLines list fn p.file dir
  simp only [projectLines, List.forall_mem_append, hitems, fit_globalsLines]
  rw [List.forall_mem_flatMap (l := tgts) (f := configurationLines)]
  constructor
  · rintro ⟨⟨⟨⟨⟨⟨⟨⟨⟨⟨⟨⟨⟨⟨⟨-, hconf⟩, -⟩, hc⟩, -⟩, hh⟩, -⟩, ho⟩, -⟩, hname⟩, -⟩, -⟩, -⟩, -⟩, hbuild⟩, -⟩
    have htargets : ∀ t ∈ tgts, FitTarget t := fun t ht =>
      (fit_configurationLines t).mp (hconf t ht)
    refine ⟨hname, htargets, ?_, fun t ht => ?_⟩
    · simp only [List.forall_mem_cons]
      exact ⟨hc, hh, ho, by simp⟩
    · exact (fit_buildLines p slnDefines slnIncludes downloadExe ninjaExe (htargets t ht)).mp
        (List.forall_mem_flatMap.mp hbuild t ht)
  · rintro ⟨hname, htargets, hitems, hbuilds⟩
    simp only [List.forall_mem_cons] at hitems
    obtain ⟨hc, hh, ho, -⟩ := hitems
    have hconf : ∀ t ∈ tgts, ∀ l ∈ configurationLines t, l.Fit := fun t ht =>
      (fit_configurationLines t).mpr (htargets t ht)
    have htypes : ∀ l ∈ tgts.flatMap (typeLines isDebugTarget), l.Fit :=
      List.forall_mem_flatMap.mpr fun t ht => fit_typeLines isDebugTarget (htargets t ht)
    have hsheets : ∀ l ∈ tgts.flatMap sheetLines, l.Fit :=
      List.forall_mem_flatMap.mpr fun t ht => fit_sheetLines (htargets t ht)
    have hbuild : ∀ l ∈ tgts.flatMap
        (buildLines p slnDefines slnIncludes downloadExe ninjaExe), l.Fit :=
      List.forall_mem_flatMap.mpr fun t ht =>
        (fit_buildLines p slnDefines slnIncludes downloadExe ninjaExe (htargets t ht)).mpr
          (hbuilds t ht)
    exact ⟨⟨⟨⟨⟨⟨⟨⟨⟨⟨⟨⟨⟨⟨⟨hgroup, hconf⟩, hbreak⟩, hc⟩, hbreak⟩, hh⟩, hbreak⟩, ho⟩, hend⟩, hname⟩,
      htypes⟩, fit_importLines⟩, hsheets⟩, fit_macroLines⟩, hbuild⟩, fit_tailLines⟩

/-- The lines of a command file fit when the lines of its targets do. -/
theorem fit_commandFileLines (list : Text → List Text) (hash : Fin 20 → UInt8) (name : Text)
    (tgts : List Target) (filesFn : Option PrintFn) {lines : Target → List Line}
    {fits : Target → Prop} (hlines : ∀ t, FitTarget t → ((∀ l ∈ lines t, l.Fit) ↔ fits t)) :
    (∀ l ∈ commandFileLines list (generateUuid hash) name tgts filesFn lines, l.Fit) ↔
      FitText name ∧ (∀ t ∈ tgts, FitTarget t) ∧
        (∀ fn, filesFn = some fn → FitItems list fn [] (str ".")) ∧ ∀ t ∈ tgts, fits t := by
  obtain ⟨hgroup, hbreak, hend⟩ := fit_groupLines
  have hitems : (∀ l ∈ commandItems list filesFn, l.Fit) ↔
      ∀ fn, filesFn = some fn → FitItems list fn [] (str ".") := by
    cases filesFn with
    | none => simp [commandItems]
    | some fn => simp only [commandItems, fit_itemLines, Option.some.injEq, forall_eq']
  simp only [commandFileLines, List.forall_mem_append, hitems, fit_globalsLines]
  rw [List.forall_mem_flatMap (l := tgts) (f := configurationLines)]
  constructor
  · rintro ⟨⟨⟨⟨⟨⟨⟨⟨⟨⟨⟨-, hconf⟩, -⟩, hi⟩, -⟩, hname⟩, -⟩, -⟩, -⟩, -⟩, hcommands⟩, -⟩
    have htargets : ∀ t ∈ tgts, FitTarget t := fun t ht =>
      (fit_configurationLines t).mp (hconf t ht)
    exact ⟨hname, htargets, hi, fun t ht =>
      (hlines t (htargets t ht)).mp (List.forall_mem_flatMap.mp hcommands t ht)⟩
  · rintro ⟨hname, htargets, hi, hfits⟩
    have hconf : ∀ t ∈ tgts, ∀ l ∈ configurationLines t, l.Fit := fun t ht =>
      (fit_configurationLines t).mpr (htargets t ht)
    have htypes : ∀ l ∈ tgts.flatMap (typeLines fun _ => false), l.Fit :=
      List.forall_mem_flatMap.mpr fun t ht => fit_typeLines _ (htargets t ht)
    have hsheets : ∀ l ∈ tgts.flatMap sheetLines, l.Fit :=
      List.forall_mem_flatMap.mpr fun t ht => fit_sheetLines (htargets t ht)
    have hcommands : ∀ l ∈ tgts.flatMap lines, l.Fit :=
      List.forall_mem_flatMap.mpr fun t ht => (hlines t (htargets t ht)).mpr (hfits t ht)
    exact ⟨⟨⟨⟨⟨⟨⟨⟨⟨⟨⟨hgroup, hconf⟩, hbreak⟩, hi⟩, hend⟩, hname⟩, htypes⟩, fit_importLines⟩,
      hsheets⟩, fit_macroLines⟩, hcommands⟩, fit_tailLines⟩

/-! ## The commands of `main` -/

theorem isPrefixOf_append_space {test : Text} (hspace : ' ' ∉ test) (s b : Text) :
    test.isPrefixOf (s ++ ' ' :: b) = test.isPrefixOf s := by
  induction test generalizing s with
  | nil => rfl
  | cons c cs ih =>
    simp only [List.mem_cons, not_or] at hspace
    cases s with
    | nil => simp [List.isPrefixOf, Ne.symm hspace.1]
    | cons x xs => simp only [List.cons_append, List.isPrefixOf, ih hspace.2]

/-- What is looked for cannot reach over a space. -/
theorem dupWithReplacement_append_space {test replacement : Text} (hne : test ≠ [])
    (hspace : ' ' ∉ test) (a b : Text) :
    dupWithReplacement (a ++ ' ' :: b) test replacement =
      dupWithReplacement a test replacement ++ ' ' :: dupWithReplacement b test replacement := by
  fun_induction dupWithReplacement a test replacement with
  | case1 =>
    have hno : test.isPrefixOf (' ' :: b) = false := by
      have h := isPrefixOf_append_space hspace [] b
      rw [List.nil_append] at h
      rw [h]
      cases test with
      | nil => exact absurd rfl hne
      | cons c cs => rfl
    rw [List.nil_append, List.nil_append, dupWithReplacement, hno, if_neg (by simp)]
  | case2 c cs htest ih =>
    have hlen : test.length - 1 ≤ cs.length := by
      have := (List.isPrefixOf_iff_prefix.mp htest).length_le
      rw [List.length_cons] at this
      omega
    rw [List.cons_append, dupWithReplacement, ← List.cons_append, isPrefixOf_append_space hspace,
      if_pos htest, List.drop_append_of_le_length hlen, ih, List.append_assoc]
  | case3 c cs htest ih =>
    rw [List.cons_append, dupWithReplacement, ← List.cons_append, isPrefixOf_append_space hspace,
      if_neg htest, ih]
    rfl

theorem forDefault_append_space (t : Target) (a b : Text) :
    forDefault t (a ++ ' ' :: b) = forDefault t a ++ ' ' :: forDefault t b :=
  dupWithReplacement_append_space (by decide) (by decide) a b

theorem forDefault_default (t : Target) : forDefault t (str "\x7bDEFAULT\x7d") = t.defaultTarget := by
  simp [forDefault, str, dupWithReplacement]

theorem forDefault_fixed (t : Target) :
    forDefault t (str "$(SolutionDir)") = str "$(SolutionDir)" ∧
    forDefault t (str "-t") = str "-t" ∧ forDefault t (str "clean") = str "clean" ∧
    forDefault t (str "&amp;&amp;") = str "&amp;&amp;" := by
  simp [forDefault, str, dupWithReplacement]

theorem forDefault_call (t : Target) (downloadExe ninjaExe rest : Text) :
    forDefault t (downloadExe ++ (str " $(SolutionDir) " ++ (ninjaExe ++ ' ' :: rest))) =
      forDefault t downloadExe ++ (str " $(SolutionDir) " ++
        (forDefault t ninjaExe ++ ' ' :: forDefault t rest)) := by
  have hsplit (s : Text) : str " $(SolutionDir) " ++ s =
      ' ' :: (str "$(SolutionDir)" ++ ' ' :: s) := by simp [str]
  simp only [hsplit, forDefault_append_space, (forDefault_fixed t).1]

/-- The number of bytes of a text. -/
def byteCount (s : Text) : Nat := (s.map Char.utf8Size).sum

theorem snprintf_of_fits {size : Nat} {s : Text} (h : byteCount s < size) : snprintf size s = s := by
  induction s generalizing size with
  | nil => rfl
  | cons c s ih =>
    have hsplit : byteCount (c :: s) = c.utf8Size + byteCount s := List.sum_cons
    rw [snprintf, if_pos (by omega), ih (by omega)]

/-- The commands fit the buffers of `main` that they are composed in. -/
def FitsBuffers (downloadExe ninjaExe : Text) : Prop :=
  byteCount (buildAll downloadExe ninjaExe) < 1024 ∧
    byteCount (rebuildAll downloadExe ninjaExe) < 2048 ∧
    byteCount (cleanAll downloadExe ninjaExe) < 1024

instance decidableFitsBuffers (downloadExe ninjaExe : Text) :
    Decidable (FitsBuffers downloadExe ninjaExe) :=
  inferInstanceAs (Decidable (_ ∧ _ ∧ _))

/-- The commands of `_BUILD_ALL` for one target. -/
theorem forDefault_defaultCommand {downloadExe ninjaExe : Text} (h : FitsBuffers downloadExe ninjaExe)
    (hash : Fin 20 → UInt8) (t : Target) :
    let call option := ninjaCall (forDefault t downloadExe) (forDefault t ninjaExe) option
      t.defaultTarget
    let c := defaultCommand downloadExe ninjaExe hash
    forDefault t c.build = call (str " ") ∧ forDefault t c.clean = call (str " -t clean ") ∧
    forDefault t c.rebuild = call (str " -t clean ") ++ (escapedAnd ++ call (str " ")) := by
  have hbuild : str " \x7bDEFAULT\x7d" = ' ' :: str "\x7bDEFAULT\x7d" := by simp [str]
  have hclean : str " -t clean \x7bDEFAULT\x7d" =
      ' ' :: (str "-t" ++ ' ' :: (str "clean" ++ ' ' :: str "\x7bDEFAULT\x7d")) := by simp [str]
  have hand (s : Text) : str " &amp;&amp; " ++ s = ' ' :: (str "&amp;&amp;" ++ ' ' :: s) := by
    simp [str]
  have hone (s : Text) : str " " ++ s = ' ' :: s := by simp [str]
  have hoption (s : Text) : str " -t clean " ++ s =
      ' ' :: (str "-t" ++ ' ' :: (str "clean" ++ ' ' :: s)) := by simp [str]
  obtain ⟨-, hf1, hf2, hf3⟩ := forDefault_fixed t
  obtain ⟨hfit1, hfit2, hfit3⟩ := h
  simp only [defaultCommand, snprintf_of_fits hfit1, snprintf_of_fits hfit2, snprintf_of_fits hfit3]
  simp only [buildAll, rebuildAll, cleanAll, ninjaCall, escapedAnd, hbuild, hclean, hand, hone,
    hoption, List.append_assoc, List.cons_append, forDefault_call, forDefault_append_space,
    forDefault_default, hf1, hf2, hf3, and_self]

theorem writeCommandLines_default {downloadExe ninjaExe : Text} (h : FitsBuffers downloadExe ninjaExe)
    (hash : Fin 20 → UInt8) (t : Target) :
    writeCommandLines (defaultCommand downloadExe ninjaExe hash) t =
      (defaultLines downloadExe ninjaExe t).flatMap Line.render := by
  obtain ⟨hbuild, hclean, hrebuild⟩ := forDefault_defaultCommand h hash t
  rw [writeCommandLines_eq]
  unfold commandLines
  rw [hbuild, hclean, hrebuild]
  rfl

/-! ## The files -/

theorem writeProject_iff (list : Text → List Text) (p : Project) (tgts : List Target)
    (slnDefines slnIncludes : List Text) (downloadExe ninjaExe : Text) :
    ReadsAs (writeProject list p tgts slnDefines slnIncludes downloadExe ninjaExe)
        (projectLines list p tgts slnDefines slnIncludes downloadExe ninjaExe) ↔
      FitProject list p tgts slnDefines slnIncludes downloadExe ninjaExe := by
  rw [writeProject_eq, readsAs_iff (laid_projectLines ..), fit_projectLines]

theorem writeCommand_iff (list : Text → List Text) (c : Command) (tgts : List Target)
    (filesFn : Option PrintFn) :
    ReadsAs (writeCommand list c tgts filesFn)
        (commandFileLines list (generateUuid c.hash) c.name tgts filesFn (commandLines c)) ↔
      FitCommand list c tgts filesFn := by
  rw [writeCommand_eq list c tgts filesFn (commandLines c) (writeCommandLines_eq c),
    readsAs_iff (laid_commandFileLines _ _ _ _ _ fun t => laid_commandLines c t),
    fit_commandFileLines list c.hash c.name tgts filesFn fun t ht => fit_commandLines c ht]
  constructor
  · rintro ⟨h1, h2, h3, h4⟩
    exact ⟨h1, h2, h3, h4⟩
  · rintro ⟨h1, h2, h3, h4⟩
    exact ⟨h1, h2, h3, h4⟩

theorem writeDefault_iff (list : Text → List Text) {downloadExe ninjaExe : Text}
    (hbuffers : FitsBuffers downloadExe ninjaExe) (hash : Fin 20 → UInt8) (tgts : List Target) :
    ReadsAs (writeCommand list (defaultCommand downloadExe ninjaExe hash) tgts (some printNinja))
        (commandFileLines list (generateUuid hash) (str "_BUILD_ALL") tgts (some printNinja)
          (defaultLines downloadExe ninjaExe)) ↔
      FitDefault list downloadExe ninjaExe tgts := by
  have hname : FitText (str "_BUILD_ALL") := by
    refine fitText_fixed ?_
    decide
  rw [writeCommand_eq list _ tgts _ _ (writeCommandLines_default hbuffers hash)]
  change ReadsAs (projectDocument (commandFileLines list (generateUuid hash) (str "_BUILD_ALL")
    tgts (some printNinja) (defaultLines downloadExe ninjaExe))) _ ↔ _
  rw [readsAs_iff (laid_commandFileLines _ _ _ _ _ fun t => laid_defaultLines downloadExe ninjaExe t),
    fit_commandFileLines list hash (str "_BUILD_ALL") tgts (some printNinja)
      fun t ht => fit_defaultLines downloadExe ninjaExe ht]
  constructor
  · rintro ⟨-, h2, h3, h4⟩
    exact ⟨h2, h3 printNinja rfl, h4⟩
  · rintro ⟨h2, h3, h4⟩
    refine ⟨hname, h2, ?_, h4⟩
    rintro fn hfn
    cases hfn
    exact h3

/-- **Project files.** Each file is read as the document that the configuration means exactly
when all strings fit their places. -/
theorem project_files_iff (list : Text → List Text) (tgts : List Target)
    (downloadExe ninjaExe : Text) :
    (∀ p slnDefines slnIncludes,
      ReadsAs (writeProject list p tgts slnDefines slnIncludes downloadExe ninjaExe)
          (projectLines list p tgts slnDefines slnIncludes downloadExe ninjaExe) ↔
        FitProject list p tgts slnDefines slnIncludes downloadExe ninjaExe) ∧
    (∀ c filesFn,
      ReadsAs (writeCommand list c tgts filesFn)
          (commandFileLines list (generateUuid c.hash) c.name tgts filesFn (commandLines c)) ↔
        FitCommand list c tgts filesFn) ∧
    ∀ hash, FitsBuffers downloadExe ninjaExe →
      (ReadsAs
          (writeCommand list (defaultCommand downloadExe ninjaExe hash) tgts (some printNinja))
          (commandFileLines list (generateUuid hash) (str "_BUILD_ALL") tgts (some printNinja)
            (defaultLines downloadExe ninjaExe)) ↔
        FitDefault list downloadExe ninjaExe tgts) :=
  ⟨fun p slnDefines slnIncludes =>
      writeProject_iff list p tgts slnDefines slnIncludes downloadExe ninjaExe,
    fun c filesFn => writeCommand_iff list c tgts filesFn,
    fun hash hbuffers => writeDefault_iff list hbuffers hash tgts⟩

/-- `_BUILD_ALL` for one target, with the programs that the configuration names by default. -/
theorem project_files_iff_default :
    ReadsAs
      (writeCommand (fun _ => []) (defaultCommand (str "download.exe") (str "ninja") fun _ => 0)
        [⟨str "Debug", str "debug", str "all", str "x64", [], []⟩] (some printNinja))
      (commandFileLines (fun _ => []) (generateUuid fun _ => 0) (str "_BUILD_ALL")
        [⟨str "Debug", str "debug", str "all", str "x64", [], []⟩] (some printNinja)
        (defaultLines (str "download.exe") (str "ninja"))) := by
  obtain ⟨h1, h2, h3, h4, h5⟩ : (str "Debug").all Ordinary = true ∧
      (str "x64").all Ordinary = true ∧ (str "all").all Ordinary = true ∧
      (str "download.exe").all Ordinary = true ∧ (str "ninja").all Ordinary = true := by
    decide
  have hplain (t : Target) : forDefault t (str "download.exe") = str "download.exe" ∧
      forDefault t (str "ninja") = str "ninja" := by
    simp [forDefault, str, dupWithReplacement]
  refine ((project_files_iff _ _ _ _).2.2 _ (by decide)).mpr ⟨?_, ?_, ?_⟩
  · rw [List.forall_mem_singleton]
    exact ⟨fitText_fixed h1, fitText_fixed h2, fitAttr_fixed h1, fitAttr_fixed h2⟩
  · -- the directory is empty, and its own name is not listed
    have hfiles : filesOf (fun _ => []) (str ".") = [([], str ".")] := by decide +kernel
    have hprints : printNinja.prints (str ".") = false := by decide
    unfold FitItems
    rw [hfiles, List.forall_mem_singleton, hprints]
    exact fun h => absurd h (by simp)
  · rw [List.forall_mem_singleton, (hplain _).1, (hplain _).2]
    exact ⟨fitText_fixed h4, fitText_fixed h5, fitText_fixed h3⟩

/-- An ampersand in the name of a project is read as the start of a reference. -/
theorem ampersand_in_name :
    ¬ ReadsAs
      (writeProject (fun _ => []) ⟨str "a&b", str "p.vcxproj", str "all", fun _ => 0, []⟩ [] [] []
        (str "download.exe") (str "ninja"))
      (projectLines (fun _ => []) ⟨str "a&b", str "p.vcxproj", str "all", fun _ => 0, []⟩ [] [] []
        (str "download.exe") (str "ninja")) := by
  rw [writeProject_iff]
  intro h
  have hname : '&' ∉ str "a&b" := h.name.1.1
  exact hname (by decide)

end ToolchainTools.Vcxproj
