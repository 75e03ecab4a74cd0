import ToolchainTools.Vcxproj.WellFormed

/-!
# The solution file (`write_solution` in `tools/generate-vcxproj/generate.c`)

A solution lists the project files with their identifiers, the configurations, and which
configuration of each project is active and built in each of them. `readSolution` takes the lines
of such a file apart. When no name has a quotation mark or a line break, and no configuration an
equals sign, it gives back exactly what was written (`readSolution_writeSolution`).
-/

namespace ToolchainTools.Vcxproj

open Xml

/-! ## The code -/

/-- What comes before the name in the line of a project. -/
def projectStart : Text := str "Project(\"\x7b8BC9CEB8-8B4A-11D0-8D11-00A0C91BC942\x7d\") = "

def writeEntry (name file uuid : Text) : Text :=
  projectStart ++ str "\"" ++ name ++ str "\", \"" ++ file ++ str "\", \"" ++ uuid ++ str "\"\r\n" ++
    str "EndProject\r\n"

/-- The active configuration of a project. -/
def writeActive (uuid : Text) (t : Target) : Text :=
  str "\t\t" ++ uuid ++ str "." ++ t.vs ++ str "|" ++ t.platform ++ str ".ActiveCfg = " ++ t.vs ++
    str "|" ++ t.platform ++ str "\r\n"

/-- The configuration that a project is built in. -/
def writeBuilt (uuid : Text) (t : Target) : Text :=
  str "\t\t" ++ uuid ++ str "." ++ t.vs ++ str "|" ++ t.platform ++ str ".Build.0 = " ++ t.vs ++
    str "|" ++ t.platform ++ str "\r\n"

/-- `write_solution`. -/
def writeSolution (projects : List Project) (targets : List Target) (defcmd : Command)
    (gencmd : Option Command) : Text :=
  str "\uFEFF\r\n" ++
  str "Microsoft Visual Studio Solution File, Format Version 12.00\r\n" ++
  str "# Visual Studio 14\r\n" ++
  str "VisualStudioVersion = 14.0.25420.1\r\n" ++
  str "MinimumVisualStudioVersion = 10.0.40219.1\r\n" ++
  writeEntry (str "_BUILD_ALL") (str "_BUILD_ALL.vcxproj") (generateUuid defcmd.hash) ++
  (match gencmd with
    | some c =>
      writeEntry (str "_GENERATE_VCXPROJ") (str "_GENERATE_VCXPROJ.vcxproj") (generateUuid c.hash)
    | none => []) ++
  projects.flatMap (fun p => writeEntry p.name p.file (generateUuid p.hash)) ++
  str "Global\r\n" ++ str "\tGlobalSection(SolutionConfigurationPlatforms) = preSolution\r\n" ++
  targets.flatMap (fun t => str "\t\t" ++ t.vs ++ str "|" ++ t.platform ++ str " = " ++ t.vs ++
    str "|" ++ t.platform ++ str "\r\n") ++
  str "\tEndGlobalSection\r\n" ++
  str "\tGlobalSection(ProjectConfigurationPlatforms) = postSolution\r\n" ++
  projects.flatMap (fun p => targets.flatMap fun t =>
    writeActive (generateUuid p.hash) t ++ writeBuilt (generateUuid p.hash) t) ++
  (match gencmd with
    | some c => targets.flatMap (writeActive (generateUuid c.hash))
    | none => []) ++
  targets.flatMap (fun t =>
    writeActive (generateUuid defcmd.hash) t ++ writeBuilt (generateUuid defcmd.hash) t) ++
  str "\tEndGlobalSection\r\n" ++
  str "\tGlobalSection(SolutionProperties) = preSolution\r\n" ++
  str "\t\tHideSolutionNode = FALSE\r\n" ++
  str "\tEndGlobalSection\r\n" ++
  str "EndGlobal\r\n"

/-! ## Reading a solution -/

structure SolutionEntry where
  name : Text
  file : Text
  uuid : Text
  deriving DecidableEq

/-- What a solution file says. -/
structure Solution where
  entries : List SolutionEntry
  configurations : List (Text × Text)
  settings : List (Text × Text)
  deriving DecidableEq

/-- The lines of a text, without the `\r` at their ends. -/
def textLines (s : Text) : List Text :=
  (s.splitOn '\n').map fun l => if l.getLast? = some '\r' then l.dropLast else l

/-- What is behind a fixed start. -/
def expect (start s : Text) : Option Text :=
  if start.isPrefixOf s then some (s.drop start.length) else none

/-- A text in quotation marks, and what is behind it. -/
def quoted (s : Text) : Option (Text × Text) :=
  (expect (str "\"") s).bind fun s =>
    if '"' ∈ s then some (s.takeWhile (· ≠ '"'), (s.dropWhile (· ≠ '"')).tail) else none

def readEntry (line : Text) : Option SolutionEntry := do
  let s ← expect projectStart line
  let (name, s) ← quoted s
  let s ← expect (str ", ") s
  let (file, s) ← quoted s
  let s ← expect (str ", ") s
  let (uuid, s) ← quoted s
  if s = [] then some ⟨name, file, uuid⟩ else none

/-- The projects at the start of the lines. -/
def readEntries : List Text → Option (List SolutionEntry × List Text)
  | start :: stop :: lines =>
    if stop = str "EndProject" then do
      let e ← readEntry start
      let (es, rest) ← readEntries lines
      some (e :: es, rest)
    else some ([], start :: stop :: lines)
  | lines => some ([], lines)

/-- A key and a value. -/
def readSetting (line : Text) : Option (Text × Text) := do
  let s ← expect (str "\t\t") line
  let value ← expect (str "= ") (s.dropWhile (· ≠ '='))
  let key := s.takeWhile (· ≠ '=')
  if key.getLast? = some ' ' then some (key.dropLast, value) else none

/-- The settings up to the end of a section. -/
def readSettings : List Text → Option (List (Text × Text) × List Text)
  | [] => none
  | line :: lines =>
    if line = str "\tEndGlobalSection" then some ([], lines)
    else do
      let e ← readSetting line
      let (es, rest) ← readSettings lines
      some (e :: es, rest)

/-- Lines that are as they have to be. -/
def expectLines (first lines : List Text) : Option (List Text) :=
  if first.isPrefixOf lines then some (lines.drop first.length) else none

def solutionHead : List Text :=
  [str "\uFEFF", str "Microsoft Visual Studio Solution File, Format Version 12.00",
    str "# Visual Studio 14", str "VisualStudioVersion = 14.0.25420.1",
    str "MinimumVisualStudioVersion = 10.0.40219.1"]

def readSolution (s : Text) : Option Solution := do
  let lines ← expectLines solutionHead (textLines s)
  let (entries, lines) ← readEntries lines
  let lines ← expectLines
    [str "Global", str "\tGlobalSection(SolutionConfigurationPlatforms) = preSolution"] lines
  let (configurations, lines) ← readSettings lines
  let lines ← expectLines
    [str "\tGlobalSection(ProjectConfigurationPlatforms) = postSolution"] lines
  let (settings, lines) ← readSettings lines
  let lines ← expectLines [str "\tGlobalSection(SolutionProperties) = preSolution"] lines
  let (_, lines) ← readSettings lines
  if lines = [str "EndGlobal", []] then some ⟨entries, configurations, settings⟩ else none

/-! ## Printing a solution -/

def entryLines (e : SolutionEntry) : List Text :=
  [projectStart ++ ('"' :: (e.name ++ '"' :: (str ", " ++ ('"' :: (e.file ++ '"' ::
    (str ", " ++ ('"' :: (e.uuid ++ ['"'])))))))), str "EndProject"]

def settingLine (e : Text × Text) : Text := str "\t\t" ++ (e.1 ++ ' ' :: (str "= " ++ e.2))

namespace Solution

def lines (s : Solution) : List Text :=
  solutionHead ++ (s.entries.flatMap entryLines ++
  ([str "Global", str "\tGlobalSection(SolutionConfigurationPlatforms) = preSolution"] ++
  (s.configurations.map settingLine ++ (str "\tEndGlobalSection" ::
  ([str "\tGlobalSection(ProjectConfigurationPlatforms) = postSolution"] ++
  (s.settings.map settingLine ++ (str "\tEndGlobalSection" ::
  ([str "\tGlobalSection(SolutionProperties) = preSolution"] ++
  ([(str "HideSolutionNode", str "FALSE")].map settingLine ++ (str "\tEndGlobalSection" ::
  [str "EndGlobal"]))))))))))

/-- Nothing in the solution can be taken for the end of something. -/
structure Fit (s : Solution) : Prop where
  entries : ∀ e ∈ s.entries, ∀ t ∈ [e.name, e.file, e.uuid], '"' ∉ t ∧ '\n' ∉ t
  settings : ∀ e ∈ s.configurations ++ s.settings, '=' ∉ e.1 ∧ '\n' ∉ e.1 ∧ '\n' ∉ e.2

end Solution

section Pieces

variable {s : Text}

theorem expect_append (start s : Text) : expect start (start ++ s) = some s := by
  rw [expect, if_pos (List.isPrefixOf_iff_prefix.mpr (List.prefix_append start s)), List.drop_left]

theorem expectLines_append (first lines : List Text) :
    expectLines first (first ++ lines) = some lines := by
  rw [expectLines, if_pos (List.isPrefixOf_iff_prefix.mpr (List.prefix_append first lines)),
    List.drop_left]

theorem takeWhile_ne {c : Char} (h : c ∉ s) (rest : Text) :
    (s ++ c :: rest).takeWhile (· ≠ c) = s ∧ (s ++ c :: rest).dropWhile (· ≠ c) = c :: rest := by
  have hall : ∀ x ∈ s, (decide (x ≠ c)) = true := fun x hx =>
    decide_eq_true fun heq => h (heq ▸ hx)
  rw [List.takeWhile_append_of_pos hall, List.dropWhile_append_of_pos hall, List.takeWhile_cons,
    List.dropWhile_cons]
  simp

theorem quoted_append (h : '"' ∉ s) (rest : Text) :
    quoted ('"' :: (s ++ '"' :: rest)) = some (s, rest) := by
  have hstart : expect (str "\"") ('"' :: (s ++ '"' :: rest)) = some (s ++ '"' :: rest) :=
    expect_append (str "\"") _
  obtain ⟨htake, hdrop⟩ := takeWhile_ne h rest
  rw [quoted, hstart, Option.bind_some, if_pos (by simp), htake, hdrop]
  rfl

/-- The lines of a text that was written line by line. -/
theorem textLines_crlf {lines : List Text} (h : ∀ l ∈ lines, '\n' ∉ l) :
    textLines (lines.flatMap (· ++ crlf)) = lines ++ [[]] := by
  have hsplit : (lines.flatMap (· ++ crlf)).splitOn '\n' = lines.map (· ++ ['\r']) ++ [[]] := by
    induction lines with
    | nil => rfl
    | cons l lines ih =>
      have hl : '\n' ∉ l ++ ['\r'] := by
        simp only [List.mem_append, List.mem_singleton, not_or]
        exact ⟨h l List.mem_cons_self, by decide⟩
      have hline : (l :: lines).flatMap (· ++ crlf) =
          (l ++ ['\r']) ++ '\n' :: lines.flatMap (· ++ crlf) := by
        simp [crlf]
      rw [hline, List.splitOn_append_cons_self_of_not_mem hl,
        ih fun k hk => h k (List.mem_cons_of_mem _ hk)]
      rfl
  rw [textLines, hsplit, List.map_append, List.map_map]
  congr 1
  calc lines.map _ = lines.map id := List.map_congr_left fun l _ => by simp
    _ = lines := List.map_id lines

end Pieces

section Parts

theorem readEntry_line {e : SolutionEntry} (h : ∀ t ∈ [e.name, e.file, e.uuid], '"' ∉ t) :
    readEntry (projectStart ++ ('"' :: (e.name ++ '"' :: (str ", " ++ ('"' :: (e.file ++ '"' ::
      (str ", " ++ ('"' :: (e.uuid ++ ['"']))))))))) = some e := by
  unfold readEntry
  simp only [expect_append, quoted_append (h e.name (by simp)), quoted_append (h e.file (by simp)),
    quoted_append (h e.uuid (by simp)), Option.bind_eq_bind, Option.bind_some, if_true]

theorem readEntries_lines {es : List SolutionEntry} {line line' : Text} {lines : List Text}
    (h : ∀ e ∈ es, ∀ t ∈ [e.name, e.file, e.uuid], '"' ∉ t) (hend : line' ≠ str "EndProject") :
    readEntries (es.flatMap entryLines ++ line :: line' :: lines) =
      some (es, line :: line' :: lines) := by
  induction es with
  | nil =>
    rw [List.flatMap_nil, List.nil_append, readEntries, if_neg hend]
  | cons e es ih =>
    rw [List.flatMap_cons, List.append_assoc, entryLines, List.cons_append, List.cons_append,
      List.nil_append, readEntries, if_pos rfl, readEntry_line (h e List.mem_cons_self),
      ih fun k hk => h k (List.mem_cons_of_mem _ hk)]
    rfl

theorem readSetting_line {e : Text × Text} (h : '=' ∉ e.1) : readSetting (settingLine e) = some e := by
  have hkey : '=' ∉ e.1 ++ [' '] := by
    simp only [List.mem_append, List.mem_singleton, not_or]
    exact ⟨h, by decide⟩
  have hline : e.1 ++ ' ' :: (str "= " ++ e.2) = (e.1 ++ [' ']) ++ '=' :: (' ' :: e.2) := by
    simp [str]
  obtain ⟨htake, hdrop⟩ := takeWhile_ne hkey (' ' :: e.2)
  have hvalue : expect (str "= ") ('=' :: ' ' :: e.2) = some e.2 := expect_append (str "= ") e.2
  unfold readSetting settingLine
  rw [hline]
  simp only [expect_append, Option.bind_eq_bind, Option.bind_some, htake, hdrop, hvalue]
  simp

theorem readSettings_lines {es : List (Text × Text)} (h : ∀ e ∈ es, '=' ∉ e.1) (lines : List Text) :
    readSettings (es.map settingLine ++ str "\tEndGlobalSection" :: lines) = some (es, lines) := by
  induction es with
  | nil => rfl
  | cons e es ih =>
    have hne : settingLine e ≠ str "\tEndGlobalSection" := by
      intro heq
      simp [settingLine, str] at heq
    rw [List.map_cons, List.cons_append, readSettings, if_neg hne,
      readSetting_line (h e List.mem_cons_self), ih fun k hk => h k (List.mem_cons_of_mem _ hk)]
    rfl

end Parts

namespace Solution

theorem Fit.no_newline {s : Solution} (h : s.Fit) : ∀ l ∈ s.lines, '\n' ∉ l := by
  have hentry : ∀ e ∈ s.entries, ∀ l ∈ entryLines e, '\n' ∉ l := by
    intro e he l hl
    have hname := (h.entries e he e.name (by simp)).2
    have hfile := (h.entries e he e.file (by simp)).2
    have huuid := (h.entries e he e.uuid (by simp)).2
    simp only [entryLines, List.mem_cons, List.not_mem_nil, or_false] at hl
    rcases hl with rfl | rfl
    · simp [projectStart, str, hname, hfile, huuid]
    · decide
  have hsetting : ∀ e ∈ s.configurations ++ s.settings, '\n' ∉ settingLine e := by
    intro e he
    obtain ⟨-, hkey, hvalue⟩ := h.settings e he
    simp [settingLine, str, hkey, hvalue]
  intro l hl
  simp only [lines, List.mem_append, List.mem_cons, List.mem_flatMap, List.mem_map,
    List.not_mem_nil, or_false] at hl
  rcases hl with hl | ⟨e, he, hl⟩ | (rfl | rfl) | ⟨e, he, rfl⟩ | rfl | rfl | ⟨e, he, rfl⟩ | rfl |
    rfl | ⟨e, rfl, rfl⟩ | rfl | rfl
  · revert l
    decide
  · exact hentry e he l hl
  · decide
  · decide
  · exact hsetting e (List.mem_append_left _ he)
  · decide
  · decide
  · exact hsetting e (List.mem_append_right _ he)
  · decide
  · decide
  · decide
  · decide
  · decide

/-- A solution that fits is read back as it was written. -/
theorem Fit.read {s : Solution} (h : s.Fit) :
    readSolution (s.lines.flatMap (· ++ crlf)) = some s := by
  have hentries : ∀ e ∈ s.entries, ∀ t ∈ [e.name, e.file, e.uuid], '"' ∉ t :=
    fun e he t ht => (h.entries e he t ht).1
  have hconfigurations : ∀ e ∈ s.configurations, '=' ∉ e.1 :=
    fun e he => (h.settings e (List.mem_append_left _ he)).1
  have hsettings : ∀ e ∈ s.settings, '=' ∉ e.1 :=
    fun e he => (h.settings e (List.mem_append_right _ he)).1
  have hproperties : ∀ e ∈ [(str "HideSolutionNode", str "FALSE")], '=' ∉ e.1 := by decide
  have hstop : str "\tGlobalSection(SolutionConfigurationPlatforms) = preSolution" ≠
      str "EndProject" := by decide
  have hglobal := expectLines_append
    [str "Global", str "\tGlobalSection(SolutionConfigurationPlatforms) = preSolution"]
  have hprojects := expectLines_append
    [str "\tGlobalSection(ProjectConfigurationPlatforms) = postSolution"]
  have hsolution := expectLines_append [str "\tGlobalSection(SolutionProperties) = preSolution"]
  simp only [List.cons_append, List.nil_append] at hglobal hprojects hsolution
  unfold readSolution
  rw [textLines_crlf h.no_newline, lines]
  simp only [List.append_assoc, expectLines_append, Option.bind_eq_bind, Option.bind_some]
  simp only [List.append_assoc, List.cons_append, List.nil_append, readEntries_lines hentries hstop,
    Option.bind_some, hglobal, hprojects, hsolution, readSettings_lines hconfigurations,
    readSettings_lines hsettings, readSettings_lines hproperties, if_true]

end Solution

/-! ## What is written -/

def activeSetting (uuid : Text) (t : Target) : Text × Text :=
  (uuid ++ (str "." ++ (configuration t ++ str ".ActiveCfg")), configuration t)

def builtSetting (uuid : Text) (t : Target) : Text × Text :=
  (uuid ++ (str "." ++ (configuration t ++ str ".Build.0")), configuration t)

/-- A project that is built in every configuration. -/
def builtSettings (targets : List Target) (uuid : Text) : List (Text × Text) :=
  targets.flatMap fun t => [activeSetting uuid t, builtSetting uuid t]

def Project.entry (p : Project) : SolutionEntry := ⟨p.name, p.file, generateUuid p.hash⟩

def defaultEntry (c : Command) : SolutionEntry :=
  ⟨str "_BUILD_ALL", str "_BUILD_ALL.vcxproj", generateUuid c.hash⟩

def generateEntry (c : Command) : SolutionEntry :=
  ⟨str "_GENERATE_VCXPROJ", str "_GENERATE_VCXPROJ.vcxproj", generateUuid c.hash⟩

/-- What the solution file is to say. -/
def solutionOf (projects : List Project) (targets : List Target) (defcmd : Command)
    (gencmd : Option Command) : Solution where
  entries := defaultEntry defcmd :: (gencmd.toList.map generateEntry ++ projects.map Project.entry)
  configurations := targets.map fun t => (configuration t, configuration t)
  settings := projects.flatMap (fun p => builtSettings targets (generateUuid p.hash)) ++
    (gencmd.toList.flatMap (fun c => targets.map (activeSetting (generateUuid c.hash))) ++
      builtSettings targets (generateUuid defcmd.hash))

section Written

theorem entryLines_text (e : SolutionEntry) :
    (entryLines e).flatMap (· ++ crlf) = writeEntry e.name e.file e.uuid := by
  simp [entryLines, writeEntry, str, crlf]

theorem settingLine_active (uuid : Text) (t : Target) :
    settingLine (activeSetting uuid t) ++ crlf = writeActive uuid t := by
  simp [settingLine, activeSetting, writeActive, configuration, str, crlf]

theorem settingLine_built (uuid : Text) (t : Target) :
    settingLine (builtSetting uuid t) ++ crlf = writeBuilt uuid t := by
  simp [settingLine, builtSetting, writeBuilt, configuration, str, crlf]

theorem settingLine_configuration (t : Target) :
    settingLine (configuration t, configuration t) ++ crlf =
      str "\t\t" ++ t.vs ++ str "|" ++ t.platform ++ str " = " ++ t.vs ++ str "|" ++ t.platform ++
        str "\r\n" := by
  simp [settingLine, configuration, str, crlf]

theorem builtSettings_text (targets : List Target) (uuid : Text) :
    (builtSettings targets uuid).flatMap (fun e => settingLine e ++ crlf) =
      targets.flatMap fun t => writeActive uuid t ++ writeBuilt uuid t := by
  unfold builtSettings
  rw [List.flatMap_assoc]
  apply List.flatMap_congr
  intro t _
  simp only [List.flatMap_cons, List.flatMap_nil, List.append_nil, settingLine_active,
    settingLine_built]

/-- The lines that are the same in every solution. -/
theorem fixedLines :
    (solutionHead.flatMap (· ++ crlf) = str "\uFEFF\r\n" ++
      (str "Microsoft Visual Studio Solution File, Format Version 12.00\r\n" ++
      (str "# Visual Studio 14\r\n" ++ (str "VisualStudioVersion = 14.0.25420.1\r\n" ++
        str "MinimumVisualStudioVersion = 10.0.40219.1\r\n")))) ∧
    str "Global" ++ crlf = str "Global\r\n" ∧
    str "\tGlobalSection(SolutionConfigurationPlatforms) = preSolution" ++ crlf =
      str "\tGlobalSection(SolutionConfigurationPlatforms) = preSolution\r\n" ∧
    str "\tEndGlobalSection" ++ crlf = str "\tEndGlobalSection\r\n" ∧
    str "\tGlobalSection(ProjectConfigurationPlatforms) = postSolution" ++ crlf =
      str "\tGlobalSection(ProjectConfigurationPlatforms) = postSolution\r\n" ∧
    str "\tGlobalSection(SolutionProperties) = preSolution" ++ crlf =
      str "\tGlobalSection(SolutionProperties) = preSolution\r\n" ∧
    settingLine (str "HideSolutionNode", str "FALSE") ++ crlf =
      str "\t\tHideSolutionNode = FALSE\r\n" ∧
    str "EndGlobal" ++ crlf = str "EndGlobal\r\n" := by
  decide +kernel

theorem Solution.text (s : Solution) :
    s.lines.flatMap (· ++ crlf) = str "\uFEFF\r\n" ++
      (str "Microsoft Visual Studio Solution File, Format Version 12.00\r\n" ++
      (str "# Visual Studio 14\r\n" ++ (str "VisualStudioVersion = 14.0.25420.1\r\n" ++
      (str "MinimumVisualStudioVersion = 10.0.40219.1\r\n" ++
      (s.entries.flatMap (fun e => writeEntry e.name e.file e.uuid) ++ (str "Global\r\n" ++
      (str "\tGlobalSection(SolutionConfigurationPlatforms) = preSolution\r\n" ++
      (s.configurations.flatMap (fun e => settingLine e ++ crlf) ++
      (str "\tEndGlobalSection\r\n" ++
      (str "\tGlobalSection(ProjectConfigurationPlatforms) = postSolution\r\n" ++
      (s.settings.flatMap (fun e => settingLine e ++ crlf) ++ (str "\tEndGlobalSection\r\n" ++
      (str "\tGlobalSection(SolutionProperties) = preSolution\r\n" ++
      (str "\t\tHideSolutionNode = FALSE\r\n" ++ (str "\tEndGlobalSection\r\n" ++
        str "EndGlobal\r\n"))))))))))))))) := by
  obtain ⟨h1, h2, h3, h4, h5, h6, h7, h8⟩ := fixedLines
  have hentries : (s.entries.flatMap entryLines).flatMap (· ++ crlf) =
      s.entries.flatMap fun e => writeEntry e.name e.file e.uuid := by
    rw [List.flatMap_assoc]
    exact List.flatMap_congr fun e _ => entryLines_text e
  unfold Solution.lines
  simp only [List.flatMap_append, List.flatMap_cons, List.flatMap_nil, List.flatMap_map, List.map_cons,
    List.map_nil, hentries, h1, h2, h3, h4, h5, h6, h7, h8, List.append_assoc, List.append_nil]

/-- The file is the solution, line by line. -/
theorem writeSolution_eq (projects : List Project) (targets : List Target) (defcmd : Command)
    (gencmd : Option Command) :
    writeSolution projects targets defcmd gencmd =
      (solutionOf projects targets defcmd gencmd).lines.flatMap (· ++ crlf) := by
  rw [Solution.text]
  unfold writeSolution solutionOf
  cases gencmd with
  | none =>
    simp only [Option.toList_none, List.map_nil, List.flatMap_nil, List.nil_append, List.append_nil,
      List.flatMap_append, List.flatMap_cons, List.flatMap_map, List.append_assoc, defaultEntry,
      Project.entry, settingLine_configuration, builtSettings_text, List.flatMap_assoc]
  | some g =>
    simp only [Option.toList_some, List.map_cons, List.map_nil, List.flatMap_nil, List.append_nil,
      List.flatMap_append, List.flatMap_cons, List.flatMap_map, List.append_assoc, defaultEntry,
      generateEntry, Project.entry, settingLine_configuration, settingLine_active,
      builtSettings_text, List.flatMap_assoc]

end Written

/-! ## Identifiers -/

/-- An upper case digit, a dash or a brace. -/
def isUuidChar (c : Char) : Bool :=
  c.isDigit || ('A' ≤ c && c ≤ 'F') || c = '-' || c = '\x7b' || c = '\x7d'

section Uuid

theorem uuidChar_hexUpper {n : Nat} (hn : n < 16) : isUuidChar (hexUpper n) = true := by
  interval_cases n <;> decide

theorem uuidChar_hexByte (b : UInt8) : (hexByte b).all isUuidChar = true := by
  have hb : b.toNat < 256 := b.toNat_lt
  have h1 := uuidChar_hexUpper (n := b.toNat / 16) (by omega)
  have h2 := uuidChar_hexUpper (n := b.toNat % 16) (by omega)
  simp only [hexByte, List.all_cons, List.all_nil, h1, h2, Bool.and_self]

theorem uuidChar_generateUuid (h : Fin 20 → UInt8) : (generateUuid h).all isUuidChar = true := by
  have hdash : (str "-").all isUuidChar = true := by decide
  have hopen : (str "\x7b").all isUuidChar = true := by decide
  have hclose : (str "\x7d").all isUuidChar = true := by decide
  unfold generateUuid
  simp only [List.all_append, uuidChar_hexByte, hdash, hopen, hclose, Bool.and_self]

theorem not_mem_generateUuid {c : Char} (hc : isUuidChar c = false) (h : Fin 20 → UInt8) :
    c ∉ generateUuid h := by
  intro hmem
  rw [List.all_eq_true.mp (uuidChar_generateUuid h) c hmem] at hc
  cases hc

/-- The bytes of the hash with the version and the variant set. -/
def stamped (h : Fin 20 → UInt8) (i : Fin 20) : UInt8 :=
  if i.val = 6 then (h i &&& 0xF) ||| 0x50
  else if i.val = 8 then (h i &&& 0x3F) ||| 0x80
  else h i

def stampedAt (h : Fin 20 → UInt8) (n : Nat) : UInt8 := if hn : n < 20 then stamped h ⟨n, hn⟩ else 0

/-- The text of an identifier whose bytes are given. -/
def uuidText (b : Nat → UInt8) : Text :=
  str "\x7b" ++ hexByte (b 0) ++ hexByte (b 1) ++ hexByte (b 2) ++ hexByte (b 3) ++ str "-" ++
    hexByte (b 4) ++ hexByte (b 5) ++ str "-" ++ hexByte (b 6) ++ hexByte (b 7) ++ str "-" ++
    hexByte (b 8) ++ hexByte (b 9) ++ str "-" ++ hexByte (b 10) ++ hexByte (b 11) ++
    hexByte (b 12) ++ hexByte (b 13) ++ hexByte (b 14) ++ hexByte (b 15) ++ str "\x7d"

theorem generateUuid_eq (h : Fin 20 → UInt8) : generateUuid h = uuidText (stampedAt h) := rfl

theorem uuidText_digits (b : Nat → UInt8) :
    (uuidText b)[15]? = some (hexUpper ((b 6).toNat / 16)) ∧
      (uuidText b)[20]? = some (hexUpper ((b 8).toNat / 16)) := by
  have hopen : str "\x7b" = ['\x7b'] := rfl
  have hdash : str "-" = ['-'] := rfl
  unfold uuidText
  simp only [hexByte, hopen, hdash, List.cons_append, List.nil_append]
  exact ⟨rfl, rfl⟩

theorem hexUpper_inj {m n : Nat} (hm : m < 16) (hn : n < 16) (h : hexUpper m = hexUpper n) :
    m = n := by
  interval_cases m <;> interval_cases n <;> first | rfl | exact absurd h (by decide)

theorem hexByte_append_inj {a b : UInt8} {s t : Text} :
    hexByte a ++ s = hexByte b ++ t ↔ a = b ∧ s = t := by
  constructor
  · intro h
    obtain ⟨hbyte, hrest⟩ := List.append_inj h rfl
    refine ⟨UInt8.toNat_inj.mp ?_, hrest⟩
    have ha : a.toNat < 256 := a.toNat_lt
    have hb : b.toNat < 256 := b.toNat_lt
    simp only [hexByte, List.cons.injEq, and_true] at hbyte
    have hhigh := hexUpper_inj (by omega) (by omega) hbyte.1
    have hlow := hexUpper_inj (by omega) (by omega) hbyte.2
    omega
  · rintro ⟨rfl, rfl⟩
    rfl

theorem stamped_digits (h : Fin 20 → UInt8) :
    (stampedAt h 6).toNat / 16 = 5 ∧ 8 ≤ (stampedAt h 8).toNat / 16 ∧
      (stampedAt h 8).toNat / 16 < 12 := by
  have hversion : ∀ x : Fin 256, ((x.val &&& 0xF) ||| 0x50) / 16 = 5 := by decide +kernel
  have hvariant : ∀ x : Fin 256, 8 ≤ ((x.val &&& 0x3F) ||| 0x80) / 16 ∧
      ((x.val &&& 0x3F) ||| 0x80) / 16 < 12 := by decide +kernel
  exact ⟨hversion ⟨(h 6).toNat, (h 6).toNat_lt⟩, hvariant ⟨(h 8).toNat, (h 8).toNat_lt⟩⟩

/-- An upper case hexadecimal digit. -/
def isHexUpper (c : Char) : Bool := c.isDigit || ('A' ≤ c && c ≤ 'F')

/-- Groups of 8, 4, 4, 4 and 12 digits with dashes between them, in braces. -/
def Braced (s : Text) : Prop :=
  ∃ groups : List Text, groups.map List.length = [8, 4, 4, 4, 12] ∧
    (∀ g ∈ groups, ∀ c ∈ g, isHexUpper c = true) ∧
    s = '\x7b' :: List.intercalate ['-'] groups ++ ['\x7d']

theorem isHexUpper_hexUpper {n : Nat} (hn : n < 16) : isHexUpper (hexUpper n) = true := by
  interval_cases n <;> decide

theorem isHexUpper_hexByte (b : UInt8) {c : Char} (hc : c ∈ hexByte b) : isHexUpper c = true := by
  have hb : b.toNat < 256 := b.toNat_lt
  simp only [hexByte, List.mem_cons, List.not_mem_nil, or_false] at hc
  rcases hc with rfl | rfl
  · exact isHexUpper_hexUpper (by omega)
  · exact isHexUpper_hexUpper (by omega)

/-- The groups of an identifier, each of the bytes with these numbers. -/
def uuidGroups : List (List Nat) := [[0, 1, 2, 3], [4, 5], [6, 7], [8, 9], [10, 11, 12, 13, 14, 15]]

theorem uuidText_groups (b : Nat → UInt8) :
    uuidText b = '\x7b' ::
      List.intercalate ['-'] (uuidGroups.map fun l => l.flatMap fun i => hexByte (b i)) ++
        ['\x7d'] := by
  have hopen : str "\x7b" = ['\x7b'] := rfl
  have hclose : str "\x7d" = ['\x7d'] := rfl
  have hdash : str "-" = ['-'] := rfl
  have hjoin : ∀ d : Nat → Text,
      ['\x7b'] ++ d 0 ++ d 1 ++ d 2 ++ d 3 ++ ['-'] ++ d 4 ++ d 5 ++ ['-'] ++ d 6 ++ d 7 ++
          ['-'] ++ d 8 ++ d 9 ++ ['-'] ++ d 10 ++ d 11 ++ d 12 ++ d 13 ++ d 14 ++ d 15 ++ ['\x7d'] =
        '\x7b' :: List.intercalate ['-'] (uuidGroups.map fun l => l.flatMap d) ++ ['\x7d'] := by
    intro d
    simp only [uuidGroups, List.intercalate, List.map_cons, List.map_nil, List.flatMap_cons,
      List.flatMap_nil, List.append_nil, List.intersperse, List.flatten_cons, List.flatten_nil,
      List.append_assoc, List.cons_append, List.nil_append]
  unfold uuidText
  rw [hopen, hclose, hdash]
  exact hjoin fun i => hexByte (b i)

theorem braced_uuidText (b : Nat → UInt8) : Braced (uuidText b) := by
  have hlength : ∀ i, (hexByte (b i)).length = 2 := fun _ => rfl
  refine ⟨_, ?_, ?_, uuidText_groups b⟩
  · simp [uuidGroups, hlength]
  · intro g hg c hc
    obtain ⟨l, -, rfl⟩ := List.mem_map.mp hg
    obtain ⟨i, -, hi⟩ := List.mem_flatMap.mp hc
    exact isHexUpper_hexByte (b i) hi

/-- **Identifiers.** An identifier has the form of a UUID of version 5, and two of them are the
same exactly when the hashes agree in the first 16 bytes, apart from the version and the variant. -/
theorem uuid_identifies (h h' : Fin 20 → UInt8) :
    Braced (generateUuid h) ∧ (generateUuid h)[15]? = some '5' ∧
      (∃ c ∈ str "89AB", (generateUuid h)[20]? = some c) ∧
      (generateUuid h = generateUuid h' ↔ ∀ i : Fin 20, i.val < 16 → stamped h i = stamped h' i) := by
  refine ⟨?_, ?_, ?_, ?_⟩
  · rw [generateUuid_eq]
    apply braced_uuidText
  · rw [generateUuid_eq, (uuidText_digits _).1, (stamped_digits h).1]
    rfl
  · obtain ⟨-, hge, hlt⟩ := stamped_digits h
    rw [generateUuid_eq, (uuidText_digits _).2]
    refine ⟨_, ?_, rfl⟩
    generalize (stampedAt h 8).toNat / 16 = n at hge hlt
    interval_cases n <;> decide
  · rw [generateUuid_eq, generateUuid_eq]
    unfold uuidText
    simp only [List.append_assoc, List.append_cancel_left_eq, hexByte_append_inj]
    constructor
    · rintro ⟨h0, h1, h2, h3, h4, h5, h6, h7, h8, h9, h10, h11, h12, h13, h14, h15, -⟩ i hi
      fin_cases i <;> first | assumption | exact absurd hi (by decide)
    · intro hall
      have hat : ∀ n < 16, stampedAt h n = stampedAt h' n := by
        intro n hn
        unfold stampedAt
        rw [dif_pos (by omega), dif_pos (by omega), hall _ hn]
      simp only [hat 0 (by decide), hat 1 (by decide), hat 2 (by decide), hat 3 (by decide),
        hat 4 (by decide), hat 5 (by decide), hat 6 (by decide), hat 7 (by decide),
        hat 8 (by decide), hat 9 (by decide), hat 10 (by decide), hat 11 (by decide),
        hat 12 (by decide), hat 13 (by decide), hat 14 (by decide), hat 15 (by decide), and_self]

end Uuid

/-! ## The round trip -/

/-- The strings of a solution that come from the configuration. -/
structure FitSolution (projects : List Project) (targets : List Target) : Prop where
  projects : ∀ p ∈ projects, ∀ s ∈ [p.name, p.file], '"' ∉ s ∧ '\n' ∉ s
  targets : ∀ t ∈ targets, ∀ s ∈ [t.vs, t.platform], '=' ∉ s ∧ '\n' ∉ s

section RoundTrip

variable {projects : List Project} {targets : List Target}

theorem FitSolution.configuration (h : FitSolution projects targets) {t : Target}
    (ht : t ∈ targets) : '=' ∉ configuration t ∧ '\n' ∉ configuration t := by
  obtain ⟨hvs, hvs'⟩ := h.targets t ht t.vs (by simp)
  obtain ⟨hplatform, hplatform'⟩ := h.targets t ht t.platform (by simp)
  simp [Vcxproj.configuration, str, hvs, hvs', hplatform, hplatform']

/-- Every setting is about the active configuration of an identifier, or about the one that
`_BUILD_ALL` or a project is built in. -/
theorem mem_settings {defcmd : Command} {gencmd : Option Command} {e : Text × Text}
    (he : e ∈ (solutionOf projects targets defcmd gencmd).settings) :
    ∃ hash, ∃ t ∈ targets, e = activeSetting (generateUuid hash) t ∨
      e = builtSetting (generateUuid hash) t ∧
        (hash = defcmd.hash ∨ ∃ p ∈ projects, hash = p.hash) := by
  have hbuilt : ∀ hash, e ∈ builtSettings targets (generateUuid hash) → ∃ t ∈ targets,
      e = activeSetting (generateUuid hash) t ∨ e = builtSetting (generateUuid hash) t := by
    intro hash he
    obtain ⟨t, ht, he⟩ := List.mem_flatMap.mp he
    simp only [List.mem_cons, List.not_mem_nil, or_false] at he
    exact ⟨t, ht, he⟩
  simp only [solutionOf, List.mem_append, List.mem_flatMap, List.mem_map] at he
  rcases he with ⟨p, hp, he⟩ | ⟨g, -, t, ht, rfl⟩ | he
  · obtain ⟨t, ht, he⟩ := hbuilt p.hash he
    exact ⟨p.hash, t, ht, he.imp_right fun he => ⟨he, Or.inr ⟨p, hp, rfl⟩⟩⟩
  · exact ⟨g.hash, t, ht, Or.inl rfl⟩
  · obtain ⟨t, ht, he⟩ := hbuilt defcmd.hash he
    exact ⟨defcmd.hash, t, ht, he.imp_right fun he => ⟨he, Or.inl rfl⟩⟩

theorem FitSolution.fit (h : FitSolution projects targets) (defcmd : Command)
    (gencmd : Option Command) : (solutionOf projects targets defcmd gencmd).Fit := by
  have huuid : ∀ hash, '"' ∉ generateUuid hash ∧ '\n' ∉ generateUuid hash ∧
      '=' ∉ generateUuid hash := fun hash =>
    ⟨not_mem_generateUuid (by decide) hash, not_mem_generateUuid (by decide) hash,
      not_mem_generateUuid (by decide) hash⟩
  have hentry : ∀ e : SolutionEntry, '"' ∉ e.name ∧ '\n' ∉ e.name → '"' ∉ e.file ∧ '\n' ∉ e.file →
      '"' ∉ e.uuid ∧ '\n' ∉ e.uuid → ∀ s ∈ [e.name, e.file, e.uuid], '"' ∉ s ∧ '\n' ∉ s := by
    intro e hname hfile hid
    simp only [List.forall_mem_cons]
    exact ⟨hname, hfile, hid, by simp⟩
  have hid : ∀ hash, '"' ∉ generateUuid hash ∧ '\n' ∉ generateUuid hash := fun hash =>
    ⟨(huuid hash).1, (huuid hash).2.1⟩
  have hfixed : ∀ s ∈ [str "_BUILD_ALL", str "_BUILD_ALL.vcxproj", str "_GENERATE_VCXPROJ",
      str "_GENERATE_VCXPROJ.vcxproj"], '"' ∉ s ∧ '\n' ∉ s := by decide
  constructor
  · intro e he
    simp only [solutionOf, List.mem_cons, List.mem_append, List.mem_map] at he
    rcases he with rfl | ⟨g, -, rfl⟩ | ⟨p, hp, rfl⟩
    · exact hentry (defaultEntry defcmd) (hfixed (str "_BUILD_ALL") (by simp))
        (hfixed (str "_BUILD_ALL.vcxproj") (by simp)) (hid defcmd.hash)
    · exact hentry (generateEntry g) (hfixed (str "_GENERATE_VCXPROJ") (by simp))
        (hfixed (str "_GENERATE_VCXPROJ.vcxproj") (by simp)) (hid g.hash)
    · exact hentry p.entry (h.projects p hp p.name (by simp)) (h.projects p hp p.file (by simp))
        (hid p.hash)
  · intro e he
    rcases List.mem_append.mp he with he | he
    · obtain ⟨t, ht, rfl⟩ := List.mem_map.mp he
      obtain ⟨h1, h2⟩ := h.configuration ht
      exact ⟨h1, h2, h2⟩
    · obtain ⟨hash, t, ht, rfl | ⟨rfl, -⟩⟩ := mem_settings he
      · obtain ⟨h1, h2⟩ := h.configuration ht
        simp [activeSetting, str, h1, h2, huuid hash]
      · obtain ⟨h1, h2⟩ := h.configuration ht
        simp [builtSetting, str, h1, h2, huuid hash]

/-- **Solutions.** Reading the file gives back the projects in their order with their files and
identifiers, the configurations, and which configuration is active and built for each project. -/
theorem solution_round_trip (h : FitSolution projects targets) (defcmd : Command)
    (gencmd : Option Command) :
    readSolution (writeSolution projects targets defcmd gencmd) =
      some (solutionOf projects targets defcmd gencmd) := by
  rw [writeSolution_eq]
  exact (h.fit defcmd gencmd).read

theorem solution_round_trip_two :
    (readSolution (writeSolution [⟨str "lib", str "a\\lib.vcxproj", str "all", fun _ => 1, []⟩]
      [⟨str "Debug", str "debug", str "all", str "x64", [], []⟩]
      (defaultCommand (str "download.exe") (str "ninja") fun _ => 2) none)).map
        (fun s => (s.entries.map SolutionEntry.file, s.configurations)) =
      some ([str "_BUILD_ALL.vcxproj", str "a\\lib.vcxproj"],
        [(str "Debug|x64", str "Debug|x64")]) := by
  rw [solution_round_trip ⟨by decide, by decide⟩]
  rfl

end RoundTrip

end ToolchainTools.Vcxproj
