import ToolchainTools.Vcxproj.Generate
import ToolchainTools.Xml.Plain

/-!
# Project files as lines

The two kinds of project file as lines of a document, with the texts and attributes that
they are to have (`writeProject_eq`, `writeCommand_eq`). The strings of the configuration
stand in them as they are. The `&&` of the rebuild commands is escaped in the program text
already.
-/

namespace ToolchainTools.Vcxproj

open Xml

/-! ## Lines -/

/-- A line with a text that is printed as it is. -/
def plainLine (indent : Nat) (name : Text) (text : Text) : Line := .text indent name text text

def declaration : Text := str "<?xml version=\"1.0\" encoding=\"utf-8\"?>"

def rootName : Text := str "Project"

def rootAttrs : List (Text × Text) :=
  [(str "DefaultTargets", str "Build"), (str "ToolsVersion", str "14.0"),
    (str "xmlns", str "http://schemas.microsoft.com/developer/msbuild/2003")]

/-- The name of a configuration. -/
def configuration (t : Target) : Text := t.vs ++ (str "|" ++ t.platform)

/-- The condition that a configuration is in use. -/
def condition (t : Target) : Text :=
  str "'$(Configuration)|$(Platform)'=='" ++ (configuration t ++ str "'")

def configurationLines (t : Target) : List Line :=
  [.start 4 (str "ProjectConfiguration") [(str "Include", configuration t)],
    plainLine 6 (str "Configuration") t.vs,
    plainLine 6 (str "Platform") t.platform,
    .stop 4 (str "ProjectConfiguration")]

/-- The line of a file, if it is listed. -/
def itemLines (fn : PrintFn) (vcxfile : Text) (df : Text × Text) : List Line :=
  if fn.prints df.2 then
    [.empty 4 fn.kind.name [(str "Include", relativePath vcxfile df.1 ++ df.2)]]
  else []

def globalsLines (uuid name : Text) : List Line :=
  [.start 2 (str "PropertyGroup") [(str "Label", str "Globals")],
    plainLine 4 (str "ProjectGuid") uuid,
    plainLine 4 (str "Keyword") (str "MakeFileProj"),
    plainLine 4 (str "ProjectName") name,
    .stop 2 (str "PropertyGroup"),
    .empty 2 (str "Import") [(str "Project", str "$(VCTargetsPath)\\Microsoft.Cpp.Default.props")]]

def typeLines (debug : Target → Bool) (t : Target) : List Line :=
  [.start 2 (str "PropertyGroup")
      [(str "Condition", condition t), (str "Label", str "Configuration")],
    plainLine 4 (str "ConfigurationType") (str "Makefile"),
    plainLine 4 (str "UseDebugLibraries") (if debug t then str "true" else str "false"),
    plainLine 4 (str "PlatformToolset") (str "v140"),
    .stop 2 (str "PropertyGroup")]

def importLines : List Line :=
  [.empty 2 (str "Import") [(str "Project", str "$(VCTargetsPath)\\Microsoft.Cpp.props")],
    .start 2 (str "ImportGroup") [(str "Label", str "ExtensionSettings")],
    .stop 2 (str "ImportGroup"),
    .start 2 (str "ImportGroup") [(str "Label", str "Shared")],
    .stop 2 (str "ImportGroup")]

def sheetLines (t : Target) : List Line :=
  [.start 2 (str "ImportGroup")
      [(str "Label", str "PropertySheets"), (str "Condition", condition t)],
    .empty 4 (str "Import")
      [(str "Project", str "$(UserRootDir)\\Microsoft.Cpp.$(Platform).user.props"),
        (str "Condition", str "exists('$(UserRootDir)\\Microsoft.Cpp.$(Platform).user.props')"),
        (str "Label", str "LocalAppDataPlatform")],
    .stop 2 (str "ImportGroup")]

def macroLines : List Line :=
  [.empty 2 (str "PropertyGroup") [(str "Label", str "UserMacros")]]

def tailLines : List Line :=
  [.start 2 (str "ItemDefinitionGroup") [],
    .stop 2 (str "ItemDefinitionGroup"),
    .empty 2 (str "Import") [(str "Project", str "$(VCTargetsPath)\\Microsoft.Cpp.targets")],
    .start 2 (str "ImportGroup") [(str "Label", str "ExtensionTargets")],
    .stop 2 (str "ImportGroup")]

/-- A call of ninja by way of the downloader. -/
def ninjaCall (downloadExe ninjaExe option target : Text) : Text :=
  downloadExe ++ (str " $(SolutionDir) " ++ (ninjaExe ++ (option ++ target)))

/-- The line of a command that runs two commands, the second after the first. -/
def andLine (indent : Nat) (name left right : Text) : Line :=
  .text indent name (left ++ (escapedAnd ++ right)) (left ++ (str " && " ++ right))

def buildLines (p : Project) (slnDefines slnIncludes : List Text) (downloadExe ninjaExe : Text)
    (t : Target) : List Line :=
  let build := ninjaCall downloadExe ninjaExe (str " ") (ninjaTarget p t)
  let clean := ninjaCall downloadExe ninjaExe (str " -t clean ") (ninjaTarget p t)
  [.start 2 (str "PropertyGroup") [(str "Condition", condition t)],
    plainLine 4 (str "NMakeOutput")
      (str "$(SolutionDir)\\" ++ replaceChar (ninjaTarget p t) '/' '\\'),
    plainLine 4 (str "NMakePreprocessorDefinitions") (joinDefines (slnDefines ++ t.defines)),
    plainLine 4 (str "NMakeBuildCommandLine") build,
    andLine 4 (str "NMakeReBuildCommandLine") clean build,
    plainLine 4 (str "NMakeCleanCommandLine") clean,
    plainLine 4 (str "NMakeIncludeSearchPath")
      (str "$(ProjectDir)" ++ joinIncludes (slnIncludes ++ t.includes)),
    plainLine 4 (str "IntDir") (str "$(SolutionDir)\\obj\\$(Configuration)\\"),
    .empty 4 (str "SourcePath") [],
    .empty 4 (str "ExcludePath") [],
    .stop 2 (str "PropertyGroup")]

def groupBreak : List Line := [.stop 2 (str "ItemGroup"), .start 2 (str "ItemGroup") []]

/-- The lines of a project file. -/
def projectLines (list : Text → List Text) (p : Project) (tgts : List Target)
    (slnDefines slnIncludes : List Text) (downloadExe ninjaExe : Text) : List Line :=
  let items (fn : PrintFn) :=
    p.dirs.flatMap fun dir => (filesOf list dir).flatMap (itemLines fn p.file)
  [.start 2 (str "ItemGroup") [(str "Label", str "ProjectConfigurations")]] ++
  tgts.flatMap configurationLines ++ groupBreak ++ items printCfile ++ groupBreak ++
  items printHfile ++ groupBreak ++ items printOther ++ [.stop 2 (str "ItemGroup")] ++
  globalsLines (generateUuid p.hash) p.name ++ tgts.flatMap (typeLines isDebugTarget) ++
  importLines ++ tgts.flatMap sheetLines ++ macroLines ++
  tgts.flatMap (buildLines p slnDefines slnIncludes downloadExe ninjaExe) ++ tailLines

/-- The command of a target, for the default target that it names. -/
def forDefault (t : Target) (command : Text) : Text :=
  dupWithReplacement command (str "\x7bDEFAULT\x7d") t.defaultTarget

/-- The lines of the files that a command file lists. -/
def commandItems (list : Text → List Text) (filesFn : Option PrintFn) : List Line :=
  match filesFn with
  | some fn => (filesOf list (str ".")).flatMap (itemLines fn [])
  | none => []

/-- The lines of a command file, around the lines for the targets. -/
def commandFileLines (list : Text → List Text) (uuid name : Text) (tgts : List Target)
    (filesFn : Option PrintFn) (lines : Target → List Line) : List Line :=
  [.start 2 (str "ItemGroup") [(str "Label", str "ProjectConfigurations")]] ++
  tgts.flatMap configurationLines ++ groupBreak ++ commandItems list filesFn ++
  [.stop 2 (str "ItemGroup")] ++
  globalsLines uuid name ++ tgts.flatMap (typeLines fun _ => false) ++
  importLines ++ tgts.flatMap sheetLines ++ macroLines ++ tgts.flatMap lines ++ tailLines

/-- The command lines of one target. -/
def commandLines (c : Command) (t : Target) : List Line :=
  [.start 2 (str "PropertyGroup") [(str "Condition", condition t)],
    plainLine 4 (str "NMakeBuildCommandLine") (forDefault t c.build),
    plainLine 4 (str "NMakeReBuildCommandLine") (forDefault t c.rebuild),
    plainLine 4 (str "NMakeCleanCommandLine") (forDefault t c.clean),
    .stop 2 (str "PropertyGroup")]

/-- The command lines of one target in `_BUILD_ALL`. -/
def defaultLines (downloadExe ninjaExe : Text) (t : Target) : List Line :=
  let call option := ninjaCall (forDefault t downloadExe) (forDefault t ninjaExe) option
    t.defaultTarget
  let build := call (str " ")
  let clean := call (str " -t clean ")
  [.start 2 (str "PropertyGroup") [(str "Condition", condition t)],
    plainLine 4 (str "NMakeBuildCommandLine") build,
    andLine 4 (str "NMakeReBuildCommandLine") clean build,
    plainLine 4 (str "NMakeCleanCommandLine") clean,
    .stop 2 (str "PropertyGroup")]

/-! ## The files are these lines -/

section Render

variable {n : Nat} {name pre post : Text}

/-- The fixed text around a string between two tags. -/
def Tags (n : Nat) (name fixed pre post : Text) : Prop :=
  spaces n ++ '<' :: (name ++ '>' :: fixed) = pre ∧ '<' :: '/' :: (name ++ '>' :: crlf) = post

instance (n : Nat) (name fixed pre post : Text) : Decidable (Tags n name fixed pre post) :=
  instDecidableAnd

theorem render_plainLine (h : Tags n name [] pre post) (x : Text) :
    (plainLine n name x).render = pre ++ (x ++ post) := by
  obtain ⟨rfl, rfl⟩ := h
  simp [plainLine, Line.render]

theorem render_plainLine_fixed {fixed : Text} (h : Tags n name fixed pre post) (x : Text) :
    (plainLine n name (fixed ++ x)).render = pre ++ (x ++ post) := by
  obtain ⟨rfl, rfl⟩ := h
  simp [plainLine, Line.render]

theorem render_andLine (h : Tags n name [] pre post) (left right : Text) :
    (andLine n name left right).render = pre ++ (left ++ (escapedAnd ++ (right ++ post))) := by
  obtain ⟨rfl, rfl⟩ := h
  simp [andLine, Line.render]

/-- A start tag with a string within one of its attributes. -/
theorem render_start (x : Text) (before after : List (Text × Text)) (a fixed fixed' : Text)
    (h : spaces n ++ '<' :: (name ++ (renderAttrs before ++ ' ' :: (a ++ '=' :: '"' :: fixed))) =
        pre ∧ fixed' ++ '"' :: (renderAttrs after ++ '>' :: crlf) = post) :
    (Line.start n name (before ++ (a, fixed ++ (x ++ fixed')) :: after)).render =
      pre ++ (x ++ post) := by
  obtain ⟨rfl, rfl⟩ := h
  simp [Line.render, renderAttrs]

end Render

/-- The start of a group of one configuration. -/
theorem render_condition (t : Target) :
    (Line.start 2 (str "PropertyGroup") [(str "Condition", condition t)]).render =
      str "  <PropertyGroup Condition=\"'$(Configuration)|$(Platform)'=='" ++
        (configuration t ++ str "'\">\r\n") :=
  render_start _ [] [] (str "Condition") (str "'$(Configuration)|$(Platform)'=='") (str "'")
    (by decide)

theorem writeConfigurations_eq (tgts : List Target) :
    writeConfigurations tgts = (tgts.flatMap configurationLines).flatMap Line.render := by
  rw [List.flatMap_assoc]
  refine congrArg (tgts.flatMap ·) (funext fun t => ?_)
  have hstart : (Line.start 4 (str "ProjectConfiguration")
      [(str "Include", configuration t)]).render =
      str "    <ProjectConfiguration Include=\"" ++ (configuration t ++ str "\">\r\n") := by
    have h : (Line.start 4 (str "ProjectConfiguration")
        [(str "Include", configuration t ++ [])]).render = _ :=
      render_start _ [] [] (str "Include") [] [] ⟨rfl, rfl⟩
    have hfixed : spaces 4 ++ '<' :: (str "ProjectConfiguration" ++ (renderAttrs [] ++
        ' ' :: (str "Include" ++ ['=', '"']))) = str "    <ProjectConfiguration Include=\"" ∧
        [] ++ '"' :: (renderAttrs [] ++ '>' :: crlf) = str "\">\r\n" := by decide
    rwa [hfixed.1, hfixed.2, List.append_nil] at h
  obtain ⟨h1, h2, h3⟩ :
      Tags 6 (str "Configuration") [] (str "      <Configuration>")
        (str "</Configuration>\r\n") ∧
      Tags 6 (str "Platform") [] (str "      <Platform>") (str "</Platform>\r\n") ∧
      (Line.stop 4 (str "ProjectConfiguration")).render =
        str "    </ProjectConfiguration>\r\n" := by decide
  simp only [configurationLines, List.flatMap_cons, List.flatMap_nil, hstart, render_plainLine h1,
    render_plainLine h2, h3]
  simp only [configuration, List.append_assoc, List.append_nil]

theorem printFiles_eq (list : Text → List Text) (fn : PrintFn) (vcxfile dir : Text) :
    printFiles list fn vcxfile dir =
      ((filesOf list dir).flatMap (itemLines fn vcxfile)).flatMap Line.render := by
  rw [List.flatMap_assoc]
  refine congrArg ((filesOf list dir).flatMap ·) (funext fun df => ?_)
  unfold itemLines PrintFn.print
  split
  · simp [printItem, Line.render, renderAttrs, spaces, crlf, str]
  · rfl

theorem writeGlobals_eq (uuid name : Text) :
    writeGlobals uuid name = (globalsLines uuid name).flatMap Line.render := by
  obtain ⟨h1, h2, h3, h4, h5, h6⟩ :
      (Line.start 2 (str "PropertyGroup") [(str "Label", str "Globals")]).render =
        str "  <PropertyGroup Label=\"Globals\">\r\n" ∧
      Tags 4 (str "ProjectGuid") [] (str "    <ProjectGuid>") (str "</ProjectGuid>\r\n") ∧
      (plainLine 4 (str "Keyword") (str "MakeFileProj")).render =
        str "    <Keyword>MakeFileProj</Keyword>\r\n" ∧
      Tags 4 (str "ProjectName") [] (str "    <ProjectName>") (str "</ProjectName>\r\n") ∧
      (Line.stop 2 (str "PropertyGroup")).render = str "  </PropertyGroup>\r\n" ∧
      (Line.empty 2 (str "Import")
        [(str "Project", str "$(VCTargetsPath)\\Microsoft.Cpp.Default.props")]).render =
        str "  <Import Project=\"$(VCTargetsPath)\\Microsoft.Cpp.Default.props\" />\r\n" := by
    decide
  simp only [writeGlobals, globalsLines, List.flatMap_cons, List.flatMap_nil, h1,
    render_plainLine h2, h3, render_plainLine h4, h5, h6, List.append_assoc, List.append_nil]

theorem writeTypes_eq (tgts : List Target) (debug : Target → Bool) :
    writeTypes tgts debug = (tgts.flatMap (typeLines debug)).flatMap Line.render := by
  rw [List.flatMap_assoc]
  refine congrArg (tgts.flatMap ·) (funext fun t => ?_)
  have hstart : (Line.start 2 (str "PropertyGroup")
      [(str "Condition", condition t), (str "Label", str "Configuration")]).render =
      str "  <PropertyGroup Condition=\"'$(Configuration)|$(Platform)'=='" ++
        (configuration t ++ str "'\" Label=\"Configuration\">\r\n") :=
    render_start _ [] [(str "Label", str "Configuration")] (str "Condition")
      (str "'$(Configuration)|$(Platform)'=='") (str "'") (by decide)
  obtain ⟨h1, h2, h3, h4⟩ :
      (plainLine 4 (str "ConfigurationType") (str "Makefile")).render =
        str "    <ConfigurationType>Makefile</ConfigurationType>\r\n" ∧
      Tags 4 (str "UseDebugLibraries") [] (str "    <UseDebugLibraries>")
        (str "</UseDebugLibraries>\r\n") ∧
      (plainLine 4 (str "PlatformToolset") (str "v140")).render =
        str "    <PlatformToolset>v140</PlatformToolset>\r\n" ∧
      (Line.stop 2 (str "PropertyGroup")).render = str "  </PropertyGroup>\r\n" := by
    decide
  simp only [typeLines, List.flatMap_cons, List.flatMap_nil, hstart, h1, render_plainLine h2, h3,
    h4]
  simp only [configuration, List.append_assoc, List.append_nil]

theorem writeSheets_eq (tgts : List Target) :
    writeSheets tgts = (tgts.flatMap sheetLines).flatMap Line.render := by
  rw [List.flatMap_assoc]
  refine congrArg (tgts.flatMap ·) (funext fun t => ?_)
  have hstart : (Line.start 2 (str "ImportGroup")
      [(str "Label", str "PropertySheets"), (str "Condition", condition t)]).render =
      str "  <ImportGroup Label=\"PropertySheets\" Condition=\"'$(Configuration)|$(Platform)'=='" ++
        (configuration t ++ str "'\">\r\n") :=
    render_start _ [(str "Label", str "PropertySheets")] [] (str "Condition")
      (str "'$(Configuration)|$(Platform)'=='") (str "'") (by decide)
  obtain ⟨h1, h2⟩ :
      (Line.empty 4 (str "Import")
        [(str "Project", str "$(UserRootDir)\\Microsoft.Cpp.$(Platform).user.props"),
          (str "Condition", str "exists('$(UserRootDir)\\Microsoft.Cpp.$(Platform).user.props')"),
          (str "Label", str "LocalAppDataPlatform")]).render =
        str "    <Import Project=\"$(UserRootDir)\\Microsoft.Cpp.$(Platform).user.props\"" ++
          (str " Condition=\"exists('$(UserRootDir)\\Microsoft.Cpp.$(Platform).user.props')\"" ++
          str " Label=\"LocalAppDataPlatform\" />\r\n") ∧
      (Line.stop 2 (str "ImportGroup")).render = str "  </ImportGroup>\r\n" := by
    decide +kernel
  simp only [sheetLines, List.flatMap_cons, List.flatMap_nil, hstart, h1, h2]
  simp only [configuration, List.append_assoc, List.append_nil]

/-- The tags of the command lines. -/
theorem commandTags :
    Tags 4 (str "NMakeBuildCommandLine") [] (str "    <NMakeBuildCommandLine>")
      (str "</NMakeBuildCommandLine>\r\n") ∧
    Tags 4 (str "NMakeReBuildCommandLine") [] (str "    <NMakeReBuildCommandLine>")
      (str "</NMakeReBuildCommandLine>\r\n") ∧
    Tags 4 (str "NMakeCleanCommandLine") [] (str "    <NMakeCleanCommandLine>")
      (str "</NMakeCleanCommandLine>\r\n") ∧
    (Line.stop 2 (str "PropertyGroup")).render = str "  </PropertyGroup>\r\n" := by
  decide

theorem writeBuild_eq (p : Project) (slnDefines slnIncludes : List Text)
    (downloadExe ninjaExe : Text) (t : Target) :
    writeBuild p slnDefines slnIncludes downloadExe ninjaExe t =
      (buildLines p slnDefines slnIncludes downloadExe ninjaExe t).flatMap Line.render := by
  obtain ⟨hbuild, hrebuild, hclean, hstop⟩ := commandTags
  obtain ⟨h1, h2, h3, h4, h5, h6⟩ :
      Tags 4 (str "NMakeOutput") (str "$(SolutionDir)\\")
        (str "    <NMakeOutput>$(SolutionDir)\\") (str "</NMakeOutput>\r\n") ∧
      Tags 4 (str "NMakePreprocessorDefinitions") [] (str "    <NMakePreprocessorDefinitions>")
        (str "</NMakePreprocessorDefinitions>\r\n") ∧
      Tags 4 (str "NMakeIncludeSearchPath") (str "$(ProjectDir)")
        (str "    <NMakeIncludeSearchPath>$(ProjectDir)")
        (str "</NMakeIncludeSearchPath>\r\n") ∧
      (plainLine 4 (str "IntDir") (str "$(SolutionDir)\\obj\\$(Configuration)\\")).render =
        str "    <IntDir>$(SolutionDir)\\obj\\$(Configuration)\\</IntDir>\r\n" ∧
      (Line.empty 4 (str "SourcePath") []).render = str "    <SourcePath />\r\n" ∧
      (Line.empty 4 (str "ExcludePath") []).render = str "    <ExcludePath />\r\n" := by
    decide
  simp only [buildLines, List.flatMap_cons, List.flatMap_nil, render_condition,
    render_plainLine_fixed h1, render_plainLine h2, render_plainLine hbuild,
    render_andLine hrebuild, render_plainLine hclean, render_plainLine_fixed h3, h4, h5, h6, hstop]
  unfold writeBuild
  simp only [ninjaCall, escapedAnd, configuration, List.append_assoc, List.append_nil]

theorem writeCommandLines_eq (c : Command) (t : Target) :
    writeCommandLines c t = (commandLines c t).flatMap Line.render := by
  obtain ⟨hbuild, hrebuild, hclean, hstop⟩ := commandTags
  simp only [commandLines, List.flatMap_cons, List.flatMap_nil, render_condition,
    render_plainLine hbuild, render_plainLine hrebuild, render_plainLine hclean, hstop]
  simp only [writeCommandLines, forDefault, configuration, List.append_assoc, List.append_nil]

/-- The document of these lines. -/
def projectDocument (lines : List Line) : Text := document declaration rootName rootAttrs lines

theorem document_eq (lines : List Line) :
    projectDocument lines =
      str "\uFEFF<?xml version=\"1.0\" encoding=\"utf-8\"?>\r\n" ++
      (str "<Project DefaultTargets=\"Build\" ToolsVersion=\"14.0\"" ++
      str " xmlns=\"http://schemas.microsoft.com/developer/msbuild/2003\">\r\n" ++
      (lines.flatMap Line.render ++ str "</Project>\r\n")) := by
  obtain ⟨h1, h2, h3⟩ :
      '\uFEFF' :: (declaration ++ crlf) =
        str "\uFEFF<?xml version=\"1.0\" encoding=\"utf-8\"?>\r\n" ∧
      '<' :: (rootName ++ (renderAttrs rootAttrs ++ '>' :: crlf)) =
        str "<Project DefaultTargets=\"Build\" ToolsVersion=\"14.0\"" ++
          str " xmlns=\"http://schemas.microsoft.com/developer/msbuild/2003\">\r\n" ∧
      '<' :: '/' :: (rootName ++ '>' :: crlf) = str "</Project>\r\n" := by
    decide
  rw [← h1, ← h2, ← h3]
  simp only [projectDocument, document, List.append_assoc, List.cons_append]

/-- The parts without any string of the configuration. -/
theorem writeFixed_eq :
    (Line.start 2 (str "ItemGroup") [(str "Label", str "ProjectConfigurations")]).render =
      str "  <ItemGroup Label=\"ProjectConfigurations\">\r\n" ∧
    writeImports = importLines.flatMap Line.render ∧
    writeMacros = macroLines.flatMap Line.render ∧
    writeTail = tailLines.flatMap Line.render ++ str "</Project>\r\n" ∧
    groupBreak.flatMap Line.render = str "  </ItemGroup>\r\n" ++ str "  <ItemGroup>\r\n" ∧
    (Line.stop 2 (str "ItemGroup")).render = str "  </ItemGroup>\r\n" := by
  decide +kernel

theorem writeProject_eq (list : Text → List Text) (p : Project) (tgts : List Target)
    (slnDefines slnIncludes : List Text) (downloadExe ninjaExe : Text) :
    writeProject list p tgts slnDefines slnIncludes downloadExe ninjaExe =
      projectDocument (projectLines list p tgts slnDefines slnIncludes downloadExe ninjaExe) := by
  have hitems (fn : PrintFn) : p.dirs.flatMap (printFiles list fn p.file) =
      (p.dirs.flatMap fun dir => (filesOf list dir).flatMap (itemLines fn p.file)).flatMap
        Line.render := by
    rw [List.flatMap_assoc]
    exact congrArg (p.dirs.flatMap ·) (funext fun dir => printFiles_eq list fn p.file dir)
  have hbuild : tgts.flatMap (writeBuild p slnDefines slnIncludes downloadExe ninjaExe) =
      (tgts.flatMap (buildLines p slnDefines slnIncludes downloadExe ninjaExe)).flatMap
        Line.render := by
    rw [List.flatMap_assoc]
    exact congrArg (tgts.flatMap ·)
      (funext fun t => writeBuild_eq p slnDefines slnIncludes downloadExe ninjaExe t)
  obtain ⟨hhead, himports, hmacros, htail, hbreak, hend⟩ := writeFixed_eq
  have hsingle (l : Line) : [l].flatMap Line.render = l.render := by simp
  rw [document_eq]
  unfold writeProject
  simp only [projectLines, writeHead, hhead, writeConfigurations_eq, hitems, writeGlobals_eq,
    writeTypes_eq, himports, writeSheets_eq, hmacros, hbuild, htail, List.flatMap_append, hbreak,
    hsingle, hend, List.append_assoc]

/-- A command file with the lines that it has for each target. -/
theorem writeCommand_eq (list : Text → List Text) (c : Command) (tgts : List Target)
    (filesFn : Option PrintFn) (lines : Target → List Line)
    (hlines : ∀ t, writeCommandLines c t = (lines t).flatMap Line.render) :
    writeCommand list c tgts filesFn =
      projectDocument
        (commandFileLines list (generateUuid c.hash) c.name tgts filesFn lines) := by
  obtain ⟨hhead, himports, hmacros, htail, hbreak, hend⟩ := writeFixed_eq
  have hsingle (l : Line) : [l].flatMap Line.render = l.render := by simp
  have hcommands : tgts.flatMap (writeCommandLines c) = (tgts.flatMap lines).flatMap Line.render := by
    rw [List.flatMap_assoc]
    exact congrArg (tgts.flatMap ·) (funext hlines)
  rw [document_eq]
  unfold writeCommand
  cases filesFn with
  | none =>
    simp only [commandFileLines, commandItems, writeHead, hhead, writeConfigurations_eq, writeGlobals_eq,
      writeTypes_eq, himports, writeSheets_eq, hmacros, hcommands, htail, List.flatMap_append,
      hbreak, hsingle, hend, List.append_assoc, List.nil_append]
  | some fn =>
    simp only [commandFileLines, commandItems, writeHead, hhead, writeConfigurations_eq, writeGlobals_eq,
      writeTypes_eq, himports, writeSheets_eq, hmacros, hcommands, htail, List.flatMap_append,
      hbreak, hsingle, hend, List.append_assoc, printFiles_eq]

end ToolchainTools.Vcxproj
