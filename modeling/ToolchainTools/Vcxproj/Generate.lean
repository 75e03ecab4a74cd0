import ToolchainTools.Xml.Parse

/-!
# Project files (`tools/generate-vcxproj/generate.c`)

The functions that print the project files, with what they print as their result. A
string is the list of its characters. `list` stands for the directories: it gives the
names of the regular files in one. The SHA-1 hash that a project's identifier is made of
is part of the project.
-/

namespace ToolchainTools.Vcxproj

open Xml

structure Project where
  name : Text
  file : Text
  target : Text
  hash : Fin 20 → UInt8
  dirs : List Text

structure Command where
  name : Text
  build : Text
  clean : Text
  rebuild : Text
  hash : Fin 20 → UInt8

structure Target where
  vs : Text
  ninja : Text
  defaultTarget : Text
  platform : Text
  defines : List Text
  includes : List Text

/-! ## Strings -/

/-- The suffix from the last dot on. -/
def extension (file : Text) : Text :=
  if '.' ∈ file then '.' :: (file.reverse.takeWhile (· ≠ '.')).reverse else []

/-- `strcasecmp(a, b) == 0`. -/
def strcaseeq (a b : Text) : Bool := a.map Char.toLower = b.map Char.toLower

def replaceChar (s : Text) (old new : Char) : Text := s.map fun c => if c = old then new else c

/-- Every occurrence of `test`, which is not empty, replaced from left to right. -/
def dupWithReplacement (src test replacement : Text) : Text :=
  match src with
  | [] => []
  | c :: cs =>
    if test.isPrefixOf (c :: cs) then
      replacement ++ dupWithReplacement (cs.drop (test.length - 1)) test replacement
    else c :: dupWithReplacement cs test replacement
termination_by src.length
decreasing_by
  · simp only [List.length_drop, List.length_cons]
    omega
  · simp

/-- The loop that removes the directories which both paths start with. -/
def commonDirs (vcxfile dir : Text) : Text × Text :=
  if _h : '\\' ∈ vcxfile then
    let first := vcxfile.takeWhile (· ≠ '\\')
    let behind := (vcxfile.dropWhile (· ≠ '\\')).tail
    if first.isPrefixOf dir then
      match dir.drop first.length with
      | [] => commonDirs behind []
      | c :: rest => if c = '\\' then commonDirs behind rest else (vcxfile, dir)
    else (vcxfile, dir)
  else (vcxfile, dir)
termination_by vcxfile.length
decreasing_by
  all_goals
    have hdrop := (List.dropWhile_suffix (· ≠ '\\') (l := vcxfile)).length_le
    have hpos := List.length_pos_of_mem _h
    simp only [List.length_tail]
    omega

/-- The loop that goes up to the common directory. -/
def upDirs (prev : Text) : Text :=
  match _h : prev.dropWhile (· ≠ '\\') with
  | [] => []
  | c :: next => str "..\\" ++ upDirs ((c :: next).dropWhile (· = '\\'))
termination_by prev.length
decreasing_by
  have hc : c = '\\' := by
    have := List.head?_dropWhile_not (· ≠ '\\') prev
    rw [_h] at this
    simpa using this
  have h1 := (List.dropWhile_suffix (· ≠ '\\') (l := prev)).length_le
  have h2 := (List.dropWhile_suffix (· = '\\') (l := next)).length_le
  rw [_h, List.length_cons] at h1
  rw [List.dropWhile_cons, if_pos (by simpa using hc)]
  omega

/-- `print_relative_path`. -/
def relativePath (vcxfile dir : Text) : Text :=
  let r := commonDirs vcxfile dir
  upDirs r.1 ++ if r.2 = [] then [] else r.2 ++ str "\\"

/-! ## Files -/

/-- The line for one file, under the name of its kind. -/
def printItem (kind vcxfile dir file : Text) : Text :=
  str "    <" ++ kind ++ str " Include=\"" ++ relativePath vcxfile dir ++ file ++ str "\" />\r\n"

/-- The extension is one of a list. -/
def hasExtension (file : Text) (exts : List Text) : Bool := exts.any (strcaseeq (extension file))

/-- The elements that files are listed as. -/
inductive Kind where
  | clCompile
  | clInclude
  | none
  deriving DecidableEq

def Kind.name : Kind → Text
  | clCompile => str "ClCompile"
  | clInclude => str "ClInclude"
  | none => str "None"

/-- A `print_fn`: whether it prints a file, and as what. -/
structure PrintFn where
  kind : Kind
  prints : Text → Bool

def PrintFn.print (fn : PrintFn) (vcxfile dir file : Text) : Text :=
  if fn.prints file then printItem fn.kind.name vcxfile dir file else []

def printCfile : PrintFn :=
  ⟨.clCompile, fun file => hasExtension file [str ".c", str ".cpp", str ".s", str ".asm"]⟩

def printHfile : PrintFn :=
  ⟨.clInclude, fun file => hasExtension file [str ".h", str ".hpp"]⟩

def printOther : PrintFn :=
  ⟨.none, fun file => hasExtension file [str ".proto", str ".txt", str ".css", str ".js",
    str ".html", str ".sh", str ".json"]⟩

def printNinja : PrintFn :=
  ⟨.none, fun file =>
    hasExtension file [str ".ninja"] || strcaseeq file (str "download.manifest")⟩

/-- The directories and files that `print_files` hands to its function. When a directory has no
files, it may be a file itself. -/
def filesOf (list : Text → List Text) (dir : Text) : List (Text × Text) :=
  let files := (list (replaceChar dir '\\' '/')).mergeSort fun a b => decide (a ≤ b)
  let dir := replaceChar (replaceChar dir '\\' '/') '/' '\\'
  if files = [] then
    if '\\' ∈ dir then
      let last := (dir.reverse.takeWhile (· ≠ '\\')).reverse
      [(dir.take (dir.length - last.length - 1), last)]
    else [([], dir)]
  else files.map fun file => (dir, file)

def printFiles (list : Text → List Text) (fn : PrintFn) (vcxfile dir : Text) : Text :=
  (filesOf list dir).flatMap fun df => fn.print vcxfile df.1 df.2

/-! ## Identifiers -/

def hexUpper (n : Nat) : Char := if n < 10 then Char.ofNat (48 + n) else Char.ofNat (55 + n)

/-- `%02X`. -/
def hexByte (b : UInt8) : Text := [hexUpper (b.toNat / 16), hexUpper (b.toNat % 16)]

/-- `generate_uuid`, from the hash on. -/
def generateUuid (h : Fin 20 → UInt8) : Text :=
  let h : Fin 20 → UInt8 := fun i =>
    if i = 6 then (h 6 &&& 0xF) ||| 0x50 else if i = 8 then (h 8 &&& 0x3F) ||| 0x80 else h i
  str "\x7b" ++ hexByte (h 0) ++ hexByte (h 1) ++ hexByte (h 2) ++ hexByte (h 3) ++
    str "-" ++ hexByte (h 4) ++ hexByte (h 5) ++ str "-" ++ hexByte (h 6) ++ hexByte (h 7) ++
    str "-" ++ hexByte (h 8) ++ hexByte (h 9) ++ str "-" ++ hexByte (h 10) ++ hexByte (h 11) ++
    hexByte (h 12) ++ hexByte (h 13) ++ hexByte (h 14) ++ hexByte (h 15) ++ str "\x7d"

/-! ## Project files -/

def isDebugTarget (t : Target) : Bool :=
  t.defines.any fun d => d = str "_DEBUG" || d = str "DEBUG"

/-- What both kinds of project file start with. -/
def writeHead : Text :=
  str "\uFEFF<?xml version=\"1.0\" encoding=\"utf-8\"?>\r\n" ++
  str "<Project DefaultTargets=\"Build\" ToolsVersion=\"14.0\"" ++
    str " xmlns=\"http://schemas.microsoft.com/developer/msbuild/2003\">\r\n" ++
  str "  <ItemGroup Label=\"ProjectConfigurations\">\r\n"

def writeConfigurations (tgts : List Target) : Text :=
  tgts.flatMap fun t =>
    str "    <ProjectConfiguration Include=\"" ++ t.vs ++ str "|" ++ t.platform ++ str "\">\r\n" ++
    str "      <Configuration>" ++ t.vs ++ str "</Configuration>\r\n" ++
    str "      <Platform>" ++ t.platform ++ str "</Platform>\r\n" ++
    str "    </ProjectConfiguration>\r\n"

def writeGlobals (uuid name : Text) : Text :=
  str "  <PropertyGroup Label=\"Globals\">\r\n" ++
  str "    <ProjectGuid>" ++ uuid ++ str "</ProjectGuid>\r\n" ++
  str "    <Keyword>MakeFileProj</Keyword>\r\n" ++
  str "    <ProjectName>" ++ name ++ str "</ProjectName>\r\n" ++
  str "  </PropertyGroup>\r\n" ++
  str "  <Import Project=\"$(VCTargetsPath)\\Microsoft.Cpp.Default.props\" />\r\n"

/-- The configuration groups; a command has none with debug libraries. -/
def writeTypes (tgts : List Target) (debug : Target → Bool) : Text :=
  tgts.flatMap fun t =>
    str "  <PropertyGroup Condition=\"'$(Configuration)|$(Platform)'=='" ++ t.vs ++ str "|" ++
      t.platform ++ str "'\" Label=\"Configuration\">\r\n" ++
    str "    <ConfigurationType>Makefile</ConfigurationType>\r\n" ++
    str "    <UseDebugLibraries>" ++ (if debug t then str "true" else str "false") ++
      str "</UseDebugLibraries>\r\n" ++
    str "    <PlatformToolset>v140</PlatformToolset>\r\n" ++
    str "  </PropertyGroup>\r\n"

def writeImports : Text :=
  str "  <Import Project=\"$(VCTargetsPath)\\Microsoft.Cpp.props\" />\r\n" ++
  str "  <ImportGroup Label=\"ExtensionSettings\">\r\n" ++
  str "  </ImportGroup>\r\n" ++
  str "  <ImportGroup Label=\"Shared\">\r\n" ++
  str "  </ImportGroup>\r\n"

def writeSheets (tgts : List Target) : Text :=
  tgts.flatMap fun t =>
    str "  <ImportGroup Label=\"PropertySheets\" Condition=\"'$(Configuration)|$(Platform)'=='" ++
      t.vs ++ str "|" ++ t.platform ++ str "'\">\r\n" ++
    str "    <Import Project=\"$(UserRootDir)\\Microsoft.Cpp.$(Platform).user.props\"" ++
      str " Condition=\"exists('$(UserRootDir)\\Microsoft.Cpp.$(Platform).user.props')\"" ++
      str " Label=\"LocalAppDataPlatform\" />\r\n" ++
    str "  </ImportGroup>\r\n"

def writeMacros : Text := str "  <PropertyGroup Label=\"UserMacros\" />\r\n"

def writeTail : Text :=
  str "  <ItemDefinitionGroup>\r\n" ++
  str "  </ItemDefinitionGroup>\r\n" ++
  str "  <Import Project=\"$(VCTargetsPath)\\Microsoft.Cpp.targets\" />\r\n" ++
  str "  <ImportGroup Label=\"ExtensionTargets\">\r\n" ++
  str "  </ImportGroup>\r\n" ++
  str "</Project>\r\n"

/-- The two loops over the definitions, with the semicolons between them. -/
def joinDefines (defines : List Text) : Text :=
  match defines with
  | [] => []
  | d :: ds => d ++ ds.flatMap fun d => ';' :: d

/-- The loops over the search path. -/
def joinIncludes (includes : List Text) : Text :=
  includes.flatMap fun inc => str ";$(SolutionDir)\\" ++ inc

/-- The target of a project in the words of ninja. -/
def ninjaTarget (p : Project) (t : Target) : Text :=
  dupWithReplacement p.target (str "\x7bTGT\x7d") t.ninja

def writeBuild (p : Project) (slnDefines slnIncludes : List Text) (downloadExe ninjaExe : Text)
    (t : Target) : Text :=
  let njtgt := ninjaTarget p t
  let vstgt := replaceChar njtgt '/' '\\'
  str "  <PropertyGroup Condition=\"'$(Configuration)|$(Platform)'=='" ++ t.vs ++ str "|" ++
    t.platform ++ str "'\">\r\n" ++
  str "    <NMakeOutput>$(SolutionDir)\\" ++ vstgt ++ str "</NMakeOutput>\r\n" ++
  str "    <NMakePreprocessorDefinitions>" ++ joinDefines (slnDefines ++ t.defines) ++
    str "</NMakePreprocessorDefinitions>\r\n" ++
  str "    <NMakeBuildCommandLine>" ++ downloadExe ++ str " $(SolutionDir) " ++ ninjaExe ++
    str " " ++ njtgt ++ str "</NMakeBuildCommandLine>\r\n" ++
  str "    <NMakeReBuildCommandLine>" ++ downloadExe ++ str " $(SolutionDir) " ++ ninjaExe ++
    str " -t clean " ++ njtgt ++ str " &amp;&amp; " ++ downloadExe ++ str " $(SolutionDir) " ++
    ninjaExe ++ str " " ++ njtgt ++ str "</NMakeReBuildCommandLine>\r\n" ++
  str "    <NMakeCleanCommandLine>" ++ downloadExe ++ str " $(SolutionDir) " ++ ninjaExe ++
    str " -t clean " ++ njtgt ++ str "</NMakeCleanCommandLine>\r\n" ++
  str "    <NMakeIncludeSearchPath>$(ProjectDir)" ++ joinIncludes (slnIncludes ++ t.includes) ++
    str "</NMakeIncludeSearchPath>\r\n" ++
  str "    <IntDir>$(SolutionDir)\\obj\\$(Configuration)\\</IntDir>\r\n" ++
  str "    <SourcePath />\r\n" ++
  str "    <ExcludePath />\r\n" ++
  str "  </PropertyGroup>\r\n"

def writeProject (list : Text → List Text) (p : Project) (tgts : List Target)
    (slnDefines slnIncludes : List Text) (downloadExe ninjaExe : Text) : Text :=
  writeHead ++ writeConfigurations tgts ++
  str "  </ItemGroup>\r\n" ++ str "  <ItemGroup>\r\n" ++
  p.dirs.flatMap (printFiles list printCfile p.file) ++
  str "  </ItemGroup>\r\n" ++ str "  <ItemGroup>\r\n" ++
  p.dirs.flatMap (printFiles list printHfile p.file) ++
  str "  </ItemGroup>\r\n" ++ str "  <ItemGroup>\r\n" ++
  p.dirs.flatMap (printFiles list printOther p.file) ++
  str "  </ItemGroup>\r\n" ++
  writeGlobals (generateUuid p.hash) p.name ++ writeTypes tgts isDebugTarget ++ writeImports ++
  writeSheets tgts ++ writeMacros ++
  tgts.flatMap (writeBuild p slnDefines slnIncludes downloadExe ninjaExe) ++ writeTail

/-! ## Command files -/

def writeCommandLines (c : Command) (t : Target) : Text :=
  let build := dupWithReplacement c.build (str "\x7bDEFAULT\x7d") t.defaultTarget
  let rebuild := dupWithReplacement c.rebuild (str "\x7bDEFAULT\x7d") t.defaultTarget
  let clean := dupWithReplacement c.clean (str "\x7bDEFAULT\x7d") t.defaultTarget
  str "  <PropertyGroup Condition=\"'$(Configuration)|$(Platform)'=='" ++ t.vs ++ str "|" ++
    t.platform ++ str "'\">\r\n" ++
  str "    <NMakeBuildCommandLine>" ++ build ++ str "</NMakeBuildCommandLine>\r\n" ++
  str "    <NMakeReBuildCommandLine>" ++ rebuild ++ str "</NMakeReBuildCommandLine>\r\n" ++
  str "    <NMakeCleanCommandLine>" ++ clean ++ str "</NMakeCleanCommandLine>\r\n" ++
  str "  </PropertyGroup>\r\n"

def writeCommand (list : Text → List Text) (c : Command) (tgts : List Target)
    (filesFn : Option PrintFn) : Text :=
  writeHead ++ writeConfigurations tgts ++
  str "  </ItemGroup>\r\n" ++ str "  <ItemGroup>\r\n" ++
  (match filesFn with
    | some fn => printFiles list fn [] (str ".")
    | none => []) ++
  str "  </ItemGroup>\r\n" ++
  writeGlobals (generateUuid c.hash) c.name ++ writeTypes tgts (fun _ => false) ++ writeImports ++
  writeSheets tgts ++ writeMacros ++ tgts.flatMap (writeCommandLines c) ++ writeTail

/-! ## The commands of `main` -/

def buildAll (downloadExe ninjaExe : Text) : Text :=
  downloadExe ++ str " $(SolutionDir) " ++ ninjaExe ++ str " \x7bDEFAULT\x7d"

def cleanAll (downloadExe ninjaExe : Text) : Text :=
  downloadExe ++ str " $(SolutionDir) " ++ ninjaExe ++ str " -t clean \x7bDEFAULT\x7d"

def rebuildAll (downloadExe ninjaExe : Text) : Text :=
  cleanAll downloadExe ninjaExe ++ str " &amp;&amp; " ++ buildAll downloadExe ninjaExe

/-- What `snprintf` leaves of a text in a buffer of `size` bytes, without a character that the
end of the buffer cuts. -/
def snprintf (size : Nat) : Text → Text
  | [] => []
  | c :: s => if c.utf8Size < size then c :: snprintf (size - c.utf8Size) s else []

/-- `_BUILD_ALL`. -/
def defaultCommand (downloadExe ninjaExe : Text) (hash : Fin 20 → UInt8) : Command where
  name := str "_BUILD_ALL"
  build := snprintf 1024 (buildAll downloadExe ninjaExe)
  rebuild := snprintf 2048 (rebuildAll downloadExe ninjaExe)
  clean := snprintf 1024 (cleanAll downloadExe ninjaExe)
  hash := hash

/-- `_GENERATE_VCXPROJ`. -/
def generateCommand (generate : Text) (hash : Fin 20 → UInt8) : Command where
  name := str "_GENERATE_VCXPROJ"
  build := generate
  clean := []
  rebuild := generate
  hash := hash

end ToolchainTools.Vcxproj
