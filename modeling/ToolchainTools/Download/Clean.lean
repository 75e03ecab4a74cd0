import ToolchainTools.Download.Catalog
import ToolchainTools.Streams.Strict

/-!
# Extraction without errors

A stream that reports an error looks like one that has ended, so that an extraction returns 0 on a
file that was cut short or cannot be decoded. `unpackStrict` is the extraction over readers that do
not come back from an error path, and for members of an archive not from an early end either: when
it returns 0, the extraction does the same (`unpack_of_strict`), and it has met neither.
-/

namespace ToolchainTools

open CLib Posix Streams

variable {σ κ τ ζ ξ : Type}

/-! ## Readers that return less -/

section Under

variable {read read' : Reader σ}

/-- A container that does what another one does, as long as it returns. -/
structure ContainerUnder (K K' : Container κ τ) : Prop where
  nextFile : ∀ ⦃fuel c code c'⦄, K.nextFile fuel c = (some code, c') →
    K'.nextFile fuel c = (some code, c')
  member : K'.member = K.member
  openFile : K'.openFile = K.openFile
  closeFile : K'.closeFile = K.closeFile
  read : Under K.read K'.read

theorem ContainerUnder.trans {K K' K'' : Container κ τ} (h : ContainerUnder K K')
    (h' : ContainerUnder K' K'') : ContainerUnder K K'' :=
  ⟨fun _ _ _ _ hnext => h'.nextFile (h.nextFile hnext), h'.member.trans h.member,
    h'.openFile.trans h.openFile, h'.closeFile.trans h.closeFile, h.read.trans h'.read⟩

end Under

/-! ## The extraction -/

/-- The end of a stored member is at its limit, and the codec says where a deflated one ends. -/
def ZipStream.ended : ZipStream ζ → Bool
  | .stored s => s.left = 0
  | .inflated s => s.finished

/-- A container whose members are read to their ends without errors. -/
def wholeMembers (ended : τ → Bool) (K : Container κ τ) : Container κ τ :=
  { K with read := whole ended (strict K.read) }

/-- A tar archive that is read without errors, with whole members. -/
def strictTar (read : Reader σ) : Container (TarContainer σ) (LimitStream σ) :=
  wholeMembers (fun ls => ls.left = 0) (tarContainer (strict read))

/-- The extraction by the form of the file, over readers that do not come back from an error path. -/
def unpackStrict (env : Env ζ ξ) (os : OS) (path url : Bytes) (f : CFile) : Outcome × OS :=
  match formOf url with
  | .xzTar =>
    match openXzDecoder env.X (openFileStream f) with
    | none => (.crash, os)
    | some s =>
      unpackContainer (strictTar (readXz env.X readFile env.fuel)) path env.fuel (openTar s) os
  | .tar =>
    unpackContainer (strictTar readFile) path env.fuel (openTar (openFileStream f)) os
  | .zip =>
    match openZip env.fuel f with
    | some (some z) =>
      unpackContainer (wholeMembers ZipStream.ended (zipContainer env.Z env.fuel)) path env.fuel z os
    | _ => (.crash, os)
  | .xz =>
    match openXzDecoder env.X (openFileStream f) with
    | none => (.crash, os)
    | some s => unpackStream (strict (readXz env.X readFile env.fuel)) path env.fuel s os
  | .file => unpackStream (strict readFile) path env.fuel (openFileStream f) os

end ToolchainTools
