import ToolchainTools.Streams.Contract

/-!
# Containers (`tools/stream/stream.h`)

What the tar and the zip reader have in common: the description of the current member and
the functions a user of a container calls.
-/

namespace ToolchainTools

open CLib Streams

/-- The fields of `container` that its user reads. -/
structure Member where
  filePath : Bytes
  linkTarget : Option Bytes
  fileSize : Nat
  fileMode : Int
  deriving DecidableEq

/-- The functions of a `container`, with `κ` the container and `τ` the stream of a member.
Such a stream borrows what the container reads from; `closeFile` gives it back. -/
structure Container (κ τ : Type) where
  nextFile : Nat → κ → Option Int × κ
  member : κ → Member
  openFile : κ → Option τ × κ
  read : Reader τ
  closeFile : κ → τ → κ

end ToolchainTools
