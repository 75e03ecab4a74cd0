import ToolchainTools.Streams.Contract

/-!
# The hashing filter (`tools/stream/filter-hash.c`)

The hash function sees what is consumed through the filter. `absorbed` are the bytes it has
been given so far, so that its digest is a function of them.
-/

namespace ToolchainTools

open CLib Streams

variable {σ : Type}

/-- `data` is the window offered last. -/
structure HashStream (σ : Type) where
  absorbed : Bytes
  source : σ
  data : Bytes

def readHash (read : Reader σ) : Reader (HashStream σ) := fun ls consume need =>
  match read ls.source consume need with
  | none => none
  | some (w, source) => some (w, ⟨ls.absorbed ++ ls.data.take consume, source, w.bytes⟩)

def openHash (source : σ) : HashStream σ := ⟨[], source, []⟩

end ToolchainTools
