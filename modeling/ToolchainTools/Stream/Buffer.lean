import ToolchainTools.Streams.Contract

/-!
# The memory source (`tools/stream/source-buffer.c`)

The simplest stream: its window is always everything that is left. It is the source on
which concrete archives are run in this development.
-/

namespace ToolchainTools

open CLib Streams

/-- The bytes from `next` on; `remaining` is their number. -/
structure BufStream where
  next : Bytes

def readBuffer : Reader BufStream := fun bs consume _need =>
  let next := bs.next.drop consume
  some (⟨next, false⟩, ⟨next⟩)

def openBufferStream (data : Bytes) : BufStream := ⟨data⟩

/-- A memory source keeps the read contract. -/
def bufferContract : Contract readBuffer where
  valid _ := True
  rest bs := bs.next
  lent bs := bs.next.length
  lent_le _ _ := le_rfl
  serve bs consume _ _ _ _ :=
    ⟨⟨bs.next.drop consume, false⟩, ⟨bs.next.drop consume⟩, rfl, trivial, rfl, rfl,
      List.prefix_rfl, Nat.min_le_right _ _⟩

end ToolchainTools
