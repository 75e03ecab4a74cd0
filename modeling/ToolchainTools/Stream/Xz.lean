import ToolchainTools.Stream.Zlib

/-!
# The xz filter (`tools/stream/filter-decode-xz.c`)

The decoder itself is a parameter: from its state, the input behind `in_pos` and the room
behind `out_pos` it computes a return code, how much input it has taken and what it has
put out. As in `read_zlib`, a read takes the number of rounds its loop may make.
-/

namespace ToolchainTools

open CLib Streams

variable {σ ξ : Type}

structure XzResult (ξ : Type) where
  code : Int
  taken : Nat
  out : Bytes
  x : ξ

/-- `xz_dec_init` and `xz_dec_run`. -/
structure XzDecoder (ξ : Type) where
  init : Option ξ
  run : ξ → Bytes → Nat → XzResult ξ

/-- A decoder that knows no stream. -/
def noXzDecoder : XzDecoder Unit := ⟨none, fun _ _ _ => ⟨7, 0, [], ()⟩⟩

def xzStreamEnd : Int := 1

/-- `input` are the `in_size` bytes at `in`; `out` are the first `out_pos` bytes of the
buffer and `room` is `out_size - out_pos`. -/
structure XzStream (ξ σ : Type) where
  x : ξ
  finished : Bool
  source : σ
  input : Bytes
  inPos : Nat
  out : Bytes
  room : Nat
  consumed : Nat

/-- The last part of the loop's body: get more data. -/
def xzUpstream (read : Reader σ) (ds : XzStream ξ σ) : Round (XzStream ξ σ) × Bool :=
  match read ds.source ds.inPos (add64 ds.input.length 1) with
  | none => (.stuck, false)
  | some (w, source) =>
    let ds := { ds with source := source, input := w.bytes, inPos := 0 }
    (if w.bytes.length = 0 then .leave ds else .again ds, w.failed)

/-- Run the decoder over the input at hand: its code and how much it produced. -/
def xzRun (X : XzDecoder ξ) (ds : XzStream ξ σ) : Int × Nat × XzStream ξ σ :=
  let room := if ds.room = 0 then growth else ds.room
  let r := X.run ds.x (ds.input.drop ds.inPos) room
  (r.code, r.out.length,
    { ds with
      x := r.x
      inPos := ds.inPos + r.taken
      out := ds.out ++ r.out
      room := room - r.out.length })

/-- The body of the loop. -/
def xzRound (X : XzDecoder ξ) (read : Reader σ) (ds : XzStream ξ σ) :
    Round (XzStream ξ σ) × Bool :=
  if ds.inPos < ds.input.length then
    let (err, produced, ds) := xzRun X ds
    if err = xzStreamEnd then (.leave { ds with finished := true }, false)
    else if err ≠ 0 then (.fail ds, true)
    else if produced ≠ 0 then (.again ds, false)
    else xzUpstream read ds
  else xzUpstream read ds

/-- `do ... while (ds->buf.out_pos < need)`, for no more than `fuel` rounds. -/
def xzLoop (X : XzDecoder ξ) (read : Reader σ) (need : Nat) :
    Nat → XzStream ξ σ → Bool → Option (Window × XzStream ξ σ)
  | 0, _, _ => none
  | fuel + 1, ds, failed =>
    match xzRound X read ds with
    | (.again ds, bad) =>
      if ds.out.length < need then xzLoop X read need fuel ds (failed || bad)
      else some (⟨ds.out, failed || bad⟩, ds)
    | (.leave ds, bad) => some (⟨ds.out, failed || bad⟩, ds)
    | (.fail ds, bad) => some (⟨[], failed || bad⟩, ds)
    | (.stuck, _) => none

def readXz (X : XzDecoder ξ) (read : Reader σ) (fuel : Nat) : Reader (XzStream ξ σ) :=
  fun ds consume need =>
    let consumed := ds.consumed + consume
    if ds.finished || add64 consumed need ≤ ds.out.length then
      some (⟨ds.out.drop consumed, false⟩, { ds with consumed := consumed })
    else
      xzLoop X read need fuel
        { ds with out := ds.out.drop consumed, room := ds.room + consumed, consumed := 0 } false

def openXzDecoder (X : XzDecoder ξ) (source : σ) : Option (XzStream ξ σ) :=
  X.init.map fun x => ⟨x, false, source, [], 0, [], 0, 0⟩

end ToolchainTools
