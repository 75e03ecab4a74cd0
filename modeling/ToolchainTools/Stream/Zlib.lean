import ToolchainTools.Stream.File

/-!
# The zlib filter (`tools/stream/filter-deflate.c`)

The codec itself is a parameter: from its state, the input at `next_in`, the room at
`next_out` and the flush mode it computes a return code, how much input it has taken and
what it has put out. A codec that makes no progress could keep `read_zlib` busy for ever,
so a read takes the number of rounds its loop may make.
-/

namespace ToolchainTools

open CLib Streams

variable {σ ζ : Type}

structure ZResult (ζ : Type) where
  code : Int
  taken : Nat
  out : Bytes
  z : ζ

/-- `inflateInit2` or `deflateInit2`, and `inflate` or `deflate`. -/
structure Codec (ζ : Type) where
  init : Option ζ
  run : ζ → Bytes → Nat → Int → ZResult ζ

/-- A codec that knows no stream. -/
def noCodec : Codec Unit := ⟨none, fun _ _ _ _ => ⟨-1, 0, [], ()⟩⟩

def zStreamEnd : Int := 1
def zFinish : Int := 4
def zBufError : Int := -5

/-- `nextIn` are the `avail_in` bytes at `next_in`; `buf` are the first `avail` bytes of the
buffer and `room` is `bufsz - avail`. -/
structure ZlibStream (ζ σ : Type) where
  z : ζ
  nextIn : Bytes
  buf : Bytes
  room : Nat
  consumed : Nat
  finished : Bool
  source : σ
  readIn : Nat
  flush : Int

/-- How one pass over the body of the loop goes on. -/
inductive Round (σ : Type) where
  | again (s : σ)
  | leave (s : σ)
  | fail (s : σ)
  | stuck

/-- What the codec produced, as `read_zlib` counts it. `avail_out` has 32 bits; of a larger
room the upper part counts as produced, and those bytes are whatever memory holds there. -/
def zlibProduced (room : Nat) (out : Bytes) : Bytes :=
  let produced := room - (room % 2 ^ 32 - out.length)
  out ++ List.replicate (produced - out.length) 0

/-- The last part of the loop's body: read more from upstream. The second component notes
that the source went through its error path. -/
def zlibUpstream (read : Reader σ) (ds : ZlibStream ζ σ) : Round (ZlibStream ζ σ) × Bool :=
  if ds.flush = 0 then
    match read ds.source (ds.readIn - ds.nextIn.length) ((ds.nextIn.length + 1) % 2 ^ 32) with
    | none => (.stuck, false)
    | some (w, source) =>
      let nextIn := w.bytes.take (2 ^ 32 - 1)
      (.again { ds with
        source := source
        nextIn := nextIn
        readIn := nextIn.length
        flush := if nextIn.length = 0 then zFinish else 0 }, w.failed)
  else (.leave ds, false)

/-- Run the codec over the input at hand: its code and how much it produced. -/
def zlibRun (Z : Codec ζ) (ds : ZlibStream ζ σ) : Int × Nat × ZlibStream ζ σ :=
  let room := if ds.room = 0 then growth else ds.room
  let r := Z.run ds.z ds.nextIn (room % 2 ^ 32) ds.flush
  let produced := zlibProduced room r.out
  (r.code, produced.length,
    { ds with
      z := r.z
      nextIn := ds.nextIn.drop r.taken
      buf := ds.buf ++ produced
      room := room - produced.length })

/-- The body of the loop. -/
def zlibRound (Z : Codec ζ) (read : Reader σ) (ds : ZlibStream ζ σ) :
    Round (ZlibStream ζ σ) × Bool :=
  if ds.nextIn ≠ [] ∨ ds.flush ≠ 0 then
    let (res, produced, ds) := zlibRun Z ds
    if res = zStreamEnd then (.leave { ds with finished := true }, false)
    else if res ≠ 0 then (.fail ds, true)
    else if produced ≠ 0 then (.again ds, false)
    else zlibUpstream read ds
  else zlibUpstream read ds

/-- `do ... while (need > ds->avail)`, for no more than `fuel` rounds. -/
def zlibLoop (Z : Codec ζ) (read : Reader σ) (need : Nat) :
    Nat → ZlibStream ζ σ → Bool → Option (Window × ZlibStream ζ σ)
  | 0, _, _ => none
  | fuel + 1, ds, failed =>
    match zlibRound Z read ds with
    | (.again ds, bad) =>
      if need > ds.buf.length then zlibLoop Z read need fuel ds (failed || bad)
      else some (⟨ds.buf, failed || bad⟩, ds)
    | (.leave ds, bad) => some (⟨ds.buf, failed || bad⟩, ds)
    | (.fail ds, bad) => some (⟨[], failed || bad⟩, { ds with finished := true })
    | (.stuck, _) => none

def readZlib (Z : Codec ζ) (read : Reader σ) (fuel : Nat) : Reader (ZlibStream ζ σ) :=
  fun ds consume need =>
    let consumed := ds.consumed + consume
    if ds.finished || add64 consumed need ≤ ds.buf.length then
      some (⟨ds.buf.drop consumed, false⟩, { ds with consumed := consumed })
    else
      zlibLoop Z read need fuel
        { ds with buf := ds.buf.drop consumed, room := ds.room + consumed, consumed := 0 } false

def openZlib (Z : Codec ζ) (source : σ) : Option (ZlibStream ζ σ) :=
  Z.init.map fun z => ⟨z, [], [], 0, 0, false, source, 0, 0⟩

/-! ## What a read does to the source -/

section Source

variable {P : σ → Prop} {read : Reader σ} {Z : Codec ζ}

/-- What holds of the source after a round, if the round goes on at all. -/
def Round.All (P : σ → Prop) : Round σ → Prop
  | .again s | .leave s | .fail s => P s
  | .stuck => True

theorem zlibUpstream_source (hp : Preserves read P) {ds : ZlibStream ζ σ} (h : P ds.source) :
    (zlibUpstream read ds).1.All fun ds => P ds.source := by
  unfold zlibUpstream
  split
  · split
    · trivial
    · rename_i w source hread
      exact hp _ _ _ _ _ hread h
  · exact h

theorem zlibRound_source (hp : Preserves read P) {ds : ZlibStream ζ σ} (h : P ds.source) :
    (zlibRound Z read ds).1.All fun ds => P ds.source := by
  have hrun : P (zlibRun Z ds).2.2.source := h
  unfold zlibRound
  split
  · dsimp only
    split
    · exact h
    · split
      · exact h
      · split
        · exact h
        · exact zlibUpstream_source hp hrun
  · exact zlibUpstream_source hp h

theorem zlibLoop_source (hp : Preserves read P) {need fuel : Nat} {ds ds' : ZlibStream ζ σ}
    {failed : Bool} {w : Window} (hread : zlibLoop Z read need fuel ds failed = some (w, ds'))
    (h : P ds.source) : P ds'.source := by
  induction fuel generalizing ds failed with
  | zero => cases hread
  | succ fuel ih =>
    have hround := zlibRound_source (Z := Z) hp h
    unfold zlibLoop at hread
    split at hread
    · rename_i ds1 bad heq
      rw [heq] at hround
      split at hread
      · exact ih hread hround
      · cases hread
        exact hround
    · rename_i ds1 bad heq
      rw [heq] at hround
      cases hread
      exact hround
    · rename_i ds1 bad heq
      rw [heq] at hround
      cases hread
      exact hround
    · cases hread

theorem readZlib_preserves (hp : Preserves read P) (fuel : Nat) :
    Preserves (readZlib Z read fuel) fun ds => P ds.source := by
  intro ds consume need w ds' hread h
  unfold readZlib at hread
  dsimp only at hread
  split at hread
  · cases hread
    exact h
  · exact zlibLoop_source hp hread h

end Source

end ToolchainTools
