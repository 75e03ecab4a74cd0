import ToolchainTools.Path
import ToolchainTools.Stream.Container
import ToolchainTools.Stream.Limit

/-!
# The tar container (`tools/stream/container-tar.c`, `tools/stream/tar.h`)

A header is a block of 512 bytes, cut into its fields at the offsets of
`tar_posix_header`. `nextTarFile` first steps over what is left of the current member and
then reads blocks until one is a regular file or a link. A call may run for ever on an
endless source, so its loop over blocks takes the number of blocks it may look at, and a
result `none` says that the call is still running.
-/

namespace ToolchainTools

open CLib Posix Streams

variable {σ : Type}

/-! ## Headers -/

def tarName (t : Bytes) : Bytes := field t 0 100
def tarMode (t : Bytes) : Bytes := field t 100 8
def tarSize (t : Bytes) : Bytes := field t 124 12
def tarTypeflag (t : Bytes) : UInt8 := t.getD 156 0
def tarLinkname (t : Bytes) : Bytes := field t 157 100
def tarMagic (t : Bytes) : Bytes := field t 257 6
def tarPrefix (t : Bytes) : Bytes := field t 345 155

def tarBlockSize : Nat := 512

/-- `REGTYPE`, `LNKTYPE` and `SYMTYPE`. -/
def regType : UInt8 := 48
def lnkType : UInt8 := 49
def symType : UInt8 := 50

/-- `"ustar\0"`. -/
def ustarMagic : Bytes := [117, 115, 116, 97, 114, 0]

def stripTopDir (name : Bytes) : Bytes :=
  match strchr name slash with
  | some rest => rest.tail
  | none => []

def cleanTarName (t : Bytes) : Option Bytes :=
  let name := cstr (tarName t)
  if tarMagic t = ustarMagic ∧ (tarPrefix t).headD 0 ≠ 0 then
    cleanPath (stripTopDir (cstr (tarPrefix t))) name
  else cleanPath [] (stripTopDir name)

def cleanTarLinkname (t : Bytes) : Option Bytes :=
  let lnk := cstr (tarLinkname t)
  if lnk = [] ∨ (strchr lnk colon).isSome ∨ (strchr lnk slash).isSome ∨
      (strchr lnk backslash).isSome ∨ lnk = dot ∨ lnk = dotdot then none
  else some lnk

/-! ## The container -/

structure TarContainer (σ : Type) where
  h : Member
  s : σ
  padding : Nat
  fileOpened : Bool

/-- `open_tar` zeroes the container. -/
def openTar (s : σ) : TarContainer σ := ⟨⟨[], none, 0, 0⟩, s, 0, false⟩

/-- The bytes between the end of a body of `sz` bytes and the next block. -/
def tarPadding (sz : Nat) : Nat :=
  sub64 (add64 sz (tarBlockSize - 1) / tarBlockSize * tarBlockSize) sz

def readTarFileHeader (c : TarContainer σ) (t : Bytes) : Int × TarContainer σ :=
  let imode := toInt32 (strtoll (cstr (tarMode t)) 8)
  match cleanTarName t with
  | none => (-1, c)
  | some path =>
    let sz := strtoull (cstr (tarSize t)) 8
    (0, { c with
      h := ⟨path, none, sz, imode⟩
      padding := tarPadding sz
      fileOpened := false })

def readTarLinkHeader (c : TarContainer σ) (t : Bytes) : Int × TarContainer σ :=
  match cleanTarName t with
  | none => (-1, c)
  | some path =>
    match cleanTarLinkname t with
    | none => (-1, c)
    | some lnk => (0, { c with h := ⟨path, some lnk, 0, 0⟩, padding := 0, fileOpened := true })

/-- How the loop that steps over a body ends: with the bytes still to be consumed, at an
early end of the stream, or not at all because a read does not return. -/
inductive Skip (σ : Type) where
  | done (consume : Nat) (s : σ)
  | early (s : σ)
  | stuck

/-- `while (skip)`. Every round takes at least one byte off `skip`. -/
def skipLoop (read : Reader σ) (skip consume : Nat) (s : σ) : Skip σ :=
  if skip = 0 then .done consume s
  else
    match read s consume 1 with
    | none => .stuck
    | some (w, s) =>
      if _h : w.bytes.length = 0 then .early s
      else
        let consume := if w.bytes.length > skip then skip else w.bytes.length
        skipLoop read (skip - consume) consume s
termination_by skip
decreasing_by
  split <;> omega

/-- `for (;;)`, looking at no more than `fuel` blocks. -/
def headerLoop (read : Reader σ) (c : TarContainer σ) : Nat → Nat → Option Int × TarContainer σ
  | 0, _ => (none, c)
  | fuel + 1, consume =>
    match read c.s consume tarBlockSize with
    | none => (none, c)
    | some (w, s) =>
      if w.bytes.length = 0 then (some 1, { c with s := s })
      else if w.bytes.length < tarBlockSize then (some (-1), { c with s := s })
      else
        let t := w.bytes.take tarBlockSize
        if tarTypeflag t = lnkType ∨ tarTypeflag t = symType then
          let r := readTarLinkHeader { c with s := s } t
          match read s tarBlockSize 0 with
          | none => (none, r.2)
          | some (_, s) => (some r.1, { r.2 with s := s })
        else if tarTypeflag t = regType then
          let r := readTarFileHeader { c with s := s } t
          match read s tarBlockSize 0 with
          | none => (none, r.2)
          | some (_, s) => (some r.1, { r.2 with s := s })
        else headerLoop read { c with s := s } fuel tarBlockSize

/-- The bytes between the position of the source and the next header. -/
def tarSkip (c : TarContainer σ) : Nat :=
  if c.fileOpened then c.padding else add64 c.padding c.h.fileSize

def nextTarFile (read : Reader σ) (fuel : Nat) (c : TarContainer σ) :
    Option Int × TarContainer σ :=
  let skip := tarSkip c
  let c := { c with padding := 0 }
  match skipLoop read skip 0 c.s with
  | .stuck => (none, c)
  | .early s => (some (-1), { c with s := s })
  | .done consume s => headerLoop read { c with s := s } fuel consume

/-- The stream of the current member, and the container that waits for the source to be
handed back. -/
def openTarFile (c : TarContainer σ) : Option (LimitStream σ) × TarContainer σ :=
  if c.fileOpened then (none, c)
  else (some (openLimited c.s c.h.fileSize), { c with fileOpened := true })

/-- `close_limit` leaves the source where the limited stream has brought it. -/
def closeTarFile (c : TarContainer σ) (ls : LimitStream σ) : TarContainer σ :=
  { c with s := ls.source }

def tarContainer (read : Reader σ) : Container (TarContainer σ) (LimitStream σ) where
  nextFile := nextTarFile read
  member c := c.h
  openFile := openTarFile
  read := readLimit read
  closeFile := closeTarFile

end ToolchainTools
