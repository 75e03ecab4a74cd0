import ToolchainTools.Download.Extract
import ToolchainTools.Download.Map
import ToolchainTools.Stream.File
import ToolchainTools.Stream.Hash
import ToolchainTools.Stream.Http
import ToolchainTools.Stream.Tar
import ToolchainTools.Stream.Xz
import ToolchainTools.Stream.Zip

/-!
# The downloader (`main` in `tools/download/download.c`, on Linux)

`main` works through the lines of `download.manifest` in the directory it has been sent to.
A line that `download.done` already has is left alone; for any other line the path is
deleted, the url fetched, and what came is extracted to the path. Besides the system,
a `World` counts the downloads and keeps a history of what has been done for which path,
newest first; the history is only written.

A result `crash` says that a null pointer is dereferenced, and `running` that a loop has
not ended within the rounds that it may make.
-/

namespace ToolchainTools

open CLib Posix Streams

variable {ζ ξ : Type}

/-! ## The manifest -/

def manifestName : Bytes := lit "download.manifest"

def tmpName : Bytes := lit "download.tmp"

/-- `is_host_platform`. -/
def isHostPlatform (platform : Option Bytes) : Bool :=
  match platform with
  | none => true
  | some p => trim p = lit "linux"

inductive ManifestLine where
  | skip
  | invalid
  | entry (path url : Bytes)
  deriving DecidableEq

/-- The next token, if there was one before. -/
def nextToken (s : Option (Bytes × Bytes)) : Option (Bytes × Bytes) :=
  s.bind fun t => strtok comma t.2

/-- What a line of the manifest asks for. -/
def parseManifestLine (line : Bytes) : ManifestLine :=
  let p := trim line
  if p.head? = some 35 ∨ p = [] then .skip
  else
    let path := strtok comma p
    let url := nextToken path
    let platform := nextToken url
    if !isHostPlatform (platform.map Prod.fst) then .skip
    else
      match path, url with
      | some path, some url => .entry (trim path.1) (trim url.1)
      | _, _ => .invalid

/-- The lines that `while (*next)` sees. -/
def manifestLines (s : Bytes) : List Bytes :=
  if _h : s = [] then []
  else s.takeWhile (· ≠ eol) :: manifestLines (s.dropWhile (· ≠ eol)).tail
termination_by s.length
decreasing_by
  have hdrop := (List.dropWhile_suffix (· ≠ eol) (l := s)).length_le
  have hpos := List.length_pos_iff.mpr _h
  rw [List.length_tail]
  omega

/-! ## Deleting a path -/

/-- The loop of `delete_dir` over the names that it reads. -/
def deleteEntries (deleteDir : Loc → OS → OS) (loc : Loc) : List Name → OS → OS
  | [], os => os
  | name :: names, os =>
    let child := loc ++ [name]
    let os :=
      if os.fs.get child = some .dir then
        -- the descriptor of the directory is opened before anything in it is removed
        let r : Bool × OS := os.call false fun os => (true, os)
        (if r.1 then deleteDir child r.2 else r.2).rmdirAt child
      else os.unlinkAt child
    deleteEntries deleteDir loc names os

/-- `delete_dir` of a directory with no more than `depth` levels below it. -/
def deleteDir : Nat → Loc → OS → OS
  | 0, _, os => os
  | depth + 1, loc, os => deleteEntries (deleteDir depth) loc (os.fs.children loc) os

/-- No place lies deeper than this. -/
def treeDepth (fs : FS) : Nat := (fs.entries.map fun e => e.1.length).foldr max 0

def deletePath (os : OS) (path : Bytes) : OS :=
  match os.openRead path with
  | (none, os) => os
  | (some loc, os) =>
    if os.fs.get loc = some .dir then (deleteDir (treeDepth os.fs + 1) loc os).rmdir path
    else os.unlink path

/-! ## Fetching and unpacking -/

/-- What `main` has no influence on, and the number of rounds its loops may make. -/
structure Env (ζ ξ : Type) where
  /-- The network during the download with this number. -/
  net : Nat → Net
  Z : Codec ζ
  X : XzDecoder ξ
  sha256 : Bytes → Fin 32 → UInt8
  fuel : Nat

/-- A thing that `main` has done. -/
inductive Act where
  /-- `delete_path(path)`. -/
  | delete (path : Bytes)
  /-- `open_http_downloader(url)`. -/
  | connect (url : Bytes)
  /-- `fopen` of the file that a `file:` url names. -/
  | openSource (source : Bytes)
  /-- The file with the bytes `content` that was fetched from `url` is handed to extraction. -/
  | extract (path url content : Bytes)
  /-- The extraction of `url` to `path` has returned 0. -/
  | extracted (path url : Bytes)
  deriving DecidableEq

structure World where
  os : OS
  downloads : Nat
  acts : List Act

def World.act (w : World) (a : Act) : World := { w with acts := a :: w.acts }

inductive Outcome where
  | next
  | exit (code : Int)
  | crash
  | running
  deriving DecidableEq

def startsWith (s : Bytes) (test : Bytes) : Bool := test.isPrefixOf s

/-- `ends_with`. -/
def endsWith (s : Bytes) (test : Bytes) : Bool := test.isSuffixOf s

def hexLower (n : Nat) : UInt8 := if n < 10 then UInt8.ofNat (48 + n) else UInt8.ofNat (87 + n)

/-- `"sha256:"` and the bytes of the hash by `"%02x"`. -/
def hashText (hash : Fin 32 → UInt8) : Bytes :=
  lit "sha256:" ++
    (List.ofFn hash).flatMap fun b => [hexLower (b.toNat / 16), hexLower (b.toNat % 16)]

def isHttpUrl (url : Bytes) : Bool :=
  startsWith url (lit "http://") || startsWith url (lit "https://")

/-- The check of a hash, which pins it when the url has none yet. -/
def checkHash (os : OS) (url str : Bytes) : Outcome × OS :=
  match testMap os hashName url str with
  | (none, os) => (.crash, os)
  | (some .matched, os) => (.next, os)
  | (some .mismatch, os) => (.exit 10, os)
  | (some .noval, os) =>
    match updateMap os hashName url str with
    | (none, os) => (.crash, os)
    | (some err, os) => (if err = 0 then .next else .exit 11, os)

/-- The branch of `main` for an http url: the file that it goes on with, if it does. -/
def fetchHttp (env : Env ζ ξ) (w : World) (url : Bytes) : Outcome × Option CFile × World :=
  let net := env.net w.downloads
  let w := { w.act (.connect url) with downloads := w.downloads + 1 }
  match openHttpDownloader net env.fuel url with
  | none => (.running, none, w)
  | some none => (.exit 5, none, w)
  | some (some (s, _)) =>
    match w.os.fopenWrite tmpName with
    | (none, os) => (.exit 6, none, { w with os := os })
    | (some f, os) =>
      let r := extractFile (readHash readHttps) env.fuel (openHash s) f os
      match r.code with
      | none => (.running, none, { w with os := r.os })
      | some err =>
        if err ≠ 0 then (.exit (-1), none, { w with os := r.os })
        else
          match checkHash r.os url (hashText (env.sha256 r.s.absorbed)) with
          | (.next, os) =>
            match os.fopenUpdate tmpName with
            | (none, os) => (.crash, none, { w with os := os })
            | (some f, os) => (.next, some f, { w with os := os })
          | (outcome, os) => (outcome, none, { w with os := os })

/-- From the url to an open file. -/
def fetch (env : Env ζ ξ) (w : World) (url : Bytes) : Outcome × Option CFile × World :=
  if isHttpUrl url then fetchHttp env w url
  else if startsWith url (lit "file:") then
    let source := url.drop (lit "file:").length
    let w := w.act (.openSource source)
    match w.os.fopenRead source with
    | (none, os) => (.exit 5, none, { w with os := os })
    | (some f, os) => (.next, some f, { w with os := os })
  else (.exit 4, none, w)

/-- The result of `extract_container`, without the container. -/
def unpackContainer {κ τ : Type} (K : Container κ τ) (path : Bytes) (fuel : Nat) (c : κ) (os : OS) :
    Outcome × OS :=
  match extractContainer K path fuel c os with
  | (none, _, os) => (.running, os)
  | (some err, _, os) => (if err = 0 then .next else .exit 7, os)

/-- The result of `extract_path`, without the stream. -/
def unpackStream {σ : Type} (read : Reader σ) (path : Bytes) (fuel : Nat) (s : σ) (os : OS) :
    Outcome × OS :=
  let r := extractPath read fuel s (lit ".") path 0o644 os
  match r.code with
  | none => (.running, r.os)
  | some err => (if err = 0 then .next else .exit 7, r.os)

/-- The extraction by the ending of the url. A file without a central directory gives no
container, and a decoder that cannot be set up no stream, which `extract_path` finds out behind
`open_path` and `main` at the latest when it closes it. -/
def unpack (env : Env ζ ξ) (os : OS) (path url : Bytes) (f : CFile) : Outcome × OS :=
  if endsWith url (lit ".txz") || endsWith url (lit ".tar.xz") then
    match openXzDecoder env.X (openFileStream f) with
    | none => (.crash, os)
    | some s =>
      unpackContainer (tarContainer (readXz env.X readFile env.fuel)) path env.fuel (openTar s) os
  else if endsWith url (lit ".tar") then
    unpackContainer (tarContainer readFile) path env.fuel (openTar (openFileStream f)) os
  else if endsWith url (lit ".zip") then
    match openZip env.fuel f with
    | none => (.running, os)
    | some none => (.crash, os)
    | some (some z) => unpackContainer (zipContainer env.Z env.fuel) path env.fuel z os
  else if endsWith url (lit ".xz") then
    match openXzDecoder env.X (openFileStream f) with
    | none => (.crash, (openPath os (lit ".") path 0o644).2)
    | some s => unpackStream (readXz env.X readFile env.fuel) path env.fuel s os
  else unpackStream readFile path env.fuel (openFileStream f) os

/-! ## The loop -/

/-- The end of a line whose extraction has returned. -/
def recordLine (w : World) (path url : Bytes) : Outcome × World :=
  match updateMap w.os doneName path url with
  | (none, os) => (.crash, { w with os := os })
  | (some err, os) => (if err = 0 then .next else .exit 7, { w with os := os })

/-- The part of a line behind the file that was fetched. -/
def installFile (env : Env ζ ξ) (w : World) (path url : Bytes) (f : CFile) : Outcome × World :=
  let w := w.act (.extract path url f.content)
  match unpack env w.os path url f with
  | (.next, os) => recordLine ⟨os.unlink tmpName, w.downloads, .extracted path url :: w.acts⟩ path url
  | (.exit code, os) => (.exit code, { w with os := os.unlink tmpName })
  | (outcome, os) => (outcome, { w with os := os })

/-- What `main` does for a path and its url. -/
def installEntry (env : Env ζ ξ) (w : World) (path url : Bytes) : Outcome × World :=
  match testMap w.os doneName path url with
  | (none, os) => (.crash, { w with os := os })
  | (some .matched, os) => (.next, { w with os := os })
  | (some _, os) =>
    let w := World.act { w with os := deletePath os path } (.delete path)
    match fetch env w url with
    | (.next, some f, w) => installFile env w path url f
    | (outcome, _, w) => (outcome, w)

/-- One round of the loop. -/
def mainLine (env : Env ζ ξ) (w : World) (line : Bytes) : Outcome × World :=
  match parseManifestLine line with
  | .skip => (.next, w)
  | .invalid => (.exit 3, w)
  | .entry path url => installEntry env w path url

/-- The loop over the lines. -/
def mainLoop (env : Env ζ ξ) (w : World) : List Bytes → Outcome × World
  | [] => (.next, w)
  | line :: lines =>
    match mainLine env w line with
    | (.next, w) => mainLoop env w lines
    | (outcome, w) => (outcome, w)

/-- `open_manifest`: the contents of the manifest, which may have to be created. -/
def openManifest (w : World) : Except Int Bytes × World :=
  match w.os.openCreate manifestName 0o755 with
  | (none, os) => (.error 3, { w with os := os })
  | (some manifest, os) =>
    match os.call false fun os => (true, os) with
    | (false, os) => (.error 5, { w with os := os })
    | (true, os) => (.ok manifest, { w with os := os })

/-- `main`, in the directory that it has been sent to. -/
def main (env : Env ζ ξ) (w : World) : Outcome × World :=
  match openManifest w with
  | (.error code, w) => (.exit code, w)
  | (.ok manifest, w) =>
    match mainLoop env w (manifestLines (cstr manifest)) with
    | (.next, w) => (.exit 0, w)
    | (outcome, w) => (outcome, w)

end ToolchainTools
