import ToolchainTools.Download.Clean
import ToolchainTools.Download.Errors
import ToolchainTools.Download.Histories

/-!
# Complete extractions, and what `main` takes for one

`Complete` says that a line has fetched all of its url and extracted all of it. `main` looks at the
results of `extract_file` and `extract_container` alone, and a download that breaks off, like a file
that cannot be decoded, is pinned and recorded by it if no write is refused
(`fetchHttp_refused_iff`, `broken_download_recorded`, `late_error_recorded`).
-/

namespace ToolchainTools

open CLib Posix Streams

variable {σ ζ ξ : Type} {env : Env ζ ξ} {w : World} {url : Bytes}

/-- The download has come to the end of the body without an error of the stream. -/
def Received (env : Env ζ ξ) (w : World) (url : Bytes) : Prop :=
  isHttpUrl url = true → ∃ s total f os,
    openHttpDownloader (env.net w.downloads) env.fuel url = some (some (s, total)) ∧
      w.os.fopenWrite tmpName = (some f, os) ∧
      (extractFile (strict (readHash readHttps)) env.fuel (openHash s) f os).code = some 0

/-- Where the file that is extracted lies. -/
def sourceOf (url : Bytes) : Bytes :=
  if isHttpUrl url then tmpName else url.drop (lit "file:").length

/-- In the world `w`, all of the url has been fetched, in `w2`, and all of it has been extracted, in
`os3`: no read has gone through an error path or found the end of a member too early, no call has
failed, and the file that was read has not been touched. Which members an archive has is what the
container finds in it. -/
structure Complete (env : Env ζ ξ) (w : World) (path url : Bytes) (f : CFile) (w2 : World)
    (os3 : OS) : Prop where
  fetched : fetch env w url = (.next, some f, w2)
  received : Received env w url
  extracted : unpackStrict env w2.os path url f = (.next, os3)
  calm : Calm w2.os os3
  source : Undisturbed (sourceOf url) w2.os os3

/-! ## Errors of the stream -/

/-- Over strict reads the loop ends with 0 exactly if it does so without noting an error. -/
theorem extractFileLoop_strict_iff {read : Reader σ} {f : Loc} {fuel len : Nat} {s : σ} {os : OS}
    {failed : Bool} :
    (extractFileLoop (strict read) f fuel len s os failed).code = some 0 ∧ failed = false ↔
      (extractFileLoop read f fuel len s os failed).code = some 0 ∧
        (extractFileLoop read f fuel len s os failed).failed = false := by
  induction fuel generalizing len s os failed with
  | zero => simp [extractFileLoop]
  | succ fuel ih =>
    unfold extractFileLoop
    cases hread : read s len 1 with
    | none =>
      have hstrict : strict read s len 1 = none := by
        unfold strict
        rw [hread]
        rfl
      rw [hstrict]
    | some r =>
      obtain ⟨w, s'⟩ := r
      cases hfailed : w.failed with
      | false =>
        rw [strict_eq_some.mpr ⟨hread, hfailed⟩]
        dsimp only
        rw [hfailed, Bool.or_false]
        by_cases hlen : w.bytes.length = 0
        · rw [if_pos hlen, if_pos hlen]
        · rw [if_neg hlen, if_neg hlen]
          rcases os.fwrite f w.bytes with ⟨_ | _, os'⟩
          · exact iff_of_false (by simp) (by simp)
          · exact ih
      | true =>
        have hstrict : strict read s len 1 = none := by
          unfold strict
          rw [hread]
          simp [hfailed]
        rw [hstrict]
        refine iff_of_false (by simp) ?_
        dsimp only
        rw [hfailed, Bool.or_true]
        by_cases hlen : w.bytes.length = 0
        · rw [if_pos hlen]
          simp
        · rw [if_neg hlen]
          rcases os.fwrite f w.bytes with ⟨_ | _, os'⟩
          · simp
          · -- an error that has been noted is not forgotten
            intro h
            simpa using (ih.mpr h).2

theorem isOpen_fopenWrite {os os' : OS} {path : Bytes} {f : Loc}
    (h : os.fopenWrite path = (some f, os')) : IsOpen f os' := by
  rcases os.fopenWrite_cases path with hfail | ⟨loc, -, ⟨hadd, hdone⟩ | ⟨c, m, hget, hdone⟩⟩
  · rw [hfail] at h
    cases h
  · rw [hdone] at h
    cases h
    exact ⟨_, _, (FS.get_add hadd _ _).trans (if_pos rfl)⟩
  · rw [hdone] at h
    cases h
    exact ⟨_, _, (FS.get_update (OS.isLeaf_of_file hget) _ _).trans (if_pos rfl)⟩

/-- A download is received exactly if `extract_file` returns 0 and no read on the stack has taken an
error path. -/
theorem received_iff {s : HttpsStream} {total : Nat} {f : Loc} {os : OS}
    (hhttp : isHttpUrl url = true)
    (hconnect : openHttpDownloader (env.net w.downloads) env.fuel url = some (some (s, total)))
    (hopen : w.os.fopenWrite tmpName = (some f, os)) :
    Received env w url ↔
      (extractFile (readHash readHttps) env.fuel (openHash s) f os).code = some 0 ∧
        (extractFile (readHash readHttps) env.fuel (openHash s) f os).failed = false := by
  unfold extractFile
  rw [← extractFileLoop_strict_iff, and_iff_left rfl]
  constructor
  · intro hreceived
    obtain ⟨s', total', f', os', hconnect', hopen', hcode⟩ := hreceived hhttp
    rw [hconnect] at hconnect'
    rw [hopen] at hopen'
    cases hconnect'
    cases hopen'
    exact hcode
  · exact fun hcode _ => ⟨s, total, f, os, hconnect, hopen, hcode⟩

/-- **Downloads that `main` goes on with.** Of a response that has been found, `main` refuses the
body exactly if the file refuses a window, whatever goes wrong in the connection. -/
theorem fetchHttp_refused_iff {s : HttpsStream} {total : Nat} {f : Loc} {os : OS}
    (hconnect : openHttpDownloader (env.net w.downloads) env.fuel url = some (some (s, total)))
    (hopen : w.os.fopenWrite tmpName = (some f, os)) :
    (fetchHttp env w url).1 = .exit (-1) ↔
      Refused os.fault os.calls (delivered (readHash readHttps) env.fuel 0 (openHash s)) := by
  rw [← extractFileLoop_error_iff (isOpen_fopenWrite hopen)]
  have hcheck : ∀ os1 str, (checkHash os1 url str).1 ≠ .exit (-1) := by
    intro os1 str
    unfold checkHash
    split
    · simp
    · simp
    · simp
    · split
      · simp
      · dsimp only
        split <;> simp
  unfold fetchHttp
  simp only [hconnect]
  rw [show (w.act (.connect url)).os = w.os from rfl, hopen]
  dsimp only
  change _ ↔ ∃ code, (extractFile (readHash readHttps) env.fuel (openHash s) f os).code =
    some code ∧ code ≠ 0
  cases (extractFile (readHash readHttps) env.fuel (openHash s) f os).code with
  | none => simp
  | some err =>
    dsimp only
    by_cases herr : err = 0
    · rw [if_neg (not_not.mpr herr)]
      refine iff_of_false ?_ (by simp [herr])
      generalize hashText (env.sha256 _) = str
      generalize (extractFile (readHash readHttps) env.fuel (openHash s) f os).os = os1
      have hnot := hcheck os1 str
      split
      · split <;> simp
      · rename_i heq
        rw [heq] at hnot
        exact hnot
    · rw [if_pos herr]
      exact iff_of_true rfl ⟨err, rfl, herr⟩

/-! ## What is recorded nevertheless -/

/-- A server that sends two bytes of five and closes the connection. -/
def breaking : Env Unit Unit :=
  { net := fun _ => plainNet brokenResponse
    Z := noCodec
    X := noXzDecoder
    sha256 := fun content _ => UInt8.ofNat content.length
    fuel := 64 }

def brokenLine : World := manifestWorld (lit "a,http://h/")

/-- The download breaks off, and its hash is pinned and the url recorded. -/
theorem broken_download_recorded :
    (main breaking brokenLine).1 = .exit 0 ∧
      (main breaking brokenLine).2.os.fs.get [lit "w", lit "a"] = some (.file (lit "ab") 0o644) ∧
      query (main breaking brokenLine).2.os hashName (lit "http://h/")
        (hashText (breaking.sha256 (lit "ab"))) = some .matched ∧
      query (main breaking brokenLine).2.os doneName (lit "a") (lit "http://h/") = some .matched ∧
      ¬ Received breaking (deleted (openManifest brokenLine).2 (lit "a")) (lit "http://h/") := by
  have hrun : (main breaking brokenLine).1 = .exit 0 ∧
      (main breaking brokenLine).2.os.fs.get [lit "w", lit "a"] = some (.file (lit "ab") 0o644) ∧
      query (main breaking brokenLine).2.os hashName (lit "http://h/")
        (hashText (breaking.sha256 (lit "ab"))) = some .matched ∧
      query (main breaking brokenLine).2.os doneName (lit "a") (lit "http://h/") =
        some .matched := by decide +kernel
  have hread : ((openHttpDownloader (breaking.net 0) breaking.fuel (lit "http://h/")).map
      (Option.map fun o =>
        ((deleted (openManifest brokenLine).2 (lit "a")).os.fopenWrite tmpName).1.map fun f =>
          (extractFile (readHash readHttps) breaking.fuel (openHash o.1) f
            ((deleted (openManifest brokenLine).2 (lit "a")).os.fopenWrite tmpName).2).failed)) =
      some (some (some true)) := by decide +kernel
  refine ⟨hrun.1, hrun.2.1, hrun.2.2.1, hrun.2.2.2, fun hreceived => ?_⟩
  obtain ⟨s, total, f, os, hconnect, hopen, -⟩ := hreceived rfl
  obtain ⟨-, hclean⟩ := (received_iff rfl hconnect hopen).mp hreceived
  rw [show (deleted (openManifest brokenLine).2 (lit "a")).downloads = 0 from rfl] at hconnect
  rw [hconnect, hopen] at hread
  simp only [Option.map_some, Option.some.injEq] at hread
  rw [hclean] at hread
  cases hread

/-- A decoder that copies its input and finds an error behind the first 1024 bytes. -/
def copyThenFail : XzDecoder Nat where
  init := some 1024
  run n input room :=
    if n = 0 then ⟨7, 0, [], 0⟩
    else
      let out := input.take (min n room)
      ⟨0, out.length, out, n - out.length⟩

def failing : Env Unit Nat :=
  { net := offline.net
    Z := noCodec
    X := copyThenFail
    sha256 := offline.sha256
    fuel := 64 }

/-- An archive of a file and a link behind it, which is not decoded any more. -/
def lateArchive : Bytes := encodeEntries [libFile, libLink] 2

def lateLine : World :=
  let w := manifestWorld (lit "a,file:b.txz")
  { w with os := { w.os with fs := w.os.fs.add [lit "w", lit "b.txz"] (.file lateArchive 0o644) } }

/-- The system in which the archive is extracted. -/
def lateFetched : OS :=
  (fetch failing (deleted (openManifest lateLine).2 (lit "a")) (lit "file:b.txz")).2.2.os

/-- Every member that is extracted is read to its end without an error. The decoder finds one when
the next header is looked for, and what is there of the archive is recorded as all of it. -/
theorem late_error_recorded :
    (main failing lateLine).1 = .exit 0 ∧
      query (main failing lateLine).2.os doneName (lit "a") (lit "file:b.txz") = some .matched ∧
      (main failing lateLine).2.os.fs.get [lit "w", lit "a", lit "lib", lit "x"] =
        some (.file (lit "hi") 0o644) ∧
      (main failing lateLine).2.os.fs.get [lit "w", lit "a", lit "lib", lit "y"] = none ∧
      ((openXzDecoder failing.X (openFileStream (.ofBytes lateArchive))).map fun s =>
        (unpackContainer (wholeMembers (fun ls => ls.left = 0)
          (tarContainer (readXz failing.X readFile failing.fuel))) (lit "a") failing.fuel
          (openTar s) lateFetched).1) = some .next ∧
      (unpackStrict failing lateFetched (lit "a") (lit "file:b.txz") (.ofBytes lateArchive)).1 =
        .running := by
  decide +kernel

end ToolchainTools
