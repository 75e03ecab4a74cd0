import ToolchainTools.Download.Main
import ToolchainTools.Download.MapRuns
import ToolchainTools.Posix.Frames

/-!
# The files that `main` keeps for itself

`main` names five files of its working directory: the manifest, the two maps, the copy
that a map is rewritten in, and the file it downloads into. As long as these are regular
files or missing (`Home`), the calls that `main` makes on them touch nothing else. What it
deletes and extracts for a path of the manifest can touch anything; a line is `Apart` when
that leaves the five files alone.
-/

namespace ToolchainTools

open CLib Posix Streams

variable {ζ ξ : Type} {os os' : OS}

def ownNames : List Name := [manifestName, doneName, hashName, mapName, tmpName]

/-- The working directory is one, and its own files are regular files or missing. -/
def Home (os : OS) : Prop := ∀ n ∈ ownNames, Slot os n

/-- The own files, and the directory they are in, are as they were. -/
structure OwnKept (os os' : OS) : Prop where
  cwd : os'.fs.get os.cwd = os.fs.get os.cwd
  get : ∀ n ∈ ownNames, os'.fs.get (os.at n) = os.fs.get (os.at n)

theorem Home.kept (h : Home os) (hgoes : Goes os os') (hk : OwnKept os os') : Home os' := by
  intro n hn
  obtain ⟨hord, hcwd, hplain⟩ := h n hn
  refine ⟨hord, ?_, ?_⟩
  · rw [hgoes.cwd, hk.cwd]
    exact hcwd
  · rw [hgoes.at_eq, hk.get n hn]
    exact hplain

theorem Home.only {names : List Name} (h : Home os) (ho : Only names os os') : Home os' :=
  fun n hn => ho.slot (h n hn)

theorem home_manifest (h : Home os) : Slot os manifestName := h _ (by simp [ownNames])
theorem home_done (h : Home os) : Slot os doneName := h _ (by simp [ownNames])
theorem home_hash (h : Home os) : Slot os hashName := h _ (by simp [ownNames])
theorem home_map (h : Home os) : Slot os mapName := h _ (by simp [ownNames])
theorem home_tmp (h : Home os) : Slot os tmpName := h _ (by simp [ownNames])

theorem own_ne : doneName ≠ mapName ∧ hashName ≠ mapName ∧ doneName ≠ hashName ∧
    doneName ≠ tmpName ∧ hashName ≠ tmpName ∧ mapName ≠ tmpName ∧ manifestName ≠ doneName ∧
    manifestName ≠ hashName ∧ manifestName ≠ mapName ∧ manifestName ≠ tmpName := by
  decide

theorem Home.doneDir (h : Home os) : MapDir os doneName := ⟨home_map h, home_done h, own_ne.1⟩

theorem Home.hashDir (h : Home os) : MapDir os hashName := ⟨home_map h, home_hash h, own_ne.2.1⟩

/-! ## Map files -/

section Maps

variable {file key val : Bytes}

theorem only_copyLines {tmpf : Loc} (name : Name) (lines : List Bytes) (htmp : tmpf = os.at name) :
    Only [name] os (copyLines key tmpf lines os).2 := by
  induction lines generalizing os with
  | nil => exact .refl _ os
  | cons line lines ih =>
    unfold copyLines
    split
    · exact .refl _ os
    · rename_i e _
      split
      · exact ih htmp
      · have hwrite := only_fwrite os name (entryLine e)
        rw [← htmp] at hwrite
        exact hwrite.trans (ih (htmp.trans (hwrite.goes.at_eq name).symm))

theorem only_finishMap (hmap : Slot os mapName) (hfile : Slot os file) :
    Only [mapName, file] os (finishMap os (os.at mapName) file key val).2 := by
  have hwrite := only_fwrite os mapName (entryLine (key, val))
  have hrename := (hwrite.slot hmap).only_rename (hwrite.slot hfile)
  unfold finishMap
  generalize (os.fwrite (os.at mapName) (entryLine (key, val))).2 = os1 at hwrite hrename ⊢
  have hall := (hwrite.mono (by simp)).trans hrename
  split
  · rename_i os2 heq
    rw [heq] at hall
    exact hall
  · rename_i os2 heq
    rw [heq] at hall
    exact hall

variable (key val) in
/-- An update touches the map file and its copy, whatever is in the file. -/
theorem only_updateMap (hd : MapDir os file) :
    Only [mapName, file] os (updateMap os file key val).2 := by
  obtain ⟨hopen, hopened⟩ := hd.copy.only_fopenWrite
  have hopen' : Only [mapName, file] os (os.fopenWrite mapName).2 := hopen.mono (by simp)
  unfold updateMap
  split
  · rename_i os1 heq
    rw [heq] at hopen'
    exact hopen'
  · rename_i tmpf os1 heq
    rw [heq] at hopen' hopened
    obtain ⟨rfl, -⟩ := hopened tmpf rfl
    have hread := OS.fopenRead_os os1 file
    have htick : Only [mapName, file] os os1.tick := hopen'.trans (.tick _ os1)
    rw [← htick.goes.at_eq mapName]
    split
    · rename_i os2 hnone
      rw [hnone] at hread
      obtain rfl : os2 = os1.tick := hread
      exact htick.trans (only_finishMap (htick.slot hd.copy) (htick.slot hd.slot))
    · rename_i f os2 hsome
      rw [hsome] at hread
      obtain rfl : os2 = os1.tick := hread
      have hcopy : Only [mapName] os1.tick
          (copyLines key (os1.tick.at mapName) (fileLines 256 f.readable) os1.tick).2 :=
        only_copyLines mapName _ rfl
      have hcopy' := htick.trans (hcopy.mono (show ∀ n ∈ _, n ∈ [mapName, file] by simp))
      split
      · rename_i os3 hcrash
        rw [hcrash] at hcopy'
        exact hcopy'
      · rename_i os3 hcopied
        rw [hcopied] at hcopy'
        have hunlink := hcopy'.trans
          ((hcopy'.slot hd.slot).only_unlink.mono (by simp))
        have hat : os1.tick.at mapName = (os3.unlink file).at mapName :=
          (htick.goes.at_eq mapName).trans (hunlink.goes.at_eq mapName).symm
        rw [hat]
        exact hunlink.trans (only_finishMap (hunlink.slot hd.copy) (hunlink.slot hd.slot))

theorem testMap_os (os : OS) (file key value : Bytes) :
    (testMap os file key value).2 = os.tick := by
  have hread := OS.fopenRead_os os file
  unfold testMap
  split
  · rename_i os1 heq
    rw [heq] at hread
    exact hread
  · rename_i f os1 heq
    rw [heq] at hread
    exact hread

end Maps

/-! ## Deleting and extracting -/

theorem goes_deleteEntries {deleteDir : Loc → OS → OS} (hd : ∀ loc os, Goes os (deleteDir loc os))
    (loc : Loc) (names : List Name) (os : OS) : Goes os (deleteEntries deleteDir loc names os) := by
  induction names generalizing os with
  | nil => exact .refl os
  | cons name names ih =>
    unfold deleteEntries
    refine Goes.trans ?_ (ih _)
    dsimp only
    split
    · have hcall : Goes os (os.call false fun os => (true, os)).2 := by
        unfold OS.call
        split
        · exact goes_tick os
        · exact goes_tick os
      refine Goes.trans (hcall.trans ?_) (goes_rmdirAt _ _)
      split
      · exact hd _ _
      · exact .refl _
    · exact goes_unlinkAt os _

theorem goes_deleteDir (depth : Nat) (loc : Loc) (os : OS) : Goes os (deleteDir depth loc os) := by
  induction depth generalizing loc os with
  | zero => exact .refl os
  | succ depth ih => exact goes_deleteEntries ih loc _ os

theorem goes_deletePath (os : OS) (path : Bytes) : Goes os (deletePath os path) := by
  have hopen := openRead_os os path
  unfold deletePath
  split
  · rename_i os1 heq
    rw [heq] at hopen
    cases hopen
    exact goes_tick os
  · rename_i loc os1 heq
    rw [heq] at hopen
    cases hopen
    split
    · exact (goes_tick os).trans ((goes_deleteDir _ _ _).trans (goes_rmdir _ _))
    · exact (goes_tick os).trans (goes_unlink _ _)

theorem goes_openPath (os : OS) (dir file : Bytes) (mode : Int) :
    Goes os (openPath os dir file mode).2 := by
  have hmake : Goes os (makeDirectory os (joinPath dir file)) :=
    makeDirectory_rule (P := Goes os) (fun os1 upto _ _ h => h.trans (goes_mkdir os1 upto)) (.refl os)
  have hopen := hmake.trans (goes_fopenWrite _ (joinPath dir file))
  unfold openPath
  dsimp only
  cases hcall : (makeDirectory os (joinPath dir file)).fopenWrite (joinPath dir file) with
  | mk result os1 =>
    rw [hcall] at hopen
    cases result with
    | none => exact hopen
    | some f => exact hopen.trans (goes_fchmod os1 f mode)

theorem goes_extractPath {σ : Type} (read : Reader σ) (fuel : Nat) (s : σ) (dir file : Bytes)
    (mode : Int) (os : OS) : Goes os (extractPath read fuel s dir file mode os).os := by
  have hopen := goes_openPath os dir file mode
  unfold extractPath
  cases hcall : openPath os dir file mode with
  | mk result os1 =>
    rw [hcall] at hopen
    cases result with
    | none => exact hopen
    | some f =>
      exact extractFileLoop_rule (P := Goes os) (fun os2 data h => h.trans (goes_fwrite os2 f data))
        hopen

theorem goes_extractContainer {κ τ : Type} (K : Container κ τ) (dir : Bytes) (fuel : Nat) (c : κ)
    (os : OS) : Goes os (extractContainer K dir fuel c os).2.2 := by
  refine extractContainer_rule (P := Goes os) ⟨?_, ?_⟩ (.refl os)
  · intro os1 target m h _ _
    exact h.trans (goes_symlink os1 target _)
  · intro os1 m fuel s h _ _
    exact h.trans (goes_extractPath ..)

theorem goes_unpackContainer {κ τ : Type} (K : Container κ τ) (path : Bytes) (fuel : Nat) (c : κ)
    (os : OS) : Goes os (unpackContainer K path fuel c os).2 := by
  have hextract := goes_extractContainer K path fuel c os
  unfold unpackContainer
  split
  · rename_i c' os1 heq
    rw [heq] at hextract
    exact hextract
  · rename_i err c' os1 heq
    rw [heq] at hextract
    exact hextract

theorem goes_unpackStream {σ : Type} (read : Reader σ) (path : Bytes) (fuel : Nat) (s : σ)
    (os : OS) : Goes os (unpackStream read path fuel s os).2 := by
  have hextract := goes_extractPath read fuel s (lit ".") path 0o644 os
  unfold unpackStream
  dsimp only
  split
  · exact hextract
  · exact hextract

theorem goes_unpack (env : Env ζ ξ) (os : OS) (path url : Bytes) (f : CFile) :
    Goes os (unpack env os path url f).2 := by
  unfold unpack
  split
  · split
    · exact .refl os
    · exact goes_unpackContainer ..
  · split
    · exact goes_unpackContainer ..
    · split
      · split
        · exact .refl os
        · exact .refl os
        · exact goes_unpackContainer ..
      · split
        · split
          · exact goes_openPath ..
          · exact goes_unpackStream ..
        · exact goes_unpackStream ..

/-! ## Fetching -/

/-- The names that fetching writes to. -/
def fetchNames : List Name := [tmpName, mapName, hashName]

theorem only_extractFile {σ : Type} (read : Reader σ) (fuel : Nat) (s : σ) {f : Loc} {name : Name}
    (hf : f = os.at name) : Only [name] os (extractFile read fuel s f os).os := by
  refine extractFileLoop_rule (P := Only [name] os) ?_ (.refl _ os)
  intro os1 data h
  have hwrite := only_fwrite os1 name data
  rw [h.goes.at_eq, ← hf] at hwrite
  exact h.trans hwrite

theorem only_checkHash (h : Home os) (url str : Bytes) :
    Only [mapName, hashName] os (checkHash os url str).2 := by
  have htest := testMap_os os hashName url str
  have htick : Only [mapName, hashName] os os.tick := .tick _ os
  have hupdate := htick.trans
    (only_updateMap url str (h.only htick).hashDir)
  unfold checkHash
  split
  all_goals
    rename_i os1 heq
    rw [heq] at htest
    obtain rfl : os1 = os.tick := htest
  · exact htick
  · exact htick
  · exact htick
  · split
    all_goals
      rename_i heq'
      rw [heq'] at hupdate
      exact hupdate

/-- Fetching touches the file for downloads and the map of hashes. -/
theorem only_fetchHttp (env : Env ζ ξ) {w : World} (h : Home w.os) (url : Bytes) :
    Only fetchNames w.os (fetchHttp env w url).2.2.os := by
  unfold fetchHttp
  dsimp only
  split
  · exact .refl _ w.os
  · exact .refl _ w.os
  · rename_i s total _
    obtain ⟨hopen, hopened⟩ := (home_tmp h).only_fopenWrite
    have hopen' : Only fetchNames w.os (w.os.fopenWrite tmpName).2 :=
      hopen.mono (by simp [fetchNames])
    split
    · rename_i os1 heq
      rw [show (w.act (.connect url)).os = w.os from rfl] at heq
      rw [heq] at hopen'
      exact hopen'
    · rename_i f os1 heq
      rw [show (w.act (.connect url)).os = w.os from rfl] at heq
      rw [heq] at hopen' hopened
      obtain ⟨hf, -⟩ := hopened f rfl
      have hfile := only_extractFile (readHash readHttps) env.fuel (openHash s)
        (hf.trans (hopen'.goes.at_eq tmpName).symm)
      have hall := hopen'.trans (hfile.mono (by simp [fetchNames]))
      split
      · exact hall
      · split
        · exact hall
        · have hcheck := only_checkHash (h.only hall) url
            (hashText (env.sha256
              (extractFile (readHash readHttps) env.fuel (openHash s) f os1).s.absorbed))
          have hchecked := hall.trans (hcheck.mono (by simp [fetchNames]))
          split
          · rename_i os2 hnext
            rw [hnext] at hchecked
            have hreopen := fopenUpdate_os os2 tmpName
            have htick : Only fetchNames w.os os2.tick := hchecked.trans (.tick _ os2)
            split
            · rename_i os3 hnone
              rw [hnone] at hreopen
              obtain rfl : os3 = os2.tick := hreopen
              exact htick
            · rename_i f' os3 hsome
              rw [hsome] at hreopen
              obtain rfl : os3 = os2.tick := hreopen
              exact htick
          · rename_i outcome os2 _ heq
            rw [heq] at hchecked
            exact hchecked

theorem only_fetch (env : Env ζ ξ) {w : World} (h : Home w.os) (url : Bytes) :
    Only fetchNames w.os (fetch env w url).2.2.os := by
  unfold fetch
  split
  · exact only_fetchHttp env h url
  · split
    · have hread := OS.fopenRead_os w.os (url.drop (lit "file:").length)
      dsimp only
      split
      all_goals
        rename_i heq
        rw [show (w.act (.openSource (url.drop (lit "file:").length))).os = w.os from rfl] at heq
        rw [heq] at hread
        dsimp only at hread ⊢
        rw [hread]
        exact .tick _ w.os
    · exact .refl _ w.os

end ToolchainTools
