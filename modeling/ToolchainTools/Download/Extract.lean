import ToolchainTools.Posix.Calls
import ToolchainTools.Stream.Container

/-!
# Extraction (`tools/download/extract.c`)

The functions that write what a stream or a container delivers into the file system.
Their loops end only when the stream or the archive does, so they take the number of
rounds they may make; the system they return is then the one at that point of the run,
and a result `none` says that the function has not returned yet. The progress report of
`extract_file` is left out.
-/

namespace ToolchainTools

open CLib Posix Streams

variable {σ κ τ : Type}

/-- The loop of `make_directory` at `next`, with `done` before it. -/
def makeDirectoryLoop (done next : Bytes) (os : OS) : OS :=
  match _h : strchr next slash with
  | none => os
  | some rest =>
    let upto := done ++ next.take (next.length - rest.length)
    makeDirectoryLoop (upto ++ [slash]) rest.tail (os.mkdir upto).2
termination_by next.length
decreasing_by
  have := strchr_length _h
  rw [List.length_tail]
  omega

/-- Make every directory that a slash of `file` ends. -/
def makeDirectory (os : OS) (file : Bytes) : OS := makeDirectoryLoop [] file os

/-- `dir "/" file`. -/
def joinPath (dir file : Bytes) : Bytes := dir ++ slash :: file

def openPath (os : OS) (dir file : Bytes) (mode : Int) : Option Loc × OS :=
  let path := joinPath dir file
  match (makeDirectory os path).fopenWrite path with
  | (none, os) => (none, os)
  | (some f, os) => (some f, os.fchmod f mode)

/-- What `extract_file` leaves behind. `failed` notes that a read went through an error
path. -/
structure Extracted (σ : Type) where
  code : Option Int
  s : σ
  os : OS
  failed : Bool

/-- The loop of `extract_file`; `len` is the length of the window written last. -/
def extractFileLoop (read : Reader σ) (f : Loc) :
    Nat → Nat → σ → OS → Bool → Extracted σ
  | 0, _, s, os, failed => ⟨none, s, os, failed⟩
  | fuel + 1, len, s, os, failed =>
    match read s len 1 with
    | none => ⟨none, s, os, failed⟩
    | some (w, s) =>
      if w.bytes.length = 0 then ⟨some 0, s, os, failed || w.failed⟩
      else
        match os.fwrite f w.bytes with
        | (false, os) => ⟨some (-1), s, os, failed || w.failed⟩
        | (true, os) => extractFileLoop read f fuel w.bytes.length s os (failed || w.failed)

def extractFile (read : Reader σ) (fuel : Nat) (s : σ) (f : Loc) (os : OS) : Extracted σ :=
  extractFileLoop read f fuel 0 s os false

def extractPath (read : Reader σ) (fuel : Nat) (s : σ) (dir file : Bytes) (mode : Int) (os : OS) :
    Extracted σ :=
  match openPath os dir file mode with
  | (none, os) => ⟨some (-1), s, os, false⟩
  | (some f, os) => extractFile read fuel s f os

def extractContainer (K : Container κ τ) (dir : Bytes) : Nat → κ → OS → Option Int × κ × OS
  | 0, c, os => (none, c, os)
  | fuel + 1, c, os =>
    match K.nextFile fuel c with
    | (none, c) => (none, c, os)
    | (some err, c) =>
      if err < 0 then (some err, c, os)
      else if err > 0 then (some 0, c, os)
      else
        let m := K.member c
        match m.linkTarget with
        | some target =>
          match os.symlink target (joinPath dir m.filePath) with
          | (false, os) => (some (-1), c, os)
          | (true, os) => extractContainer K dir fuel c os
        | none =>
          match K.openFile c with
          | (none, c) => (some (-1), c, os)
          | (some s, c) =>
            let r := extractPath K.read fuel s dir m.filePath m.fileMode os
            let c := K.closeFile c r.s
            match r.code with
            | none => (none, c, r.os)
            | some err =>
              if err = 0 then extractContainer K dir fuel c r.os else (some err, c, r.os)

/-- A system with nothing but the directory `w`, where the process works. -/
def freshOS : OS where
  fs := FS.add ⟨[], fun loc hne h => by simp [nodeAt, hne] at h⟩ [lit "w"] .dir
  cwd := [lit "w"]
  fault _ := false
  calls := 0
  log := []

/-- The file that `main` downloads into, right after it has been opened. -/
def tmpFile : Loc × OS :=
  ([lit "w", lit "download.tmp"], (freshOS.fopenWrite (lit "download.tmp")).2)

/-! ## Rules for the loops

Each rule reduces a statement about a function to one about the calls it makes. -/

/-- Every directory made ends right before a slash of the path. -/
theorem makeDirectoryLoop_rule {P : OS → Prop} {path : Bytes}
    (hstep : ∀ os upto rest, path = upto ++ slash :: rest → P os → P (os.mkdir upto).2)
    {done next : Bytes} {os : OS} (hpath : path = done ++ next) (h : P os) :
    P (makeDirectoryLoop done next os) := by
  fun_induction makeDirectoryLoop done next os with
  | case1 done next os hnone => exact h
  | case2 done next os rest hsome upto ih =>
    obtain ⟨a, b, hnext, hrest, -⟩ := strchr_eq_some hsome
    have hupto : upto = done ++ a := by
      simp only [upto, hnext, hrest, List.length_append, Nat.add_sub_cancel, List.take_left]
    have hsplit : path = upto ++ slash :: b := by
      rw [hpath, hnext, hupto, List.append_assoc]
    refine ih ?_ (hstep os upto b hsplit h)
    simp only [hsplit, hrest, List.tail_cons, List.append_assoc, List.singleton_append]

theorem makeDirectory_rule {P : OS → Prop} {path : Bytes}
    (hstep : ∀ os upto rest, path = upto ++ slash :: rest → P os → P (os.mkdir upto).2)
    {os : OS} (h : P os) : P (makeDirectory os path) :=
  makeDirectoryLoop_rule hstep (by simp) h

/-- What every write to the open file keeps holds after the loop, however it ends. -/
theorem extractFileLoop_rule {P : OS → Prop} {read : Reader σ} {f : Loc}
    (hwrite : ∀ os data, P os → P (os.fwrite f data).2) {fuel len : Nat} {s : σ} {os : OS}
    {failed : Bool} (h : P os) : P (extractFileLoop read f fuel len s os failed).os := by
  induction fuel generalizing len s os failed with
  | zero => exact h
  | succ fuel ih =>
    unfold extractFileLoop
    split
    · exact h
    · rename_i w s' hread
      split
      · exact h
      · have hw := hwrite os w.bytes h
        split
        · rename_i os' heq
          rw [heq] at hw
          exact hw
        · rename_i os' heq
          rw [heq] at hw
          exact ih hw

/-- When `extract_file` returns zero, the stream has been read to its end and everything that
came behind the window written last has been written too. -/
theorem extractFileLoop_drains {read : Reader σ} {f : Loc} {fuel : Nat} {s : σ} {os : OS}
    {failed : Bool} (window : Bytes) {c : Bytes} {m : Int} (hfile : os.fs.get f = some (.file c m))
    {r : Extracted σ} (hr : extractFileLoop read f fuel window.length s os failed = r)
    (hcode : r.code = some 0) :
    ∃ got, Drains read s window (window ++ got) r.s ∧
      r.os.fs.get f = some (.file (c ++ got) m) := by
  induction fuel generalizing s os failed window c with
  | zero =>
    subst hr
    cases hcode
  | succ fuel ih =>
    unfold extractFileLoop at hr
    split at hr
    · subst hr
      cases hcode
    · rename_i w s' hread
      split at hr
      · rename_i hempty
        subst hr
        refine ⟨[], ?_, by rwa [List.append_nil]⟩
        have hstop := Drains.stop le_rfl one_pos (by norm_num) hread
          (List.length_eq_zero_iff.mp hempty)
        rw [List.take_length] at hstop
        rwa [List.append_nil]
      · rename_i hne
        rcases os.fwrite_cases f w.bytes with hfail | ⟨c', m', hget, hdone⟩
        · rw [hfail] at hr
          subst hr
          cases hcode
        · rw [hfile] at hget
          cases hget
          rw [hdone] at hr
          have hfile' : (os.tick.act (os.fs.update f (.file (c ++ w.bytes) m)) (.write f)).fs.get f =
              some (.file (c ++ w.bytes) m) :=
            (FS.get_update (OS.isLeaf_of_file hfile) _ f).trans (if_pos rfl)
          obtain ⟨got, hdrain, hwritten⟩ := ih w.bytes hfile' hr
          refine ⟨w.bytes ++ got, ?_, by rw [hwritten, List.append_assoc]⟩
          have hstep := Drains.step le_rfl one_pos (by norm_num) hread
            (fun h => hne (List.length_eq_zero_iff.mpr h)) hdrain
          rwa [List.take_length] at hstep

/-- A property of the system that extracting members keeps. -/
structure Keeps (K : Container κ τ) (dir : Bytes) (P : OS → Prop) : Prop where
  link : ∀ os target m, P os → m.linkTarget = some target →
    (∃ fuel c c', K.nextFile fuel c = (some 0, c') ∧ m = K.member c') →
    P (os.symlink target (joinPath dir m.filePath)).2
  file : ∀ os m fuel s, P os → m.linkTarget = none →
    (∃ fuel c c', K.nextFile fuel c = (some 0, c') ∧ m = K.member c') →
    P (extractPath K.read fuel s dir m.filePath m.fileMode os).os

theorem extractContainer_rule {K : Container κ τ} {dir : Bytes} {P : OS → Prop}
    (hk : Keeps K dir P) {fuel : Nat} {c : κ} {os : OS} (h : P os) :
    P (extractContainer K dir fuel c os).2.2 := by
  induction fuel generalizing c os with
  | zero => exact h
  | succ fuel ih =>
    unfold extractContainer
    split
    · exact h
    · rename_i err c' hnext
      split
      · exact h
      · split
        · exact h
        · have herr : err = 0 := by omega
          subst herr
          have horigin : ∃ fuel c₀ c₁, K.nextFile fuel c₀ = (some 0, c₁) ∧
              K.member c' = K.member c₁ := ⟨fuel, c, c', hnext, rfl⟩
          dsimp only
          split
          · rename_i target htarget
            have hlink := hk.link os target (K.member c') h htarget horigin
            split
            · rename_i os' heq
              rw [heq] at hlink
              exact hlink
            · rename_i os' heq
              rw [heq] at hlink
              exact ih hlink
          · rename_i htarget
            split
            · exact h
            · rename_i s c'' hopen
              have hfile := hk.file os (K.member c') fuel s h htarget horigin
              split
              · exact hfile
              · split
                · exact ih hfile
                · exact hfile

end ToolchainTools
