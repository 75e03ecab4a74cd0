import ToolchainTools.CLib.Text
import ToolchainTools.Posix.Slots

/-!
# Map files (`test_map` and `update_map` in `tools/download/download.c`)

A map file holds one `key,value` pair a line. `update_map` copies the pairs of the other
keys into `download.map`, removes the file, appends the new pair and renames the copy.
It looks at the result of the first open and of the rename alone. Every `fprintf` is one
write here. Reading a line without two fields dereferences a null pointer, which is a
result `none`.

A file of entries that `trim` and the separators leave alone is read back as these entries
(`splitLine_entryLine`), so `update_map` is an update of the finite map that the first line
of each key gives (`updateMap_good`).
-/

namespace ToolchainTools

open CLib Posix

/-! ## The code -/

def isBlank (c : UInt8) : Bool := c = 32 || c = 9

def isBlankEnd (c : UInt8) : Bool := c = 32 || c = 9 || c = 13 || c = 10

def trim (s : Bytes) : Bytes := trimBy isBlank isBlankEnd s

/-- The two fields of a line in its buffer. -/
def splitLine (line : Bytes) : Option (Bytes × Bytes) :=
  match strtok comma (cstr line) with
  | none => none
  | some (fkey, rest) =>
    match strtok comma rest with
    | none => none
    | some (fval, _) => some (trim fkey, trim fval)

inductive MapAnswer where
  | noval
  | matched
  | mismatch
  deriving DecidableEq

def testLines (key value : Bytes) : List Bytes → Option MapAnswer
  | [] => some .noval
  | line :: lines =>
    match splitLine line with
    | none => none
    | some (fkey, fval) =>
      if fkey = key then some (if fval = value then .matched else .mismatch)
      else testLines key value lines

def testMap (os : OS) (file key value : Bytes) : Option MapAnswer × OS :=
  match os.fopenRead file with
  | (none, os) => (some .noval, os)
  | (some f, os) => (testLines key value (fileLines 256 f.readable), os)

/-- The name of the copy. -/
def mapName : Bytes := lit "download.map"

/-- The map files of `main`. -/
def doneName : Bytes := lit "download.done"
def hashName : Bytes := lit "download.hash"

/-- `"%s,%s\n"`. -/
def entryLine (e : Bytes × Bytes) : Bytes := e.1 ++ comma :: (e.2 ++ [eol])

/-- Copy the lines of the other keys; false when a line makes the process crash. -/
def copyLines (key : Bytes) (tmpf : Loc) : List Bytes → OS → Bool × OS
  | [], os => (true, os)
  | line :: lines, os =>
    match splitLine line with
    | none => (false, os)
    | some e =>
      if e.1 = key then copyLines key tmpf lines os
      else copyLines key tmpf lines (os.fwrite tmpf (entryLine e)).2

/-- The part of `update_map` behind the old file. -/
def finishMap (os : OS) (tmpf : Loc) (file key val : Bytes) : Option Int × OS :=
  match (os.fwrite tmpf (entryLine (key, val))).2.rename mapName file with
  | (true, os) => (some 0, os)
  | (false, os) => (some (-1), os)

def updateMap (os : OS) (file key val : Bytes) : Option Int × OS :=
  match os.fopenWrite mapName with
  | (none, os) => (some (-1), os)
  | (some tmpf, os) =>
    match os.fopenRead file with
    | (none, os) => finishMap os tmpf file key val
    | (some f, os) =>
      match copyLines key tmpf (fileLines 256 f.readable) os with
      | (false, os) => (none, os)
      | (true, os) => finishMap (os.unlink file) tmpf file key val

/-! ## Entries -/

/-- A field that the reader gives back as it was written. -/
structure Field (s : Bytes) : Prop where
  comma : comma ∉ s
  eol : eol ∉ s
  nul : 0 ∉ s
  trim : trim s = s

/-- An entry whose line is read back. -/
structure Entry (e : Bytes × Bytes) : Prop where
  key : Field e.1
  key_ne : e.1 ≠ []
  val : Field e.2
  fits : (entryLine e).length < 256

instance (s : Bytes) : Decidable (Field s) :=
  decidable_of_iff (CLib.comma ∉ s ∧ CLib.eol ∉ s ∧ 0 ∉ s ∧ ToolchainTools.trim s = s)
    ⟨fun h => ⟨h.1, h.2.1, h.2.2.1, h.2.2.2⟩, fun h => ⟨h.comma, h.eol, h.nul, h.trim⟩⟩

instance (e : Bytes × Bytes) : Decidable (Entry e) :=
  decidable_of_iff (Field e.1 ∧ e.1 ≠ [] ∧ Field e.2 ∧ (entryLine e).length < 256)
    ⟨fun h => ⟨h.1, h.2.1, h.2.2.1, h.2.2.2⟩, fun h => ⟨h.key, h.key_ne, h.val, h.fits⟩⟩

/-- The bytes of a map file. -/
def encodeMap (es : List (Bytes × Bytes)) : Bytes := (es.map entryLine).flatten

theorem entryLine_isLine {e : Bytes × Bytes} (h : Entry e) : IsLine 256 (entryLine e) := by
  refine ⟨⟨e.1 ++ comma :: e.2, ?_, by simp [entryLine]⟩, h.fits⟩
  simp only [List.mem_append, List.mem_cons, not_or]
  exact ⟨h.key.eol, by decide, h.val.eol⟩

theorem dropWhile_append_singleton_pos {p : UInt8 → Bool} {b : UInt8} (hb : p b = true)
    (s : Bytes) : (s ++ [b]).reverse.dropWhile p = s.reverse.dropWhile p := by
  rw [List.reverse_append, List.reverse_singleton, List.singleton_append,
    List.dropWhile_cons, if_pos hb]

/-- The newline behind a field is trimmed off. -/
theorem trim_eol {s : Bytes} (h : trim s = s) : trim (s ++ [eol]) = s := by
  have hfront : (s ++ [eol]).dropWhile isBlank = s.dropWhile isBlank ++ [eol] := by
    by_cases hall : ∀ x ∈ s, isBlank x = true
    · rw [List.dropWhile_append_of_pos hall, List.dropWhile_eq_nil_iff.mpr hall]
      rfl
    · push Not at hall
      obtain ⟨x, hx, hnot⟩ := hall
      rw [List.dropWhile_append, if_neg]
      rw [List.isEmpty_iff, List.dropWhile_eq_nil_iff]
      exact fun hsome => hnot (hsome x hx)
  unfold trim trimBy at h ⊢
  rw [hfront, dropWhile_append_singleton_pos (by decide)]
  exact h

/-- A line that was written for an entry is split into it. -/
theorem splitLine_entryLine {e : Bytes × Bytes} (h : Entry e) :
    splitLine (entryLine e) = some e := by
  have hnul : (0 : UInt8) ∉ entryLine e := by
    simp only [entryLine, List.mem_append, List.mem_cons, not_or]
    exact ⟨h.key.nul, by decide, h.val.nul, by decide⟩
  have hval : comma ∉ e.2 ++ [eol] := by
    simp only [List.mem_append, List.mem_singleton, not_or]
    exact ⟨h.val.comma, by decide⟩
  unfold splitLine
  rw [cstr_of_not_mem hnul, entryLine, strtok_append h.key_ne h.key.comma]
  dsimp only
  rw [strtok_last (by simp) hval]
  simp only [h.key.trim, trim_eol h.val.trim]

section Entries

variable {es : List (Bytes × Bytes)} (hes : ∀ e ∈ es, Entry e)

include hes in
theorem fileLines_encodeMap : fileLines 256 (encodeMap es) = es.map entryLine := by
  apply fileLines_flatten
  intro l hl
  obtain ⟨e, he, rfl⟩ := List.mem_map.mp hl
  exact entryLine_isLine (hes e he)

/-- What the value that a map has for a key answers to a test for `value`. -/
def answer (current : Option Bytes) (value : Bytes) : MapAnswer :=
  match current with
  | none => .noval
  | some v => if v = value then .matched else .mismatch

include hes in
theorem testLines_entries (key value : Bytes) :
    testLines key value (es.map entryLine) = some (answer (es.lookup key) value) := by
  induction es with
  | nil => rfl
  | cons e es ih =>
    have hrest := ih fun e' he' => hes e' (List.mem_cons_of_mem _ he')
    rw [List.map_cons, testLines, splitLine_entryLine (hes e List.mem_cons_self)]
    dsimp only
    split
    · rename_i hkey
      rw [← hkey, List.lookup_cons, beq_self_eq_true]
      rfl
    · rename_i hkey
      have hb : (key == e.1) = false := beq_eq_false_iff_ne.mpr (Ne.symm hkey)
      rw [hrest, List.lookup_cons, hb]

end Entries

/-! ## What the calls do

`kept` are the entries that arrive in the copy when the calls with a number in `fault` fail. -/

def kept (fault : Nat → Bool) (key : Bytes) : Nat → List (Bytes × Bytes) → List (Bytes × Bytes)
  | _, [] => []
  | n, e :: es =>
    if e.1 = key then kept fault key n es
    else if fault n then kept fault key (n + 1) es
    else e :: kept fault key (n + 1) es

/-- The entries of the other keys. -/
def others (key : Bytes) (es : List (Bytes × Bytes)) : List (Bytes × Bytes) :=
  es.filter fun e => e.1 ≠ key

/-- The working directory as `update_map` needs it. -/
structure MapDir (os : OS) (file : Bytes) : Prop where
  copy : Slot os mapName
  slot : Slot os file
  ne : file ≠ mapName

/-- The map file is missing or holds the entries `es`. -/
def Holds (os : OS) (file : Bytes) (es : List (Bytes × Bytes)) : Prop :=
  (os.fs.get (os.at file) = none ∧ es = []) ∨
    ∃ m, os.fs.get (os.at file) = some (.file (encodeMap es) m)

theorem others_cons_self {key : Bytes} {e : Bytes × Bytes} {es : List (Bytes × Bytes)}
    (h : e.1 = key) : others key (e :: es) = others key es := by
  simp [others, h]

theorem others_cons_ne {key : Bytes} {e : Bytes × Bytes} {es : List (Bytes × Bytes)}
    (h : e.1 ≠ key) : others key (e :: es) = e :: others key es := by
  simp [others, h]

theorem encodeMap_cons (e : Bytes × Bytes) (es : List (Bytes × Bytes)) :
    encodeMap (e :: es) = entryLine e ++ encodeMap es := rfl

theorem encodeMap_append (es es' : List (Bytes × Bytes)) :
    encodeMap (es ++ es') = encodeMap es ++ encodeMap es' := by
  simp [encodeMap]

/-- The copy loop appends the entries that are kept to the copy and touches nothing else. -/
theorem copyLines_entries {es : List (Bytes × Bytes)} (hes : ∀ e ∈ es, Entry e) (key : Bytes)
    {tmpf : Loc} {os : OS} {c : Bytes} {m : Int} (hfile : os.fs.get tmpf = some (.file c m)) :
    ∃ os', copyLines key tmpf (es.map entryLine) os = (true, os') ∧
      After os (others key es).length (Function.update os.fs.get tmpf
        (some (.file (c ++ encodeMap (kept os.fault key os.calls es)) m))) os' := by
  induction es generalizing os c with
  | nil =>
    refine ⟨os, rfl, ?_, rfl, rfl, rfl⟩
    intro l
    rw [kept, encodeMap, List.map_nil, List.flatten_nil, List.append_nil, ← hfile,
      Function.update_eq_self]
  | cons e es ih =>
    have hes' : ∀ e' ∈ es, Entry e' := fun e' he' => hes e' (List.mem_cons_of_mem _ he')
    rw [List.map_cons, copyLines, splitLine_entryLine (hes e List.mem_cons_self)]
    dsimp only
    by_cases hkey : e.1 = key
    · rw [if_pos hkey, others_cons_self hkey, kept, if_pos hkey]
      exact ih hes' hfile
    · rw [if_neg hkey, others_cons_ne hkey, kept, if_neg hkey, List.length_cons, Nat.add_comm]
      by_cases hbad : os.fault os.calls
      · rw [fwrite_fault hbad, if_pos hbad]
        obtain ⟨os', hcopy, hafter⟩ := ih hes' (show os.tick.fs.get _ = _ from hfile)
        exact ⟨os', hcopy, (After.tick os).trans hafter⟩
      · have hgood : os.fault os.calls = false := by simpa using hbad
        obtain ⟨os1, hwrite, hafter1⟩ := fwrite_file hfile hgood (entryLine e)
        rw [hwrite, if_neg hbad, encodeMap_cons]
        have hfile1 : os1.fs.get tmpf = some (.file (c ++ entryLine e) m) := by
          rw [hafter1.get, Function.update_self]
        obtain ⟨os', hcopy, hafter⟩ := ih hes' hfile1
        refine ⟨os', hcopy, ?_⟩
        have hall := hafter1.trans hafter
        rw [hafter1.fault, hafter1.calls, List.append_assoc] at hall
        refine ⟨?_, hall.cwd, hall.fault, hall.calls⟩
        intro l
        rw [hall.get]
        by_cases hl : l = tmpf
        · rw [hl, Function.update_self, Function.update_self]
        · rw [Function.update_of_ne hl, Function.update_of_ne hl, hafter1.get,
            Function.update_of_ne hl]

section Update

variable {os : OS} {file key val : Bytes}

/-- What is in the copy when the new entry has been written, or its write has failed. -/
def appended (bad : Bool) (c : Bytes) (e : Bytes × Bytes) : Bytes :=
  if bad then c else c ++ entryLine e

theorem fwrite_copy {loc : Loc} {c : Bytes} {m : Int} (hfile : os.fs.get loc = some (.file c m))
    (e : Bytes × Bytes) :
    After os 1 (Function.update os.fs.get loc
        (some (.file (appended (os.fault os.calls) c e) m))) (os.fwrite loc (entryLine e)).2 := by
  cases hbad : os.fault os.calls with
  | true =>
    rw [fwrite_fault hbad, appended, if_pos rfl, ← hfile, Function.update_eq_self]
    exact After.tick os
  | false =>
    obtain ⟨os', hwrite, hafter⟩ := fwrite_file hfile hbad (entryLine e)
    rw [hwrite, appended, if_neg (by simp)]
    exact hafter

variable (key val) in
/-- The end of an update: the copy with the new entry replaces the file, unless the rename is
the faulty call. -/
theorem finishMap_spec (hd : MapDir os file) {c : Bytes} {m : Int}
    (hcopy : os.fs.get (os.at mapName) = some (.file c m)) :
    (os.fault (os.calls + 1) = true ∧ ∃ os', finishMap os (os.at mapName) file key val =
        (some (-1), os') ∧
      After os 2 (Function.update os.fs.get (os.at mapName)
        (some (.file (appended (os.fault os.calls) c (key, val)) m))) os') ∨
    (os.fault (os.calls + 1) = false ∧ ∃ os', finishMap os (os.at mapName) file key val =
        (some 0, os') ∧
      After os 2 (Function.update (Function.update os.fs.get (os.at mapName) none) (os.at file)
        (some (.file (appended (os.fault os.calls) c (key, val)) m))) os') := by
  have hwrite := fwrite_copy hcopy (key, val)
  unfold finishMap
  generalize (os.fwrite (os.at mapName) (entryLine (key, val))).2 = os1 at hwrite ⊢
  have hcalls : os1.fault os1.calls = os.fault (os.calls + 1) := by
    rw [hwrite.fault, hwrite.calls]
  have hcwd : os.cwd ≠ os.at mapName := (os.at_ne_cwd mapName).symm
  have hne : os.at file ≠ os.at mapName := fun h => hd.ne (OS.at_inj h)
  have hmap : Slot os1 mapName := hd.copy.after hwrite
    (by rw [Function.update_of_ne hcwd]; exact hd.copy.cwd)
    (Or.inr ⟨_, _, Function.update_self ..⟩)
  have hslot : Slot os1 file := hd.slot.after hwrite
    (by rw [Function.update_of_ne hcwd]; exact hd.copy.cwd)
    (by rw [Function.update_of_ne hne]; exact hd.slot.plain)
  have hnode : os1.fs.get (os1.at mapName) =
      some (.file (appended (os.fault os.calls) c (key, val)) m) := by
    rw [hwrite.at_eq, hwrite.get, Function.update_self]
  cases hbad : os.fault (os.calls + 1) with
  | true =>
    rw [hbad] at hcalls
    rw [rename_fault hcalls]
    exact Or.inl ⟨rfl, _, rfl, hwrite.tick_right⟩
  | false =>
    rw [hbad] at hcalls
    obtain ⟨os', hrename, hafter⟩ := rename_slot hmap hslot (Ne.symm hd.ne) hnode hcalls
    rw [hrename]
    refine Or.inr ⟨rfl, os', rfl, ?_⟩
    have hall := hwrite.trans hafter
    refine ⟨?_, hall.cwd, hall.fault, hall.calls⟩
    intro l
    rw [hall.get, hwrite.at_eq, hwrite.at_eq]
    by_cases hf : l = os.at file
    · rw [hf, Function.update_self, Function.update_self]
    · rw [Function.update_of_ne hf, Function.update_of_ne hf]
      by_cases hm : l = os.at mapName
      · rw [hm, Function.update_self, Function.update_self]
      · rw [Function.update_of_ne hm, Function.update_of_ne hm, hwrite.get,
          Function.update_of_ne hm]

theorem updateMap_unopened (hbad : os.fault os.calls = true) :
    updateMap os file key val = (some (-1), os.tick) := by
  have hopen : os.fopenWrite mapName = (none, os.tick) := by
    unfold OS.fopenWrite OS.call
    rw [if_pos hbad]
  unfold updateMap
  rw [hopen]

/-- The directory stays as it is needed when the copy and the file are freed or filled. -/
theorem MapDir.after {n : Nat} {view : Loc → Option Node} {os' : OS} (hd : MapDir os file)
    (ha : After os n view os')
    (hframe : ∀ l, l ≠ os.at file → l ≠ os.at mapName → view l = os.fs.get l)
    (hfile : view (os.at file) = none ∨ ∃ c m, view (os.at file) = some (.file c m))
    (hcopy : view (os.at mapName) = none ∨ ∃ c m, view (os.at mapName) = some (.file c m)) :
    MapDir os' file := by
  have hcwd : view os.cwd = some .dir := by
    rw [hframe _ (os.at_ne_cwd file).symm (os.at_ne_cwd mapName).symm]
    exact hd.copy.cwd
  exact ⟨hd.copy.after ha hcwd hcopy, hd.slot.after ha hcwd hfile, hd.ne⟩

/-- When the old file is missing or cannot be opened, the copy is empty before the new entry. -/
theorem updateMap_unread (hd : MapDir os file) (hgood : os.fault os.calls = false)
    (hun : os.fs.get (os.at file) = none ∨ os.fault (os.calls + 1) = true) :
    ∃ os1 m, updateMap os file key val = finishMap os1 (os.at mapName) file key val ∧
      After os 2 (Function.update os.fs.get (os.at mapName) (some (.file [] m))) os1 ∧
      MapDir os1 file := by
  have hne : os.at file ≠ os.at mapName := fun h => hd.ne (OS.at_inj h)
  obtain ⟨m, os1, hopen, hafter⟩ := hd.copy.fopenWrite hgood
  have hd1 : MapDir os1 file := hd.after hafter
    (fun l _ hl => Function.update_of_ne hl ..)
    (by rw [Function.update_of_ne hne]; exact hd.slot.plain)
    (Or.inr ⟨_, _, Function.update_self ..⟩)
  have hread : os1.fopenRead file = (none, os1.tick) := by
    rcases hun with hfree | hbad
    · apply hd1.slot.fopenRead_missing
      rw [hafter.at_eq, hafter.get, Function.update_of_ne hne]
      exact hfree
    · have : os1.fault os1.calls = true := by rw [hafter.fault, hafter.calls, hbad]
      unfold OS.fopenRead OS.call
      rw [if_pos this]
  refine ⟨os1.tick, m, ?_, hafter.tick_right, ?_⟩
  · unfold updateMap
    rw [hopen]
    dsimp only
    rw [hread]
  · exact hd1.after (After.tick os1) (fun _ _ _ => rfl) hd1.slot.plain hd1.copy.plain

/-- When the old file is read, what is kept of it is in the copy and the file is removed, unless
that is the faulty call. -/
theorem updateMap_read (hd : MapDir os file) {es : List (Bytes × Bytes)} (hes : ∀ e ∈ es, Entry e)
    {m' : Int} (hfile : os.fs.get (os.at file) = some (.file (encodeMap es) m'))
    (hgood : os.fault os.calls = false) (hgood1 : os.fault (os.calls + 1) = false) :
    ∃ os1 m, updateMap os file key val = finishMap os1 (os.at mapName) file key val ∧
      After os (3 + (others key es).length) (Function.update (Function.update os.fs.get
        (os.at mapName) (some (.file (encodeMap (kept os.fault key (os.calls + 2) es)) m)))
        (os.at file) (if os.fault (os.calls + 2 + (others key es).length) = true
          then some (.file (encodeMap es) m') else none)) os1 ∧
      MapDir os1 file := by
  have hne : os.at file ≠ os.at mapName := fun h => hd.ne (OS.at_inj h)
  obtain ⟨m, os1, hopen, hafter⟩ := hd.copy.fopenWrite hgood
  have hd1 : MapDir os1 file := hd.after hafter
    (fun l _ hl => Function.update_of_ne hl ..)
    (by rw [Function.update_of_ne hne]; exact hd.slot.plain)
    (Or.inr ⟨_, _, Function.update_self ..⟩)
  have hfile1 : os1.fs.get (os1.at file) = some (.file (encodeMap es) m') := by
    rw [hafter.at_eq, hafter.get, Function.update_of_ne hne, hfile]
  have hread : os1.fopenRead file = (some (.ofBytes (encodeMap es)), os1.tick) :=
    hd1.slot.fopenRead_file hfile1 (by rw [hafter.fault, hafter.calls, hgood1])
  have hcopy1 : os1.tick.fs.get (os.at mapName) = some (.file [] m) := by
    rw [OS.tick_fs, hafter.get, Function.update_self]
  obtain ⟨os2, hcopied, hafter2⟩ := copyLines_entries hes key hcopy1
  have hto2 := hafter.tick_right.trans hafter2
  have hcalls : os1.tick.fault = os.fault ∧ os1.tick.calls = os.calls + 2 :=
    ⟨hafter.fault, congrArg (· + 1) hafter.calls⟩
  rw [hcalls.1, hcalls.2, List.nil_append] at hto2
  have hview2 : ∀ l, os2.fs.get l = Function.update os.fs.get (os.at mapName)
      (some (.file (encodeMap (kept os.fault key (os.calls + 2) es)) m)) l := by
    intro l
    rw [hto2.get]
    by_cases hl : l = os.at mapName
    · rw [hl, Function.update_self, Function.update_self]
    · rw [Function.update_of_ne hl, Function.update_of_ne hl, OS.tick_fs, hafter.get,
        Function.update_of_ne hl]
  have hafter2' : After os (2 + (others key es).length) (Function.update os.fs.get (os.at mapName)
      (some (.file (encodeMap (kept os.fault key (os.calls + 2) es)) m))) os2 :=
    ⟨hview2, hto2.cwd, hto2.fault, hto2.calls⟩
  have hd2 : MapDir os2 file := hd.after hafter2'
    (fun l _ hl => Function.update_of_ne hl ..)
    (by rw [Function.update_of_ne hne]; exact hd.slot.plain)
    (Or.inr ⟨_, _, Function.update_self ..⟩)
  have hfile2 : os2.fs.get (os2.at file) = some (.file (encodeMap es) m') := by
    rw [hafter2'.at_eq, hview2, Function.update_of_ne hne, hfile]
  have hdone : updateMap os file key val =
      finishMap (os2.unlink file) (os.at mapName) file key val := by
    have hlines : fileLines 256 (CFile.ofBytes (encodeMap es)).readable = es.map entryLine :=
      fileLines_encodeMap hes
    unfold updateMap
    rw [hopen]
    dsimp only
    rw [hread]
    dsimp only
    rw [hlines, hcopied]
  have hunlink : After os (3 + (others key es).length) (Function.update (Function.update os.fs.get
      (os.at mapName) (some (.file (encodeMap (kept os.fault key (os.calls + 2) es)) m)))
      (os.at file) (if os.fault (os.calls + 2 + (others key es).length) = true
        then some (.file (encodeMap es) m') else none)) (os2.unlink file) := by
    have hnumber : os2.fault os2.calls =
        os.fault (os.calls + 2 + (others key es).length) := by
      rw [hafter2'.fault, hafter2'.calls, Nat.add_assoc]
    have hthree : 3 + (others key es).length = 2 + (others key es).length + 1 := by omega
    rw [hthree]
    cases hbad : os.fault (os.calls + 2 + (others key es).length) with
    | true =>
      rw [hbad] at hnumber
      rw [unlink_fault hnumber, if_pos rfl]
      have htick := hafter2'.tick_right
      refine ⟨?_, htick.cwd, htick.fault, htick.calls⟩
      intro l
      rw [htick.get]
      by_cases hl : l = os.at file
      · rw [hl, Function.update_self, Function.update_of_ne hne, hfile]
      · rw [Function.update_of_ne hl]
    | false =>
      rw [hbad] at hnumber
      have hall := hafter2'.trans (hd2.slot.unlink_file hfile2 hnumber)
      refine ⟨?_, hall.cwd, hall.fault, hall.calls⟩
      intro l
      rw [hall.get, hafter2'.at_eq, if_neg (by simp)]
      by_cases hl : l = os.at file
      · rw [hl, Function.update_self, Function.update_self]
      · rw [Function.update_of_ne hl, Function.update_of_ne hl, hview2]
  refine ⟨_, m, hdone, hunlink, hd.after hunlink ?_ ?_ ?_⟩
  · intro l hl hl'
    rw [Function.update_of_ne hl, Function.update_of_ne hl']
  · rw [Function.update_self]
    split
    · exact Or.inr ⟨_, _, rfl⟩
    · exact Or.inl rfl
  · rw [Function.update_of_ne hne.symm, Function.update_self]
    exact Or.inr ⟨_, _, rfl⟩

/-! ## The system after an update -/

/-- After `n` calls nothing but the map file and its copy has changed. -/
structure Beside (os : OS) (file : Bytes) (n : Nat) (os' : OS) : Prop where
  dir : MapDir os' file
  cwd : os'.cwd = os.cwd
  fault : os'.fault = os.fault
  calls : os'.calls = os.calls + n
  get : ∀ l, l ≠ os.at file → l ≠ os.at mapName → os'.fs.get l = os.fs.get l

theorem Beside.at_eq {n : Nat} {os' : OS} (h : Beside os file n os') (name : Name) :
    os'.at name = os.at name := by
  unfold OS.at
  rw [h.cwd]

theorem Beside.of_after {n : Nat} {view : Loc → Option Node} {os' : OS} (hd : MapDir os file)
    (ha : After os n view os')
    (hframe : ∀ l, l ≠ os.at file → l ≠ os.at mapName → view l = os.fs.get l)
    (hfile : view (os.at file) = none ∨ ∃ c m, view (os.at file) = some (.file c m))
    (hcopy : view (os.at mapName) = none ∨ ∃ c m, view (os.at mapName) = some (.file c m)) :
    Beside os file n os' where
  dir := hd.after ha hframe hfile hcopy
  cwd := ha.cwd
  fault := ha.fault
  calls := ha.calls
  get l hl hl' := by rw [ha.get, hframe l hl hl']

theorem appended_encodeMap (bad : Bool) (es : List (Bytes × Bytes)) (e : Bytes × Bytes) :
    appended bad (encodeMap es) e = encodeMap (es ++ if bad then [] else [e]) := by
  cases bad with
  | true => simp [appended]
  | false => simp [appended, encodeMap]

/-- The end of an update, from a state whose copy holds the entries `es`. -/
theorem finishMap_beside {os1 : OS} {n : Nat} {view : Loc → Option Node} (hd : MapDir os file)
    (ha : After os n view os1) (hd1 : MapDir os1 file)
    (hframe : ∀ l, l ≠ os.at file → l ≠ os.at mapName → view l = os.fs.get l)
    (es : List (Bytes × Bytes)) (m : Int) (hcopy : view (os.at mapName) = some (.file (encodeMap es) m)) :
    ∃ os', Beside os file (n + 2) os' ∧
      ((os.fault (os.calls + n + 1) = true ∧
          finishMap os1 (os.at mapName) file key val = (some (-1), os') ∧
          os'.fs.get (os.at file) = view (os.at file)) ∨
        (os.fault (os.calls + n + 1) = false ∧
          finishMap os1 (os.at mapName) file key val = (some 0, os') ∧
          os'.fs.get (os.at file) = some (.file (encodeMap
            (es ++ if os.fault (os.calls + n) then [] else [(key, val)])) m))) := by
  have hne : os.at file ≠ os.at mapName := fun h => hd.ne (OS.at_inj h)
  have hnode : os1.fs.get (os1.at mapName) = some (.file (encodeMap es) m) := by
    rw [ha.at_eq, ha.get, hcopy]
  have hfinish := finishMap_spec key val hd1 hnode
  rw [ha.fault, ha.calls, ha.at_eq, ha.at_eq, appended_encodeMap] at hfinish
  have hplain : view (os.at file) = none ∨ ∃ c m, view (os.at file) = some (.file c m) := by
    have := hd1.slot.plain
    rwa [ha.at_eq, ha.get] at this
  rcases hfinish with ⟨hbad, os', hdone, hafter⟩ | ⟨hgood, os', hdone, hafter⟩
  · refine ⟨os', .of_after hd (ha.trans hafter) ?_ ?_ ?_, Or.inl ⟨hbad, hdone, ?_⟩⟩
    · intro l hl hl'
      rw [Function.update_of_ne hl', ha.get, hframe l hl hl']
    · rw [Function.update_of_ne hne, ha.get]
      exact hplain
    · rw [Function.update_self]
      exact Or.inr ⟨_, _, rfl⟩
    · rw [hafter.get, Function.update_of_ne hne, ha.get]
  · refine ⟨os', .of_after hd (ha.trans hafter) ?_ ?_ ?_, Or.inr ⟨hgood, hdone, ?_⟩⟩
    · intro l hl hl'
      rw [Function.update_of_ne hl, Function.update_of_ne hl', ha.get, hframe l hl hl']
    · rw [Function.update_self]
      exact Or.inr ⟨_, _, rfl⟩
    · rw [Function.update_of_ne hne.symm, Function.update_self]
      exact Or.inl rfl
    · rw [hafter.get, Function.update_self]

/-- An update that does not read the old file. -/
theorem updateMap_unread_result (hd : MapDir os file) (hgood : os.fault os.calls = false)
    (hun : os.fs.get (os.at file) = none ∨ os.fault (os.calls + 1) = true) :
    ∃ os', Beside os file 4 os' ∧
      ((os.fault (os.calls + 3) = true ∧ updateMap os file key val = (some (-1), os') ∧
          os'.fs.get (os.at file) = os.fs.get (os.at file)) ∨
        (os.fault (os.calls + 3) = false ∧ updateMap os file key val = (some 0, os') ∧
          ∃ m, os'.fs.get (os.at file) = some (.file (encodeMap
            (if os.fault (os.calls + 2) then [] else [(key, val)])) m))) := by
  have hne : os.at file ≠ os.at mapName := fun h => hd.ne (OS.at_inj h)
  obtain ⟨os1, m, hdone, hafter, hd1⟩ := updateMap_unread hd hgood hun
  obtain ⟨os', hbeside, hcases⟩ := finishMap_beside hd hafter hd1
    (fun l _ hl => Function.update_of_ne hl ..) [] m (Function.update_self ..)
  rw [← hdone, Function.update_of_ne hne] at hcases
  refine ⟨os', hbeside, ?_⟩
  rcases hcases with hbad | ⟨hgood3, hzero, hnode⟩
  · exact Or.inl hbad
  · exact Or.inr ⟨hgood3, hzero, m, hnode⟩

/-- An update that reads the old file. -/
theorem updateMap_read_result (hd : MapDir os file) {es : List (Bytes × Bytes)}
    (hes : ∀ e ∈ es, Entry e) {m' : Int}
    (hfile : os.fs.get (os.at file) = some (.file (encodeMap es) m'))
    (hgood : os.fault os.calls = false) (hgood1 : os.fault (os.calls + 1) = false) :
    ∃ os', Beside os file (3 + (others key es).length + 2) os' ∧
      ((os.fault (os.calls + (3 + (others key es).length) + 1) = true ∧
          updateMap os file key val = (some (-1), os') ∧
          os'.fs.get (os.at file) = (if os.fault (os.calls + 2 + (others key es).length) = true
            then some (.file (encodeMap es) m') else none)) ∨
        (os.fault (os.calls + (3 + (others key es).length) + 1) = false ∧
          updateMap os file key val = (some 0, os') ∧
          ∃ m, os'.fs.get (os.at file) = some (.file (encodeMap
            (kept os.fault key (os.calls + 2) es ++
              if os.fault (os.calls + (3 + (others key es).length)) then [] else [(key, val)])) m))) := by
  have hne : os.at file ≠ os.at mapName := fun h => hd.ne (OS.at_inj h)
  obtain ⟨os1, m, hdone, hafter, hd1⟩ :=
    updateMap_read hd hes hfile hgood hgood1
  obtain ⟨os', hbeside, hcases⟩ := finishMap_beside hd hafter hd1
    (fun l hl hl' => by rw [Function.update_of_ne hl, Function.update_of_ne hl'])
    (kept os.fault key (os.calls + 2) es) m
    (by rw [Function.update_of_ne hne.symm, Function.update_self])
  rw [← hdone, Function.update_self] at hcases
  refine ⟨os', hbeside, ?_⟩
  rcases hcases with hbad | ⟨hgood3, hzero, hnode⟩
  · exact Or.inl hbad
  · exact Or.inr ⟨hgood3, hzero, m, hnode⟩

end Update

end ToolchainTools
