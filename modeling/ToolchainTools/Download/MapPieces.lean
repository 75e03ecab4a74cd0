import ToolchainTools.Download.MapRuns

/-!
# Map files of any content

The readers see a map file in pieces of at most 255 bytes and hand both tokens of a piece to
`trim` before they look whether there are two. A piece without two fields ends the process
(`map_readers_survive_iff`). A line of more than 255 bytes is written whole and comes back in
pieces: its value is cut, or one of the pieces ends the process (`long_entry_iff`).
-/

namespace ToolchainTools

open CLib Posix

variable {os : OS} {file key val : Bytes} {es : List (Bytes × Bytes)}

/-! ## Pieces -/

/-- What `while (fgets(line, sizeof(line), f))` sees of a file, if it can be opened. -/
def mapPieces (os : OS) (file : Bytes) : List Bytes :=
  match os.fopenRead file with
  | (some f, _) => fileLines 256 f.readable
  | (none, _) => []

/-- In front of the first NUL there is a comma with something else before it and behind it. -/
def TwoFields (piece : Bytes) : Prop :=
  ∃ front back, cstr piece = front ++ comma :: back ∧ (∃ x ∈ front, x ≠ comma) ∧
    ∃ y ∈ back, y ≠ comma

/-- The piece is an entry of `key`. -/
def EntryOf (key piece : Bytes) : Prop := ∃ v, splitLine piece = some (key, v)

/-- No comma stands behind anything else, where all commas are in front of the rest. -/
theorem no_comma_behind {front a u v : Bytes} (hfront : ∀ x ∈ front, x = comma) (ha : comma ∉ a)
    (h : front ++ a = u ++ comma :: v) : ∀ x ∈ u, x = comma := by
  rcases List.append_eq_append_iff.mp h with ⟨e, rfl, hae⟩ | ⟨e, rfl, -⟩
  · exact absurd (hae ▸ by simp) ha
  · exact fun x hx => hfront x (List.mem_append_left _ hx)

theorem splitLine_eq_none_iff {piece : Bytes} : splitLine piece = none ↔ ¬ TwoFields piece := by
  unfold splitLine TwoFields
  generalize cstr piece = s
  cases hfirst : strtok comma s with
  | none =>
    rw [strtok_eq_none_iff] at hfirst
    refine iff_of_true rfl ?_
    rintro ⟨front, back, rfl, ⟨x, hx, hne⟩, -⟩
    exact hne (hfirst x (List.mem_append_left _ hx))
  | some t =>
    obtain ⟨a, rest⟩ := t
    dsimp only
    have hsecond : (strtok comma rest = none) ↔ ¬ ∃ y ∈ rest, y ≠ comma := by
      rw [strtok_eq_none_iff]
      push Not
      rfl
    have hgoal : (∃ front back, s = front ++ comma :: back ∧ (∃ x ∈ front, x ≠ comma) ∧
        ∃ y ∈ back, y ≠ comma) ↔ ∃ y ∈ rest, y ≠ comma := by
      obtain ⟨front, hfront, hane, ha, ⟨rfl, rfl⟩ | rfl⟩ := strtok_eq_some hfirst
      · -- the only token: a comma stands in front of it alone
        refine iff_of_false ?_ (by simp)
        rintro ⟨u, v, heq, ⟨x, hx, hne⟩, -⟩
        exact hne (no_comma_behind hfront ha heq x hx)
      · constructor
        · rintro ⟨u, v, heq, ⟨x, hx, hne⟩, hy⟩
          rcases List.append_eq_append_iff.mp heq with ⟨e, rfl, hrest⟩ | ⟨e, hfa, hv⟩
          · cases e with
            | nil =>
              simp only [List.nil_append, List.cons.injEq, true_and] at hrest
              rwa [hrest]
            | cons z zs =>
              simp only [List.cons_append, List.cons.injEq] at hrest
              obtain ⟨y, hy, hyne⟩ := hy
              exact ⟨y, by rw [hrest.2]; simp [hy], hyne⟩
          · cases e with
            | nil =>
              simp only [List.nil_append, List.cons.injEq, true_and] at hv
              rwa [← hv]
            | cons z zs =>
              simp only [List.cons_append, List.cons.injEq] at hv
              rw [← hv.1] at hfa
              exact absurd (no_comma_behind hfront ha hfa x hx) hne
        · intro hy
          obtain ⟨z, zs, rfl⟩ := List.exists_cons_of_ne_nil hane
          have hz : z ≠ comma := fun h => ha (h ▸ List.mem_cons_self)
          exact ⟨_, rest, rfl, ⟨z, by simp, hz⟩, hy⟩
    rw [hgoal, ← hsecond]
    cases strtok comma rest <;> simp

/-! ## What the readers survive -/

/-- Up to the entry that answers for the key, every piece has two fields. -/
def ReadUntil (key : Bytes) (pieces : List Bytes) : Prop :=
  ∀ front piece back, pieces = front ++ piece :: back → (∀ q ∈ front, ¬ EntryOf key q) →
    TwoFields piece

theorem testLines_ne_none_iff (key value : Bytes) (pieces : List Bytes) :
    testLines key value pieces ≠ none ↔ ReadUntil key pieces := by
  induction pieces with
  | nil =>
    refine iff_of_true (by simp [testLines]) ?_
    intro front piece back h
    simp at h
  | cons p ps ih =>
    rw [testLines]
    cases hsplit : splitLine p with
    | none =>
      refine iff_of_false (by simp) fun h => ?_
      exact splitLine_eq_none_iff.mp hsplit (h [] p ps rfl (by simp))
    | some e =>
      have htwo : TwoFields p := by
        by_contra hno
        rw [splitLine_eq_none_iff.mpr hno] at hsplit
        cases hsplit
      dsimp only
      split
      · rename_i hkey
        refine iff_of_true (by simp) ?_
        intro front piece back h hfront
        cases front with
        | nil =>
          cases h
          exact htwo
        | cons q front =>
          cases h
          exact absurd ⟨e.2, by rw [hsplit, ← hkey]⟩ (hfront p List.mem_cons_self)
      · rename_i hkey
        rw [ih]
        constructor
        · intro h front piece back heq hfront
          cases front with
          | nil =>
            cases heq
            exact htwo
          | cons q front =>
            cases heq
            exact h front piece back rfl fun q hq => hfront q (List.mem_cons_of_mem _ hq)
        · intro h front piece back heq hfront
          subst heq
          refine h (p :: front) piece back rfl ?_
          rw [List.forall_mem_cons]
          refine ⟨?_, hfront⟩
          rintro ⟨v, hv⟩
          rw [hsplit, Option.some.injEq] at hv
          exact hkey (congrArg Prod.fst hv)

theorem copyLines_fst_iff (key : Bytes) (tmpf : Loc) (pieces : List Bytes) (os : OS) :
    (copyLines key tmpf pieces os).1 = true ↔ ∀ p ∈ pieces, TwoFields p := by
  induction pieces generalizing os with
  | nil => simp [copyLines]
  | cons p ps ih =>
    rw [copyLines, List.forall_mem_cons]
    cases hsplit : splitLine p with
    | none => simp [splitLine_eq_none_iff.mp hsplit]
    | some e =>
      have htwo : TwoFields p := by
        by_contra hno
        rw [splitLine_eq_none_iff.mpr hno] at hsplit
        cases hsplit
      dsimp only
      rw [and_iff_right htwo]
      split
      · exact ih os
      · exact ih _

theorem finishMap_ne_none (os : OS) (tmpf : Loc) (file key val : Bytes) :
    (finishMap os tmpf file key val).1 ≠ none := by
  unfold finishMap
  split <;> simp

/-- **Map readers and any file.** `test_map` finishes exactly if every piece up to the entry of the
key has two fields, and `update_map` exactly if every piece that it reads has two fields. -/
theorem map_readers_survive_iff (os : OS) (file key value : Bytes) :
    ((testMap os file key value).1 ≠ none ↔ ReadUntil key (mapPieces os file)) ∧
      ((updateMap os file key value).1 ≠ none ↔
        ∀ tmpf os', os.fopenWrite mapName = (some tmpf, os') →
          ∀ p ∈ mapPieces os' file, TwoFields p) := by
  constructor
  · unfold testMap mapPieces
    rcases hopen : os.fopenRead file with ⟨_ | f, os'⟩
    · exact iff_of_true (by simp) (fun front piece back h => by simp at h)
    · exact testLines_ne_none_iff key value _
  · unfold updateMap mapPieces
    rcases hcopy : os.fopenWrite mapName with ⟨_ | tmpf, os₁⟩
    · exact iff_of_true (by simp) (fun tmpf os' h => by cases h)
    · dsimp only
      have hforall : (∀ tmpf' os', (some tmpf, os₁) = (some tmpf', os') →
          ∀ p ∈ (match os'.fopenRead file with
            | (some f, _) => fileLines 256 f.readable
            | (none, _) => []), TwoFields p) ↔
          ∀ p ∈ (match os₁.fopenRead file with
            | (some f, _) => fileLines 256 f.readable
            | (none, _) => []), TwoFields p := by
        constructor
        · exact fun h => h tmpf os₁ rfl
        · rintro h tmpf' os' heq
          cases heq
          exact h
      rw [hforall]
      rcases hopen : os₁.fopenRead file with ⟨_ | f, os₂⟩
      · exact iff_of_true (finishMap_ne_none os₂ tmpf file key value) (by simp)
      · dsimp only
        rw [← copyLines_fst_iff key tmpf _ os₂]
        rcases copyLines key tmpf (fileLines 256 f.readable) os₂ with ⟨_ | _, os₃⟩
        · simp
        · exact iff_of_true (finishMap_ne_none (os₃.unlink file) tmpf file key value) rfl

/-- A working directory with a map file of these bytes. -/
def mapFileOS (content : Bytes) : OS :=
  { freshOS with fs := freshOS.fs.add [lit "w", doneName] (.file content OS.createMode) }

/-- A blank line ends the process in both readers. -/
theorem blank_line_crashes :
    (testMap (mapFileOS (lit "\n")) doneName (lit "a") (lit "1")).1 = none ∧
      (updateMap (mapFileOS (lit "\n")) doneName (lit "a") (lit "1")).1 = none := by
  decide +kernel

/-! ## Lines that do not fit -/

/-- The entry is refused, or it answers from then on and no other answer changes, until the next
update of the key asked for. -/
def KeptOrRefused (os : OS) (file key val : Bytes) : Prop :=
  (updateMap os file key val).1 = some (-1) ∨
    ∀ us os', (∀ u ∈ us, u.1 ≠ key) → Updates file (updateMap os file key val).2 us os' →
      query os' file key val = some .matched ∧
        ∀ k, k ≠ key → (∀ u ∈ us, u.1 ≠ k) → ∀ v, query os' file k v = query os file k v

/-- `download.map` cannot be opened or cannot be renamed. -/
inductive MapRefused (os : OS) (file : Bytes) (es : List (Bytes × Bytes)) (key : Bytes) : Prop
  | unopened : os.fault os.calls = true → MapRefused os file es key
  | unread : os.fs.get (os.at file) = none ∨ os.fault (os.calls + 1) = true →
      os.fault (os.calls + 3) = true → MapRefused os file es key
  | read : os.fs.get (os.at file) ≠ none → os.fault (os.calls + 1) = false →
      os.fault (os.calls + 4 + (others key es).length) = true → MapRefused os file es key

theorem takeLine_cut {n : Nat} {bytes : Bytes} (h : eol ∉ bytes.take n) (hlen : n ≤ bytes.length) :
    takeLine n bytes = (bytes.take n, bytes.drop n) := by
  induction n generalizing bytes with
  | zero => rw [takeLine, List.take_zero, List.drop_zero]
  | succ n ih =>
    cases bytes with
    | nil => simp at hlen
    | cons b bs =>
      rw [List.take_succ_cons, List.mem_cons, not_or] at h
      rw [takeLine, if_neg (Ne.symm h.1), ih h.2 (by simpa using hlen)]
      rfl

/-- Behind lines that fit, the pieces of what follows come as if it stood alone. -/
theorem fileLines_lines {lines : List Bytes} (h : ∀ l ∈ lines, IsLine 256 l) (rest : Bytes) :
    fileLines 256 (lines.flatten ++ rest) = lines ++ fileLines 256 rest := by
  induction lines with
  | nil => rfl
  | cons line lines ih =>
    rw [List.flatten_cons, List.append_assoc, fileLines_cons (h line List.mem_cons_self),
      ih fun l hl => h l (List.mem_cons_of_mem _ hl), List.cons_append]

/-- Entries of other keys are passed by. -/
theorem testLines_behind (hes : ∀ e ∈ es, Entry e) {k : Bytes} (hk : es.lookup k = none) (v : Bytes)
    (pieces : List Bytes) :
    testLines k v (es.map entryLine ++ pieces) = testLines k v pieces := by
  induction es with
  | nil => rfl
  | cons e es ih =>
    rw [lookup_eq_none_iff, List.forall_mem_cons] at hk
    rw [List.map_cons, List.cons_append, testLines,
      splitLine_entryLine (hes e List.mem_cons_self)]
    dsimp only
    rw [if_neg hk.1]
    exact ih (fun e he => hes e (List.mem_cons_of_mem _ he)) (lookup_eq_none_iff.mpr hk.2)

section Long

variable (hkey : Field key) (hkne : key ≠ []) (hval : Field val)
  (hlong : 255 < (entryLine (key, val)).length)

include hkey hval hlong in
/-- The first piece of the line and what is left for the next one. -/
theorem fileLines_long : fileLines 256 (entryLine (key, val)) =
    (entryLine (key, val)).take 255 :: fileLines 256 ((entryLine (key, val)).drop 255) := by
  have hnoeol : eol ∉ (entryLine (key, val)).take 255 := by
    have hfront : (entryLine (key, val)).take 255 = (key ++ comma :: val).take 255 := by
      have hline : entryLine (key, val) = (key ++ comma :: val) ++ [eol] := by simp [entryLine]
      rw [hline, List.length_append, List.length_singleton] at hlong
      rw [hline, List.take_append_of_le_length (by omega)]
    rw [hfront]
    intro hmem
    have := List.mem_of_mem_take hmem
    simp only [List.mem_append, List.mem_cons] at this
    rcases this with h | h | h
    · exact hkey.eol h
    · exact absurd h (by decide)
    · exact hval.eol h
  have hne : entryLine (key, val) ≠ [] := by simp [entryLine]
  rw [fileLines, dif_neg hne]
  dsimp only
  rw [takeLine_cut hnoeol (by omega)]

include hkey hkne hval hlong in
/-- What the first piece of the line reads as. -/
theorem splitLine_long : splitLine ((entryLine (key, val)).take 255) =
    if 254 ≤ key.length then none else some (key, trim (val.take (254 - key.length))) := by
  have hlen : (entryLine (key, val)).length = key.length + val.length + 2 := by
    simp [entryLine]
    omega
  have hnul : (0 : UInt8) ∉ (entryLine (key, val)).take 255 := by
    intro hmem
    have := List.mem_of_mem_take hmem
    simp only [entryLine, List.mem_append, List.mem_cons, List.not_mem_nil, or_false] at this
    rcases this with h | h | h | h
    · exact hkey.nul h
    · exact absurd h (by decide)
    · exact hval.nul h
    · exact absurd h (by decide)
  split
  · rename_i hcut
    rw [splitLine_eq_none_iff]
    -- nothing stands behind the comma, if the comma is in the piece at all
    rintro ⟨front, back, heq, -, y, hy, -⟩
    rw [cstr_of_not_mem hnul] at heq
    have hpiece : (entryLine (key, val)).take 255 <+: key ++ [comma] := by
      have hline : entryLine (key, val) = (key ++ [comma]) ++ (val ++ [eol]) := by
        simp [entryLine]
      rw [hline, List.take_append_of_le_length (by simp; omega)]
      exact List.take_prefix _ _
    obtain ⟨more, hmore⟩ := hpiece
    rw [heq, List.append_assoc, List.cons_append] at hmore
    rcases List.append_eq_append_iff.mp hmore with ⟨e, rfl, he⟩ | ⟨e, rfl, he⟩
    · cases e with
      | nil =>
        simp only [List.nil_append, List.cons.injEq, true_and, List.append_eq_nil_iff] at he
        rw [he.1] at hy
        cases hy
      | cons z zs =>
        simp only [List.cons_append, List.cons.injEq] at he
        exact hkey.comma (he.1 ▸ by simp)
    · cases e with
      | nil =>
        simp only [List.nil_append, List.cons.injEq, true_and] at he
        have hnil : back = [] := by
          have := congrArg List.length he
          simp only [List.length_append, List.length_nil] at this
          exact List.length_eq_zero_iff.mp (by omega)
        rw [hnil] at hy
        cases hy
      | cons z zs =>
        have := congrArg List.length he
        simp at this
  · rename_i hcut
    have hpiece : (entryLine (key, val)).take 255 =
        key ++ comma :: val.take (254 - key.length) := by
      unfold entryLine
      dsimp only
      rw [List.take_append, List.take_of_length_le (by omega)]
      have hnum : 255 - key.length = (254 - key.length) + 1 := by omega
      rw [hnum, List.take_succ_cons, List.take_append_of_le_length (by omega)]
    have hne : val.take (254 - key.length) ≠ [] := by
      rw [← List.length_pos_iff, List.length_take]
      omega
    have hcomma : comma ∉ val.take (254 - key.length) := fun h =>
      hval.comma (List.mem_of_mem_take h)
    unfold splitLine
    rw [cstr_of_not_mem hnul, hpiece, strtok_append hkne hkey.comma]
    dsimp only
    rw [strtok_last hne hcomma, hkey.trim]

theorem length_trim_le (s : Bytes) : (trim s).length ≤ s.length := by
  unfold trim trimBy
  rw [List.length_reverse]
  exact ((List.dropWhile_suffix _).length_le.trans (List.length_reverse ..).le).trans
    (List.dropWhile_suffix _).length_le

include hkey hkne hval hlong in
/-- Read back from behind entries of other keys, the line either does not answer with its value,
or ends the process when another key is asked for. -/
theorem long_line_unusable {kes : List (Bytes × Bytes)} (hes : ∀ e ∈ kes, Entry e)
    (hno : kes.lookup key = none) :
    testLines key val (fileLines 256 (encodeMap kes ++ entryLine (key, val))) ≠ some .matched ∨
      ∀ k, k ≠ key → kes.lookup k = none → ∀ v,
        testLines k v (fileLines 256 (encodeMap kes ++ entryLine (key, val))) = none := by
  have hlines : ∀ l ∈ kes.map entryLine, IsLine 256 l := by
    intro l hl
    obtain ⟨e, he, rfl⟩ := List.mem_map.mp hl
    exact entryLine_isLine (hes e he)
  have hlen : (entryLine (key, val)).length = key.length + val.length + 2 := by
    simp [entryLine]
    omega
  rw [encodeMap, fileLines_lines hlines, fileLines_long hkey hval hlong,
    testLines_behind hes hno, testLines, splitLine_long hkey hkne hval hlong]
  by_cases hcut : 254 ≤ key.length
  · rw [if_pos hcut]
    exact Or.inl (by simp)
  · rw [if_neg hcut]
    dsimp only
    rw [if_pos rfl]
    by_cases hfull : val.length = 254 - key.length
    · -- the value is whole, and the newline alone is the next piece
      refine Or.inr fun k hk hkno v => ?_
      have hrest : (entryLine (key, val)).drop 255 = [eol] := by
        have hline : entryLine (key, val) = (key ++ comma :: val) ++ [eol] := by simp [entryLine]
        rw [hline, List.drop_append_of_le_length (by simp; omega),
          List.drop_of_length_le (by simp; omega), List.nil_append]
      have hblank : fileLines 256 [eol] = [[eol]] := by
        have h : fileLines 256 ([eol] ++ []) = [eol] :: fileLines 256 [] :=
          fileLines_cons ⟨⟨[], by simp, rfl⟩, by simp⟩
        rwa [List.append_nil, fileLines_nil] at h
      rw [testLines_behind hes hkno, testLines, splitLine_long hkey hkne hval hlong, if_neg hcut]
      dsimp only
      rw [if_neg (Ne.symm hk), hrest, hblank]
      rfl
    · refine Or.inl ?_
      have hne : trim (val.take (254 - key.length)) ≠ val := by
        intro heq
        have h1 := length_trim_le (val.take (254 - key.length))
        rw [heq, List.length_take] at h1
        omega
      rw [if_neg hne]
      simp

end Long

theorem query_file {c : Bytes} {m : Int} (hs : Slot os file)
    (hfile : os.fs.get (os.at file) = some (.file c m)) (k v : Bytes) :
    query os file k v = testLines k v (fileLines 256 c) := by
  unfold query testMap
  rw [(Slot.quiet hs).fopenRead_file hfile rfl]
  rfl

/-- Some key has no entry. -/
theorem exists_absent (key : Bytes) (es : List (Bytes × Bytes)) :
    ∃ k, k ≠ key ∧ es.lookup k = none := by
  obtain ⟨k, hk⟩ := Infinite.exists_notMem_finset (insert key (es.map Prod.fst).toFinset)
  rw [Finset.mem_insert, not_or, List.mem_toFinset, List.mem_map] at hk
  refine ⟨k, hk.1, lookup_eq_none_iff.mpr fun e he heq => hk.2 ⟨e, he, heq⟩⟩

/-- An update that returns 0 with a line that does not fit does not keep the entry. -/
theorem not_keptOrRefused {os' : OS} {kes : List (Bytes × Bytes)} {bad : Bool} {m : Int}
    (hkey : Field key) (hkne : key ≠ []) (hval : Field val)
    (hlong : 255 < (entryLine (key, val)).length)
    (hdone : updateMap os file key val = (some 0, os')) (hs : Slot os' file)
    (hnode : os'.fs.get (os'.at file) =
      some (.file (encodeMap (kes ++ if bad then [] else [(key, val)])) m))
    (hes : ∀ e ∈ kes, Entry e) (hno : kes.lookup key = none)
    (hquery : ∀ k v, query os file k v ≠ none) : ¬ KeptOrRefused os file key val := by
  rintro (hcode | hkept)
  · rw [hdone] at hcode
    cases hcode
  · obtain ⟨hmatched, hsame⟩ := hkept [] os' (by simp) (by rw [hdone]; exact .none os')
    have hread := query_file hs hnode
    rw [hread] at hmatched
    cases bad with
    | true =>
      rw [if_pos rfl, List.append_nil, fileLines_encodeMap hes, testLines_entries hes, hno] at hmatched
      cases hmatched
    | false =>
      have hcontent : encodeMap (kes ++ if false = true then [] else [(key, val)]) =
          encodeMap kes ++ entryLine (key, val) := by
        rw [if_neg Bool.false_ne_true, encodeMap_append]
        simp [encodeMap]
      rw [hcontent] at hmatched hread
      rcases long_line_unusable hkey hkne hval hlong hes hno with hwrong | hcrash
      · exact hwrong hmatched
      · obtain ⟨k, hk, hkno⟩ := exists_absent key kes
        have hnone := (hread k []).trans (hcrash k hk hkno [])
        rw [hsame k hk (by simp) []] at hnone
        exact hquery k [] hnone

/-- **Long entries.** An entry whose line does not fit the readers' buffer is never kept: the
update either returns -1, because `download.map` cannot be opened or renamed, or the entry does
not answer, or another key does no longer. -/
theorem long_entry_iff (hd : MapDir os file) (hh : Holds os file es) (hes : ∀ e ∈ es, Entry e)
    (hkey : Field key) (hkne : key ≠ []) (hval : Field val)
    (hlong : 255 < (entryLine (key, val)).length) :
    KeptOrRefused os file key val ↔ MapRefused os file es key := by
  have hquery : ∀ k v, query os file k v ≠ none := fun k v => by
    rw [query_holds hd.slot hh hes]
    simp
  by_cases hfirst : os.fault os.calls = true
  · refine iff_of_true (Or.inl ?_) (.unopened hfirst)
    rw [updateMap_unopened hfirst]
  have hgood : os.fault os.calls = false := by simpa using hfirst
  by_cases hun : os.fs.get (os.at file) = none ∨ os.fault (os.calls + 1) = true
  · obtain ⟨os', hbeside, hcases⟩ := @updateMap_unread_result os file key val hd hgood hun
    rcases hcases with ⟨hbad, hdone, -⟩ | ⟨hgood3, hdone, m, hnode⟩
    · exact iff_of_true (Or.inl (by rw [hdone])) (.unread hun hbad)
    · refine iff_of_false ?_ ?_
      · have hnode' : os'.fs.get (os'.at file) = some (.file (encodeMap
            ([] ++ if os.fault (os.calls + 2) then [] else [(key, val)])) m) := by
          rw [hbeside.at_eq]
          exact hnode
        exact not_keptOrRefused hkey hkne hval hlong hdone hbeside.dir.slot hnode' (by simp) rfl
          hquery
      · rintro (hbad | ⟨-, hbad⟩ | ⟨hpresent, hgood1, -⟩)
        · exact hfirst hbad
        · rw [hgood3] at hbad
          cases hbad
        · rcases hun with hfree | hbad
          · exact hpresent hfree
          · rw [hgood1] at hbad
            cases hbad
  · rw [not_or] at hun
    have hgood1 : os.fault (os.calls + 1) = false := by simpa using hun.2
    obtain ⟨m', hfile⟩ : ∃ m', os.fs.get (os.at file) = some (.file (encodeMap es) m') := by
      rcases hh with ⟨hfree, -⟩ | hfile
      · exact absurd hfree hun.1
      · exact hfile
    have hnumber : os.calls + (3 + (others key es).length) + 1 =
        os.calls + 4 + (others key es).length := by omega
    obtain ⟨os', hbeside, hcases⟩ :=
      @updateMap_read_result os file key val hd es hes m' hfile hgood hgood1
    rw [hnumber] at hcases
    rcases hcases with ⟨hbad, hdone, -⟩ | ⟨hgood4, hdone, m, hnode⟩
    · exact iff_of_true (Or.inl (by rw [hdone])) (.read hun.1 hgood1 hbad)
    · refine iff_of_false ?_ ?_
      · exact not_keptOrRefused hkey hkne hval hlong hdone hbeside.dir.slot
          (by rw [hbeside.at_eq]; exact hnode) (fun e he => hes e (kept_mem he).1) lookup_kept_self
          hquery
      · rintro (hbad | ⟨hunread, -⟩ | ⟨-, -, hbad⟩)
        · exact hfirst hbad
        · exact hunread.elim hun.1 hun.2
        · rw [hgood4] at hbad
          cases hbad

/-- A digest of 300 characters. -/
def longValue : Bytes := List.replicate 300 120

/-- Where no call succeeds, the entry is refused. -/
theorem long_entry_iff_refused :
    KeptOrRefused (stopAt (doneOS threeEntries) 0) doneName (lit "k") longValue := by
  obtain ⟨hd, hh, hes⟩ := doneOS_three
  have hd' : MapDir (stopAt (doneOS threeEntries) 0) doneName :=
    ⟨⟨hd.copy.ordinary, hd.copy.cwd, hd.copy.plain⟩, ⟨hd.slot.ordinary, hd.slot.cwd, hd.slot.plain⟩,
      hd.ne⟩
  have hlong : 255 < (entryLine (lit "k", longValue)).length := by
    simp only [entryLine, longValue, List.length_append, List.length_cons, List.length_replicate]
    omega
  exact (long_entry_iff hd' hh hes (show Field (lit "k") by decide) (by decide)
    (show Field longValue by decide +kernel) hlong).mpr (.unopened rfl)

/-- Where all calls succeed, the update returns 0 and the value comes back cut. -/
theorem long_value_is_cut :
    (updateMap (doneOS threeEntries) doneName (lit "k") longValue).1 = some 0 ∧
      query (updateMap (doneOS threeEntries) doneName (lit "k") longValue).2 doneName (lit "k")
        longValue = some .mismatch ∧
      ¬ KeptOrRefused (doneOS threeEntries) doneName (lit "k") longValue := by
  have hcode : (updateMap (doneOS threeEntries) doneName (lit "k") longValue).1 = some 0 := by
    decide +kernel
  have hcut : query (updateMap (doneOS threeEntries) doneName (lit "k") longValue).2 doneName
      (lit "k") longValue = some .mismatch := by
    decide +kernel
  refine ⟨hcode, hcut, ?_⟩
  rintro (hrefused | hkept)
  · rw [hcode] at hrefused
    cases hrefused
  · have hmatched := (hkept [] _ (by simp) (.none _)).1
    rw [hcut] at hmatched
    cases hmatched

end ToolchainTools
