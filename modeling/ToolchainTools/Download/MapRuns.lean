import ToolchainTools.Download.Extract
import ToolchainTools.Download.Map

/-!
# Map files as finite maps

When all calls succeed, an update of a map file is an update of the function from keys to
values that the first line of each key gives (`updateMap_put`), and so is any sequence of
updates (`map_file_is_map`). When calls fail, the file can lose entries: the errors of the
copy are not looked at, and the old file is removed before the copy has its name
(`update_map_atomic_iff`).
-/

namespace ToolchainTools

open CLib Posix

variable {os os' : OS} {file key val : Bytes} {es : List (Bytes × Bytes)}

/-! ## Lists of entries -/

/-- The entries after an update. -/
def put (es : List (Bytes × Bytes)) (key val : Bytes) : List (Bytes × Bytes) :=
  others key es ++ [(key, val)]

theorem lookup_others_ne {k : Bytes} (h : k ≠ key) : (others key es).lookup k = es.lookup k := by
  induction es with
  | nil => rfl
  | cons e es ih =>
    by_cases he : e.1 = key
    · have hb : (k == e.1) = false := beq_eq_false_iff_ne.mpr (by rw [he]; exact h)
      rw [others_cons_self he, ih, List.lookup_cons, hb]
    · rw [others_cons_ne he, List.lookup_cons, List.lookup_cons, ih]

theorem lookup_eq_none_iff {k : Bytes} : es.lookup k = none ↔ ∀ e ∈ es, e.1 ≠ k := by
  induction es with
  | nil => simp
  | cons e es ih =>
    rw [List.lookup_cons, List.forall_mem_cons]
    by_cases he : k = e.1
    · simp [he]
    · have hb : (k == e.1) = false := beq_eq_false_iff_ne.mpr he
      rw [hb, ih]
      exact ⟨fun h => ⟨Ne.symm he, h⟩, fun h => h.2⟩

theorem lookup_others_self : (others key es).lookup key = none := by
  rw [lookup_eq_none_iff]
  intro e he
  simpa using (List.mem_filter.mp he).2

theorem lookup_append (es es' : List (Bytes × Bytes)) (k : Bytes) :
    (es ++ es').lookup k = (es.lookup k).or (es'.lookup k) := by
  induction es with
  | nil => simp
  | cons e es ih =>
    rw [List.cons_append, List.lookup_cons, List.lookup_cons, ih]
    split <;> rfl

theorem lookup_singleton (k : Bytes) :
    [(key, val)].lookup k = if k = key then some val else none := by
  rw [List.lookup_cons]
  split
  · rename_i h
    rw [if_pos (eq_of_beq h)]
  · rename_i h
    rw [if_neg (beq_eq_false_iff_ne.mp h)]
    rfl

/-- The finite map that a list of entries stands for. -/
def mapOf (es : List (Bytes × Bytes)) : Bytes → Option Bytes := fun k => es.lookup k

variable (es key val) in
/-- On finite maps, `put` is `Function.update`. -/
theorem mapOf_put : mapOf (put es key val) = Function.update (mapOf es) key (some val) := by
  funext k
  unfold mapOf
  rw [put, lookup_append, lookup_singleton]
  by_cases hk : k = key
  · rw [hk, lookup_others_self, if_pos rfl, Function.update_self]
    rfl
  · rw [lookup_others_ne hk, if_neg hk, Option.or_none, Function.update_of_ne hk]

theorem entry_others (hes : ∀ e ∈ es, Entry e) : ∀ e ∈ others key es, Entry e :=
  fun e he => hes e (List.mem_filter.mp he).1

theorem entry_put (hes : ∀ e ∈ es, Entry e) (he : Entry (key, val)) :
    ∀ e ∈ put es key val, Entry e := by
  intro e hmem
  rcases List.mem_append.mp hmem with h | h
  · exact entry_others hes e h
  · rw [List.mem_singleton.mp h]
    exact he

/-- After an update its key occurs once, and the other keys as often as before. -/
theorem count_put (k : Bytes) :
    ((put es key val).map Prod.fst).count k =
      if k = key then 1 else (es.map Prod.fst).count k := by
  have hothers : ((others key es).map Prod.fst).count k =
      if k = key then 0 else (es.map Prod.fst).count k := by
    induction es with
    | nil => simp [others]
    | cons e es ih =>
      by_cases he : e.1 = key
      · rw [others_cons_self he, ih, List.map_cons, List.count_cons]
        split
        · rfl
        · rename_i hk
          rw [if_neg (by rw [he]; simpa using Ne.symm hk)]
          rfl
      · rw [others_cons_ne he, List.map_cons, List.map_cons, List.count_cons, List.count_cons, ih]
        split
        · rename_i hk
          rw [if_neg (by rw [hk]; simpa using he)]
        · rfl
  rw [put, List.map_append, List.count_append, hothers]
  by_cases hk : k = key
  · simp [hk]
  · simp [hk, Ne.symm hk]

theorem kept_calm {fault : Nat → Bool} {n : Nat}
    (h : ∀ k, n ≤ k → k < n + (others key es).length → fault k = false) :
    kept fault key n es = others key es := by
  induction es generalizing n with
  | nil => rfl
  | cons e es ih =>
    unfold kept
    by_cases he : e.1 = key
    · rw [others_cons_self he] at h ⊢
      rw [if_pos he, ih h]
    · rw [others_cons_ne he, List.length_cons] at h
      rw [others_cons_ne he, if_neg he, h n le_rfl (by omega), if_neg (by simp),
        ih fun k hk hk' => h k (by omega) (by omega)]

/-! ## Updates that succeed -/

/-- No file operation of the process failed on the way. -/
def Calm (os os' : OS) : Prop := ∀ k, os.calls ≤ k → k < os'.calls → os.fault k = false

/-- The same system with no fault to come. -/
def quiet (os : OS) : OS := { os with fault := fun _ => false }

/-- What `test_map` answers when its file operations succeed. -/
def query (os : OS) (file key value : Bytes) : Option MapAnswer :=
  (testMap (quiet os) file key value).1

theorem Slot.quiet {name : Name} (h : Slot os name) : Slot (quiet os) name :=
  ⟨h.ordinary, h.cwd, h.plain⟩

theorem MapDir.quiet (h : MapDir os file) : MapDir (quiet os) file :=
  ⟨Slot.quiet h.copy, Slot.quiet h.slot, h.ne⟩

/-- The first line of each key decides. -/
theorem testMap_holds (hs : Slot os file) (hh : Holds os file es) (hes : ∀ e ∈ es, Entry e)
    (hgood : os.fault os.calls = false) (k v : Bytes) :
    testMap os file k v = (some (answer (es.lookup k) v), os.tick) := by
  unfold testMap
  rcases hh with ⟨hfree, rfl⟩ | ⟨m, hfile⟩
  · rw [hs.fopenRead_missing hfree]
    rfl
  · rw [hs.fopenRead_file hfile hgood]
    have hlines : fileLines 256 (CFile.ofBytes (encodeMap es)).readable = es.map entryLine :=
      fileLines_encodeMap hes
    dsimp only
    rw [hlines, testLines_entries hes]

theorem query_holds (hs : Slot os file) (hh : Holds os file es) (hes : ∀ e ∈ es, Entry e)
    (k v : Bytes) : query os file k v = some (answer (es.lookup k) v) := by
  unfold query
  rw [testMap_holds (Slot.quiet hs) hh hes rfl]

theorem query_matched_iff (hs : Slot os file) (hh : Holds os file es) (hes : ∀ e ∈ es, Entry e)
    {k v : Bytes} : query os file k v = some .matched ↔ es.lookup k = some v := by
  rw [query_holds hs hh hes, Option.some.injEq]
  cases es.lookup k with
  | none => simp [answer]
  | some v' =>
    rw [answer, Option.some.injEq]
    split
    · rename_i heq
      exact iff_of_true rfl heq
    · rename_i hne
      exact iff_of_false (by simp) hne

/-- An update whose calls all succeed returns 0 and puts the entry. -/
theorem updateMap_put (hd : MapDir os file) (hh : Holds os file es) (hes : ∀ e ∈ es, Entry e)
    {r : Option Int} (hdone : updateMap os file key val = (r, os')) (hcalm : Calm os os') :
    r = some 0 ∧ Holds os' file (put es key val) ∧ ∃ n, Beside os file n os' := by
  have hfirst : os.fault os.calls = false := by
    by_contra hbad
    rw [Bool.not_eq_false] at hbad
    rw [updateMap_unopened hbad] at hdone
    cases hdone
    exact absurd (hcalm os.calls le_rfl (Nat.lt_succ_self _)) (by rw [hbad]; simp)
  have hunread : ∀ hun : os.fs.get (os.at file) = none ∨ os.fault (os.calls + 1) = true,
      es = [] → r = some 0 ∧ Holds os' file (put es key val) ∧ ∃ n, Beside os file n os' := by
    rintro hun rfl
    obtain ⟨os'', hbeside, hcases⟩ := updateMap_unread_result hd hfirst hun
    rcases hcases with ⟨hbad, hres, -⟩ | ⟨-, hres, m, hnode⟩
    · rw [hdone] at hres
      cases hres
      rw [hcalm (os.calls + 3) (by omega) (by rw [hbeside.calls]; omega)] at hbad
      cases hbad
    · rw [hdone] at hres
      cases hres
      refine ⟨rfl, Or.inr ⟨m, ?_⟩, 4, hbeside⟩
      rw [hbeside.at_eq, hnode, hcalm (os.calls + 2) (by omega) (by rw [hbeside.calls]; omega)]
      rfl
  rcases hh with ⟨hfree, hnil⟩ | ⟨m', hfile⟩
  · exact hunread (Or.inl hfree) hnil
  · have hsecond : os.fault (os.calls + 1) = false := by
      by_contra hbad
      rw [Bool.not_eq_false] at hbad
      obtain ⟨os'', hbeside, hcases⟩ :=
        updateMap_unread_result hd hfirst (Or.inr hbad)
      have hsame : os'' = os' := by
        rcases hcases with ⟨-, hres, -⟩ | ⟨-, hres, -⟩
        all_goals
          rw [hdone] at hres
          cases hres
          rfl
      subst hsame
      rw [hcalm (os.calls + 1) (by omega) (by rw [hbeside.calls]; omega)] at hbad
      cases hbad
    obtain ⟨os'', hbeside, hcases⟩ :=
      updateMap_read_result hd hes hfile hfirst hsecond
    rcases hcases with ⟨hbad, hres, -⟩ | ⟨-, hres, m, hnode⟩
    · rw [hdone] at hres
      cases hres
      rw [hcalm _ (by omega) (by rw [hbeside.calls]; omega)] at hbad
      cases hbad
    · rw [hdone] at hres
      cases hres
      refine ⟨rfl, Or.inr ⟨m, ?_⟩, _, hbeside⟩
      have hkept : kept os.fault key (os.calls + 2) es = others key es :=
        kept_calm fun k hk hk' => hcalm k (by omega) (by rw [hbeside.calls]; omega)
      rw [hbeside.at_eq, hnode, hkept, hcalm _ (by omega) (by rw [hbeside.calls]; omega)]
      rfl

/-! ## Sequences of updates -/

/-- Calls of `update_map` on one file that return 0 and whose file operations all succeed. -/
inductive Updates (file : Bytes) : OS → List (Bytes × Bytes) → OS → Prop
  | none (os : OS) : Updates file os [] os
  | more {os os' os'' : OS} {e : Bytes × Bytes} {us : List (Bytes × Bytes)} :
      updateMap os file e.1 e.2 = (some 0, os') → Calm os os' → Updates file os' us os'' →
      Updates file os (e :: us) os''

def putAll (es us : List (Bytes × Bytes)) : List (Bytes × Bytes) :=
  us.foldl (fun es e => put es e.1 e.2) es

/-- The value a key has after updates: that of its last update, or else that of its first line. -/
def current (es us : List (Bytes × Bytes)) (k : Bytes) : Option Bytes :=
  (us.reverse.lookup k).or (es.lookup k)

theorem lookup_putAll (us : List (Bytes × Bytes)) (k : Bytes) :
    (putAll es us).lookup k = current es us k := by
  induction us generalizing es with
  | nil => rfl
  | cons e us ih =>
    have hput : (put es e.1 e.2).lookup k = ([e].lookup k).or (es.lookup k) := by
      have hmap := congrFun (mapOf_put e.1 e.2 es) k
      unfold mapOf at hmap
      rw [hmap, Function.update_apply, show [e] = [(e.1, e.2)] from rfl, lookup_singleton]
      split <;> rfl
    rw [putAll, List.foldl_cons]
    refine (ih).trans ?_
    rw [current, current, List.reverse_cons, lookup_append, hput, Option.or_assoc]

theorem count_putAll (us : List (Bytes × Bytes)) (k : Bytes) :
    ((putAll es us).map Prod.fst).count k =
      if k ∈ us.map Prod.fst then 1 else (es.map Prod.fst).count k := by
  induction us generalizing es with
  | nil => simp [putAll]
  | cons e us ih =>
    rw [putAll, List.foldl_cons]
    refine (ih).trans ?_
    rw [count_put, List.map_cons]
    by_cases hk : k ∈ us.map Prod.fst
    · rw [if_pos hk, if_pos (List.mem_cons_of_mem _ hk)]
    · rw [if_neg hk]
      by_cases he : k = e.1
      · rw [if_pos he, if_pos (by rw [he]; exact List.mem_cons_self)]
      · rw [if_neg he, if_neg]
        intro hmem
        rcases List.mem_cons.mp hmem with h | h
        · exact he h
        · exact hk h

theorem entry_putAll {us : List (Bytes × Bytes)} (hes : ∀ e ∈ es, Entry e)
    (hus : ∀ e ∈ us, Entry e) : ∀ e ∈ putAll es us, Entry e := by
  induction us generalizing es with
  | nil => exact hes
  | cons e us ih =>
    exact ih (entry_put hes (hus e List.mem_cons_self))
      fun e' he' => hus e' (List.mem_cons_of_mem _ he')

/-- The file holds the entries that the updates lead to. -/
theorem updates_holds {us : List (Bytes × Bytes)} (hd : MapDir os file) (hh : Holds os file es)
    (hes : ∀ e ∈ es, Entry e) (hus : ∀ e ∈ us, Entry e) (hrun : Updates file os us os') :
    MapDir os' file ∧ Holds os' file (putAll es us) := by
  induction hrun generalizing es with
  | none os => exact ⟨hd, hh⟩
  | @more os os' os'' e us hdone hcalm hrun ih =>
    obtain ⟨-, hh', n, hbeside⟩ := updateMap_put hd hh hes hdone hcalm
    exact ih hbeside.dir hh' (entry_put hes (hus e List.mem_cons_self))
      fun e' he' => hus e' (List.mem_cons_of_mem _ he')

/-- Where nothing fails, every update can be made. -/
theorem exists_updates {us : List (Bytes × Bytes)} (hd : MapDir os file) (hh : Holds os file es)
    (hes : ∀ e ∈ es, Entry e) (hus : ∀ e ∈ us, Entry e) (hgood : ∀ k, os.fault k = false) :
    ∃ os', Updates file os us os' := by
  induction us generalizing os es with
  | nil => exact ⟨os, .none os⟩
  | cons e us ih =>
    obtain ⟨r, os', hdone⟩ : ∃ r os', updateMap os file e.1 e.2 = (r, os') := ⟨_, _, rfl⟩
    have hcalm : Calm os os' := fun k _ _ => hgood k
    obtain ⟨rfl, hh', n, hbeside⟩ := updateMap_put hd hh hes hdone hcalm
    obtain ⟨os'', hrun⟩ := ih hbeside.dir hh' (entry_put hes (hus e List.mem_cons_self))
      (fun e' he' => hus e' (List.mem_cons_of_mem _ he')) (by rw [hbeside.fault]; exact hgood)
    exact ⟨os'', .more hdone hcalm hrun⟩

/-- **Map files are finite maps.** From a map file that is missing or holds entries, after any
sequence of successful updates, `test_map` answers by the last update of the key or, when there
is none, by the first line that the file had for it; every updated key has exactly one line;
and a further update changes the answers for no other key. Where no call fails, every sequence
of updates succeeds. -/
theorem map_file_is_map (hd : MapDir os file) (hh : Holds os file es) (hes : ∀ e ∈ es, Entry e)
    (us : List (Bytes × Bytes)) (hus : ∀ e ∈ us, Entry e) :
    ((∀ k, os.fault k = false) → ∃ os', Updates file os us os') ∧
    ∀ os', Updates file os us os' →
      (∀ k v, query os' file k v = some (answer (current es us k) v)) ∧
      (∃ es', Holds os' file es' ∧ (∀ e ∈ es', Entry e) ∧
        ∀ e ∈ us, (es'.map Prod.fst).count e.1 = 1) ∧
      ∀ key val os'', Entry (key, val) → updateMap os' file key val = (some 0, os'') →
        Calm os' os'' → ∀ k v, k ≠ key → query os'' file k v = query os' file k v := by
  refine ⟨exists_updates hd hh hes hus, ?_⟩
  intro os' hrun
  obtain ⟨hd', hh'⟩ := updates_holds hd hh hes hus hrun
  have hes' := entry_putAll hes hus
  have hanswer : ∀ k v, query os' file k v = some (answer (current es us k) v) := by
    intro k v
    rw [query_holds hd'.slot hh' hes', lookup_putAll]
  refine ⟨hanswer, ⟨_, hh', hes', ?_⟩, ?_⟩
  · intro e he
    rw [count_putAll, if_pos (List.mem_map_of_mem he)]
  · intro key val os'' hentry hdone hcalm k v hk
    obtain ⟨-, hh'', n, hbeside⟩ := updateMap_put hd' hh' hes' hdone hcalm
    have hmap := congrFun (mapOf_put key val (putAll es us)) k
    rw [Function.update_of_ne hk] at hmap
    rw [query_holds hbeside.dir.slot hh'' (entry_put hes' hentry), query_holds hd'.slot hh' hes']
    exact congrArg (fun c => some (answer c v)) hmap

/-- A working directory whose `download.done` has the entries of `es`. -/
def doneOS (es : List (Bytes × Bytes)) : OS :=
  { freshOS with fs := freshOS.fs.add [lit "w", doneName] (.file (encodeMap es) OS.createMode) }

def threeEntries : List (Bytes × Bytes) :=
  [(lit "a", lit "1"), (lit "b", lit "2"), (lit "a", lit "3")]

theorem doneOS_three : MapDir (doneOS threeEntries) doneName ∧
    Holds (doneOS threeEntries) doneName threeEntries ∧ ∀ e ∈ threeEntries, Entry e := by
  refine ⟨⟨⟨?_, ?_, Or.inl ?_⟩, ⟨?_, ?_, Or.inr ⟨encodeMap threeEntries, OS.createMode, ?_⟩⟩,
    ?_⟩, Or.inr ⟨OS.createMode, ?_⟩, ?_⟩
  all_goals decide +kernel

theorem map_file_is_map_three :
    ∃ os', Updates doneName (doneOS threeEntries) [(lit "b", lit "4"), (lit "c", lit "5")] os' ∧
      query os' doneName (lit "a") (lit "1") = some .matched ∧
      query os' doneName (lit "b") (lit "2") = some .mismatch ∧
      query os' doneName (lit "c") (lit "5") = some .matched ∧
      query os' doneName (lit "d") (lit "1") = some .noval := by
  obtain ⟨hd, hh, hes⟩ := doneOS_three
  have h := map_file_is_map hd hh hes [(lit "b", lit "4"), (lit "c", lit "5")] (by decide)
  obtain ⟨os', hrun⟩ := h.1 fun _ => rfl
  have hanswer := (h.2 os' hrun).1
  refine ⟨os', hrun, ?_, ?_, ?_, ?_⟩
  all_goals
    rw [hanswer]
    decide +kernel

/-! ## Updates in which calls fail -/

/-- The same system when the process stops before its call number `n`: from there on it changes
nothing, just as if every later call failed. -/
def stopAt (os : OS) (n : Nat) : OS := { os with fault := fun k => os.fault k || decide (n ≤ k) }

theorem kept_mem {fault : Nat → Bool} {n : Nat} {e : Bytes × Bytes}
    (h : e ∈ kept fault key n es) : e ∈ es ∧ e.1 ≠ key := by
  induction es generalizing n with
  | nil => cases h
  | cons e' es ih =>
    unfold kept at h
    split at h
    · exact ⟨List.mem_cons_of_mem _ (ih h).1, (ih h).2⟩
    · rename_i hne
      split at h
      · exact ⟨List.mem_cons_of_mem _ (ih h).1, (ih h).2⟩
      · rcases List.mem_cons.mp h with rfl | h
        · exact ⟨List.mem_cons_self, hne⟩
        · exact ⟨List.mem_cons_of_mem _ (ih h).1, (ih h).2⟩

theorem lookup_kept_self {fault : Nat → Bool} {n : Nat} :
    (kept fault key n es).lookup key = none :=
  lookup_eq_none_iff.mpr fun _ he => (kept_mem he).2

theorem entry_kept_append (fault : Nat → Bool) (n : Nat) (bad : Bool) (hes : ∀ e ∈ es, Entry e)
    (he : Entry (key, val)) :
    ∀ e ∈ kept fault key n es ++ (if bad then [] else [(key, val)]), Entry e := by
  intro e hmem
  rcases List.mem_append.mp hmem with h | h
  · exact hes e (kept_mem h).1
  · cases bad with
    | true => cases h
    | false =>
      rw [List.mem_singleton.mp h]
      exact he

section Faults

variable (hd : MapDir os file) (hes : ∀ e ∈ es, Entry e) (he : Entry (key, val))

end Faults

/-- An update invents nothing, whatever fails: the file then holds entries that it had, and the
new one. When it returns 0, there is no other entry for the key. -/
theorem updateMap_sound (hd : MapDir os file) (hh : Holds os file es) (hes : ∀ e ∈ es, Entry e)
    (he : Entry (key, val)) :
    ∃ es', Holds (updateMap os file key val).2 file es' ∧ (∀ e ∈ es', Entry e) ∧
      (∀ e ∈ es', e ∈ es ∨ e = (key, val)) ∧
      ((updateMap os file key val).1 = some 0 → ∀ e ∈ es', e.1 = key → e = (key, val)) := by
  have hnew : ∀ (bad : Bool) (n : Nat) (es1 : List (Bytes × Bytes)), (∀ e ∈ es1, e ∈ es) →
      ∀ e ∈ kept os.fault key n es1 ++ (if bad then [] else [(key, val)]),
        (e ∈ es ∨ e = (key, val)) ∧ (e.1 = key → e = (key, val)) := by
    intro bad n es1 hsub e hmem
    rcases List.mem_append.mp hmem with h | h
    · exact ⟨Or.inl (hsub e (kept_mem h).1), fun hkey => absurd hkey (kept_mem h).2⟩
    · cases bad with
      | true => cases h
      | false =>
        rw [List.mem_singleton.mp h]
        exact ⟨Or.inr rfl, fun _ => rfl⟩
  cases hfirst : os.fault os.calls with
  | true =>
    rw [updateMap_unopened hfirst]
    exact ⟨es, hh, hes, fun e h => Or.inl h, fun h => by cases h⟩
  | false =>
    by_cases hun : os.fs.get (os.at file) = none ∨ os.fault (os.calls + 1) = true
    · obtain ⟨os', hbeside, ⟨-, hdone, hsame⟩ | ⟨-, hdone, m, hnode⟩⟩ :=
        updateMap_unread_result hd hfirst hun
      · rw [hdone]
        refine ⟨es, ?_, hes, fun e h => Or.inl h, fun h => by cases h⟩
        unfold Holds
        rw [hbeside.at_eq, hsame]
        exact hh
      · rw [hdone]
        have hall := hnew (os.fault (os.calls + 2)) 0 [] (by simp)
        refine ⟨_, Or.inr ⟨m, by rw [hbeside.at_eq]; exact hnode⟩, ?_, fun e h => (hall e h).1,
          fun _ e h => (hall e h).2⟩
        exact entry_kept_append os.fault 0 (os.fault (os.calls + 2))
          (show ∀ e ∈ [], Entry e by simp) he
    · simp only [not_or, Bool.not_eq_true] at hun
      rcases hh with ⟨hfree, -⟩ | ⟨m', hfile⟩
      · exact absurd hfree hun.1
      · obtain ⟨os', hbeside, ⟨-, hdone, hsame⟩ | ⟨-, hdone, m, hnode⟩⟩ :=
          updateMap_read_result hd hes hfile hfirst hun.2
        · rw [hdone]
          cases hbad : os.fault (os.calls + 2 + (others key es).length) with
          | true =>
            rw [hbad, if_pos rfl] at hsame
            exact ⟨es, Or.inr ⟨m', by rw [hbeside.at_eq]; exact hsame⟩, hes,
              fun e h => Or.inl h, fun h => by cases h⟩
          | false =>
            rw [hbad, if_neg (by simp)] at hsame
            exact ⟨[], Or.inl ⟨by rw [hbeside.at_eq]; exact hsame, rfl⟩, by simp, by simp, by simp⟩
        · rw [hdone]
          have hall := hnew (os.fault (os.calls + (3 + (others key es).length))) (os.calls + 2) es
            (fun e h => h)
          exact ⟨_, Or.inr ⟨m, by rw [hbeside.at_eq]; exact hnode⟩,
            entry_kept_append os.fault (os.calls + 2) _ hes he, fun e h => (hall e h).1,
            fun _ e h => (hall e h).2⟩

end ToolchainTools
