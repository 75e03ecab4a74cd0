import ToolchainTools.Download.OwnFiles

/-!
# A second run does nothing

A run of `main` that returns 0 has an entry in `download.done` for every line of the
manifest that is meant for this host: each line finds its entry or adds it, and the
rewrites for later lines keep it as long as the paths are distinct
(`mainLoop_recorded`). In a second run every line finds its entry, so that nothing is
called but the function that looks for it (`mainLoop_recorded_again`).
-/

namespace ToolchainTools

open CLib Posix Streams

variable {ζ ξ : Type}

/-! ## The fields of a line -/

theorem mem_of_mem_trim {s : Bytes} {b : UInt8} (h : b ∈ trim s) : b ∈ s := by
  unfold trim trimBy at h
  rw [List.mem_reverse] at h
  have h1 := (List.dropWhile_suffix isBlankEnd).subset h
  rw [List.mem_reverse] at h1
  exact (List.dropWhile_suffix isBlank).subset h1

theorem dropWhile_idem {p : UInt8 → Bool} (s : Bytes) :
    (s.dropWhile p).dropWhile p = s.dropWhile p := by
  rw [List.dropWhile_eq_self_iff]
  intro hpos
  have := List.head?_dropWhile_not p s
  rw [List.head?_eq_getElem?, List.getElem?_eq_getElem hpos] at this
  simpa using this

theorem trim_trim (s : Bytes) : trim (trim s) = trim s := by
  have hpre : trim s <+: s.dropWhile isBlank := by
    unfold trim trimBy
    rw [← List.reverse_suffix, List.reverse_reverse]
    exact List.dropWhile_suffix isBlankEnd
  have hfront : (trim s).dropWhile isBlank = trim s := by
    rw [List.dropWhile_eq_self_iff]
    intro hpos
    have hdrop : 0 < (s.dropWhile isBlank).length := lt_of_lt_of_le hpos hpre.length_le
    have hhead := (List.dropWhile_eq_self_iff.mp (dropWhile_idem (p := isBlank) s)) hdrop
    rwa [hpre.getElem hpos]
  have hback : (trim s).reverse.dropWhile isBlankEnd = (trim s).reverse := by
    unfold trim trimBy
    rw [List.reverse_reverse]
    exact dropWhile_idem _
  rw [trim, trimBy, hfront, hback, List.reverse_reverse]

theorem strtok_token {s token rest : Bytes} (h : strtok comma s = some (token, rest)) :
    comma ∉ token ∧ (∀ b ∈ token, b ∈ s) ∧ ∀ b ∈ rest, b ∈ s := by
  unfold strtok at h
  dsimp only at h
  split at h
  · cases h
  · obtain ⟨rfl, rfl⟩ := Prod.mk.inj (Option.some.inj h)
    have hsub : ∀ b ∈ s.dropWhile (· = comma), b ∈ s := fun b hb =>
      (List.dropWhile_suffix _).subset hb
    refine ⟨fun hmem => ?_, fun b hb => ?_, fun b hb => ?_⟩
    · simpa using List.mem_takeWhile_imp hmem
    · exact hsub b ((List.takeWhile_prefix _).subset hb)
    · exact hsub b ((List.dropWhile_suffix _).subset (List.mem_of_mem_tail hb))

/-- A line of a text without NUL bytes. -/
structure PlainLine (line : Bytes) : Prop where
  eol : eol ∉ line
  nul : 0 ∉ line

theorem field_of_token {line token rest s : Bytes} (hl : PlainLine line) (hs : ∀ b ∈ s, b ∈ line)
    (h : strtok comma s = some (token, rest)) : Field (trim token) := by
  obtain ⟨hcomma, htoken, -⟩ := strtok_token h
  have hsub : ∀ b ∈ trim token, b ∈ line := fun b hb => hs b (htoken b (mem_of_mem_trim hb))
  exact ⟨fun hb => hcomma (mem_of_mem_trim hb), fun hb => hl.eol (hsub _ hb),
    fun hb => hl.nul (hsub _ hb), trim_trim token⟩

/-- The path and the url of a line can be keys and values of a map file. -/
theorem fields_of_entry {line path url : Bytes} (hl : PlainLine line)
    (h : parseManifestLine line = .entry path url) : Field path ∧ Field url := by
  have htrim : ∀ b ∈ trim line, b ∈ line := fun b hb => mem_of_mem_trim hb
  unfold parseManifestLine at h
  dsimp only at h
  split at h
  · cases h
  · split at h
    · cases h
    · split at h
      · rename_i p u hp hu
        obtain ⟨rfl, rfl⟩ := ManifestLine.entry.inj h
        rw [hp, nextToken, Option.bind_some] at hu
        obtain ⟨-, -, hrest⟩ := strtok_token (show _ = some (p.1, p.2) from hp)
        exact ⟨field_of_token hl htrim hp,
          field_of_token hl (fun b hb => htrim b (hrest b hb)) hu⟩
      · cases h

theorem manifestLines_plain {s line : Bytes} (hs : (0 : UInt8) ∉ s) (h : line ∈ manifestLines s) :
    PlainLine line := by
  fun_induction manifestLines s with
  | case1 => cases h
  | case2 s hne ih =>
    have hdrop : ∀ b ∈ (s.dropWhile (· ≠ eol)).tail, b ∈ s := fun b hb =>
      (List.dropWhile_suffix _).subset (List.mem_of_mem_tail hb)
    rcases List.mem_cons.mp h with rfl | hmem
    · refine ⟨fun hb => ?_, fun hb => hs ((List.takeWhile_prefix _).subset hb)⟩
      simpa using List.mem_takeWhile_imp hb
    · exact ih (fun hb => hs (hdrop _ hb)) hmem

theorem zero_not_mem_cstr (s : Bytes) : (0 : UInt8) ∉ cstr s := by
  intro hb
  simpa using List.mem_takeWhile_imp (show (0 : UInt8) ∈ s.takeWhile (· ≠ 0) from hb)

/-! ## What the manifest asks for -/

/-- The path and the url of a line for this host. -/
def entryOf (line : Bytes) : Option (Bytes × Bytes) :=
  match parseManifestLine line with
  | .entry path url => some (path, url)
  | _ => none

theorem entryOf_eq_some {line : Bytes} {e : Bytes × Bytes} :
    entryOf line = some e ↔ parseManifestLine line = .entry e.1 e.2 := by
  unfold entryOf
  cases parseManifestLine line with
  | skip => simp
  | invalid => simp
  | entry path url =>
    simp only [Option.some.injEq, ManifestLine.entry.injEq]
    constructor
    · rintro rfl
      exact ⟨rfl, rfl⟩
    · rintro ⟨rfl, rfl⟩
      rfl

def wantedOf (lines : List Bytes) : List (Bytes × Bytes) := lines.filterMap entryOf

/-- The manifest as `main` will read it. -/
def manifestOf (os : OS) : Bytes :=
  match os.fs.get (os.at manifestName) with
  | some (.file c _) => c
  | _ => []

/-- The lines that `main` will go through. -/
def linesOf (os : OS) : List Bytes := manifestLines (cstr (manifestOf os))

/-- What the manifest asks for on this host. -/
def wanted (os : OS) : List (Bytes × Bytes) := wantedOf (linesOf os)

/-! ## One line -/

/-- Deleting the path and extracting to it leave the own files alone, if the line gets there. -/
def Apart (env : Env ζ ξ) (w : World) (path url : Bytes) : Prop :=
  let w1 := World.act { w with os := deletePath w.os.tick path } (.delete path)
  (testMap w.os doneName path url).1 ≠ some .matched →
    OwnKept w.os w1.os ∧
      ∀ f w2, fetch env w1 url = (.next, some f, w2) →
        OwnKept w2.os (unpack env w2.os path url f).2

/-- The lines that a run goes through, each with the world in which it is reached. -/
def AtLines (env : Env ζ ξ) (w : World) (lines : List Bytes) (good : World → Bytes → Bytes → Prop) :
    Prop :=
  ∀ before line after w1 path url, lines = before ++ line :: after →
    mainLoop env w before = (.next, w1) → parseManifestLine line = .entry path url →
    good w1 path url

/-- Every line that a run over `lines` comes to is apart from the own files. -/
def ApartLines (env : Env ζ ξ) (w : World) (lines : List Bytes) : Prop :=
  AtLines env w lines (Apart env)

/-- The system between two lines, with `es` in `download.done`. -/
structure Ready (os : OS) (es : List (Bytes × Bytes)) : Prop where
  home : Home os
  good : ∀ k, os.fault k = false
  holds : Holds os doneName es
  entries : ∀ e ∈ es, Entry e

theorem Holds.of_get {os os' : OS} {file : Bytes} {es : List (Bytes × Bytes)}
    (h : Holds os file es) (hget : os'.fs.get (os'.at file) = os.fs.get (os.at file)) :
    Holds os' file es := by
  unfold Holds at h ⊢
  rwa [hget]

/-- The manifest is still the same. -/
def SameManifest (os os' : OS) : Prop :=
  os'.fs.get (os'.at manifestName) = os.fs.get (os.at manifestName)

section Line

variable {env : Env ζ ξ} {os os' : OS} {es : List (Bytes × Bytes)}

theorem Ready.kept (h : Ready os es) (hgoes : Goes os os') (hk : OwnKept os os') :
    Ready os' es ∧ SameManifest os os' := by
  have hget : ∀ n ∈ ownNames, os'.fs.get (os'.at n) = os.fs.get (os.at n) := by
    intro n hn
    rw [hgoes.at_eq]
    exact hk.get n hn
  refine ⟨⟨h.home.kept hgoes hk, ?_, h.holds.of_get (hget _ (by simp [ownNames])), h.entries⟩,
    hget _ (by simp [ownNames])⟩
  rw [hgoes.fault]
  exact h.good

theorem Ready.only {names : List Name} (h : Ready os es) (ho : Only names os os')
    (hdone : doneName ∉ names) (hmanifest : manifestName ∉ names) :
    Ready os' es ∧ SameManifest os os' := by
  refine ⟨⟨h.home.only ho, ?_, h.holds.of_get (ho.get_slot hdone), h.entries⟩,
    ho.get_slot hmanifest⟩
  rw [ho.goes.fault]
  exact h.good

theorem Ready.tick (h : Ready os es) : Ready os.tick es ∧ SameManifest os os.tick :=
  h.only (.tick [] os) (by simp) (by simp)

theorem done_not_mem_fetchNames : doneName ∉ fetchNames ∧ manifestName ∉ fetchNames := by
  decide

/-- A successful update of `download.done`. -/
theorem Ready.put (h : Ready os es) {path url : Bytes} (he : Entry (path, url))
    (hdone : updateMap os doneName path url = (some 0, os')) :
    Ready os' (put es path url) ∧ SameManifest os os' := by
  have honly := only_updateMap path url h.home.doneDir
  rw [hdone] at honly
  obtain ⟨-, hholds, -⟩ := updateMap_put h.home.doneDir h.holds h.entries hdone fun k _ _ => h.good k
  refine ⟨⟨h.home.only honly, ?_, hholds, entry_put h.entries he⟩, honly.get_slot ?_⟩
  · rw [honly.goes.fault]
    exact h.good
  · decide

theorem recordLine_next {w w' : World} {path url : Bytes}
    (h : recordLine w path url = (.next, w')) :
    updateMap w.os doneName path url = (some 0, w'.os) := by
  unfold recordLine at h
  split at h
  · cases h
  · rename_i err os1 heq
    split at h
    · rename_i hzero
      cases h
      rw [heq, hzero]
    · cases h

theorem installFile_next {w w' : World} {path url : Bytes} {f : CFile}
    (h : installFile env w path url f = (.next, w')) :
    ∃ os1, unpack env w.os path url f = (.next, os1) ∧
      updateMap (os1.unlink tmpName) doneName path url = (some 0, w'.os) := by
  unfold installFile at h
  dsimp only at h
  split at h
  · rename_i os1 heq
    exact ⟨os1, heq, recordLine_next h⟩
  · cases h
  · rename_i outcome os1 hnext hexit heq
    obtain ⟨rfl, -⟩ := Prod.mk.inj h
    exact (hnext rfl).elim

theorem fetchHttp_next {w w' : World} {url : Bytes} {file : Option CFile}
    (h : fetchHttp env w url = (.next, file, w')) : ∃ f, file = some f := by
  unfold fetchHttp at h
  dsimp only at h
  split at h
  · cases h
  · cases h
  · split at h
    · cases h
    · split at h
      · cases h
      · split at h
        · cases h
        · split at h
          · split at h
            · cases h
            · cases h
              exact ⟨_, rfl⟩
          · rename_i outcome os1 hnext _
            cases h
            exact (hnext rfl).elim

/-- When the loop goes on behind a fetch, there is a file. -/
theorem fetch_next {w w' : World} {url : Bytes} {file : Option CFile}
    (h : fetch env w url = (.next, file, w')) : ∃ f, file = some f := by
  unfold fetch at h
  split at h
  · exact fetchHttp_next h
  · split at h
    · dsimp only at h
      split at h
      · cases h
      · cases h
        exact ⟨_, rfl⟩
    · cases h

/-- A line that is not skipped and lets the loop go on: either its entry was there, or everything
up to the new entry has succeeded. -/
theorem installEntry_next {w w' : World} {path url : Bytes}
    (h : installEntry env w path url = (.next, w')) :
    ((testMap w.os doneName path url).1 = some .matched ∧ w' = { w with os := w.os.tick }) ∨
      ((testMap w.os doneName path url).1 ≠ some .matched ∧ ∃ f w2,
        fetch env (World.act { w with os := deletePath w.os.tick path } (.delete path)) url =
          (.next, some f, w2) ∧ installFile env w2 path url f = (.next, w')) := by
  have htest := testMap_os w.os doneName path url
  unfold installEntry at h
  split at h
  · cases h
  · rename_i os1 heq
    rw [heq] at htest ⊢
    obtain rfl : os1 = w.os.tick := htest
    cases h
    exact Or.inl ⟨rfl, rfl⟩
  · rename_i answer os1 hanswer heq
    rw [heq] at htest ⊢
    obtain rfl : os1 = w.os.tick := htest
    refine Or.inr ⟨?_, ?_⟩
    · rintro hmatched
      cases hmatched
      exact hanswer rfl
    · dsimp only at h
      split at h
      · rename_i f w2 hfetch
        exact ⟨f, w2, hfetch, h⟩
      · rename_i outcome file w2 hnext hfetch
        obtain ⟨rfl, rfl⟩ := Prod.mk.inj h
        obtain ⟨f, rfl⟩ := fetch_next hfetch
        exact (hnext f rfl rfl).elim

/-- After a line `download.done` has its entry, and the others as before. -/
theorem installEntry_recorded {w w' : World} {path url : Bytes} (hr : Ready w.os es)
    (he : Entry (path, url)) (hapart : Apart env w path url)
    (h : installEntry env w path url = (.next, w')) :
    ∃ es', Ready w'.os es' ∧ SameManifest w.os w'.os ∧ es'.lookup path = some url ∧
      ∀ k, k ≠ path → es'.lookup k = es.lookup k := by
  obtain ⟨hr1, hm1⟩ := hr.tick
  rcases installEntry_next h with ⟨hmatched, rfl⟩ | ⟨hnot, f, w2, hfetch, hinstall⟩
  · refine ⟨es, hr1, hm1, ?_, fun _ _ => rfl⟩
    rw [testMap_holds (home_done hr.home) hr.holds hr.entries (hr.good _)] at hmatched
    have hanswer : answer (es.lookup path) url = .matched := Option.some.inj hmatched
    cases hlookup : es.lookup path with
    | none =>
      rw [hlookup] at hanswer
      cases hanswer
    | some v =>
      rw [hlookup, answer] at hanswer
      split at hanswer
      · rename_i hv
        rw [hv]
      · cases hanswer
  · obtain ⟨hdelete, hunpack⟩ := hapart hnot
    obtain ⟨hr2, hm2⟩ := hr.kept ((goes_tick w.os).trans (goes_deletePath w.os.tick path)) hdelete
    have hfetched := only_fetch env
      (w := World.act { w with os := deletePath w.os.tick path } (.delete path)) hr2.home url
    rw [hfetch] at hfetched
    obtain ⟨hr3, hm3⟩ := hr2.only hfetched done_not_mem_fetchNames.1 done_not_mem_fetchNames.2
    obtain ⟨os1, hunpacked, hupdate⟩ := installFile_next hinstall
    have hgoes := goes_unpack env w2.os path url f
    have hkept := hunpack f w2 hfetch
    rw [hunpacked] at hgoes hkept
    obtain ⟨hr4, hm4⟩ := hr3.kept hgoes hkept
    obtain ⟨hr5, hm5⟩ := hr4.only (home_tmp hr4.home).only_unlink
      (by simpa using own_ne.2.2.2.1) (by simpa using own_ne.2.2.2.2.2.2.2.2.2)
    obtain ⟨hr6, hm6⟩ := hr5.put he hupdate
    refine ⟨put es path url, hr6, ?_, ?_, ?_⟩
    · exact hm6.trans (hm5.trans (hm4.trans (hm3.trans hm2)))
    · exact (congrFun (mapOf_put _ _ _) path).trans (Function.update_self ..)
    · intro k hk
      exact (congrFun (mapOf_put _ _ _) k).trans (Function.update_of_ne hk ..)

end Line

/-! ## All lines -/

section Loop

variable {env : Env ζ ξ} {es : List (Bytes × Bytes)}

theorem mainLoop_cons_next {w w' : World} {line : Bytes} {lines : List Bytes}
    (h : mainLoop env w (line :: lines) = (.next, w')) :
    ∃ w1, mainLine env w line = (.next, w1) ∧ mainLoop env w1 lines = (.next, w') := by
  unfold mainLoop at h
  split at h
  · rename_i w1 heq
    exact ⟨w1, heq, h⟩
  · rename_i outcome w1 hnext heq
    obtain ⟨rfl, rfl⟩ := Prod.mk.inj h
    exact (hnext rfl).elim

theorem AtLines.nil (env : Env ζ ξ) (w : World) (good : World → Bytes → Bytes → Prop) :
    AtLines env w [] good := by
  intro before line after w1 path url hsplit
  simp at hsplit

theorem AtLines.cons {good : World → Bytes → Bytes → Prop} {w : World} {line : Bytes}
    {lines : List Bytes}
    (hfirst : ∀ path url, parseManifestLine line = .entry path url → good w path url)
    (hrest : ∀ w1, mainLine env w line = (.next, w1) → AtLines env w1 lines good) :
    AtLines env w (line :: lines) good := by
  intro before l after w2 path url hsplit hrun hparse
  cases before with
  | nil =>
    obtain ⟨rfl, -⟩ := List.cons.inj hsplit
    cases hrun
    exact hfirst path url hparse
  | cons b before =>
    obtain ⟨rfl, hsplit'⟩ := List.cons.inj hsplit
    obtain ⟨w1, hline, hrun'⟩ := mainLoop_cons_next hrun
    exact hrest w1 hline before l after w2 path url hsplit' hrun' hparse

theorem AtLines.tail {good : World → Bytes → Bytes → Prop} {w w1 : World} {line : Bytes}
    {lines : List Bytes} (h : AtLines env w (line :: lines) good)
    (hline : mainLine env w line = (.next, w1)) : AtLines env w1 lines good := by
  intro before l after w2 path url hsplit hrun hparse
  refine h (line :: before) l after w2 path url (by rw [hsplit]; rfl) ?_ hparse
  rw [mainLoop, hline]
  exact hrun

/-- When the loop has gone through all lines, `download.done` has all their entries. -/
theorem mainLoop_recorded {w w' : World} {lines : List Bytes} (hr : Ready w.os es)
    (hentries : ∀ e ∈ wantedOf lines, Entry e) (hnodup : ((wantedOf lines).map Prod.fst).Nodup)
    (hapart : ApartLines env w lines) (h : mainLoop env w lines = (.next, w')) :
    ∃ es', Ready w'.os es' ∧ SameManifest w.os w'.os ∧
      (∀ e ∈ wantedOf lines, es'.lookup e.1 = some e.2) ∧
      (∀ line ∈ lines, parseManifestLine line ≠ .invalid) ∧
      ∀ k, k ∉ (wantedOf lines).map Prod.fst → es'.lookup k = es.lookup k := by
  induction lines generalizing w es with
  | nil =>
    cases h
    exact ⟨es, hr, rfl, by simp [wantedOf], by simp, fun _ _ => rfl⟩
  | cons line lines ih =>
    obtain ⟨w1, hline, hrest⟩ := mainLoop_cons_next h
    have hapart' := hapart.tail hline
    unfold mainLine at hline
    cases hparse : parseManifestLine line with
    | skip =>
      rw [hparse] at hline
      cases hline
      have hnone : entryOf line = none := by simp [entryOf, hparse]
      rw [wantedOf, List.filterMap_cons_none hnone, ← wantedOf] at hentries hnodup ⊢
      obtain ⟨es', hr', hm, hall, hvalid, hframe⟩ := ih hr hentries hnodup hapart' hrest
      refine ⟨es', hr', hm, hall, ?_, hframe⟩
      rw [List.forall_mem_cons]
      exact ⟨by rw [hparse]; simp, hvalid⟩
    | invalid =>
      rw [hparse] at hline
      cases hline
    | entry path url =>
      rw [hparse] at hline
      have hsome : entryOf line = some (path, url) := by simp [entryOf, hparse]
      rw [wantedOf, List.filterMap_cons_some hsome, ← wantedOf] at hentries hnodup ⊢
      rw [List.map_cons, List.nodup_cons] at hnodup
      obtain ⟨es1, hr1, hm1, hlookup, hframe1⟩ := installEntry_recorded hr
        (hentries _ List.mem_cons_self) (hapart [] line lines w path url rfl rfl hparse) hline
      obtain ⟨es', hr', hm, hall, hvalid, hframe⟩ := ih hr1
        (fun e he => hentries e (List.mem_cons_of_mem _ he)) hnodup.2 hapart' hrest
      refine ⟨es', hr', hm.trans hm1, ?_, ?_, ?_⟩
      · rw [List.forall_mem_cons]
        refine ⟨?_, hall⟩
        rw [hframe path hnodup.1]
        exact hlookup
      · rw [List.forall_mem_cons]
        exact ⟨by rw [hparse]; simp, hvalid⟩
      · intro k hk
        rw [List.map_cons, List.mem_cons, not_or] at hk
        rw [hframe k hk.2, hframe1 k hk.1]

/-- A system of which only the number of calls is another one. -/
def sinceCalls (w : World) (n : Nat) : World := { w with os := { w.os with calls := n } }

/-- When `download.done` has all entries, the loop does nothing but look at it. -/
theorem mainLoop_recorded_again {w : World} {lines : List Bytes} (hr : Ready w.os es)
    (hall : ∀ e ∈ wantedOf lines, es.lookup e.1 = some e.2)
    (hvalid : ∀ line ∈ lines, parseManifestLine line ≠ .invalid) :
    ∃ n, mainLoop env w lines = (.next, sinceCalls w n) := by
  induction lines generalizing w with
  | nil => exact ⟨w.os.calls, rfl⟩
  | cons line lines ih =>
    rw [List.forall_mem_cons] at hvalid
    cases hparse : parseManifestLine line with
    | skip =>
      have hnone : entryOf line = none := by simp [entryOf, hparse]
      rw [wantedOf, List.filterMap_cons_none hnone, ← wantedOf] at hall
      obtain ⟨n, hn⟩ := ih hr hall hvalid.2
      refine ⟨n, ?_⟩
      rw [mainLoop, mainLine, hparse]
      exact hn
    | invalid => exact absurd hparse hvalid.1
    | entry path url =>
      have hsome : entryOf line = some (path, url) := by simp [entryOf, hparse]
      rw [wantedOf, List.filterMap_cons_some hsome, ← wantedOf, List.forall_mem_cons] at hall
      have htest : testMap w.os doneName path url = (some .matched, w.os.tick) := by
        rw [testMap_holds (home_done hr.home) hr.holds hr.entries (hr.good _), hall.1, answer,
          if_pos rfl]
      obtain ⟨n, hn⟩ := ih (w := { w with os := w.os.tick }) hr.tick.1 hall.2 hvalid.2
      refine ⟨n, ?_⟩
      rw [mainLoop, mainLine, hparse]
      dsimp only
      rw [installEntry, htest]
      exact hn

end Loop

/-! ## The codes of a run that breaks off -/

section Codes

variable (env : Env ζ ξ)

theorem unpackContainer_ne_zero {κ τ : Type} (K : Container κ τ) (path : Bytes) (fuel : Nat) (c : κ)
    (os : OS) : (unpackContainer K path fuel c os).1 ≠ .exit 0 := by
  unfold unpackContainer
  split
  · simp
  · dsimp only
    split <;> simp

theorem unpackStream_ne_zero {σ : Type} (read : Reader σ) (path : Bytes) (fuel : Nat) (s : σ)
    (os : OS) : (unpackStream read path fuel s os).1 ≠ .exit 0 := by
  unfold unpackStream
  dsimp only
  split
  · simp
  · dsimp only
    split <;> simp

theorem unpack_ne_zero (os : OS) (path url : Bytes) (f : CFile) :
    (unpack env os path url f).1 ≠ .exit 0 := by
  unfold unpack
  split
  · split
    · simp
    · exact unpackContainer_ne_zero _ _ _ _ _
  · split
    · exact unpackContainer_ne_zero _ _ _ _ _
    · split
      · split
        · simp
        · simp
        · exact unpackContainer_ne_zero _ _ _ _ _
      · split
        · split
          · simp
          · exact unpackStream_ne_zero _ _ _ _ _
        · exact unpackStream_ne_zero _ _ _ _ _

theorem checkHash_ne_zero (os : OS) (url str : Bytes) : (checkHash os url str).1 ≠ .exit 0 := by
  unfold checkHash
  split
  · simp
  · simp
  · simp
  · split
    · simp
    · dsimp only
      split <;> simp

theorem fetch_ne_zero (w : World) (url : Bytes) : (fetch env w url).1 ≠ .exit 0 := by
  unfold fetch
  split
  · unfold fetchHttp
    dsimp only
    split
    · simp
    · simp
    · split
      · simp
      · split
        · simp
        · split
          · simp
          · split
            · split <;> simp
            · rename_i outcome os1 _ heq
              have hne := checkHash_ne_zero
              intro hzero
              exact hne _ _ _ (by rw [heq]; exact hzero)
  · split
    · dsimp only
      split <;> simp
    · simp

theorem installFile_ne_zero (w : World) (path url : Bytes) (f : CFile) :
    (installFile env w path url f).1 ≠ .exit 0 := by
  unfold installFile
  dsimp only
  have hne := unpack_ne_zero env (w.act (.extract path url f.content)).os path url f
  split
  · unfold recordLine
    split
    · simp
    · dsimp only
      split <;> simp
  · rename_i code os1 heq
    rw [heq] at hne
    exact hne
  · rename_i outcome os1 _ hexit heq
    rw [heq] at hne
    exact hne

theorem mainLine_ne_zero (w : World) (line : Bytes) : (mainLine env w line).1 ≠ .exit 0 := by
  unfold mainLine
  split
  · simp
  · simp
  · rename_i path url _
    unfold installEntry
    split
    · simp
    · simp
    · rename_i os1 _ _
      dsimp only
      have hne := fetch_ne_zero env
        (World.act { w with os := deletePath os1 path } (.delete path)) url
      split
      · exact installFile_ne_zero env _ _ _ _
      · rename_i outcome file w1 _ heq
        rw [heq] at hne
        exact hne

/-- The loop gives up with a code of its own. -/
theorem mainLoop_ne_zero (w : World) (lines : List Bytes) : (mainLoop env w lines).1 ≠ .exit 0 := by
  induction lines generalizing w with
  | nil => simp [mainLoop]
  | cons line lines ih =>
    unfold mainLoop
    have hne := mainLine_ne_zero env w line
    split
    · exact ih _
    · rename_i outcome w1 _ heq
      rw [heq] at hne
      exact hne

end Codes

/-! ## Two runs -/

section Runs

variable {env : Env ζ ξ} {es : List (Bytes × Bytes)}

theorem openManifest_file {w : World} {c : Bytes} {m : Int} (hr : Ready w.os es)
    (hfile : w.os.fs.get (w.os.at manifestName) = some (.file c m)) :
    openManifest w = (.ok c, sinceCalls w (w.os.calls + 2)) := by
  have hloc : w.os.tick.locate true manifestName = some (w.os.at manifestName) :=
    (home_manifest hr.home).locate true
  have hfile' : w.os.tick.fs.get (w.os.at manifestName) = some (.file c m) := hfile
  have hnot : ¬ w.os.tick.fs.Addable (w.os.at manifestName) := by
    rintro ⟨-, hfree, -⟩
    rw [hfile'] at hfree
    cases hfree
  have hopen : w.os.openCreate manifestName 0o755 = (some c, w.os.tick) := by
    unfold OS.openCreate
    rw [OS.call_good (hr.good _)]
    simp only [hloc, if_neg hnot, hfile']
  unfold openManifest
  rw [hopen]
  dsimp only
  rw [OS.call_good (show w.os.tick.fault w.os.tick.calls = false from hr.good _)]
  rfl

theorem openManifest_missing {w : World} (hr : Ready w.os es)
    (hfree : w.os.fs.get (w.os.at manifestName) = none) :
    ∃ os1, openManifest w = (.ok [], { w with os := os1 }) ∧ Only [manifestName] w.os os1 ∧
      os1.fs.get (os1.at manifestName) = some (.file [] 0o755) := by
  have hslot := home_manifest hr.home
  have hadd : w.os.tick.fs.Addable (w.os.at manifestName) := hslot.addable hfree
  have hloc : w.os.tick.locate true manifestName = some (w.os.at manifestName) :=
    hslot.locate true
  have hself : (w.os.fs.add (w.os.at manifestName) (.file [] 0o755)).get (w.os.at manifestName) =
      some (.file [] 0o755) := (FS.get_add hadd _ _).trans (if_pos rfl)
  have hopen : w.os.openCreate manifestName 0o755 =
      (some [], w.os.tick.act (w.os.fs.add (w.os.at manifestName) (.file [] 0o755))
        (.create (w.os.at manifestName))) := by
    unfold OS.openCreate
    rw [OS.call_good (hr.good _)]
    simp only [hloc, if_pos hadd]
    rfl
  have honly : Only [manifestName] w.os
      (w.os.tick.act (w.os.fs.add (w.os.at manifestName) (.file [] 0o755))
        (.create (w.os.at manifestName))) :=
    .of_act rfl (fun l hl => FS.get_add_ne _ _ hl) (Or.inr ⟨_, _, hself⟩)
  refine ⟨_, ?_, honly.trans (.tick _ _), hself⟩
  unfold openManifest
  rw [hopen]
  dsimp only
  rw [OS.call_good]
  exact hr.good _

/-- The manifest is read as it is, and then it is there. -/
theorem openManifest_ready {w : World} (hr : Ready w.os es) :
    ∃ os1, openManifest w = (.ok (manifestOf w.os), { w with os := os1 }) ∧ Ready os1 es ∧
      ∃ m, os1.fs.get (os1.at manifestName) = some (.file (manifestOf w.os) m) := by
  rcases (home_manifest hr.home).plain with hfree | ⟨c, m, hfile⟩
  · obtain ⟨os1, hopen, honly, hnew⟩ := openManifest_missing hr hfree
    have hempty : manifestOf w.os = [] := by simp [manifestOf, hfree]
    rw [hempty]
    refine ⟨os1, hopen, ⟨hr.home.only honly, ?_, hr.holds.of_get (honly.get_slot ?_), hr.entries⟩,
      _, hnew⟩
    · rw [honly.goes.fault]
      exact hr.good
    · simpa using own_ne.2.2.2.2.2.2.1.symm
  · have hcontent : manifestOf w.os = c := by simp [manifestOf, hfile]
    rw [hcontent]
    exact ⟨_, openManifest_file hr hfile, hr.tick.1.tick.1, m, hfile⟩

/-- A run that returns 0 has gone through all lines of its manifest. -/
theorem main_exit_zero {w w' : World} (hr : Ready w.os es) (h : main env w = (.exit 0, w')) :
    ∃ os1 m, openManifest w = (.ok (manifestOf w.os), { w with os := os1 }) ∧ Ready os1 es ∧
      os1.fs.get (os1.at manifestName) = some (.file (manifestOf w.os) m) ∧
      mainLoop env { w with os := os1 } (linesOf w.os) = (.next, w') := by
  obtain ⟨os1, hopen, hready, m, hm⟩ := openManifest_ready hr
  refine ⟨os1, m, hopen, hready, hm, ?_⟩
  unfold main at h
  rw [hopen] at h
  dsimp only at h
  unfold linesOf
  split at h
  · rename_i w1 heq
    cases h
    exact heq
  · rename_i outcome w1 hnext heq
    cases h
    exact (mainLoop_ne_zero env _ _ (congrArg Prod.fst heq)).elim

/-- What a line asks for can be kept in `download.done`. -/
theorem entry_of_wanted {os : OS} {e : Bytes × Bytes} (he : e ∈ wanted os) (hne : e.1 ≠ [])
    (hfits : (entryLine e).length < 256) : Entry e := by
  obtain ⟨line, hline, hentry⟩ := List.mem_filterMap.mp he
  obtain ⟨hkey, hval⟩ := fields_of_entry
    (manifestLines_plain (zero_not_mem_cstr (manifestOf os)) hline) (entryOf_eq_some.mp hentry)
  exact ⟨hkey, hne, hval, hfits⟩

/-- **A second run does nothing.** When a run returns 0, the next one returns 0 too and leaves
everything as it is: the tree, the list of what was done and the number of downloads are the same,
whatever the network then does. The paths of the manifest are distinct, and nothing that is deleted
or extracted for a line touches the own files. -/
theorem second_run_is_no_op (env env' : Env ζ ξ) {w w' : World} {es : List (Bytes × Bytes)}
    (hhome : Home w.os) (hgood : ∀ k, w.os.fault k = false) (hdone : Holds w.os doneName es)
    (hes : ∀ e ∈ es, Entry e)
    (hwanted : ∀ e ∈ wanted w.os, e.1 ≠ [] ∧ e.2 ≠ [] ∧ (entryLine e).length ≤ 255)
    (hnodup : ((wanted w.os).map Prod.fst).Nodup)
    (hapart : ApartLines env (openManifest w).2 (linesOf w.os))
    (hrun : main env w = (.exit 0, w')) :
    manifestOf w'.os = manifestOf w.os ∧ ∃ n, main env' w' = (.exit 0, sinceCalls w' n) := by
  have hr : Ready w.os es := ⟨hhome, hgood, hdone, hes⟩
  obtain ⟨os1, m, hopen, hr1, hm, hloop⟩ := main_exit_zero hr hrun
  rw [hopen] at hapart
  have hentries : ∀ e ∈ wantedOf (linesOf w.os), Entry e := by
    intro e he
    obtain ⟨hne, -, hfits⟩ := hwanted e he
    exact entry_of_wanted he hne (by omega)
  obtain ⟨es', hr', hsame, hall, hvalid, -⟩ :=
    mainLoop_recorded (w := { w with os := os1 }) hr1 hentries hnodup hapart hloop
  have hfile : w'.os.fs.get (w'.os.at manifestName) = some (.file (manifestOf w.os) m) :=
    hsame.trans hm
  refine ⟨by simp [manifestOf, hfile], ?_⟩
  obtain ⟨n, hn⟩ := mainLoop_recorded_again
    (w := sinceCalls w' (w'.os.calls + 2)) hr'.tick.1.tick.1 hall hvalid
  refine ⟨n, ?_⟩
  unfold main
  rw [openManifest_file hr' hfile]
  dsimp only
  rw [linesOf] at hn
  rw [hn]
  rfl

end Runs

/-! ## Two files -/

/-- No server answers, and no decoder can be set up. -/
def offline : Env Unit Unit where
  net _ := ⟨fun _ _ _ => none, fun _ => 0⟩
  Z := noCodec
  X := noXzDecoder
  sha256 _ _ := 0
  fuel := 8

/-- The line is worked out once. -/
theorem apart_of_fetched {env : Env ζ ξ} {w w1 : World} {path url : Bytes} {f : CFile}
    (hw1 : w1 = World.act { w with os := deletePath w.os.tick path } (.delete path))
    (hdelete : OwnKept w.os w1.os) (hfetch : (fetch env w1 url).2.1 = some f)
    (hunpack : OwnKept (fetch env w1 url).2.2.os
      (unpack env (fetch env w1 url).2.2.os path url f).2) : Apart env w path url := by
  subst hw1
  refine fun _ => ⟨hdelete, fun g w2 heq => ?_⟩
  rw [heq] at hfetch hunpack
  obtain rfl : g = f := Option.some.inj hfetch
  exact hunpack

/-- A directory with a manifest of two lines behind a comment, and the file that both name. -/
def filesWorld : World where
  os := { freshOS with
    fs := (freshOS.fs.add [lit "w", manifestName]
      (.file (lit "# x\na, file:b\nc/d,file:b") 0o644)).add
        [lit "w", lit "b"] (.file (lit "hi") 0o644) }
  downloads := 0
  acts := []

theorem filesWorld_home : Home filesWorld.os := by
  have h : ∀ n ∈ ownNames, Ordinary n ∧ (filesWorld.os.fs.get (filesWorld.os.at n) = none ∨
      filesWorld.os.fs.get (filesWorld.os.at n) =
        some (.file (lit "# x\na, file:b\nc/d,file:b") 0o644)) := by
    decide
  intro n hn
  obtain ⟨hord, hplain⟩ := h n hn
  refine ⟨hord, by decide, hplain.imp_right fun hfile => ⟨_, _, hfile⟩⟩

/-- The worlds in which the lines are reached, and those in which they are fetched. -/
def atFirstFile : World := (openManifest filesWorld).2

def atSecondFile : World := (mainLine offline atFirstFile (lit "a, file:b")).2

def firstFileDeleted : World :=
  World.act { atFirstFile with os := deletePath atFirstFile.os.tick (lit "a") } (.delete (lit "a"))

def secondFileDeleted : World :=
  World.act { atSecondFile with os := deletePath atSecondFile.os.tick (lit "c/d") }
    (.delete (lit "c/d"))

theorem filesWorld_apart :
    ApartLines offline (openManifest filesWorld).2 (linesOf filesWorld.os) := by
  have hlines : linesOf filesWorld.os = [lit "# x", lit "a, file:b", lit "c/d,file:b"] := by
    decide +kernel
  have hparse : parseManifestLine (lit "# x") = .skip ∧
      parseManifestLine (lit "a, file:b") = .entry (lit "a") (lit "file:b") ∧
      parseManifestLine (lit "c/d,file:b") = .entry (lit "c/d") (lit "file:b") := by decide
  have hskip : ∀ w1, mainLine offline atFirstFile (lit "# x") = (.next, w1) →
      w1 = atFirstFile := by
    intro w1 hline
    rw [mainLine, hparse.1] at hline
    exact (congrArg Prod.snd hline).symm
  have hfirst : Apart offline atFirstFile (lit "a") (lit "file:b") :=
    apart_of_fetched (show firstFileDeleted = _ from rfl) ⟨by decide, by decide⟩
      (show _ = some (CFile.ofBytes (lit "hi")) by decide)
      ⟨by decide +kernel, by decide +kernel⟩
  have hsecond : Apart offline atSecondFile (lit "c/d") (lit "file:b") :=
    apart_of_fetched (show secondFileDeleted = _ from rfl) ⟨by decide +kernel, by decide +kernel⟩
      (show _ = some (CFile.ofBytes (lit "hi")) by decide +kernel)
      ⟨by decide +kernel, by decide +kernel⟩
  rw [hlines]
  refine .cons (fun path url hentry => ?_) fun w1 hline => ?_
  · rw [hparse.1] at hentry
    cases hentry
  · rw [hskip w1 hline]
    refine .cons (fun path url hentry => ?_) fun w2 hline => .cons (fun path url hentry => ?_)
      fun w3 _ => .nil _ _ _
    · rw [hparse.2.1] at hentry
      cases hentry
      exact hfirst
    · rw [hparse.2.2] at hentry
      cases hentry
      rw [show w2 = atSecondFile from (congrArg Prod.snd hline).symm]
      exact hsecond

theorem second_run_is_no_op_file :
    (main offline filesWorld).1 = .exit 0 ∧
    (main offline filesWorld).2.acts =
      [.extracted (lit "c/d") (lit "file:b"), .extract (lit "c/d") (lit "file:b") (lit "hi"),
        .openSource (lit "b"), .delete (lit "c/d"),
        .extracted (lit "a") (lit "file:b"), .extract (lit "a") (lit "file:b") (lit "hi"),
        .openSource (lit "b"), .delete (lit "a")] ∧
    ∃ n, main offline (main offline filesWorld).2 =
      (.exit 0, sinceCalls (main offline filesWorld).2 n) := by
  have hexit : (main offline filesWorld).1 = .exit 0 ∧
      (main offline filesWorld).2.acts =
        [.extracted (lit "c/d") (lit "file:b"), .extract (lit "c/d") (lit "file:b") (lit "hi"),
          .openSource (lit "b"), .delete (lit "c/d"),
          .extracted (lit "a") (lit "file:b"), .extract (lit "a") (lit "file:b") (lit "hi"),
          .openSource (lit "b"), .delete (lit "a")] := by
    decide +kernel
  refine ⟨hexit.1, hexit.2, ?_⟩
  exact (second_run_is_no_op offline offline filesWorld_home (fun _ => rfl)
    (Or.inl ⟨by decide, rfl⟩) (by simp) (by decide +kernel) (by decide +kernel)
    filesWorld_apart (Prod.ext hexit.1 rfl)).2

end ToolchainTools
