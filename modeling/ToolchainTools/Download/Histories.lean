import ToolchainTools.Download.SecondRun

/-!
# Histories of runs

A history is any sequence of runs of `main`, with any manifests, networks and results, and of
changes that others make in between. `LineEnd` says once in which ways a line can end; what
every line preserves, a run preserves, wherever it breaks off (`main_keeps`), and so does a
history (`Later.keeps`).
-/

namespace ToolchainTools

open CLib Posix Streams

variable {ζ ξ : Type} {env : Env ζ ξ} {w w' : World} {path url : Bytes}

/-! ## How a line ends -/

/-- The world in which a line that was not found in `download.done` is fetched. -/
def deleted (w : World) (path : Bytes) : World :=
  World.act { w with os := deletePath w.os.tick path } (.delete path)

/-- The world behind a file that has been extracted. -/
def unpacked (w : World) (path url : Bytes) (f : CFile) (os : OS) : World :=
  ⟨os.unlink tmpName, w.downloads, .extracted path url :: .extract path url f.content :: w.acts⟩

/-- What the line for `path` and `url` can come to. -/
inductive LineEnd (env : Env ζ ξ) (w : World) (path url : Bytes) : Outcome × World → Prop
  /-- It is there, or looking for it has crashed. -/
  | looked (o : Outcome) (h : (testMap w.os doneName path url).1 = some .matched ∨ o = .crash) :
      LineEnd env w path url (o, { w with os := w.os.tick })
  /-- Nothing to go on with has been fetched. -/
  | unfetched {o : Outcome} {file : Option CFile} {w2 : World}
      (h : (testMap w.os doneName path url).1 ≠ some .matched)
      (hfetch : fetch env (deleted w path) url = (o, file, w2)) (ho : o ≠ .next) :
      LineEnd env w path url (o, w2)
  /-- The extraction has failed; what was fetched is removed if it has returned. -/
  | failed {o : Outcome} {f : CFile} {w2 : World} {os3 os4 : OS}
      (h : (testMap w.os doneName path url).1 ≠ some .matched)
      (hfetch : fetch env (deleted w path) url = (.next, some f, w2))
      (hunpack : unpack env w2.os path url f = (o, os3)) (ho : o ≠ .next)
      (hend : os4 = os3 ∨ os4 = os3.unlink tmpName) :
      LineEnd env w path url (o, { w2.act (.extract path url f.content) with os := os4 })
  /-- The extraction has returned 0, and the entry is written. -/
  | recorded {f : CFile} {w2 : World} {os3 : OS}
      (h : (testMap w.os doneName path url).1 ≠ some .matched)
      (hfetch : fetch env (deleted w path) url = (.next, some f, w2))
      (hunpack : unpack env w2.os path url f = (.next, os3)) :
      LineEnd env w path url (recordLine (unpacked w2 path url f os3) path url)

theorem installEntry_ends (env : Env ζ ξ) (w : World) (path url : Bytes) :
    LineEnd env w path url (installEntry env w path url) := by
  have htest := testMap_os w.os doneName path url
  unfold installEntry
  split
  · rename_i os1 heq
    rw [heq] at htest
    obtain rfl : os1 = w.os.tick := htest
    exact .looked .crash (Or.inr rfl)
  · rename_i os1 heq
    rw [heq] at htest
    obtain rfl : os1 = w.os.tick := htest
    exact .looked .next (Or.inl (by rw [heq]))
  · rename_i answer os1 hanswer heq
    rw [heq] at htest
    obtain rfl : os1 = w.os.tick := htest
    have hnot : (testMap w.os doneName path url).1 ≠ some .matched := by
      rw [heq]
      rintro h
      cases h
      exact hanswer rfl
    dsimp only
    split
    · rename_i f w2 hfetch
      unfold installFile
      dsimp only
      split
      · rename_i os3 hunpack
        exact .recorded hnot hfetch hunpack
      · rename_i code os3 hunpack
        exact .failed hnot hfetch hunpack (by simp) (Or.inr rfl)
      · rename_i o os3 hnext _ hunpack
        exact .failed hnot hfetch hunpack hnext (Or.inl rfl)
    · rename_i o file w2 hnext hfetch
      refine .unfetched hnot hfetch ?_
      rintro rfl
      obtain ⟨f, rfl⟩ := fetch_next hfetch
      exact hnext f rfl rfl

/-- The end of a line is an update of `download.done`. -/
theorem recordLine_world (w : World) (path url : Bytes) :
    (recordLine w path url).2 = { w with os := (updateMap w.os doneName path url).2 } := by
  unfold recordLine
  split
  · rename_i heq
    rw [heq]
  · rename_i heq
    rw [heq]

/-! ## Runs -/

/-- What `AtLines` says, for the lines of the manifest that a run reads. -/
def AtRun (good : Env ζ ξ → World → Bytes → Bytes → Prop) (env : Env ζ ξ) (w : World) : Prop :=
  ∀ manifest, (openManifest w).1 = .ok manifest →
    AtLines env (openManifest w).2 (manifestLines (cstr manifest)) (good env)

theorem mainLoop_append {before lines : List Bytes} {w1 : World}
    (h : mainLoop env w before = (.next, w1)) :
    mainLoop env w (before ++ lines) = mainLoop env w1 lines := by
  induction before generalizing w with
  | nil =>
    cases h
    rfl
  | cons line before ih =>
    obtain ⟨w2, hline, hrest⟩ := mainLoop_cons_next h
    rw [List.cons_append, mainLoop, hline]
    exact ih hrest

/-- The lines before one that is reached, and those from it on. -/
theorem AtLines.split {good : World → Bytes → Bytes → Prop} {before lines : List Bytes} {w1 : World}
    (h : AtLines env w (before ++ lines) good) (hbefore : mainLoop env w before = (.next, w1)) :
    AtLines env w before good ∧ AtLines env w1 lines good := by
  constructor
  · intro front line back w2 path url hsplit hrun hparse
    exact h front line (back ++ lines) w2 path url (by simp [hsplit]) hrun hparse
  · intro front line back w2 path url hsplit hrun hparse
    exact h (before ++ front) line back w2 path url (by simp [hsplit])
      ((mainLoop_append hbefore).trans hrun) hparse

/-- What every line preserves, the loop preserves, whether it gets to the end or not. -/
theorem mainLoop_keeps {I : World → Prop} {good : World → Bytes → Bytes → Prop} {lines : List Bytes}
    (hplain : ∀ line ∈ lines, PlainLine line) (hgood : AtLines env w lines good)
    (hline : ∀ w path url, I w → Field path → Field url → good w path url →
      I (installEntry env w path url).2)
    (hw : I w) : I (mainLoop env w lines).2 := by
  induction lines generalizing w with
  | nil => exact hw
  | cons line lines ih =>
    have hfirst : I (mainLine env w line).2 := by
      unfold mainLine
      split
      · exact hw
      · exact hw
      · rename_i path url hparse
        obtain ⟨hpath, hurl⟩ := fields_of_entry (hplain line List.mem_cons_self) hparse
        exact hline w path url hw hpath hurl (hgood [] line lines w path url rfl rfl hparse)
    unfold mainLoop
    split
    · rename_i w1 heq
      rw [heq] at hfirst
      exact ih (fun l hl => hplain l (List.mem_cons_of_mem _ hl)) (hgood.tail heq) hfirst
    · rename_i o w1 _ heq
      rw [heq] at hfirst
      exact hfirst

theorem main_keeps {I : World → Prop} {good : Env ζ ξ → World → Bytes → Bytes → Prop}
    (hgood : AtRun good env w) (hopen : I (openManifest w).2)
    (hline : ∀ w path url, I w → Field path → Field url → good env w path url →
      I (installEntry env w path url).2) : I (main env w).2 := by
  unfold main
  split
  · rename_i code w1 heq
    rw [heq] at hopen
    exact hopen
  · rename_i manifest w1 heq
    have hlines := hgood manifest (by rw [heq])
    rw [heq] at hopen hlines
    have hloop := mainLoop_keeps
      (fun _ hl => manifestLines_plain (zero_not_mem_cstr manifest) hl) hlines hline hopen
    split
    · rename_i w2 hrun
      rw [hrun] at hloop
      exact hloop
    · rename_i o w2 _ hrun
      rw [hrun] at hloop
      exact hloop

/-- Where a run ends. -/
theorem main_world {manifest : Bytes} (hopen : (openManifest w).1 = .ok manifest) :
    (main env w).2 =
      (mainLoop env (openManifest w).2 (manifestLines (cstr manifest))).2 := by
  unfold main
  split
  · rename_i heq
    rw [heq] at hopen
    cases hopen
  · rename_i heq
    rw [heq] at hopen ⊢
    cases hopen
    split
    · rename_i hrun
      rw [hrun]
    · rename_i hrun
      rw [hrun]

/-- Opening the manifest makes it if it is missing, and does nothing else. -/
theorem openManifest_only (h : Home w.os) :
    (openManifest w).2.acts = w.acts ∧ Only [manifestName] w.os (openManifest w).2.os := by
  have hslot := home_manifest h
  have hcreate : Only [manifestName] w.os (w.os.openCreate manifestName 0o755).2 := by
    have hloc : w.os.tick.locate true manifestName = some (w.os.at manifestName) :=
      hslot.locate true
    unfold OS.openCreate OS.call
    split
    · exact .tick _ w.os
    · dsimp only
      rw [hloc]
      dsimp only
      split
      · rename_i hadd
        exact .of_act rfl (fun l hl => FS.get_add_ne _ _ hl)
          (Or.inr ⟨_, _, (FS.get_add hadd _ _).trans (if_pos rfl)⟩)
      · split
        · exact .tick _ w.os
        · exact .tick _ w.os
  unfold openManifest
  split
  · rename_i os1 heq
    rw [heq] at hcreate
    exact ⟨rfl, hcreate⟩
  · rename_i manifest os1 heq
    rw [heq] at hcreate
    have htick : Only [manifestName] w.os os1.tick := hcreate.trans (.tick _ os1)
    have hcall : (os1.call false fun os => (true, os)).2 = os1.tick := by
      unfold OS.call
      split <;> rfl
    split
    · rename_i os2 hfail
      rw [hfail] at hcall
      obtain rfl : os2 = os1.tick := hcall
      exact ⟨rfl, htick⟩
    · rename_i os2 hread
      rw [hread] at hcall
      obtain rfl : os2 = os1.tick := hcall
      exact ⟨rfl, htick⟩

/-! ## What lines leave alone -/

/-- The own files are still regular files or missing, and the one called `name` is as it was. -/
structure Spared (name : Name) (os os' : OS) : Prop where
  home : Home os'
  cwd : os'.cwd = os.cwd
  same : os'.fs.get (os'.at name) = os.fs.get (os.at name)

/-- What the line deletes and extracts, if it gets there, spares the own file `name`. -/
def Spares (name : Name) (env : Env ζ ξ) (w : World) (path url : Bytes) : Prop :=
  Spared name w.os (deleted w path).os ∧
    ∀ f w2, fetch env (deleted w path) url = (.next, some f, w2) →
      Spared name w2.os (unpack env w2.os path url f).2

theorem Spared.of_only {name : Name} {names : List Name} {os os' : OS} (hhome : Home os)
    (h : Only names os os') (hname : name ∉ names) : Spared name os os' :=
  ⟨hhome.only h, h.goes.cwd, h.get_slot hname⟩

theorem Spared.trans {name : Name} {os os' os'' : OS} (h : Spared name os os')
    (h' : Spared name os' os'') : Spared name os os'' :=
  ⟨h'.home, h'.cwd.trans h.cwd, h'.same.trans h.same⟩

theorem Spared.unlink_tmp {name : Name} {os os' : OS} (h : Spared name os os')
    (hname : name ≠ tmpName) : Spared name os (os'.unlink tmpName) :=
  h.trans (.of_only h.home (home_tmp h.home).only_unlink (by simpa using hname))

/-- The line is worked out once. -/
theorem spares_of_fetched {name : Name} {f : CFile} (hdelete : Spared name w.os (deleted w path).os)
    (hfetch : (fetch env (deleted w path) url).2.1 = some f)
    (hunpack : Spared name (fetch env (deleted w path) url).2.2.os
      (unpack env (fetch env (deleted w path) url).2.2.os path url f).2) :
    Spares name env w path url := by
  refine ⟨hdelete, fun g w2 heq => ?_⟩
  rw [heq] at hfetch hunpack
  obtain rfl : g = f := Option.some.inj hfetch
  exact hunpack

/-! ## Histories -/

/-- Between two runs of the history others do what `edited` allows. -/
inductive Later (careful : Env ζ ξ → World → Prop) (edited : OS → OS → Prop) (w : World) :
    World → Prop
  | refl : Later careful edited w w
  | run {w1 : World} {env : Env ζ ξ} (h : Later careful edited w w1) (hrun : careful env w1) :
      Later careful edited w (main env w1).2
  | edit {w1 : World} {os : OS} (h : Later careful edited w w1) (hedit : edited w1.os os) :
      Later careful edited w { w1 with os := os }

theorem Later.keeps {careful : Env ζ ξ → World → Prop} {edited : OS → OS → Prop} {I : World → Prop}
    (h : Later careful edited w w') (hrun : ∀ env w, careful env w → I w → I (main env w).2)
    (hedit : ∀ w os, edited w.os os → I w → I { w with os := os }) (hw : I w) : I w' := by
  induction h with
  | refl => exact hw
  | run _ hcareful ih => exact hrun _ _ hcareful ih
  | edit _ hedited ih => exact hedit _ _ hedited ih

/-! ## Acts -/

/-- The path that something has been done to. -/
def Act.target : Act → Option Bytes
  | .delete path | .extract path _ _ | .extracted path _ => some path
  | .connect _ | .openSource _ => none

/-- Fetching is noted without a path. -/
theorem fetch_acts (env : Env ζ ξ) (w : World) (url : Bytes) :
    ∃ new, (fetch env w url).2.2.acts = new ++ w.acts ∧ ∀ a ∈ new, a.target = none := by
  unfold fetch
  split
  · refine ⟨[.connect url], ?_, by simp [Act.target]⟩
    unfold fetchHttp
    dsimp only
    split
    · rfl
    · rfl
    · split
      · rfl
      · split
        · rfl
        · split
          · rfl
          · split
            · split <;> rfl
            · rfl
  · split
    · refine ⟨[.openSource (url.drop (lit "file:").length)], ?_, by simp [Act.target]⟩
      dsimp only
      split <;> rfl
    · exact ⟨[], rfl, by simp⟩

/-! ## Worlds to start from -/

/-- A directory with a manifest, and a file to fetch. -/
def manifestWorld (manifest : Bytes) : World where
  os := { freshOS with
    fs := (freshOS.fs.add [lit "w", manifestName] (.file manifest 0o644)).add
      [lit "w", lit "b"] (.file (lit "hi") 0o644) }
  downloads := 0
  acts := []

/-- The own files are missing or hold one of these. -/
def FilesAre (cs : List Bytes) (os : OS) : Prop :=
  os.fs.get os.cwd = some .dir ∧ ∀ n ∈ ownNames, Ordinary n ∧
    (os.fs.get (os.at n) = none ∨ ∃ c ∈ cs, os.fs.get (os.at n) = some (.file c 0o644))

instance (cs : List Bytes) (os : OS) : Decidable (FilesAre cs os) :=
  inferInstanceAs (Decidable (_ ∧ _))

theorem FilesAre.home {cs : List Bytes} {os : OS} (h : FilesAre cs os) : Home os := by
  intro n hn
  obtain ⟨hord, hplain⟩ := h.2 n hn
  exact ⟨hord, h.1, hplain.imp_right fun ⟨c, _, hfile⟩ => ⟨c, _, hfile⟩⟩

theorem FilesAre.spared {cs : List Bytes} {name : Name} {os os' : OS} (h : FilesAre cs os')
    (hgoes : Goes os os') (hsame : os'.fs.get (os.at name) = os.fs.get (os.at name)) :
    Spared name os os' :=
  ⟨h.home, hgoes.cwd, by rw [hgoes.at_eq]; exact hsame⟩

theorem goes_deleted (w : World) (path : Bytes) : Goes w.os (deleted w path).os :=
  (goes_tick w.os).trans (goes_deletePath w.os.tick path)

end ToolchainTools
