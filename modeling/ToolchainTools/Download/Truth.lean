import ToolchainTools.Download.Complete

/-!
# What `download.done` says of the past

An entry of `download.done` should say that the last thing done to its path was a complete
extraction of its url. A line deletes the path first and rewrites the entry last, so an entry
for another url is wrong in between, and stays wrong when the line breaks off; and an entry is
written whenever the extraction returns 0, whatever the streams below it have met. In a history
whose lines are `Steady`, which is to say that neither happens, all entries are true
(`done_tells_truth`).
-/

namespace ToolchainTools

open CLib Posix Streams

variable {ζ ξ : Type} {env : Env ζ ξ} {w w' : World} {path url : Bytes}
  {es : List (Bytes × Bytes)}

/-! ## The last thing done to a path -/

/-- The last thing done to `path` was the complete extraction of `url`, by a line that was passed:
after it nothing has been deleted or extracted for the path, which leads where it led, and nothing
has been changed there or below. -/
def LastDone (passed : Env ζ ξ → World → Bytes → Bytes → Prop) (w' : World) (path url : Bytes) :
    Prop :=
  ∃ env w f w2 os3, passed env w path url ∧ Complete env (deleted w path) path url f w2 os3 ∧
    (∃ newer, w'.acts = newer ++ (unpacked w2 path url f os3).acts ∧
      ∀ a ∈ newer, a.target ≠ some path) ∧
    Undisturbed path os3 w'.os

section LastDone

variable {passed : Env ζ ξ → World → Bytes → Bytes → Prop}

theorem LastDone.later (h : LastDone passed w path url) {new : List Act}
    (hacts : w'.acts = new ++ w.acts) (hnew : ∀ a ∈ new, a.target ≠ some path)
    (hpath : Undisturbed path w.os w'.os) : LastDone passed w' path url := by
  obtain ⟨env, w1, f, w2, os3, hpassed, hcomplete, ⟨newer, hacts', hnewer⟩, hpath'⟩ := h
  refine ⟨env, w1, f, w2, os3, hpassed, hcomplete, ⟨new ++ newer, ?_, ?_⟩, hpath'.trans hpath⟩
  · rw [hacts, hacts', List.append_assoc]
  · intro a ha
    rcases List.mem_append.mp ha with ha | ha
    · exact hnew a ha
    · exact hnewer a ha

theorem LastDone.mono {passed' : Env ζ ξ → World → Bytes → Bytes → Prop}
    (h : LastDone passed w path url)
    (hpassed : ∀ env w1 path url, passed env w1 path url → passed' env w1 path url) :
    LastDone passed' w path url := by
  obtain ⟨env, w1, f, w2, os3, hline, hrest⟩ := h
  exact ⟨env, w1, f, w2, os3, hpassed env w1 path url hline, hrest⟩

end LastDone

/-- What is done to the own files does not disturb a path that is clear of them. -/
theorem Home.undisturbed {names : List Name} {os os' : OS} (h : Home os) (ho : Only names os os')
    (hnames : ∀ n ∈ names, n ∈ ownNames) (hclear : ClearOf ownNames path os) :
    Undisturbed path os os' :=
  ho.undisturbed (fun n hn => h n (hnames n hn)) hnames hclear

/-! ## Lines that keep the truth -/

/-- A line that was not found in `download.done`, in the world in which it is reached. -/
structure SteadyLine (env : Env ζ ξ) (w : World) (path url : Bytes) : Prop where
  named : path ≠ []
  fits : (entryLine (path, url)).length ≤ 255
  /-- What another path with an entry leads to is neither deleted nor extracted to. -/
  others : ∀ q v, query w.os doneName q v = some .matched → q ≠ path →
    Undisturbed q w.os (deleted w path).os ∧
      ∀ f w2, fetch env (deleted w path) url = (.next, some f, w2) →
        Undisturbed q w2.os (unpack env w2.os path url f).2
  /-- If the path has an entry, which is one for another url, the line does not break off. -/
  finishes : (∃ v, query w.os doneName path v = some .matched) →
    (installEntry env w path url).1 = .next
  spares : Spares doneName env w path url
  /-- An extraction that returns 0 is complete, and has not led to the own files. -/
  completes : ∀ f w2 os3, fetch env (deleted w path) url = (.next, some f, w2) →
    unpack env w2.os path url f = (.next, os3) →
    Complete env (deleted w path) path url f w2 os3 ∧ ClearOf ownNames path os3

def Steady (env : Env ζ ξ) (w : World) (path url : Bytes) : Prop :=
  (testMap w.os doneName path url).1 ≠ some .matched → SteadyLine env w path url

/-- The world between two lines, when all that `download.done` says is true, with the possible
exception of what it says of some paths. -/
structure TruthfulBut (passed : Env ζ ξ → World → Bytes → Bytes → Prop) (w : World)
    (es : List (Bytes × Bytes)) (doubted : Bytes → Prop) : Prop where
  home : Home w.os
  holds : Holds w.os doneName es
  entries : ∀ e ∈ es, Entry e
  last : ∀ e ∈ es, ¬ doubted e.1 → LastDone passed w e.1 e.2
  clear : ∀ e ∈ es, ¬ doubted e.1 → ClearOf ownNames e.1 w.os

def Truthful (passed : Env ζ ξ → World → Bytes → Bytes → Prop) (w : World)
    (es : List (Bytes × Bytes)) : Prop :=
  TruthfulBut passed w es fun _ => False

section Truthful

variable {passed : Env ζ ξ → World → Bytes → Bytes → Prop}

theorem TruthfulBut.truthful {doubted : Bytes → Prop} (h : TruthfulBut passed w es doubted)
    (hno : ∀ e ∈ es, ¬ doubted e.1) : Truthful passed w es :=
  ⟨h.home, h.holds, h.entries, fun e he _ => h.last e he (hno e he),
    fun e he _ => h.clear e he (hno e he)⟩

theorem TruthfulBut.mono {passed' : Env ζ ξ → World → Bytes → Bytes → Prop}
    {doubted : Bytes → Prop} (h : TruthfulBut passed w es doubted)
    (hpassed : ∀ env w1 path url, passed env w1 path url → passed' env w1 path url) :
    TruthfulBut passed' w es doubted :=
  ⟨h.home, h.holds, h.entries, fun e he hno => (h.last e he hno).mono hpassed, h.clear⟩

/-- Something is done, but not to a path that is not in doubt. -/
theorem TruthfulBut.step {doubted doubted' : Bytes → Prop} (h : TruthfulBut passed w es doubted)
    (new : List Act) (hspared : Spared doneName w.os w'.os) (hacts : w'.acts = new ++ w.acts)
    (hdoubted : ∀ p, doubted p → doubted' p)
    (hnew : ∀ e ∈ es, ¬ doubted' e.1 →
      (∀ a ∈ new, a.target ≠ some e.1) ∧ Undisturbed e.1 w.os w'.os) :
    TruthfulBut passed w' es doubted' where
  home := hspared.home
  holds := h.holds.of_get hspared.same
  entries := h.entries
  last e he hno := by
    have hold := h.last e he fun hd => hno (hdoubted _ hd)
    exact hold.later hacts (hnew e he hno).1 (hnew e he hno).2
  clear e he hno := by
    have hold := h.clear e he fun hd => hno (hdoubted _ hd)
    exact hold.undisturbed hspared.cwd (hnew e he hno).2

/-- An act for `path` leaves the other entries. -/
theorem TruthfulBut.act {doubted : Bytes → Prop} (h : TruthfulBut passed w es doubted) {a : Act}
    {os : OS} (htarget : a.target = some path) (hspared : Spared doneName w.os os)
    (hdoubted : ∀ p, doubted p → p = path)
    (hothers : ∀ e ∈ es, e.1 ≠ path → Undisturbed e.1 w.os os) :
    TruthfulBut passed { w.act a with os := os } es (· = path) := by
  refine h.step [a] hspared rfl hdoubted fun e he hne => ⟨fun b hb hsame => ?_, hothers e he hne⟩
  rw [List.mem_singleton.mp hb, htarget] at hsame
  exact hne (Option.some.inj hsame).symm

/-- What is done to the own files. -/
theorem TruthfulBut.own {doubted : Bytes → Prop} {names : List Name}
    (h : TruthfulBut passed w es doubted) (new : List Act) (hacts : w'.acts = new ++ w.acts)
    (hnone : ∀ a ∈ new, a.target = none) (honly : Only names w.os w'.os)
    (hnames : ∀ n ∈ names, n ∈ ownNames) (hdone : doneName ∉ names) :
    TruthfulBut passed w' es doubted := by
  refine h.step new (Spared.of_only h.home honly hdone) hacts (fun _ hp => hp) ?_
  intro e he hno
  constructor
  · intro a ha htarget
    rw [hnone a ha] at htarget
    cases htarget
  · exact h.home.undisturbed honly hnames (h.clear e he hno)

theorem TruthfulBut.query (h : TruthfulBut passed w es fun _ => False) {e : Bytes × Bytes}
    (he : e ∈ es) : ∃ v, query w.os doneName e.1 v = some .matched := by
  cases hlookup : es.lookup e.1 with
  | none => exact absurd rfl (lookup_eq_none_iff.mp hlookup e he)
  | some v =>
    refine ⟨v, ?_⟩
    rw [query_holds (home_done h.home) h.holds h.entries, hlookup, answer, if_pos rfl]

/-- The new entry is true, and the others are as before. -/
theorem TruthfulBut.recordLine (h : TruthfulBut passed w es (· = path)) (he : Entry (path, url))
    (hlast : LastDone passed w path url) (hclear : ClearOf ownNames path w.os)
    (hknown : (∃ e ∈ es, e.1 = path) → (recordLine w path url).1 = .next) :
    ∃ es', Truthful passed (ToolchainTools.recordLine w path url).2 es' := by
  obtain ⟨es', hholds, hentries, hfrom, hzero⟩ :=
    updateMap_sound h.home.doneDir h.holds h.entries he
  have honly := only_updateMap path url h.home.doneDir
  have hnext : (ToolchainTools.recordLine w path url).1 = .next →
      (updateMap w.os doneName path url).1 = some 0 := by
    unfold ToolchainTools.recordLine
    split
    · intro hnext
      cases hnext
    · rename_i err os1 heq
      intro hnext
      rw [heq]
      split at hnext
      · rename_i hzero
        rw [hzero]
      · cases hnext
  -- the entries of the old map that are left are still true, and so is the new one
  have htrue : ∀ e ∈ es', LastDone passed w e.1 e.2 ∧ ClearOf ownNames e.1 w.os := by
    intro e hmem
    by_cases hkey : e.1 = path
    · have hnew : e = (path, url) := by
        rcases hfrom e hmem with hold | hnew
        · exact hzero (hnext (hknown ⟨e, hold, hkey⟩)) e hmem hkey
        · exact hnew
      rw [hnew]
      exact ⟨hlast, hclear⟩
    · rcases hfrom e hmem with hold | hnew
      · exact ⟨h.last e hold hkey, h.clear e hold hkey⟩
      · rw [hnew] at hkey
        exact absurd rfl hkey
  have hpath : ∀ e ∈ es', Undisturbed e.1 w.os (updateMap w.os doneName path url).2 :=
    fun e hmem => h.home.undisturbed honly (by simp [ownNames]) (htrue e hmem).2
  rw [recordLine_world]
  refine ⟨es', h.home.only honly, hholds, hentries, fun e hmem _ => ?_, fun e hmem _ => ?_⟩
  · exact LastDone.later (htrue e hmem).1 (List.nil_append _).symm (by simp) (hpath e hmem)
  · exact (htrue e hmem).2.undisturbed honly.goes.cwd (hpath e hmem)

/-- A steady line keeps the truth, wherever it ends. -/
theorem Truthful.installEntry (h : Truthful passed w es) (hpath : Field path) (hurl : Field url)
    (hsteady : Steady env w path url) (hpassed : passed env w path url) :
    ∃ es', Truthful passed (ToolchainTools.installEntry env w path url).2 es' := by
  have hends := installEntry_ends env w path url
  have hfinish : (testMap w.os doneName path url).1 ≠ some .matched → (∃ e ∈ es, e.1 = path) →
      (ToolchainTools.installEntry env w path url).1 = .next := by
    rintro hnot ⟨e, he, rfl⟩
    exact (hsteady hnot).finishes (h.query he)
  have hothers : (testMap w.os doneName path url).1 ≠ some .matched → ∀ e ∈ es, e.1 ≠ path →
      Undisturbed e.1 w.os (deleted w path).os ∧
        ∀ f w2, fetch env (deleted w path) url = (.next, some f, w2) →
          Undisturbed e.1 w2.os (unpack env w2.os path url f).2 := by
    intro hnot e he hne
    obtain ⟨v, hv⟩ := h.query he
    exact (hsteady hnot).others e.1 v hv hne
  -- while the line is worked on, all entries but those for the path are true
  have hfetched : (testMap w.os doneName path url).1 ≠ some .matched →
      TruthfulBut passed (fetch env (deleted w path) url).2.2 es (· = path) := by
    intro hnot
    have hdeleted : TruthfulBut passed (deleted w path) es (· = path) :=
      h.act (show (Act.delete path).target = some path from rfl) (hsteady hnot).spares.1
        (fun _ hf => hf.elim) fun e he hne => (hothers hnot e he hne).1
    obtain ⟨new, hacts, hnone⟩ := fetch_acts env (deleted w path) url
    exact hdeleted.own new hacts hnone (only_fetch env hdeleted.home url)
      (by simp [fetchNames, ownNames]) done_not_mem_fetchNames.1
  have hunpacked : ∀ f w2, (testMap w.os doneName path url).1 ≠ some .matched →
      fetch env (deleted w path) url = (.next, some f, w2) →
      TruthfulBut passed
        { w2.act (.extract path url f.content) with os := (unpack env w2.os path url f).2 } es
        (· = path) := by
    intro f w2 hnot hfetch
    have htrue := hfetched hnot
    rw [hfetch] at htrue
    exact htrue.act rfl ((hsteady hnot).spares.2 f w2 hfetch) (fun _ hp => hp)
      fun e he hne => (hothers hnot e he hne).2 f w2 hfetch
  have hremoved : ∀ w1, TruthfulBut passed w1 es (· = path) →
      TruthfulBut passed { w1 with os := w1.os.unlink tmpName } es (· = path) := by
    intro w1 htrue
    exact htrue.own [] rfl (by simp) (home_tmp htrue.home).only_unlink (by simp [ownNames])
      (by simpa using own_ne.2.2.2.1)
  generalize ToolchainTools.installEntry env w path url = r at hends hfinish ⊢
  cases hends with
  | looked o _ =>
    exact ⟨es, h.own [] rfl (by simp) (.tick [] w.os) (by simp) (by simp)⟩
  | unfetched hnot hfetch ho =>
    have htrue := hfetched hnot
    rw [hfetch] at htrue
    exact ⟨es, htrue.truthful fun e he hp => ho (hfinish hnot ⟨e, he, hp⟩)⟩
  | @failed o f w2 os3 os4 hnot hfetch hunpack ho hend =>
    have htrue := hunpacked f w2 hnot hfetch
    rw [hunpack] at htrue
    have htrue' : TruthfulBut passed { w2.act (.extract path url f.content) with os := os4 } es
        (· = path) := by
      rcases hend with rfl | rfl
      · exact htrue
      · exact hremoved _ htrue
    exact ⟨es, htrue'.truthful fun e he hp => ho (hfinish hnot ⟨e, he, hp⟩)⟩
  | @recorded f w2 os3 hnot hfetch hunpack =>
    have htrue := hunpacked f w2 hnot hfetch
    rw [hunpack] at htrue
    obtain ⟨hcomplete, hclear⟩ := (hsteady hnot).completes f w2 os3 hfetch hunpack
    have hunlink : Only [tmpName] os3 (os3.unlink tmpName) := (home_tmp htrue.home).only_unlink
    have hself : Undisturbed path os3 (os3.unlink tmpName) :=
      htrue.home.undisturbed hunlink (by simp [ownNames]) hclear
    have htrue' : TruthfulBut passed (unpacked w2 path url f os3) es (· = path) := by
      have hstill : Spared doneName (os3.unlink tmpName) (os3.unlink tmpName) :=
        .of_only (hremoved _ htrue).home (.refl [] _) (by simp)
      exact (hremoved _ htrue).act (show (Act.extracted path url).target = some path from rfl)
        hstill (fun _ hp => hp) fun e _ _ => .refl e.1 _
    have hlast : LastDone passed (unpacked w2 path url f os3) path url :=
      ⟨env, w, f, w2, os3, hpassed, hcomplete, ⟨[], rfl, by simp⟩, hself⟩
    have hfits := (hsteady hnot).fits
    exact htrue'.recordLine ⟨hpath, (hsteady hnot).named, hurl, by omega⟩ hlast
      (hclear.undisturbed hunlink.goes.cwd hself) (hfinish hnot)

theorem Truthful.openManifest (h : Truthful passed w es) :
    Truthful passed (ToolchainTools.openManifest w).2 es := by
  obtain ⟨hacts, honly⟩ := openManifest_only h.home
  exact h.own [] hacts (by simp) honly (by simp [ownNames])
    (by simpa using own_ne.2.2.2.2.2.2.1.symm)

end Truthful

/-! ## Histories -/

end ToolchainTools
