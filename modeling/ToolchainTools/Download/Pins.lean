import ToolchainTools.Download.Hashing
import ToolchainTools.Download.Histories
import ToolchainTools.Stream.HttpLimit

/-!
# Hashes stay pinned

The first download of an http url pins its hash in `download.hash`, and no later update removes
or replaces it: `main` puts an entry there only if the url has none. What is hashed on the way to
`download.tmp` is what is read back from there, so what is handed to extraction has the pinned
hash, in every run of a history in which nothing else writes to `download.hash`
(`hash_pins_permanent`).
-/

namespace ToolchainTools

open CLib Posix Streams

variable {ζ ξ : Type} {env : Env ζ ξ} {sha : Bytes → Fin 32 → UInt8} {w w' : World}
  {os os' : OS} {path url str : Bytes} {es es' : List (Bytes × Bytes)}

/-! ## The text of a hash -/

theorem trim_of_not_blank {s : Bytes} (h : ∀ b ∈ s, isBlankEnd b = false) : trim s = s := by
  have hfront : s.dropWhile isBlank = s := by
    rw [List.dropWhile_eq_self_iff]
    intro hpos
    have hb := h s[0] (List.getElem_mem hpos)
    simp only [isBlankEnd, isBlank, Bool.or_eq_false_iff, decide_eq_false_iff_not,
      decide_eq_true_eq, Bool.or_eq_true] at hb ⊢
    tauto
  have hback : s.reverse.dropWhile isBlankEnd = s.reverse := by
    rw [List.dropWhile_eq_self_iff]
    intro hpos
    have hb := h s.reverse[0] (List.mem_reverse.mp (List.getElem_mem hpos))
    rw [hb]
    exact Bool.false_ne_true
  rw [trim, trimBy, hfront, hback, List.reverse_reverse]

/-- Bytes that neither separate fields nor are trimmed off. -/
def isPlainByte (b : UInt8) : Bool := !isBlankEnd b && b ≠ comma && b ≠ 0

theorem field_of_plain {s : Bytes} (h : ∀ b ∈ s, isPlainByte b = true) : Field s where
  comma := fun hmem => absurd (h _ hmem) (by decide)
  eol := fun hmem => absurd (h _ hmem) (by decide)
  nul := fun hmem => absurd (h _ hmem) (by decide)
  trim := by
    refine trim_of_not_blank fun b hb => ?_
    have hplain := h b hb
    simp only [isPlainByte, Bool.and_eq_true, Bool.not_eq_true'] at hplain
    exact hplain.1.1

theorem field_hashText (hash : Fin 32 → UInt8) : Field (hashText hash) := by
  have hdigit : ∀ n : Fin 16, isPlainByte (hexLower n) = true := by decide
  refine field_of_plain fun b hb => ?_
  rcases List.mem_append.mp hb with hb | hb
  · have hlabel : (lit "sha256:").all isPlainByte = true := by decide
    exact List.all_eq_true.mp hlabel b hb
  · obtain ⟨c, -, hb⟩ := List.mem_flatMap.mp hb
    have hc := c.toNat_lt
    rcases List.mem_cons.mp hb with rfl | hb
    · exact hdigit ⟨c.toNat / 16, by omega⟩
    · rw [List.mem_singleton.mp hb]
      exact hdigit ⟨c.toNat % 16, by omega⟩

theorem length_hashText (hash : Fin 32 → UInt8) : (hashText hash).length = 71 := by
  rw [hashText, List.length_append, List.length_flatMap]
  simp [lit]

theorem http_ne_nil (h : isHttpUrl url = true) : url ≠ [] := by
  rintro rfl
  exact absurd h (by decide)

/-! ## Pins -/

/-- Whatever has a value keeps it. -/
def Extends (es es' : List (Bytes × Bytes)) : Prop :=
  ∀ k v, es.lookup k = some v → es'.lookup k = some v

theorem Extends.refl (es : List (Bytes × Bytes)) : Extends es es := fun _ _ h => h

theorem Extends.trans {es'' : List (Bytes × Bytes)} (h : Extends es es') (h' : Extends es' es'') :
    Extends es es'' := fun k v hk => h' k v (h k v hk)

theorem lookup_put (k : Bytes) :
    (put es url str).lookup k = Function.update (mapOf es) url (some str) k :=
  congrFun (mapOf_put url str es) k

theorem extends_put (hnone : es.lookup url = none) : Extends es (put es url str) := by
  intro k v hk
  have hne : k ≠ url := by
    rintro rfl
    rw [hnone] at hk
    cases hk
  rw [lookup_put, Function.update_of_ne hne]
  exact hk

/-- The check of a hash leaves the pins as they are, and if it lets the line go on the url is
pinned to this hash. -/
theorem checkHash_pins (hhome : Home os) (hgood : ∀ k, os.fault k = false)
    (hh : Holds os hashName es) (hes : ∀ e ∈ es, Entry e) (he : Entry (url, str)) :
    ∃ es', Holds (checkHash os url str).2 hashName es' ∧ (∀ e ∈ es', Entry e) ∧ Extends es es' ∧
      ((checkHash os url str).1 = .next → es'.lookup url = some str) := by
  have htest := testMap_holds (home_hash hhome) hh hes (hgood _) url str
  have hkept : Holds os.tick hashName es := hh
  unfold checkHash
  rw [htest]
  cases hlookup : es.lookup url with
  | some v =>
    by_cases hv : v = str
    · rw [show answer (some v) str = .matched by rw [answer, if_pos hv]]
      exact ⟨es, hkept, hes, .refl es, fun _ => by rw [hlookup, hv]⟩
    · rw [show answer (some v) str = .mismatch by rw [answer, if_neg hv]]
      exact ⟨es, hkept, hes, .refl es, fun h => by cases h⟩
  | none =>
    rw [show answer none str = .noval from rfl]
    have hd : MapDir os.tick hashName := (hhome.only (.tick [] os)).hashDir
    dsimp only
    cases hupdate : updateMap os.tick hashName url str with
    | mk code os1 =>
    obtain ⟨rfl, hput, -⟩ := updateMap_put hd hkept hes hupdate fun k _ _ => hgood k
    exact ⟨put es url str, hput, entry_put hes he, extends_put hlookup,
      fun _ => by rw [lookup_put, Function.update_self]⟩

/-- What is read back from a file is what is in it. -/
theorem fopenUpdate_content {name : Name} {f : CFile} {c : Bytes} {m : Int}
    (h : Slot os name) (hfile : os.fs.get (os.at name) = some (.file c m))
    (hopen : (os.fopenUpdate name).1 = some f) : f.content = c := by
  have hloc : os.tick.locate true name = some (os.at name) := h.locate true
  have hfile' : os.tick.fs.get (os.at name) = some (.file c m) := hfile
  unfold OS.fopenUpdate OS.call at hopen
  split at hopen
  · cases hopen
  · dsimp only at hopen
    rw [hloc, Option.bind_some, hfile'] at hopen
    cases hopen
    rfl

/-- Whatever the server does, the pins stay, and the file that the line goes on with has the hash
that the url is pinned to. -/
theorem fetchHttp_pins (env : Env ζ ξ) (hhome : Home w.os) (hgood : ∀ k, w.os.fault k = false)
    (hh : Holds w.os hashName es) (hes : ∀ e ∈ es, Entry e)
    (he : ∀ hash, Entry (url, hashText hash)) :
    ∃ es', Holds (fetchHttp env w url).2.2.os hashName es' ∧ (∀ e ∈ es', Entry e) ∧
      Extends es es' ∧ ∀ f, (fetchHttp env w url).2.1 = some f →
        es'.lookup url = some (hashText (env.sha256 f.content)) := by
  have hkept : ∀ {os : OS}, Only [tmpName] w.os os → Holds os hashName es := fun ho =>
    hh.of_get (ho.get_slot (by simpa using own_ne.2.2.2.2.1))
  obtain ⟨hopen, hopened⟩ := (home_tmp hhome).only_fopenWrite
  unfold fetchHttp
  dsimp only
  split
  · exact ⟨es, hh, hes, .refl es, by simp⟩
  · exact ⟨es, hh, hes, .refl es, by simp⟩
  · rename_i s total _
    rw [show (w.act (.connect url)).os = w.os from rfl]
    split
    · rename_i os1 heq
      rw [heq] at hopen
      exact ⟨es, hkept hopen, hes, .refl es, by simp⟩
    · rename_i f os1 heq
      rw [heq] at hopen hopened
      obtain ⟨hf, m, hempty⟩ := hopened f rfl
      have honly := hopen.trans (only_extractFile (readHash readHttps) env.fuel (openHash s)
        (hf.trans (hopen.goes.at_eq tmpName).symm))
      rw [← hf] at hempty
      have hwritten : ∀ {r}, extractFile (readHash readHttps) env.fuel (openHash s) f os1 = r →
          r.code = some 0 → r.os.fs.get f = some (.file ([] ++ r.s.absorbed) m) :=
        fun hr hcode => extractFile_absorbed hempty hr hcode
      generalize extractFile (readHash readHttps) env.fuel (openHash s) f os1 = r
        at honly hwritten ⊢
      split
      · exact ⟨es, hkept honly, hes, .refl es, by simp⟩
      · rename_i err hcode
        split
        · exact ⟨es, hkept honly, hes, .refl es, by simp⟩
        · rename_i hzero
          rw [not_not.mp hzero] at hcode
          have hfile := hwritten rfl hcode
          have hhome1 := hhome.only honly
          obtain ⟨es', hh', hes', hext, hpin⟩ := checkHash_pins hhome1
            (fun k => by rw [honly.goes.fault]; exact hgood k) (hkept honly) hes
            (he (env.sha256 r.s.absorbed))
          have hcheck := only_checkHash hhome1 url (hashText (env.sha256 r.s.absorbed))
          split
          · rename_i os2 hnext
            rw [hnext] at hh' hpin hcheck
            have hreopen := fopenUpdate_os os2 tmpName
            -- the check of the hash has not touched the file
            have hsame : os2.fs.get (os2.at tmpName) = some (.file ([] ++ r.s.absorbed) m) := by
              rw [hcheck.get_slot (by simpa using ⟨own_ne.2.2.2.2.2.1.symm, own_ne.2.2.2.2.1.symm⟩),
                honly.goes.at_eq, ← hf]
              exact hfile
            split
            · rename_i os3 hnone
              rw [hnone] at hreopen
              obtain rfl : os3 = os2.tick := hreopen
              exact ⟨es', hh', hes', hext, by simp⟩
            · rename_i f' os3 hsome
              rw [hsome] at hreopen
              obtain rfl : os3 = os2.tick := hreopen
              refine ⟨es', hh', hes', hext, fun g hg => ?_⟩
              obtain rfl : f' = g := Option.some.inj hg
              rw [fopenUpdate_content (home_tmp (hhome1.only hcheck)) hsame (by rw [hsome])]
              exact hpin rfl
          · rename_i outcome os2 _ heq'
            rw [heq'] at hh'
            exact ⟨es', hh', hes', hext, by simp⟩

/-! ## Lines -/

/-- A line that was not found in `download.done`, in the world in which it is reached. -/
structure PinningLine (env : Env ζ ξ) (w : World) (path url : Bytes) : Prop where
  fits : isHttpUrl url = true → ∀ hash, (entryLine (url, hashText hash)).length ≤ 255
  spares : Spares hashName env w path url

def Pinning (sha : Bytes → Fin 32 → UInt8) (env : Env ζ ξ) (w : World) (path url : Bytes) : Prop :=
  env.sha256 = sha ∧ ((testMap w.os doneName path url).1 ≠ some .matched →
    PinningLine env w path url)

/-- The world between two lines, when all that has been handed to extraction from http urls has
the hash that its url is pinned to. -/
structure Pinned (sha : Bytes → Fin 32 → UInt8) (w : World) (es : List (Bytes × Bytes)) : Prop where
  home : Home w.os
  calm : ∀ k, w.os.fault k = false
  holds : Holds w.os hashName es
  entries : ∀ e ∈ es, Entry e
  passed : ∀ path url content, Act.extract path url content ∈ w.acts → isHttpUrl url = true →
    es.lookup url = some (hashText (sha content))

/-- What leaves `download.hash` as it is, and hands nothing else to extraction. -/
theorem Pinned.step (h : Pinned sha w es) (new : List Act) (hspared : Spared hashName w.os w'.os)
    (hfault : w'.os.fault = w.os.fault) (hacts : w'.acts = new ++ w.acts)
    (hnew : ∀ path url content, Act.extract path url content ∈ new → isHttpUrl url = true →
      es.lookup url = some (hashText (sha content))) : Pinned sha w' es where
  home := hspared.home
  calm k := by rw [hfault]; exact h.calm k
  holds := h.holds.of_get hspared.same
  entries := h.entries
  passed p u content hmem := by
    rw [hacts] at hmem
    rcases List.mem_append.mp hmem with hmem | hmem
    · exact hnew p u content hmem
    · exact h.passed p u content hmem

theorem Pinned.fetch (h : Pinned env.sha256 w es) (hurl : Field url)
    (hfits : isHttpUrl url = true → ∀ hash, (entryLine (url, hashText hash)).length ≤ 255) :
    ∃ es', Extends es es' ∧ Pinned env.sha256 (ToolchainTools.fetch env w url).2.2 es' ∧
      ∀ f, (ToolchainTools.fetch env w url).2.1 = some f → isHttpUrl url = true →
        es'.lookup url = some (hashText (env.sha256 f.content)) := by
  have honly := only_fetch env h.home url
  obtain ⟨new, hacts, hnone⟩ := fetch_acts env w url
  have hlater : ∀ es', Holds (ToolchainTools.fetch env w url).2.2.os hashName es' →
      (∀ e ∈ es', Entry e) → Extends es es' →
        Pinned env.sha256 (ToolchainTools.fetch env w url).2.2 es' := by
    intro es' hh hes hext
    refine ⟨h.home.only honly, fun k => by rw [honly.goes.fault]; exact h.calm k, hh, hes, ?_⟩
    intro p u content hmem hhttp
    rw [hacts] at hmem
    rcases List.mem_append.mp hmem with hmem | hmem
    · cases hnone _ hmem
    · exact hext _ _ (h.passed p u content hmem hhttp)
  by_cases hhttp : isHttpUrl url = true
  · obtain ⟨es', hh, hes, hext, hpin⟩ := fetchHttp_pins env h.home h.calm h.holds h.entries
      fun hash => ⟨hurl, http_ne_nil hhttp, field_hashText hash, Nat.lt_succ_of_le (hfits hhttp hash)⟩
    have hfetch : ToolchainTools.fetch env w url = fetchHttp env w url := if_pos hhttp
    rw [← hfetch] at hh hpin
    exact ⟨es', hext, hlater es' hh hes hext, fun f hf _ => hpin f hf⟩
  · -- no other url touches the pins
    have hsame : (ToolchainTools.fetch env w url).2.2.os.fs = w.os.fs := by
      have hread := OS.fopenRead_os w.os (url.drop (lit "file:").length)
      unfold ToolchainTools.fetch
      rw [if_neg hhttp]
      split
      · dsimp only
        split
        all_goals
          rename_i heq
          rw [show (w.act (.openSource (url.drop (lit "file:").length))).os = w.os from rfl] at heq
          rw [heq] at hread
          dsimp only at hread ⊢
          rw [hread]
          rfl
      · rfl
    have hh : Holds (ToolchainTools.fetch env w url).2.2.os hashName es :=
      h.holds.of_get (by rw [honly.goes.at_eq, hsame])
    exact ⟨es, .refl es, hlater es hh h.entries (.refl es), fun _ _ hyes => absurd hyes hhttp⟩

/-- A line keeps the pins, wherever it ends. -/
theorem Pinned.installEntry (h : Pinned sha w es) (hurl : Field url)
    (hline : Pinning sha env w path url) :
    ∃ es', Extends es es' ∧ Pinned sha (ToolchainTools.installEntry env w path url).2 es' := by
  obtain ⟨rfl, hline⟩ := hline
  have hends := installEntry_ends env w path url
  have hfetched : (testMap w.os doneName path url).1 ≠ some .matched →
      ∃ es', Extends es es' ∧
        Pinned env.sha256 (ToolchainTools.fetch env (deleted w path) url).2.2 es' ∧
        ∀ f, (ToolchainTools.fetch env (deleted w path) url).2.1 = some f → isHttpUrl url = true →
          es'.lookup url = some (hashText (env.sha256 f.content)) := by
    intro hnot
    have hdeleted : Pinned env.sha256 (deleted w path) es :=
      h.step [.delete path] (hline hnot).spares.1 (goes_deleted w path).fault rfl
        (by simp)
    exact hdeleted.fetch hurl (hline hnot).fits
  have hextract : ∀ {f : CFile} {es' : List (Bytes × Bytes)}, (isHttpUrl url = true →
      es'.lookup url = some (hashText (env.sha256 f.content))) →
      ∀ p u content, Act.extract p u content = .extract path url f.content →
        isHttpUrl u = true → es'.lookup u = some (hashText (env.sha256 content)) := by
    rintro f es' hpin p u content heq hhttp
    cases heq
    exact hpin hhttp
  generalize ToolchainTools.installEntry env w path url = r at hends ⊢
  cases hends with
  | looked o _ =>
    exact ⟨es, .refl es, h.step [] (.of_only h.home (.tick [] w.os) (by simp)) rfl rfl (by simp)⟩
  | unfetched hnot hfetch _ =>
    obtain ⟨es', hext, hpinned, -⟩ := hfetched hnot
    rw [hfetch] at hpinned
    exact ⟨es', hext, hpinned⟩
  | @failed o f w2 os3 os4 hnot hfetch hunpack _ hend =>
    obtain ⟨es', hext, hpinned, hpin⟩ := hfetched hnot
    have hspared := (hline hnot).spares.2 f w2 hfetch
    have hgoes := goes_unpack env w2.os path url f
    rw [hunpack] at hspared hgoes
    rw [hfetch] at hpinned hpin
    have hend' : Spared hashName w2.os os4 ∧ os4.fault = w2.os.fault := by
      rcases hend with rfl | rfl
      · exact ⟨hspared, hgoes.fault⟩
      · exact ⟨hspared.unlink_tmp (by decide), (hgoes.trans (goes_unlink os3 tmpName)).fault⟩
    refine ⟨es', hext, hpinned.step [.extract path url f.content] hend'.1 hend'.2 rfl ?_⟩
    intro p u content hmem
    exact hextract (hpin f rfl) p u content (List.mem_singleton.mp hmem)
  | @recorded f w2 os3 hnot hfetch hunpack =>
    obtain ⟨es', hext, hpinned, hpin⟩ := hfetched hnot
    have hspared := (hline hnot).spares.2 f w2 hfetch
    have hgoes := goes_unpack env w2.os path url f
    rw [hunpack] at hspared hgoes
    rw [hfetch] at hpinned hpin
    have hunlinked : Pinned env.sha256 (unpacked w2 path url f os3) es' := by
      refine hpinned.step [.extracted path url, .extract path url f.content]
        (hspared.unlink_tmp (by decide)) (hgoes.trans (goes_unlink os3 tmpName)).fault rfl ?_
      intro p u content hmem
      rcases List.mem_cons.mp hmem with hno | hmem
      · cases hno
      · exact hextract (hpin f rfl) p u content (List.mem_singleton.mp hmem)
    have honly := only_updateMap path url hunlinked.home.doneDir
    refine ⟨es', hext, hunlinked.step [] ?_ ?_ ?_ (by simp)⟩
    · rw [recordLine_world]
      exact .of_only hunlinked.home honly (by decide)
    · rw [recordLine_world]
      exact honly.goes.fault
    · rw [recordLine_world]
      rfl

/-! ## Histories -/

/-- Some pins extend these, and all that has been handed to extraction has its hash in them. -/
def PinnedFrom (sha : Bytes → Fin 32 → UInt8) (es : List (Bytes × Bytes)) (w : World) : Prop :=
  ∃ es', Extends es es' ∧ Pinned sha w es'

theorem Pinned.openManifest (h : Pinned sha w es) :
    Pinned sha (ToolchainTools.openManifest w).2 es := by
  obtain ⟨hacts, honly⟩ := openManifest_only h.home
  exact h.step [] (.of_only h.home honly (by decide)) honly.goes.fault hacts (by simp)

theorem PinnedFrom.installEntry (h : PinnedFrom sha es w) (hurl : Field url)
    (hline : Pinning sha env w path url) :
    PinnedFrom sha es (ToolchainTools.installEntry env w path url).2 := by
  obtain ⟨es', hext, hpinned⟩ := h
  obtain ⟨es'', hext', hpinned'⟩ := hpinned.installEntry hurl hline
  exact ⟨es'', hext.trans hext', hpinned'⟩

theorem Pinned.mainLoop {lines : List Bytes} (h : Pinned sha w es)
    (hplain : ∀ line ∈ lines, PlainLine line) (hlines : AtLines env w lines (Pinning sha env)) :
    PinnedFrom sha es (ToolchainTools.mainLoop env w lines).2 :=
  mainLoop_keeps hplain hlines (fun _ _ _ hw _ hurl hline => hw.installEntry hurl hline)
    ⟨es, .refl es, h⟩

theorem Pinned.main (h : Pinned sha w es) (hrun : AtRun (Pinning sha) env w) :
    PinnedFrom sha es (ToolchainTools.main env w).2 :=
  main_keeps hrun ⟨es, .refl es, h.openManifest⟩
    fun _ _ _ hw _ hurl hline => hw.installEntry hurl hline

/-- Others leave `download.hash` alone, and the calls to come succeed. -/
def LeavesPins (os os' : OS) : Prop := Spared hashName os os' ∧ ∀ k, os'.fault k = false

theorem Pinned.later (h : Pinned sha w es)
    (hlater : @Later ζ ξ (AtRun (Pinning sha)) LeavesPins w w') : PinnedFrom sha es w' := by
  refine hlater.keeps (I := PinnedFrom sha es) ?_ ?_ ⟨es, .refl es, h⟩
  · rintro env w1 hrun ⟨es1, hext, hpinned⟩
    obtain ⟨es2, hext', hpinned'⟩ := hpinned.main hrun
    exact ⟨es2, hext.trans hext', hpinned'⟩
  · rintro w1 os ⟨hspared, hcalm⟩ ⟨es1, hext, hpinned⟩
    exact ⟨es1, hext, hspared.home, hcalm, hpinned.holds.of_get hspared.same, hpinned.entries,
      hpinned.passed⟩

theorem Pinned.query_iff (h : Pinned sha w es) {url v : Bytes} :
    query w.os hashName url v = some .matched ↔ es.lookup url = some v :=
  query_matched_iff (home_hash h.home) h.holds h.entries

/-- In the line that is reached in `w1`, the pins from before the run are there, and what is pinned
there is still pinned when the run ends. -/
def PinsLast (w : World) (env : Env ζ ξ) (w1 : World) (_ _ : Bytes) : Prop :=
  ∀ url v,
    (query w.os hashName url v = some .matched → query w1.os hashName url v = some .matched) ∧
    (query w1.os hashName url v = some .matched →
      query (main env w).2.os hashName url v = some .matched)

theorem Pinned.atRun (h : Pinned sha w es) (hrun : AtRun (Pinning sha) env w) :
    AtRun (PinsLast w) env w := by
  intro manifest hopen before line after w1 path url hsplit hbefore _ u v
  have hlines := hrun manifest hopen
  have hplain : ∀ l ∈ manifestLines (cstr manifest), PlainLine l := fun _ hl =>
    manifestLines_plain (zero_not_mem_cstr manifest) hl
  have hend : (ToolchainTools.main env w).2 = (ToolchainTools.mainLoop env
      (ToolchainTools.openManifest w).2 (manifestLines (cstr manifest))).2 := main_world hopen
  rw [hsplit] at hlines hplain hend
  obtain ⟨hfirst, hrest⟩ := hlines.split hbefore
  obtain ⟨es1, hext1, hpinned1⟩ := h.openManifest.mainLoop
    (fun l hl => hplain l (List.mem_append_left _ hl)) hfirst
  rw [hbefore] at hpinned1
  obtain ⟨es2, hext2, hpinned2⟩ := hpinned1.mainLoop
    (fun l hl => hplain l (List.mem_append_right _ hl)) hrest
  rw [hend, mainLoop_append hbefore, h.query_iff, hpinned1.query_iff, hpinned2.query_iff]
  exact ⟨hext1 u v, hext2 u v⟩

/-- **Pins are permanent.** In any history without failing calls in which nothing but the checks of
`main` writes to `download.hash`: a value that is there for a url stays, from line to line and from
run to run, and it is the hash of all that has been handed to extraction for this url; and for
each http url from which anything has been handed to extraction there is one. -/
theorem hash_pins_permanent {w w1 w2 : World} (hhome : Home w.os)
    (hgood : ∀ k, w.os.fault k = false) (hh : Holds w.os hashName es) (hes : ∀ e ∈ es, Entry e)
    (hnew : w.acts = []) (h1 : @Later ζ ξ (AtRun (Pinning sha)) LeavesPins w w1)
    (h2 : @Later ζ ξ (AtRun (Pinning sha)) LeavesPins w1 w2) :
    (∀ url v, query w1.os hashName url v = some .matched →
      query w2.os hashName url v = some .matched ∧
      (isHttpUrl url = true → ∀ path content, Act.extract path url content ∈ w2.acts →
        hashText (sha content) = v)) ∧
    (∀ env : Env ζ ξ, AtRun (Pinning sha) env w1 → AtRun (PinsLast w1) env w1) ∧
    ∀ path url content, Act.extract path url content ∈ w2.acts → isHttpUrl url = true →
      query w2.os hashName url (hashText (sha content)) = some .matched := by
  have hbegin : Pinned sha w es := ⟨hhome, hgood, hh, hes, by simp [hnew]⟩
  obtain ⟨es1, -, hpinned1⟩ := hbegin.later h1
  obtain ⟨es2, hext, hpinned2⟩ := hpinned1.later h2
  refine ⟨fun url v hv => ?_, fun env hrun => hpinned1.atRun hrun, fun path url content hmem hhttp =>
    hpinned2.query_iff.mpr (hpinned2.passed path url content hmem hhttp)⟩
  have hlookup := hext url v (hpinned1.query_iff.mp hv)
  refine ⟨hpinned2.query_iff.mpr hlookup, fun hhttp path content hmem => ?_⟩
  exact Option.some.inj ((hpinned2.passed path url content hmem hhttp).symm.trans hlookup)

/-- A body of three bytes under its length. -/
def longerResponse : Bytes := lit "HTTP/1.1 200 OK\r\nContent-Length: 3\r\n\r\nabc"

/-- The first server sends two bytes and the others three, and all contents of one length have one
hash. -/
def online : Env Unit Unit :=
  { offline with
    net := fun n => plainNet (if n = 0 then exactResponse else longerResponse)
    sha256 := fun content _ => UInt8.ofNat content.length
    fuel := 64 }

/-- The manifest asks for two http urls. -/
def httpLines : World := manifestWorld (lit "a,http://h/\nc,http://k/")

/-- What the own files hold during the run. -/
def httpContents : List Bytes :=
  [lit "a,http://h/\nc,http://k/", lit "ab", lit "abc", lit "a,http://h/\n",
    entryLine (lit "http://h/", hashText (online.sha256 (lit "ab"))),
    entryLine (lit "http://h/", hashText (online.sha256 (lit "ab"))) ++
      entryLine (lit "http://k/", hashText (online.sha256 (lit "abc")))]

/-- The worlds in which the lines are reached, and those with the downloads. -/
def atFirstHttp : World := (openManifest httpLines).2

def firstDownloaded : World := (fetch online (deleted atFirstHttp (lit "a")) (lit "http://h/")).2.2

def atSecondHttp : World := (mainLine online atFirstHttp (lit "a,http://h/")).2

def secondDownloaded : World :=
  (fetch online (deleted atSecondHttp (lit "c")) (lit "http://k/")).2.2

/-- The entry of a url of nine bytes fits. -/
theorem fits_nine {url : Bytes} (hurl : url.length = 9) (hash : Fin 32 → UInt8) :
    (entryLine (url, hashText hash)).length ≤ 255 := by
  have hlen := length_hashText hash
  simp only [entryLine, List.length_append, List.length_cons, List.length_nil]
  omega

theorem firstHttp_pinning :
    Pinning online.sha256 online atFirstHttp (lit "a") (lit "http://h/") := by
  have hdeleted : FilesAre httpContents (deleted atFirstHttp (lit "a")).os ∧
      (deleted atFirstHttp (lit "a")).os.fs.get (atFirstHttp.os.at hashName) =
        atFirstHttp.os.fs.get (atFirstHttp.os.at hashName) := by decide
  have hfetched : (fetch online (deleted atFirstHttp (lit "a")) (lit "http://h/")).2.1 =
        some (CFile.ofBytes (lit "ab")) ∧
      FilesAre httpContents (unpack online firstDownloaded.os (lit "a") (lit "http://h/")
        (CFile.ofBytes (lit "ab"))).2 ∧
      (unpack online firstDownloaded.os (lit "a") (lit "http://h/")
        (CFile.ofBytes (lit "ab"))).2.fs.get (firstDownloaded.os.at hashName) =
          firstDownloaded.os.fs.get (firstDownloaded.os.at hashName) := by decide +kernel
  exact ⟨rfl, fun _ => ⟨fun _ => fits_nine (by decide), spares_of_fetched
    (hdeleted.1.spared (goes_deleted ..) hdeleted.2) hfetched.1
    (hfetched.2.1.spared (goes_unpack ..) hfetched.2.2)⟩⟩

theorem secondHttp_pinning :
    Pinning online.sha256 online atSecondHttp (lit "c") (lit "http://k/") := by
  have hdeleted : FilesAre httpContents (deleted atSecondHttp (lit "c")).os ∧
      (deleted atSecondHttp (lit "c")).os.fs.get (atSecondHttp.os.at hashName) =
        atSecondHttp.os.fs.get (atSecondHttp.os.at hashName) := by decide +kernel
  have hfetched : (fetch online (deleted atSecondHttp (lit "c")) (lit "http://k/")).2.1 =
        some (CFile.ofBytes (lit "abc")) ∧
      FilesAre httpContents (unpack online secondDownloaded.os (lit "c") (lit "http://k/")
        (CFile.ofBytes (lit "abc"))).2 ∧
      (unpack online secondDownloaded.os (lit "c") (lit "http://k/")
        (CFile.ofBytes (lit "abc"))).2.fs.get (secondDownloaded.os.at hashName) =
          secondDownloaded.os.fs.get (secondDownloaded.os.at hashName) := by decide +kernel
  exact ⟨rfl, fun _ => ⟨fun _ => fits_nine (by decide), spares_of_fetched
    (hdeleted.1.spared (goes_deleted ..) hdeleted.2) hfetched.1
    (hfetched.2.1.spared (goes_unpack ..) hfetched.2.2)⟩⟩

theorem httpLines_pinning : AtRun (Pinning online.sha256) online httpLines := by
  have hopen : (openManifest httpLines).1 = .ok (lit "a,http://h/\nc,http://k/") := rfl
  have hlines : manifestLines (cstr (lit "a,http://h/\nc,http://k/")) =
      [lit "a,http://h/", lit "c,http://k/"] := by decide +kernel
  have hparse : parseManifestLine (lit "a,http://h/") = .entry (lit "a") (lit "http://h/") ∧
      parseManifestLine (lit "c,http://k/") = .entry (lit "c") (lit "http://k/") := by decide
  intro manifest hmanifest
  rw [hopen, Except.ok.injEq] at hmanifest
  rw [← hmanifest, hlines]
  refine .cons (fun path url hentry => ?_) fun w1 hline => .cons (fun path url hentry => ?_)
    fun w2 _ => .nil _ _ _
  · rw [hparse.1] at hentry
    cases hentry
    exact firstHttp_pinning
  · rw [hparse.2] at hentry
    cases hentry
    rw [show w1 = atSecondHttp from (congrArg Prod.snd hline).symm]
    exact secondHttp_pinning

/-- Two downloads pin their urls, the first one to the end of the run. -/
theorem hash_pins_permanent_two :
    (main online httpLines).1 = .exit 0 ∧
      Act.extract (lit "a") (lit "http://h/") (lit "ab") ∈ (main online httpLines).2.acts ∧
      Act.extract (lit "c") (lit "http://k/") (lit "abc") ∈ (main online httpLines).2.acts ∧
      query (main online httpLines).2.os hashName (lit "http://h/")
        (hashText (online.sha256 (lit "ab"))) = some .matched ∧
      query (main online httpLines).2.os hashName (lit "http://k/")
        (hashText (online.sha256 (lit "abc"))) = some .matched := by
  have hfiles : FilesAre httpContents httpLines.os ∧
      httpLines.os.fs.get (httpLines.os.at hashName) = none := by decide
  have hrun : (main online httpLines).1 = .exit 0 ∧
      Act.extract (lit "a") (lit "http://h/") (lit "ab") ∈ (main online httpLines).2.acts ∧
      Act.extract (lit "c") (lit "http://k/") (lit "abc") ∈ (main online httpLines).2.acts := by
    decide +kernel
  have h := hash_pins_permanent hfiles.1.home (fun _ => rfl) (Or.inl ⟨hfiles.2, rfl⟩) (by simp) rfl
    (.run .refl httpLines_pinning) .refl
  exact ⟨hrun.1, hrun.2.1, hrun.2.2, h.2.2 _ _ _ hrun.2.1 (by decide),
    h.2.2 _ _ _ hrun.2.2 (by decide)⟩

/-- A pin, a manifest that asks for its file, and another pin to be put there. -/
def swappedPins : World :=
  let w := manifestWorld (lit "download.hash,file:b")
  { w with os := { w.os with
    fs := (w.os.fs.update [lit "w", lit "b"] (.file (lit "http://x,sha256:11\n") 0o644)).add
      [lit "w", hashName] (.file (lit "http://x,sha256:00\n") 0o644) } }

/-- The line replaces `download.hash`, and with it the pin. -/
theorem pins_replaced :
    Home swappedPins.os ∧ (∀ k, swappedPins.os.fault k = false) ∧
      Holds swappedPins.os hashName [(lit "http://x", lit "sha256:00")] ∧
      (main offline swappedPins).1 = .exit 0 ∧
      query swappedPins.os hashName (lit "http://x") (lit "sha256:00") = some .matched ∧
      query (main offline swappedPins).2.os hashName (lit "http://x") (lit "sha256:00") =
        some .mismatch := by
  have hfiles : FilesAre [lit "download.hash,file:b", lit "http://x,sha256:00\n"]
        swappedPins.os ∧
      swappedPins.os.fs.get (swappedPins.os.at hashName) =
        some (.file (encodeMap [(lit "http://x", lit "sha256:00")]) 0o644) := by decide
  have hrun : (main offline swappedPins).1 = .exit 0 ∧
      query swappedPins.os hashName (lit "http://x") (lit "sha256:00") = some .matched ∧
      query (main offline swappedPins).2.os hashName (lit "http://x") (lit "sha256:00") =
        some .mismatch := by decide +kernel
  exact ⟨hfiles.1.home, fun _ => rfl, Or.inr ⟨_, hfiles.2⟩, hrun⟩

end ToolchainTools
