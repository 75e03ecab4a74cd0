import ToolchainTools.Download.Pins
import ToolchainTools.Download.Placing
import ToolchainTools.Stream.HttpRedirects
import ToolchainTools.Streams.Feed

/-!
# Downloads that arrive

`extract_file` asks a download for one byte at a time and takes all that it is offered, so the
buffer never grows beyond its first step and no read comes to an empty receive (`BodyAhead.read`).
What a server sends as the body of its response is then, byte for byte, what `main` hashes, writes
to `download.tmp` and reads back from there (`fetchHttp_arrives`).
-/

namespace ToolchainTools

open CLib Posix Streams

variable {ζ ξ σ : Type} {rest : Bytes}

/-! ## Bodies ahead -/

/-- A body is ahead, in a buffer of one step. -/
structure BodyAhead (rest : Bytes) (os : HttpsStream) : Prop where
  left : BodyLeft rest os
  steps : growth ∣ os.buf.length + os.room
  bufsz_le : os.buf.length + os.room ≤ growth

/-- Asking for one byte does not make the buffer grow beyond its first step. -/
theorem readHttps_bufsz {os os' : HttpsStream} {consume need : Nat} {w : Window}
    (hread : readHttps os consume need = some (w, os'))
    (hconsume : os.consumed + consume ≤ os.buf.length)
    (hneed : clampNeed (toInt64 (os.lengthRemaining - consume)) need ≤ growth)
    (hsteps : growth ∣ os.buf.length + os.room) (hle : os.buf.length + os.room ≤ growth) :
    growth ∣ os'.buf.length + os'.room ∧ os'.buf.length + os'.room ≤ growth := by
  have hsize : (compressed os consume).buf.length + (compressed os consume).room =
      os.buf.length + os.room := by
    have havail : (compressed os consume).buf.length = os.buf.length - (os.consumed + consume) :=
      List.length_drop
    have hroom : (compressed os consume).room = os.room + (os.consumed + consume) := rfl
    omega
  obtain ⟨hdvd, hmax⟩ := httpsFill_bufsz
    (clampNeed (toInt64 (os.lengthRemaining - consume)) need) (compressed os consume)
    (by rw [Nat.one_mul]; exact hneed) (by rw [hsize]; exact hsteps)
  rw [hsize, Nat.one_mul, max_eq_right hle] at hmax
  by_cases h : add64 (os.consumed + consume)
      (clampNeed (toInt64 (os.lengthRemaining - consume)) need) ≤ os.buf.length
  · rw [readHttps_served h] at hread
    cases hread
    exact ⟨hsteps, hle⟩
  · cases hfill : httpsFill (clampNeed (toInt64 (os.lengthRemaining - consume)) need)
      (compressed os consume) with
    | mk ok os1 =>
      rw [hfill] at hdvd hmax
      cases ok with
      | true =>
        rw [readHttps_filled h hfill] at hread
        cases hread
        exact ⟨hdvd, hmax⟩
      | false =>
        rw [readHttps_fails h hfill] at hread
        cases hread
        exact ⟨hdvd, hmax⟩

/-- One round of `extract_file` over a body. -/
theorem BodyAhead.read {os : HttpsStream} (h : BodyAhead rest os) {consume : Nat}
    (hconsume : consume ≤ os.lent) :
    ∃ w os', readHttps os consume 1 = some (w, os') ∧ BodyAhead (rest.drop consume) os' ∧
      w.bytes.length = os'.lent ∧ Serves rest consume 1 w (rest.drop consume) := by
  have hin : os.consumed + consume ≤ os.buf.length := by
    have hle := h.left.consumed_le
    unfold HttpsStream.lent at hconsume
    omega
  have hsafe : SafeRead os consume 1 := by
    have hsmall := h.bufsz_le
    unfold growth at hsmall
    exact Or.inr (Or.inl (by omega))
  obtain ⟨w, os', hread, -, hleft, hlent, hserves⟩ :=
    (readHttps_body h.left hconsume (by norm_num)).1 hsafe
  have hclamp : clampNeed (toInt64 (os.lengthRemaining - consume)) 1 ≤ growth := by
    have hlength := h.left.length
    have hsmall := h.left.small
    rw [h.left.remaining, toInt64_of_range (by omega) (by omega),
      show ((rest.length : Int) - consume) = ((rest.length - consume : Nat) : Int) by omega,
      clampNeed_eq (by omega) (by norm_num)]
    exact (Nat.min_le_left _ _).trans (by decide)
  obtain ⟨hsteps, hle⟩ := readHttps_bufsz hread hin hclamp h.steps h.bufsz_le
  exact ⟨w, os', hread, ⟨hleft, hsteps, hle⟩, hlent, hserves⟩

variable {read : Reader σ} {os : OS}

/-- A body is a feed. -/
def httpsFeed : Feed readHttps where
  ahead := BodyAhead
  lent := HttpsStream.lent
  lent_le rest os h := by
    rw [h.left.length]
    exact Nat.le_add_right _ _
  serve rest os consume h hconsume := by
    obtain ⟨w, os', hread, hahead, hlent, hserves⟩ := h.read hconsume
    exact ⟨w, os', hread, hahead, hlent.symm, hserves⟩

/-- What passes through the filter is fed on. -/
def hashFeed (F : Feed read) : Feed (readHash read) where
  ahead rest hs := F.ahead rest hs.source ∧ hs.data.length ≤ F.lent hs.source
  lent hs := hs.data.length
  lent_le rest hs h := h.2.trans (F.lent_le rest hs.source h.1)
  serve rest hs consume h hconsume := by
    obtain ⟨w, s, hread, hahead, hlent, hserves⟩ :=
      F.serve rest hs.source consume h.1 (hconsume.trans h.2)
    refine ⟨w, ⟨hs.absorbed ++ hs.data.take consume, s, w.bytes⟩, ?_, ⟨hahead, hlent.ge⟩, rfl,
      hserves⟩
    unfold readHash
    rw [hread]

/-! ## Extraction of a feed -/

/-- All that is behind the window written last is written, and the loop returns zero. -/
theorem extractFileLoop_feed (F : Feed read) {f : Loc} {fuel : Nat} {s : σ} {failed : Bool}
    {c : Bytes} {m : Int} (h : F.ahead rest s) (hfuel : rest.length - F.lent s < fuel)
    (hquiet : Posix.Quiet os) (hfile : os.fs.get f = some (.file c m)) :
    ∃ r, extractFileLoop read f fuel (F.lent s) s os failed = r ∧ r.code = some 0 ∧
      r.os.fs.get f = some (.file (c ++ rest.drop (F.lent s)) m) := by
  induction fuel generalizing rest s os failed c with
  | zero => omega
  | succ fuel ih =>
    obtain ⟨w, s', hread, hahead, hlent, hend, hmore⟩ := F.step h
    unfold extractFileLoop
    rw [hread]
    dsimp only
    by_cases hnil : w.bytes = []
    · rw [if_pos (by rw [hnil]; rfl)]
      refine ⟨_, rfl, rfl, ?_⟩
      rw [hend hnil, List.append_nil]
      exact hfile
    · have hpos := List.length_pos_iff.mpr hnil
      have hle := F.lent_le _ _ hahead
      rw [List.length_drop] at hle
      obtain ⟨os1, hwrite, hafter⟩ := fwrite_file hfile (hquiet _) w.bytes
      have hquiet1 : Posix.Quiet os1 := by
        intro n
        rw [hafter.fault]
        exact hquiet n
      have hfile1 : os1.fs.get f = some (.file (c ++ w.bytes) m) := by
        rw [hafter.get, Function.update_self]
      obtain ⟨r, hr, hcode, hwritten⟩ :=
        @ih (rest.drop (F.lent s)) os1 s' (failed || w.failed) (c ++ w.bytes) hahead
          (by rw [List.length_drop]; omega) hquiet1 hfile1
      rw [if_neg (by omega), hwrite]
      dsimp only
      rw [← hlent]
      refine ⟨r, hr, hcode, ?_⟩
      rw [hwritten, hlent, List.append_assoc, hmore]

theorem extractFile_feed (F : Feed read) {f : Loc} {fuel : Nat} {s : σ} {m : Int}
    (h : F.ahead rest s) (hlent : F.lent s = 0) (hfuel : rest.length < fuel) (hquiet : Posix.Quiet os)
    (hfile : os.fs.get f = some (.file [] m)) :
    ∃ r, extractFile read fuel s f os = r ∧ r.code = some 0 ∧
      r.os.fs.get f = some (.file rest m) := by
  obtain ⟨r, hr, hcode, hwritten⟩ := @extractFileLoop_feed σ rest read os F f fuel s false [] m h
    (by omega) hquiet hfile
  rw [hlent] at hr
  rw [hlent, List.drop_zero, List.nil_append] at hwritten
  exact ⟨r, hr, hcode, hwritten⟩

/-! ## Downloads -/

/-- The body that the servers send for the url. -/
def Arrives (net : Net) (fuel : Nat) (url body : Bytes) : Prop :=
  body.length < fuel ∧
    ∃ os total, openHttpDownloader net fuel url = some (some (os, total)) ∧ BodyAhead body os

/-- The buffer of a stream that is returned has the size that parsing headers needs. -/
theorem Parsing.success {fuel total : Nat} {os os' : HttpsStream} (h : Parsing os)
    (hresp : readResponse fuel os = .success os' total) : Parsing os' := by
  unfold readResponse at hresp
  split at hresp
  · cases hresp
  · cases hresp
  · rename_i hdr os₁ hline
    have hos₁ := (getLine_inv h hline).1
    split at hresp
    · cases hresp
    · split at hresp
      · cases hresp
      · split at hresp
        · cases hresp
        · cases hresp
        · rename_i hs os₂ hheaders
          have hos₂ := headersLoop_parsing hos₁ hheaders
          split at hresp
          · split at hresp <;> cases hresp
          · split at hresp
            · split at hresp
              · cases hresp
              · cases hresp
                exact ⟨hos₂.consumed_le, hos₂.steps, hos₂.bufsz_le, hos₂.cut⟩
            · cases hresp

theorem downloaderLoop_parsing {net : Net} (hnet : net.HandsOver) {fuel requests attempts : Nat}
    {os : Option HttpsStream} {url : Bytes} {os' : HttpsStream} {total : Nat}
    (hos : ∀ o, os = some o → Parsing o)
    (hrun : downloaderLoop net fuel requests attempts os url = some (some (os', total))) :
    Parsing os' := by
  induction requests generalizing attempts os url with
  | zero => cases hrun
  | succ requests ih =>
    unfold downloaderLoop at hrun
    split at hrun
    · cases hrun
    · split at hrun
      · cases hrun
      · rename_i t _ os₁ attempts' hconn
        have hos₁ := openConnection_parsing hnet hos hconn
        split at hrun
        · cases hrun
        · rename_i conn hsend
          have hsent := hos₁.sendRequest hsend
          split at hrun
          · cases hrun
          · cases hrun
          · rename_i url' os₂ hresp
            refine ih (fun o ho => ?_) hrun
            cases ho
            exact hsent.redirect hresp
          · rename_i os₂ total' hresp
            cases hrun
            exact hsent.success hresp

/-- A response at the end of a chain of redirects. -/
theorem arrives_of_chain {net : Net} {url : Bytes} {t : Target} {hops : List Redirect}
    {last : Final} (hurl : parseUrl url = some t) (hlength : hops.length ≤ 3)
    (hlast : last.Short) (hshort : ∀ r ∈ hops, r.Short) (hreused : NoBodyReused t hops)
    (hnet : net.HandsOver) (hserves : ServesChain net t hops last) :
    ∃ n, ∀ fuel, n ≤ fuel → Arrives net fuel url last.body := by
  obtain ⟨l, c, hlink, -, hat, -, -, -, hunread, hserved⟩ := first_link hserves
  refine ⟨lineRounds + (last.headers.length + (hops.map fun r => r.headers.length).sum) +
    last.body.length + 1, fun fuel hfuel => ⟨by omega, ?_⟩⟩
  have hhops : ∀ r ∈ hops, r.Short ∧ r.headers.length < fuel := by
    intro r hr
    have hsum := List.single_le_sum (by simp) _
      (List.mem_map_of_mem hr : _ ∈ hops.map fun r => r.headers.length)
    exact ⟨hshort r hr, by omega⟩
  obtain ⟨os, hopen, hbody⟩ := (matchedRun_of_short (show lineRounds ≤ fuel by omega) hlast
    (show last.headers.length < fuel by omega) hhops hurl hlink hat hunread hserved hreused
    (show hops.length < 4 by omega)).body
  rw [← openHttpDownloader_run] at hopen
  have hparsing := downloaderLoop_parsing hnet (by simp) hopen
  exact ⟨os, last.body.length, hopen, hbody, hparsing.steps, hparsing.bufsz_le⟩

section Fetch

variable {ζ ξ : Type} {env : Env ζ ξ} {w : World} {url str body : Bytes}
  {es : List (Bytes × Bytes)}

/-- The check of a hash in a quiet system. -/
theorem checkHash_quiet (hhome : Home os) (hquiet : Posix.Quiet os) (hh : Holds os hashName es)
    (hes : ∀ e ∈ es, Entry e) (he : Entry (url, str)) :
    (es.lookup url = none ∨ es.lookup url = some str →
      ∃ os' es', checkHash os url str = (.next, os') ∧ Holds os' hashName es' ∧
        (∀ e ∈ es', Entry e) ∧ mapOf es' = Function.update (mapOf es) url (some str)) ∧
    (∀ v, es.lookup url = some v → v ≠ str → checkHash os url str = (.exit 10, os.tick)) := by
  have htest := testMap_holds (home_hash hhome) hh hes (hquiet _) url str
  have hkept : Holds os.tick hashName es := hh
  unfold checkHash
  rw [htest]
  constructor
  · rintro (hnone | hsome)
    · rw [hnone, show answer none str = .noval from rfl]
      have hd : MapDir os.tick hashName := (hhome.only (.tick [] os)).hashDir
      dsimp only
      cases hupdate : updateMap os.tick hashName url str with
      | mk code os1 =>
      obtain ⟨rfl, hput, -⟩ := updateMap_put hd hkept hes hupdate fun k _ _ => hquiet k
      exact ⟨os1, put es url str, rfl, hput, entry_put hes he, mapOf_put url str es⟩
    · rw [hsome, show answer (some str) str = .matched by rw [answer, if_pos rfl]]
      refine ⟨os.tick, es, rfl, hkept, hes, ?_⟩
      exact (Function.update_eq_self_iff.mpr hsome.symm).symm
  · intro v hv hne
    rw [hv, show answer (some v) str = .mismatch by rw [answer, if_neg hne]]

/-- **A download that arrives.** Of what the server sends, every byte is hashed, written to
`download.tmp` and handed on, and nothing else; the url is pinned to its hash. When it has been
pinned to another one, `main` gives up. -/
theorem fetchHttp_arrives (hhome : Home w.os) (hquiet : Posix.Quiet w.os) (hh : Holds w.os hashName es)
    (hes : ∀ e ∈ es, Entry e) (he : Entry (url, hashText (env.sha256 body)))
    (harrives : Arrives (env.net w.downloads) env.fuel url body) :
    (es.lookup url = none ∨ es.lookup url = some (hashText (env.sha256 body)) →
      ∃ w' es', fetchHttp env w url = (.next, some (.ofBytes body), w') ∧
        Holds w'.os hashName es' ∧ (∀ e ∈ es', Entry e) ∧
        mapOf es' = Function.update (mapOf es) url (some (hashText (env.sha256 body)))) ∧
    (∀ v, es.lookup url = some v → v ≠ hashText (env.sha256 body) →
      ∃ w', fetchHttp env w url = (.exit 10, none, w') ∧ Holds w'.os hashName es) := by
  obtain ⟨hfuel, s, total, hdownload, hahead⟩ := harrives
  obtain ⟨m, os1, hopen, hopened⟩ := (home_tmp hhome).fopenWrite (hquiet _)
  have honly1 : Only [tmpName] w.os os1 := by
    have := (home_tmp hhome).only_fopenWrite.1
    rwa [hopen] at this
  have hquiet1 : Posix.Quiet os1 := hquiet.of_goes honly1.goes
  have hfile1 : os1.fs.get (w.os.at tmpName) = some (.file [] m) := by
    rw [hopened.get, Function.update_self]
  have hfeed : (hashFeed httpsFeed).ahead body (openHash s) := ⟨hahead, Nat.zero_le _⟩
  obtain ⟨r, hr, hcode, hwritten⟩ := extractFile_feed (hashFeed httpsFeed) hfeed rfl hfuel hquiet1
    hfile1
  have habsorbed : r.s.absorbed = body := by
    have hall := extractFile_absorbed hfile1 hr hcode
    rw [hwritten] at hall
    cases hall
    rfl
  have honly2 : Only [tmpName] w.os r.os := by
    have := only_extractFile (readHash readHttps) env.fuel (openHash s)
      (show w.os.at tmpName = os1.at tmpName from (honly1.goes.at_eq tmpName).symm)
    rw [hr] at this
    exact honly1.trans this
  have hhome2 := hhome.only honly2
  have hquiet2 : Posix.Quiet r.os := hquiet.of_goes honly2.goes
  have hh2 : Holds r.os hashName es :=
    hh.of_get (honly2.get_slot (by simpa using own_ne.2.2.2.2.1))
  obtain ⟨hpass, hstop⟩ := checkHash_quiet hhome2 hquiet2 hh2 hes he
  have hcheck := only_checkHash hhome2 url (hashText (env.sha256 body))
  unfold fetchHttp
  dsimp only
  rw [hdownload]
  dsimp only
  rw [show (w.act (.connect url)).os = w.os from rfl, hopen]
  dsimp only
  rw [hr, hcode]
  dsimp only
  rw [if_neg (by simp), habsorbed]
  constructor
  · intro hpin
    obtain ⟨os2, es', hchecked, hh', hes', hmap⟩ := hpass hpin
    rw [hchecked] at hcheck ⊢
    dsimp only
    -- the check of the hash has not touched the file
    have hsame : os2.fs.get (os2.at tmpName) = some (.file body m) := by
      rw [hcheck.get_slot (by simpa using ⟨own_ne.2.2.2.2.2.1.symm, own_ne.2.2.2.2.1.symm⟩),
        honly2.goes.at_eq]
      exact hwritten
    have hreopen : os2.fopenUpdate tmpName = (some (.ofBytes body), os2.tick) := by
      have hslot := home_tmp (hhome2.only hcheck)
      have hloc : os2.tick.locate true tmpName = some (os2.at tmpName) := hslot.locate true
      unfold OS.fopenUpdate
      rw [OS.call_good ((hquiet2.of_goes hcheck.goes) _), hloc, Option.bind_some, OS.tick_fs, hsame]
    rw [hreopen]
    exact ⟨_, es', rfl, hh', hes', hmap⟩
  · intro v hv hne
    rw [hstop v hv hne]
    exact ⟨_, rfl, hh2⟩

/-- **Downloads over redirects.** A server that answers along a chain of at most three redirects
has its last body hashed, written to `download.tmp` and handed on, byte for byte and however its
bytes are cut; the hash is pinned to the url at the start of the chain, and a url that is pinned
to another hash ends the run with `download.hash` as it was. -/
theorem redirected_download_arrives {net : Net} {t : Target} {hops : List Redirect} {last : Final}
    (hurl : parseUrl url = some t) (hlength : hops.length ≤ 3) (hlast : last.Short)
    (hshort : ∀ r ∈ hops, r.Short) (hreused : NoBodyReused t hops) (hnet : net.HandsOver)
    (hserves : ServesChain net t hops last) {sha : Bytes → Fin 32 → UInt8}
    (hhome : Home w.os) (hquiet : Posix.Quiet w.os) (hh : Holds w.os hashName es)
    (hes : ∀ e ∈ es, Entry e) (he : Entry (url, hashText (sha last.body))) :
    ∃ n, ∀ env : Env ζ ξ, env.net w.downloads = net → env.sha256 = sha → n ≤ env.fuel →
      Only fetchNames w.os (fetchHttp env w url).2.2.os ∧
      (es.lookup url = none ∨ es.lookup url = some (hashText (sha last.body)) →
        ∃ w' es', fetchHttp env w url = (.next, some (.ofBytes last.body), w') ∧
          Holds w'.os hashName es' ∧
          mapOf es' = Function.update (mapOf es) url (some (hashText (sha last.body)))) ∧
      (∀ v, es.lookup url = some v → v ≠ hashText (sha last.body) →
        ∃ w', fetchHttp env w url = (.exit 10, none, w') ∧ Holds w'.os hashName es) := by
  obtain ⟨n, harrives⟩ := arrives_of_chain hurl hlength hlast hshort hreused hnet hserves
  refine ⟨n, fun env henv hsha hfuel => ?_⟩
  subst henv hsha
  obtain ⟨hpass, hstop⟩ := fetchHttp_arrives hhome hquiet hh hes he (harrives env.fuel hfuel)
  refine ⟨only_fetchHttp env hhome url, fun hpin => ?_, hstop⟩
  obtain ⟨w', es', hrun, hh', -, hmap⟩ := hpass hpin
  exact ⟨w', es', hrun, hh', hmap⟩

theorem moved_short : found.Short ∧ ∀ r ∈ [moved], r.Short := by
  unfold Reply.Short
  decide

theorem chainNet_handsOver (t : Target) (hops : List Redirect) (last : Final) :
    (chainNet t hops last).HandsOver := by
  intro attempt host port c hc i
  rw [chainNet_byByte t hops last attempt host port c hc i]
  exact Nat.one_pos

/-- One redirect, in a directory where nothing is pinned. -/
theorem redirected_download_arrives_moved :
    ∃ n, ∀ env : Env Unit Unit,
      env.net 0 = chainNet ⟨false, lit "h", 80, lit "/a"⟩ [moved] found →
      (env.sha256 = fun content _ => UInt8.ofNat content.length) → n ≤ env.fuel →
      ∃ w' es', fetchHttp env (manifestWorld []) (lit "http://h/a") =
          (.next, some (.ofBytes (lit "ab")), w') ∧
        Holds w'.os hashName es' ∧
        mapOf es' (lit "http://h/a") = some (hashText fun _ => 2) := by
  have hhome : Home (manifestWorld []).os :=
    FilesAre.home (show FilesAre [[]] (manifestWorld []).os by decide)
  obtain ⟨n, hn⟩ := @redirected_download_arrives Unit Unit (manifestWorld []) (lit "http://h/a") []
    _ ⟨false, lit "h", 80, lit "/a"⟩ [moved] found (by decide) (by simp) moved_short.1 moved_short.2
    ⟨fun _ => rfl, trivial⟩
    (chainNet_handsOver _ _ _) (chainNet_serves _ _ _)
    (fun content _ => UInt8.ofNat content.length) hhome (fun _ => rfl)
    (Or.inl ⟨by decide, rfl⟩) (by simp) (by decide +kernel)
  refine ⟨n, fun env hnet hsha hfuel => ?_⟩
  obtain ⟨w', es', hrun, hh, hmap⟩ := (hn env hnet hsha hfuel).2.1 (Or.inl rfl)
  refine ⟨w', es', hrun, hh, ?_⟩
  rw [hmap, Function.update_self]
  rfl

end Fetch

end ToolchainTools
