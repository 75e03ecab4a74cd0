import ToolchainTools.Stream.HttpLines

/-!
# The length of a header line and the cuts

`get_line` rejects a line when it has seen no newline in more than 512 bytes; how much it
sees at once is up to the transport. A line of up to 512 bytes passes and one that does not
fit into the buffer is rejected, however the bytes are cut. Between the two the cuts
decide: byte by byte the line is rejected, in one piece it passes.
-/

namespace ToolchainTools

open CLib Streams

/-! ## Other cuts of the same bytes -/

def HttpsStream.recut (os : HttpsStream) (cut : Nat → Nat) : HttpsStream :=
  { os with conn := { os.conn with cut := cut } }

/-- The same servers, with the receives of each connection cut in another way. -/
def Net.recut (net : Net) (cuts : Nat → Nat → Nat) : Net :=
  { net with
    connect := fun attempt host port =>
      (net.connect attempt host port).map fun c => { c with cut := cuts attempt } }

/-- Single bytes on every connection. -/
def byByte : Nat → Nat → Nat := fun _ _ => 1

theorem recut_handsOver (net : Net) {cuts : Nat → Nat → Nat} (hcuts : ∀ i j, 0 < cuts i j) :
    (net.recut cuts).HandsOver := by
  intro attempt host port c hc i
  simp only [Net.recut, Option.map_eq_some_iff] at hc
  obtain ⟨c₀, -, rfl⟩ := hc
  exact hcuts attempt i

/-- A next line that is longer than allowed and still fits into the buffer. -/
def Ambiguous (bytes : Bytes) : Prop :=
  ∃ line rest, bytes = line ++ newline :: rest ∧ newline ∉ line ∧
    headerLineMax < line.length ∧ line.length < growth

/-! ## What is seen of the lines -/

/-- The results of `get_line` in the loop over the header lines. -/
def headersSeen (lineFuel : Nat) : Nat → HttpsStream → List (Option Bytes)
  | 0, _ => []
  | fuel + 1, os =>
    match getLine lineFuel os with
    | none => []
    | some (none, _) => [none]
    | some (some p, os) => some p :: if p = [] then [] else headersSeen lineFuel fuel os

/-- The results of `get_line` for one response. -/
def responseSeen (fuel : Nat) (os : HttpsStream) : List (Option Bytes) :=
  match getLine fuel os with
  | none => []
  | some (none, _) => [none]
  | some (some hdr, os) =>
    some hdr ::
      match statusCode hdr with
      | none => []
      | some httperr => if httperr.tdiv 100 > 3 then [] else headersSeen fuel fuel os

/-- The results of `get_line` in a run of the downloader. -/
def downloaderSeen (net : Net) (fuel : Nat) :
    Nat → Nat → Option HttpsStream → Bytes → List (Option Bytes)
  | 0, _, _, _ => []
  | requests + 1, attempts, os, url =>
    match parseUrl url with
    | none => []
    | some t =>
      match openConnection net attempts os t with
      | (none, _) => []
      | (some os, attempts) =>
        match sendRequest t net.stack os.conn with
        | (false, _) => []
        | (true, conn) =>
          responseSeen fuel { os with conn := conn } ++
            match readResponse fuel { os with conn := conn } with
            | .redirect url os => downloaderSeen net fuel requests attempts (some os) url
            | _ => []

def linesSeen (net : Net) (fuel : Nat) (url : Bytes) : List (Option Bytes) :=
  downloaderSeen net fuel 4 0 none url

/-- What a caller gets: the length and the bytes behind the stream, or `NULL`. -/
def outcome (net : Net) (fuel : Nat) (url : Bytes) : Option (Option (Nat × Bytes)) :=
  (openHttpDownloader net fuel url).map (Option.map fun r => (r.2, r.1.unread))

/-- No two ways of cutting what the servers send differ in the lines that are seen or
rejected, or in what the downloader returns. -/
def SameForAllCuts (net : Net) (url : Bytes) : Prop :=
  ∀ cuts cuts' : Nat → Nat → Nat, (∀ i j, 0 < cuts i j) → (∀ i j, 0 < cuts' i j) →
    ∀ fuel, lineRounds ≤ fuel →
      linesSeen (net.recut cuts) fuel url = linesSeen (net.recut cuts') fuel url ∧
        outcome (net.recut cuts) fuel url = outcome (net.recut cuts') fuel url

/-! ## Streams that differ in their cuts -/

/-- The same stream but for the cuts and for what has been received already. -/
structure Alike (os os' : HttpsStream) : Prop where
  left : Parsing os
  right : Parsing os'
  unread : os'.unread = os.unread
  host : os'.host = os.host
  port : os'.port = os.port
  isHttps : os'.isHttps = os.isHttps
  accept : os'.conn.accept = os.conn.accept
  sends : os'.conn.sends = os.conn.sends
  sent : os'.conn.sent = os.conn.sent

/-- Results of one kind with streams that are alike. -/
def AlikeResults {α : Type} (x y : Option (Option α × HttpsStream)) : Prop :=
  x.map Prod.fst = y.map Prod.fst ∧
    ∀ a os os', x = some (some a, os) → y = some (some a, os') → Alike os os'

theorem Alike.onward {os os' os₁ os₁' : HttpsStream} (h : Alike os os') (hon : Onward os os₁)
    (hon' : Onward os' os₁') (hleft : Parsing os₁) (hright : Parsing os₁')
    (hunread : os₁'.unread = os₁.unread) : Alike os₁ os₁' :=
  ⟨hleft, hright, hunread, by rw [hon'.host, hon.host, h.host],
    by rw [hon'.port, hon.port, h.port], by rw [hon'.isHttps, hon.isHttps, h.isHttps],
    by rw [hon'.accept, hon.accept, h.accept], by rw [hon'.sends, hon.sends, h.sends],
    by rw [hon'.sent, hon.sent, h.sent]⟩

/-- A line that is rejected in one stream and passes in the other is ambiguous. -/
theorem ambiguous_of_split {bytes line rest : Bytes} (hsplit : bytes = line ++ newline :: rest)
    (hline : newline ∉ line) (hfits : line.length < growth)
    (hreject : newline ∉ bytes.take (headerLineMax + 1)) : Ambiguous bytes := by
  refine ⟨line, rest, hsplit, hline, ?_, hfits⟩
  by_contra hshort
  apply hreject
  rw [hsplit, List.take_append]
  refine List.mem_append_right _ ?_
  obtain ⟨k, hk⟩ : ∃ k, headerLineMax + 1 - line.length = k + 1 :=
    ⟨headerLineMax - line.length, by omega⟩
  rw [hk, List.take_succ_cons]
  exact List.mem_cons_self

/-- **One line, two cuts.** -/
theorem getLine_alike {os os' : HttpsStream} (h : Alike os os') (hclear : ¬ Ambiguous os.unread)
    {fuel : Nat} (hfuel : lineRounds ≤ fuel) :
    AlikeResults (getLine fuel os) (getLine fuel os') := by
  by_cases hfed : Fed os.unread
  · obtain ⟨⟨r, os₁⟩, hget⟩ := getLine_fed h.left hfed hfuel
    obtain ⟨⟨r', os₁'⟩, hget'⟩ := getLine_fed h.right (h.unread ▸ hfed) hfuel
    obtain ⟨hos₁, hline, hreject⟩ := getLine_inv h.left hget
    obtain ⟨hos₁', hline', hreject'⟩ := getLine_inv h.right hget'
    rw [h.unread] at hline' hreject'
    rw [hget, hget']
    cases r with
    | none =>
      cases r' with
      | none => exact ⟨rfl, by simp⟩
      | some p' =>
        obtain ⟨line, hsplit, hnl, hfits, -⟩ := hline' p' rfl
        exact absurd (ambiguous_of_split hsplit hnl hfits (hreject rfl).2) hclear
    | some p =>
      obtain ⟨line, hsplit, hnl, hfits, rfl⟩ := hline p rfl
      cases r' with
      | none => exact absurd (ambiguous_of_split hsplit hnl hfits (hreject' rfl).2) hclear
      | some p' =>
        obtain ⟨line', hsplit', hnl', -, rfl⟩ := hline' p' rfl
        have hsame : line = line' := eq_of_first_newline hnl hnl'
          (List.prefix_iff_eq_append.mpr (by rw [← hsplit, ← hsplit', List.drop_length,
            List.append_nil]))
        subst hsame
        have hrest : os₁'.unread = os₁.unread := by
          have := List.append_cancel_left (hsplit.symm.trans hsplit')
          exact (List.cons.inj this).2.symm
        refine ⟨rfl, fun a o o' ho ho' => ?_⟩
        cases ho
        cases ho'
        exact h.onward (getLineLoop_onward hget) (getLineLoop_onward hget') hos₁ hos₁' hrest
  · have hstarved := getLineLoop_starved h.left hfed fuel (Nat.zero_le _)
    have hstarved' := getLineLoop_starved h.right (h.unread ▸ hfed) fuel (Nat.zero_le _)
    rw [getLine, getLine, hstarved, hstarved']
    exact ⟨rfl, by simp⟩

/-- The two results behind `AlikeResults`. -/
theorem AlikeResults.cases {α : Type} {x y : Option (Option α × HttpsStream)}
    (h : AlikeResults x y) :
    (x = none ∧ y = none) ∨ (∃ os os', x = some (none, os) ∧ y = some (none, os')) ∨
      ∃ a os os', x = some (some a, os) ∧ y = some (some a, os') ∧ Alike os os' := by
  obtain ⟨hfst, halike⟩ := h
  rcases x with _ | ⟨_ | a, os⟩
  · exact Or.inl ⟨rfl, by simpa using hfst.symm⟩
  · rcases y with _ | ⟨_ | a', os'⟩
    · cases hfst
    · exact Or.inr (Or.inl ⟨os, os', rfl, rfl⟩)
    · cases hfst
  · rcases y with _ | ⟨_ | a', os'⟩
    · cases hfst
    · cases hfst
    · cases hfst
      exact Or.inr (Or.inr ⟨a, os, os', rfl, rfl, halike a os os' rfl rfl⟩)

theorem headersLoop_alike {os os' : HttpsStream} (h : Alike os os')
    (hclear : ∀ o, HeaderCall os o → ¬ Ambiguous o.unread) {lineFuel : Nat}
    (hline : lineRounds ≤ lineFuel) (fuel : Nat) (hs : Headers) :
    AlikeResults (headersLoop lineFuel fuel hs os) (headersLoop lineFuel fuel hs os') ∧
      headersSeen lineFuel fuel os = headersSeen lineFuel fuel os' := by
  induction fuel generalizing os os' hs with
  | zero => exact ⟨⟨rfl, by simp [headersLoop]⟩, rfl⟩
  | succ fuel ih =>
    unfold headersLoop headersSeen
    rcases (getLine_alike h (hclear os (.here os)) hline).cases with
      ⟨hget, hget'⟩ | ⟨o, o', hget, hget'⟩ | ⟨p, o, o', hget, hget', halike⟩
    · rw [hget, hget']
      exact ⟨⟨rfl, by simp⟩, rfl⟩
    · rw [hget, hget']
      exact ⟨⟨rfl, by simp⟩, rfl⟩
    · rw [hget, hget']
      dsimp only
      split
      · refine ⟨⟨rfl, fun a x x' hx hx' => ?_⟩, rfl⟩
        cases hx
        cases hx'
        exact halike
      · rename_i hp
        obtain ⟨hloop, hseen⟩ :=
          ih halike (fun x hx => hclear x (.next hget hp hx)) (parseHeader p hs)
        exact ⟨hloop, by rw [hseen]⟩

/-- Outcomes of one kind with streams that are alike. -/
inductive AlikeExchange : Exchange → Exchange → Prop
  | running : AlikeExchange .running .running
  | failed : AlikeExchange .failed .failed
  | redirect {url : Bytes} {os os' : HttpsStream} :
      Alike os os' → AlikeExchange (.redirect url os) (.redirect url os')
  | success {total : Nat} {os os' : HttpsStream} :
      Alike os os' → AlikeExchange (.success os total) (.success os' total)

theorem readResponse_alike {os os' : HttpsStream} (h : Alike os os')
    (hclear : ∀ o, ResponseCall os o → ¬ Ambiguous o.unread) {fuel : Nat}
    (hfuel : lineRounds ≤ fuel) :
    AlikeExchange (readResponse fuel os) (readResponse fuel os') ∧
      responseSeen fuel os = responseSeen fuel os' := by
  unfold readResponse responseSeen
  rcases (getLine_alike h (hclear os (.status os)) hfuel).cases with
    ⟨hget, hget'⟩ | ⟨o, o', hget, hget'⟩ | ⟨hdr, o, o', hget, hget', halike⟩
  · rw [hget, hget']
    exact ⟨.running, rfl⟩
  · rw [hget, hget']
    exact ⟨.failed, rfl⟩
  · rw [hget, hget']
    dsimp only
    cases hstatus : statusCode hdr with
    | none => exact ⟨.failed, rfl⟩
    | some httperr =>
      dsimp only
      split
      · exact ⟨.failed, rfl⟩
      · rename_i herr
        obtain ⟨hloop, hseen⟩ := headersLoop_alike halike
          (fun x hx => hclear x (.header hget hstatus herr hx)) hfuel fuel ⟨-1, none⟩
        refine ⟨?_, by rw [hseen]⟩
        rcases hloop.cases with ⟨hr, hr'⟩ | ⟨x, x', hr, hr'⟩ | ⟨hs, x, x', hr, hr', hx⟩
        · rw [hr, hr']
          exact .running
        · rw [hr, hr']
          exact .failed
        · rw [hr, hr']
          dsimp only
          split
          · cases hs.location with
            | none => exact .failed
            | some url => exact .redirect hx
          · split
            · split
              · exact .failed
              · exact .success ⟨⟨hx.left.1, hx.left.2, hx.left.3, hx.left.4⟩,
                  ⟨hx.right.1, hx.right.2, hx.right.3, hx.right.4⟩, hx.unread, hx.host, hx.port,
                  hx.isHttps, hx.accept, hx.sends, hx.sent⟩
            · exact .failed

theorem sendLoop_alike (memory : Bytes) (reqsz : Nat) {c c' : Conn} (haccept : c'.accept = c.accept)
    (hsends : c'.sends = c.sends) (hsent : c'.sent = c.sent) :
    (sendLoop memory reqsz c').1 = (sendLoop memory reqsz c).1 ∧
      (sendLoop memory reqsz c').2.sends = (sendLoop memory reqsz c).2.sends ∧
      (sendLoop memory reqsz c').2.sent = (sendLoop memory reqsz c).2.sent := by
  have hsend : ∀ (c c' : Conn) (n : Nat), c'.accept = c.accept → c'.sends = c.sends →
      c'.sent = c.sent → (c'.send (memory.take n)).1 = (c.send (memory.take n)).1 ∧
        (c'.send (memory.take n)).2.sends = (c.send (memory.take n)).2.sends ∧
        (c'.send (memory.take n)).2.sent = (c.send (memory.take n)).2.sent := by
    intro c c' n haccept hsends hsent
    simp only [Conn.send]
    rw [haccept, hsends, hsent]
    exact ⟨rfl, rfl, rfl⟩
  revert c'
  fun_induction sendLoop memory reqsz c with
  | case1 c =>
    intro c' haccept hsends hsent
    rw [sendLoop, if_pos rfl]
    exact ⟨rfl, hsends, hsent⟩
  | case2 reqsz c hne r =>
    rename_i hzero
    intro c' haccept hsends hsent
    obtain ⟨htaken, hsends', hsent'⟩ := hsend c c' reqsz haccept hsends hsent
    rw [sendLoop, if_neg hne]
    dsimp only
    rw [dif_pos (htaken.trans hzero)]
    exact ⟨rfl, hsends', hsent'⟩
  | case3 reqsz c hne r hsome =>
    rename_i ih
    intro c' haccept hsends hsent
    obtain ⟨htaken, hsends', hsent'⟩ := hsend c c' reqsz haccept hsends hsent
    rw [sendLoop, if_neg hne]
    dsimp only
    rw [dif_neg (by rw [htaken]; exact hsome), htaken]
    exact ih haccept hsends' hsent'

theorem sendRequest_alike {os os' : HttpsStream} (h : Alike os os') (t : Target)
    (stack : Nat → UInt8) :
    (sendRequest t stack os'.conn).1 = (sendRequest t stack os.conn).1 ∧
      Alike { os with conn := (sendRequest t stack os.conn).2 }
        { os' with conn := (sendRequest t stack os'.conn).2 } := by
  have hsame := sendRequest_incoming t stack os.conn
  have hsame' := sendRequest_incoming t stack os'.conn
  have hsent : (sendRequest t stack os'.conn).1 = (sendRequest t stack os.conn).1 ∧
      (sendRequest t stack os'.conn).2.sends = (sendRequest t stack os.conn).2.sends ∧
      (sendRequest t stack os'.conn).2.sent = (sendRequest t stack os.conn).2.sent := by
    unfold sendRequest
    dsimp only
    split
    · rw [h.accept, h.sends, h.sent]
      split
      · exact ⟨rfl, rfl, rfl⟩
      · exact ⟨rfl, rfl, rfl⟩
    · exact sendLoop_alike _ _ h.accept h.sends h.sent
  have hparsing : ∀ {o : HttpsStream} {c : Conn}, Parsing o → SameIncoming o.conn c →
      Parsing { o with conn := c } := by
    intro o c ho hc
    refine ⟨ho.consumed_le, ho.steps, ho.bufsz_le, ?_⟩
    dsimp only
    rw [hc.cut]
    exact ho.cut
  refine ⟨hsent.1, hparsing h.left hsame, hparsing h.right hsame', ?_, h.host, h.port, h.isHttps,
    ?_, hsent.2.1, hsent.2.2⟩
  · have hunread := h.unread
    unfold HttpsStream.unread at hunread ⊢
    dsimp only
    rw [hsame.incoming, hsame'.incoming]
    exact hunread
  · dsimp only
    rw [hsame.accept, hsame'.accept, h.accept]

/-! ## The downloader under two cuts -/

def AlikeStreams : Option HttpsStream → Option HttpsStream → Prop
  | none, none => True
  | some os, some os' => Alike os os'
  | _, _ => False

section
variable {net : Net} {cuts cuts' : Nat → Nat → Nat}

theorem openConnection_alike (net : Net) (hcuts : ∀ i j, 0 < cuts i j)
    (hcuts' : ∀ i j, 0 < cuts' i j) {os os' : Option HttpsStream} (h : AlikeStreams os os')
    (attempts : Nat) (t : Target) :
    AlikeStreams (openConnection (net.recut cuts) attempts os t).1
        (openConnection (net.recut cuts') attempts os' t).1 ∧
      (openConnection (net.recut cuts') attempts os' t).2 =
        (openConnection (net.recut cuts) attempts os t).2 := by
  cases os with
  | none =>
    cases os' with
    | some o' => exact h.elim
    | none =>
      unfold openConnection Net.recut
      dsimp only
      cases net.connect attempts t.host t.port with
      | none => exact ⟨trivial, rfl⟩
      | some c =>
        exact ⟨⟨⟨le_rfl, ⟨0, rfl⟩, Nat.zero_le _, hcuts attempts⟩,
          ⟨le_rfl, ⟨0, rfl⟩, Nat.zero_le _, hcuts' attempts⟩, rfl, rfl, rfl, rfl, rfl, rfl, rfl⟩,
          rfl⟩
  | some o =>
    cases os' with
    | none => exact h.elim
    | some o' =>
      have ho : Alike o o' := h
      unfold openConnection
      dsimp only
      rw [ho.host, ho.isHttps, ho.port]
      split
      · exact ⟨ho, rfl⟩
      · unfold Net.recut
        dsimp only
        cases net.connect attempts t.host t.port with
        | none => exact ⟨trivial, rfl⟩
        | some c =>
          have hnew : ∀ {x : HttpsStream} {y : HttpsStream}, Parsing x → y.buf = [] →
              y.consumed = 0 → y.room = x.room + x.buf.length → (∀ i, 0 < y.conn.cut i) →
              Parsing y := by
            intro x y hx hbuf hconsumed hroom hcut
            have hsize : y.buf.length + y.room = x.buf.length + x.room := by
              rw [hbuf, hroom, List.length_nil]
              omega
            exact ⟨by omega, hsize ▸ hx.steps, hsize ▸ hx.bufsz_le, hcut⟩
          exact ⟨⟨hnew ho.left rfl rfl rfl (hcuts attempts),
            hnew ho.right rfl rfl rfl (hcuts' attempts), rfl, rfl, rfl, rfl, rfl, rfl, rfl⟩, rfl⟩

/-- If no line on the way is ambiguous, two ways of cutting run in lockstep. -/
theorem downloaderLoop_alike (hcuts : ∀ i j, 0 < cuts i j) (hcuts' : ∀ i j, 0 < cuts' i j)
    {fuel : Nat} (hfuel : lineRounds ≤ fuel) {requests attempts : Nat}
    {os os' : Option HttpsStream} (h : AlikeStreams os os') {url : Bytes}
    (hclear : ∀ o, DownloadCall (net.recut cuts) requests attempts os url o →
      ¬ Ambiguous o.unread) :
    (downloaderLoop (net.recut cuts) fuel requests attempts os url).map
        (Option.map fun r => (r.2, r.1.unread)) =
      (downloaderLoop (net.recut cuts') fuel requests attempts os' url).map
        (Option.map fun r => (r.2, r.1.unread)) ∧
      downloaderSeen (net.recut cuts) fuel requests attempts os url =
        downloaderSeen (net.recut cuts') fuel requests attempts os' url := by
  induction requests generalizing attempts os os' url with
  | zero => exact ⟨rfl, rfl⟩
  | succ requests ih =>
    unfold downloaderLoop downloaderSeen
    cases hurl : parseUrl url with
    | none => exact ⟨rfl, rfl⟩
    | some t =>
      dsimp only
      obtain ⟨hstreams, hattempts⟩ := openConnection_alike net hcuts hcuts' h attempts t
      rcases hconn : openConnection (net.recut cuts) attempts os t with ⟨_ | o, attempts₁⟩
      · rcases hconn' : openConnection (net.recut cuts') attempts os' t with ⟨_ | o', attempts₁'⟩
        · exact ⟨rfl, rfl⟩
        · rw [hconn, hconn'] at hstreams
          exact hstreams.elim
      · rcases hconn' : openConnection (net.recut cuts') attempts os' t with ⟨_ | o', attempts₁'⟩
        · rw [hconn, hconn'] at hstreams
          exact hstreams.elim
        · rw [hconn, hconn'] at hstreams hattempts
          dsimp only at hattempts ⊢
          subst hattempts
          have hstream : Alike o o' := hstreams
          obtain ⟨hok, hsent⟩ := sendRequest_alike hstream t net.stack
          have hstack : (net.recut cuts).stack = net.stack := rfl
          have hstack' : (net.recut cuts').stack = net.stack := rfl
          rw [hstack, hstack']
          rcases hsend : sendRequest t net.stack o.conn with ⟨ok, conn⟩
          rcases hsend' : sendRequest t net.stack o'.conn with ⟨ok', conn'⟩
          rw [hsend, hsend'] at hok hsent
          dsimp only at hok hsent
          rw [hok]
          cases ok with
          | false => exact ⟨rfl, rfl⟩
          | true =>
            dsimp only
            obtain ⟨hexchange, hseen⟩ := readResponse_alike hsent
              (fun x hx => hclear x (.response hurl hconn hsend hx)) hfuel
            rw [← hseen]
            cases hresp : readResponse fuel { o with conn := conn } with
            | running =>
              rw [hresp] at hexchange
              cases hresp' : readResponse fuel { o' with conn := conn' } with
              | running => exact ⟨rfl, rfl⟩
              | _ => rw [hresp'] at hexchange; cases hexchange
            | failed =>
              rw [hresp] at hexchange
              cases hresp' : readResponse fuel { o' with conn := conn' } with
              | failed => exact ⟨rfl, rfl⟩
              | _ => rw [hresp'] at hexchange; cases hexchange
            | redirect url₁ x =>
              rw [hresp] at hexchange
              generalize readResponse fuel { o' with conn := conn' } = e at hexchange
              cases hexchange with
              | @redirect _ _ x' hx =>
                dsimp only
                have hnext : AlikeStreams (some x) (some x') := hx
                obtain ⟨hloop, hlines⟩ :=
                  ih hnext fun y hy => hclear y (.redirect hurl hconn hsend hresp hy)
                exact ⟨hloop, by rw [hlines]⟩
            | success x total =>
              rw [hresp] at hexchange
              generalize readResponse fuel { o' with conn := conn' } = e at hexchange
              cases hexchange with
              | success hx =>
                dsimp only [Option.map_some]
                exact ⟨by rw [hx.unread], rfl⟩

end

/-! ## The same receives -/

theorem httpsReceive_recut {os : HttpsStream} {cut : Nat → Nat}
    (h : cut os.conn.recvs = os.conn.cut os.conn.recvs) :
    httpsReceive (os.recut cut) = ((httpsReceive os).1, (httpsReceive os).2.recut cut) := by
  unfold httpsReceive Conn.receive HttpsStream.recut
  dsimp only
  rw [h]

theorem httpsFill_recut (need : Nat) (os : HttpsStream) {cut : Nat → Nat} (hos : os.consumed = 0)
    (h : ∀ i, i < (httpsFill need os).2.conn.recvs → cut i = os.conn.cut i) :
    httpsFill need (os.recut cut) = ((httpsFill need os).1, (httpsFill need os).2.recut cut) := by
  fun_induction httpsFill need os with
  | case1 os hmore r hzero =>
    have hreceive : httpsReceive (os.recut cut) = (r.1, r.2.recut cut) :=
      httpsReceive_recut (h _ (Nat.lt_succ_self _))
    rw [httpsFill, if_pos (show (os.recut cut).buf.length < need from hmore)]
    dsimp only
    rw [hreceive, dif_pos hzero]
  | case2 os hmore r hpos hover =>
    have hreceive : httpsReceive (os.recut cut) = (r.1, r.2.recut cut) :=
      httpsReceive_recut (h _ (Nat.lt_succ_self _))
    rw [httpsFill, if_pos (show (os.recut cut).buf.length < need from hmore)]
    dsimp only
    rw [hreceive, dif_neg hpos]
    exact if_pos hover
  | case3 os hmore r hpos hfits ih =>
    have hless : os.conn.recvs < (httpsFill need r.2).2.conn.recvs :=
      (Nat.lt_succ_self _).trans_le (httpsFill_onward need r.2 hos).recvs
    have hreceive : httpsReceive (os.recut cut) = (r.1, r.2.recut cut) :=
      httpsReceive_recut (h _ hless)
    rw [httpsFill, if_pos (show (os.recut cut).buf.length < need from hmore)]
    dsimp only
    rw [hreceive, dif_neg hpos, ← ih hos h]
    exact if_neg hfits
  | case4 os hdone =>
    rw [httpsFill]
    exact if_neg hdone

theorem readHttps_recut {os os' : HttpsStream} {consume need : Nat} {w : Window}
    {cut : Nat → Nat} (hread : readHttps os consume need = some (w, os'))
    (h : ∀ i, i < os'.conn.recvs → cut i = os.conn.cut i) :
    readHttps (os.recut cut) consume need = some (w, os'.recut cut) := by
  by_cases hserved : add64 (os.consumed + consume)
      (clampNeed (toInt64 (os.lengthRemaining - consume)) need) ≤ os.buf.length
  · rw [readHttps_served hserved] at hread
    cases hread
    exact readHttps_served hserved
  · cases hfill : httpsFill (clampNeed (toInt64 (os.lengthRemaining - consume)) need)
      (compressed os consume) with
    | mk ok os₁ =>
      have hserved' : ¬ add64 ((os.recut cut).consumed + consume)
          (clampNeed (toInt64 ((os.recut cut).lengthRemaining - consume)) need) ≤
            (os.recut cut).buf.length := hserved
      have hrecut : (∀ i, i < os₁.conn.recvs → cut i = os.conn.cut i) →
          httpsFill (clampNeed (toInt64 ((os.recut cut).lengthRemaining - consume)) need)
            (compressed (os.recut cut) consume) = (ok, os₁.recut cut) := by
        intro hsame
        have := httpsFill_recut _ (compressed os consume) rfl (by rw [hfill]; exact hsame)
        rw [hfill] at this
        exact this
      cases ok with
      | true =>
        rw [readHttps_filled hserved hfill] at hread
        cases hread
        have hresult := readHttps_filled hserved' (hrecut h)
        exact hresult
      | false =>
        rw [readHttps_fails hserved hfill] at hread
        cases hread
        have hresult := readHttps_fails hserved' (hrecut h)
        exact hresult

theorem getLineLoop_recut {fuel lineLen : Nat} {os os' : HttpsStream} {r : Option Bytes}
    {cut : Nat → Nat} (hcall : getLineLoop fuel lineLen os = some (r, os'))
    (h : ∀ i, i < os'.conn.recvs → cut i = os.conn.cut i) :
    getLineLoop fuel lineLen (os.recut cut) = some (r, os'.recut cut) := by
  induction fuel generalizing lineLen os with
  | zero => cases hcall
  | succ fuel ih =>
    rw [getLineLoop, Option.bind_eq_some_iff] at hcall
    obtain ⟨⟨w, os₁⟩, hread, hcall⟩ := hcall
    dsimp only at hcall
    have hcut₁ : os₁.conn.cut = os.conn.cut := (readHttps_onward hread).cut
    have hmore : os₁.conn.recvs ≤ os'.conn.recvs := by
      split at hcall
      · cases hcall
        exact le_rfl
      · split at hcall
        · cases hcall
          exact le_rfl
        · exact (getLineLoop_onward hcall).recvs
    have hread' := readHttps_recut hread
      (show ∀ i, i < os₁.conn.recvs → cut i = os.conn.cut i from
        fun i hi => h i (hi.trans_le hmore))
    have hreset : { os.recut cut with lengthRemaining := int64Max } =
        ({ os with lengthRemaining := int64Max } : HttpsStream).recut cut := rfl
    rw [getLineLoop, hreset, hread', Option.bind_some]
    dsimp only
    split at hcall
    · simp only [Option.some.injEq, Prod.mk.injEq] at hcall
      obtain ⟨rfl, rfl⟩ := hcall
      rfl
    · split at hcall
      · rename_i hlong
        rw [if_pos hlong]
        cases hcall
        rfl
      · rename_i hshort
        rw [if_neg hshort]
        exact ih hcall fun i hi => by rw [h i hi, hcut₁]

/-- A header block that is read with the same receives is seen the same way. -/
theorem headersLoop_recut {lineFuel fuel : Nat} {hs : Headers} {r : Option Headers}
    {os os' : HttpsStream} {cut : Nat → Nat}
    (hcall : headersLoop lineFuel fuel hs os = some (r, os'))
    (h : ∀ i, i < os'.conn.recvs → cut i = os.conn.cut i) :
    headersLoop lineFuel fuel hs (os.recut cut) = some (r, os'.recut cut) ∧
      headersSeen lineFuel fuel (os.recut cut) = headersSeen lineFuel fuel os := by
  induction fuel generalizing hs os with
  | zero => cases hcall
  | succ fuel ih =>
    unfold headersLoop at hcall
    unfold headersLoop headersSeen
    cases hget : getLine lineFuel os with
    | none =>
      rw [hget] at hcall
      cases hcall
    | some answer =>
      obtain ⟨line, os₁⟩ := answer
      rw [hget] at hcall
      cases line with
      | none =>
        cases hcall
        have hget' : getLine lineFuel (os.recut cut) = some (none, os'.recut cut) :=
          getLineLoop_recut hget h
        rw [hget']
        exact ⟨rfl, rfl⟩
      | some p =>
        have hon := getLineLoop_onward hget
        dsimp only at hcall
        by_cases hp : p = []
        · rw [if_pos hp] at hcall
          cases hcall
          have hget' : getLine lineFuel (os.recut cut) = some (some p, os'.recut cut) :=
            getLineLoop_recut hget h
          rw [hget']
          dsimp only
          rw [if_pos hp, if_pos hp, if_pos hp]
          exact ⟨rfl, rfl⟩
        · rw [if_neg hp] at hcall
          have hmore := (headersLoop_onward hcall).recvs
          have hget' : getLine lineFuel (os.recut cut) = some (some p, os₁.recut cut) :=
            getLineLoop_recut hget fun i hi => h i (hi.trans_le hmore)
          obtain ⟨hloop, hseen⟩ := ih hcall fun i hi => by rw [h i hi, hon.cut]
          rw [hget']
          dsimp only
          rw [if_neg hp, if_neg hp, if_neg hp]
          exact ⟨hloop, by rw [hseen]⟩

theorem readResponse_recut {fuel : Nat} {os os' : HttpsStream} {url : Bytes} {cut : Nat → Nat}
    (hresp : readResponse fuel os = .redirect url os')
    (h : ∀ i, i < os'.conn.recvs → cut i = os.conn.cut i) :
    readResponse fuel (os.recut cut) = .redirect url (os'.recut cut) ∧
      responseSeen fuel (os.recut cut) = responseSeen fuel os := by
  obtain ⟨hdr, os₁, hs, hget, hstatus, hheaders, hlocation⟩ := readResponse_redirect hresp
  have hmore := (headersLoop_onward hheaders).recvs
  have hget' := getLineLoop_recut hget fun i hi => h i (hi.trans_le hmore)
  have hsame : ∀ i, i < os'.conn.recvs → cut i = os₁.conn.cut i := by
    intro i hi
    rw [h i hi, (getLineLoop_onward hget).cut]
  obtain ⟨hheaders', hseen⟩ := headersLoop_recut hheaders hsame
  unfold readResponse responseSeen
  rw [getLine, hget', hget]
  dsimp only
  rw [hstatus]
  dsimp only
  rw [hheaders', hseen]
  dsimp only
  rw [hlocation]
  exact ⟨rfl, rfl⟩

/-! ## Byte by byte -/

/-- Nothing is buffered, and what comes next comes in single bytes. -/
structure Drained (os : HttpsStream) : Prop where
  parsing : Parsing os
  cut : ∀ i, os.conn.cut i = 1
  empty : os.consumed = os.buf.length

/-- A read that single bytes have to serve gets no more than it asks for. -/
theorem readHttps_single {os os' : HttpsStream} (h : Parsing os) (hcut : ∀ i, os.conn.cut i = 1)
    {need : Nat} (hneed : need ≤ headerLineMax + 1) (hmiss : os.lent < need) {w : Window}
    (hread : readHttps { os with lengthRemaining := int64Max } 0 need = some (w, os'))
    (hsome : w.bytes ≠ []) : os'.lent = need := by
  cases hfill : httpsFill need os.refilling with
  | mk ok os₁ =>
    rw [readHttps_refill h hneed hmiss hfill] at hread
    cases ok with
    | true =>
      simp only [if_true, Option.some.injEq, Prod.mk.injEq] at hread
      obtain ⟨-, rfl⟩ := hread
      have hlength := httpsFill_single os.refilling (fun i => hcut i) hfill
      rw [(length_refilling os).1] at hlength
      have hconsumed := httpsFill_consumed need os.refilling
      rw [hfill] at hconsumed
      have hzero : os₁.consumed = 0 := hconsumed
      unfold HttpsStream.lent at hlength ⊢
      unfold HttpsStream.lent at hmiss
      omega
    | false =>
      simp only [Bool.false_eq_true, if_false, Option.some.injEq, Prod.mk.injEq] at hread
      rw [← hread.1] at hsome
      exact absurd rfl hsome

/-- With single bytes `get_line` returns a line only if it is short enough, and has then
buffered nothing behind it. -/
theorem getLineLoop_single {fuel lineLen : Nat} {os os' : HttpsStream} {p : Bytes}
    (h : Parsing os) (hcut : ∀ i, os.conn.cut i = 1) (hlen : lineLen ≤ os.lent)
    (hlent : os.lent ≤ headerLineMax) (hnone : newline ∉ os.buf.drop os.consumed)
    (hcall : getLineLoop fuel lineLen os = some (some p, os')) :
    os'.consumed = os'.buf.length ∧ newline ∈ os.unread.take (headerLineMax + 1) := by
  induction fuel generalizing lineLen os with
  | zero => cases hcall
  | succ fuel ih =>
    obtain ⟨w, os₁, hread, h₁, hunread, -, hwindow, hfailed⟩ :=
      readHttps_parsing h (lineLen + 1) (by omega)
    have hcut₁ : ∀ i, os₁.conn.cut i = 1 := by
      rw [(readHttps_onward hread).cut]
      exact hcut
    have hunreadLen := length_unread os
    have hunreadLen₁ := length_unread os₁
    rw [hunread] at hunreadLen₁
    have hlentDef : os.lent = os.buf.length - os.consumed := rfl
    have hlentDef₁ : os₁.lent = os₁.buf.length - os₁.consumed := rfl
    rw [getLineLoop, hread, Option.bind_some] at hcall
    dsimp only at hcall
    rcases Nat.lt_or_ge os.unread.length (lineLen + 1) with hless | hmore
    · -- the peer has gone: the window is empty and the next round starts over
      rw [hfailed hless] at hcall
      dsimp only [strchr, List.length_nil] at hcall
      rw [if_neg (by omega)] at hcall
      have hincoming : os.conn.incoming = [] := by
        rw [← List.length_eq_zero_iff]
        omega
      have hbuffered : os₁.buf.drop os₁.consumed <+: os.buf.drop os.consumed := by
        have hall : os.unread = os.buf.drop os.consumed := by
          rw [HttpsStream.unread, hincoming, List.append_nil]
        rw [← hall, ← hunread]
        exact List.prefix_append _ _
      obtain ⟨hempty, hmem⟩ := ih h₁ hcut₁ (Nat.zero_le _) (by omega)
        (fun hmem => hnone (hbuffered.subset hmem)) hcall
      rw [hunread] at hmem
      exact ⟨hempty, hmem⟩
    · obtain ⟨hw, hlong⟩ := hwindow hmore
      have hpre : w.bytes <+: os.unread := by
        rw [hw, ← hunread]
        exact List.prefix_append _ _
      rcases Nat.lt_or_ge lineLen os.lent with hbuffered | hdry
      · -- the window is what was buffered before
        obtain ⟨os₂, hread₂, -, hbuf, -, hconsumed⟩ := readHttps_buffered h (by omega) hbuffered
        rw [hread] at hread₂
        cases hread₂
        dsimp only at hcall
        rw [strchr_eq_none_iff.mpr hnone] at hcall
        dsimp only at hcall
        rw [List.length_drop, if_neg (by omega)] at hcall
        have hsame : os₁.lent = os.lent := by rw [hlentDef, hlentDef₁, hbuf, hconsumed]
        obtain ⟨hempty, hmem⟩ := ih h₁ hcut₁ (by omega) (by omega)
          (by rw [hbuf, hconsumed]; exact hnone) hcall
        rw [hunread] at hmem
        exact ⟨hempty, hmem⟩
      · have hsome : w.bytes ≠ [] := List.ne_nil_of_length_pos (by omega)
        have hexact := readHttps_single h hcut (by omega) (by omega) hread hsome
        have hwlen : w.bytes.length = lineLen + 1 := by
          rw [hw, List.length_drop]
          omega
        have hstart : os.buf.drop os.consumed <+: w.bytes :=
          List.prefix_of_prefix_length_le (List.prefix_append _ _) hpre (by
            rw [List.length_drop]
            omega)
        split at hcall
        · rename_i rest hfind
          obtain ⟨a, b, hsplit, hrest, ha⟩ := strchr_eq_some hfind
          have hwl : a.length + 1 + b.length = lineLen + 1 := by
            rw [← hwlen, hsplit, List.length_append, List.length_cons]
            omega
          -- what was buffered has no newline, so the newline is the last byte
          have halen : lineLen ≤ a.length := by
            by_contra hshort
            apply hnone
            have hin : a ++ [newline] <+: os.buf.drop os.consumed := by
              refine List.prefix_of_prefix_length_le ?_ hstart ?_
              · rw [hsplit]
                exact ⟨b, by simp⟩
              · rw [List.length_append, List.length_singleton, List.length_drop]
                omega
            exact hin.subset (by simp)
          simp only [Option.some.injEq, Prod.mk.injEq] at hcall
          obtain ⟨-, rfl⟩ := hcall
          have hle₁ := h₁.consumed_le
          constructor
          · dsimp only
            rw [List.length_take, hrest, hwlen, List.length_cons]
            omega
          · have hin : w.bytes <+: os.unread.take (headerLineMax + 1) :=
              List.prefix_of_prefix_length_le hpre (List.take_prefix _ _) (by
                rw [List.length_take]
                omega)
            refine hin.subset ?_
            rw [hsplit]
            simp
        · rename_i hfind
          split at hcall
          · cases hcall
          · rename_i hshort
            rw [hwlen] at hcall hshort
            obtain ⟨hempty, hmem⟩ := ih h₁ hcut₁ (by omega) (by omega)
              (by rw [← hw]; exact strchr_eq_none_iff.mp hfind) hcall
            rw [hunread] at hmem
            exact ⟨hempty, hmem⟩

theorem Drained.after_line {fuel : Nat} {os os' : HttpsStream} {p : Bytes} (h : Drained os)
    (hcall : getLine fuel os = some (some p, os')) : Drained os' := by
  have hlent : os.lent = 0 := by
    unfold HttpsStream.lent
    rw [h.empty]
    omega
  refine ⟨(getLine_inv h.parsing hcall).1, ?_, (getLineLoop_single h.parsing h.cut
    (Nat.zero_le _) (by omega) (by rw [h.empty, List.drop_length]; simp) hcall).1⟩
  rw [(getLineLoop_onward hcall).cut]
  exact h.cut

/-- Byte by byte an ambiguous line is rejected. -/
theorem Drained.rejects {os : HttpsStream} (h : Drained os) (hamb : Ambiguous os.unread)
    {fuel : Nat} (hfuel : lineRounds ≤ fuel) : ∃ os', getLine fuel os = some (none, os') := by
  obtain ⟨line, rest, hsplit, hline, hlong, -⟩ := hamb
  obtain ⟨⟨_ | p, os'⟩, hcall⟩ := getLine_fed h.parsing
    (Or.inl (by rw [hsplit]; simp)) hfuel
  · exact ⟨os', hcall⟩
  · have hlent : os.lent = 0 := by
      unfold HttpsStream.lent
      rw [h.empty]
      omega
    have hmem := (getLineLoop_single h.parsing h.cut (Nat.zero_le _) (by omega)
      (by rw [h.empty, List.drop_length]; simp) hcall).2
    rw [hsplit, List.take_append_of_le_length hlong] at hmem
    exact absurd (List.mem_of_mem_take hmem) hline

/-- The room of the buffer when a stream with nothing buffered starts to receive. -/
theorem refilling_room {os : HttpsStream} (h : Parsing os) (hempty : os.consumed = os.buf.length) :
    (if os.refilling.room = 0 then growth else os.refilling.room) = growth := by
  have hroom : os.refilling.room = os.buf.length + os.room := by
    rw [(length_refilling os).2, hempty]
    omega
  obtain ⟨k, hk⟩ := h.steps
  have hle := h.bufsz_le
  rw [hroom, hk]
  rw [hk] at hle
  have hk' : k = 0 ∨ k = 1 := by
    unfold growth at hle
    omega
  rcases hk' with rfl | rfl
  · rfl
  · rw [Nat.mul_one]
    decide

/-- In one piece an ambiguous line passes. -/
theorem getLine_chunk {os : HttpsStream} (h : Parsing os) (hempty : os.consumed = os.buf.length)
    (hchunk : growth ≤ os.conn.cut os.conn.recvs) (hamb : Ambiguous os.unread) :
    ∃ p os', getLine 1 os = some (some p, os') := by
  obtain ⟨line, rest, hsplit, hline, -, hfits⟩ := hamb
  have hlent : os.lent = 0 := by
    unfold HttpsStream.lent
    omega
  have hincoming : os.conn.incoming = line ++ newline :: rest := by
    rw [← hsplit, HttpsStream.unread, hempty, List.drop_length, List.nil_append]
  have hrequest : receiveRequest os.isHttps growth = growth := by
    cases os.isHttps <;> decide
  have htaken : (httpsReceive os.refilling).1 = min growth os.conn.incoming.length := by
    have hfst : (httpsReceive os.refilling).1 = min (min (os.conn.cut os.conn.recvs)
        (receiveRequest os.isHttps (if os.refilling.room = 0 then growth else os.refilling.room)))
          os.conn.incoming.length := httpsReceive_fst os.refilling
    rw [hfst, refilling_room h hempty, hrequest, Nat.min_eq_right hchunk]
  have hlong : line.length < (httpsReceive os.refilling).1 := by
    rw [htaken, hincoming, List.length_append, List.length_cons]
    omega
  have hempty' : os.refilling.buf = [] := by
    rw [← List.length_eq_zero_iff, (length_refilling os).1, hlent]
  have hbuf : (httpsReceive os.refilling).2.buf =
      os.conn.incoming.take (httpsReceive os.refilling).1 := by
    have hbytes := httpsReceive_bytes os.refilling
    have hlen := (httpsReceive_length os.refilling).1
    rw [hempty', List.nil_append] at hbytes
    rw [hempty', List.length_nil, Nat.zero_add] at hlen
    have hconn : os.refilling.conn.incoming = os.conn.incoming := rfl
    rw [← hlen, ← hconn, ← hbytes, List.take_left]
  have hfill : httpsFill 1 os.refilling = (true, (httpsReceive os.refilling).2) := by
    have hlen := (httpsReceive_length os.refilling).1
    rw [hempty', List.length_nil, Nat.zero_add] at hlen
    rw [httpsFill, if_pos (by rw [hempty']; exact Nat.one_pos)]
    dsimp only
    rw [dif_neg (by omega), if_neg, httpsFill, if_neg (by omega)]
    rw [refilling_remaining, int64Max_eq, hlen, htaken]
    unfold growth
    omega
  have hread := readHttps_refill h (by decide) (by omega) hfill
  have hmem : newline ∈ (httpsReceive os.refilling).2.buf := by
    rw [hbuf, hincoming, List.take_append]
    refine List.mem_append_right _ ?_
    obtain ⟨k, hk⟩ : ∃ k, (httpsReceive os.refilling).1 - line.length = k + 1 :=
      ⟨(httpsReceive os.refilling).1 - line.length - 1, by omega⟩
    rw [hk, List.take_succ_cons]
    exact List.mem_cons_self
  rw [if_pos rfl] at hread
  rw [getLine, getLineLoop, hread, Option.bind_some]
  dsimp only
  cases hfind : strchr (httpsReceive os.refilling).2.buf newline with
  | none => exact absurd hmem (strchr_eq_none_iff.mp hfind)
  | some r => exact ⟨_, _, rfl⟩

/-! ## Two runs that part -/

/-- A transport that hands over single bytes up to a receive and a whole buffer there. -/
def chunkAt (k : Nat) : Nat → Nat := fun i => if i < k then 1 else growth

theorem chunkAt_pos (k i : Nat) : 0 < chunkAt k i := by
  unfold chunkAt growth
  split <;> omega

theorem chunkAt_below {k i : Nat} (h : i < k) : chunkAt k i = 1 := if_pos h

theorem Parsing.recut {os : HttpsStream} {cut : Nat → Nat} (h : Parsing os)
    (hcut : ∀ i, 0 < cut i) : Parsing (os.recut cut) :=
  ⟨h.consumed_le, h.steps, h.bufsz_le, hcut⟩

/-- At a call for an ambiguous line the two transports differ. -/
theorem Drained.parts {os : HttpsStream} (h : Drained os) (hamb : Ambiguous os.unread)
    {lineFuel : Nat} (hline : lineRounds ≤ lineFuel) :
    ∃ p, (∃ os', getLine lineFuel os = some (none, os')) ∧
      ∃ os', getLine lineFuel (os.recut (chunkAt os.conn.recvs)) = some (some p, os') := by
  obtain ⟨p, os', hchunk⟩ := getLine_chunk (h.parsing.recut (chunkAt_pos os.conn.recvs)) h.empty
    (by show growth ≤ chunkAt os.conn.recvs os.conn.recvs; simp [chunkAt]) hamb
  have hle : 1 ≤ lineFuel := le_trans (by decide) hline
  exact ⟨p, h.rejects hamb hline, os', getLineLoop_mono hchunk hle⟩

theorem HeaderCall.recvs {os os' : HttpsStream} (h : HeaderCall os os') :
    os.conn.recvs ≤ os'.conn.recvs := by
  induction h with
  | here => exact le_rfl
  | next hline _ _ ih => exact (getLineLoop_onward hline).recvs.trans ih

theorem ResponseCall.recvs {os os' : HttpsStream} (h : ResponseCall os os') :
    os.conn.recvs ≤ os'.conn.recvs := by
  cases h with
  | status => exact le_rfl
  | header hline _ _ hcall => exact (getLineLoop_onward hline).recvs.trans hcall.recvs

/-- A line that comes back with some number of rounds comes back with `lineRounds`. -/
theorem getLine_rounds {os : HttpsStream} (h : Parsing os) {fuel lineFuel : Nat}
    {r : Option Bytes × HttpsStream} (hcall : getLine fuel os = some r)
    (hline : lineRounds ≤ lineFuel) : getLine lineFuel os = some r := by
  obtain ⟨r', hget⟩ := getLine_fed h (fed_of_getLine h hcall) hline
  rw [hget, getLine_unique hget hcall]

theorem HeaderCall.parts {os os' : HttpsStream} (h : HeaderCall os os') (hos : Drained os)
    (hamb : Ambiguous os'.unread) :
    ∃ seen p n, ∀ lineFuel fuel, lineRounds ≤ lineFuel → n ≤ fuel →
      seen ++ [none] <+: headersSeen lineFuel fuel os ∧
        seen ++ [some p] <+: headersSeen lineFuel fuel (os.recut (chunkAt os'.conn.recvs)) := by
  induction h with
  | here os =>
    obtain ⟨p, -, o', hpass⟩ := hos.parts hamb le_rfl
    refine ⟨[], p, 1, fun lineFuel fuel hline hfuel => ?_⟩
    have hpass' := getLineLoop_mono hpass hline
    obtain ⟨o, hreject⟩ := hos.rejects hamb hline
    obtain ⟨fuel, rfl⟩ : ∃ f, fuel = f + 1 := ⟨fuel - 1, by omega⟩
    constructor
    · rw [headersSeen, hreject]
      exact List.prefix_rfl
    · rw [headersSeen, getLine, hpass']
      exact ⟨_, rfl⟩
  | @next fuel₁ p₁ os os₁ os' hget hp hcall ih =>
    obtain ⟨seen, p, n, hseen⟩ := ih (hos.after_line hget) hamb
    refine ⟨some p₁ :: seen, p, n + 1, fun lineFuel fuel hline hfuel => ?_⟩
    obtain ⟨fuel, rfl⟩ : ∃ f, fuel = f + 1 := ⟨fuel - 1, by omega⟩
    obtain ⟨hbyte, hchunk⟩ := hseen lineFuel fuel hline (by omega)
    have hget' := getLine_rounds hos.parsing hget hline
    have hsame : ∀ i, i < os₁.conn.recvs → chunkAt os'.conn.recvs i = os.conn.cut i := by
      intro i hi
      rw [hos.cut, chunkAt_below (hi.trans_le hcall.recvs)]
    constructor
    · rw [headersSeen, hget']
      dsimp only
      rw [if_neg hp]
      exact List.cons_prefix_cons.mpr ⟨rfl, hbyte⟩
    · rw [headersSeen, getLine, getLineLoop_recut hget' hsame]
      dsimp only
      rw [if_neg hp]
      exact List.cons_prefix_cons.mpr ⟨rfl, hchunk⟩

theorem ResponseCall.parts {os os' : HttpsStream} (h : ResponseCall os os') (hos : Drained os)
    (hamb : Ambiguous os'.unread) :
    ∃ seen p n, ∀ fuel, lineRounds ≤ fuel → n ≤ fuel →
      seen ++ [none] <+: responseSeen fuel os ∧
        seen ++ [some p] <+: responseSeen fuel (os.recut (chunkAt os'.conn.recvs)) := by
  cases h with
  | status =>
    obtain ⟨p, -, o', hpass⟩ := hos.parts hamb le_rfl
    refine ⟨[], p, 0, fun fuel hline _ => ?_⟩
    have hpass' := getLineLoop_mono hpass hline
    obtain ⟨o, hreject⟩ := hos.rejects hamb hline
    constructor
    · rw [responseSeen, hreject]
      exact List.prefix_rfl
    · rw [responseSeen, getLine, hpass']
      exact ⟨_, rfl⟩
  | @header fuel₁ hdr httperr _ os₁ _ hget hstatus herr hcall =>
    obtain ⟨seen, p, n, hseen⟩ := hcall.parts (hos.after_line hget) hamb
    refine ⟨some hdr :: seen, p, n, fun fuel hline hfuel => ?_⟩
    obtain ⟨hbyte, hchunk⟩ := hseen fuel fuel hline hfuel
    have hget' := getLine_rounds hos.parsing hget hline
    have hsame : ∀ i, i < os₁.conn.recvs → chunkAt os'.conn.recvs i = os.conn.cut i := by
      intro i hi
      rw [hos.cut, chunkAt_below (hi.trans_le hcall.recvs)]
    constructor
    · rw [responseSeen, hget']
      dsimp only
      rw [hstatus]
      dsimp only
      rw [if_neg herr]
      exact List.cons_prefix_cons.mpr ⟨rfl, hbyte⟩
    · rw [responseSeen, getLine, getLineLoop_recut hget' hsame]
      dsimp only
      rw [hstatus]
      dsimp only
      rw [if_neg herr]
      exact List.cons_prefix_cons.mpr ⟨rfl, hchunk⟩

theorem sendLoop_recut (memory : Bytes) (reqsz : Nat) (c : Conn) (cut : Nat → Nat) :
    sendLoop memory reqsz { c with cut := cut } =
        ((sendLoop memory reqsz c).1, { (sendLoop memory reqsz c).2 with cut := cut }) ∧
      (sendLoop memory reqsz c).2.recvs = c.recvs := by
  fun_induction sendLoop memory reqsz c with
  | case1 c =>
    rw [sendLoop, if_pos rfl]
    exact ⟨rfl, rfl⟩
  | case2 reqsz c hne r =>
    rename_i hzero
    refine ⟨?_, rfl⟩
    rw [sendLoop, if_neg hne]
    exact dif_pos hzero
  | case3 reqsz c hne r hsome =>
    rename_i ih
    refine ⟨?_, ih.2⟩
    rw [sendLoop, if_neg hne, ← ih.1]
    exact dif_neg hsome

theorem sendRequest_recut (t : Target) (stack : Nat → UInt8) (c : Conn) (cut : Nat → Nat) :
    sendRequest t stack { c with cut := cut } =
        ((sendRequest t stack c).1, { (sendRequest t stack c).2 with cut := cut }) ∧
      (sendRequest t stack c).2.recvs = c.recvs := by
  unfold sendRequest
  dsimp only
  split
  · split
    · exact ⟨rfl, rfl⟩
    · exact ⟨rfl, rfl⟩
  · exact sendLoop_recut _ _ _ _

theorem Drained.sendRequest {os : HttpsStream} {t : Target} {stack : Nat → UInt8} {conn : Conn}
    (h : Drained os) (hsend : sendRequest t stack os.conn = (true, conn)) :
    Drained { os with conn := conn } := by
  refine ⟨h.parsing.sendRequest hsend, ?_, h.empty⟩
  have hsame := sendRequest_incoming t stack os.conn
  rw [hsend] at hsame
  dsimp only
  rw [hsame.cut]
  exact h.cut

theorem Drained.after_headers {lineFuel fuel : Nat} {hs hs' : Headers} {os os' : HttpsStream}
    (h : Drained os) (hcall : headersLoop lineFuel fuel hs os = some (some hs', os')) :
    Drained os' := by
  induction fuel generalizing hs os with
  | zero => cases hcall
  | succ fuel ih =>
    unfold headersLoop at hcall
    split at hcall
    · cases hcall
    · cases hcall
    · rename_i p os₁ hget
      split at hcall
      · cases hcall
        exact h.after_line hget
      · exact ih (h.after_line hget) hcall

theorem Drained.redirect {fuel : Nat} {os os' : HttpsStream} {url : Bytes} (h : Drained os)
    (hresp : readResponse fuel os = .redirect url os') : Drained os' := by
  obtain ⟨hdr, os₁, hs, hget, -, hheaders, -⟩ := readResponse_redirect hresp
  exact (h.after_line hget).after_headers hheaders

/-- A connection byte by byte: it is the one in use, whatever its cuts, or a new one. -/
theorem openConnection_byByte {net : Net} {attempts attempts' : Nat} {os : Option HttpsStream}
    {t : Target} {os₁ : HttpsStream} (hos : ∀ o, os = some o → Drained o)
    (h : openConnection (net.recut byByte) attempts os t = (some os₁, attempts')) :
    Drained os₁ ∧
      ((attempts' = attempts ∧ os = some os₁ ∧ ∀ cuts cut,
          openConnection (net.recut cuts) attempts (some (os₁.recut cut)) t =
            (some (os₁.recut cut), attempts)) ∨
        (attempts' = attempts + 1 ∧ ∀ cuts cut,
          openConnection (net.recut cuts) attempts (os.map (HttpsStream.recut · cut)) t =
            (some (os₁.recut (cuts attempts)), attempts + 1))) := by
  have hnet : (net.recut byByte).HandsOver := recut_handsOver net fun _ _ => Nat.one_pos
  have hparsing := openConnection_parsing hnet (fun o ho => (hos o ho).parsing) h
  cases os with
  | none =>
    simp only [openConnection, Prod.mk.injEq, Option.map_eq_some_iff, Net.recut] at h
    obtain ⟨⟨c, ⟨c₀, hconnect, rfl⟩, rfl⟩, hattempts⟩ := h
    refine ⟨⟨hparsing, fun _ => rfl, rfl⟩, Or.inr ⟨hattempts.symm, fun cuts cut => ?_⟩⟩
    simp only [openConnection, Option.map_none, Net.recut, hconnect, Option.map_some,
      HttpsStream.recut]
  | some o =>
    simp only [openConnection] at h
    split at h
    · rename_i hsame
      simp only [Prod.mk.injEq, Option.some.injEq] at h
      obtain ⟨rfl, rfl⟩ := h
      exact ⟨hos o rfl, Or.inl ⟨rfl, rfl, fun cuts cut => if_pos hsame⟩⟩
    · rename_i hother
      simp only [Prod.mk.injEq, Option.map_eq_some_iff, Net.recut] at h
      obtain ⟨⟨c, ⟨c₀, hconnect, rfl⟩, rfl⟩, hattempts⟩ := h
      refine ⟨⟨hparsing, fun _ => rfl, rfl⟩, Or.inr ⟨hattempts.symm, fun cuts cut => ?_⟩⟩
      have hother' : ¬ ((o.recut cut).host = t.host ∧ (o.recut cut).isHttps = t.isHttps ∧
          (o.recut cut).port = t.port) := hother
      simp only [openConnection, Option.map_some]
      rw [if_neg hother']
      simp only [Net.recut, hconnect, Option.map_some, HttpsStream.recut]

theorem headersSeen_mono {lineFuel lineFuel' fuel fuel' : Nat} {hs : Headers} {os : HttpsStream}
    {r : Option Headers × HttpsStream} (hcall : headersLoop lineFuel fuel hs os = some r)
    (hline : lineFuel ≤ lineFuel') (hle : fuel ≤ fuel') :
    headersSeen lineFuel' fuel' os = headersSeen lineFuel fuel os := by
  induction fuel generalizing fuel' hs os with
  | zero => cases hcall
  | succ fuel ih =>
    obtain ⟨fuel', rfl⟩ : ∃ f, fuel' = f + 1 := ⟨fuel' - 1, by omega⟩
    unfold headersLoop at hcall
    unfold headersSeen
    cases hget : getLine lineFuel os with
    | none =>
      rw [hget] at hcall
      cases hcall
    | some r₁ =>
      rw [getLine, getLineLoop_mono hget hline]
      rw [hget] at hcall
      obtain ⟨p | p, os₁⟩ := r₁
      · rfl
      · dsimp only at hcall ⊢
        split at hcall
        · rename_i hp
          rw [if_pos hp, if_pos hp]
        · rename_i hp
          rw [if_neg hp, if_neg hp, ih hcall (by omega)]

theorem responseSeen_redirect {fuel fuel' : Nat} {os os' : HttpsStream} {url : Bytes}
    (hresp : readResponse fuel os = .redirect url os') (hle : fuel ≤ fuel') :
    responseSeen fuel' os = responseSeen fuel os := by
  obtain ⟨hdr, os₁, hs, hget, hstatus, hheaders, -⟩ := readResponse_redirect hresp
  unfold responseSeen
  rw [hget, getLine, getLineLoop_mono hget hle]
  dsimp only
  rw [hstatus]
  dsimp only
  rw [headersSeen_mono hheaders hle hle]

/-- What is seen of a run from a request on. -/
theorem downloaderSeen_request {net : Net} (requests : Nat) {attempts attempts' : Nat}
    {os : Option HttpsStream} {url : Bytes} {t : Target} {os₁ : HttpsStream} {conn : Conn}
    (hurl : parseUrl url = some t)
    (hconn : openConnection net attempts os t = (some os₁, attempts'))
    (hsend : sendRequest t net.stack os₁.conn = (true, conn)) (fuel : Nat) :
    responseSeen fuel { os₁ with conn := conn } <+:
        downloaderSeen net fuel (requests + 1) attempts os url ∧
      ∀ url' os₂, readResponse fuel { os₁ with conn := conn } = .redirect url' os₂ →
        downloaderSeen net fuel (requests + 1) attempts os url =
          responseSeen fuel { os₁ with conn := conn } ++
            downloaderSeen net fuel requests attempts' (some os₂) url' := by
  have hrun : downloaderSeen net fuel (requests + 1) attempts os url =
      responseSeen fuel { os₁ with conn := conn } ++
        match readResponse fuel { os₁ with conn := conn } with
        | .redirect url os => downloaderSeen net fuel requests attempts' (some os) url
        | _ => [] := by
    rw [downloaderSeen, hurl]
    dsimp only
    rw [hconn]
    dsimp only
    rw [hsend]
  refine ⟨hrun ▸ List.prefix_append _ _, fun url' os₂ hresp => ?_⟩
  rw [hrun, hresp]

/-- The same request on the same connection with other cuts. -/
theorem sendRequest_recut_stream {t : Target} {stack : Nat → UInt8} {os : HttpsStream} {conn : Conn}
    (hsend : sendRequest t stack os.conn = (true, conn)) (cut : Nat → Nat) :
    sendRequest t stack (os.recut cut).conn = (true, { conn with cut := cut }) := by
  have h := (sendRequest_recut t stack os.conn cut).1
  rw [hsend] at h
  exact h

/-- From an ambiguous line on, a run byte by byte and one with a whole buffer at that place
part. The cuts are chosen for the connections still to be opened, and `cut` for the one
in use. -/
theorem DownloadCall.parts {net : Net} {requests attempts : Nat} {os : Option HttpsStream}
    {url : Bytes} {os' : HttpsStream}
    (h : DownloadCall (net.recut byByte) requests attempts os url os')
    (hos : ∀ o, os = some o → Drained o) (hamb : Ambiguous os'.unread) :
    ∃ (cuts : Nat → Nat → Nat) (cut : Nat → Nat) (seen : List (Option Bytes)) (p : Bytes) (n : Nat),
      (∀ i j, 0 < cuts i j) ∧ (∀ j, 0 < cut j) ∧
      (∀ o, os = some o → ∀ i, i < o.conn.recvs → cut i = 1) ∧
      ∀ cuts', (∀ i, attempts ≤ i → cuts' i = cuts i) → ∀ fuel, lineRounds ≤ fuel → n ≤ fuel →
        seen ++ [none] <+: downloaderSeen (net.recut byByte) fuel requests attempts os url ∧
          seen ++ [some p] <+: downloaderSeen (net.recut cuts') fuel requests attempts
            (os.map (HttpsStream.recut · cut)) url := by
  induction h with
  | @response _ attempts attempts' os url t os₁ os' conn hurl hconn hsend hcall =>
    obtain ⟨hos₁, hkind⟩ := openConnection_byByte hos hconn
    obtain ⟨seen, p, n, hseen⟩ := hcall.parts (hos₁.sendRequest hsend) hamb
    have hsend' := sendRequest_recut_stream hsend (chunkAt os'.conn.recvs)
    rcases hkind with ⟨rfl, rfl, hreuse⟩ | ⟨rfl, hnew⟩
    · have hrecvs : os₁.conn.recvs ≤ os'.conn.recvs := by
        have hsame := (sendRequest_recut t net.stack os₁.conn (fun _ => 1)).2
        have hsend₁ : sendRequest t net.stack os₁.conn = (true, conn) := hsend
        rw [hsend₁] at hsame
        rw [← hsame]
        exact hcall.recvs
      refine ⟨byByte, chunkAt os'.conn.recvs, seen, p, n, fun _ _ => Nat.one_pos, chunkAt_pos _,
        fun o ho i hi => ?_, fun cuts' _ fuel hline hfuel => ?_⟩
      · cases ho
        exact chunkAt_below (hi.trans_le hrecvs)
      · obtain ⟨hbyte, hchunk⟩ := hseen fuel hline hfuel
        exact ⟨hbyte.trans (downloaderSeen_request _ hurl hconn hsend fuel).1,
          hchunk.trans (downloaderSeen_request _ hurl (hreuse cuts' _) hsend' fuel).1⟩
    · refine ⟨fun _ => chunkAt os'.conn.recvs, fun _ => 1, seen, p, n, fun _ => chunkAt_pos _,
        fun _ => Nat.one_pos, fun _ _ _ _ => rfl, fun cuts' hcuts' fuel hline hfuel => ?_⟩
      obtain ⟨hbyte, hchunk⟩ := hseen fuel hline hfuel
      have hopen := hnew cuts' (fun _ => 1)
      rw [hcuts' attempts le_rfl] at hopen
      exact ⟨hbyte.trans (downloaderSeen_request _ hurl hconn hsend fuel).1,
        hchunk.trans (downloaderSeen_request _ hurl hopen hsend' fuel).1⟩
  | @redirect fuel₁ requests attempts attempts' os url url' t os₁ os₂ os' conn hurl hconn hsend
      hresp hcall ih =>
    obtain ⟨hos₁, hkind⟩ := openConnection_byByte hos hconn
    have hstart := hos₁.sendRequest hsend
    obtain ⟨cuts, cut, seen, p, n, hcuts, hcut, hbelow, hseen⟩ := ih (by
      intro o ho
      cases ho
      exact hstart.redirect hresp) hamb
    have hsend' := sendRequest_recut_stream hsend cut
    have hrecvs : os₁.conn.recvs ≤ os₂.conn.recvs := by
      have hkeep := (sendRequest_recut t net.stack os₁.conn (fun _ => 1)).2
      have hsend₁ : sendRequest t net.stack os₁.conn = (true, conn) := hsend
      rw [hsend₁] at hkeep
      rw [← hkeep]
      exact (readResponse_onward hresp).recvs
    -- the redirect is read with the same receives under `cut`
    have hsame : ∀ i, i < os₂.conn.recvs → cut i = conn.cut i := by
      intro i hi
      rw [hbelow os₂ rfl i hi]
      exact (hstart.cut i).symm
    have hresp' : readResponse fuel₁ { os₁.recut cut with conn := { conn with cut := cut } } =
        .redirect url' (os₂.recut cut) := (readResponse_recut hresp hsame).1
    have hseen' : responseSeen fuel₁ { os₁.recut cut with conn := { conn with cut := cut } } =
        responseSeen fuel₁ { os₁ with conn := conn } := (readResponse_recut hresp hsame).2
    have hboth : ∀ cuts' os'', (∀ i, attempts' ≤ i → cuts' i = cuts i) →
        openConnection (net.recut cuts') attempts os'' t = (some (os₁.recut cut), attempts') →
        ∀ fuel, lineRounds ≤ fuel → max fuel₁ n ≤ fuel →
          (responseSeen fuel₁ { os₁ with conn := conn } ++ seen) ++ [none] <+:
              downloaderSeen (net.recut byByte) fuel (requests + 1) attempts os url ∧
            (responseSeen fuel₁ { os₁ with conn := conn } ++ seen) ++ [some p] <+:
              downloaderSeen (net.recut cuts') fuel (requests + 1) attempts os'' url := by
      intro cuts' os'' hcuts' hopen fuel hline hfuel
      obtain ⟨hbyte, hchunk⟩ := hseen cuts' hcuts' fuel hline (by omega)
      have hle : fuel₁ ≤ fuel := by omega
      rw [(downloaderSeen_request requests hurl hconn hsend fuel).2 url' os₂
          (by rw [readResponse_mono (by rw [hresp]; simp) hle, hresp]),
        (downloaderSeen_request requests hurl hopen hsend' fuel).2 url' (os₂.recut cut)
          (by rw [readResponse_mono (by rw [hresp']; simp) hle, hresp']),
        responseSeen_redirect hresp hle, responseSeen_redirect hresp' hle, hseen',
        List.append_assoc, List.append_assoc]
      exact ⟨(List.prefix_append_right_inj _).mpr hbyte,
        (List.prefix_append_right_inj _).mpr hchunk⟩
    rcases hkind with ⟨rfl, rfl, hreuse⟩ | ⟨rfl, hnew⟩
    · refine ⟨cuts, cut, responseSeen fuel₁ { os₁ with conn := conn } ++ seen, p, max fuel₁ n,
        hcuts, hcut, fun o ho i hi => ?_, fun cuts' hcuts' => hboth cuts' _ hcuts' (hreuse cuts' cut)⟩
      cases ho
      exact hbelow os₂ rfl i (hi.trans_le hrecvs)
    · -- the connection opened here gets the cuts chosen for it further on
      refine ⟨Function.update cuts attempts cut, fun _ => 1,
        responseSeen fuel₁ { os₁ with conn := conn } ++ seen, p, max fuel₁ n, fun i => ?_,
        fun _ => Nat.one_pos, fun _ _ _ _ => rfl, fun cuts' hcuts' => ?_⟩
      · by_cases hi : i = attempts
        · rw [hi, Function.update_self]
          exact hcut
        · rw [Function.update_of_ne hi]
          exact hcuts i
      · refine hboth cuts' _ (fun i hi => ?_) ?_
        · rw [hcuts' i (by omega), Function.update_of_ne (by omega)]
        · have hopen := hnew cuts' (fun _ => 1)
          rwa [hcuts' attempts le_rfl, Function.update_self] at hopen

/-! ## The limit and the cuts -/

/-- A call for an ambiguous line makes the cuts matter. -/
theorem LineCall.cuts_matter {net : Net} {url : Bytes} {os : HttpsStream}
    (hcall : LineCall (net.recut byByte) url os) (hamb : Ambiguous os.unread) :
    ¬ SameForAllCuts net url := by
  intro hsame
  obtain ⟨cuts, cut, seen, p, n, hcuts, -, -, hseen⟩ := DownloadCall.parts hcall (by simp) hamb
  obtain ⟨hreject, hpass⟩ := hseen cuts (fun _ _ => rfl) (max lineRounds n)
    (Nat.le_max_left _ _) (Nat.le_max_right _ _)
  have hlines : linesSeen (net.recut byByte) (max lineRounds n) url =
      linesSeen (net.recut cuts) (max lineRounds n) url :=
    (hsame byByte cuts (fun _ _ => Nat.one_pos) hcuts _ (Nat.le_max_left _ _)).1
  have hpass' : seen ++ [some p] <+: linesSeen (net.recut byByte) (max lineRounds n) url := by
    rw [hlines]
    exact hpass
  have hequal : seen ++ [none] = seen ++ [some p] :=
    (List.prefix_of_prefix_length_le hreject hpass' (by simp)).eq_of_length (by simp)
  cases List.append_cancel_left hequal

/-- **The length limit and the packets.** The lines seen and rejected, and what the downloader
returns, are the same for all ways of cutting what the servers send exactly if, when it
comes byte by byte, no line is called for that is longer than allowed and fits into the
buffer. -/
theorem same_for_all_cuts_iff (net : Net) (url : Bytes) :
    SameForAllCuts net url ↔
      ∀ os, LineCall (net.recut byByte) url os → ¬ Ambiguous os.unread := by
  constructor
  · intro hsame os hcall hamb
    exact hcall.cuts_matter hamb hsame
  · intro hclear cuts cuts' hcuts hcuts' fuel hfuel
    have hbyte : ∀ i j, 0 < byByte i j := fun _ _ => Nat.one_pos
    have hstart : AlikeStreams none none := trivial
    obtain ⟨hloop, hseen⟩ := downloaderLoop_alike hbyte hcuts hfuel hstart hclear
    obtain ⟨hloop', hseen'⟩ := downloaderLoop_alike hbyte hcuts' hfuel hstart hclear
    exact ⟨hseen.symm.trans hseen', hloop.symm.trans hloop'⟩

/-- A redirect to a url of more than 600 bytes. -/
def longRedirect : Bytes :=
  lit "HTTP/1.1 302 Found\r" ++ newline ::
    ((lit "Location: http://g/" ++ List.replicate 600 97 ++ [carriageReturn]) ++
      newline :: lit "\r\n")

theorem long_redirect_depends_on_cuts :
    ¬ SameForAllCuts (plainNet longRedirect) (lit "http://h/") := by
  have hurl : parseUrl (lit "http://h/") = some ⟨false, lit "h", 80, lit "/"⟩ := by decide
  obtain ⟨conn, hsend, hsame⟩ := sendRequest_spec ⟨false, lit "h", 80, lit "/"⟩ (fun _ => 0)
    (show ∀ i, 0 < ({ plainConn longRedirect with cut := byByte 0 } : Conn).accept i from
      fun _ => by simp [plainConn])
  have hos : Parsing ⟨conn, lit "h", 80, false, [], 0, 0, 0⟩ := by
    refine ⟨le_rfl, ⟨0, rfl⟩, Nat.zero_le _, fun i => ?_⟩
    rw [hsame.cut]
    exact Nat.one_pos
  have hunread : HttpsStream.unread ⟨conn, lit "h", 80, false, [], 0, 0, 0⟩ = longRedirect :=
    hsame.incoming
  obtain ⟨os₁, hget, -, hrest, -⟩ := getLineLoop_spec hos hunread (by decide)
    (by decide) (Nat.zero_le _) (show _ < 64 by decide)
  have hstatus : statusCode (cstr (stripReturn (lit "HTTP/1.1 302 Found\r"))) = some 302 := by
    decide
  have hcall : LineCall ((plainNet longRedirect).recut byByte) (lit "http://h/") os₁ :=
    .response hurl rfl hsend (.header hget hstatus (by decide) (.here os₁))
  have hlength : (lit "Location: http://g/").length = 19 := by decide
  refine hcall.cuts_matter ⟨_, _, hrest, ?_, ?_, ?_⟩
  · simp only [List.mem_append, List.mem_replicate, not_or, not_and]
    exact ⟨⟨by decide, fun _ => by decide⟩, by decide⟩
  · simp only [List.length_append, List.length_replicate, hlength, List.length_singleton]
    decide
  · simp only [List.length_append, List.length_replicate, hlength, List.length_singleton]
    decide

end ToolchainTools
