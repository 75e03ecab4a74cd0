import ToolchainTools.Stream.HttpResponse

/-!
# Requests on the wire

The downloader follows redirects, and the socket, the TLS session, the host, the port, the
scheme and the buffer are separate fields of its stream. `downloaderRun` is the downloader
together with the requests it writes and where each of them goes; forgetting these gives
the downloader. A request goes to the peer that its url names, and every byte its response
is parsed from was received on the connection it was written to.

What a plain connection carries of a request is another matter: the loop over `send` does
not move on in the request, and its length is the one before `snprintf` has cut it.
-/

namespace ToolchainTools

open CLib Streams

/-! ## Where a request goes -/

/-- `br_ssl_client_reset` and `br_sslio_init`: the name the server has to prove and the
socket of the session. -/
structure TlsSession where
  host : Bytes
  fd : Nat

/-- A stream together with its socket. A socket is named by the number of the attempt that
opened it; `peer` is where it was opened to and `opened` the connection it was then. -/
structure Link where
  os : HttpsStream
  fd : Nat
  peer : Bytes × Int
  opened : Conn
  tls : Option TlsSession

/-- `openConnection` with the socket and the TLS session. -/
def openLink (net : Net) (attempts : Nat) (l : Option Link) (t : Target) : Option Link × Nat :=
  match l with
  | some l =>
    if l.os.host = t.host ∧ l.os.isHttps = t.isHttps ∧ l.os.port = t.port then (some l, attempts)
    else
      ((net.connect attempts t.host t.port).map fun c =>
        { os :=
            { l.os with
              conn := c
              host := t.host
              port := t.port
              isHttps := t.isHttps
              room := l.os.room + l.os.buf.length
              buf := []
              consumed := 0 }
          fd := attempts
          peer := (t.host, t.port)
          opened := c
          tls := if t.isHttps then some ⟨t.host, attempts⟩ else l.tls }, attempts + 1)
  | none =>
    ((net.connect attempts t.host t.port).map fun c =>
      { os := ⟨c, t.host, t.port, t.isHttps, [], 0, 0, 0⟩
        fd := attempts
        peer := (t.host, t.port)
        opened := c
        tls := if t.isHttps then some ⟨t.host, attempts⟩ else none }, attempts + 1)

theorem openLink_os (net : Net) (attempts : Nat) (l : Option Link) (t : Target) :
    openConnection net attempts (l.map Link.os) t =
      ((openLink net attempts l t).1.map Link.os, (openLink net attempts l t).2) := by
  cases l with
  | none =>
    simp only [openConnection, openLink, Option.map_none, Option.map_map]
    rfl
  | some l =>
    simp only [openConnection, openLink, Option.map_some]
    split
    · rfl
    · simp only [Option.map_map]
      rfl

/-- A request: the url it is for, what that says, and the stream it is written to. -/
structure Request where
  url : Bytes
  target : Target
  link : Link

/-- `downloaderLoop` with the requests that it writes. -/
def downloaderRun (net : Net) (fuel : Nat) :
    Nat → Nat → Option Link → Bytes → List Request × Option (Option (HttpsStream × Nat))
  | 0, _, _, _ => ([], some none)
  | requests + 1, attempts, l, url =>
    match parseUrl url with
    | none => ([], some none)
    | some t =>
      match openLink net attempts l t with
      | (none, _) => ([], some none)
      | (some l, attempts) =>
        match sendRequest t net.stack l.os.conn with
        | (false, _) => ([⟨url, t, l⟩], some none)
        | (true, conn) =>
          match readResponse fuel { l.os with conn := conn } with
          | .running => ([⟨url, t, l⟩], none)
          | .failed => ([⟨url, t, l⟩], some none)
          | .redirect url' os =>
            let r := downloaderRun net fuel requests attempts (some { l with os := os }) url'
            (⟨url, t, l⟩ :: r.1, r.2)
          | .success os total => ([⟨url, t, l⟩], some (some (os, total)))

/-- The requests that `open_http_downloader` writes. -/
def requests (net : Net) (fuel : Nat) (url : Bytes) : List Request :=
  (downloaderRun net fuel 4 0 none url).1

/-- Without the requests a run is the downloader. -/
theorem downloaderRun_result (net : Net) (fuel requests attempts : Nat) (l : Option Link)
    (url : Bytes) :
    (downloaderRun net fuel requests attempts l url).2 =
      downloaderLoop net fuel requests attempts (l.map Link.os) url := by
  induction requests generalizing attempts l url with
  | zero => rfl
  | succ requests ih =>
    unfold downloaderRun downloaderLoop
    cases hurl : parseUrl url with
    | none => rfl
    | some t =>
      dsimp only
      rw [openLink_os]
      rcases hlink : openLink net attempts l t with ⟨_ | l', attempts'⟩
      · rfl
      · dsimp only [Option.map_some]
        rcases hsend : sendRequest t net.stack l'.os.conn with ⟨_ | _, conn⟩
        · rfl
        · dsimp only
          cases hresp : readResponse fuel { l'.os with conn := conn } with
          | running => rfl
          | failed => rfl
          | redirect url' os => exact ih attempts' (some { l' with os := os }) url'
          | success os total => rfl

theorem openHttpDownloader_run (net : Net) (fuel : Nat) (url : Bytes) :
    openHttpDownloader net fuel url = (downloaderRun net fuel 4 0 none url).2 :=
  (downloaderRun_result net fuel 4 0 none url).symm

/-- A fact about links and urls that every connection and every redirect establishes holds of
all requests. -/
theorem downloaderRun_forall {net : Net} {fuel : Nat} {P : Request → Prop}
    {I : Option Link → Bytes → Prop}
    (hrequest : ∀ attempts attempts' l l' url t, I l url → parseUrl url = some t →
      openLink net attempts l t = (some l', attempts') → P ⟨url, t, l'⟩)
    (hredirect : ∀ attempts attempts' l l' url t conn url' os, I l url →
      parseUrl url = some t → openLink net attempts l t = (some l', attempts') →
      sendRequest t net.stack l'.os.conn = (true, conn) →
      readResponse fuel { l'.os with conn := conn } = .redirect url' os →
      I (some { l' with os := os }) url')
    (requests attempts : Nat) {l : Option Link} {url : Bytes} (h : I l url) :
    ∀ r ∈ (downloaderRun net fuel requests attempts l url).1, P r := by
  induction requests generalizing attempts l url with
  | zero => simp [downloaderRun]
  | succ requests ih =>
    unfold downloaderRun
    cases hurl : parseUrl url with
    | none => simp
    | some t =>
      dsimp only
      rcases hlink : openLink net attempts l t with ⟨_ | l', attempts'⟩
      · simp
      · have hfirst := hrequest attempts attempts' l l' url t h hurl hlink
        dsimp only
        rcases hsend : sendRequest t net.stack l'.os.conn with ⟨_ | _, conn⟩
        · simpa using hfirst
        · dsimp only
          cases hresp : readResponse fuel { l'.os with conn := conn } with
          | running => simpa using hfirst
          | failed => simpa using hfirst
          | success os total => simpa using hfirst
          | redirect url' os =>
            have hnext := hredirect attempts attempts' l l' url t conn url' os h hurl hlink
              hsend hresp
            intro r hr
            rcases List.mem_cons.mp hr with rfl | hr
            · exact hfirst
            · exact ih attempts' hnext r hr

/-! ## Redirects stay on their connection -/

/-- How a response comes to be a redirect. -/
theorem readResponse_redirect {fuel : Nat} {os os' : HttpsStream} {url : Bytes}
    (h : readResponse fuel os = .redirect url os') :
    ∃ hdr os₁ hs, getLine fuel os = some (some hdr, os₁) ∧ statusCode hdr = some 302 ∧
      headersLoop fuel fuel ⟨-1, none⟩ os₁ = some (some hs, os') ∧ hs.location = some url := by
  unfold readResponse at h
  split at h
  · cases h
  · cases h
  · rename_i hdr os₁ hline
    split at h
    · cases h
    · rename_i httperr hstatus
      split at h
      · cases h
      · split at h
        · cases h
        · cases h
        · rename_i hs os₂ hheaders
          split at h
          · rename_i h302
            split at h
            · cases h
            · rename_i url' hlocation
              cases h
              exact ⟨hdr, os₁, hs, hline, h302 ▸ hstatus, hheaders, hlocation⟩
          · split at h
            · split at h <;> cases h
            · cases h

theorem readResponse_onward {fuel : Nat} {os os' : HttpsStream} {url : Bytes}
    (h : readResponse fuel os = .redirect url os') : Onward os os' := by
  obtain ⟨hdr, os₁, hs, hline, -, hheaders, -⟩ := readResponse_redirect h
  exact (getLineLoop_onward hline).trans (headersLoop_onward hheaders)

theorem sendLoop_incoming (memory : Bytes) (reqsz : Nat) (c : Conn) :
    SameIncoming c (sendLoop memory reqsz c).2 := by
  fun_induction sendLoop memory reqsz c with
  | case1 c => exact ⟨rfl, rfl, rfl⟩
  | case2 reqsz c hpos r hzero => exact ⟨rfl, rfl, rfl⟩
  | case3 reqsz c hpos r hsome ih => exact ⟨ih.incoming, ih.cut, ih.accept⟩

theorem sendRequest_incoming (t : Target) (stack : Nat → UInt8) (c : Conn) :
    SameIncoming c (sendRequest t stack c).2 := by
  unfold sendRequest
  dsimp only
  split
  · split <;> exact ⟨rfl, rfl, rfl⟩
  · exact sendLoop_incoming _ _ _

/-! ## The peer of a request -/

/-- The fields of a link belong together: they all speak of the socket in use, and the unread
part of the buffer was received on it. -/
structure Coherent (net : Net) (l : Link) : Prop where
  connected : net.connect l.fd l.peer.1 l.peer.2 = some l.opened
  host : l.os.host = l.peer.1
  port : l.os.port = l.peer.2
  tls : l.os.isHttps = true → l.tls = some ⟨l.peer.1, l.fd⟩
  cut : l.os.conn.cut = l.opened.cut
  accept : l.os.conn.accept = l.opened.accept
  unread : l.os.unread <:+ l.opened.incoming

theorem openLink_coherent {net : Net} {attempts attempts' : Nat} {l : Option Link} {l' : Link}
    {t : Target} (hl : ∀ k, l = some k → Coherent net k)
    (h : openLink net attempts l t = (some l', attempts')) :
    Coherent net l' ∧ l'.peer = (t.host, t.port) ∧ l'.os.isHttps = t.isHttps := by
  cases l with
  | none =>
    simp only [openLink, Prod.mk.injEq, Option.map_eq_some_iff] at h
    obtain ⟨⟨c, hconnect, rfl⟩, -⟩ := h
    refine ⟨⟨hconnect, rfl, rfl, fun hs => ?_, rfl, rfl, List.suffix_rfl⟩, rfl, rfl⟩
    exact if_pos hs
  | some k =>
    have hk := hl k rfl
    simp only [openLink] at h
    split at h
    · rename_i hsame
      obtain ⟨hhost, hhttps, hport⟩ := hsame
      cases h
      refine ⟨hk, ?_, hhttps⟩
      rw [← hhost, ← hport, hk.host, hk.port]
    · simp only [Prod.mk.injEq, Option.map_eq_some_iff] at h
      obtain ⟨⟨c, hconnect, rfl⟩, -⟩ := h
      refine ⟨⟨hconnect, rfl, rfl, fun hs => ?_, rfl, rfl, List.suffix_rfl⟩, rfl, rfl⟩
      exact if_pos hs

/-- A request and a redirect stay on the connection. -/
theorem Coherent.redirect {net : Net} {l : Link} {t : Target} {conn : Conn} {fuel : Nat}
    {url : Bytes} {os : HttpsStream} (h : Coherent net l)
    (hsend : sendRequest t net.stack l.os.conn = (true, conn))
    (hresp : readResponse fuel { l.os with conn := conn } = .redirect url os) :
    Coherent net { l with os := os } := by
  have hsame := sendRequest_incoming t net.stack l.os.conn
  rw [hsend] at hsame
  have hon := readResponse_onward hresp
  have hunread : os.unread <:+ l.os.unread := by
    have := hon.unread
    unfold HttpsStream.unread at this ⊢
    rwa [hsame.incoming] at this
  exact ⟨h.connected, hon.host.trans h.host, hon.port.trans h.port,
    fun hs => h.tls (hon.isHttps ▸ hs), (hon.cut.trans hsame.cut).trans h.cut,
    (hon.accept.trans hsame.accept).trans h.accept, hunread.trans h.unread⟩

theorem parseUrl_isHttps {url : Bytes} {t : Target} (h : parseUrl url = some t) :
    t.isHttps = true ↔ startsWith url (lit "https://") = true := by
  unfold parseUrl at h
  dsimp only at h
  rw [Option.map_eq_some_iff] at h
  obtain ⟨⟨isHttps, rest⟩, hscheme, heq⟩ := h
  have hsame : t.isHttps = isHttps := by
    rw [← heq]
    dsimp only
    split
    · rfl
    · rfl
  rw [hsame]
  by_cases hs : startsWith url (lit "https://") = true
  · rw [if_pos hs] at hscheme
    cases hscheme
    exact iff_of_true rfl hs
  · rw [if_neg hs] at hscheme
    split at hscheme
    · cases hscheme
      exact iff_of_false (by simp) hs
    · cases hscheme

/-- **Requests go to the right peer.** Whenever the downloader writes a request, its socket was
opened to the host and the port of the url requested; TLS is used exactly if the scheme of
that url is `https`, in a session for that host on that socket; and what the buffer has
unread is the end of what was received on the connection that this socket was opened as. -/
theorem request_peer (net : Net) (fuel : Nat) (url : Bytes) :
    ∀ r ∈ requests net fuel url,
      parseUrl r.url = some r.target ∧
      r.link.peer = (r.target.host, r.target.port) ∧
      net.connect r.link.fd r.target.host r.target.port = some r.link.opened ∧
      r.link.os.isHttps = r.target.isHttps ∧
      (r.target.isHttps = true ↔ startsWith r.url (lit "https://") = true) ∧
      (r.target.isHttps = true → r.link.tls = some ⟨r.target.host, r.link.fd⟩) ∧
      ∃ received, r.link.opened.incoming = received ++ r.link.os.conn.incoming ∧
        r.link.os.buf.drop r.link.os.consumed <:+ received := by
  refine downloaderRun_forall (I := fun l _ => ∀ k, l = some k → Coherent net k) ?_ ?_ 4 0
    (by simp)
  · intro attempts attempts' l l' url t hl hurl hlink
    obtain ⟨hl', hpeer, hhttps⟩ := openLink_coherent hl hlink
    have hconnected := hl'.connected
    have htls := hl'.tls
    rw [hpeer] at hconnected htls
    obtain ⟨front, hfront⟩ := hl'.unread
    refine ⟨hurl, hpeer, hconnected, hhttps, parseUrl_isHttps hurl, fun hs => ?_,
      front ++ l'.os.buf.drop l'.os.consumed, ?_, List.suffix_append _ _⟩
    · exact htls (hhttps.trans hs)
    · rw [← hfront, HttpsStream.unread, List.append_assoc]
  · intro attempts attempts' l l' url t conn url' os hl hurl hlink hsend hresp k hk
    cases hk
    exact (openLink_coherent hl hlink).1.redirect hsend hresp

/-- The first server sends the downloader on to an `https` url. -/
def redirectingNet : Net where
  connect attempt _ _ :=
    if attempt = 0 then some (plainConn (lit "HTTP/1.1 302 Found\r\nLocation: https://g/x\r\n\r\n"))
    else some (plainConn exactResponse)
  stack _ := 0

theorem request_peer_redirected :
    ∃ r ∈ requests redirectingNet 64 (lit "http://h/"), r.url = lit "https://g/x" ∧
      r.link.peer = (lit "g", 443) ∧ r.link.tls = some ⟨lit "g", 1⟩ := by
  have htrace : (requests redirectingNet 64 (lit "http://h/")).map
      (fun r => (r.url, r.target, r.link.fd)) =
        [(lit "http://h/", ⟨false, lit "h", 80, lit "/"⟩, 0),
          (lit "https://g/x", ⟨true, lit "g", 443, lit "/x"⟩, 1)] := by decide +kernel
  have hmem : (lit "https://g/x", (⟨true, lit "g", 443, lit "/x"⟩ : Target), 1) ∈
      (requests redirectingNet 64 (lit "http://h/")).map
        (fun r => (r.url, r.target, r.link.fd)) := by
    rw [htrace]
    simp
  obtain ⟨r, hr, heq⟩ := List.mem_map.mp hmem
  simp only [Prod.mk.injEq] at heq
  obtain ⟨hurl, htarget, hfd⟩ := heq
  obtain ⟨-, hpeer, -, -, -, htls, -⟩ := request_peer redirectingNet 64 (lit "http://h/") r hr
  rw [htarget] at hpeer htls
  exact ⟨r, hr, hurl, hpeer, by rw [htls rfl, hfd]⟩

/-! ## What a plain connection carries -/

/-- The request is on the wire as it is, or a part of it after a failure. -/
def SendsRequest (t : Target) (stack : Nat → UInt8) (c : Conn) : Prop :=
  ((sendRequest t stack c).1 = true → (sendRequest t stack c).2.sent = c.sent ++ requestText t) ∧
    ((sendRequest t stack c).1 = false →
      ∃ p, p <+: requestText t ∧ (sendRequest t stack c).2.sent = c.sent ++ p)

/-- A request that fits into its buffer and is taken by the first send. -/
def TakenAtOnce (t : Target) (c : Conn) : Prop :=
  (requestText t).length < requestSize ∧ (requestText t).length ≤ c.accept c.sends

/-- The last piece that the loop sends is the start of the request again, and it is the whole
of it only if the first send takes everything. -/
theorem sendLoop_pieces {memory : Bytes} {reqsz : Nat} {c : Conn} (hpos : 0 < reqsz)
    (hmemory : reqsz ≤ memory.length) (haccept : ∀ i, 0 < c.accept i) :
    ∃ front m, (sendLoop memory reqsz c).2.sent = c.sent ++ front ++ memory.take m ∧ 0 < m ∧
      m ≤ reqsz ∧ (reqsz ≤ c.accept c.sends → front = [] ∧ m = reqsz) ∧
      (c.accept c.sends < reqsz → m < reqsz) := by
  fun_induction sendLoop memory reqsz c with
  | case1 c => omega
  | case2 reqsz c hne r hzero =>
    exfalso
    have hfirst := haccept c.sends
    simp only [r, Conn.send, List.length_take] at hzero
    omega
  | case3 reqsz c hne r hsome ih =>
    have hr : r.1 = min (c.accept c.sends) reqsz := by
      simp only [r, Conn.send, List.length_take]
      omega
    have hsent : r.2.sent = c.sent ++ memory.take r.1 := by
      rw [hr]
      simp only [r, Conn.send, List.take_take]
    by_cases hwhole : reqsz ≤ c.accept c.sends
    · have hrest : reqsz - r.1 = 0 := by omega
      refine ⟨[], reqsz, ?_, hpos, le_rfl, fun _ => ⟨rfl, rfl⟩, by omega⟩
      rw [hrest, sendLoop, if_pos rfl, hsent, List.append_nil, hr, Nat.min_eq_right hwhole]
    · obtain ⟨front, m, hpieces, hm, hle, -, -⟩ := ih (by omega) (by omega) haccept
      refine ⟨memory.take r.1 ++ front, m, ?_, hm, by omega, fun h => absurd h hwhole, ?_⟩
      · rw [hpieces, hsent]
        simp only [List.append_assoc]
      · intro _
        have := haccept c.sends
        omega

theorem lit_request : lit "GET " = [71, 69, 84, 32] ∧
    lit " HTTP/1.1\r\nHost:" = lit " HTTP/1.1\r" ++ newline :: lit "Host:" ∧
    lit "\r\n\r\n" = [13, newline, 13, newline] ∧ (lit " HTTP/1.1\r").length = 10 ∧
    newline ∉ lit " HTTP/1.1\r" ∧ newline ∉ lit "Host:" ∧ (0 : UInt8) ∉ lit " HTTP/1.1\r" ∧
    (0 : UInt8) ∉ lit "Host:" ∧ (lit "Host:").length = 5 := by decide

/-- A request has a newline behind its first line, behind the host and at its end. -/
theorem requestText_lines (t : Target) :
    ∃ line host, requestText t = line ++ newline :: (host ++ [newline, 13, newline]) ∧
      2 < line.length ∧ 2 < host.length ∧
      (newline ∉ t.path → newline ∉ t.host → newline ∉ line ∧ newline ∉ host) ∧
      ((0 : UInt8) ∉ t.path → (0 : UInt8) ∉ t.host → (0 : UInt8) ∉ requestText t) := by
  obtain ⟨hget, hhttp, hend, hlen, hnl, hnl', hnul, hnul', hlen'⟩ := lit_request
  have htext : requestText t = (lit "GET " ++ t.path ++ lit " HTTP/1.1\r") ++
      newline :: ((lit "Host:" ++ t.host ++ [13]) ++ [newline, 13, newline]) := by
    rw [requestText, hhttp, hend]
    simp only [List.append_assoc, List.cons_append, List.nil_append]
  refine ⟨lit "GET " ++ t.path ++ lit " HTTP/1.1\r", lit "Host:" ++ t.host ++ [13], htext, ?_, ?_,
    ?_, ?_⟩
  · simp only [List.length_append, hlen]
    omega
  · simp only [List.length_append, hlen']
    omega
  · intro hpath hhost
    constructor
    · simp only [List.mem_append, not_or, hget]
      exact ⟨⟨by decide, hpath⟩, hnl⟩
    · simp only [List.mem_append, not_or]
      exact ⟨⟨hnl', hhost⟩, by decide⟩
  · intro hpath hhost
    rw [htext]
    simp only [List.mem_append, List.mem_cons, not_or, hget]
    refine ⟨⟨⟨by decide, hpath⟩, hnul⟩, by decide, ⟨⟨hnul', hhost⟩, by decide⟩, by decide⟩

/-- No proper start of a request is an end of it. -/
theorem requestText_border {line host text : Bytes} {m : Nat}
    (htext : text = line ++ newline :: (host ++ [newline, 13, newline]))
    (hline : 2 < line.length) (hhost : 2 < host.length) (hnl : newline ∉ line)
    (hnl' : newline ∉ host) (hpos : 0 < m) (hm : m < text.length) :
    ¬ text.take m <:+ text := by
  intro hborder
  have hlen : text.length = line.length + host.length + 4 := by
    rw [htext]
    simp only [List.length_append, List.length_cons, List.length_nil]
    omega
  have hdrop : text.take m = text.drop (text.length - m) := by
    have := List.suffix_iff_eq_drop.mp hborder
    rwa [List.length_take, Nat.min_eq_left hm.le] at this
  -- a byte of the start is the byte as far from the end
  have hbyte : ∀ i, i < m → text[i]? = text[text.length - m + i]? := by
    intro i hi
    rw [← List.getElem?_take_of_lt hi, hdrop, List.getElem?_drop]
  have hfirst : ∀ i, i < line.length → text[i]? ≠ some newline := by
    intro i hi h
    rw [htext, List.getElem?_append_left hi] at h
    exact hnl (List.mem_of_getElem? h)
  have hsecond : ∀ i, line.length < i → i < line.length + 1 + host.length →
      text[i]? ≠ some newline := by
    intro i hlo hi h
    rw [htext, List.getElem?_append_right hlo.le] at h
    obtain ⟨j, hj⟩ : ∃ j, i - line.length = j + 1 := ⟨i - line.length - 1, by omega⟩
    rw [hj, List.getElem?_cons_succ, List.getElem?_append_left (by omega)] at h
    exact hnl' (List.mem_of_getElem? h)
  have htail : ∀ j, j < 3 → text[line.length + 1 + host.length + j]? =
      [newline, 13, newline][j]? := by
    intro j hj
    have hsplit : text = line ++ newline :: host ++ [newline, 13, newline] := by
      rw [htext]
      simp
    rw [hsplit, List.getElem?_append_right (by simp only [List.length_append, List.length_cons]; omega)]
    congr 1
    simp only [List.length_append, List.length_cons]
    omega
  have hlast : text[m - 1]? = some newline := by
    rw [hbyte (m - 1) (by omega)]
    have := htail 2 (by norm_num)
    rwa [show line.length + 1 + host.length + 2 = text.length - m + (m - 1) by omega] at this
  have hm' : line.length ≤ m - 1 := by
    by_contra h
    exact hfirst _ (by omega) hlast
  have hbefore : text[m - 3]? = some newline := by
    rw [hbyte (m - 3) (by omega)]
    have := htail 0 (by norm_num)
    rwa [show line.length + 1 + host.length + 0 = text.length - m + (m - 3) by omega] at this
  have hhalf : line.length ≤ m - 3 := by
    by_contra h
    exact hfirst _ (by omega) hbefore
  have hthird : line.length + 1 + host.length ≤ m - 1 := by
    by_contra h
    exact hsecond _ (by omega) (by omega) hlast
  have hmiddle : m - 1 = line.length + 1 + host.length + 1 ∨
      m - 1 = line.length + 1 + host.length := by omega
  rcases hmiddle with h | h
  · have := htail 1 (by norm_num)
    rw [← h, hlast] at this
    revert this
    decide
  · exact hsecond (m - 3) (by omega) (by omega) hbefore

/-- The first bytes of the memory that is sent are those of the request, up to the end of the
buffer, where there is a NUL. -/
theorem take_requestMemory (text : Bytes) (stack : Nat → UInt8) (m : Nat) :
    (m < requestSize ∨ text.length < requestSize) ∧
        (requestMemory text stack).take m = text.take m ∨
      (0 : UInt8) ∈ (requestMemory text stack).take m := by
  unfold requestMemory
  split
  · rename_i hfits
    exact Or.inl ⟨Or.inr hfits, rfl⟩
  · rename_i hlong
    have htake : (text.take (requestSize - 1)).length = requestSize - 1 := by
      rw [List.length_take]
      omega
    rcases Nat.lt_or_ge m requestSize with hcut | hcut
    · refine Or.inl ⟨Or.inl hcut, ?_⟩
      rw [List.take_append_of_le_length (by rw [htake]; omega), List.take_take,
        Nat.min_eq_left (by omega)]
    · refine Or.inr ?_
      rw [List.take_append, htake]
      refine List.mem_append_right _ ?_
      obtain ⟨k, hk⟩ : ∃ k, m - (requestSize - 1) = k + 1 :=
        ⟨m - (requestSize - 1) - 1, by unfold requestSize at *; omega⟩
      rw [hk, List.take_succ_cons]
      exact List.mem_cons_self

/-- A request that the first send takes is on the wire as it is. -/
theorem sendsRequest_of_takenAtOnce {t : Target} {c : Conn} (stack : Nat → UInt8)
    (hplain : t.isHttps = false) (haccept : ∀ i, 0 < c.accept i) (h : TakenAtOnce t c) :
    SendsRequest t stack c := by
  obtain ⟨hfits, htaken⟩ := h
  obtain ⟨line, host, htext, hline, -⟩ := requestText_lines t
  have hpos : 0 < (requestText t).length := by
    rw [htext, List.length_append]
    omega
  have hmemory : requestMemory (requestText t) stack = requestText t := if_pos hfits
  have hsend : sendRequest t stack c = sendLoop (requestText t) (requestText t).length c := by
    unfold sendRequest
    rw [if_neg (by simp [hplain]), hmemory]
  obtain ⟨c', hdone, -⟩ := sendLoop_spec haccept (le_refl (requestText t).length)
  obtain ⟨front, m, hsent, -, -, hwhole, -⟩ := sendLoop_pieces hpos le_rfl haccept
  obtain ⟨rfl, rfl⟩ := hwhole htaken
  unfold SendsRequest
  rw [hsend, hsent]
  rw [hdone]
  refine ⟨fun _ => ?_, fun hfalse => by cases hfalse⟩
  rw [List.append_nil, List.take_length]

/-- In every other case something else is on the wire. -/
theorem takenAtOnce_of_sendsRequest {t : Target} {c : Conn} {stack : Nat → UInt8}
    (hplain : t.isHttps = false) (haccept : ∀ i, 0 < c.accept i)
    (hpath : newline ∉ t.path ∧ (0 : UInt8) ∉ t.path)
    (hhost : newline ∉ t.host ∧ (0 : UInt8) ∉ t.host) (h : SendsRequest t stack c) :
    TakenAtOnce t c := by
  obtain ⟨line, host, htext, hline, hhost', hnl, hnul⟩ := requestText_lines t
  obtain ⟨hnlLine, hnlHost⟩ := hnl hpath.1 hhost.1
  have hnul' := hnul hpath.2 hhost.2
  have hpos : 0 < (requestText t).length := by
    rw [htext, List.length_append]
    omega
  have hmemory := length_requestMemory (requestText t) stack
  have hsend : sendRequest t stack c =
      sendLoop (requestMemory (requestText t) stack) (requestText t).length c := by
    unfold sendRequest
    rw [if_neg (by simp [hplain])]
  obtain ⟨c', hdone, -⟩ := sendLoop_spec haccept hmemory.ge
  obtain ⟨front, m, hsent, hm, hle, hwhole, hshort⟩ := sendLoop_pieces hpos hmemory.ge haccept
  have hpieces : requestText t = front ++ (requestMemory (requestText t) stack).take m := by
    have hall := h.1 (by rw [hsend, hdone])
    rw [hsend, hsent, List.append_assoc] at hall
    exact (List.append_cancel_left hall).symm
  have hborder : (requestMemory (requestText t) stack).take m <:+ requestText t :=
    ⟨front, hpieces.symm⟩
  have hclean : (0 : UInt8) ∉ (requestMemory (requestText t) stack).take m :=
    fun hmem => hnul' (hborder.subset hmem)
  have hnot : ¬ c.accept c.sends < (requestText t).length := by
    intro hless
    have hmless := hshort hless
    apply requestText_border htext hline hhost' hnlLine hnlHost hm hmless
    rcases take_requestMemory (requestText t) stack m with ⟨-, htake⟩ | hmem
    · rwa [htake] at hborder
    · exact absurd hmem hclean
  obtain ⟨rfl, rfl⟩ := hwhole (by omega)
  refine ⟨?_, by omega⟩
  rcases take_requestMemory (requestText t) stack _ with ⟨hfits, -⟩ | hmem
  · exact hfits.elim id id
  · exact absurd hmem hclean

/-- The host and the path are parts of the url. -/
theorem parseUrl_subset {url : Bytes} {t : Target} (h : parseUrl url = some t) :
    (∀ b ∈ t.host, b ∈ url) ∧ ∀ b ∈ t.path, b ∈ url ∨ b = 47 := by
  unfold parseUrl at h
  dsimp only at h
  rw [Option.map_eq_some_iff] at h
  obtain ⟨⟨isHttps, rest⟩, hscheme, heq⟩ := h
  have hrest : ∀ b ∈ rest, b ∈ url := by
    intro b hb
    split at hscheme
    · cases hscheme
      exact List.mem_of_mem_drop hb
    · split at hscheme
      · cases hscheme
        exact List.mem_of_mem_drop hb
      · cases hscheme
  have hslash : ∀ b ∈ lit "/", b = (47 : UInt8) := by decide +kernel
  cases hfind : strchr rest 47 with
  | none =>
    simp only [hfind] at heq
    split at heq
    · rw [← heq]
      exact ⟨fun b hb => hrest b (List.mem_of_mem_take hb), fun b hb => Or.inr (hslash b hb)⟩
    · rw [← heq]
      exact ⟨hrest, fun b hb => Or.inr (hslash b hb)⟩
  | some path =>
    obtain ⟨a, r, hsplit, hpath, -⟩ := strchr_eq_some hfind
    have hinside : ∀ b ∈ path, b ∈ url := by
      intro b hb
      refine hrest b ?_
      rw [hsplit, ← hpath]
      exact List.mem_append_right _ hb
    simp only [hfind] at heq
    split at heq
    · rw [← heq]
      exact ⟨fun b hb => hrest b (List.mem_of_mem_take (List.mem_of_mem_take hb)),
        fun b hb => Or.inl (hinside b hb)⟩
    · rw [← heq]
      exact ⟨fun b hb => hrest b (List.mem_of_mem_take hb), fun b hb => Or.inl (hinside b hb)⟩

/-- A url as the parts of the program pass it on: a C string of one line. -/
def OneLine (url : Bytes) : Prop := newline ∉ url ∧ (0 : UInt8) ∉ url

theorem getLineLoop_oneLine {fuel lineLen : Nat} {os os' : HttpsStream} {line : Bytes}
    (h : getLineLoop fuel lineLen os = some (some line, os')) : OneLine line := by
  induction fuel generalizing lineLen os with
  | zero => cases h
  | succ fuel ih =>
    rw [getLineLoop, Option.bind_eq_some_iff] at h
    obtain ⟨⟨w, os₁⟩, hread, h⟩ := h
    dsimp only at h
    split at h
    · rename_i rest hfind
      obtain ⟨a, b, hsplit, hrest, ha⟩ := strchr_eq_some hfind
      simp only [Option.some.injEq, Prod.mk.injEq] at h
      rw [← h.1, hsplit, hrest, List.length_append, Nat.add_sub_cancel, List.take_left]
      refine ⟨fun hmem => ha ?_, not_mem_cstr _⟩
      exact stripReturn_subset a _ (List.takeWhile_subset _ hmem)
    · split at h
      · cases h
      · exact ih h

theorem trimBy_subset (front back : UInt8 → Bool) (s : Bytes) :
    ∀ b ∈ trimBy front back s, b ∈ s := by
  intro b hb
  unfold trimBy at hb
  rw [List.mem_reverse] at hb
  have hmem := (List.dropWhile_sublist _).subset hb
  rw [List.mem_reverse] at hmem
  exact (List.dropWhile_sublist _).subset hmem

/-- What a header line adds is a part of it. -/
theorem parseHeader_location {p : Bytes} {hs : Headers} (hp : OneLine p)
    (hloc : ∀ url, hs.location = some url → OneLine url) :
    ∀ url, (parseHeader p hs).location = some url → OneLine url := by
  unfold parseHeader
  split
  · exact hloc
  · rename_i rest hfind
    obtain ⟨a, b, hsplit, hrest, -⟩ := strchr_eq_some hfind
    dsimp only
    split
    · exact hloc
    · split
      · intro url hurl
        dsimp only at hurl
        cases hurl
        have hpart : ∀ x ∈ trimHeader rest.tail, x ∈ p := by
          intro x hx
          have hmem := trimBy_subset _ _ _ x hx
          rw [hrest, List.tail_cons] at hmem
          rw [hsplit]
          exact List.mem_append_right _ (List.mem_cons_of_mem _ hmem)
        exact ⟨fun h => hp.1 (hpart _ h), fun h => hp.2 (hpart _ h)⟩
      · exact hloc

theorem headersLoop_location {lineFuel fuel : Nat} {hs hs' : Headers} {os os' : HttpsStream}
    (hloc : ∀ url, hs.location = some url → OneLine url)
    (hcall : headersLoop lineFuel fuel hs os = some (some hs', os')) :
    ∀ url, hs'.location = some url → OneLine url := by
  induction fuel generalizing hs os with
  | zero => cases hcall
  | succ fuel ih =>
    unfold headersLoop at hcall
    split at hcall
    · cases hcall
    · cases hcall
    · rename_i p os₁ hline
      split at hcall
      · cases hcall
        exact hloc
      · exact ih (parseHeader_location (getLineLoop_oneLine hline) hloc) hcall

/-- All urls requested are of one line if the first one is. -/
theorem requests_oneLine (net : Net) (fuel : Nat) {url : Bytes} (hurl : OneLine url) :
    ∀ r ∈ requests net fuel url, parseUrl r.url = some r.target ∧ OneLine r.url := by
  refine downloaderRun_forall (I := fun _ url => OneLine url) ?_ ?_ 4 0 hurl
  · intro attempts attempts' l l' url t h hparse hlink
    exact ⟨hparse, h⟩
  · intro attempts attempts' l l' url t conn url' os h hparse hlink hsend hresp
    obtain ⟨hdr, os₁, hs, -, -, hheaders, hlocation⟩ := readResponse_redirect hresp
    exact headersLoop_location (by simp) hheaders url' hlocation

/-- **The request on the wire.** On a plain connection whose sends each take at least one byte,
a request that fits into the buffer and is taken by its first send is transmitted as it is.
For urls of one line this is the only case: otherwise the bytes transmitted are not those
of the request, and the downloader does not fail. -/
theorem request_transmitted_iff (net : Net) (fuel : Nat) (url : Bytes) :
    ∀ r ∈ requests net fuel url, r.target.isHttps = false →
      (∀ i, 0 < r.link.os.conn.accept i) →
      (TakenAtOnce r.target r.link.os.conn →
        SendsRequest r.target net.stack r.link.os.conn) ∧
      (OneLine url → (SendsRequest r.target net.stack r.link.os.conn ↔
        TakenAtOnce r.target r.link.os.conn)) := by
  intro r hr hplain haccept
  refine ⟨sendsRequest_of_takenAtOnce net.stack hplain haccept, fun hurl => ?_⟩
  refine ⟨fun hsends => ?_, sendsRequest_of_takenAtOnce net.stack hplain haccept⟩
  obtain ⟨hparse, hline⟩ := requests_oneLine net fuel hurl r hr
  obtain ⟨hhost, hpath⟩ := parseUrl_subset hparse
  refine takenAtOnce_of_sendsRequest hplain haccept ⟨?_, ?_⟩ ⟨?_, ?_⟩ hsends
  · intro hmem
    rcases hpath _ hmem with h | h
    · exact hline.1 h
    · exact absurd h (by decide)
  · intro hmem
    rcases hpath _ hmem with h | h
    · exact hline.2 h
    · exact absurd h (by decide)
  · exact fun hmem => hline.1 (hhost _ hmem)
  · exact fun hmem => hline.2 (hhost _ hmem)

/-- What can be decided of the first request of a downloader. -/
theorem first_request (net : Net) (fuel : Nat) {url : Bytes} {t : Target} {c : Conn}
    (hurl : parseUrl url = some t) (hconnect : net.connect 0 t.host t.port = some c) :
    ∃ r ∈ requests net fuel url, r.url = url ∧ r.target = t ∧ r.link.os.conn = c := by
  unfold requests downloaderRun
  rw [hurl]
  dsimp only [openLink]
  rw [hconnect]
  dsimp only [Option.map_some]
  split
  · exact ⟨_, List.mem_cons_self, rfl, rfl, rfl⟩
  · split <;> exact ⟨_, List.mem_cons_self, rfl, rfl, rfl⟩

theorem request_transmitted_whole :
    ∃ r ∈ requests (plainNet exactResponse) 64 (lit "http://h/"),
      SendsRequest r.target (fun _ => 0) r.link.os.conn := by
  obtain ⟨r, hr, -, htarget, hconn⟩ := first_request (plainNet exactResponse) 64
    (show parseUrl (lit "http://h/") = some ⟨false, lit "h", 80, lit "/"⟩ by decide) rfl
  have haccept : ∀ i, 0 < r.link.os.conn.accept i := by
    rw [hconn]
    exact fun _ => by simp [plainConn]
  have htaken : TakenAtOnce r.target r.link.os.conn := by
    rw [hconn, htarget]
    unfold TakenAtOnce
    decide
  exact ⟨r, hr, (request_transmitted_iff (plainNet exactResponse) 64 (lit "http://h/") r hr
    (by rw [htarget]) haccept).1 htaken⟩

/-- A connection whose sends take ten bytes. -/
def shortSends : Conn := ⟨exactResponse, fun _ => 4096, 0, fun _ => 10, 0, []⟩

/-- After `GET / HTTP` come the first ten bytes again, and then the first six. -/
theorem short_sends_repeat :
    ∃ r ∈ requests ⟨fun _ _ _ => some shortSends, fun _ => 0⟩ 64 (lit "http://h/"),
      r.target.isHttps = false ∧ (∀ i, 0 < r.link.os.conn.accept i) ∧
      (sendRequest r.target (fun _ => 0) r.link.os.conn).1 = true ∧
      (sendRequest r.target (fun _ => 0) r.link.os.conn).2.sent =
        lit "GET / HTTPGET / HTTPGET / " ∧
      requestText r.target = lit "GET / HTTP/1.1\r\nHost:h\r\n\r\n" ∧
      ¬ SendsRequest r.target (fun _ => 0) r.link.os.conn := by
  obtain ⟨r, hr, -, htarget, hconn⟩ := first_request
    ⟨fun _ _ _ => some shortSends, fun _ => 0⟩ 64
    (show parseUrl (lit "http://h/") = some ⟨false, lit "h", 80, lit "/"⟩ by decide) rfl
  refine ⟨r, hr, ?_⟩
  rw [htarget, hconn]
  have hsent : (sendRequest ⟨false, lit "h", 80, lit "/"⟩ (fun _ => 0) shortSends).1 = true ∧
      (sendRequest ⟨false, lit "h", 80, lit "/"⟩ (fun _ => 0) shortSends).2.sent =
        lit "GET / HTTPGET / HTTPGET / " := by decide +kernel
  refine ⟨rfl, fun _ => by simp [shortSends], hsent.1, hsent.2, by decide, ?_⟩
  intro hsends
  have hall := hsends.1 hsent.1
  rw [hsent.2] at hall
  revert hall
  decide

end ToolchainTools
