import ToolchainTools.Stream.HttpFragments

/-!
# Responses along redirects

A server answers the requests of a connection one after the other. The downloader reads the
header of a redirect and not its body; when the next request goes to the same place it
is written to the same connection, and what is parsed then starts at that body. So the
responses stay matched to the requests exactly if no redirect that is followed on its own
connection has a body, and if all header lines are short enough.
-/

namespace ToolchainTools

open CLib Streams

/-! ## Chains of responses -/

/-- A response: a status line, header lines, an empty line and a body. -/
structure Reply where
  status : Bytes
  headers : List Bytes
  blank : Bytes
  body : Bytes
  lines_ok : ∀ l ∈ status :: headers, newline ∉ l ∧ (0 : UInt8) ∉ l
  headers_ne : ∀ l ∈ headers, stripReturn l ≠ []
  blank_ok : blank = [] ∨ blank = [carriageReturn]

namespace Reply

/-- The bytes of a response in front of its body. -/
def head (r : Reply) : Bytes :=
  r.status ++ newline :: (encodeLines r.headers ++ (r.blank ++ [newline]))

/-- What the header lines say. -/
def parsed (r : Reply) : Headers :=
  r.headers.foldl (fun h l => parseHeader (stripReturn l) h) ⟨-1, none⟩

/-- The lines of a response as `get_line` returns them. -/
def lines (r : Reply) : List (Option Bytes) :=
  some (stripReturn r.status) :: (r.headers.map (some ∘ stripReturn) ++ [some []])

/-- All lines are within the limit of `get_line`. -/
def Short (r : Reply) : Prop := ∀ l ∈ r.status :: r.headers, l.length ≤ headerLineMax

end Reply

/-- A 302 response with the url it leads to. Its body has the length that the header gives. -/
structure Redirect extends Reply where
  url : Bytes
  target : Target
  code : statusCode (stripReturn status) = some 302
  location : toReply.parsed.location = some url
  url_ok : parseUrl url = some target
  length_ok : toReply.parsed.contentLength = body.length ∨
    toReply.parsed.contentLength = -1 ∧ body = []

/-- A 200 response. -/
structure Final extends Reply where
  code : statusCode (stripReturn status) = some 200
  length_ok : toReply.parsed.contentLength = body.length

/-- The next request goes to the connection in use. -/
def SameServer (t t' : Target) : Prop :=
  t.host = t'.host ∧ t.isHttps = t'.isHttps ∧ t.port = t'.port

instance (t t' : Target) : Decidable (SameServer t t') :=
  inferInstanceAs (Decidable (t.host = t'.host ∧ t.isHttps = t'.isHttps ∧ t.port = t'.port))

/-- What the server of `t` has still to send on a connection, from the answer to the request
for `t` on. -/
def remaining (last : Final) : Target → List Redirect → Bytes
  | _, [] => last.head ++ last.body
  | t, r :: rs =>
    r.head ++ (r.body ++ if SameServer t r.target then remaining last r.target rs else [])

/-- The connections that the chain opens after the one in use: where to, and what comes. -/
def laterConnections (last : Final) : Target → List Redirect → List (Target × Bytes)
  | _, [] => []
  | t, r :: rs =>
    if SameServer t r.target then laterConnections last r.target rs
    else (r.target, remaining last r.target rs) :: laterConnections last r.target rs

/-- From the given attempt on the connections deliver these bytes, cut in any way. -/
def Served (net : Net) (attempt : Nat) (conns : List (Target × Bytes)) : Prop :=
  ∀ i t bytes, conns[i]? = some (t, bytes) →
    ∃ c, net.connect (attempt + i) t.host t.port = some c ∧ c.incoming = bytes ∧
      (∀ j, 0 < c.cut j) ∧ ∀ j, 0 < c.accept j

/-- The servers answer the requests of a chain that starts at `t`. -/
def ServesChain (net : Net) (t : Target) (hops : List Redirect) (last : Final) : Prop :=
  Served net 0 ((t, remaining last t hops) :: laterConnections last t hops)

/-- Where the responses start, one after the other. -/
def positions (last : Final) : Target → List Redirect → List Bytes
  | t, [] => [remaining last t []]
  | t, r :: rs => remaining last t (r :: rs) :: positions last r.target rs

/-- The lines of the responses. -/
def chainLines (last : Final) (hops : List Redirect) : List (List (Option Bytes)) :=
  hops.map (fun r => r.lines) ++ [last.lines]

/-- What is parsed after a request. -/
def Request.parsed (net : Net) (fuel : Nat) (r : Request) : List (Option Bytes) :=
  responseSeen fuel
    { r.link.os with conn := (sendRequest r.target net.stack r.link.os.conn).2 }

/-- The i-th request is answered by the i-th response, from its first byte on, and the stream
returned is at the start of the last body. -/
structure MatchedRun (net : Net) (fuel : Nat) (last : Final) (t : Target) (hops : List Redirect)
    (run : List Request × Option (Option (HttpsStream × Nat))) : Prop where
  position : run.1.map (fun r => r.link.os.unread) = positions last t hops
  lines : run.1.map (Request.parsed net fuel) = chainLines last hops
  body : ∃ os, run.2 = some (some (os, last.body.length)) ∧ BodyLeft last.body os

/-- The responses stay matched to the requests in every run of the chain. -/
def StaysMatched (url : Bytes) (t : Target) (hops : List Redirect) (last : Final) : Prop :=
  ∀ net, ServesChain net t hops last → ∃ n, ∀ fuel, n ≤ fuel →
    MatchedRun net fuel last t hops (downloaderRun net fuel 4 0 none url)

/-- No redirect with a body is followed on its own connection. -/
def NoBodyReused : Target → List Redirect → Prop
  | _, [] => True
  | t, r :: rs => (SameServer t r.target → r.body = []) ∧ NoBodyReused r.target rs

/-! ## One response -/

theorem Reply.blank_line (r : Reply) : HeaderLine r.blank ∧ stripReturn r.blank = [] := by
  rcases r.blank_ok with h | h
  · rw [h]
    exact ⟨⟨by simp, by simp, by simp⟩, rfl⟩
  · rw [h]
    exact ⟨⟨by decide, by decide, by decide⟩, rfl⟩

theorem Reply.header_line (r : Reply) (hshort : r.Short) {l : Bytes}
    (hl : l ∈ r.status :: r.headers) : HeaderLine l :=
  ⟨(r.lines_ok l hl).1, (r.lines_ok l hl).2, hshort l hl⟩

theorem headersSeen_lines {lineFuel fuel : Nat} {lines : List Bytes} {blank rest : Bytes}
    {os : HttpsStream} (hos : Parsing os)
    (hunread : os.unread = encodeLines lines ++ (blank ++ newline :: rest))
    (hlines : ∀ l ∈ lines, HeaderLine l ∧ stripReturn l ≠ []) (hblank : HeaderLine blank)
    (hempty : stripReturn blank = []) (hline : lineRounds ≤ lineFuel)
    (hfuel : lines.length < fuel) :
    headersSeen lineFuel fuel os = lines.map (some ∘ stripReturn) ++ [some []] := by
  induction lines generalizing fuel os with
  | nil =>
    obtain ⟨fuel, rfl⟩ := Nat.exists_eq_succ_of_ne_zero (Nat.ne_of_gt hfuel)
    rw [encodeLines, List.flatMap_nil, List.nil_append] at hunread
    obtain ⟨os', hcall, -⟩ := getLine_spec hos hunread hblank
      ((Nat.lt_succ_of_le hblank.length_le).trans_le hline)
    rw [headersSeen, hcall]
    dsimp only
    rw [hempty, if_pos rfl]
    rfl
  | cons l lines ih =>
    obtain ⟨fuel, rfl⟩ := Nat.exists_eq_succ_of_ne_zero
      (show fuel ≠ 0 by rw [List.length_cons] at hfuel; omega)
    obtain ⟨hl, hne⟩ := hlines l List.mem_cons_self
    have hsplit : os.unread =
        l ++ newline :: (encodeLines lines ++ (blank ++ newline :: rest)) := by
      rw [hunread, encodeLines, encodeLines, List.flatMap_cons]
      simp
    obtain ⟨os₁, hcall, hos₁, hrest₁, -⟩ := getLine_spec hos hsplit hl
      ((Nat.lt_succ_of_le hl.length_le).trans_le hline)
    rw [headersSeen, hcall]
    dsimp only
    rw [if_neg hne, ih hos₁ hrest₁ (fun l' hl' => hlines l' (List.mem_cons_of_mem _ hl'))
      (by rw [List.length_cons] at hfuel; omega)]
    rfl

/-- A short response is read line by line, up to its body. -/
theorem Reply.read (r : Reply) (hshort : r.Short) {os : HttpsStream} (hos : Parsing os)
    {rest : Bytes} (hunread : os.unread = r.head ++ rest) {fuel : Nat} (hline : lineRounds ≤ fuel)
    (hfuel : r.headers.length < fuel) :
    ∃ os₁ os₂, getLine fuel os = some (some (stripReturn r.status), os₁) ∧
      headersLoop fuel fuel ⟨-1, none⟩ os₁ = some (some r.parsed, os₂) ∧
      headersSeen fuel fuel os₁ = r.headers.map (some ∘ stripReturn) ++ [some []] ∧
      Parsing os₂ ∧ os₂.unread = rest := by
  have hsplit : os.unread = r.status ++ newline ::
      (encodeLines r.headers ++ (r.blank ++ newline :: rest)) := by
    rw [hunread, head]
    simp
  have hfits : ∀ {l : Bytes}, HeaderLine l → l.length < fuel := fun hl =>
    (Nat.lt_succ_of_le hl.length_le).trans_le hline
  have hheaders : ∀ l ∈ r.headers, HeaderLine l ∧ stripReturn l ≠ [] := fun l hl =>
    ⟨r.header_line hshort (List.mem_cons_of_mem _ hl), r.headers_ne l hl⟩
  have hstatus := r.header_line hshort List.mem_cons_self
  obtain ⟨hblank, hempty⟩ := r.blank_line
  obtain ⟨os₁, hget, hos₁, hrest₁, -⟩ := getLine_spec hos hsplit hstatus (hfits hstatus)
  obtain ⟨os₂, hloop, hos₂, hrest₂, -⟩ := headersLoop_spec (h := ⟨-1, none⟩) fuel fuel hos₁
    hrest₁ hheaders hblank hempty (by
      intro l hl
      rcases List.mem_cons.mp hl with rfl | hl
      · exact hfits hblank
      · exact hfits (hheaders l hl).1) hfuel
  exact ⟨os₁, os₂, hget, hloop,
    headersSeen_lines hos₁ hrest₁ hheaders hblank hempty hline hfuel, hos₂, hrest₂⟩

theorem Redirect.read (r : Redirect) (hshort : r.Short) {os : HttpsStream} (hos : Parsing os)
    {rest : Bytes} (hunread : os.unread = r.head ++ rest) {fuel : Nat} (hline : lineRounds ≤ fuel)
    (hfuel : r.headers.length < fuel) :
    ∃ os', readResponse fuel os = .redirect r.url os' ∧ responseSeen fuel os = r.lines ∧
      Parsing os' ∧ os'.unread = rest := by
  obtain ⟨os₁, os₂, hget, hloop, hseen, hos₂, hrest⟩ :=
    r.toReply.read hshort hos hunread hline hfuel
  refine ⟨os₂, ?_, ?_, hos₂, hrest⟩
  · unfold readResponse
    rw [hget]
    dsimp only
    rw [r.code]
    dsimp only
    rw [if_neg (by decide), hloop]
    dsimp only
    rw [if_pos rfl, r.location]
  · unfold responseSeen
    rw [hget]
    dsimp only
    rw [r.code]
    dsimp only
    rw [if_neg (by decide), hseen]
    rfl

theorem Final.read (last : Final) (hshort : last.Short) {os : HttpsStream} (hos : Parsing os)
    (hunread : os.unread = last.head ++ last.body) {fuel : Nat} (hline : lineRounds ≤ fuel)
    (hfuel : last.headers.length < fuel) :
    ∃ os', readResponse fuel os = .success os' last.body.length ∧
      responseSeen fuel os = last.lines ∧ BodyLeft last.body os' := by
  obtain ⟨os₁, os₂, hget, hloop, hseen, hos₂, hrest⟩ :=
    last.toReply.read hshort hos hunread hline hfuel
  have hsmall : last.body.length < 2 ^ 63 := by
    have hlt := (headersLoop_result (by norm_num) (getLineLoop_consumed hos.consumed_le hget)
      hloop).1
    rw [last.length_ok] at hlt
    omega
  refine ⟨{ os₂ with lengthRemaining := last.body.length }, ?_, ?_, hrest, rfl, hos₂.consumed_le,
    hsmall, ?_, hos₂.cut⟩
  · unfold readResponse
    rw [hget]
    dsimp only
    rw [last.code]
    dsimp only
    rw [if_neg (by decide), hloop]
    dsimp only
    rw [if_neg (by decide), if_pos rfl, last.length_ok, if_neg (by omega),
      toSize_of_range (by omega) (by omega), Int.toNat_natCast]
  · unfold responseSeen
    rw [hget]
    dsimp only
    rw [last.code]
    dsimp only
    rw [if_neg (by decide), hseen]
    rfl
  · have hle := hos₂.consumed_le
    have hbufsz := hos₂.bufsz_le
    unfold growth at hbufsz
    dsimp only
    omega

/-! ## One request -/

/-- A link to the server of a url, ready for a request. -/
structure AtServer (l : Link) (t : Target) : Prop where
  host : l.os.host = t.host
  isHttps : l.os.isHttps = t.isHttps
  port : l.os.port = t.port
  parsing : Parsing l.os
  accept : ∀ i, 0 < l.os.conn.accept i

theorem openLink_same (net : Net) (attempts : Nat) {l : Link} {t t' : Target}
    (h : AtServer l t) (hsame : SameServer t t') :
    openLink net attempts (some l) t' = (some l, attempts) ∧ AtServer l t' := by
  obtain ⟨hhost, hhttps, hport⟩ := hsame
  have hreuse : l.os.host = t'.host ∧ l.os.isHttps = t'.isHttps ∧ l.os.port = t'.port :=
    ⟨h.host.trans hhost, h.isHttps.trans hhttps, h.port.trans hport⟩
  exact ⟨if_pos hreuse, hreuse.1, hreuse.2.1, hreuse.2.2, h.parsing, h.accept⟩

/-- A new connection has nothing buffered. -/
theorem openLink_new {net : Net} {attempts : Nat} {l : Option Link} {t : Target} {c : Conn}
    (hconnect : net.connect attempts t.host t.port = some c) (hcut : ∀ i, 0 < c.cut i)
    (haccept : ∀ i, 0 < c.accept i)
    (hother : ∀ k, l = some k → ∃ t', AtServer k t' ∧ ¬ SameServer t' t) :
    ∃ l', openLink net attempts l t = (some l', attempts + 1) ∧ AtServer l' t ∧
      l'.os.conn = c ∧ l'.os.buf = [] ∧ l'.os.consumed = 0 := by
  cases l with
  | none =>
    have hopen : openLink net attempts none t =
        ((net.connect attempts t.host t.port).map _, attempts + 1) := rfl
    rw [hconnect, Option.map_some] at hopen
    refine ⟨_, hopen, ⟨rfl, rfl, rfl, ?_, haccept⟩, rfl, rfl, rfl⟩
    exact ⟨le_rfl, ⟨0, rfl⟩, Nat.zero_le _, hcut⟩
  | some k =>
    obtain ⟨t', hk, hdiff⟩ := hother k rfl
    have hmiss : ¬ (k.os.host = t.host ∧ k.os.isHttps = t.isHttps ∧ k.os.port = t.port) := by
      rw [hk.host, hk.isHttps, hk.port]
      exact hdiff
    have hopen : openLink net attempts (some k) t =
        ((net.connect attempts t.host t.port).map _, attempts + 1) := if_neg hmiss
    rw [hconnect, Option.map_some] at hopen
    refine ⟨_, hopen, ⟨rfl, rfl, rfl, ?_, haccept⟩, rfl, rfl, rfl⟩
    have hsize : ([] : Bytes).length + (k.os.room + k.os.buf.length) =
        k.os.buf.length + k.os.room := by
      rw [List.length_nil]
      omega
    refine ⟨le_rfl, ?_, ?_, hcut⟩
    · dsimp only
      rw [hsize]
      exact hk.parsing.steps
    · dsimp only
      rw [hsize]
      exact hk.parsing.bufsz_le

/-- The first request of a run, and what follows from its response. -/
theorem downloaderRun_request {net : Net} {attempts attempts' : Nat} {l : Option Link}
    {url : Bytes} {t : Target} {l' : Link} {conn : Conn} (hurl : parseUrl url = some t)
    (hlink : openLink net attempts l t = (some l', attempts'))
    (hsend : sendRequest t net.stack l'.os.conn = (true, conn)) (fuel n : Nat) :
    (∃ more, (downloaderRun net fuel (n + 1) attempts l url).1 = ⟨url, t, l'⟩ :: more) ∧
      (readResponse fuel { l'.os with conn := conn } = .running →
        (downloaderRun net fuel (n + 1) attempts l url).2 = none) ∧
      (readResponse fuel { l'.os with conn := conn } = .failed →
        (downloaderRun net fuel (n + 1) attempts l url).2 = some none) ∧
      (∀ url' os, readResponse fuel { l'.os with conn := conn } = .redirect url' os →
        downloaderRun net fuel (n + 1) attempts l url =
          (⟨url, t, l'⟩ :: (downloaderRun net fuel n attempts' (some { l' with os := os }) url').1,
            (downloaderRun net fuel n attempts' (some { l' with os := os }) url').2)) ∧
      ∀ os total, readResponse fuel { l'.os with conn := conn } = .success os total →
        downloaderRun net fuel (n + 1) attempts l url =
          ([⟨url, t, l'⟩], some (some (os, total))) := by
  rw [downloaderRun, hurl]
  dsimp only
  rw [hlink]
  dsimp only
  rewrite [hsend]
  dsimp only
  refine ⟨?_, fun h => by rw [h], fun h => by rw [h], fun url' os h => by rw [h],
    fun os total h => by rw [h]⟩
  cases readResponse fuel { l'.os with conn := conn } with
  | running => exact ⟨[], rfl⟩
  | failed => exact ⟨[], rfl⟩
  | redirect url' os => exact ⟨_, rfl⟩
  | success os total => exact ⟨[], rfl⟩

/-- Sending a request leaves a link at its server. -/
theorem AtServer.send {l : Link} {t : Target} (h : AtServer l t) (stack : Nat → UInt8) :
    ∃ conn, sendRequest t stack l.os.conn = (true, conn) ∧
      Parsing { l.os with conn := conn } ∧
      ({ l.os with conn := conn } : HttpsStream).unread = l.os.unread ∧
      conn.cut = l.os.conn.cut ∧ conn.accept = l.os.conn.accept := by
  obtain ⟨conn, hsend, hsame⟩ := sendRequest_spec t stack h.accept
  refine ⟨conn, hsend, h.parsing.sendRequest hsend, ?_, hsame.cut, hsame.accept⟩
  rw [HttpsStream.unread, HttpsStream.unread, hsame.incoming]

/-- So does following a redirect. -/
theorem AtServer.redirect {l : Link} {t : Target} {conn : Conn} {fuel : Nat} {url : Bytes}
    {os : HttpsStream} (h : AtServer l t) (haccept : conn.accept = l.os.conn.accept)
    (hresp : readResponse fuel { l.os with conn := conn } = .redirect url os)
    (hos : Parsing os) : AtServer { l with os := os } t := by
  have hon := readResponse_onward hresp
  refine ⟨hon.host.trans h.host, hon.isHttps.trans h.isHttps, hon.port.trans h.port, hos, ?_⟩
  dsimp only
  rw [hon.accept, haccept]
  exact h.accept

/-! ## Chains without bodies on reused connections -/

theorem matchedRun_of_short {net : Net} {last : Final} {fuel : Nat} (hline : lineRounds ≤ fuel)
    (hlast : last.Short) (hlastFuel : last.headers.length < fuel) {hops : List Redirect}
    (hhops : ∀ r ∈ hops, r.Short ∧ r.headers.length < fuel) {t : Target} {n attempts attempts' : Nat}
    {l : Option Link} {l' : Link} {url : Bytes} (hurl : parseUrl url = some t)
    (hlink : openLink net attempts l t = (some l', attempts')) (hat : AtServer l' t)
    (hunread : l'.os.unread = remaining last t hops)
    (hserved : Served net attempts' (laterConnections last t hops))
    (hempty : NoBodyReused t hops) (hn : hops.length < n) :
    MatchedRun net fuel last t hops (downloaderRun net fuel n attempts l url) := by
  induction hops generalizing t n attempts attempts' l l' url with
  | nil =>
    obtain ⟨n, rfl⟩ := Nat.exists_eq_succ_of_ne_zero (Nat.ne_of_gt hn)
    obtain ⟨conn, hsend, hos, hsame, -, -⟩ := hat.send net.stack
    obtain ⟨os, hresp, hseen, hbody⟩ :=
      last.read hlast hos (hsame.trans hunread) hline hlastFuel
    obtain ⟨-, -, -, -, hsuccess⟩ := downloaderRun_request hurl hlink hsend fuel n
    have hparsed : Request.parsed net fuel ⟨url, t, l'⟩ = last.lines := by
      unfold Request.parsed
      dsimp only
      rw [hsend]
      exact hseen
    rw [hsuccess _ _ hresp]
    refine ⟨?_, ?_, os, rfl, hbody⟩
    · exact congrArg (fun b => [b]) hunread
    · exact congrArg (fun b => [b]) hparsed
  | cons r rs ih =>
    obtain ⟨n, rfl⟩ := Nat.exists_eq_succ_of_ne_zero (Nat.ne_of_gt (Nat.zero_lt_of_lt hn))
    obtain ⟨hshort, hfuel⟩ := hhops r List.mem_cons_self
    obtain ⟨conn, hsend, hos, hsame, -, haccept⟩ := hat.send net.stack
    obtain ⟨os, hresp, hseen, hparsing, hrest⟩ :=
      r.read hshort hos (hsame.trans hunread) hline hfuel
    obtain ⟨-, -, -, hredirect, -⟩ := downloaderRun_request hurl hlink hsend fuel n
    have hat' := hat.redirect haccept hresp hparsing
    have hparsed : Request.parsed net fuel ⟨url, t, l'⟩ = r.lines := by
      unfold Request.parsed
      dsimp only
      rw [hsend]
      exact hseen
    have hnext : MatchedRun net fuel last r.target rs
        (downloaderRun net fuel n attempts' (some { l' with os := os }) r.url) := by
      have hhops' : ∀ r ∈ rs, r.Short ∧ r.headers.length < fuel :=
        fun r' hr' => hhops r' (List.mem_cons_of_mem _ hr')
      have hn' : rs.length < n := by
        rw [List.length_cons] at hn
        omega
      by_cases hserver : SameServer t r.target
      · obtain ⟨hlink', hat''⟩ := openLink_same net attempts' hat' hserver
        rw [laterConnections, if_pos hserver] at hserved
        rw [if_pos hserver, hempty.1 hserver, List.nil_append] at hrest
        exact ih hhops' r.url_ok hlink' hat'' hrest hserved hempty.2 hn'
      · rw [laterConnections, if_neg hserver] at hserved
        obtain ⟨c, hconnect, hincoming, hcut, hacc⟩ := hserved 0 _ _ rfl
        obtain ⟨l'', hlink', hat'', hconn, hbuf, hconsumed⟩ := openLink_new hconnect hcut hacc
          (show ∀ k, some ({ l' with os := os } : Link) = some k → _ from fun k hk => by
            cases hk
            exact ⟨t, hat', hserver⟩)
        refine ih hhops' r.url_ok hlink' hat'' ?_ ?_ hempty.2 hn'
        · rw [HttpsStream.unread, hbuf, hconn, List.drop_nil, List.nil_append, hincoming]
        · intro i t' bytes hi
          have := hserved (i + 1) t' bytes (by rw [List.getElem?_cons_succ]; exact hi)
          rwa [← Nat.add_assoc, Nat.add_right_comm] at this
    rw [hredirect _ _ hresp]
    refine ⟨?_, ?_, hnext.body⟩
    · rw [List.map_cons, hnext.position, positions]
      exact congrArg (· :: _) hunread
    · rw [List.map_cons, hnext.lines, hparsed]
      rfl

/-! ## Chains byte by byte -/

/-- Byte by byte, a line that is returned is the next one, and it is short. -/
theorem Drained.line {fuel : Nat} {os os' : HttpsStream} {line rest p : Bytes} (h : Drained os)
    (hunread : os.unread = line ++ newline :: rest)
    (hline : newline ∉ line ∧ (0 : UInt8) ∉ line)
    (hcall : getLine fuel os = some (some p, os')) :
    line.length ≤ headerLineMax ∧ p = stripReturn line ∧ os'.unread = rest ∧ Drained os' := by
  obtain ⟨-, hinv, -⟩ := getLine_inv h.parsing hcall
  obtain ⟨line', hsplit, hline', -, rfl⟩ := hinv p rfl
  rw [hunread] at hsplit
  have hsame : line' = line := eq_of_first_newline hline' hline.1
    ⟨[], by rw [List.append_nil, ← hsplit]⟩
  subst hsame
  have hrest : rest = os'.unread := (List.cons.inj (List.append_cancel_left hsplit)).2
  refine ⟨?_, ?_, hrest.symm, h.after_line hcall⟩
  · by_contra hlong
    have hlent : os.lent = 0 := by
      unfold HttpsStream.lent
      rw [h.empty]
      omega
    have hmem := (getLineLoop_single h.parsing h.cut (Nat.zero_le _) (by omega)
      (by rw [h.empty, List.drop_length]; simp) hcall).2
    rw [hunread, List.take_append_of_le_length (Nat.lt_of_not_le hlong)] at hmem
    exact hline.1 (List.mem_of_mem_take hmem)
  · exact cstr_of_not_mem fun hmem => hline.2 (stripReturn_subset _ 0 hmem)

theorem Drained.headers {lineFuel fuel : Nat} {lines : List Bytes} {blank rest : Bytes}
    {h h' : Headers} {os os' : HttpsStream} (hos : Drained os)
    (hunread : os.unread = encodeLines lines ++ (blank ++ newline :: rest))
    (hlines : ∀ l ∈ lines, (newline ∉ l ∧ (0 : UInt8) ∉ l) ∧ stripReturn l ≠ [])
    (hblank : HeaderLine blank) (hempty : stripReturn blank = [])
    (hcall : headersLoop lineFuel fuel h os = some (some h', os')) :
    (∀ l ∈ lines, l.length ≤ headerLineMax) ∧
      h' = lines.foldl (fun h l => parseHeader (stripReturn l) h) h ∧ os'.unread = rest ∧
      Drained os' := by
  induction lines generalizing fuel h os with
  | nil =>
    rw [encodeLines, List.flatMap_nil, List.nil_append] at hunread
    cases fuel with
    | zero => cases hcall
    | succ fuel =>
      unfold headersLoop at hcall
      split at hcall
      · cases hcall
      · cases hcall
      · rename_i p os₁ hget
        obtain ⟨-, rfl, hrest, hos₁⟩ := hos.line hunread ⟨hblank.no_newline, hblank.no_nul⟩ hget
        rw [if_pos hempty] at hcall
        cases hcall
        exact ⟨by simp, rfl, hrest, hos₁⟩
  | cons l lines ih =>
    have hsplit : os.unread =
        l ++ newline :: (encodeLines lines ++ (blank ++ newline :: rest)) := by
      rw [hunread, encodeLines, encodeLines, List.flatMap_cons]
      simp
    obtain ⟨hl, hne⟩ := hlines l List.mem_cons_self
    cases fuel with
    | zero => cases hcall
    | succ fuel =>
      unfold headersLoop at hcall
      split at hcall
      · cases hcall
      · cases hcall
      · rename_i p os₁ hget
        obtain ⟨hshort, rfl, hrest, hos₁⟩ := hos.line hsplit hl hget
        rw [if_neg hne] at hcall
        obtain ⟨hshorts, hh', hunread', hos'⟩ := ih hos₁ hrest
          (fun l' hl' => hlines l' (List.mem_cons_of_mem _ hl')) hcall
        refine ⟨?_, hh', hunread', hos'⟩
        intro l' hl'
        rcases List.mem_cons.mp hl' with rfl | hl'
        · exact hshort
        · exact hshorts l' hl'

/-- A response that is accepted byte by byte is short. -/
theorem Reply.accepted (r : Reply) {os : HttpsStream} (hos : Drained os) {rest : Bytes}
    (hunread : os.unread = r.head ++ rest) {fuel : Nat} {code : Int}
    (hcode : statusCode (stripReturn r.status) = some code) (hok : ¬ code.tdiv 100 > 3)
    (hrunning : readResponse fuel os ≠ .running) (hfailed : readResponse fuel os ≠ .failed) :
    r.Short ∧ ∃ os₁ os₂, getLine fuel os = some (some (stripReturn r.status), os₁) ∧
      headersLoop fuel fuel ⟨-1, none⟩ os₁ = some (some r.parsed, os₂) ∧ os₂.unread = rest ∧
      Drained os₂ := by
  have hsplit : os.unread = r.status ++ newline ::
      (encodeLines r.headers ++ (r.blank ++ newline :: rest)) := by
    rw [hunread, head]
    simp
  obtain ⟨hblank, hempty⟩ := r.blank_line
  cases hget : getLine fuel os with
  | none =>
    rw [readResponse, hget] at hrunning
    exact absurd rfl hrunning
  | some result =>
    obtain ⟨hdr | hdr, os₁⟩ := result
    · rw [readResponse, hget] at hfailed
      exact absurd rfl hfailed
    · obtain ⟨hstatus, rfl, hrest₁, hos₁⟩ :=
        hos.line hsplit (r.lines_ok _ List.mem_cons_self) hget
      rw [readResponse, hget] at hrunning hfailed
      dsimp only at hrunning hfailed
      rw [hcode] at hrunning hfailed
      dsimp only at hrunning hfailed
      rw [if_neg hok] at hrunning hfailed
      cases hheaders : headersLoop fuel fuel ⟨-1, none⟩ os₁ with
      | none =>
        rw [hheaders] at hrunning
        exact absurd rfl hrunning
      | some result =>
        obtain ⟨hs | hs, os₂⟩ := result
        · rw [hheaders] at hfailed
          exact absurd rfl hfailed
        · obtain ⟨hshorts, hparsed, hrest₂, hos₂⟩ := hos₁.headers hrest₁
            (fun l hl => ⟨r.lines_ok l (List.mem_cons_of_mem _ hl), r.headers_ne l hl⟩) hblank
            hempty hheaders
          refine ⟨?_, os₁, os₂, rfl, by rw [hheaders, hparsed]; rfl, hrest₂, hos₂⟩
          intro l hl
          rcases List.mem_cons.mp hl with rfl | hl
          · exact hstatus
          · exact hshorts l hl

/-- A run that ends well has got a response to its first request. -/
theorem accepted_of_success {net : Net} {fuel n attempts attempts' : Nat} {l : Option Link}
    {l' : Link} {url : Bytes} {t : Target} {r : HttpsStream × Nat} (hurl : parseUrl url = some t)
    (hlink : openLink net attempts l t = (some l', attempts')) (hat : AtServer l' t)
    (hfinal : (downloaderRun net fuel n attempts l url).2 = some (some r)) :
    ∃ m conn, n = m + 1 ∧ sendRequest t net.stack l'.os.conn = (true, conn) ∧
      ({ l'.os with conn := conn } : HttpsStream).unread = l'.os.unread ∧
      conn.accept = l'.os.conn.accept ∧
      readResponse fuel { l'.os with conn := conn } ≠ .running ∧
      readResponse fuel { l'.os with conn := conn } ≠ .failed := by
  cases n with
  | zero => cases hfinal
  | succ m =>
    obtain ⟨conn, hsend, -, hsame, -, haccept⟩ := hat.send net.stack
    obtain ⟨-, hrunning, hfailed, -, -⟩ := downloaderRun_request hurl hlink hsend fuel m
    refine ⟨m, conn, rfl, hsend, hsame, haccept, fun h => ?_, fun h => ?_⟩
    · rw [hrunning h] at hfinal
      cases hfinal
    · rw [hfailed h] at hfinal
      cases hfinal

/-- A chain that stays matched byte by byte has short lines and no body on a connection that
is used again. -/
theorem short_of_matchedRun {net : Net} {last : Final} {fuel : Nat}
    (hbyte : ∀ k host port c, net.connect k host port = some c → ∀ j, c.cut j = 1)
    {hops : List Redirect} {t : Target} {n attempts attempts' : Nat} {l : Option Link} {l' : Link}
    {url : Bytes} (hurl : parseUrl url = some t)
    (hlink : openLink net attempts l t = (some l', attempts')) (hat : AtServer l' t)
    (hdrained : Drained l'.os) (hunread : l'.os.unread = remaining last t hops)
    (hserved : Served net attempts' (laterConnections last t hops))
    (hmatched : MatchedRun net fuel last t hops (downloaderRun net fuel n attempts l url)) :
    last.Short ∧ (∀ r ∈ hops, r.Short) ∧ NoBodyReused t hops := by
  induction hops generalizing t n attempts attempts' l l' url with
  | nil =>
    obtain ⟨final, hfinal, -⟩ := hmatched.body
    obtain ⟨n, conn, rfl, hsend, hsame, -, hrunning, hfailed⟩ :=
      accepted_of_success hurl hlink hat hfinal
    obtain ⟨hshort, -⟩ := last.toReply.accepted (hdrained.sendRequest hsend)
      (hsame.trans hunread) last.code (by decide) hrunning hfailed
    exact ⟨hshort, by simp, trivial⟩
  | cons r rs ih =>
    obtain ⟨final, hfinal, hbody⟩ := hmatched.body
    obtain ⟨n, conn, rfl, hsend, hsame, haccept, hrunning, hfailed⟩ :=
      accepted_of_success hurl hlink hat hfinal
    obtain ⟨hshort, os₁, os, hget, hheaders, hrest, hos⟩ := r.toReply.accepted
      (hdrained.sendRequest hsend) (hsame.trans hunread) r.code (by decide) hrunning hfailed
    have hresp : readResponse fuel { l'.os with conn := conn } = .redirect r.url os := by
      unfold readResponse
      rw [hget]
      dsimp only
      rw [r.code]
      dsimp only
      rw [if_neg (by decide), hheaders]
      dsimp only
      rw [if_pos rfl, r.location]
    have hat' := hat.redirect haccept hresp hos.parsing
    have hrun := (downloaderRun_request hurl hlink hsend fuel n).2.2.2.1 _ _ hresp
    rw [hrun] at hmatched
    have hnext : MatchedRun net fuel last r.target rs
        (downloaderRun net fuel n attempts' (some { l' with os := os }) r.url) :=
      ⟨(List.cons.inj hmatched.position).2, (List.cons.inj hmatched.lines).2, hmatched.body⟩
    have hassemble : last.Short ∧ (∀ r ∈ rs, r.Short) ∧ NoBodyReused r.target rs →
        (SameServer t r.target → r.body = []) →
        last.Short ∧ (∀ r' ∈ r :: rs, r'.Short) ∧ NoBodyReused t (r :: rs) := by
      rintro ⟨hlast, hshorts, hreused⟩ hempty
      refine ⟨hlast, ?_, hempty, hreused⟩
      intro r' hr'
      rcases List.mem_cons.mp hr' with rfl | hr'
      · exact hshort
      · exact hshorts r' hr'
    by_cases hserver : SameServer t r.target
    · obtain ⟨hlink', hat''⟩ := openLink_same net attempts' hat' hserver
      rw [laterConnections, if_pos hserver] at hserved
      rw [if_pos hserver] at hrest
      -- the next response is expected where the body starts
      have hplace : os.unread = remaining last r.target rs := by
        obtain ⟨final', hfinal', -⟩ := hnext.body
        obtain ⟨m, conn', rfl, hsend', -⟩ := accepted_of_success r.url_ok hlink' hat'' hfinal'
        obtain ⟨⟨more, hmore⟩, -⟩ := downloaderRun_request r.url_ok hlink' hsend' fuel m
        have hposition := hnext.position
        rw [hmore, List.map_cons] at hposition
        cases rs with
        | nil => exact (List.cons.inj hposition).1
        | cons r' rs => exact (List.cons.inj hposition).1
      have hempty : r.body = [] := by
        have := congrArg List.length (hrest.symm.trans hplace)
        rw [List.length_append] at this
        exact List.length_eq_zero_iff.mp (by omega)
      exact hassemble (ih r.url_ok hlink' hat'' hos hplace hserved hnext) fun _ => hempty
    · rw [laterConnections, if_neg hserver] at hserved
      obtain ⟨c, hconnect, hincoming, hcut, hacc⟩ := hserved 0 _ _ rfl
      obtain ⟨l'', hlink', hat'', hconn, hbuf, hconsumed⟩ := openLink_new hconnect hcut hacc
        (show ∀ k, some ({ l' with os := os } : Link) = some k → _ from fun k hk => by
          cases hk
          exact ⟨t, hat', hserver⟩)
      have hdrained' : Drained l''.os := by
        refine ⟨hat''.parsing, ?_, by rw [hconsumed, hbuf]; rfl⟩
        rw [hconn]
        exact hbyte _ _ _ c hconnect
      have hplace : l''.os.unread = remaining last r.target rs := by
        rw [HttpsStream.unread, hbuf, hconn, List.drop_nil, List.nil_append, hincoming]
      refine hassemble (ih r.url_ok hlink' hat'' hdrained' hplace ?_ hnext)
        fun h => absurd h hserver
      intro i t' bytes hi
      have := hserved (i + 1) t' bytes (by rw [List.getElem?_cons_succ]; exact hi)
      rwa [← Nat.add_assoc, Nat.add_right_comm] at this

/-! ## The chain -/

/-- Servers for a chain whose connections hand over single bytes. -/
def chainNet (t : Target) (hops : List Redirect) (last : Final) : Net where
  connect attempt _ _ :=
    ((t, remaining last t hops) :: laterConnections last t hops)[attempt]?.map
      fun conn => singleConn conn.2
  stack _ := 0

theorem chainNet_serves (t : Target) (hops : List Redirect) (last : Final) :
    ServesChain (chainNet t hops last) t hops last := by
  intro i t' bytes hi
  refine ⟨singleConn bytes, ?_, rfl, fun _ => Nat.one_pos, fun _ => Nat.one_pos⟩
  show (_ : List (Target × Bytes))[0 + i]?.map _ = _
  rw [Nat.zero_add, hi, Option.map_some]

theorem chainNet_byByte (t : Target) (hops : List Redirect) (last : Final) (k : Nat) (host : Bytes)
    (port : Int) (c : Conn) (h : (chainNet t hops last).connect k host port = some c) (j : Nat) :
    c.cut j = 1 := by
  obtain ⟨conn, -, rfl⟩ := Option.map_eq_some_iff.mp h
  rfl

/-- The link of the first request. -/
theorem first_link {net : Net} {t : Target} {hops : List Redirect} {last : Final}
    (h : ServesChain net t hops last) :
    ∃ l c, openLink net 0 none t = (some l, 1) ∧ net.connect 0 t.host t.port = some c ∧
      AtServer l t ∧ l.os.conn = c ∧ l.os.buf = [] ∧ l.os.consumed = 0 ∧
      l.os.unread = remaining last t hops ∧ Served net 1 (laterConnections last t hops) := by
  obtain ⟨c, hconnect, hincoming, hcut, hacc⟩ := h 0 _ _ rfl
  obtain ⟨l, hlink, hat, hconn, hbuf, hconsumed⟩ := openLink_new hconnect hcut hacc
    (show ∀ k, (none : Option Link) = some k → _ by simp)
  refine ⟨l, c, hlink, hconnect, hat, hconn, hbuf, hconsumed, ?_, fun i t' bytes hi => ?_⟩
  · rw [HttpsStream.unread, hbuf, hconn, List.drop_nil, List.nil_append, hincoming]
  · have := h (i + 1) t' bytes (by rw [List.getElem?_cons_succ]; exact hi)
    rwa [← Nat.add_assoc, Nat.add_right_comm] at this

/-- Byte by byte a chain shows whether it stays matched. -/
theorem StaysMatched.short {url : Bytes} {t : Target} {hops : List Redirect} {last : Final}
    (hmatched : StaysMatched url t hops last) (hurl : parseUrl url = some t) :
    (last.Short ∧ ∀ r ∈ hops, r.Short) ∧ NoBodyReused t hops := by
  obtain ⟨n, hrun⟩ := hmatched _ (chainNet_serves t hops last)
  obtain ⟨l, c, hlink, hconnect, hat, hconn, hbuf, hconsumed, hunread, hserved⟩ :=
    first_link (chainNet_serves t hops last)
  have hdrained : Drained l.os := by
    refine ⟨hat.parsing, ?_, by rw [hconsumed, hbuf]; rfl⟩
    rw [hconn]
    exact chainNet_byByte t hops last _ _ _ c hconnect
  obtain ⟨hlast, hshort, hreused⟩ := short_of_matchedRun (chainNet_byByte t hops last) hurl
    hlink hat hdrained hunread hserved (hrun n le_rfl)
  exact ⟨⟨hlast, hshort⟩, hreused⟩

/-- **Responses and redirects.** For a chain of at most three redirects, the responses stay
matched to the requests, in every run and for every fragmentation, exactly if all header
lines are within the limit and no redirect that is followed on its own connection has a
body. -/
theorem responses_stay_matched_iff {url : Bytes} {t : Target} (hurl : parseUrl url = some t)
    (hops : List Redirect) (hlength : hops.length ≤ 3) (last : Final) :
    StaysMatched url t hops last ↔
      (last.Short ∧ ∀ r ∈ hops, r.Short) ∧ NoBodyReused t hops := by
  refine ⟨fun hmatched => hmatched.short hurl, ?_⟩
  rintro ⟨⟨hlast, hshort⟩, hreused⟩ net hserves
  obtain ⟨l, c, hlink, -, hat, -, -, -, hunread, hserved⟩ := first_link hserves
  refine ⟨lineRounds + (last.headers.length + (hops.map fun r => r.headers.length).sum) + 1,
    fun fuel hfuel => ?_⟩
  refine matchedRun_of_short (by omega) hlast (by omega) (fun r hr => ⟨hshort r hr, ?_⟩) hurl
    hlink hat hunread hserved hreused (by omega)
  have := List.single_le_sum (by simp) _
    (List.mem_map_of_mem hr : _ ∈ hops.map fun r => r.headers.length)
  omega

/-- A redirect to another path of the same server, without a body. -/
def moved : Redirect where
  status := lit "HTTP/1.1 302 Found\r"
  headers := [lit "Location: http://h/b\r", lit "Content-Length: 0\r"]
  blank := [carriageReturn]
  body := []
  lines_ok := by decide
  headers_ne := by decide
  blank_ok := blank_return
  url := lit "http://h/b"
  target := ⟨false, lit "h", 80, lit "/b"⟩
  code := by decide
  location := by decide
  url_ok := by decide
  length_ok := Or.inl (by decide)

/-- The same with a body of two bytes. -/
def movedWithBody : Redirect where
  status := lit "HTTP/1.1 302 Found\r"
  headers := [lit "Location: http://h/b\r", lit "Content-Length: 2\r"]
  blank := [carriageReturn]
  body := lit "no"
  lines_ok := by decide
  headers_ne := by decide
  blank_ok := blank_return
  url := lit "http://h/b"
  target := ⟨false, lit "h", 80, lit "/b"⟩
  code := by decide
  location := by decide
  url_ok := by decide
  length_ok := Or.inl (by decide)

def found : Final where
  status := lit "HTTP/1.1 200 OK\r"
  headers := [lit "Content-Length: 2\r"]
  blank := [carriageReturn]
  body := lit "ab"
  lines_ok := by decide
  headers_ne := by decide
  blank_ok := blank_return
  code := by decide
  length_ok := by decide

theorem responses_stay_matched_moved :
    StaysMatched (lit "http://h/a") ⟨false, lit "h", 80, lit "/a"⟩ [moved] found := by
  refine (responses_stay_matched_iff (by decide) [moved] (by simp) found).mpr
    ⟨⟨?_, ?_⟩, fun _ => rfl, trivial⟩
  · unfold Reply.Short
    decide
  · intro r hr
    rw [List.mem_singleton.mp hr]
    unfold Reply.Short
    decide

/-- The status line parsed after the second request starts with the body of the redirect. -/
theorem redirect_body_breaks_framing :
    ¬ StaysMatched (lit "http://h/a") ⟨false, lit "h", 80, lit "/a"⟩ [movedWithBody] found := by
  intro hmatched
  have hempty := (hmatched.short (by decide)).2.1 (by decide)
  revert hempty
  decide

end ToolchainTools
