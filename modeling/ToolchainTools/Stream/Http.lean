import ToolchainTools.Stream.File

/-!
# The HTTP source (`tools/stream/source-http.c`)

A connection is what the peer is still to send, together with how much the transport hands
over at each receive and takes at each send; a receive or send that moves nothing is one
that fails or finds the connection closed. The bytes of a TLS session are those of the
application, so that both kinds of connection have the same state.

`get_line` reads on after a failed receive, so it and the loop over the header lines take
the number of rounds they may make; a result `none` says that the call is still running.
-/

namespace ToolchainTools

open CLib Streams

/-! ## Connections -/

structure Conn where
  incoming : Bytes
  /-- How many bytes the receive with this number hands over at most. -/
  cut : Nat → Nat
  recvs : Nat
  /-- How many bytes the send with this number takes at most. -/
  accept : Nat → Nat
  sends : Nat
  sent : Bytes

namespace Conn

/-- A receive of at most `n` bytes; nothing when it fails. -/
def receive (c : Conn) (n : Nat) : Bytes × Conn :=
  let k := min (c.cut c.recvs) n
  (c.incoming.take k, { c with incoming := c.incoming.drop k, recvs := c.recvs + 1 })

/-- A send out of `data`; the number of bytes taken. -/
def send (c : Conn) (data : Bytes) : Nat × Conn :=
  let taken := data.take (c.accept c.sends)
  (taken.length, { c with sends := c.sends + 1, sent := c.sent ++ taken })

end Conn

/-- The most that one system call moves. -/
def rwMax : Nat := 0x7ffff000

/-! ## The stream -/

/-- `buf` are the first `avail` bytes of the buffer and `room` is `bufsz - avail`. -/
structure HttpsStream where
  conn : Conn
  host : Bytes
  port : Int
  isHttps : Bool
  buf : Bytes
  room : Nat
  consumed : Nat
  lengthRemaining : Int

/-- The number of bytes that a receive into `room` bytes asks for: `br_sslio_read` is given
the room itself, `recv` its conversion to `int`. -/
def receiveRequest (isHttps : Bool) (room : Nat) : Nat :=
  if isHttps then room else min (toSize (toInt32 room)) rwMax

/-- One receive into the buffer, which grows first if it is full: the number of bytes
received, and the stream behind it. -/
def httpsReceive (os : HttpsStream) : Nat × HttpsStream :=
  let room := if os.room = 0 then growth else os.room
  let r := os.conn.receive (receiveRequest os.isHttps room)
  (r.1.length, { os with conn := r.2, buf := os.buf ++ r.1, room := room - r.1.length })

/-- `while (os->avail < need)`; false when it ends in the error path. -/
def httpsFill (need : Nat) (os : HttpsStream) : Bool × HttpsStream :=
  if os.buf.length < need then
    let r := httpsReceive os
    if _hr : r.1 = 0 then (false, r.2)
    else if (r.2.buf.length : Int) > os.lengthRemaining then (false, r.2)
    else httpsFill need r.2
  else (true, os)
termination_by os.conn.incoming.length
decreasing_by
  have hpos : 0 < r.1 := Nat.pos_of_ne_zero _hr
  change r.2.conn.incoming.length < os.conn.incoming.length
  simp only [r, httpsReceive, Conn.receive, List.length_take, List.length_drop] at hpos ⊢
  omega

def readHttps : Reader HttpsStream := fun os consume need =>
  let consumed := os.consumed + consume
  let remaining := toInt64 (os.lengthRemaining - consume)
  let need := if toInt64 need > remaining then toSize remaining else need
  if add64 consumed need ≤ os.buf.length then
    some (⟨os.buf.drop consumed, false⟩,
      { os with consumed := consumed, lengthRemaining := remaining })
  else
    let os : HttpsStream :=
      { os with
        lengthRemaining := remaining
        buf := os.buf.drop consumed
        room := os.room + consumed
        consumed := 0 }
    match httpsFill need os with
    | (true, os) => some (⟨os.buf, false⟩, os)
    | (false, os) => some (⟨[], true⟩, { os with lengthRemaining := 0 })

/-! ## Header lines -/

def newline : UInt8 := 10
def carriageReturn : UInt8 := 13

/-- A line without the carriage return before its newline. -/
def stripReturn (line : Bytes) : Bytes :=
  if line.getLast? = some carriageReturn then line.dropLast else line

/-- A header line without a newline may have this many bytes. -/
def headerLineMax : Nat := 512

/-- `INT64_MAX`. -/
def int64Max : Int := 0x7fffffffffffffff

/-- The loop of `get_line`, with the length of the window looked at last. -/
def getLineLoop : Nat → Nat → HttpsStream → Option (Option Bytes × HttpsStream)
  | 0, _, _ => none
  | fuel + 1, lineLen, os =>
    (readHttps { os with lengthRemaining := int64Max } 0 (lineLen + 1)).bind fun (w, os) =>
      match strchr w.bytes newline with
      | some rest =>
        let line := w.bytes.take (w.bytes.length - rest.length)
        some (some (cstr (stripReturn line)),
          { os with consumed := os.consumed + (line.length + 1) })
      | none =>
        if w.bytes.length > headerLineMax then some (none, os)
        else getLineLoop fuel w.bytes.length os

def getLine (fuel : Nat) (os : HttpsStream) : Option (Option Bytes × HttpsStream) :=
  getLineLoop fuel 0 os

def isSpace (ch : UInt8) : Bool := ch = 32 ∨ ch = 9 ∨ ch = 13 ∨ ch = 10

/-- `trim` of `source-http.c`. -/
def trimHeader (str : Bytes) : Bytes := trimBy isSpace isSpace str

/-- What the header lines have told so far. -/
structure Headers where
  contentLength : Int
  location : Option Bytes

def colonByte : UInt8 := 58

/-- What one header line adds. -/
def parseHeader (p : Bytes) (h : Headers) : Headers :=
  match strchr p colonByte with
  | none => h
  | some rest =>
    let key := trimHeader (p.take (p.length - rest.length))
    let value := trimHeader rest.tail
    if strcaseeq key (lit "content-length") then { h with contentLength := strtoll value 0 }
    else if strcaseeq key (lit "location") then { h with location := some value }
    else h

/-- The loop over the header lines; the inner `none` is the error path. -/
def headersLoop (lineFuel : Nat) : Nat → Headers → HttpsStream →
    Option (Option Headers × HttpsStream)
  | 0, _, _ => none
  | fuel + 1, h, os =>
    match getLine lineFuel os with
    | none => none
    | some (none, os) => some (none, os)
    | some (some p, os) =>
      if p = [] then some (some h, os)
      else headersLoop lineFuel fuel (parseHeader p h) os

/-! ## Requests -/

/-- What a url says about where to go. -/
structure Target where
  isHttps : Bool
  host : Bytes
  port : Int
  path : Bytes
  deriving DecidableEq

def parseUrl (url : Bytes) : Option Target :=
  let scheme : Option (Bool × Bytes) :=
    if startsWith url (lit "https://") then some (true, url.drop (lit "https://").length)
    else if startsWith url (lit "http://") then some (false, url.drop (lit "http://").length)
    else none
  scheme.map fun (isHttps, url) =>
    let hostPath : Bytes × Bytes :=
      match strchr url 47 with
      | some path => (url.take (url.length - path.length), path)
      | none => (url, lit "/")
    match strchr hostPath.1 colonByte with
    | some colon =>
      ⟨isHttps, hostPath.1.take (hostPath.1.length - colon.length), atoi colon.tail, hostPath.2⟩
    | none => ⟨isHttps, hostPath.1, if isHttps then 443 else 80, hostPath.2⟩

def requestText (t : Target) : Bytes :=
  lit "GET " ++ t.path ++ lit " HTTP/1.1\r\nHost:" ++ t.host ++ lit "\r\n\r\n"

def requestSize : Nat := 1024

/-- The memory that `reqsz` bytes from `request` on hold after `snprintf`, with `stack` behind
the buffer. -/
def requestMemory (text : Bytes) (stack : Nat → UInt8) : Bytes :=
  if text.length < requestSize then text
  else text.take (requestSize - 1) ++ 0 :: (List.range (text.length - requestSize)).map stack

/-- `while (reqsz)`: every send starts at the start of the request again. -/
def sendLoop (memory : Bytes) (reqsz : Nat) (c : Conn) : Bool × Conn :=
  if reqsz = 0 then (true, c)
  else
    let r := c.send (memory.take reqsz)
    if _h : r.1 = 0 then (false, r.2) else sendLoop memory (reqsz - r.1) r.2
termination_by reqsz
decreasing_by
  change reqsz - r.1 < reqsz
  omega

/-- `br_sslio_write_all` and `br_sslio_flush`, or the loop over `send`. -/
def sendRequest (t : Target) (stack : Nat → UInt8) (c : Conn) : Bool × Conn :=
  let text := requestText t
  let memory := requestMemory text stack
  if t.isHttps then
    if c.accept c.sends = 0 then (false, { c with sends := c.sends + 1 })
    else (true, { c with sends := c.sends + 1, sent := c.sent ++ memory })
  else sendLoop memory text.length c

/-! ## The downloader -/

/-- The world outside: which connection an attempt to connect gets, and the stack behind the
request buffer. -/
structure Net where
  connect : Nat → Bytes → Int → Option Conn
  stack : Nat → UInt8

/-- The stream to send a request on: the one in use if it goes to the right place, else a
new one, which keeps the buffer. The second component counts the attempts. -/
def openConnection (net : Net) (attempts : Nat) (os : Option HttpsStream) (t : Target) :
    Option HttpsStream × Nat :=
  match os with
  | some os =>
    if os.host = t.host ∧ os.isHttps = t.isHttps ∧ os.port = t.port then (some os, attempts)
    else
      ((net.connect attempts t.host t.port).map fun c =>
        { os with
          conn := c
          host := t.host
          port := t.port
          isHttps := t.isHttps
          room := os.room + os.buf.length
          buf := []
          consumed := 0 }, attempts + 1)
  | none =>
    ((net.connect attempts t.host t.port).map fun c =>
      ⟨c, t.host, t.port, t.isHttps, [], 0, 0, 0⟩, attempts + 1)

/-- What follows from a status line. -/
def statusCode (hdr : Bytes) : Option Int := (strchr hdr 32).map atoi

/-- What one request and its response lead to. -/
inductive Exchange where
  | running
  | failed
  | redirect (url : Bytes) (os : HttpsStream)
  | success (os : HttpsStream) (total : Nat)

/-- The part of the loop behind the request: the status line and the headers. -/
def readResponse (fuel : Nat) (os : HttpsStream) : Exchange :=
  match getLine fuel os with
  | none => .running
  | some (none, _) => .failed
  | some (some hdr, os) =>
    match statusCode hdr with
    | none => .failed
    | some httperr =>
      if httperr.tdiv 100 > 3 then .failed
      else
        match headersLoop fuel fuel ⟨-1, none⟩ os with
        | none => .running
        | some (none, _) => .failed
        | some (some h, os) =>
          if httperr = 302 then
            match h.location with
            | none => .failed
            | some url => .redirect url os
          else if httperr = 200 then
            if h.contentLength < 0 then .failed
            else .success { os with lengthRemaining := h.contentLength } (toSize h.contentLength)
          else .failed

/-- The loop over redirects, with the number of requests still allowed. -/
def downloaderLoop (net : Net) (fuel : Nat) :
    Nat → Nat → Option HttpsStream → Bytes → Option (Option (HttpsStream × Nat))
  | 0, _, _, _ => some none
  | requests + 1, attempts, os, url =>
    match parseUrl url with
    | none => some none
    | some t =>
      match openConnection net attempts os t with
      | (none, _) => some none
      | (some os, attempts) =>
        match sendRequest t net.stack os.conn with
        | (false, _) => some none
        | (true, conn) =>
          match readResponse fuel { os with conn := conn } with
          | .running => none
          | .failed => some none
          | .redirect url os => downloaderLoop net fuel requests attempts (some os) url
          | .success os total => some (some (os, total))

/-- `open_http_downloader`: the stream and `*ptotal`, or `NULL`. The fifth request is
refused. -/
def openHttpDownloader (net : Net) (fuel : Nat) (url : Bytes) :
    Option (Option (HttpsStream × Nat)) :=
  downloaderLoop net fuel 4 0 none url

end ToolchainTools
