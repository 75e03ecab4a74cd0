import ToolchainTools.Stream.HttpHeaders

/-!
# Downloading a response

The layout of an HTTP 200 response and what the parsers make of its lines; then the main
result: a response is downloaded the same way however the transport cuts it, as long as
every read is a safe one.
-/

namespace ToolchainTools

open CLib Streams

/-! ## Numbers and blanks -/

/-- The canonical decimal form of a number. -/
def decimal (n : Nat) : Bytes :=
  if n < 10 then [UInt8.ofNat (48 + n)]
  else decimal (n / 10) ++ [UInt8.ofNat (48 + n % 10)]

theorem digit_decimal {d : Nat} (h : d < 10) : digit 10 (UInt8.ofNat (48 + d)) = some d := by
  interval_cases d <;> decide

theorem mem_decimal {n : Nat} {b : UInt8} (h : b ∈ decimal n) :
    ∃ d < 10, b = UInt8.ofNat (48 + d) := by
  fun_induction decimal n with
  | case1 n hn => exact ⟨n, hn, List.mem_singleton.mp h⟩
  | case2 n hn ih =>
    rcases List.mem_append.mp h with hmem | hmem
    · exact ih hmem
    · exact ⟨n % 10, Nat.mod_lt _ (by norm_num), List.mem_singleton.mp hmem⟩

theorem digits_append {xs ys : Bytes} (hxs : ∀ b ∈ xs, ∃ d < 10, b = UInt8.ofNat (48 + d))
    (acc : Nat) : digits 10 acc (xs ++ ys) = digits 10 (digits 10 acc xs) ys := by
  induction xs generalizing acc with
  | nil => rfl
  | cons b xs ih =>
    obtain ⟨d, hd, rfl⟩ := hxs b List.mem_cons_self
    simp only [List.cons_append, digits, digit_decimal hd]
    exact ih (fun b' hb' => hxs b' (List.mem_cons_of_mem _ hb')) _

theorem digits_decimal (n : Nat) : digits 10 0 (decimal n) = n := by
  fun_induction decimal n with
  | case1 n hn => simp only [digits, digit_decimal hn, Nat.zero_mul, Nat.zero_add]
  | case2 n hn ih =>
    rw [digits_append (fun b hb => mem_decimal hb), ih]
    simp only [digits, digit_decimal (Nat.mod_lt n (by norm_num : 0 < 10))]
    omega

theorem decimal_cons (n : Nat) :
    ∃ d r, d < 10 ∧ decimal n = UInt8.ofNat (48 + d) :: r ∧ (0 < n → 0 < d) := by
  fun_induction decimal n with
  | case1 n hn => exact ⟨n, [], hn, rfl, id⟩
  | case2 n hn ih =>
    obtain ⟨d, r, hd, heq, hpos⟩ := ih
    exact ⟨d, r ++ [UInt8.ofNat (48 + n % 10)], hd, by rw [heq]; rfl, fun _ => hpos (by omega)⟩

/-- `strtoll` with base 0 reads canonical decimals. -/
theorem strtoll_decimal {n : Nat} (hn : n < 2 ^ 63) : strtoll (decimal n) 0 = n := by
  obtain ⟨d, r, hd, heq, hpos⟩ := decimal_cons n
  have hspace : (decimal n).dropWhile isspace = decimal n := by
    rw [heq, List.dropWhile_cons_of_neg]
    interval_cases d <;> decide
  have hsign : sign (decimal n) = (false, decimal n) := by
    rw [heq]
    interval_cases d <;> rfl
  have hstrto : strto (decimal n) 0 = (false, n) := by
    unfold strto
    dsimp only
    rw [hspace, hsign]
    dsimp only
    rcases Nat.eq_zero_or_pos n with hzero | hn'
    · rw [hzero]
      decide +kernel
    · have hradix : radix 0 (decimal n) = (10, decimal n) := by
        have hd' := hpos hn'
        rw [heq]
        interval_cases d <;> rfl
      rw [hradix, digits_decimal]
  unfold strtoll
  rw [hstrto]
  dsimp only
  rw [if_neg (by simp)]
  omega

/-- Blanks around a string that neither starts nor ends with one. -/
theorem trimHeader_blanks {front x back : Bytes} (hfront : ∀ b ∈ front, isSpace b)
    (hback : ∀ b ∈ back, isSpace b) (hne : x ≠ []) (hx : ∀ b ∈ x, isSpace b = false) :
    trimHeader (front ++ x ++ back) = x := by
  have hstart : ∀ (f y rest : Bytes), (∀ b ∈ f, isSpace b) → y ≠ [] →
      (∀ b ∈ y, isSpace b = false) → (f ++ (y ++ rest)).dropWhile isSpace = y ++ rest := by
    intro f y rest hf hy hyspace
    rw [List.dropWhile_append_of_pos (by simpa using hf)]
    obtain ⟨b, bs, rfl⟩ := List.exists_cons_of_ne_nil hy
    rw [List.cons_append, List.dropWhile_cons_of_neg]
    simp [hyspace b List.mem_cons_self]
  unfold trimHeader trimBy
  rw [List.append_assoc, hstart front x back hfront hne hx, List.reverse_append]
  have hrev := hstart back.reverse x.reverse [] (by simpa using hback) (by simpa using hne)
    (by simpa using hx)
  rw [List.append_nil] at hrev
  rw [hrev, List.reverse_reverse]

/-- The carriage return that is stripped lies in the last part. -/
theorem stripReturn_append {a b : Bytes} (ha : a.getLast? ≠ some carriageReturn) :
    stripReturn (a ++ b) = a ++ stripReturn b := by
  unfold stripReturn
  cases b using List.reverseRec with
  | nil => simp [ha]
  | append_singleton b c =>
    rw [← List.append_assoc, List.getLast?_concat, List.getLast?_concat]
    split
    · rw [List.dropLast_concat, List.dropLast_concat]
    · rw [List.append_assoc]

/-! ## The lines of a response -/

/-- A status line of code 200. -/
structure Status200 (line : Bytes) : Prop where
  header : HeaderLine line
  code : ∃ version reason, line = version ++ lit " 200" ++ reason ∧ (32 : UInt8) ∉ version ∧
    ∀ c, reason.head? = some c → digit 10 c = none

theorem statusCode_200 {line : Bytes} (h : Status200 line) :
    statusCode (stripReturn line) = some 200 := by
  obtain ⟨version, reason, rfl, hversion, hreason⟩ := h.code
  have hlit : lit " 200" = [32, 50, 48, 48] := by decide
  have hstrip : stripReturn (version ++ lit " 200" ++ reason) =
      version ++ 32 :: ([50, 48, 48] ++ stripReturn reason) := by
    rw [stripReturn_append, hlit]
    · simp
    · rw [hlit]
      simp [carriageReturn]
  have hhead : ∀ c, (stripReturn reason).head? = some c → digit 10 c = none := by
    intro c hc
    apply hreason c
    unfold stripReturn at hc
    split at hc
    · cases reason with
      | nil => simp at hc
      | cons x xs =>
        cases xs with
        | nil => simp at hc
        | cons y ys => simpa using hc
    · exact hc
  have hdigits : digits 10 0 ([50, 48, 48] ++ stripReturn reason) = 200 := by
    have hstart : ∀ b ∈ ([50, 48, 48] : Bytes), ∃ d < 10, b = UInt8.ofNat (48 + d) := by
      intro b hb
      simp only [List.mem_cons, List.not_mem_nil, or_false] at hb
      rcases hb with rfl | rfl | rfl
      · exact ⟨2, by norm_num, rfl⟩
      · exact ⟨0, by norm_num, rfl⟩
      · exact ⟨0, by norm_num, rfl⟩
    rw [digits_append hstart]
    have h200 : digits 10 0 [50, 48, 48] = 200 := by decide
    rw [h200]
    cases hr : stripReturn reason with
    | nil => rfl
    | cons c cs =>
      rw [digits, hhead c (by rw [hr]; rfl)]
  rw [statusCode, hstrip, strchr_append hversion, Option.map_some]
  congr 1
  unfold atoi strtoll strto
  have hspace : (32 :: ([50, 48, 48] ++ stripReturn reason)).dropWhile isspace =
      [50, 48, 48] ++ stripReturn reason := by
    rw [List.dropWhile_cons_of_pos (by decide), List.cons_append,
      List.dropWhile_cons_of_neg (by decide)]
  have hsign : sign ([50, 48, 48] ++ stripReturn reason) =
      (false, [50, 48, 48] ++ stripReturn reason) := rfl
  have hradix : radix 10 ([50, 48, 48] ++ stripReturn reason) =
      (10, [50, 48, 48] ++ stripReturn reason) := rfl
  rw [hspace, hsign]
  dsimp only
  rw [hradix]
  dsimp only
  rw [hdigits]
  decide

/-- Whether a line sets the content length. -/
def isContentLength (line : Bytes) : Bool :=
  match strchr line colonByte with
  | none => false
  | some rest =>
    strcaseeq (trimHeader (line.take (line.length - rest.length))) (lit "content-length")

theorem parseHeader_other {line : Bytes} (h : isContentLength line = false) (hs : Headers) :
    (parseHeader line hs).contentLength = hs.contentLength := by
  unfold isContentLength at h
  unfold parseHeader
  split
  · rfl
  · rename_i rest hrest
    rw [hrest] at h
    dsimp only at h ⊢
    rw [if_neg (by simp [h])]
    split <;> rfl

/-- A line that gives the length `n` in canonical decimal, in any letter case and with any
blanks around the name and the number. -/
structure LengthLine (n : Nat) (line : Bytes) : Prop where
  header : HeaderLine line
  form : ∃ b₁ name b₂ b₃ b₄, line = b₁ ++ name ++ b₂ ++ colonByte :: (b₃ ++ decimal n ++ b₄) ∧
    strcaseeq name (lit "content-length") = true ∧ (∀ b ∈ b₁ ++ b₂ ++ b₃ ++ b₄, isSpace b = true)

theorem tolower_name {name : Bytes} (h : strcaseeq name (lit "content-length") = true) {b : UInt8}
    (hb : b ∈ name) : isSpace b = false ∧ b ≠ colonByte := by
  have hmap : name.map tolower = (lit "content-length").map tolower := by
    simpa [strcaseeq] using h
  have hmem : tolower b ∈ (lit "content-length").map tolower := by
    rw [← hmap]
    exact List.mem_map_of_mem hb
  have hletters : ∀ c ∈ (lit "content-length").map tolower,
      c ≠ tolower 32 ∧ c ≠ tolower 9 ∧ c ≠ tolower 13 ∧ c ≠ tolower 10 ∧
        c ≠ tolower colonByte := by decide +kernel
  obtain ⟨h32, h9, h13, h10, hcolon⟩ := hletters _ hmem
  refine ⟨?_, fun he => hcolon (he ▸ rfl)⟩
  by_contra hspace
  simp only [isSpace, Bool.not_eq_false, decide_eq_true_eq] at hspace
  rcases hspace with rfl | rfl | rfl | rfl
  · exact h32 rfl
  · exact h9 rfl
  · exact h13 rfl
  · exact h10 rfl

/-- The length line is understood, and it is the only kind of line that is. -/
theorem parseHeader_length {n : Nat} {line : Bytes} (hn : n < 2 ^ 63) (h : LengthLine n line)
    (hs : Headers) : (parseHeader (stripReturn line) hs).contentLength = n := by
  obtain ⟨b₁, name, b₂, b₃, b₄, rfl, hname, hblank⟩ := h.form
  simp only [List.mem_append, or_imp, forall_and] at hblank
  obtain ⟨⟨⟨hb₁, hb₂⟩, hb₃⟩, hb₄⟩ := hblank
  have hdigit : ∀ b ∈ decimal n, isSpace b = false ∧ b ≠ carriageReturn := by
    intro b hb
    obtain ⟨d, hd, rfl⟩ := mem_decimal hb
    interval_cases d <;> decide
  obtain ⟨d, r, -, hdec, -⟩ := decimal_cons n
  have hdecne : decimal n ≠ [] := by
    rw [hdec]
    simp
  have hnamene : name ≠ [] := by
    rintro rfl
    revert hname
    decide
  have hlast : (b₁ ++ name ++ b₂ ++ colonByte :: (b₃ ++ decimal n)).getLast? ≠
      some carriageReturn := by
    intro hlast
    rw [List.getLast?_append_of_ne_nil _ (by simp), List.getLast?_cons_of_ne_nil (by simp [hdecne]),
      List.getLast?_append_of_ne_nil _ hdecne] at hlast
    exact (hdigit _ (List.mem_of_getLast? hlast)).2 rfl
  have hstrip : stripReturn (b₁ ++ name ++ b₂ ++ colonByte :: (b₃ ++ decimal n ++ b₄)) =
      b₁ ++ name ++ b₂ ++ colonByte :: (b₃ ++ decimal n ++ stripReturn b₄) := by
    have := stripReturn_append (b := b₄) hlast
    simpa using this
  have hcolon : colonByte ∉ b₁ ++ name ++ b₂ := by
    simp only [List.mem_append, not_or]
    refine ⟨⟨fun hmem => ?_, fun hmem => ?_⟩, fun hmem => ?_⟩
    · exact absurd (hb₁ _ hmem) (by decide)
    · exact (tolower_name hname hmem).2 rfl
    · exact absurd (hb₂ _ hmem) (by decide)
  rw [hstrip, parseHeader, strchr_append hcolon]
  dsimp only
  rw [List.length_append, Nat.add_sub_cancel, List.take_left,
    List.tail_cons, trimHeader_blanks hb₁ hb₂ hnamene (fun b hb => (tolower_name hname hb).1),
    if_pos hname, trimHeader_blanks hb₃ (fun b hb => hb₄ b (stripReturn_subset _ b hb)) hdecne
      (fun b hb => (hdigit b hb).1), strtoll_decimal hn]

/-- An HTTP 200 response with one length line, which gives the length of the body. -/
structure Response where
  status : Bytes
  before : List Bytes
  length : Bytes
  after : List Bytes
  blank : Bytes
  body : Bytes
  status_ok : Status200 status
  others : ∀ l ∈ before ++ after, HeaderLine l ∧ stripReturn l ≠ [] ∧
    isContentLength (stripReturn l) = false
  length_ok : LengthLine body.length length
  blank_ok : blank = [] ∨ blank = [carriageReturn]
  /-- `content_length` is an `int64_t`. -/
  small : (encodeLines (status :: before ++ length :: after) ++
    (blank ++ newline :: body)).length < 2 ^ 63

namespace Response

/-- The bytes that the server sends. -/
def wire (r : Response) : Bytes :=
  encodeLines (r.status :: r.before ++ r.length :: r.after) ++ (r.blank ++ newline :: r.body)

def headers (r : Response) : List Bytes := r.before ++ r.length :: r.after

theorem body_lt (r : Response) : r.body.length < 2 ^ 63 := by
  have := r.small
  simp only [List.length_append, List.length_cons] at this
  omega

theorem stripReturn_length_ne (r : Response) : stripReturn r.length ≠ [] := by
  obtain ⟨b₁, name, b₂, b₃, b₄, hform, hname, -⟩ := r.length_ok.form
  intro hnil
  have hlen : 2 ≤ r.length.length := by
    obtain ⟨d, rest, -, hdec, -⟩ := decimal_cons r.body.length
    rw [hform, hdec]
    simp only [List.length_append, List.length_cons]
    omega
  unfold stripReturn at hnil
  split at hnil
  · have := congrArg List.length hnil
    rw [List.length_dropLast, List.length_nil] at this
    omega
  · rw [hnil] at hlen
    simp at hlen

theorem headers_ok (r : Response) : ∀ l ∈ r.headers, HeaderLine l ∧ stripReturn l ≠ [] := by
  intro l hl
  rw [headers, List.mem_append, List.mem_cons] at hl
  rcases hl with hl | rfl | hl
  · exact ⟨(r.others l (List.mem_append_left _ hl)).1, (r.others l (List.mem_append_left _ hl)).2.1⟩
  · exact ⟨r.length_ok.header, r.stripReturn_length_ne⟩
  · exact ⟨(r.others l (List.mem_append_right _ hl)).1,
      (r.others l (List.mem_append_right _ hl)).2.1⟩

/-- Lines of another kind leave the length as it is. -/
theorem foldl_other {lines : List Bytes}
    (hlines : ∀ l ∈ lines, isContentLength (stripReturn l) = false) (h : Headers) :
    (lines.foldl (fun h l => parseHeader (stripReturn l) h) h).contentLength =
      h.contentLength := by
  induction lines generalizing h with
  | nil => rfl
  | cons l lines ih =>
    rw [List.foldl_cons, ih fun l' hl' => hlines l' (List.mem_cons_of_mem _ hl')]
    exact parseHeader_other (hlines l List.mem_cons_self) h

theorem contentLength_headers (r : Response) (h : Headers) :
    (r.headers.foldl (fun h l => parseHeader (stripReturn l) h) h).contentLength =
      r.body.length := by
  rw [headers, List.foldl_append, List.foldl_cons,
    foldl_other fun l hl => (r.others l (List.mem_append_right _ hl)).2.2,
    parseHeader_length r.body_lt r.length_ok]

theorem blank_header (r : Response) : HeaderLine r.blank ∧ stripReturn r.blank = [] := by
  rcases r.blank_ok with h | h
  · rw [h]
    exact ⟨⟨by simp, by simp, by simp⟩, rfl⟩
  · rw [h]
    exact ⟨⟨by decide, by decide, by decide⟩, rfl⟩

/-- The response is read up to its body, whatever the cuts. -/
theorem readResponse_wire (r : Response) {fuel : Nat} {os : HttpsStream} (hos : InHeader os)
    (hunread : os.unread = r.wire) (hfuel : r.wire.length < fuel) :
    ∃ os', readResponse fuel os = .success os' r.body.length ∧ InHeader os' ∧
      BodyLeft r.body os' ∧ os'.isHttps = os.isHttps ∧ os'.conn.cut = os.conn.cut := by
  have hwire : r.wire =
      r.status ++ newline :: (encodeLines r.headers ++ (r.blank ++ newline :: r.body)) := by
    simp [wire, headers, encodeLines]
  have hmore : (encodeLines r.headers ++ (r.blank ++ newline :: r.body)).length <
      r.wire.length := by
    rw [hwire]
    simp only [List.length_append, List.length_cons]
    omega
  have hcount : r.headers.length ≤ (encodeLines r.headers).length := by
    rw [encodeLines, List.length_flatMap]
    exact List.length_le_sum_of_one_le (r.headers.map fun l => (l ++ [newline]).length)
      (by simp) |>.trans_eq' (by simp)
  have hstatus : r.status.length < fuel := by
    have := congrArg List.length hwire
    rw [List.length_append] at this
    omega
  have hlines : ∀ l ∈ r.blank :: r.headers, l.length < fuel := by
    intro l hl
    simp only [List.length_append, List.length_cons] at hmore
    rcases List.mem_cons.mp hl with rfl | hl
    · omega
    · have := length_le_encodeLines hl
      omega
  obtain ⟨os₁, hline, hos₁, hunread₁, hheld₁⟩ :=
    getLine_spec hos.parsing (hunread.trans hwire) r.status_ok.header hstatus
  obtain ⟨os₂, hloop, hparsing₂, hunread₂, hheld₂⟩ := headersLoop_spec (h := ⟨-1, none⟩) fuel
      fuel hos₁ hunread₁ r.headers_ok r.blank_header.1 r.blank_header.2 hlines
      (by rw [List.length_append] at hmore; omega)
  have hos₂ := hparsing₂.inHeader ((hheld₂.trans hheld₁).trans_lt hos.small)
  have hon := (getLineLoop_onward hline).trans (headersLoop_onward hloop)
  refine ⟨{ os₂ with lengthRemaining := r.body.length }, ?_,
    ⟨hos₂.consumed_le, hos₂.steps, hos₂.bufsz_le, hos₂.cut, hos₂.small⟩,
    ⟨hunread₂, rfl, hos₂.consumed_le, r.body_lt, ?_, hos₂.cut⟩, hon.isHttps, hon.cut⟩
  · unfold readResponse
    rw [hline]
    dsimp only
    rw [statusCode_200 r.status_ok]
    dsimp only
    rw [if_neg (by decide), hloop]
    dsimp only
    rw [if_neg (by decide), if_pos rfl, r.contentLength_headers, if_neg (by omega),
      toSize_of_range (by omega) (by have := r.body_lt; omega), Int.toNat_natCast]
  · have hle := hos₂.consumed_le
    have hbufsz := hos₂.bufsz_le
    have := r.body_lt
    unfold growth at hbufsz
    dsimp only
    omega

end Response

/-! ## Sending the request -/

theorem length_requestMemory (text : Bytes) (stack : Nat → UInt8) :
    (requestMemory text stack).length = text.length := by
  unfold requestMemory requestSize
  split
  · rfl
  · simp only [List.length_append, List.length_take, List.length_cons, List.length_map,
      List.length_range]
    omega

/-- What sending does not touch. -/
structure SameIncoming (c c' : Conn) : Prop where
  incoming : c'.incoming = c.incoming
  cut : c'.cut = c.cut
  accept : c'.accept = c.accept

theorem sendLoop_spec {memory : Bytes} {reqsz : Nat} {c : Conn} (haccept : ∀ i, 0 < c.accept i)
    (hmemory : reqsz ≤ memory.length) :
    ∃ c', sendLoop memory reqsz c = (true, c') ∧ SameIncoming c c' := by
  fun_induction sendLoop memory reqsz c with
  | case1 c => exact ⟨c, rfl, rfl, rfl, rfl⟩
  | case2 reqsz c hpos r hzero =>
    exfalso
    have hfirst := haccept c.sends
    simp only [r, Conn.send, List.length_take] at hzero
    omega
  | case3 reqsz c hpos r hsome ih =>
    obtain ⟨c', hloop, hsame⟩ := ih haccept (by omega)
    exact ⟨c', hloop, hsame.incoming, hsame.cut, hsame.accept⟩

theorem sendRequest_spec (t : Target) (stack : Nat → UInt8) {c : Conn}
    (haccept : ∀ i, 0 < c.accept i) :
    ∃ c', sendRequest t stack c = (true, c') ∧ SameIncoming c c' := by
  unfold sendRequest
  dsimp only
  split
  · rw [if_neg (Nat.ne_of_gt (haccept _))]
    exact ⟨_, rfl, rfl, rfl, rfl⟩
  · exact sendLoop_spec haccept (length_requestMemory _ _).ge

/-! ## Fragmentation -/

/-- A transport that sends the response and neither fails nor refuses. -/
structure Delivers (conn : Conn) (r : Response) : Prop where
  incoming : conn.incoming = r.wire
  cut : ∀ i, 0 < conn.cut i
  accept : ∀ i, 0 < conn.accept i

/-- The downloader returns a stream at the start of the body. -/
theorem openHttpDownloader_response (r : Response) {net : Net} {fuel : Nat} {url : Bytes}
    {t : Target} {conn : Conn} (hurl : parseUrl url = some t)
    (hconn : net.connect 0 t.host t.port = some conn) (hdelivers : Delivers conn r)
    (hfuel : r.wire.length < fuel) :
    ∃ os, openHttpDownloader net fuel url = some (some (os, r.body.length)) ∧ InHeader os ∧
      BodyLeft r.body os ∧ os.isHttps = t.isHttps ∧ os.conn.cut = conn.cut := by
  obtain ⟨c', hsend, hsame⟩ := sendRequest_spec t net.stack hdelivers.accept
  have hos : InHeader ⟨c', t.host, t.port, t.isHttps, [], 0, 0, 0⟩ := by
    refine ⟨le_rfl, ⟨0, rfl⟩, Nat.zero_le _, ?_, ?_⟩
    · rw [hsame.cut]
      exact hdelivers.cut
    · have := r.small
      rw [hsame.incoming, hdelivers.incoming, List.length_nil, Nat.zero_add]
      exact this
  obtain ⟨os, hresponse, hin, hbody, hhttps, hcut⟩ := r.readResponse_wire hos
    (by
      show [] ++ c'.incoming = _
      rw [List.nil_append, hsame.incoming, hdelivers.incoming]) hfuel
  refine ⟨os, ?_, hin, hbody, hhttps, hcut.trans hsame.cut⟩
  unfold openHttpDownloader downloaderLoop
  rw [hurl]
  dsimp only [openConnection]
  rw [hconn]
  dsimp only [Option.map_some]
  rw [hsend]
  dsimp only
  rw [hresponse]

/-- **Fragmentation.** A response is downloaded with its full length, however it is cut. In
every run of safe reads, a further read offers the bytes of the body behind those consumed,
as many as it asked for or as are left, and without taking the error path, exactly if it
is a safe one. -/
theorem http_fragmentation_iff (r : Response) {net : Net} {fuel : Nat} {url : Bytes} {t : Target}
    {conn : Conn} (hurl : parseUrl url = some t)
    (hconn : net.connect 0 t.host t.port = some conn) (hdelivers : Delivers conn r)
    (hfuel : r.wire.length < fuel) :
    ∃ os, openHttpDownloader net fuel url = some (some (os, r.body.length)) ∧
      ∀ s lent total,
        Run readHttps (fun s consume need => need < 2 ^ 63 ∧ SafeRead s consume need)
          os s lent total →
        total ≤ r.body.length ∧
        ∀ consume need, consume ≤ lent → need < 2 ^ 63 →
          ∃ w s', readHttps s consume need = some (w, s') ∧
            ((w.failed = false ∧ w.bytes <+: r.body.drop (total + consume) ∧
              min need (r.body.length - (total + consume)) ≤ w.bytes.length) ↔
                SafeRead s consume need) := by
  obtain ⟨os, hopen, -, hbody, -, -⟩ := openHttpDownloader_response r hurl hconn hdelivers hfuel
  refine ⟨os, hopen, ?_⟩
  intro s lent total hrun
  obtain ⟨hs, hlent, htotal⟩ := run_bodyLeft hbody hrun
  refine ⟨htotal, ?_⟩
  intro consume need hconsume hneed
  obtain ⟨hsafe, hstalls⟩ := readHttps_body hs (hconsume.trans hlent) hneed
  by_cases h : SafeRead s consume need
  · obtain ⟨w, s', hread, hfailed, -, -, hserves⟩ := hsafe h
    have hprefix := hserves.initial
    have henough := hserves.enough
    rw [List.drop_drop] at hprefix henough
    rw [List.length_drop] at henough
    exact ⟨w, s', hread, iff_of_true ⟨hfailed, hprefix, henough⟩ h⟩
  · obtain ⟨s', hread⟩ := hstalls h
    exact ⟨_, s', hread, iff_of_false (by simp) h⟩

theorem status200_ok : Status200 (lit "HTTP/1.1 200 OK\r") :=
  ⟨⟨by decide, by decide, by decide⟩, lit "HTTP/1.1", lit " OK\r", by decide, by decide,
    by decide +kernel⟩

theorem lengthLine_decimal {n : Nat} (hdigits : (decimal n).length ≤ 20) :
    LengthLine n (lit "Content-Length: " ++ decimal n ++ [carriageReturn]) := by
  have hdigit : ∀ b ∈ decimal n, b ≠ newline ∧ b ≠ 0 := by
    intro b hb
    obtain ⟨d, hd, rfl⟩ := mem_decimal hb
    interval_cases d <;> decide
  have hname : newline ∉ lit "Content-Length: " ∧ 0 ∉ lit "Content-Length: " ∧
      (lit "Content-Length: ").length = 16 := by decide
  refine ⟨⟨?_, ?_, ?_⟩, [], lit "Content-Length", [], [32], [carriageReturn], ?_,
    by decide, by decide +kernel⟩
  · rw [List.mem_append, List.mem_append, not_or, not_or]
    exact ⟨⟨hname.1, fun h => (hdigit _ h).1 rfl⟩, by decide⟩
  · rw [List.mem_append, List.mem_append, not_or, not_or]
    exact ⟨⟨hname.2.1, fun h => (hdigit _ h).2 rfl⟩, by decide⟩
  · rw [List.length_append, List.length_append, hname.2.2, headerLineMax, List.length_singleton]
    omega
  · have hsplit : lit "Content-Length: " = lit "Content-Length" ++ [colonByte, 32] := by
      decide
    rw [hsplit]
    simp

theorem length_sample {body : Bytes} (hdigits : (decimal body.length).length ≤ 20) :
    (encodeLines (lit "HTTP/1.1 200 OK\r" :: [] ++
        (lit "Content-Length: " ++ decimal body.length ++ [carriageReturn]) :: []) ++
      ([carriageReturn] ++ newline :: body)).length ≤ body.length + 64 := by
  have hlines : (lit "HTTP/1.1 200 OK\r").length = 16 ∧ (lit "Content-Length: ").length = 16 := by
    decide
  simp only [encodeLines, List.nil_append, List.cons_append, List.flatMap_cons, List.flatMap_nil,
    List.append_nil, List.length_append, List.length_cons, List.length_nil, hlines]
  omega

theorem blank_return : [carriageReturn] = [] ∨ [carriageReturn] = [carriageReturn] := Or.inr rfl

/-- A response with the length of its body as its only header. -/
def sampleResponse (body : Bytes) (hdigits : (decimal body.length).length ≤ 20)
    (hsmall : body.length < 2 ^ 62) : Response where
  status := lit "HTTP/1.1 200 OK\r"
  before := []
  length := lit "Content-Length: " ++ decimal body.length ++ [carriageReturn]
  after := []
  blank := [carriageReturn]
  body := body
  status_ok := status200_ok
  others := List.forall_mem_nil _
  length_ok := lengthLine_decimal hdigits
  blank_ok := blank_return
  small := lt_of_le_of_lt (length_sample hdigits) (by omega)

theorem http_fragmentation_two :
    ∃ os, openHttpDownloader (singleNet exactResponse) 64 (lit "http://h/") = some (some (os, 2)) ∧
      ∀ s lent total,
        Run readHttps (fun s consume need => need < 2 ^ 63 ∧ SafeRead s consume need)
          os s lent total →
        total ≤ 2 ∧
        ∀ consume need, consume ≤ lent → need < 2 ^ 63 →
          ∃ w s', readHttps s consume need = some (w, s') ∧
            ((w.failed = false ∧ w.bytes <+: (lit "ab").drop (total + consume) ∧
              min need (2 - (total + consume)) ≤ w.bytes.length) ↔ SafeRead s consume need) :=
  http_fragmentation_iff (sampleResponse (lit "ab") (by decide +kernel) (by decide))
    (t := ⟨false, lit "h", 80, lit "/"⟩) (by decide) rfl
    ⟨by decide +kernel, fun _ => by simp [singleConn], fun _ => by simp [singleConn]⟩
    (by decide +kernel)

/-- Of a body of `2 ^ 32 + 1` bytes the first `2 ^ 32` are read and consumed at once. The
buffer is then empty and has `2 ^ 32` bytes of room, and the next read fails although one
byte is left. -/
theorem breaks_off (r : Response) (hlength : r.body.length = 2 ^ 32 + 1) :
    ∃ fuel os w s s',
      openHttpDownloader ⟨fun _ _ _ => some (singleConn r.wire), fun _ => 0⟩ fuel
          (lit "http://h/") = some (some (os, 2 ^ 32 + 1)) ∧
        readHttps os 0 (2 ^ 32) = some (w, s) ∧ w.bytes.length = 2 ^ 32 ∧
        readHttps s (2 ^ 32) 1 = some (⟨[], true⟩, s') := by
  obtain ⟨os, hopen, hin, hbody, hhttps, hcut⟩ := openHttpDownloader_response r
    (show parseUrl (lit "http://h/") = some ⟨false, lit "h", 80, lit "/"⟩ by decide)
    (show Net.connect ⟨fun _ _ _ => some (singleConn r.wire), fun _ => 0⟩ 0 _ _ = _ from rfl)
    ⟨rfl, fun _ => one_pos, fun _ => one_pos⟩ (Nat.lt_succ_self _)
  have hconsumed := hin.consumed_le
  have hbufsz : os.buf.length + os.room ≤ 32768 := hin.bufsz_le
  have hleft : toInt64 (os.lengthRemaining - (0 : Nat)) = ((2 ^ 32 + 1 : Nat) : Int) := by
    rw [hbody.remaining, hlength]
    decide
  have hclamp : clampNeed (toInt64 (os.lengthRemaining - (0 : Nat))) (2 ^ 32) = 2 ^ 32 := by
    rw [hleft, clampNeed_eq (by norm_num) (by norm_num)]
    norm_num
  have hmiss : ¬ add64 (os.consumed + 0)
      (clampNeed (toInt64 (os.lengthRemaining - (0 : Nat))) (2 ^ 32)) ≤ os.buf.length := by
    rw [hclamp, add64_of_lt (by omega)]
    omega
  have havail : (compressed os 0).buf.length = os.buf.length - os.consumed := List.length_drop
  have hroom : (compressed os 0).room = os.room + os.consumed := rfl
  have hsize : (compressed os 0).buf.length + (compressed os 0).room =
      os.buf.length + os.room := by omega
  have hbytes : (compressed os 0).buf.length + (compressed os 0).conn.incoming.length =
      2 ^ 32 + 1 := by
    rw [← hlength, hbody.length, havail]
    rfl
  obtain ⟨s, hfill, hfilled, hlong⟩ := httpsFill_spec (2 ^ 32) (compressed os 0) hbody.cut
      (Or.inr (Or.inl (by omega))) (by omega) (by rw [hbytes]; exact hleft.ge)
  have hfull : s.buf.length = 2 ^ 32 ∧ s.room = 0 := by
    have hsteps := (httpsFill_bufsz (k := 131072) (2 ^ 32) (compressed os 0) (by decide)
        (by rw [hsize]; exact hin.steps)).2
    rw [hfill, hsize] at hsteps
    have hsingle := httpsFill_single (compressed os 0)
        (fun i => (congrFun hcut i : os.conn.cut i = 1)) hfill
    dsimp only at hsteps
    unfold growth at hsteps
    omega
  obtain ⟨w, s₁, hread, -, hserved, hlent, -⟩ :=
    (readHttps_body hbody (Nat.zero_le _) (by norm_num : 2 ^ 32 < 2 ^ 63)).1
      (Or.inr (Or.inl (by omega)))
  have hsame := readHttps_filled hmiss (by rw [hclamp]; exact hfill)
  rw [hread] at hsame
  cases hsame
  have hstalls : ¬ SafeRead s (2 ^ 32) 1 := by
    have hplain : s.isHttps = false := hfilled.isHttps.trans hhttps
    have hstart : s.consumed = 0 := hfilled.consumed
    have hwant : (s.lengthRemaining - (2 ^ 32 : Nat)).toNat = 1 := by
      rw [hserved.remaining, List.drop_zero, hlength]
      decide
    unfold SafeRead SafeReceive
    rw [hplain, hstart, hfull.1, hfull.2, hwant]
    decide
  obtain ⟨s', hnext⟩ := (readHttps_body hserved (by rw [← hlent, hfull.1])
    (by norm_num)).2 hstalls
  exact ⟨_, os, _, s, s', by rw [← hlength]; exact hopen, hread, hfull.1, hnext⟩

/-- A body of one byte more than `recv` can be asked for. -/
def longBody : Bytes := List.replicate (2 ^ 32 + 1) 0

theorem length_longBody : longBody.length = 2 ^ 32 + 1 := List.length_replicate

def longResponse : Response :=
  sampleResponse longBody
    (by rw [length_longBody]; decide +kernel) (by rw [length_longBody]; norm_num)

theorem long_body_breaks_off :
    ∃ fuel os w s s',
      openHttpDownloader ⟨fun _ _ _ => some (singleConn longResponse.wire), fun _ => 0⟩ fuel
          (lit "http://h/") = some (some (os, 2 ^ 32 + 1)) ∧
        readHttps os 0 (2 ^ 32) = some (w, s) ∧ w.bytes.length = 2 ^ 32 ∧
        readHttps s (2 ^ 32) 1 = some (⟨[], true⟩, s') :=
  breaks_off longResponse length_longBody

end ToolchainTools
