import ToolchainTools.Stream.HttpWire

/-!
# When header parsing returns

`get_line` goes on after a failed read: the read has returned the length 0, and the next one
asks for a single byte again. So it returns exactly if the bytes that the peer has sent
contain a newline or are too many for one line. A run of the downloader returns exactly if
all its calls of `get_line` do.
-/

namespace ToolchainTools

open CLib Streams

/-! ## One line -/

/-- There is a line to be had, or too much for one. -/
def Fed (bytes : Bytes) : Prop := newline ∈ bytes ∨ headerLineMax < bytes.length

theorem getLineLoop_mono {fuel fuel' lineLen : Nat} {os : HttpsStream}
    {r : Option Bytes × HttpsStream} (h : getLineLoop fuel lineLen os = some r)
    (hle : fuel ≤ fuel') : getLineLoop fuel' lineLen os = some r := by
  induction fuel generalizing fuel' lineLen os with
  | zero => cases h
  | succ fuel ih =>
    obtain ⟨fuel', rfl⟩ : ∃ f, fuel' = f + 1 := ⟨fuel' - 1, by omega⟩
    rw [getLineLoop, Option.bind_eq_some_iff] at h
    obtain ⟨⟨w, os₁⟩, hread, h⟩ := h
    rw [getLineLoop, hread, Option.bind_some]
    dsimp only at h ⊢
    split at h
    · exact h
    · split at h
      · rename_i hlong
        rw [if_pos hlong]
        exact h
      · rename_i hshort
        rw [if_neg hshort]
        exact ih h (by omega)

/-- What a line that is returned, or a rejection, says about the bytes: the line ends at the
first newline, which lies in the buffer; a rejection has seen no newline in more bytes
than a line may have. -/
theorem getLineLoop_inv {fuel lineLen : Nat} {os os' : HttpsStream} {r : Option Bytes}
    (h : Parsing os) (hlen : lineLen ≤ headerLineMax)
    (hcall : getLineLoop fuel lineLen os = some (r, os')) :
    Parsing os' ∧
      (∀ p, r = some p → ∃ line, os.unread = line ++ newline :: os'.unread ∧ newline ∉ line ∧
        line.length < growth ∧ p = cstr (stripReturn line)) ∧
      (r = none → headerLineMax < os.unread.length ∧
        newline ∉ os.unread.take (headerLineMax + 1)) := by
  induction fuel generalizing lineLen os with
  | zero => cases hcall
  | succ fuel ih =>
    obtain ⟨w, os₁, hread, h₁, hunread, -, hwindow, hfailed⟩ :=
      readHttps_parsing h (lineLen + 1) (by omega)
    rw [getLineLoop, hread, Option.bind_some] at hcall
    dsimp only at hcall
    have hw : w.bytes = os₁.buf.drop os₁.consumed ∨ w.bytes = [] := by
      rcases Nat.lt_or_ge os.unread.length (lineLen + 1) with hless | hmore
      · exact Or.inr (by rw [hfailed hless])
      · exact Or.inl (hwindow hmore).1
    have hpre : w.bytes <+: os.unread := by
      rcases hw with hw | hw
      · rw [hw, ← hunread]
        exact List.prefix_append _ _
      · rw [hw]
        exact List.nil_prefix
    split at hcall
    · rename_i rest hfind
      obtain ⟨a, b, hsplit, hrest, ha⟩ := strchr_eq_some hfind
      have hbuf : w.bytes = os₁.buf.drop os₁.consumed := by
        rcases hw with hw | hw
        · exact hw
        · rw [hw] at hfind
          cases hfind
      have htake : w.bytes.take (w.bytes.length - rest.length) = a := by
        rw [hsplit, hrest, List.length_append, Nat.add_sub_cancel, List.take_left]
      have hlent : a.length + 1 + b.length = os₁.buf.length - os₁.consumed := by
        have := congrArg List.length (hbuf.symm.trans hsplit)
        rw [List.length_drop, List.length_append, List.length_cons] at this
        omega
      have hbufsz := h₁.bufsz_le
      rw [htake] at hcall
      simp only [Option.some.injEq, Prod.mk.injEq] at hcall
      obtain ⟨rfl, rfl⟩ := hcall
      refine ⟨⟨?_, h₁.steps, h₁.bufsz_le, h₁.cut⟩, ?_, by simp⟩
      · dsimp only
        omega
      · intro p hp
        cases hp
        refine ⟨a, ?_, ha, by omega, rfl⟩
        rw [← hunread, HttpsStream.unread, HttpsStream.unread]
        dsimp only
        rw [← List.drop_drop, ← hbuf, hsplit, List.append_assoc, List.cons_append]
        simp
    · rename_i hfind
      have hnone := strchr_eq_none_iff.mp hfind
      split at hcall
      · rename_i hlong
        simp only [Option.some.injEq, Prod.mk.injEq] at hcall
        obtain ⟨rfl, rfl⟩ := hcall
        refine ⟨h₁, by simp, fun _ => ⟨hlong.trans_le hpre.length_le, fun hmem => hnone ?_⟩⟩
        have hsub : os.unread.take (headerLineMax + 1) <+: w.bytes :=
          List.prefix_of_prefix_length_le (List.take_prefix _ _) hpre (by
            rw [List.length_take]
            omega)
        exact hsub.subset hmem
      · rename_i hshort
        obtain ⟨hos', hline, hreject⟩ := ih h₁ (by omega) hcall
        rw [hunread] at hline hreject
        exact ⟨hos', hline, hreject⟩

/-- Without a newline and with few bytes the loop goes on for ever. -/
theorem getLineLoop_starved {os : HttpsStream} (h : Parsing os) (hstarved : ¬ Fed os.unread)
    (fuel : Nat) {lineLen : Nat} (hlen : lineLen ≤ headerLineMax) :
    getLineLoop fuel lineLen os = none := by
  induction fuel generalizing lineLen os with
  | zero => rfl
  | succ fuel ih =>
    obtain ⟨w, os₁, hread, h₁, hunread, -, hwindow, hfailed⟩ :=
      readHttps_parsing h (lineLen + 1) (by omega)
    have hpre : w.bytes <+: os.unread := by
      rcases Nat.lt_or_ge os.unread.length (lineLen + 1) with hless | hmore
      · rw [hfailed hless]
        exact List.nil_prefix
      · rw [(hwindow hmore).1, ← hunread]
        exact List.prefix_append _ _
    have hnone : strchr w.bytes newline = none :=
      strchr_eq_none_iff.mpr fun hmem => hstarved (Or.inl (hpre.subset hmem))
    have hshort : w.bytes.length ≤ headerLineMax := by
      by_contra hlong
      exact hstarved (Or.inr ((Nat.lt_of_not_le hlong).trans_le hpre.length_le))
    rw [getLineLoop, hread, Option.bind_some]
    dsimp only
    rw [hnone]
    dsimp only
    rw [if_neg (Nat.not_lt.mpr hshort)]
    exact ih h₁ (by rw [hunread]; exact hstarved) hshort

/-- Every round looks at a longer window, until there is a newline or too much. -/
theorem getLineLoop_fed {os : HttpsStream} (h : Parsing os) (hfed : Fed os.unread)
    {fuel lineLen : Nat} (hlen : lineLen ≤ headerLineMax) (hmore : lineLen < os.unread.length)
    (hfuel : headerLineMax - lineLen < fuel) :
    ∃ r, getLineLoop fuel lineLen os = some r := by
  induction fuel generalizing lineLen os with
  | zero => omega
  | succ fuel ih =>
    obtain ⟨w, os₁, hread, h₁, hunread, -, hwindow, -⟩ :=
      readHttps_parsing h (lineLen + 1) (by omega)
    obtain ⟨hw, hlong⟩ := hwindow hmore
    have hpre : w.bytes <+: os.unread := by
      rw [hw, ← hunread]
      exact List.prefix_append _ _
    rw [getLineLoop, hread, Option.bind_some]
    dsimp only
    cases hfind : strchr w.bytes newline with
    | some rest => exact ⟨_, rfl⟩
    | none =>
      dsimp only
      split
      · exact ⟨_, rfl⟩
      · rename_i hshort
        refine ih h₁ (by rw [hunread]; exact hfed) (by omega) ?_ (by omega)
        rw [hunread]
        by_contra hall
        have hsame : w.bytes = os.unread := hpre.eq_of_length_le (Nat.le_of_not_lt hall)
        rw [← hsame] at hfed
        rcases hfed with hmem | hmany
        · exact strchr_eq_none_iff.mp hfind hmem
        · exact hshort hmany

/-- The number of rounds that `get_line` makes at most if it returns. -/
def lineRounds : Nat := headerLineMax + 1

theorem getLine_fed {os : HttpsStream} (h : Parsing os) (hfed : Fed os.unread) {fuel : Nat}
    (hfuel : lineRounds ≤ fuel) : ∃ r, getLine fuel os = some r := by
  refine getLineLoop_fed h hfed (Nat.zero_le _) ?_ hfuel
  rcases hfed with hmem | hmany
  · exact List.length_pos_of_mem hmem
  · exact Nat.zero_lt_of_lt hmany

theorem fed_of_getLine {os : HttpsStream} (h : Parsing os) {fuel : Nat}
    {r : Option Bytes × HttpsStream} (hcall : getLine fuel os = some r) : Fed os.unread := by
  by_contra hstarved
  rw [getLine, getLineLoop_starved h hstarved fuel (Nat.zero_le _)] at hcall
  cases hcall

/-- `get_line` has one result. -/
theorem getLine_unique {fuel fuel' : Nat} {os : HttpsStream} {r r' : Option Bytes × HttpsStream}
    (h : getLine fuel os = some r) (h' : getLine fuel' os = some r') : r = r' := by
  have hmax := getLineLoop_mono h (Nat.le_max_left fuel fuel')
  rw [getLineLoop_mono h' (Nat.le_max_right fuel fuel')] at hmax
  exact (Option.some.inj hmax).symm

theorem getLine_inv {fuel : Nat} {os os' : HttpsStream} {r : Option Bytes} (h : Parsing os)
    (hcall : getLine fuel os = some (r, os')) :
    Parsing os' ∧
      (∀ p, r = some p → ∃ line, os.unread = line ++ newline :: os'.unread ∧ newline ∉ line ∧
        line.length < growth ∧ p = cstr (stripReturn line)) ∧
      (r = none → headerLineMax < os.unread.length ∧
        newline ∉ os.unread.take (headerLineMax + 1)) :=
  getLineLoop_inv h (Nat.zero_le _) hcall

/-! ## The calls of a run -/

/-- The streams on which the loop over the header lines calls `get_line`. -/
inductive HeaderCall : HttpsStream → HttpsStream → Prop
  | here (os : HttpsStream) : HeaderCall os os
  | next {fuel : Nat} {p : Bytes} {os os₁ os' : HttpsStream} :
      getLine fuel os = some (some p, os₁) → p ≠ [] → HeaderCall os₁ os' → HeaderCall os os'

/-- The streams on which `get_line` is called for one response. -/
inductive ResponseCall : HttpsStream → HttpsStream → Prop
  | status (os : HttpsStream) : ResponseCall os os
  | header {fuel : Nat} {hdr : Bytes} {httperr : Int} {os os₁ os' : HttpsStream} :
      getLine fuel os = some (some hdr, os₁) → statusCode hdr = some httperr →
      ¬ httperr.tdiv 100 > 3 → HeaderCall os₁ os' → ResponseCall os os'

/-- The streams on which `get_line` is called by `downloaderLoop`. -/
inductive DownloadCall (net : Net) : Nat → Nat → Option HttpsStream → Bytes → HttpsStream → Prop
  | response {requests attempts attempts' : Nat} {os : Option HttpsStream} {url : Bytes}
      {t : Target} {os₁ os' : HttpsStream} {conn : Conn} :
      parseUrl url = some t → openConnection net attempts os t = (some os₁, attempts') →
      sendRequest t net.stack os₁.conn = (true, conn) →
      ResponseCall { os₁ with conn := conn } os' →
      DownloadCall net (requests + 1) attempts os url os'
  | redirect {fuel requests attempts attempts' : Nat} {os : Option HttpsStream}
      {url url' : Bytes} {t : Target} {os₁ os₂ os' : HttpsStream} {conn : Conn} :
      parseUrl url = some t → openConnection net attempts os t = (some os₁, attempts') →
      sendRequest t net.stack os₁.conn = (true, conn) →
      readResponse fuel { os₁ with conn := conn } = .redirect url' os₂ →
      DownloadCall net requests attempts' (some os₂) url' os' →
      DownloadCall net (requests + 1) attempts os url os'

/-- A call of `get_line` by `open_http_downloader`. -/
def LineCall (net : Net) (url : Bytes) (os : HttpsStream) : Prop :=
  DownloadCall net 4 0 none url os

/-! ## More rounds change nothing -/

theorem headersLoop_mono {lineFuel lineFuel' fuel fuel' : Nat} {h : Headers} {os : HttpsStream}
    {r : Option Headers × HttpsStream} (hcall : headersLoop lineFuel fuel h os = some r)
    (hline : lineFuel ≤ lineFuel') (hle : fuel ≤ fuel') :
    headersLoop lineFuel' fuel' h os = some r := by
  induction fuel generalizing fuel' h os with
  | zero => cases hcall
  | succ fuel ih =>
    obtain ⟨fuel', rfl⟩ : ∃ f, fuel' = f + 1 := ⟨fuel' - 1, by omega⟩
    unfold headersLoop at hcall ⊢
    cases hget : getLine lineFuel os with
    | none =>
      rw [hget] at hcall
      cases hcall
    | some r₁ =>
      rw [getLine, getLineLoop_mono hget hline]
      rw [hget] at hcall
      obtain ⟨p | p, os₁⟩ := r₁
      · exact hcall
      · dsimp only at hcall ⊢
        split at hcall
        · rename_i hp
          rw [if_pos hp]
          exact hcall
        · rename_i hp
          rw [if_neg hp]
          exact ih hcall (by omega)

theorem readResponse_mono {fuel fuel' : Nat} {os : HttpsStream}
    (h : readResponse fuel os ≠ .running) (hle : fuel ≤ fuel') :
    readResponse fuel' os = readResponse fuel os := by
  unfold readResponse at h ⊢
  cases hget : getLine fuel os with
  | none =>
    rw [hget] at h
    exact absurd rfl h
  | some r =>
    rw [getLine, getLineLoop_mono hget hle]
    rw [hget] at h
    obtain ⟨hdr | hdr, os₁⟩ := r
    · rfl
    · dsimp only at h ⊢
      cases hstatus : statusCode hdr with
      | none => rfl
      | some httperr =>
        rw [hstatus] at h
        dsimp only at h ⊢
        split
        · rfl
        · rename_i herr
          rw [if_neg herr] at h
          cases hheaders : headersLoop fuel fuel ⟨-1, none⟩ os₁ with
          | none =>
            rw [hheaders] at h
            exact absurd rfl h
          | some r₁ => rw [headersLoop_mono hheaders hle hle]

theorem downloaderLoop_mono {net : Net} {fuel fuel' requests attempts : Nat}
    {os : Option HttpsStream} {url : Bytes} {r : Option (HttpsStream × Nat)}
    (h : downloaderLoop net fuel requests attempts os url = some r) (hle : fuel ≤ fuel') :
    downloaderLoop net fuel' requests attempts os url = some r := by
  induction requests generalizing attempts os url with
  | zero => exact h
  | succ requests ih =>
    unfold downloaderLoop at h ⊢
    cases hurl : parseUrl url with
    | none =>
      rw [hurl] at h
      exact h
    | some t =>
      rw [hurl] at h
      dsimp only at h ⊢
      rcases hconn : openConnection net attempts os t with ⟨_ | os₁, attempts'⟩
      · rw [hconn] at h
        exact h
      · rw [hconn] at h
        dsimp only at h ⊢
        rcases hsend : sendRequest t net.stack os₁.conn with ⟨_ | _, conn⟩
        · rw [hsend] at h
          exact h
        · rw [hsend] at h
          dsimp only at h ⊢
          have hrun : readResponse fuel { os₁ with conn := conn } ≠ .running := by
            intro hrun
            rw [hrun] at h
            cases h
          rw [readResponse_mono hrun hle]
          cases hresp : readResponse fuel { os₁ with conn := conn } with
          | running => exact absurd hresp hrun
          | failed =>
            rw [hresp] at h
            exact h
          | success os₂ total =>
            rw [hresp] at h
            exact h
          | redirect url' os₂ =>
            rw [hresp] at h
            exact ih h

/-! ## Header blocks and responses -/

theorem headersLoop_parsing {lineFuel fuel : Nat} {h : Headers} {r : Option Headers}
    {os os' : HttpsStream} (hos : Parsing os)
    (hcall : headersLoop lineFuel fuel h os = some (r, os')) : Parsing os' := by
  induction fuel generalizing h os with
  | zero => cases hcall
  | succ fuel ih =>
    unfold headersLoop at hcall
    split at hcall
    · cases hcall
    · rename_i os₁ hline
      cases hcall
      exact (getLine_inv hos hline).1
    · rename_i p os₁ hline
      have hos₁ := (getLine_inv hos hline).1
      split at hcall
      · cases hcall
        exact hos₁
      · exact ih hos₁ hcall

/-- Every line shortens what is unread, so that fed calls come to an end. -/
theorem headersLoop_returns {os : HttpsStream} (hos : Parsing os)
    (hcalls : ∀ os', HeaderCall os os' → Fed os'.unread) {lineFuel fuel : Nat} {h : Headers}
    (hline : lineRounds ≤ lineFuel) (hfuel : os.unread.length < fuel) :
    ∃ r, headersLoop lineFuel fuel h os = some r := by
  induction fuel generalizing h os with
  | zero => omega
  | succ fuel ih =>
    obtain ⟨⟨p | p, os₁⟩, hget⟩ := getLine_fed hos (hcalls os (.here os)) hline
    · exact ⟨(none, os₁), by rw [headersLoop, hget]⟩
    · obtain ⟨hos₁, hinv, -⟩ := getLine_inv hos hget
      obtain ⟨line, hsplit, -⟩ := hinv p rfl
      have hless : os₁.unread.length < os.unread.length := by
        rw [hsplit, List.length_append, List.length_cons]
        omega
      rw [headersLoop, hget]
      dsimp only
      split
      · exact ⟨_, rfl⟩
      · rename_i hp
        exact ih hos₁ (fun os' hcall => hcalls os' (.next hget hp hcall)) (by omega)

theorem headersLoop_fed {lineFuel fuel : Nat} {h : Headers} {os os' : HttpsStream}
    {r : Option Headers × HttpsStream} (hos : Parsing os)
    (hcall : headersLoop lineFuel fuel h os = some r) (hreach : HeaderCall os os') :
    Fed os'.unread := by
  induction hreach generalizing fuel h with
  | here os =>
    obtain ⟨fuel, rfl⟩ : ∃ f, fuel = f + 1 := by
      cases fuel with
      | zero => cases hcall
      | succ fuel => exact ⟨fuel, rfl⟩
    cases hget : getLine lineFuel os with
    | none =>
      rw [headersLoop, hget] at hcall
      cases hcall
    | some r₁ => exact fed_of_getLine hos hget
  | @next fuel₁ p os os₁ os' hnext hp hreach ih =>
    cases fuel with
    | zero => cases hcall
    | succ fuel =>
      cases hget : getLine lineFuel os with
      | none =>
        rw [headersLoop, hget] at hcall
        cases hcall
      | some r₁ =>
        obtain rfl := getLine_unique hget hnext
        rw [headersLoop, hget] at hcall
        dsimp only at hcall
        rw [if_neg hp] at hcall
        exact ih (getLine_inv hos hnext).1 hcall

theorem readResponse_returns {os : HttpsStream} (hos : Parsing os)
    (hcalls : ∀ os', ResponseCall os os' → Fed os'.unread) {fuel : Nat}
    (hline : lineRounds ≤ fuel) (hfuel : os.unread.length < fuel) :
    readResponse fuel os ≠ .running := by
  obtain ⟨⟨hdr | hdr, os₁⟩, hget⟩ := getLine_fed hos (hcalls os (.status os)) hline
  · rw [readResponse, hget]
    simp
  · obtain ⟨hos₁, hinv, -⟩ := getLine_inv hos hget
    obtain ⟨line, hsplit, -⟩ := hinv hdr rfl
    have hless : os₁.unread.length < os.unread.length := by
      rw [hsplit, List.length_append, List.length_cons]
      omega
    rw [readResponse, hget]
    dsimp only
    cases hstatus : statusCode hdr with
    | none => simp
    | some httperr =>
      dsimp only
      split
      · simp
      · rename_i herr
        obtain ⟨⟨hs | hs, os₂⟩, hheaders⟩ := headersLoop_returns hos₁
          (fun os' hcall => hcalls os' (.header hget hstatus herr hcall)) (h := ⟨-1, none⟩) hline
          (show os₁.unread.length < fuel by omega)
        · rw [hheaders]
          simp
        · rw [hheaders]
          dsimp only
          repeat' split
          all_goals simp

theorem readResponse_fed {fuel : Nat} {os os' : HttpsStream} (hos : Parsing os)
    (hrun : readResponse fuel os ≠ .running) (hreach : ResponseCall os os') :
    Fed os'.unread := by
  cases hget : getLine fuel os with
  | none =>
    rw [readResponse, hget] at hrun
    exact absurd rfl hrun
  | some r =>
    cases hreach with
    | status => exact fed_of_getLine hos hget
    | @header fuel₁ hdr httperr _ os₁ _ hnext hstatus herr hreach =>
      obtain rfl := getLine_unique hget hnext
      rw [readResponse, hget] at hrun
      dsimp only at hrun
      rw [hstatus] at hrun
      dsimp only at hrun
      rw [if_neg herr] at hrun
      cases hheaders : headersLoop fuel fuel ⟨-1, none⟩ os₁ with
      | none =>
        rw [hheaders] at hrun
        exact absurd rfl hrun
      | some r₁ => exact headersLoop_fed (getLine_inv hos hget).1 hheaders hreach

/-! ## The downloader -/

/-- Every connection hands over the bytes that the peer sends, in pieces of any size; after
these, each receive fails. -/
def Net.HandsOver (net : Net) : Prop :=
  ∀ attempt host port c, net.connect attempt host port = some c → ∀ i, 0 < c.cut i

theorem openConnection_parsing {net : Net} {attempts attempts' : Nat} {os : Option HttpsStream}
    {t : Target} {os' : HttpsStream} (hnet : net.HandsOver) (hos : ∀ o, os = some o → Parsing o)
    (h : openConnection net attempts os t = (some os', attempts')) : Parsing os' := by
  unfold openConnection at h
  split at h
  · rename_i o
    have ho := hos o rfl
    split at h
    · cases h
      exact ho
    · simp only [Prod.mk.injEq, Option.map_eq_some_iff] at h
      obtain ⟨⟨c, hconnect, rfl⟩, -⟩ := h
      have hsize : ([] : Bytes).length + (o.room + o.buf.length) = o.buf.length + o.room := by
        rw [List.length_nil]
        omega
      refine ⟨le_rfl, ?_, ?_, hnet _ _ _ c hconnect⟩
      · dsimp only
        rw [hsize]
        exact ho.steps
      · dsimp only
        rw [hsize]
        exact ho.bufsz_le
  · simp only [Prod.mk.injEq, Option.map_eq_some_iff] at h
    obtain ⟨⟨c, hconnect, rfl⟩, -⟩ := h
    exact ⟨le_rfl, ⟨0, rfl⟩, Nat.zero_le _, hnet _ _ _ c hconnect⟩

theorem Parsing.sendRequest {os : HttpsStream} {t : Target} {stack : Nat → UInt8} {conn : Conn}
    (h : Parsing os) (hsend : sendRequest t stack os.conn = (true, conn)) :
    Parsing { os with conn := conn } := by
  have hsame := sendRequest_incoming t stack os.conn
  rw [hsend] at hsame
  refine ⟨h.consumed_le, h.steps, h.bufsz_le, ?_⟩
  dsimp only
  rw [hsame.cut]
  exact h.cut

theorem Parsing.redirect {fuel : Nat} {os os' : HttpsStream} {url : Bytes} (h : Parsing os)
    (hresp : readResponse fuel os = .redirect url os') : Parsing os' := by
  obtain ⟨hdr, os₁, hs, hline, -, hheaders, -⟩ := readResponse_redirect hresp
  exact headersLoop_parsing (getLine_inv h hline).1 hheaders

theorem HeaderCall.parsing {os os' : HttpsStream} (h : HeaderCall os os') (hos : Parsing os) :
    Parsing os' := by
  induction h with
  | here => exact hos
  | next hline _ _ ih => exact ih (getLine_inv hos hline).1

theorem ResponseCall.parsing {os os' : HttpsStream} (h : ResponseCall os os')
    (hos : Parsing os) : Parsing os' := by
  cases h with
  | status => exact hos
  | header hline _ _ hcall => exact hcall.parsing (getLine_inv hos hline).1

theorem DownloadCall.parsing {net : Net} {requests attempts : Nat} {os : Option HttpsStream}
    {url : Bytes} {os' : HttpsStream} (h : DownloadCall net requests attempts os url os')
    (hnet : net.HandsOver) (hos : ∀ o, os = some o → Parsing o) : Parsing os' := by
  induction h with
  | response _ hconn hsend hcall =>
    exact hcall.parsing ((openConnection_parsing hnet hos hconn).sendRequest hsend)
  | redirect _ hconn hsend hresp _ ih =>
    refine ih fun o ho => ?_
    cases ho
    exact ((openConnection_parsing hnet hos hconn).sendRequest hsend).redirect hresp

/-- What follows when a request has been sent. -/
def followResponse (net : Net) (fuel requests attempts : Nat) :
    Exchange → Option (Option (HttpsStream × Nat))
  | .running => none
  | .failed => some none
  | .redirect url os => downloaderLoop net fuel requests attempts (some os) url
  | .success os total => some (some (os, total))

theorem downloaderLoop_request {net : Net} {requests attempts attempts' : Nat}
    {os : Option HttpsStream} {url : Bytes} {t : Target} {os₁ : HttpsStream} {conn : Conn}
    (hurl : parseUrl url = some t)
    (hconn : openConnection net attempts os t = (some os₁, attempts'))
    (hsend : sendRequest t net.stack os₁.conn = (true, conn)) (fuel : Nat) :
    downloaderLoop net fuel (requests + 1) attempts os url =
      followResponse net fuel requests attempts'
        (readResponse fuel { os₁ with conn := conn }) := by
  rw [downloaderLoop, hurl]
  dsimp only
  rw [hconn]
  dsimp only
  rw [hsend]
  dsimp only
  cases readResponse fuel { os₁ with conn := conn } with
  | running => rfl
  | failed => rfl
  | redirect url os => rfl
  | success os total => rfl

/-- If every call is fed, enough rounds give a result. -/
theorem downloaderLoop_returns {net : Net} (hnet : net.HandsOver) {requests attempts : Nat}
    {os : Option HttpsStream} {url : Bytes} (hos : ∀ o, os = some o → Parsing o)
    (hcalls : ∀ os', DownloadCall net requests attempts os url os' → Fed os'.unread) :
    ∃ fuel r, downloaderLoop net fuel requests attempts os url = some r := by
  induction requests generalizing attempts os url with
  | zero => exact ⟨0, none, rfl⟩
  | succ requests ih =>
    cases hurl : parseUrl url with
    | none => exact ⟨0, none, by rw [downloaderLoop, hurl]⟩
    | some t =>
      rcases hconn : openConnection net attempts os t with ⟨_ | os₁, attempts'⟩
      · refine ⟨0, none, ?_⟩
        rw [downloaderLoop, hurl]
        dsimp only
        rw [hconn]
      · rcases hsend : sendRequest t net.stack os₁.conn with ⟨_ | _, conn⟩
        · refine ⟨0, none, ?_⟩
          rw [downloaderLoop, hurl]
          dsimp only
          rw [hconn]
          dsimp only
          rw [hsend]
        · have hos₁ := (openConnection_parsing hnet hos hconn).sendRequest hsend
          obtain ⟨fuel, hfuel⟩ : ∃ fuel, fuel =
            max lineRounds ({ os₁ with conn := conn } : HttpsStream).unread.length + 1 := ⟨_, rfl⟩
          have hrun := readResponse_returns hos₁
            (fun os' hcall => hcalls os' (.response hurl hconn hsend hcall))
            (show lineRounds ≤ fuel by omega) (by omega)
          cases hresp : readResponse fuel { os₁ with conn := conn } with
          | running => exact absurd hresp hrun
          | failed => exact ⟨fuel, none, by rw [downloaderLoop_request hurl hconn hsend, hresp]; rfl⟩
          | success os₂ total =>
            exact ⟨fuel, _, by rw [downloaderLoop_request hurl hconn hsend, hresp]; rfl⟩
          | redirect url' os₂ =>
            have hnext : ∀ o, some os₂ = some o → Parsing o := by
              intro o ho
              cases ho
              exact hos₁.redirect hresp
            obtain ⟨fuel₂, r, hrest⟩ := ih hnext
              fun os' hcall => hcalls os' (.redirect hurl hconn hsend hresp hcall)
            refine ⟨max fuel fuel₂, r, ?_⟩
            rw [downloaderLoop_request hurl hconn hsend,
              readResponse_mono hrun (Nat.le_max_left _ _), hresp]
            exact downloaderLoop_mono hrest (Nat.le_max_right _ _)

/-- A run that returns has returned from all its calls. -/
theorem DownloadCall.fed {net : Net} {fuel requests attempts : Nat} {os : Option HttpsStream}
    {url : Bytes} {os' : HttpsStream} {r : Option (HttpsStream × Nat)}
    (h : DownloadCall net requests attempts os url os') (hnet : net.HandsOver)
    (hos : ∀ o, os = some o → Parsing o)
    (hrun : downloaderLoop net fuel requests attempts os url = some r) : Fed os'.unread := by
  induction h with
  | @response _ _ _ _ _ _ os₁ _ conn hurl hconn hsend hcall =>
    rw [downloaderLoop_request hurl hconn hsend] at hrun
    have hrunning : readResponse fuel { os₁ with conn := conn } ≠ .running := by
      intro hrunning
      rw [hrunning] at hrun
      cases hrun
    exact readResponse_fed ((openConnection_parsing hnet hos hconn).sendRequest hsend) hrunning
      hcall
  | @redirect fuel₁ _ _ _ _ _ url' _ os₁ os₂ _ conn hurl hconn hsend hresp hcall ih =>
    rw [downloaderLoop_request hurl hconn hsend] at hrun
    have hrunning : readResponse fuel { os₁ with conn := conn } ≠ .running := by
      intro hrunning
      rw [hrunning] at hrun
      cases hrun
    have hsame : readResponse fuel { os₁ with conn := conn } = .redirect url' os₂ := by
      rw [← hresp, ← readResponse_mono hrunning (Nat.le_max_left fuel fuel₁)]
      exact readResponse_mono (by rw [hresp]; simp) (Nat.le_max_right fuel fuel₁)
    rw [hsame] at hrun
    refine ih (fun o ho => ?_) hrun
    cases ho
    exact ((openConnection_parsing hnet hos hconn).sendRequest hsend).redirect hresp

/-- **Header parsing and a peer that goes away.** `get_line` returns exactly if the bytes not
yet consumed have a newline or are too many for one line, and the downloader returns a
stream or `NULL` exactly if this is so at every call of `get_line` that it makes. -/
theorem header_parsing_ends_iff {net : Net} (hnet : net.HandsOver) (url : Bytes) :
    (∀ os, LineCall net url os → ((∃ fuel r, getLine fuel os = some r) ↔ Fed os.unread)) ∧
      ((∃ fuel r, openHttpDownloader net fuel url = some r) ↔
        ∀ os, LineCall net url os → Fed os.unread) := by
  refine ⟨fun os hcall => ?_, fun ⟨fuel, r, hrun⟩ os hcall => ?_, fun hcalls => ?_⟩
  · have hos := hcall.parsing hnet (by simp)
    constructor
    · rintro ⟨fuel, r, hget⟩
      exact fed_of_getLine hos hget
    · intro hfed
      exact ⟨lineRounds, getLine_fed hos hfed le_rfl⟩
  · exact hcall.fed hnet (by simp) hrun
  · exact downloaderLoop_returns hnet (by simp) hcalls

theorem plainNet_handsOver (incoming : Bytes) : (plainNet incoming).HandsOver := by
  intro attempt host port c hc i
  cases hc
  simp [plainConn]

theorem header_parsing_ends_exact :
    (openHttpDownloader (plainNet exactResponse) 64 (lit "http://h/")).isSome = true ∧
      ∀ os, LineCall (plainNet exactResponse) (lit "http://h/") os → Fed os.unread := by
  have hrun : (openHttpDownloader (plainNet exactResponse) 64 (lit "http://h/")).isSome = true := by
    decide +kernel
  obtain ⟨r, hr⟩ := Option.isSome_iff_exists.mp hrun
  exact ⟨hrun,
    (header_parsing_ends_iff (plainNet_handsOver _) (lit "http://h/")).2.mp ⟨64, r, hr⟩⟩

/-- The peer goes away before the end of the status line. -/
def cutStatusLine : Bytes := lit "HTTP/1.1 200 OK"

theorem cut_status_line_runs_on :
    (plainNet cutStatusLine).HandsOver ∧
      (∃ os, LineCall (plainNet cutStatusLine) (lit "http://h/") os ∧
        ∀ fuel, getLine fuel os = none) ∧
      ∀ fuel, openHttpDownloader (plainNet cutStatusLine) fuel (lit "http://h/") = none := by
  have hurl : parseUrl (lit "http://h/") = some ⟨false, lit "h", 80, lit "/"⟩ := by decide
  obtain ⟨conn, hsend, hsame⟩ := sendRequest_spec ⟨false, lit "h", 80, lit "/"⟩ (fun _ => 0)
    (show ∀ i, 0 < (plainConn cutStatusLine).accept i from fun _ => by simp [plainConn])
  have hcall : LineCall (plainNet cutStatusLine) (lit "http://h/")
      ⟨conn, lit "h", 80, false, [], 0, 0, 0⟩ :=
    .response hurl rfl hsend (.status _)
  have hunread : HttpsStream.unread ⟨conn, lit "h", 80, false, [], 0, 0, 0⟩ = cutStatusLine :=
    hsame.incoming
  have hstarved : ¬ Fed (HttpsStream.unread ⟨conn, lit "h", 80, false, [], 0, 0, 0⟩) := by
    rw [hunread]
    unfold Fed
    decide
  have hos := hcall.parsing (plainNet_handsOver _) (by simp)
  refine ⟨plainNet_handsOver _, ⟨_, hcall, fun fuel => ?_⟩, fun fuel => ?_⟩
  · exact getLineLoop_starved hos hstarved fuel (Nat.zero_le _)
  · cases hrun : openHttpDownloader (plainNet cutStatusLine) fuel (lit "http://h/") with
    | none => rfl
    | some r => exact absurd (hcall.fed (plainNet_handsOver _) (by simp) hrun) hstarved

end ToolchainTools
