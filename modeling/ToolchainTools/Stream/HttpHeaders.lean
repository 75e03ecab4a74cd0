import ToolchainTools.Stream.HttpLimit

/-!
# Responses

Header lines are parsed in the buffer that later serves the body. `getLine` takes one line
off the bytes that are not yet read, however they are cut into receives, and so a whole
response is taken apart into its status, its headers and its body.
-/

namespace ToolchainTools

open CLib Streams

/-! ## Reading on a connection -/

/-- What reading does to a stream: it stays on its connection, and what it has unread was
unread before. -/
structure Onward (os os' : HttpsStream) : Prop where
  host : os'.host = os.host
  port : os'.port = os.port
  isHttps : os'.isHttps = os.isHttps
  cut : os'.conn.cut = os.conn.cut
  accept : os'.conn.accept = os.conn.accept
  sends : os'.conn.sends = os.conn.sends
  sent : os'.conn.sent = os.conn.sent
  recvs : os.conn.recvs ≤ os'.conn.recvs
  unread : os'.unread <:+ os.unread

namespace Onward

theorem refl (os : HttpsStream) : Onward os os :=
  ⟨rfl, rfl, rfl, rfl, rfl, rfl, rfl, le_rfl, List.suffix_rfl⟩

theorem trans {os os₁ os₂ : HttpsStream} (h : Onward os os₁) (h' : Onward os₁ os₂) :
    Onward os os₂ :=
  ⟨h'.host.trans h.host, h'.port.trans h.port, h'.isHttps.trans h.isHttps, h'.cut.trans h.cut,
    h'.accept.trans h.accept, h'.sends.trans h.sends, h'.sent.trans h.sent,
    h.recvs.trans h'.recvs, h'.unread.trans h.unread⟩

/-- Only the position and the length left change. -/
theorem advance (os : HttpsStream) (n : Nat) (remaining : Int) :
    Onward os { os with consumed := os.consumed + n, lengthRemaining := remaining } := by
  refine ⟨rfl, rfl, rfl, rfl, rfl, rfl, rfl, le_rfl, ?_⟩
  unfold HttpsStream.unread
  dsimp only
  rw [← List.drop_drop]
  obtain ⟨front, hfront⟩ := List.drop_suffix n (os.buf.drop os.consumed)
  exact ⟨front, by rw [← List.append_assoc, hfront]⟩

end Onward

theorem httpsFill_onward (need : Nat) (os : HttpsStream) (hos : os.consumed = 0) :
    Onward os (httpsFill need os).2 := by
  have hreceive : ∀ os : HttpsStream, os.consumed = 0 → Onward os (httpsReceive os).2 := by
    intro os hos
    refine ⟨rfl, rfl, rfl, rfl, rfl, rfl, rfl, Nat.le_succ _, ?_⟩
    have hsame : (httpsReceive os).2.consumed = os.consumed := rfl
    have hbytes := httpsReceive_bytes os
    unfold HttpsStream.unread
    rw [hsame, hos, List.drop_zero, List.drop_zero, hbytes]
  fun_induction httpsFill need os with
  | case1 os hmore r hzero => exact hreceive os hos
  | case2 os hmore r hpos hover => exact hreceive os hos
  | case3 os hmore r hpos hfits ih => exact (hreceive os hos).trans (ih hos)
  | case4 os hdone => exact Onward.refl os

theorem readHttps_onward {os os' : HttpsStream} {consume need : Nat} {w : Window}
    (h : readHttps os consume need = some (w, os')) : Onward os os' := by
  by_cases hserved : add64 (os.consumed + consume)
      (clampNeed (toInt64 (os.lengthRemaining - consume)) need) ≤ os.buf.length
  · rw [readHttps_served hserved] at h
    cases h
    exact Onward.advance os consume _
  · have hfirst : Onward os (compressed os consume) := by
      obtain ⟨-, -, -, -, -, -, -, -, hunread⟩ := Onward.advance os consume os.lengthRemaining
      exact ⟨rfl, rfl, rfl, rfl, rfl, rfl, rfl, le_rfl, hunread⟩
    have hfill := hfirst.trans (httpsFill_onward
      (clampNeed (toInt64 (os.lengthRemaining - consume)) need) (compressed os consume) rfl)
    cases hcall : httpsFill (clampNeed (toInt64 (os.lengthRemaining - consume)) need)
        (compressed os consume) with
    | mk ok os₁ =>
      rw [hcall] at hfill
      cases ok with
      | true =>
        rw [readHttps_filled hserved hcall] at h
        cases h
        exact hfill
      | false =>
        rw [readHttps_fails hserved hcall] at h
        cases h
        exact hfill.trans ⟨rfl, rfl, rfl, rfl, rfl, rfl, rfl, le_rfl, List.suffix_rfl⟩

theorem getLineLoop_onward {fuel lineLen : Nat} {os os' : HttpsStream} {line : Option Bytes}
    (h : getLineLoop fuel lineLen os = some (line, os')) : Onward os os' := by
  induction fuel generalizing lineLen os with
  | zero => cases h
  | succ fuel ih =>
    rw [getLineLoop, Option.bind_eq_some_iff] at h
    obtain ⟨⟨w, os₁⟩, hread, h⟩ := h
    have hreset : Onward os { os with lengthRemaining := int64Max } :=
      ⟨rfl, rfl, rfl, rfl, rfl, rfl, rfl, le_rfl, List.suffix_rfl⟩
    have hos₁ := hreset.trans (readHttps_onward hread)
    dsimp only at h
    split at h
    · cases h
      exact hos₁.trans (Onward.advance os₁ _ os₁.lengthRemaining)
    · split at h
      · cases h
        exact hos₁
      · exact hos₁.trans (ih h)

theorem headersLoop_onward {lineFuel fuel : Nat} {h : Headers} {h' : Option Headers}
    {os os' : HttpsStream} (hcall : headersLoop lineFuel fuel h os = some (h', os')) :
    Onward os os' := by
  induction fuel generalizing h os with
  | zero => cases hcall
  | succ fuel ih =>
    unfold headersLoop at hcall
    split at hcall
    · cases hcall
    · rename_i os₁ hline
      cases hcall
      exact getLineLoop_onward hline
    · rename_i p os₁ hline
      have hos₁ := getLineLoop_onward hline
      split at hcall
      · cases hcall
        exact hos₁
      · exact hos₁.trans (ih hcall)

/-! ## Lines -/

/-- A stream in the middle of a header: the buffer is empty or has its first size. -/
structure InHeader (os : HttpsStream) : Prop where
  consumed_le : os.consumed ≤ os.buf.length
  steps : growth ∣ os.buf.length + os.room
  bufsz_le : os.buf.length + os.room ≤ growth
  cut : ∀ i, 0 < os.conn.cut i
  small : os.buf.length + os.conn.incoming.length < 2 ^ 63

theorem int64Max_eq : int64Max = 2 ^ 63 - 1 := by decide

/-- What parsing a header keeps, however much is still to come. -/
structure Parsing (os : HttpsStream) : Prop where
  consumed_le : os.consumed ≤ os.buf.length
  steps : growth ∣ os.buf.length + os.room
  bufsz_le : os.buf.length + os.room ≤ growth
  cut : ∀ i, 0 < os.conn.cut i

/-- The bytes that are in the buffer or still to come. -/
def HttpsStream.held (os : HttpsStream) : Nat := os.buf.length + os.conn.incoming.length

theorem InHeader.parsing {os : HttpsStream} (h : InHeader os) : Parsing os :=
  ⟨h.consumed_le, h.steps, h.bufsz_le, h.cut⟩

theorem Parsing.inHeader {os : HttpsStream} (h : Parsing os) (hsmall : os.held < 2 ^ 63) :
    InHeader os :=
  ⟨h.consumed_le, h.steps, h.bufsz_le, h.cut, hsmall⟩

/-- While a header is parsed the buffer keeps its first size, and so it is never longer than
what is left: filling it fails only if not enough is to come. -/
theorem httpsFill_header (need : Nat) (os : HttpsStream) (hneed : need ≤ growth)
    (hcut : ∀ i, 0 < os.conn.cut i) (hsteps : growth ∣ os.buf.length + os.room)
    (hbufsz : os.buf.length + os.room ≤ growth) (hmax : os.lengthRemaining = int64Max) :
    Filled os (httpsFill need os).2 ∧
      growth ∣ (httpsFill need os).2.buf.length + (httpsFill need os).2.room ∧
      (httpsFill need os).2.buf.length + (httpsFill need os).2.room ≤ growth ∧
      ((httpsFill need os).1 = true → need ≤ (httpsFill need os).2.buf.length) ∧
      ((httpsFill need os).1 = true ↔ need ≤ os.held) := by
  have hreceive : ∀ os : HttpsStream, os.buf.length < need →
      growth ∣ os.buf.length + os.room → os.buf.length + os.room ≤ growth →
      growth ∣ (httpsReceive os).2.buf.length + (httpsReceive os).2.room ∧
        (httpsReceive os).2.buf.length + (httpsReceive os).2.room ≤ growth := by
    intro os hmore hsteps hbufsz
    obtain ⟨hbuf, -, hroom⟩ := httpsReceive_length os
    have hle : (httpsReceive os).1 ≤ if os.room = 0 then growth else os.room := by
      rw [httpsReceive_fst]
      exact (Nat.min_le_left _ _).trans ((Nat.min_le_right _ _).trans (receiveRequest_le_room _ _))
    have hsum : (httpsReceive os).2.buf.length + (httpsReceive os).2.room =
        os.buf.length + if os.room = 0 then growth else os.room := by omega
    rw [hsum]
    split
    · rename_i hzero
      -- a full buffer that is too short has no bytes at all
      have hempty : os.buf.length = 0 := by
        rw [hzero, Nat.add_zero] at hsteps
        exact Nat.eq_zero_of_dvd_of_lt hsteps (by omega)
      rw [hempty, Nat.zero_add]
      exact ⟨dvd_rfl, le_rfl⟩
    · exact ⟨hsteps, hbufsz⟩
  fun_induction httpsFill need os with
  | case1 os hmore r hzero =>
    obtain ⟨hsteps', hbufsz'⟩ := hreceive os hmore hsteps hbufsz
    refine ⟨(Filled.refl _).of_receive, hsteps', hbufsz', by simp, ?_⟩
    simp only [Bool.false_eq_true, false_iff, Nat.not_le]
    by_contra henough
    have hsafe : SafeReceive os.isHttps os.buf.length os.room need := by
      unfold SafeReceive
      unfold growth at hbufsz
      omega
    have hpos : 0 < r.1 := httpsReceive_pos hcut hsafe hmore (by
      unfold HttpsStream.held at henough
      omega)
    omega
  | case2 os hmore r hpos hover =>
    exfalso
    have hle : r.2.buf.length + r.2.room ≤ growth := (hreceive os hmore hsteps hbufsz).2
    rw [hmax, int64Max_eq] at hover
    unfold growth at hle
    omega
  | case3 os hmore r hpos hfits ih =>
    obtain ⟨hsteps', hbufsz'⟩ := hreceive os hmore hsteps hbufsz
    obtain ⟨hfilled, hdvd, hle, hlong, hiff⟩ := ih hcut hsteps' hbufsz' hmax
    refine ⟨hfilled.of_receive, hdvd, hle, hlong, ?_⟩
    have hheld : r.2.held = os.held := by
      have := congrArg List.length (httpsReceive_bytes os)
      rwa [List.length_append, List.length_append] at this
    rw [hiff, hheld]
  | case4 os hdone =>
    refine ⟨Filled.refl os, hsteps, hbufsz, fun _ => Nat.le_of_not_lt hdone, ?_⟩
    simp only [true_iff]
    unfold HttpsStream.held
    omega

theorem length_unread (os : HttpsStream) :
    os.unread.length = os.buf.length - os.consumed + os.conn.incoming.length := by
  rw [HttpsStream.unread, List.length_append, List.length_drop]

/-- The stream when `read_https` starts to receive for a header line. -/
def HttpsStream.refilling (os : HttpsStream) : HttpsStream :=
  compressed { os with lengthRemaining := int64Max } 0

theorem refilling_remaining (os : HttpsStream) : os.refilling.lengthRemaining = int64Max := by
  have hmax : toInt64 (int64Max - (0 : Nat)) = int64Max := by decide
  exact hmax

theorem length_refilling (os : HttpsStream) :
    os.refilling.buf.length = os.lent ∧ os.refilling.room = os.room + os.consumed :=
  ⟨List.length_drop, rfl⟩

/-- The conditions under which a read for a header line is served from the buffer. -/
theorem header_served {os : HttpsStream} (h : Parsing os) {need : Nat}
    (hneed : need ≤ headerLineMax + 1) :
    clampNeed (toInt64 (int64Max - (0 : Nat))) need = need ∧
      (add64 (os.consumed + 0) (clampNeed (toInt64 (int64Max - (0 : Nat))) need) ≤
        os.buf.length ↔ need ≤ os.lent) := by
  have hle := h.consumed_le
  have hbufsz := h.bufsz_le
  unfold headerLineMax at hneed
  unfold growth at hbufsz
  have hmaxNeed : toInt64 (int64Max - (0 : Nat)) = ((2 ^ 63 - 1 : Nat) : Int) := by decide
  have hclamp : clampNeed (toInt64 (int64Max - (0 : Nat))) need = need := by
    rw [hmaxNeed, clampNeed_eq (by norm_num) (by omega)]
    omega
  refine ⟨hclamp, ?_⟩
  rw [hclamp, add64_of_lt (by omega), HttpsStream.lent]
  omega

theorem readHttps_buffered {os : HttpsStream} (h : Parsing os) {need : Nat}
    (hneed : need ≤ headerLineMax + 1) (hlent : need ≤ os.lent) :
    ∃ os', readHttps { os with lengthRemaining := int64Max } 0 need =
        some (⟨os.buf.drop os.consumed, false⟩, os') ∧
      os'.conn = os.conn ∧ os'.buf = os.buf ∧ os'.room = os.room ∧
      os'.consumed = os.consumed :=
  ⟨_, readHttps_served ((header_served h hneed).2.mpr hlent), rfl, rfl, rfl, rfl⟩

theorem readHttps_refill {os os' : HttpsStream} (h : Parsing os) {need : Nat}
    (hneed : need ≤ headerLineMax + 1) (hmiss : os.lent < need) {ok : Bool}
    (hfill : httpsFill need os.refilling = (ok, os')) :
    readHttps { os with lengthRemaining := int64Max } 0 need =
      some (if ok then (⟨os'.buf, false⟩, os')
        else (⟨[], true⟩, { os' with lengthRemaining := 0 })) := by
  obtain ⟨hclamp, hserved⟩ := header_served h hneed
  have hmiss' := fun hs => Nat.not_le_of_lt hmiss (hserved.mp hs)
  cases ok with
  | true => exact readHttps_filled hmiss' (by rw [hclamp]; exact hfill)
  | false => exact readHttps_fails hmiss' (by rw [hclamp]; exact hfill)

/-- A read for the next piece of a line offers all that is buffered, or fails if the line
is not that long. The bytes that are unread stay the same. -/
theorem readHttps_parsing {os : HttpsStream} (h : Parsing os) (need : Nat)
    (hneed : need ≤ headerLineMax + 1) :
    ∃ w os', readHttps { os with lengthRemaining := int64Max } 0 need = some (w, os') ∧
      Parsing os' ∧ os'.unread = os.unread ∧ os'.held ≤ os.held ∧
      (need ≤ os.unread.length →
        w.bytes = os'.buf.drop os'.consumed ∧ need ≤ w.bytes.length) ∧
      (os.unread.length < need → w = ⟨[], true⟩) := by
  have hle := h.consumed_le
  have hunread := length_unread os
  rcases Nat.lt_or_ge os.lent need with hmiss | hserved
  · obtain ⟨hbuf, hroom⟩ := length_refilling os
    have hlent : os.lent = os.buf.length - os.consumed := rfl
    have hsize : os.refilling.buf.length + os.refilling.room = os.buf.length + os.room := by omega
    have hheld : os.refilling.held = os.unread.length := by
      rw [HttpsStream.held, hbuf, hunread]
      rfl
    have hfill := httpsFill_header need os.refilling
      (by unfold growth; unfold headerLineMax at hneed; omega) h.cut
      (by rw [hsize]; exact h.steps) (by rw [hsize]; exact h.bufsz_le) (refilling_remaining os)
    cases hcall : httpsFill need os.refilling with
    | mk ok os' =>
      have hread := readHttps_refill h hneed hmiss hcall
      rw [hcall, hheld] at hfill
      obtain ⟨hfilled, hsteps, hgrown, hlong, hiff⟩ := hfill
      dsimp only at hsteps hgrown hlong hiff
      have hconsumed : os'.consumed = 0 := hfilled.consumed
      have hbytes : os'.buf ++ os'.conn.incoming = os.unread := hfilled.bytes
      have hheld' : os'.held ≤ os.held := by
        have := congrArg List.length hbytes
        rw [List.length_append] at this
        unfold HttpsStream.held
        omega
      have hcut' : ∀ i, 0 < os'.conn.cut i := by
        rw [hfilled.cut]
        exact h.cut
      have hunread' : os'.unread = os.unread := by
        rw [HttpsStream.unread, hconsumed]
        exact hbytes
      cases ok with
      | true =>
        refine ⟨_, os', hread, ⟨by omega, hsteps, hgrown, hcut'⟩, hunread', hheld',
          fun _ => ⟨?_, hlong rfl⟩, ?_⟩
        · rw [hconsumed, List.drop_zero]
        · have := hiff.mp rfl
          omega
      | false =>
        refine ⟨⟨[], true⟩, { os' with lengthRemaining := 0 }, hread,
          ⟨?_, hsteps, hgrown, hcut'⟩, hunread', hheld', ?_, fun _ => rfl⟩
        · dsimp only
          omega
        · intro henough
          exact absurd (hiff.mpr henough) (by simp)
  · obtain ⟨os', hread, hconn, hbuf, hroom, hconsumed⟩ := readHttps_buffered h hneed hserved
    have hlent : (os.buf.drop os.consumed).length = os.lent := List.length_drop
    refine ⟨_, os', hread, ⟨?_, ?_, ?_, ?_⟩, ?_, ?_, fun _ => ⟨?_, ?_⟩, ?_⟩
    · rw [hconsumed, hbuf]
      exact hle
    · rw [hbuf, hroom]
      exact h.steps
    · rw [hbuf, hroom]
      exact h.bufsz_le
    · rw [hconn]
      exact h.cut
    · rw [HttpsStream.unread, HttpsStream.unread, hconn, hbuf, hconsumed]
    · rw [HttpsStream.held, HttpsStream.held, hconn, hbuf]
    · rw [hbuf, hconsumed]
    · rw [hlent]
      exact hserved
    · intro hless
      unfold HttpsStream.lent at hserved
      omega

/-- A line is cut off at its first newline. -/
theorem eq_of_first_newline {a b line rest : Bytes} (ha : newline ∉ a) (hline : newline ∉ line)
    (h : a ++ newline :: b <+: line ++ newline :: rest) : a = line := by
  obtain ⟨tail, htail⟩ := h
  rw [List.append_assoc, List.cons_append] at htail
  have hfirst := strchr_append (b := b ++ tail) ha
  rw [htail, strchr_append hline] at hfirst
  have hrest : rest = b ++ tail := by
    simpa using hfirst
  rw [hrest] at htail
  exact List.append_cancel_right htail

theorem not_mem_of_short {w line rest : Bytes} (h : w <+: line ++ newline :: rest)
    (hnone : newline ∉ w) : w.length ≤ line.length := by
  by_contra hlong
  obtain ⟨tail, htail⟩ := h
  have hget : (w ++ tail)[line.length]? = some newline := by
    rw [htail]
    simp
  rw [List.getElem?_append_left (by omega)] at hget
  exact hnone (List.mem_of_getElem? hget)

/-- **One line.** However it is cut into receives, `get_line` takes the next line off the
unread bytes. -/
theorem getLineLoop_spec {fuel lineLen : Nat} {os : HttpsStream} {line rest : Bytes}
    (h : Parsing os) (hunread : os.unread = line ++ newline :: rest) (hline : newline ∉ line)
    (hshort : line.length ≤ headerLineMax) (hlen : lineLen ≤ line.length)
    (hfuel : line.length - lineLen < fuel) :
    ∃ os', getLineLoop fuel lineLen os = some (some (cstr (stripReturn line)), os') ∧
      Parsing os' ∧ os'.unread = rest ∧ os'.held ≤ os.held := by
  induction fuel generalizing lineLen os with
  | zero => omega
  | succ fuel ih =>
    obtain ⟨w, os₁, hread, h₁, hunread₁, hheld, hwindow, -⟩ :=
      readHttps_parsing h (lineLen + 1) (by omega)
    obtain ⟨hw, hneed⟩ := hwindow
      (by rw [hunread, List.length_append, List.length_cons]; omega)
    have hpre : w.bytes <+: line ++ newline :: rest := by
      rw [← hunread, ← hunread₁, hw]
      exact List.prefix_append _ _
    rw [getLineLoop, hread, Option.bind_some]
    dsimp only
    cases hfind : strchr w.bytes newline with
    | some r =>
      obtain ⟨a, b, hsplit, hr, ha⟩ := strchr_eq_some hfind
      have haline : a = line := eq_of_first_newline ha hline (hsplit ▸ hpre)
      have htake : w.bytes.take (w.bytes.length - r.length) = line := by
        rw [hsplit, hr, List.length_append, Nat.add_sub_cancel, List.take_left, haline]
      have hwlen : line.length + 1 ≤ os₁.buf.length - os₁.consumed := by
        have := congrArg List.length (hw.symm.trans hsplit)
        rw [List.length_drop, List.length_append, List.length_cons, haline] at this
        omega
      dsimp only
      rw [htake]
      refine ⟨_, rfl, ⟨?_, h₁.steps, h₁.bufsz_le, h₁.cut⟩, ?_, hheld⟩
      · dsimp only
        omega
      · have hdrop : os₁.unread.drop (line.length + 1) = rest := by
          rw [hunread₁, hunread, ← List.drop_drop, List.drop_left, List.drop_one, List.tail_cons]
        rw [← hdrop, HttpsStream.unread, HttpsStream.unread,
          List.drop_append_of_le_length (by rw [List.length_drop]; exact hwlen), List.drop_drop]
    | none =>
      have hwlen := not_mem_of_short hpre (strchr_eq_none_iff.mp hfind)
      dsimp only
      rw [if_neg (by omega)]
      obtain ⟨os', hcall, h', hrest, hheld'⟩ :=
        ih h₁ (hunread₁.trans hunread) hwlen (by omega)
      exact ⟨os', hcall, h', hrest, hheld'.trans hheld⟩

/-- A header line without its newline. -/
structure HeaderLine (line : Bytes) : Prop where
  no_newline : newline ∉ line
  no_nul : (0 : UInt8) ∉ line
  length_le : line.length ≤ headerLineMax

theorem stripReturn_subset (line : Bytes) : ∀ b ∈ stripReturn line, b ∈ line := by
  intro b hb
  unfold stripReturn at hb
  split at hb
  · exact List.dropLast_subset _ hb
  · exact hb

theorem getLine_spec {fuel : Nat} {os : HttpsStream} {line rest : Bytes} (h : Parsing os)
    (hunread : os.unread = line ++ newline :: rest) (hline : HeaderLine line)
    (hfuel : line.length < fuel) :
    ∃ os', getLine fuel os = some (some (stripReturn line), os') ∧ Parsing os' ∧
      os'.unread = rest ∧ os'.held ≤ os.held := by
  have hnul : (0 : UInt8) ∉ stripReturn line :=
    fun hmem => hline.no_nul (stripReturn_subset line 0 hmem)
  obtain ⟨os', hcall, hrest⟩ := getLineLoop_spec h hunread hline.no_newline hline.length_le
    (Nat.zero_le _) hfuel
  rw [cstr_of_not_mem hnul] at hcall
  exact ⟨os', hcall, hrest⟩

/-! ## Header blocks -/

/-- The bytes of lines. -/
def encodeLines (lines : List Bytes) : Bytes := lines.flatMap (· ++ [newline])

/-- The loop over the header lines folds them into one record and stops at the empty line. -/
theorem headersLoop_spec (lineFuel fuel : Nat) {lines : List Bytes} {blank rest : Bytes}
    {h : Headers} {os : HttpsStream} (hos : Parsing os)
    (hunread : os.unread = encodeLines lines ++ (blank ++ newline :: rest))
    (hlines : ∀ l ∈ lines, HeaderLine l ∧ stripReturn l ≠ []) (hblank : HeaderLine blank)
    (hempty : stripReturn blank = []) (hline : ∀ l ∈ blank :: lines, l.length < lineFuel)
    (hfuel : lines.length < fuel) :
    ∃ os', headersLoop lineFuel fuel h os =
        some (some (lines.foldl (fun h l => parseHeader (stripReturn l) h) h), os') ∧
      Parsing os' ∧ os'.unread = rest ∧ os'.held ≤ os.held := by
  induction lines generalizing fuel h os with
  | nil =>
    obtain ⟨fuel, rfl⟩ := Nat.exists_eq_succ_of_ne_zero (Nat.ne_of_gt hfuel)
    rw [encodeLines, List.flatMap_nil, List.nil_append] at hunread
    obtain ⟨os', hcall, hos', hrest, hheld⟩ := getLine_spec hos hunread hblank
      (hline blank List.mem_cons_self)
    refine ⟨os', ?_, hos', hrest, hheld⟩
    rw [headersLoop, hcall]
    dsimp only
    rw [if_pos hempty, List.foldl_nil]
  | cons l lines ih =>
    obtain ⟨fuel, rfl⟩ := Nat.exists_eq_succ_of_ne_zero
      (show fuel ≠ 0 by rw [List.length_cons] at hfuel; omega)
    obtain ⟨hl, hne⟩ := hlines l List.mem_cons_self
    have hsplit : os.unread =
        l ++ newline :: (encodeLines lines ++ (blank ++ newline :: rest)) := by
      rw [hunread, encodeLines, encodeLines, List.flatMap_cons]
      simp
    obtain ⟨os₁, hcall, hos₁, hrest₁, hheld₁⟩ := getLine_spec hos hsplit hl
      (hline l (List.mem_cons_of_mem _ List.mem_cons_self))
    obtain ⟨os', hloop, hos', hrest, hheld⟩ := ih fuel hos₁ hrest₁
      (fun l' hl' => hlines l' (List.mem_cons_of_mem _ hl'))
      (fun l' hl' => hline l' (List.mem_cons.mpr
        ((List.mem_cons.mp hl').imp_right (List.mem_cons_of_mem _))))
      (by rw [List.length_cons] at hfuel; omega)
    refine ⟨os', ?_, hos', hrest, hheld.trans hheld₁⟩
    rw [headersLoop, hcall]
    dsimp only
    rw [if_neg hne, hloop, List.foldl_cons]

/-- A line is no longer than the bytes it is encoded in. -/
theorem length_le_encodeLines {lines : List Bytes} {l : Bytes} (h : l ∈ lines) :
    l.length < (encodeLines lines).length := by
  rw [encodeLines, List.length_flatMap]
  have hle := List.single_le_sum (by simp)
    (l ++ [newline]).length (List.mem_map_of_mem h : _ ∈ lines.map fun l => (l ++ [newline]).length)
  rw [List.length_append, List.length_singleton] at hle
  omega

end ToolchainTools
