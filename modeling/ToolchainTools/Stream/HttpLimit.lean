import ToolchainTools.Stream.HttpBody

/-!
# The body and its `Content-Length`

`read_https` compares what it has received with `length_remaining` only while it receives.
Bytes that came together with the headers are offered as they are, and after an error
`length_remaining` is 0 while the buffer still holds bytes. `Bounded` is what has to hold
for the next window: the buffer has no more than is left.
-/

namespace ToolchainTools

open CLib Streams

/-- The buffer holds no more than what is left of the body. -/
structure Bounded (os : HttpsStream) : Prop where
  consumed_le : os.consumed ≤ os.buf.length
  lent_le : (os.lent : Int) ≤ os.lengthRemaining
  small : os.lengthRemaining < 2 ^ 63

/-- The stream after `k` receives. -/
def HttpsStream.received : Nat → HttpsStream → HttpsStream
  | 0, os => os
  | k + 1, os => received k (httpsReceive os).2

/-- The condition on a read and the state before it: it is served from the buffer; or nothing
is buffered and the next receive fails or finds the connection closed; or after some receives,
each of which brings something, the buffer has enough for the read and no more than what is
left. -/
def SoundRead (os : HttpsStream) (consume need : Nat) : Prop :=
  let avail := os.buf.length - (os.consumed + consume)
  let wanted := clampNeed (toInt64 (os.lengthRemaining - consume)) need
  add64 (os.consumed + consume) wanted ≤ os.buf.length ∨
    (avail = 0 ∧ (os.conn.incoming = [] ∨ os.conn.cut os.conn.recvs = 0)) ∨
    ∃ k, (∀ i < k, 0 < (httpsReceive ((compressed os consume).received i)).1) ∧
      wanted ≤ ((compressed os consume).received k).buf.length ∧
      (((compressed os consume).received k).buf.length : Int) ≤ os.lengthRemaining - consume

theorem HttpsStream.received_length (k : Nat) (os : HttpsStream) :
    os.buf.length ≤ (os.received k).buf.length := by
  induction k generalizing os with
  | zero => exact le_rfl
  | succ k ih =>
    refine le_trans ?_ (ih (httpsReceive os).2)
    rw [(httpsReceive_length os).1]
    exact Nat.le_add_right _ _

/-- Receives that bring enough and not too much end the loop well. -/
theorem httpsFill_received {need k : Nat} {os : HttpsStream}
    (hpos : ∀ i < k, 0 < (httpsReceive (os.received i)).1)
    (henough : need ≤ (os.received k).buf.length)
    (hlimit : ((os.received k).buf.length : Int) ≤ os.lengthRemaining) :
    ∃ os', httpsFill need os = (true, os') ∧ os'.consumed = os.consumed ∧
      os'.lengthRemaining = os.lengthRemaining ∧ os'.buf.length ≤ (os.received k).buf.length := by
  induction k generalizing os with
  | zero =>
    have hdone : ¬ os.buf.length < need := by
      unfold HttpsStream.received at henough
      omega
    exact ⟨os, by rw [httpsFill, if_neg hdone], rfl, rfl, le_rfl⟩
  | succ k ih =>
    by_cases hdone : need ≤ os.buf.length
    · exact ⟨os, by rw [httpsFill, if_neg (by omega)], rfl, rfl, os.received_length (k + 1)⟩
    · obtain ⟨os', hfill, hconsumed, hremaining, hle⟩ :=
        @ih (httpsReceive os).2 (fun i hi => hpos (i + 1) (by omega)) henough hlimit
      have hreceived := hpos 0 (Nat.succ_pos k)
      have hlong := (httpsReceive os).2.received_length k
      refine ⟨os', ?_, hconsumed, hremaining, hle⟩
      rw [httpsFill, if_pos (by omega)]
      dsimp only
      rw [dif_neg (show ¬ (httpsReceive os).1 = 0 from fun hzero => by
          rw [HttpsStream.received, hzero] at hreceived
          exact absurd hreceived (lt_irrefl 0)), if_neg, hfill]
      unfold HttpsStream.received at hlimit
      omega

/-- With nothing buffered and nothing received, a fill fails and leaves the buffer empty. -/
theorem httpsFill_nothing {need : Nat} {os : HttpsStream} (hbuf : os.buf = [])
    (hnone : os.conn.incoming = [] ∨ os.conn.cut os.conn.recvs = 0) (hneed : 0 < need) :
    httpsFill need os = (false, (httpsReceive os).2) ∧ (httpsReceive os).2.buf = [] := by
  have hzero : (httpsReceive os).1 = 0 := by
    rw [httpsReceive_fst]
    rcases hnone with h | h
    · rw [h, List.length_nil, Nat.min_zero]
    · rw [h, Nat.zero_min, Nat.zero_min]
  constructor
  · rw [httpsFill, if_pos (by rw [hbuf]; exact hneed)]
    dsimp only
    rw [dif_pos hzero]
  · rw [← List.length_eq_zero_iff, (httpsReceive_length os).1, hzero, hbuf]
    rfl

/-- A sound read keeps the buffer bounded, and what it takes off `length_remaining` is at
least what was consumed. -/
theorem readHttps_bounded {os os' : HttpsStream} {consume need : Nat} {w : Window}
    (h : Bounded os) (hconsume : consume ≤ os.lent) (hsound : SoundRead os consume need)
    (hread : readHttps os consume need = some (w, os')) :
    Bounded os' ∧ w.bytes.length ≤ os'.lent ∧
      (consume : Int) + os'.lengthRemaining ≤ os.lengthRemaining := by
  have hle := h.lent_le
  have hin : os.consumed + consume ≤ os.buf.length := by
    have := h.consumed_le
    unfold HttpsStream.lent at hconsume
    omega
  have hsmall := h.small
  have hleft : toInt64 (os.lengthRemaining - consume) = os.lengthRemaining - consume :=
    toInt64_of_range (by omega) (by omega)
  by_cases hserved : add64 (os.consumed + consume)
      (clampNeed (toInt64 (os.lengthRemaining - consume)) need) ≤ os.buf.length
  · rw [readHttps_served hserved] at hread
    cases hread
    refine ⟨⟨hin, ?_, ?_⟩, ?_, ?_⟩
    · dsimp only [HttpsStream.lent]
      rw [hleft]
      unfold HttpsStream.lent at hle
      omega
    · dsimp only
      omega
    · simp only [HttpsStream.lent, List.length_drop, le_refl]
    · dsimp only
      omega
  · rcases hsound with hs | ⟨havail, hnone⟩ | ⟨k, hpos, henough, hlimit⟩
    · exact absurd hs hserved
    · have hbuf : (compressed os consume).buf = [] := by
        rw [← List.length_eq_zero_iff]
        simpa [compressed] using havail
      have hpos : 0 < clampNeed (toInt64 (os.lengthRemaining - consume)) need := by
        by_contra hzero
        apply hserved
        rw [Nat.eq_zero_of_not_pos hzero, add64, Nat.add_zero]
        exact (Nat.mod_le _ _).trans hin
      obtain ⟨hfill, hempty⟩ := httpsFill_nothing hbuf hnone hpos
      rw [readHttps_failed hserved (by rw [hfill]), hfill] at hread
      cases hread
      refine ⟨⟨?_, ?_, ?_⟩, ?_, ?_⟩
      · exact Nat.zero_le _
      · simp [HttpsStream.lent, hempty]
      · norm_num
      · exact Nat.zero_le _
      · dsimp only
        omega
    · obtain ⟨os₁, hfill, hconsumed, hkept, hshort⟩ := httpsFill_received hpos henough
        (show _ ≤ toInt64 _ by rw [hleft]; exact hlimit)
      rw [readHttps_filled hserved hfill] at hread
      cases hread
      have hremaining : os'.lengthRemaining = os.lengthRemaining - consume := hkept.trans hleft
      have hzero : os'.consumed = 0 := hconsumed
      refine ⟨⟨?_, ?_, ?_⟩, ?_, ?_⟩
      · omega
      · rw [hremaining, HttpsStream.lent, hzero]
        omega
      · omega
      · rw [HttpsStream.lent, hzero]
        exact le_rfl
      · omega

/-- In a run of sound reads the buffer stays bounded. -/
theorem run_bounded {os s : HttpsStream} {lent total : Nat} (hos : Bounded os)
    (hrun : Run readHttps SoundRead os s lent total) :
    Bounded s ∧ lent ≤ s.lent ∧ (total : Int) + s.lengthRemaining ≤ os.lengthRemaining := by
  induction hrun with
  | start => exact ⟨hos, Nat.zero_le _, by simp⟩
  | @read s s' lent total consume need w hrun hconsume hok hread ih =>
    obtain ⟨hs, hlent, htotal⟩ := ih
    obtain ⟨hs', hlent', hstep⟩ := readHttps_bounded hs (hconsume.trans hlent) hok hread
    refine ⟨hs', hlent', ?_⟩
    push_cast
    omega

/-! ## What the downloader returns -/

theorem httpsFill_consumed (need : Nat) (os : HttpsStream) :
    (httpsFill need os).2.consumed = os.consumed := by
  fun_induction httpsFill need os with
  | case1 | case2 | case4 => rfl
  | case3 os hmore r hpos hfits ih => exact ih

/-- A read always returns, and the window it offers lies in the buffer. -/
theorem readHttps_window (os : HttpsStream) (consume : Nat) (need : Nat)
    (hconsume : os.consumed + consume ≤ os.buf.length) :
    ∃ w os', readHttps os consume need = some (w, os') ∧ os'.consumed ≤ os'.buf.length ∧
      w.bytes.length ≤ os'.lent := by
  by_cases hserved : add64 (os.consumed + consume)
      (clampNeed (toInt64 (os.lengthRemaining - consume)) need) ≤ os.buf.length
  · refine ⟨_, _, readHttps_served hserved, hconsume, ?_⟩
    simp only [HttpsStream.lent, List.length_drop, le_refl]
  · have hzero := httpsFill_consumed
      (clampNeed (toInt64 (os.lengthRemaining - consume)) need) (compressed os consume)
    cases hfill : httpsFill (clampNeed (toInt64 (os.lengthRemaining - consume)) need)
      (compressed os consume) with
    | mk ok os' =>
      rw [hfill] at hzero
      have hzero' : os'.consumed = 0 := hzero
      cases ok with
      | true =>
        refine ⟨_, _, readHttps_filled hserved hfill, by omega, ?_⟩
        rw [HttpsStream.lent, hzero']
        exact le_rfl
      | false =>
        refine ⟨_, _, readHttps_failed hserved (by rw [hfill]), ?_, Nat.zero_le _⟩
        rw [hfill]
        dsimp only
        omega

theorem getLineLoop_consumed {fuel lineLen : Nat} {os os' : HttpsStream} {line : Option Bytes}
    (hos : os.consumed ≤ os.buf.length) (h : getLineLoop fuel lineLen os = some (line, os')) :
    os'.consumed ≤ os'.buf.length := by
  induction fuel generalizing lineLen os with
  | zero => cases h
  | succ fuel ih =>
    obtain ⟨w, os₁, hread, hos₁, hlent⟩ :=
      readHttps_window { os with lengthRemaining := int64Max } 0 (lineLen + 1) hos
    rw [getLineLoop, hread, Option.bind_some] at h
    dsimp only at h
    split at h
    · rename_i rest hrest
      cases h
      have hpos := strchr_length hrest
      unfold HttpsStream.lent at hlent
      simp only [List.length_take]
      omega
    · split at h
      · cases h
        exact hos₁
      · exact ih hos₁ h

theorem strtoll_lt (s : Bytes) (base : Nat) : strtoll s base < 2 ^ 63 := by
  unfold strtoll
  dsimp only
  split <;> omega

theorem parseHeader_lt (p : Bytes) {h : Headers} (hh : h.contentLength < 2 ^ 63) :
    (parseHeader p h).contentLength < 2 ^ 63 := by
  unfold parseHeader
  split
  · exact hh
  · dsimp only
    split
    · exact strtoll_lt _ _
    · split
      · exact hh
      · exact hh

theorem headersLoop_result {lineFuel fuel : Nat} {h h' : Headers} {os os' : HttpsStream}
    (hh : h.contentLength < 2 ^ 63) (hos : os.consumed ≤ os.buf.length)
    (hcall : headersLoop lineFuel fuel h os = some (some h', os')) :
    h'.contentLength < 2 ^ 63 ∧ os'.consumed ≤ os'.buf.length := by
  induction fuel generalizing h os with
  | zero => cases hcall
  | succ fuel ih =>
    unfold headersLoop at hcall
    split at hcall
    · cases hcall
    · cases hcall
    · rename_i p os₁ hline
      have hos₁ := getLineLoop_consumed hos hline
      split at hcall
      · cases hcall
        exact ⟨hh, hos₁⟩
      · exact ih (parseHeader_lt p hh) hos₁ hcall

/-- What a response leaves behind: a position inside the buffer, and on success
`length_remaining` set to `*ptotal`. -/
theorem readResponse_result (fuel : Nat) (os : HttpsStream) (hos : os.consumed ≤ os.buf.length) :
    (∀ url os', readResponse fuel os = .redirect url os' → os'.consumed ≤ os'.buf.length) ∧
    ∀ os' total, readResponse fuel os = .success os' total →
      os'.consumed ≤ os'.buf.length ∧ os'.lengthRemaining = total ∧ total < 2 ^ 63 := by
  unfold readResponse
  split
  · simp
  · simp
  · rename_i hdr os₁ hline
    have hos₁ := getLineLoop_consumed hos hline
    split
    · simp
    · split
      · simp
      · split
        · simp
        · simp
        · rename_i h os₂ hheaders
          obtain ⟨hlt, hos₂⟩ := headersLoop_result (by norm_num) hos₁ hheaders
          split
          · split
            · simp
            · refine ⟨?_, by simp⟩
              intro url os' heq
              cases heq
              exact hos₂
          · split
            · split
              · simp
              · rename_i hneg
                refine ⟨by simp, ?_⟩
                intro os' total heq
                cases heq
                rw [toSize_of_range (by omega) (by omega)]
                refine ⟨hos₂, ?_, ?_⟩
                · dsimp only
                  omega
                · omega
            · simp

theorem openConnection_consumed {net : Net} {attempts attempts' : Nat} {os : Option HttpsStream}
    {t : Target} {os' : HttpsStream} (hos : ∀ o, os = some o → o.consumed ≤ o.buf.length)
    (h : openConnection net attempts os t = (some os', attempts')) :
    os'.consumed ≤ os'.buf.length := by
  unfold openConnection at h
  split at h
  · rename_i o
    split at h
    · cases h
      exact hos os' rfl
    · simp only [Prod.mk.injEq, Option.map_eq_some_iff] at h
      obtain ⟨⟨c, -, rfl⟩, -⟩ := h
      exact Nat.zero_le _
  · simp only [Prod.mk.injEq, Option.map_eq_some_iff] at h
    obtain ⟨⟨c, -, rfl⟩, -⟩ := h
    exact Nat.zero_le _

theorem downloaderLoop_result {net : Net} {fuel requests attempts total : Nat}
    {os : Option HttpsStream} {url : Bytes} {os' : HttpsStream}
    (hos : ∀ o, os = some o → o.consumed ≤ o.buf.length)
    (h : downloaderLoop net fuel requests attempts os url = some (some (os', total))) :
    os'.consumed ≤ os'.buf.length ∧ os'.lengthRemaining = total ∧ total < 2 ^ 63 := by
  induction requests generalizing attempts os url with
  | zero => cases h
  | succ requests ih =>
    unfold downloaderLoop at h
    split at h
    · cases h
    · rename_i t hurl
      split at h
      · cases h
      · rename_i o attempts' hconn
        have ho := openConnection_consumed hos hconn
        split at h
        · cases h
        · rename_i conn hsend
          obtain ⟨hredirect, hsuccess⟩ :=
            readResponse_result fuel { o with conn := conn } ho
          split at h
          · cases h
          · cases h
          · rename_i url' o' hresp
            refine ih ?_ h
            intro o'' heq
            cases heq
            exact hredirect url' _ hresp
          · rename_i o' total' hresp
            cases h
            exact hsuccess _ _ hresp

/-- More than `*ptotal` bytes in the buffer can be consumed, which takes `length_remaining`
below zero. -/
theorem exists_overrun {os : HttpsStream} {total : Nat} (hremaining : os.lengthRemaining = total)
    (hsmall : total < 2 ^ 63) (hsurplus : total < os.lent) :
    ∃ s lent consumed, Run readHttps (fun _ _ _ => True) os s lent consumed ∧
      total < consumed ∧ s.lengthRemaining < 0 := by
  unfold HttpsStream.lent at hsurplus
  have hleft : toInt64 (os.lengthRemaining - (0 : Nat)) = total := by
    rw [hremaining, toInt64_of_range (by omega) (by omega)]
    omega
  have hserved : add64 (os.consumed + 0)
      (clampNeed (toInt64 (os.lengthRemaining - (0 : Nat))) 1) ≤ os.buf.length := by
    rw [hleft, clampNeed_eq hsmall (by norm_num)]
    refine (Nat.mod_le _ _).trans ?_
    omega
  have hfirst := readHttps_served hserved
  have hnegative : toInt64 (toInt64 (os.lengthRemaining - (0 : Nat)) - (total + 1 : Nat)) = -1 := by
    rw [hleft, toInt64_of_range (by omega) (by omega)]
    omega
  have hagain : add64 (os.consumed + 0 + (total + 1))
      (clampNeed (toInt64 (toInt64 (os.lengthRemaining - (0 : Nat)) - (total + 1 : Nat))) 1) ≤
        os.buf.length := by
    rw [hnegative]
    have hhuge : clampNeed (-1) 1 = 2 ^ 64 - 1 := by decide
    rw [hhuge]
    unfold add64
    omega
  have hstart : Run readHttps (fun _ _ _ => True) os os 0 0 := .start
  have hrun := Run.read hstart le_rfl trivial hfirst
  have hrun' := Run.read hrun
    (show total + 1 ≤ _ by simp only [List.length_drop]; omega) trivial (readHttps_served hagain)
  exact ⟨_, _, _, hrun', by omega, by rw [hnegative]; norm_num⟩

/-- **The body and its length.** If no more than `*ptotal` bytes have come together with the
headers, then in every run of sound reads `length_remaining` stays at least zero and no
more than `*ptotal` bytes can be consumed; if more have come, there is a run in which
more are consumed. -/
theorem http_length_bound {net : Net} {fuel : Nat} {url : Bytes} {os : HttpsStream} {total : Nat}
    (hopen : openHttpDownloader net fuel url = some (some (os, total))) :
    (os.lent ≤ total → ∀ s lent consumed, Run readHttps SoundRead os s lent consumed →
      0 ≤ s.lengthRemaining ∧ consumed ≤ total ∧ consumed + lent ≤ total) ∧
    (total < os.lent → ∃ s lent consumed, Run readHttps (fun _ _ _ => True) os s lent consumed ∧
      total < consumed ∧ s.lengthRemaining < 0) := by
  obtain ⟨hconsumed, hremaining, hsmall⟩ := downloaderLoop_result (by simp) hopen
  constructor
  · intro hlent s lent consumed hrun
    have hos : Bounded os := ⟨hconsumed, by omega, by omega⟩
    obtain ⟨hs, hle, htotal⟩ := run_bounded hos hrun
    have hbound := hs.lent_le
    omega
  · exact exists_overrun hremaining hsmall

/-- A connection that delivers everything in large pieces and takes any request. -/
def plainConn (incoming : Bytes) : Conn := ⟨incoming, fun _ => 4096, 0, fun _ => 4096, 0, []⟩

/-- A server at every address that sends the given bytes. -/
def plainNet (incoming : Bytes) : Net := ⟨fun _ _ _ => some (plainConn incoming), fun _ => 0⟩

/-- A plain connection that hands over single bytes. -/
def singleConn (incoming : Bytes) : Conn := ⟨incoming, fun _ => 1, 0, fun _ => 1, 0, []⟩

def singleNet (incoming : Bytes) : Net := ⟨fun _ _ _ => some (singleConn incoming), fun _ => 0⟩

/-- A body of two bytes under a `Content-Length` of one. -/
def surplusResponse : Bytes := lit "HTTP/1.1 200 OK\r\nContent-Length: 1\r\n\r\nab"

/-- A body of two bytes under its length. -/
def exactResponse : Bytes := lit "HTTP/1.1 200 OK\r\nContent-Length: 2\r\n\r\nab"

/-- What two reads of one byte each find on a stream: what is lent at first, whether the two
receives bring something, what the buffer then holds, and what is left. -/
def twoReads (os : HttpsStream) : Option (List Nat × List Int) :=
  (readHttps os 0 1).bind fun r =>
    (readHttps r.2 1 1).map fun r' =>
      ([os.lent, (httpsReceive (compressed os 0)).1, ((compressed os 0).received 1).buf.length,
          r.1.bytes.length, (httpsReceive (compressed r.2 1)).1,
          ((compressed r.2 1).received 1).buf.length, r'.1.bytes.length],
        [os.lengthRemaining, r.2.lengthRemaining, r'.2.lengthRemaining])

/-- The body comes byte by byte behind the headers and is read so. -/
theorem http_length_bound_exact :
    ∃ os s, openHttpDownloader (singleNet exactResponse) 64 (lit "http://h/") =
        some (some (os, 2)) ∧ os.lent = 0 ∧ Run readHttps SoundRead os s 1 1 ∧
      ∀ s lent consumed, Run readHttps SoundRead os s lent consumed →
        0 ≤ s.lengthRemaining ∧ consumed ≤ 2 ∧ consumed + lent ≤ 2 := by
  have hopen : (openHttpDownloader (singleNet exactResponse) 64 (lit "http://h/")).map
      (Option.map fun r => (twoReads r.1, r.2)) =
        some (some (some ([0, 1, 1, 1, 1, 1, 1], [2, 2, 1]), 2)) := by decide +kernel
  simp only [Option.map_eq_some_iff] at hopen
  obtain ⟨_, hopen, ⟨os, total⟩, rfl, heq⟩ := hopen
  simp only [Prod.mk.injEq, twoReads, Option.bind_eq_some_iff, Option.map_eq_some_iff,
    List.cons.injEq, and_true] at heq
  obtain ⟨⟨⟨w₁, s₁⟩, hread₁, ⟨w₂, s₂⟩, hread₂, ⟨hlent, hgot₁, hhave₁, hw₁, hgot₂, hhave₂, hw₂⟩,
    hleft, hleft₁, -⟩, rfl⟩ := heq
  have hsound₁ : SoundRead os 0 1 := by
    refine Or.inr (Or.inr ⟨1, fun i hi => ?_, ?_, ?_⟩)
    · rw [Nat.lt_one_iff.mp hi]
      exact hgot₁.symm ▸ one_pos
    · rw [hhave₁, hleft]
      decide
    · rw [hhave₁, hleft]
      decide
  have hsound₂ : SoundRead s₁ 1 1 := by
    refine Or.inr (Or.inr ⟨1, fun i hi => ?_, ?_, ?_⟩)
    · rw [Nat.lt_one_iff.mp hi]
      exact hgot₂.symm ▸ one_pos
    · rw [hhave₂, hleft₁]
      decide
    · rw [hhave₂, hleft₁]
      decide
  have hrun₁ := Run.read .start le_rfl hsound₁ hread₁
  have hrun₂ := Run.read hrun₁ hw₁.ge hsound₂ hread₂
  rw [hw₂] at hrun₂
  exact ⟨os, s₂, hopen, hlent, hrun₂, (http_length_bound hopen).1 (by omega)⟩

/-- The second byte came with the headers, and the consumer gets it. -/
theorem surplus_consumed :
    ∃ os, openHttpDownloader (plainNet surplusResponse) 64 (lit "http://h/") =
        some (some (os, 1)) ∧
      ∃ s lent consumed, Run readHttps (fun _ _ _ => True) os s lent consumed ∧
        1 < consumed ∧ s.lengthRemaining < 0 := by
  have hopen : (openHttpDownloader (plainNet surplusResponse) 64 (lit "http://h/")).map
      (Option.map fun r => (r.1.lent, r.2)) = some (some (2, 1)) := by decide +kernel
  simp only [Option.map_eq_some_iff] at hopen
  obtain ⟨_, hopen, ⟨os, total⟩, rfl, heq⟩ := hopen
  simp only [Prod.mk.injEq] at heq
  obtain ⟨hlent, rfl⟩ := heq
  obtain ⟨-, hremaining, hsmall⟩ := downloaderLoop_result (by simp) hopen
  exact ⟨os, hopen, exists_overrun hremaining hsmall (by omega)⟩

end ToolchainTools
