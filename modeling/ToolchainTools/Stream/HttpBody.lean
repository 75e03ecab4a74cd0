import ToolchainTools.Stream.Http

/-!
# Reading a body

What `read_https` does once the headers are read. A read is served from the buffer, or
bytes are received until the window is long enough. A plain connection converts the free
room of the buffer to `int` before it calls `recv`; of a room of a multiple of `2 ^ 32`
bytes nothing is left, and the read fails. `SafeReceive` is the exact condition under which
a read does not come to that point.
-/

namespace ToolchainTools

open CLib Streams

/-! ## How much a receive asks for -/

theorem toInt32_mod (room : Nat) : toInt32 room = toInt32 (room % 2 ^ 32 : Nat) := by
  unfold toInt32
  rw [Int.natCast_mod]
  exact (Int.emod_bmod ..).symm

/-- The room as `recv` gets it: its lower half, or far more than one call moves. -/
theorem toSize_toInt32 (room : Nat) :
    toSize (toInt32 room) = room % 2 ^ 32 ∨
      (2 ^ 31 ≤ room % 2 ^ 32 ∧ rwMax < toSize (toInt32 room)) := by
  rw [toInt32_mod]
  generalize hb : room % 2 ^ 32 = b
  have hlt : b < 2 ^ 32 := hb ▸ Nat.mod_lt _ (by norm_num)
  rcases Nat.lt_or_ge b (2 ^ 31) with h | h
  · left
    have hsame : toInt32 b = b := by
      unfold toInt32
      rw [Int.bmod_eq_of_le (by omega) (by omega)]
    rw [hsame, toSize_of_range (by omega) (by omega)]
    simp
  · right
    have hneg : toInt32 b = (b : Int) - 2 ^ 32 := by
      unfold toInt32
      rw [Int.bmod_def, if_neg (by omega)]
      omega
    refine ⟨h, ?_⟩
    rw [hneg]
    unfold toSize rwMax
    omega

theorem receiveRequest_le (room : Nat) : receiveRequest false room ≤ room % 2 ^ 32 := by
  have hcases := toSize_toInt32 room
  unfold receiveRequest
  rw [if_neg (by simp)]
  unfold rwMax at *
  omega

theorem receiveRequest_le_room (isHttps : Bool) (room : Nat) :
    receiveRequest isHttps room ≤ room := by
  cases isHttps with
  | true => exact le_rfl
  | false => exact (receiveRequest_le room).trans (Nat.mod_le _ _)

theorem receiveRequest_pos {isHttps : Bool} {room : Nat} (hroom : 0 < room)
    (h : isHttps = false → 0 < room % 2 ^ 32) : 0 < receiveRequest isHttps room := by
  unfold receiveRequest
  split
  · exact hroom
  · rename_i hplain
    have hcases := toSize_toInt32 room
    have hlow := h (by simpa using hplain)
    unfold rwMax at *
    omega

/-- Filling the buffer up to `need` does not come to a room of a positive multiple of
`2 ^ 32` bytes. -/
def SafeReceive (isHttps : Bool) (avail room need : Nat) : Prop :=
  isHttps = true ∨ room < 2 ^ 32 ∨ need ≤ avail + room % 2 ^ 32

/-! ## Filling the buffer -/

/-- What one receive moves: no more than it asks for, than the transport hands over and than
there is. -/
theorem httpsReceive_fst (os : HttpsStream) :
    (httpsReceive os).1 =
      min (min (os.conn.cut os.conn.recvs)
        (receiveRequest os.isHttps (if os.room = 0 then growth else os.room)))
          os.conn.incoming.length := by
  simp [httpsReceive, Conn.receive]

theorem httpsReceive_le (os : HttpsStream) : (httpsReceive os).1 ≤ os.conn.incoming.length := by
  rw [httpsReceive_fst]
  exact Nat.min_le_right _ _

theorem httpsReceive_bytes (os : HttpsStream) :
    (httpsReceive os).2.buf ++ (httpsReceive os).2.conn.incoming =
      os.buf ++ os.conn.incoming := by
  simp [httpsReceive, Conn.receive]

theorem httpsReceive_length (os : HttpsStream) :
    (httpsReceive os).2.buf.length = os.buf.length + (httpsReceive os).1 ∧
      (httpsReceive os).2.conn.incoming.length =
        os.conn.incoming.length - (httpsReceive os).1 ∧
      (httpsReceive os).2.room =
        (if os.room = 0 then growth else os.room) - (httpsReceive os).1 := by
  refine ⟨by simp [httpsReceive], ?_, rfl⟩
  simp only [httpsReceive, Conn.receive, List.length_take, List.length_drop]
  omega

/-- While the loop is under way the condition on the room is passed on. -/
theorem safeReceive_httpsReceive (need : Nat) (os : HttpsStream) :
    SafeReceive (httpsReceive os).2.isHttps (httpsReceive os).2.buf.length (httpsReceive os).2.room need ↔
      SafeReceive os.isHttps os.buf.length os.room need := by
  obtain ⟨hbuf, -, hroom⟩ := httpsReceive_length os
  have hsame : (httpsReceive os).2.isHttps = os.isHttps := rfl
  unfold SafeReceive
  rw [hbuf, hroom, hsame]
  cases hhttps : os.isHttps with
  | true => simp
  | false =>
    simp only [Bool.false_eq_true, false_or]
    have hle : (httpsReceive os).1 ≤ (if os.room = 0 then growth else os.room) % 2 ^ 32 := by
      have hreq := receiveRequest_le (if os.room = 0 then growth else os.room)
      rw [httpsReceive_fst, hhttps]
      omega
    split
    · rename_i hzero
      rw [if_pos hzero] at hle
      unfold growth at hle ⊢
      omega
    · rename_i hpos
      rw [if_neg hpos] at hle
      omega

/-- What filling the buffer leaves as it is. -/
structure Filled (os os' : HttpsStream) : Prop where
  bytes : os'.buf ++ os'.conn.incoming = os.buf ++ os.conn.incoming
  cut : os'.conn.cut = os.conn.cut
  isHttps : os'.isHttps = os.isHttps
  consumed : os'.consumed = os.consumed
  lengthRemaining : os'.lengthRemaining = os.lengthRemaining

theorem Filled.refl (os : HttpsStream) : Filled os os := ⟨rfl, rfl, rfl, rfl, rfl⟩

theorem Filled.of_receive {os os' : HttpsStream} (h : Filled (httpsReceive os).2 os') :
    Filled os os' :=
  ⟨h.bytes.trans (httpsReceive_bytes os), h.cut, h.isHttps, h.consumed, h.lengthRemaining⟩

/-- A receive that may move something does. -/
theorem httpsReceive_pos {need : Nat} {os : HttpsStream} (hcut : ∀ i, 0 < os.conn.cut i)
    (hsafe : SafeReceive os.isHttps os.buf.length os.room need) (hmore : os.buf.length < need)
    (hincoming : 0 < os.conn.incoming.length) : 0 < (httpsReceive os).1 := by
  have hreq : 0 < receiveRequest os.isHttps (if os.room = 0 then growth else os.room) := by
    refine receiveRequest_pos ?_ fun hplain => ?_
    · unfold growth
      split <;> omega
    · unfold SafeReceive at hsafe
      rw [hplain] at hsafe
      simp only [Bool.false_eq_true, false_or] at hsafe
      unfold growth
      split <;> omega
  have := hcut os.conn.recvs
  rw [httpsReceive_fst]
  omega

/-- Enough bytes come, none too many, and every receive moves something: the loop ends
well. -/
theorem httpsFill_spec (need : Nat) (os : HttpsStream) (hcut : ∀ i, 0 < os.conn.cut i)
    (hsafe : SafeReceive os.isHttps os.buf.length os.room need)
    (henough : need ≤ os.buf.length + os.conn.incoming.length)
    (hlimit : ((os.buf.length + os.conn.incoming.length : Nat) : Int) ≤ os.lengthRemaining) :
    ∃ os', httpsFill need os = (true, os') ∧ Filled os os' ∧ need ≤ os'.buf.length := by
  fun_induction httpsFill need os with
  | case1 os hmore r hzero =>
    have hpos : 0 < r.1 := httpsReceive_pos hcut hsafe hmore (by omega)
    omega
  | case2 os hmore r hpos hover =>
    have hbuf : r.2.buf.length = os.buf.length + r.1 := (httpsReceive_length os).1
    have hle : r.1 ≤ os.conn.incoming.length := httpsReceive_le os
    omega
  | case3 os hmore r hpos hfits ih =>
    have hsum : r.2.buf.length + r.2.conn.incoming.length =
        os.buf.length + os.conn.incoming.length := by
      have := congrArg List.length (httpsReceive_bytes os)
      rwa [List.length_append, List.length_append] at this
    obtain ⟨os', hfill, hfilled, hlong⟩ := ih hcut ((safeReceive_httpsReceive need os).mpr hsafe)
      (by omega) (by rw [hsum]; exact hlimit)
    exact ⟨os', hfill, hfilled.of_receive, hlong⟩
  | case4 os hdone => exact ⟨os, rfl, Filled.refl os, by omega⟩

/-- A fill that comes to such a room fails, whatever the transport does. -/
theorem httpsFill_stalls {need : Nat} {os : HttpsStream}
    (hstalls : ¬ SafeReceive os.isHttps os.buf.length os.room need) :
    (httpsFill need os).1 = false := by
  fun_induction httpsFill need os with
  | case1 | case2 => rfl
  | case3 os hmore r hpos hfits ih =>
    exact ih fun h => hstalls ((safeReceive_httpsReceive need os).mp h)
  | case4 os hdone =>
    exfalso
    apply hstalls
    unfold SafeReceive
    omega

/-- The buffer grows in steps of `growth` and not beyond the step that `need` reaches. -/
theorem httpsFill_bufsz (need : Nat) {k : Nat} (os : HttpsStream) (hneed : need ≤ k * growth)
    (hsteps : growth ∣ os.buf.length + os.room) :
    growth ∣ (httpsFill need os).2.buf.length + (httpsFill need os).2.room ∧
      (httpsFill need os).2.buf.length + (httpsFill need os).2.room ≤
        max (os.buf.length + os.room) (k * growth) := by
  have hreceive : ∀ os : HttpsStream, os.buf.length < need → growth ∣ os.buf.length + os.room →
      growth ∣ (httpsReceive os).2.buf.length + (httpsReceive os).2.room ∧
        (httpsReceive os).2.buf.length + (httpsReceive os).2.room ≤
          max (os.buf.length + os.room) (k * growth) := by
    intro os hmore hsteps
    obtain ⟨hbuf, -, hroom⟩ := httpsReceive_length os
    have hle : (httpsReceive os).1 ≤ if os.room = 0 then growth else os.room := by
      rw [httpsReceive_fst]
      exact (Nat.min_le_left _ _).trans ((Nat.min_le_right _ _).trans (receiveRequest_le_room _ _))
    have hsum : (httpsReceive os).2.buf.length + (httpsReceive os).2.room =
        os.buf.length + if os.room = 0 then growth else os.room := by omega
    rw [hsum]
    split
    · rename_i hzero
      rw [hzero, Nat.add_zero] at hsteps ⊢
      obtain ⟨m, hm⟩ := hsteps
      have hlt : m < k := by
        by_contra hge
        have := Nat.mul_le_mul_left growth (Nat.le_of_not_lt hge)
        rw [Nat.mul_comm growth k] at this
        omega
      refine ⟨⟨m + 1, by rw [hm]; ring⟩, ?_⟩
      have := Nat.mul_le_mul_right growth hlt
      rw [hm, Nat.mul_comm growth m]
      rw [Nat.succ_mul] at this
      omega
    · exact ⟨hsteps, Nat.le_max_left _ _⟩
  fun_induction httpsFill need os with
  | case1 os hmore r hzero => exact hreceive os hmore hsteps
  | case2 os hmore r hpos hover => exact hreceive os hmore hsteps
  | case3 os hmore r hpos hfits ih =>
    obtain ⟨hsteps', hle'⟩ := hreceive os hmore hsteps
    obtain ⟨hdvd, hle⟩ := ih hsteps'
    exact ⟨hdvd, hle.trans (max_le hle' (Nat.le_max_right _ _))⟩
  | case4 os hdone => exact ⟨hsteps, Nat.le_max_left _ _⟩

/-- A transport that hands over single bytes fills the buffer up to `need` exactly. -/
theorem httpsFill_single {need : Nat} (os : HttpsStream) {os' : HttpsStream} (hcut : ∀ i, os.conn.cut i = 1)
    (hfill : httpsFill need os = (true, os')) : os'.buf.length = max need os.buf.length := by
  fun_induction httpsFill need os with
  | case1 | case2 => cases hfill
  | case3 os hmore r hpos hfits ih =>
    have hone : r.1 ≤ 1 := by
      have hfst : r.1 = _ := httpsReceive_fst os
      rw [hfst, hcut]
      omega
    have hbuf : r.2.buf.length = os.buf.length + r.1 := (httpsReceive_length os).1
    rw [ih hcut hfill]
    omega
  | case4 os hdone =>
    cases hfill
    omega

/-! ## One read -/

/-- The bytes that have not been consumed. -/
def HttpsStream.unread (os : HttpsStream) : Bytes := os.buf.drop os.consumed ++ os.conn.incoming

/-- `need` after `read_https` has compared it with what is left. -/
def clampNeed (remaining : Int) (need : Nat) : Nat :=
  if toInt64 need > remaining then toSize remaining else need

/-- The stream after `read_https` has compressed its buffer. -/
def compressed (os : HttpsStream) (consume : Nat) : HttpsStream :=
  { os with
    lengthRemaining := toInt64 (os.lengthRemaining - consume)
    buf := os.buf.drop (os.consumed + consume)
    room := os.room + (os.consumed + consume)
    consumed := 0 }

/-- A read that is served from the buffer. -/
theorem readHttps_served {os : HttpsStream} {consume need : Nat}
    (h : add64 (os.consumed + consume)
      (clampNeed (toInt64 (os.lengthRemaining - consume)) need) ≤ os.buf.length) :
    readHttps os consume need = some (⟨os.buf.drop (os.consumed + consume), false⟩,
      { os with
        consumed := os.consumed + consume
        lengthRemaining := toInt64 (os.lengthRemaining - consume) }) := by
  unfold clampNeed at h
  unfold readHttps
  dsimp only
  rw [if_pos h]

/-- A read that has to receive and ends well. -/
theorem readHttps_filled {os os' : HttpsStream} {consume need : Nat}
    (h : ¬ add64 (os.consumed + consume)
      (clampNeed (toInt64 (os.lengthRemaining - consume)) need) ≤ os.buf.length)
    (hfill : httpsFill (clampNeed (toInt64 (os.lengthRemaining - consume)) need)
      (compressed os consume) = (true, os')) :
    readHttps os consume need = some (⟨os'.buf, false⟩, os') := by
  unfold clampNeed at h hfill
  unfold compressed at hfill
  unfold readHttps
  dsimp only
  rw [if_neg h, hfill]

/-- A read that has to receive and takes the error path. -/
theorem readHttps_failed {os : HttpsStream} {consume need : Nat}
    (h : ¬ add64 (os.consumed + consume)
      (clampNeed (toInt64 (os.lengthRemaining - consume)) need) ≤ os.buf.length)
    (hfill : (httpsFill (clampNeed (toInt64 (os.lengthRemaining - consume)) need)
      (compressed os consume)).1 = false) :
    readHttps os consume need = some (⟨[], true⟩,
      { (httpsFill (clampNeed (toInt64 (os.lengthRemaining - consume)) need)
          (compressed os consume)).2 with lengthRemaining := 0 }) := by
  unfold clampNeed at h hfill ⊢
  unfold compressed at hfill ⊢
  unfold readHttps
  dsimp only
  rw [if_neg h]
  cases hcall : httpsFill _ _ with
  | mk ok os' =>
    rw [hcall] at hfill
    dsimp only at hfill
    subst hfill
    rfl

theorem readHttps_fails {os os' : HttpsStream} {consume need : Nat}
    (h : ¬ add64 (os.consumed + consume)
      (clampNeed (toInt64 (os.lengthRemaining - consume)) need) ≤ os.buf.length)
    (hfill : httpsFill (clampNeed (toInt64 (os.lengthRemaining - consume)) need)
      (compressed os consume) = (false, os')) :
    readHttps os consume need = some (⟨[], true⟩, { os' with lengthRemaining := 0 }) := by
  rw [readHttps_failed h (by rw [hfill]), hfill]

theorem clampNeed_eq {left need : Nat} (hleft : left < 2 ^ 63) (hneed : need < 2 ^ 63) :
    clampNeed left need = min need left := by
  unfold clampNeed
  rw [toInt64_of_range (by omega) (by omega), toSize_of_range (by omega) (by omega)]
  split <;> omega

/-- The condition on the state before a read under which it never asks for an empty
receive. -/
def SafeRead (os : HttpsStream) (consume need : Nat) : Prop :=
  SafeReceive os.isHttps (os.buf.length - (os.consumed + consume))
    (os.room + (os.consumed + consume)) (min need (os.lengthRemaining - consume).toNat)

/-- The stream has the bytes `rest` of a body left and knows it. -/
structure BodyLeft (rest : Bytes) (os : HttpsStream) : Prop where
  unread : os.unread = rest
  remaining : os.lengthRemaining = rest.length
  consumed_le : os.consumed ≤ os.buf.length
  small : rest.length < 2 ^ 63
  fits : os.consumed + rest.length < 2 ^ 64
  cut : ∀ i, 0 < os.conn.cut i

/-- The length of the window that can be offered without receiving. -/
def HttpsStream.lent (os : HttpsStream) : Nat := os.buf.length - os.consumed

theorem BodyLeft.length {rest : Bytes} {os : HttpsStream} (h : BodyLeft rest os) :
    rest.length = os.lent + os.conn.incoming.length := by
  have := congrArg List.length h.unread
  rw [HttpsStream.unread, List.length_append, List.length_drop] at this
  exact this.symm

/-- **One read of a body.** It serves the bytes that are left exactly if it is safe;
otherwise it takes the error path. -/
theorem readHttps_body {rest : Bytes} {os : HttpsStream} (h : BodyLeft rest os) {consume need : Nat}
    (hconsume : consume ≤ os.lent) (hneed : need < 2 ^ 63) :
    (SafeRead os consume need → ∃ w os', readHttps os consume need = some (w, os') ∧
      w.failed = false ∧ BodyLeft (rest.drop consume) os' ∧ w.bytes.length = os'.lent ∧
      Serves rest consume need w (rest.drop consume)) ∧
    (¬ SafeRead os consume need → ∃ os', readHttps os consume need = some (⟨[], true⟩, os')) := by
  have hlen := h.length
  have hsmall := h.small
  have hfits := h.fits
  have hle := h.consumed_le
  have hc : consume ≤ rest.length := by omega
  have hin : os.consumed + consume ≤ os.buf.length := by
    unfold HttpsStream.lent at hconsume
    omega
  have hleft : toInt64 (os.lengthRemaining - consume) = ((rest.length - consume : Nat) : Int) := by
    rw [h.remaining, toInt64_of_range (by omega) (by omega)]
    omega
  have hclamp : clampNeed (toInt64 (os.lengthRemaining - consume)) need =
      min need (rest.length - consume) := by
    rw [hleft, clampNeed_eq (by omega) hneed]
  have hadd : add64 (os.consumed + consume) (min need (rest.length - consume)) =
      os.consumed + consume + min need (rest.length - consume) := add64_of_lt (by omega)
  have hwant : (os.lengthRemaining - consume).toNat = rest.length - consume := by
    rw [h.remaining]
    omega
  have hrest : (os.buf.drop (os.consumed + consume)) ++ os.conn.incoming = rest.drop consume := by
    rw [← h.unread, HttpsStream.unread, List.drop_append_of_le_length, List.drop_drop]
    rw [List.length_drop]
    exact hconsume
  have hdrop : (rest.drop consume).length = rest.length - consume := List.length_drop
  by_cases hserved : os.consumed + consume + min need (rest.length - consume) ≤ os.buf.length
  · have hread := readHttps_served
      (by rw [hclamp, hadd]; exact hserved)
    refine ⟨fun _ => ⟨_, _, hread, rfl, ⟨hrest, ?_, hin, by omega, ?_, h.cut⟩, ?_, rfl, ?_, ?_⟩,
      fun hstalls => absurd ?_ hstalls⟩
    · rw [hdrop]
      exact hleft
    · dsimp only
      omega
    · simp only [HttpsStream.lent, List.length_drop]
    · rw [← hrest]
      exact List.prefix_append _ _
    · rw [hdrop]
      simp only [List.length_drop]
      omega
    · unfold SafeRead SafeReceive
      rw [hwant]
      omega
  · have hmiss : ¬ add64 (os.consumed + consume)
        (clampNeed (toInt64 (os.lengthRemaining - consume)) need) ≤ os.buf.length := by
      rw [hclamp, hadd]
      exact hserved
    have hhave : (compressed os consume).buf.length = os.buf.length - (os.consumed + consume) :=
      List.length_drop
    constructor
    · intro hsafe
      have hsum : (compressed os consume).buf.length +
          (compressed os consume).conn.incoming.length = rest.length - consume := by
        rw [← hdrop, ← hrest, List.length_append]
        rfl
      obtain ⟨os', hfill, hfilled, hlong⟩ := httpsFill_spec
          (clampNeed (toInt64 (os.lengthRemaining - consume)) need) (compressed os consume) h.cut
          (by rw [hclamp, hhave, ← hwant]; exact hsafe) (by rw [hclamp, hsum]; omega)
          (by rw [hsum]; exact le_of_eq hleft.symm)
      have hbytes : os'.buf ++ os'.conn.incoming = rest.drop consume :=
        hfilled.bytes.trans hrest
      refine ⟨_, os', readHttps_filled hmiss hfill, rfl, ⟨?_, ?_, ?_, by omega, ?_, ?_⟩, ?_, rfl,
        ?_, ?_⟩
      · rw [HttpsStream.unread, hfilled.consumed]
        exact hbytes
      · rw [hfilled.lengthRemaining, hdrop]
        exact hleft
      · rw [hfilled.consumed]
        exact Nat.zero_le _
      · rw [hfilled.consumed, hdrop]
        show 0 + _ < _
        omega
      · rw [hfilled.cut]
        exact h.cut
      · rw [HttpsStream.lent, hfilled.consumed]
        rfl
      · rw [← hbytes]
        exact List.prefix_append _ _
      · rw [hclamp] at hlong
        rw [hdrop]
        exact hlong
    · intro hstalls
      refine ⟨_, readHttps_failed hmiss (httpsFill_stalls ?_)⟩
      rw [hclamp, hhave, ← hwant]
      exact hstalls

/-! ## Runs over a body -/

/-- In a run of safe reads the bytes left are those behind what has been consumed. -/
theorem run_bodyLeft {body : Bytes} {os s : HttpsStream} {lent total : Nat}
    (hos : BodyLeft body os)
    (hrun : Run readHttps (fun s consume need => need < 2 ^ 63 ∧ SafeRead s consume need)
      os s lent total) :
    BodyLeft (body.drop total) s ∧ lent ≤ s.lent ∧ total ≤ body.length := by
  induction hrun with
  | start => exact ⟨hos, Nat.zero_le _, Nat.zero_le _⟩
  | @read s s' lent total consume need w hrun hconsume hok hread ih =>
    obtain ⟨hs, hlent, htotal⟩ := ih
    obtain ⟨w', s'', hread', -, hs', hlen, -⟩ :=
      (readHttps_body hs (hconsume.trans hlent) hok.1).1 hok.2
    rw [hread] at hread'
    cases hread'
    rw [List.drop_drop] at hs'
    have hleft := hs.length
    rw [List.length_drop] at hleft
    exact ⟨hs', hlen.le, by omega⟩

end ToolchainTools
