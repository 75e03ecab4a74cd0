import ToolchainTools.Stream.Buffer
import ToolchainTools.Stream.Xz

/-!
# Reading through the xz filter

`XzDecodes` says what `read_xz` relies on: a decoder that takes the bytes of one stream and
puts out its data, makes progress whenever it has input and room, and reports the end with
the last byte it takes. Over such a decoder and a source that keeps the read contract, the
filter keeps the contract for the decoded data. A round of its loop feeds the decoder or
reads a longer window; what is left to take and to put out bounds the number of rounds.
-/

namespace ToolchainTools

open CLib Streams

variable {σ ξ : Type} {read : Reader σ} {X : XzDecoder ξ} {enc dec : Bytes}

/-! ## The decoder -/

/-- What one call of the decoder does, from a state in the middle of the stream. -/
structure XzCall (enc dec : Bytes) (live : ξ → Prop) (fed made : ξ → Bytes) (x : ξ)
    (input : Bytes) (room : Nat) (r : XzResult ξ) : Prop where
  taken_le : r.taken ≤ input.length
  out_le : r.out.length ≤ room
  fed_eq : fed r.x = fed x ++ input.take r.taken
  made_eq : made r.x = made x ++ r.out
  inside : fed r.x <+: enc
  data : made r.x <+: dec
  progress : 0 < r.taken + r.out.length
  goes_on : fed r.x ≠ enc → r.code = 0 ∧ live r.x
  ends : fed r.x = enc → r.code = xzStreamEnd ∧ made r.x = dec

/-- The decoder decodes the stream `enc` to `dec`. `fed` is what it has taken so far, `made`
what it has put out, and `live` holds before the end. -/
structure XzDecodes (X : XzDecoder ξ) (enc dec : Bytes) where
  live : ξ → Prop
  fed : ξ → Bytes
  made : ξ → Bytes
  inside : ∀ x, live x → fed x <+: enc ∧ fed x ≠ enc
  start : ∀ x, X.init = some x → live x ∧ fed x = [] ∧ made x = []
  call : ∀ x input room, live x → input ≠ [] → 0 < room →
    (fed x ++ input <+: enc ∨ enc <+: fed x ++ input) →
    XzCall enc dec live fed made x input room (X.run x input room)

/-! ## The state of the filter -/

namespace XzStream

/-- The bytes of the decoded data that have not been consumed. -/
def rest (D : XzDecodes X enc dec) (ds : XzStream ξ σ) : Bytes :=
  ds.out.drop ds.consumed ++ dec.drop (D.made ds.x).length

def lent (ds : XzStream ξ σ) : Nat := ds.out.length - ds.consumed

/-- The decoder is fed the bytes `src` of the source in order: what it has taken, followed by
what the source has behind `in_pos`, is all of them. -/
structure Valid (D : XzDecodes X enc dec) (C : Contract read) (src : Bytes)
    (ds : XzStream ξ σ) : Prop where
  source : C.valid ds.source
  window : ds.input <+: C.rest ds.source
  lent_le : ds.input.length ≤ C.lent ds.source
  inPos_le : ds.inPos ≤ ds.input.length
  inPos_fed : ds.inPos ≤ (D.fed ds.x).length
  order : D.fed ds.x ++ (C.rest ds.source).drop ds.inPos = src
  data : D.made ds.x <+: dec
  under_way : ds.finished = false → D.live ds.x
  ended : ds.finished = true → D.made ds.x = dec
  consumed_le : ds.consumed ≤ ds.out.length
  out_le : ds.out.length ≤ (D.made ds.x).length

/-- What is left to take and to put out, and whether the window has been used up. -/
def toDo (D : XzDecodes X enc dec) (ds : XzStream ξ σ) : Nat :=
  2 * ((enc.length - (D.fed ds.x).length) + (dec.length - (D.made ds.x).length)) +
    if ds.inPos < ds.input.length then 0 else 1

end XzStream

/-- A round keeps the bytes of the data in their order. -/
structure SameData (D : XzDecodes X enc dec) (ds ds' : XzStream ξ σ) : Prop where
  consumed : ds'.consumed = ds.consumed
  data : ds'.out ++ dec.drop (D.made ds'.x).length = ds.out ++ dec.drop (D.made ds.x).length

section Rounds

variable {D : XzDecodes X enc dec} {C : Contract read} {src : Bytes} {ds : XzStream ξ σ}

/-- Before the end of the stream the source has more bytes. -/
theorem XzStream.Valid.more (hv : ds.Valid D C src) (henc : enc <+: src)
    (hlive : ds.finished = false) : (C.rest ds.source).drop ds.inPos ≠ [] := by
  obtain ⟨hinside, hne⟩ := D.inside _ (hv.under_way hlive)
  intro hnil
  have horder := hv.order
  rw [hnil, List.append_nil] at horder
  apply hne
  exact hinside.eq_of_length_le (horder ▸ henc.length_le)

theorem XzStream.Valid.length_rest (hv : ds.Valid D C src) :
    (C.rest ds.source).length ≤ src.length := by
  have hlen := congrArg List.length hv.order
  have hle := hv.inPos_fed
  rw [List.length_append, List.length_drop] at hlen
  omega

/-- More data can be had: the next window is longer than what is left of this one. -/
theorem xzUpstream_spec (hv : ds.Valid D C src) (henc : enc <+: src)
    (hsmall : src.length + 1 < 2 ^ 63) (hlive : ds.finished = false) :
    ∃ ds' bad, xzUpstream read ds = (.again ds', bad) ∧ ds'.Valid D C src ∧
      ds'.finished = false ∧ ds'.x = ds.x ∧ SameData D ds ds' ∧ ds'.inPos < ds'.input.length := by
  have hrest := hv.length_rest
  have hinput := hv.window.length_le
  have hneed : add64 ds.input.length 1 = ds.input.length + 1 := add64_of_lt (by omega)
  obtain ⟨w, source, hread, hvalid, hlent, hserve⟩ :=
    C.serve ds.source ds.inPos (ds.input.length + 1) hv.source (hv.inPos_le.trans hv.lent_le)
      (by omega)
  have hpos : 0 < w.bytes.length := by
    have hmore := List.length_pos_iff.mpr (hv.more henc hlive)
    have henough := hserve.enough
    rw [hserve.rest_eq] at henough
    omega
  refine ⟨{ ds with source := source, input := w.bytes, inPos := 0 }, w.failed, ?_, ?_, hlive, rfl,
    ⟨rfl, rfl⟩, hpos⟩
  · unfold xzUpstream
    rw [hneed, hread]
    dsimp only
    rw [if_neg (by omega)]
  · refine ⟨hvalid, hserve.initial, hlent.ge, Nat.zero_le _, Nat.zero_le _, ?_, hv.data,
      hv.under_way, hv.ended, hv.consumed_le, hv.out_le⟩
    dsimp only
    rw [List.drop_zero, hserve.rest_eq]
    exact hv.order

/-- What a call of the decoder leaves behind: more of the stream is taken or more of the data
is put out. -/
theorem xzRun_spec (hv : ds.Valid D C src) (henc : enc <+: src) (hlive : ds.finished = false)
    (hmore : ds.inPos < ds.input.length) {ds' : XzStream ξ σ} {err : Int} {produced : Nat}
    (hrun : xzRun X ds = (err, produced, ds')) :
    SameData D ds ds' ∧ ds'.finished = false ∧
      (D.fed ds.x).length + (D.made ds.x).length <
        (D.fed ds'.x).length + (D.made ds'.x).length ∧
      (D.fed ds'.x).length ≤ enc.length ∧ (D.made ds'.x).length ≤ dec.length ∧
      (D.fed ds.x).length ≤ (D.fed ds'.x).length ∧
      (D.made ds.x).length ≤ (D.made ds'.x).length ∧
      ((err = 0 ∧ ds'.Valid D C src) ∨
        (err = xzStreamEnd ∧ D.made ds'.x = dec ∧
          { ds' with finished := true }.Valid D C src)) := by
  obtain ⟨tail, htail⟩ := hv.window
  have hpiece : (C.rest ds.source).drop ds.inPos = ds.input.drop ds.inPos ++ tail := by
    rw [← htail, List.drop_append_of_le_length hv.inPos_le]
  have hroom : 0 < if ds.room = 0 then growth else ds.room := by
    unfold growth
    split <;> omega
  have hagree : D.fed ds.x ++ ds.input.drop ds.inPos <+: enc ∨
      enc <+: D.fed ds.x ++ ds.input.drop ds.inPos := by
    refine List.prefix_or_prefix_of_prefix ⟨tail, ?_⟩ henc
    rw [List.append_assoc, ← hpiece]
    exact hv.order
  have hcall := D.call ds.x (ds.input.drop ds.inPos) _ (hv.under_way hlive)
    (by rw [ne_eq, List.drop_eq_nil_iff]; omega) hroom hagree
  unfold xzRun at hrun
  dsimp only at hrun
  generalize X.run ds.x (ds.input.drop ds.inPos) (if ds.room = 0 then growth else ds.room) = r
    at hrun hcall
  simp only [Prod.mk.injEq] at hrun
  obtain ⟨rfl, -, rfl⟩ := hrun
  have htaken := hcall.taken_le
  rw [List.length_drop] at htaken
  have hfed := congrArg List.length hcall.fed_eq
  have hmade := congrArg List.length hcall.made_eq
  rw [List.length_append, List.length_take, List.length_drop] at hfed
  rw [List.length_append] at hmade
  have hprogress := hcall.progress
  have horder : D.fed r.x ++ (C.rest ds.source).drop (ds.inPos + r.taken) = src := by
    rw [hcall.fed_eq, ← List.drop_drop, hpiece, List.append_assoc,
      ← List.take_append_of_le_length hcall.taken_le, List.take_append_drop, ← hpiece]
    exact hv.order
  have hconsumed := hv.consumed_le
  have hout := hv.out_le
  have hinPos := hv.inPos_fed
  have hsame : SameData D ds
      { ds with
        x := r.x
        inPos := ds.inPos + r.taken
        out := ds.out ++ r.out
        room := (if ds.room = 0 then growth else ds.room) - r.out.length } := by
    refine ⟨rfl, ?_⟩
    have hdata := hcall.data
    rw [hcall.made_eq] at hdata
    dsimp only
    rw [hcall.made_eq, List.append_assoc, append_drop_of_prefix hdata]
  refine ⟨hsame, hlive, ?_, hcall.inside.length_le, hcall.data.length_le, ?_, ?_, ?_⟩
  · dsimp only
    omega
  · dsimp only
    omega
  · dsimp only
    omega
  · have hlong : (ds.out ++ r.out).length ≤ (D.made r.x).length := by
      rw [List.length_append]
      omega
    have hconsumed' : ds.consumed ≤ (ds.out ++ r.out).length := by
      rw [List.length_append]
      omega
    by_cases hend : D.fed r.x = enc
    · obtain ⟨hcode, hall⟩ := hcall.ends hend
      exact Or.inr ⟨hcode, hall, hv.source, hv.window, hv.lent_le, by dsimp only; omega,
        by dsimp only; omega, horder, hcall.data, by simp, fun _ => hall, hconsumed', hlong⟩
    · obtain ⟨hcode, hlive'⟩ := hcall.goes_on hend
      exact Or.inl ⟨hcode, hv.source, hv.window, hv.lent_le, by dsimp only; omega,
        by dsimp only; omega, horder, hcall.data, fun _ => hlive',
        fun h => absurd (hlive.symm.trans h) (by simp), hconsumed', hlong⟩

/-- One round of the loop: it comes nearer to the end, or it comes to the end. -/
theorem xzRound_spec (hv : ds.Valid D C src) (henc : enc <+: src)
    (hsmall : src.length + 1 < 2 ^ 63) (hlive : ds.finished = false) :
    ∃ ds' bad, SameData D ds ds' ∧ ds'.Valid D C src ∧
      ((xzRound X read ds = (.again ds', bad) ∧ ds'.finished = false ∧
          ds'.toDo D < ds.toDo D) ∨
        (xzRound X read ds = (.leave ds', bad) ∧ ds'.finished = true)) := by
  by_cases hmore : ds.inPos < ds.input.length
  · cases hrun : xzRun X ds with
    | mk err rest =>
      obtain ⟨produced, ds₁⟩ := rest
      obtain ⟨hsame, hlive₁, hprogress, hfed, hmade, hfed', hmade', hcode⟩ :=
        xzRun_spec hv henc hlive hmore hrun
      have hless : 2 * ((enc.length - (D.fed ds₁.x).length) +
          (dec.length - (D.made ds₁.x).length)) + 2 ≤ ds.toDo D := by
        unfold XzStream.toDo
        omega
      rcases hcode with ⟨rfl, hv₁⟩ | ⟨rfl, -, hv₁⟩
      · by_cases hproduced : produced = 0
        · obtain ⟨ds', bad, hup, hv', hlive', hx, hsame', -⟩ :=
            xzUpstream_spec hv₁ henc hsmall hlive₁
          refine ⟨ds', bad, ⟨hsame'.consumed.trans hsame.consumed, hsame'.data.trans hsame.data⟩,
            hv', Or.inl ⟨?_, hlive', ?_⟩⟩
          · unfold xzRound
            rw [if_pos hmore, hrun]
            simp only [xzStreamEnd, hproduced]
            exact hup
          · unfold XzStream.toDo
            rw [hx]
            split <;> omega
        · refine ⟨ds₁, false, hsame, hv₁, Or.inl ⟨?_, hlive₁, ?_⟩⟩
          · unfold xzRound
            rw [if_pos hmore, hrun]
            simp [xzStreamEnd, hproduced]
          · unfold XzStream.toDo
            split <;> omega
      · refine ⟨{ ds₁ with finished := true }, false, ⟨hsame.consumed, hsame.data⟩, hv₁,
          Or.inr ⟨?_, rfl⟩⟩
        unfold xzRound
        rw [if_pos hmore, hrun]
        simp
  · obtain ⟨ds', bad, hup, hv', hlive', hx, hsame, hinput⟩ :=
      xzUpstream_spec hv henc hsmall hlive
    refine ⟨ds', bad, hsame, hv', Or.inl ⟨?_, hlive', ?_⟩⟩
    · unfold xzRound
      rw [if_neg hmore]
      exact hup
    · unfold XzStream.toDo
      rw [hx, if_pos hinput, if_neg hmore]
      omega

/-- The loop ends, and it stops short of `need` only at the end of the data. -/
theorem xzLoop_spec (hv : ds.Valid D C src) (henc : enc <+: src)
    (hsmall : src.length + 1 < 2 ^ 63) (hlive : ds.finished = false) (need : Nat) {fuel : Nat}
    (hfuel : ds.toDo D < fuel) (failed : Bool) :
    ∃ w ds', xzLoop X read need fuel ds failed = some (w, ds') ∧ ds'.Valid D C src ∧
      SameData D ds ds' ∧ w.bytes = ds'.out ∧ (need ≤ ds'.out.length ∨ ds'.finished = true) := by
  induction fuel generalizing ds failed with
  | zero => omega
  | succ fuel ih =>
    obtain ⟨ds₁, bad, hsame, hv₁, hround⟩ := xzRound_spec hv henc hsmall hlive
    unfold xzLoop
    rcases hround with ⟨hagain, hlive₁, hless⟩ | ⟨hleave, hend⟩
    · rw [hagain]
      dsimp only
      split
      · obtain ⟨w, ds', hloop, hv', hsame', hw, hstop⟩ :=
          ih hv₁ hlive₁ (by omega) (failed || bad)
        exact ⟨w, ds', hloop, hv',
          ⟨hsame'.consumed.trans hsame.consumed, hsame'.data.trans hsame.data⟩, hw, hstop⟩
      · rename_i henough
        exact ⟨_, ds₁, rfl, hv₁, hsame, rfl, Or.inl (by omega)⟩
    · rw [hleave]
      exact ⟨_, ds₁, rfl, hv₁, hsame, rfl, Or.inr hend⟩

/-- One read through the filter. -/
theorem readXz_serve (hv : ds.Valid D C src) (henc : enc <+: src)
    (hsmall : src.length + 1 < 2 ^ 63) (hdec : dec.length < 2 ^ 63) {fuel consume need : Nat}
    (hfuel : 2 * (enc.length + dec.length) + 1 < fuel) (hconsume : consume ≤ ds.lent)
    (hneed : need < 2 ^ 63) :
    ∃ w ds', readXz X read fuel ds consume need = some (w, ds') ∧ ds'.Valid D C src ∧
      ds'.lent = w.bytes.length ∧ Serves (ds.rest D) consume need w (ds'.rest D) := by
  have hle := hv.consumed_le
  have hout := hv.out_le
  have hmade := hv.data.length_le
  have hin : ds.consumed + consume ≤ ds.out.length := by
    unfold XzStream.lent at hconsume
    omega
  have hadd : add64 (ds.consumed + consume) need = ds.consumed + consume + need :=
    add64_of_lt (by omega)
  have hrest : (ds.rest D).drop consume =
      ds.out.drop (ds.consumed + consume) ++ dec.drop (D.made ds.x).length := by
    unfold XzStream.rest
    rw [List.drop_append_of_le_length (by rw [List.length_drop]; omega), List.drop_drop]
  unfold readXz
  dsimp only
  rw [hadd]
  split
  · rename_i hserved
    refine ⟨_, _, rfl, ⟨hv.source, hv.window, hv.lent_le, hv.inPos_le, hv.inPos_fed, hv.order,
      hv.data, hv.under_way, hv.ended, hin, hv.out_le⟩, ?_, hrest.symm, List.prefix_append _ _, ?_⟩
    · simp only [XzStream.lent, List.length_drop]
    · simp only [XzStream.rest, List.length_append, List.length_drop]
      rcases Bool.eq_false_or_eq_true ds.finished with hend | hlive
      · rw [hv.ended hend]
        omega
      · have hlong : ds.consumed + consume + need ≤ ds.out.length := by
          simpa [hlive] using hserved
        omega
  · rename_i hmiss
    have hlive : ds.finished = false := by
      rw [Bool.or_eq_true, not_or] at hmiss
      simpa using hmiss.1
    have hshort : (ds.out.drop (ds.consumed + consume)).length ≤ (D.made ds.x).length := by
      rw [List.length_drop]
      omega
    have hcompressed : XzStream.Valid D C src { ds with
        out := ds.out.drop (ds.consumed + consume)
        room := ds.room + (ds.consumed + consume)
        consumed := 0 } :=
      ⟨hv.source, hv.window, hv.lent_le, hv.inPos_le, hv.inPos_fed, hv.order, hv.data,
        hv.under_way, hv.ended, Nat.zero_le _, hshort⟩
    obtain ⟨w, ds', hloop, hv', hsame, hw, hstop⟩ := xzLoop_spec hcompressed henc hsmall hlive need
      (show _ < fuel by unfold XzStream.toDo; dsimp only; split <;> omega) false
    have hzero : ds'.consumed = 0 := hsame.consumed
    have hrest' : ds'.rest D = ds'.out ++ dec.drop (D.made ds'.x).length := by
      rw [XzStream.rest, hzero, List.drop_zero]
    refine ⟨w, ds', hloop, hv', ?_, ?_, ?_, ?_⟩
    · rw [XzStream.lent, hzero, hw]
      rfl
    · rw [hrest, hrest', hsame.data]
    · rw [hrest', hw]
      exact List.prefix_append _ _
    · rw [hrest', hw, List.length_append, List.length_drop]
      rcases hstop with hlong | hend
      · omega
      · rw [hv'.ended hend]
        omega

end Rounds

/-- The filter keeps the read contract for the decoded data. -/
def xzContract (D : XzDecodes X enc dec) (C : Contract read) (src : Bytes) (henc : enc <+: src)
    (hsmall : src.length + 1 < 2 ^ 63) (hdec : dec.length < 2 ^ 63) {fuel : Nat}
    (hfuel : 2 * (enc.length + dec.length) + 1 < fuel) : Contract (readXz X read fuel) where
  valid ds := ds.Valid D C src
  rest ds := ds.rest D
  lent := XzStream.lent
  lent_le ds hv := by
    have := hv.consumed_le
    simp only [XzStream.lent, XzStream.rest, List.length_append, List.length_drop]
    omega
  serve _ _ _ hv hconsume hneed := readXz_serve hv henc hsmall hdec hfuel hconsume hneed

/-- **Reading through the xz filter.** For every decoder that decodes `enc` to `dec`, every
source that keeps the read contract and starts with `enc`, and every run of reads: the
decoder has been fed the bytes of the source in order, and every further read returns, with
a window on the decoded data behind what has been consumed, as long as was asked for or as
is left. -/
theorem read_xz_refines (D : XzDecodes X enc dec) (C : Contract read) {s : σ} (hv : C.valid s)
    (henc : enc <+: C.rest s) (hsmall : (C.rest s).length + 1 < 2 ^ 63)
    (hdec : dec.length < 2 ^ 63) {fuel : Nat} (hfuel : 2 * (enc.length + dec.length) + 1 < fuel)
    {ds₀ ds : XzStream ξ σ} (hopen : openXzDecoder X s = some ds₀) {lent total : Nat}
    (hrun : Run (readXz X read fuel) (fun _ _ need => need < 2 ^ 63) ds₀ ds lent total) :
    total ≤ dec.length ∧ D.fed ds.x ++ (C.rest ds.source).drop ds.inPos = C.rest s ∧
      ∀ consume need, consume ≤ lent → need < 2 ^ 63 →
        ∃ w ds', readXz X read fuel ds consume need = some (w, ds') ∧
          w.bytes <+: dec.drop (total + consume) ∧
          min need (dec.length - (total + consume)) ≤ w.bytes.length := by
  have hv₀ : ds₀.Valid D C (C.rest s) ∧ ds₀.rest D = dec := by
    unfold openXzDecoder at hopen
    rw [Option.map_eq_some_iff] at hopen
    obtain ⟨x, hinit, rfl⟩ := hopen
    obtain ⟨hlive, hfed, hmade⟩ := D.start x hinit
    refine ⟨⟨hv, List.nil_prefix, Nat.zero_le _, le_rfl, Nat.zero_le _, ?_, ?_, fun _ => hlive,
      by simp, le_rfl, Nat.zero_le _⟩, ?_⟩
    · rw [hfed]
      rfl
    · rw [hmade]
      exact List.nil_prefix
    · rw [XzStream.rest, hmade]
      rfl
  obtain ⟨hvalid, hrest, hlent, htotal⟩ :=
    (xzContract D C (C.rest s) henc hsmall hdec hfuel).run_rest hv₀.1 hrun
  have hrest' : ds.rest D = dec.drop total := hrest.trans (congrArg (List.drop total) hv₀.2)
  refine ⟨htotal.trans_eq (congrArg List.length hv₀.2), hvalid.order, ?_⟩
  intro consume need hconsume hneed
  obtain ⟨w, ds', hread, -, -, hserve⟩ :=
    readXz_serve hvalid henc hsmall hdec hfuel (hconsume.trans hlent) hneed
  have hprefix := hserve.initial
  have henough := hserve.enough
  rw [hserve.rest_eq, hrest', List.drop_drop] at hprefix henough
  rw [List.length_drop] at henough
  exact ⟨w, ds', hread, hprefix, henough⟩

/-! ## A stored block -/

section Stored

/-- The data put out when `n` bytes have been taken of a stream that stores `count` bytes of
data from its byte `first` on. -/
def storedData (enc : Bytes) (first count n : Nat) : Bytes := ((enc.take n).drop first).take count

theorem length_storedData (enc : Bytes) (first count n : Nat) :
    (storedData enc first count n).length = min count (min n enc.length - first) := by
  simp [storedData]

theorem storedData_prefix (enc : Bytes) (first count n k : Nat) :
    storedData enc first count n <+: storedData enc first count (n + k) := by
  unfold storedData
  apply List.IsPrefix.take
  apply List.IsPrefix.drop
  exact List.take_prefix_take_left (Nat.le_add_right n k)

/-- How many bytes are taken at place `n`: all there are, or up to the one for which there is
no room. -/
def storedTaken (enc : Bytes) (first count n len room : Nat) : Nat :=
  let most := min len (enc.length - n)
  let old := (storedData enc first count n).length
  if (storedData enc first count (n + most)).length - old ≤ room then most
  else first + old + room - n

/-- The decoder of a stream with a single stored block; its state is the number of bytes it
has taken. -/
def storedDecoder (enc : Bytes) (first count : Nat) : XzDecoder Nat where
  init := some 0
  run n input room :=
    let k := storedTaken enc first count n input.length room
    ⟨if n + k = enc.length then xzStreamEnd else 0, k,
      (storedData enc first count (n + k)).drop (storedData enc first count n).length, n + k⟩

theorem storedTaken_spec {enc : Bytes} {first count n len room : Nat}
    (hn : n < enc.length) (hlen : 0 < len) (hroom : 0 < room) :
    storedTaken enc first count n len room ≤ len ∧
      n + storedTaken enc first count n len room ≤ enc.length ∧
      (storedData enc first count (n + storedTaken enc first count n len room)).length -
        (storedData enc first count n).length ≤ room ∧
      (0 < storedTaken enc first count n len room ∨
        (storedData enc first count n).length <
          (storedData enc first count (n + storedTaken enc first count n len room)).length) := by
  unfold storedTaken
  simp only [length_storedData]
  split <;> omega

theorem storedData_all {enc : Bytes} {first count n : Nat} (h : enc.length ≤ n) :
    storedData enc first count n = (enc.drop first).take count := by
  rw [storedData, List.take_of_length_le h]

/-- What is taken of an input that agrees with the stream are bytes of the stream. -/
theorem take_append_take {enc input : Bytes} {n k : Nat} (hk : k ≤ input.length)
    (hn : n + k ≤ enc.length)
    (hagree : enc.take n ++ input <+: enc ∨ enc <+: enc.take n ++ input) :
    enc.take (n + k) = enc.take n ++ input.take k := by
  have hlen : (enc.take n ++ input.take k).length = n + k := by
    rw [List.length_append, List.length_take, List.length_take]
    omega
  have hpre : enc.take n ++ input.take k <+: enc.take n ++ input :=
    (List.prefix_append_right_inj _).mpr (List.take_prefix _ _)
  have henc : enc.take n ++ input.take k <+: enc := by
    rcases hagree with h | h
    · exact hpre.trans h
    · exact List.prefix_of_prefix_length_le hpre h (by omega)
  exact (List.prefix_iff_eq_take.mp henc ▸ hlen ▸ rfl)

def storedDecodes (enc : Bytes) (first count : Nat) (hin : first + count < enc.length) :
    XzDecodes (storedDecoder enc first count) enc ((enc.drop first).take count) where
  live n := n < enc.length
  fed n := enc.take n
  made n := storedData enc first count n
  inside n hn := by
    refine ⟨List.take_prefix _ _, fun h => ?_⟩
    have := congrArg List.length h
    rw [List.length_take] at this
    omega
  start n hinit := by
    cases hinit
    exact ⟨by omega, rfl, by simp [storedData]⟩
  call n input room hn hinput hroom hagree := by
    obtain ⟨htaken, hend, hfits, hprogress⟩ := storedTaken_spec
      hn (List.length_pos_iff.mpr hinput) hroom
    generalize hk : storedTaken enc first count n input.length room = k at *
    have hrun : (storedDecoder enc first count).run n input room =
        ⟨if n + k = enc.length then xzStreamEnd else 0, k,
          (storedData enc first count (n + k)).drop (storedData enc first count n).length,
          n + k⟩ := by
      simp only [storedDecoder, hk]
    rw [hrun]
    have hmade : storedData enc first count (n + k) = storedData enc first count n ++
        (storedData enc first count (n + k)).drop (storedData enc first count n).length := by
      obtain ⟨tail, htail⟩ := storedData_prefix enc first count n k
      rw [← htail, List.drop_left]
    refine ⟨htaken, ?_, take_append_take htaken hend hagree, hmade, List.take_prefix _ _, ?_, ?_, ?_,
      ?_⟩
    · rw [List.length_drop]
      exact hfits
    · rw [← storedData_all (Nat.le_add_left enc.length (n + k))]
      exact storedData_prefix enc first count (n + k) enc.length
    · rw [List.length_drop]
      dsimp only
      omega
    · intro hne
      have hlt : n + k ≠ enc.length := fun h => hne (List.take_of_length_le h.ge)
      exact ⟨if_neg hlt, Nat.lt_of_le_of_ne hend hlt⟩
    · intro heq
      have hlen : (enc.take (n + k)).length = enc.length := congrArg List.length heq
      rw [List.length_take] at hlen
      have hall : n + k = enc.length := by omega
      exact ⟨if_pos hall, storedData_all hall.ge⟩

/-- The two bytes `ab` as an xz stream. -/
def abXz : Bytes :=
  [253, 55, 122, 88, 90, 0, 0, 0, 255, 18, 217, 65, 2, 0, 33, 1, 22, 0, 0, 0, 116, 47, 229, 163,
    1, 0, 1, 97, 98, 0, 0, 0, 0, 1, 18, 2, 212, 164, 124, 182, 6, 114, 158, 122, 1, 0, 0, 0, 0, 0,
    89, 90]

/-- Three reads of one byte each; the last one finds the end. -/
theorem read_xz_refines_ab :
    ∃ ds₀ ds₁ ds₂ ds₃ w₁ w₂ w₃,
      openXzDecoder (storedDecoder abXz 27 2) (openBufferStream abXz) = some ds₀ ∧
      readXz (storedDecoder abXz 27 2) readBuffer 120 ds₀ 0 1 = some (w₁, ds₁) ∧
      readXz (storedDecoder abXz 27 2) readBuffer 120 ds₁ 1 1 = some (w₂, ds₂) ∧
      readXz (storedDecoder abXz 27 2) readBuffer 120 ds₂ 1 1 = some (w₃, ds₃) ∧
      1 ≤ w₁.bytes.length ∧ w₁.bytes <+: [97, 98] ∧ w₂.bytes = [98] ∧ w₃.bytes = [] := by
  have hserve : ∀ {ds : XzStream Nat BufStream} {lent total : Nat},
      Run (readXz (storedDecoder abXz 27 2) readBuffer 120) (fun _ _ need => need < 2 ^ 63)
        ⟨0, false, openBufferStream abXz, [], 0, [], 0, 0⟩ ds lent total → _ := fun hrun =>
    (read_xz_refines (storedDecodes abXz 27 2 (by decide)) bufferContract
      (s := openBufferStream abXz) trivial List.prefix_rfl (by decide) (by decide) (by decide)
      rfl hrun).2.2
  have hstart : Run (readXz (storedDecoder abXz 27 2) readBuffer 120)
      (fun _ _ need => need < 2 ^ 63) ⟨0, false, openBufferStream abXz, [], 0, [], 0, 0⟩ _ 0 0 := .start
  obtain ⟨w₁, ds₁, hread₁, hpre₁, hlen₁⟩ := hserve hstart 0 1 le_rfl (by norm_num)
  have hrun₁ := hstart.read le_rfl (by norm_num) hread₁
  obtain ⟨w₂, ds₂, hread₂, hpre₂, hlen₂⟩ := hserve hrun₁ 1 1 hlen₁ (by norm_num)
  have hrun₂ := hrun₁.read hlen₁ (by norm_num) hread₂
  obtain ⟨w₃, ds₃, hread₃, hpre₃, -⟩ := hserve hrun₂ 1 1 hlen₂ (by norm_num)
  exact ⟨_, ds₁, ds₂, ds₃, w₁, w₂, w₃, rfl, hread₁, hread₂, hread₃, hlen₁, hpre₁,
    hpre₂.eq_of_length_le hlen₂, List.prefix_nil.mp hpre₃⟩

end Stored

end ToolchainTools
