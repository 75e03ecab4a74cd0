import ToolchainTools.Stream.Buffer
import ToolchainTools.Stream.XzRuns

/-!
# Reading through the inflate filter

`Inflates` says what `read_zlib` relies on: an incremental decoder that makes progress
whenever it has input and room, and that may have taken the whole stream while it still
holds data for which there was no room. At the end of the source `read_zlib` passes
`Z_FINISH`, and `inflate` then answers `Z_BUF_ERROR` unless the room is enough for all that
is left. A consumer that has taken a little of a full buffer brings `read_zlib` to this
point; `RoomEnough` is the exact condition under which a read does not come to it.
-/

namespace ToolchainTools

open CLib Streams

variable {σ ζ : Type} {read : Reader σ} {Z : Codec ζ} {enc dec : Bytes}

/-! ## The decoder -/

/-- What a call without `Z_FINISH` does. If it takes the end of the stream without reporting
the end, it is because the room is full. -/
structure InflateCall (enc dec : Bytes) (live : ζ → Prop) (fed made : ζ → Bytes) (z : ζ)
    (input : Bytes) (room : Nat) (r : ZResult ζ) : Prop where
  taken_le : r.taken ≤ input.length
  out_le : r.out.length ≤ room
  fed_eq : fed r.z = fed z ++ input.take r.taken
  made_eq : made r.z = made z ++ r.out
  inside : fed r.z <+: enc
  data : made r.z <+: dec
  progress : 0 < r.taken + r.out.length
  ends : r.code = zStreamEnd → fed r.z = enc ∧ made r.z = dec
  goes_on : r.code ≠ zStreamEnd → r.code = 0 ∧ live r.z ∧ (fed r.z = enc → r.out.length = room)

/-- What a call with `Z_FINISH` does once the whole stream has been taken. -/
structure FinishCall (dec : Bytes) (fed made : ζ → Bytes) (z : ζ) (room : Nat)
    (r : ZResult ζ) : Prop where
  out_le : r.out.length ≤ room
  fed_eq : fed r.z = fed z
  made_eq : made r.z = made z ++ r.out
  data : made r.z <+: dec
  ends : dec.length - (made z).length ≤ room → r.code = zStreamEnd ∧ made r.z = dec
  stops : room < dec.length - (made z).length → r.code = zBufError

/-- The decoder inflates the stream `enc` to `dec`. `fed` is what it has taken so far, `made`
what it has put out, and `live` holds until it has reported the end. What it holds when it has
taken the whole stream, a match and what the codes in the last byte stand for, fits into one
step of the buffer. -/
structure Inflates (Z : Codec ζ) (enc dec : Bytes) where
  live : ζ → Prop
  fed : ζ → Bytes
  made : ζ → Bytes
  held : ∀ z, live z → fed z = enc → dec.length - (made z).length ≤ growth
  start : ∀ z, Z.init = some z → live z ∧ fed z = [] ∧ made z = []
  call : ∀ z input room, live z → input ≠ [] → 0 < room → fed z ++ input <+: enc →
    InflateCall enc dec live fed made z input room (Z.run z input room 0)
  finish : ∀ z room, live z → fed z = enc → 0 < room →
    FinishCall dec fed made z room (Z.run z [] room zFinish)

/-! ## The state of the filter -/

namespace ZlibStream

/-- The bytes of the inflated data that have not been consumed. -/
def rest (D : Inflates Z enc dec) (ds : ZlibStream ζ σ) : Bytes :=
  ds.buf.drop ds.consumed ++ dec.drop (D.made ds.z).length

def lent (ds : ZlibStream ζ σ) : Nat := ds.buf.length - ds.consumed

/-- How many bytes of the window have been taken. -/
def used (ds : ZlibStream ζ σ) : Nat := ds.readIn - ds.nextIn.length

structure Valid (D : Inflates Z enc dec) (C : Contract read) (ds : ZlibStream ζ σ) : Prop where
  source : C.valid ds.source
  readIn_le : ds.readIn ≤ C.lent ds.source
  nextIn_le : ds.nextIn.length ≤ ds.readIn
  nextIn_small : ds.nextIn.length < 2 ^ 32
  window : ds.nextIn <+: (C.rest ds.source).drop ds.used
  order : D.fed ds.z ++ (C.rest ds.source).drop ds.used = enc
  data : D.made ds.z <+: dec
  flush_eq : ds.flush = 0 ∨ (ds.flush = zFinish ∧ D.fed ds.z = enc)
  under_way : ds.finished = false → D.live ds.z
  ended : ds.finished = true → D.made ds.z = dec
  consumed_le : ds.consumed ≤ ds.buf.length
  buf_le : ds.buf.length ≤ (D.made ds.z).length

/-- What is left to take and to put out, whether there is input, and whether the end of the
source has been seen. -/
def toDo (D : Inflates Z enc dec) (ds : ZlibStream ζ σ) : Nat :=
  2 * ((enc.length - (D.fed ds.z).length) + (dec.length - (D.made ds.z).length)) +
    (if ds.nextIn = [] then 1 else 0) + if ds.flush = 0 then 1 else 0

/-- The room has 32 bits, and once the whole stream has been taken there is none or enough
of it. -/
structure RoomOk (D : Inflates Z enc dec) (ds : ZlibStream ζ σ) : Prop where
  small : ds.room < 2 ^ 32
  enough : D.fed ds.z = enc → ds.room = 0 ∨ dec.length - (D.made ds.z).length ≤ ds.room

end ZlibStream

/-- A round keeps the bytes of the data in their order. -/
structure SameInflated (D : Inflates Z enc dec) (ds ds' : ZlibStream ζ σ) : Prop where
  consumed : ds'.consumed = ds.consumed
  data : ds'.buf ++ dec.drop (D.made ds'.z).length = ds.buf ++ dec.drop (D.made ds.z).length

theorem SameInflated.trans {D : Inflates Z enc dec} {ds₁ ds₂ ds₃ : ZlibStream ζ σ}
    (h : SameInflated D ds₁ ds₂) (h' : SameInflated D ds₂ ds₃) : SameInflated D ds₁ ds₃ :=
  ⟨h'.consumed.trans h.consumed, h'.data.trans h.data⟩

theorem zlibProduced_small {room : Nat} {out : Bytes} (hroom : room < 2 ^ 32)
    (hout : out.length ≤ room) : zlibProduced room out = out := by
  unfold zlibProduced
  dsimp only
  rw [Nat.mod_eq_of_lt hroom]
  have hnone : room - (room - out.length) - out.length = 0 := by omega
  rw [hnone, List.replicate_zero, List.append_nil]

section Rounds

variable {D : Inflates Z enc dec} {C : Contract read} {ds : ZlibStream ζ σ}

/-- The whole stream has been taken when the source has nothing more. -/
theorem ZlibStream.Valid.fed_eq_iff (hv : ds.Valid D C) :
    D.fed ds.z = enc ↔ (C.rest ds.source).drop ds.used = [] := by
  have horder := hv.order
  constructor
  · intro h
    have hlen := congrArg List.length horder
    rw [List.length_append, congrArg List.length h] at hlen
    rw [← List.length_eq_zero_iff]
    omega
  · intro h
    rwa [h, List.append_nil] at horder

/-- More is read from upstream: the next window is longer than what is left of this one, or
the source has come to its end with the stream. -/
theorem zlibUpstream_spec (hv : ds.Valid D C) (hflush : ds.flush = 0)
    (hroom : ds.nextIn.length + 1 < 2 ^ 32) :
    ∃ ds' bad, zlibUpstream read ds = (.again ds', bad) ∧ ds'.Valid D C ∧ SameInflated D ds ds' ∧
      ds'.z = ds.z ∧ ds'.room = ds.room ∧ ds'.buf = ds.buf ∧ ds'.finished = ds.finished ∧
      ((D.fed ds.z ≠ enc ∧ ds'.nextIn ≠ [] ∧ ds'.flush = 0) ∨
        (D.fed ds.z = enc ∧ ds'.nextIn = [] ∧ ds'.flush = zFinish)) := by
  have hused : ds.used ≤ C.lent ds.source := by
    have := hv.readIn_le
    unfold ZlibStream.used
    omega
  have hneed : (ds.nextIn.length + 1) % 2 ^ 32 = ds.nextIn.length + 1 := Nat.mod_eq_of_lt hroom
  obtain ⟨w, source, hread, hvalid, hlent, hserve⟩ :=
    C.serve ds.source ds.used (ds.nextIn.length + 1) hv.source hused (by omega)
  generalize hnext : w.bytes.take (2 ^ 32 - 1) = nextIn
  have hlen : nextIn.length = min (2 ^ 32 - 1) w.bytes.length := by
    rw [← hnext, List.length_take]
  have hempty : nextIn = [] ↔ D.fed ds.z = enc := by
    have henough := hserve.enough
    have hle := hserve.initial.length_le
    rw [hv.fed_eq_iff, ← hserve.rest_eq, ← List.length_eq_zero_iff, ← List.length_eq_zero_iff, hlen]
    omega
  refine ⟨{ ds with
      source := source
      nextIn := nextIn
      readIn := nextIn.length
      flush := if nextIn.length = 0 then zFinish else 0 }, w.failed, ?_, ?_, ⟨rfl, rfl⟩, rfl, rfl,
    rfl, rfl, ?_⟩
  · unfold zlibUpstream
    rw [if_pos hflush, hneed]
    unfold ZlibStream.used at hread
    rw [hread]
    dsimp only
    rw [hnext]
  · have hzero : nextIn.length - nextIn.length = 0 := Nat.sub_self _
    refine ⟨hvalid, ?_, le_rfl, ?_, ?_, ?_, hv.data, ?_, hv.under_way, hv.ended, hv.consumed_le,
      hv.buf_le⟩
    · dsimp only
      rw [hlent, hlen]
      exact Nat.min_le_right _ _
    · dsimp only
      omega
    · unfold ZlibStream.used
      dsimp only
      rw [hzero, List.drop_zero, ← hnext]
      exact (List.take_prefix _ _).trans hserve.initial
    · unfold ZlibStream.used
      dsimp only
      rw [hzero, List.drop_zero, hserve.rest_eq]
      exact hv.order
    · dsimp only
      split
      · rename_i hnil
        exact Or.inr ⟨rfl, hempty.mp (List.length_eq_zero_iff.mp hnil)⟩
      · exact Or.inl rfl
  · by_cases hend : D.fed ds.z = enc
    · have hnil := hempty.mpr hend
      exact Or.inr ⟨hend, hnil, by rw [hnil]; rfl⟩
    · have hne : nextIn ≠ [] := fun h => hend (hempty.mp h)
      refine Or.inl ⟨hend, hne, ?_⟩
      dsimp only
      rw [if_neg (by rw [List.length_eq_zero_iff]; exact hne)]

/-- What a call of `inflate` on the input at hand leaves behind. -/
theorem zlibRun_spec (hv : ds.Valid D C) (hroom : ds.RoomOk D) (hlive : ds.finished = false)
    (hflush : ds.flush = 0) (hmore : ds.nextIn ≠ []) {ds' : ZlibStream ζ σ} {res : Int}
    {produced : Nat} (hrun : zlibRun Z ds = (res, produced, ds')) :
    SameInflated D ds ds' ∧ ds'.RoomOk D ∧ ds'.finished = false ∧ ds'.flush = 0 ∧
      ds'.toDo D < ds.toDo D ∧
      ((res = 0 ∧ ds'.Valid D C ∧
          (produced = 0 → D.fed ds'.z ≠ enc ∧ ds'.nextIn.length + 1 < 2 ^ 32)) ∨
        (res = zStreamEnd ∧ { ds' with finished := true }.Valid D C)) := by
  obtain ⟨tail, htail⟩ := hv.window
  have hpos : 0 < if ds.room = 0 then growth else ds.room := by
    unfold growth
    split <;> omega
  have hsmall : (if ds.room = 0 then growth else ds.room) < 2 ^ 32 := by
    have := hroom.small
    unfold growth
    split <;> omega
  have hagree : D.fed ds.z ++ ds.nextIn <+: enc := by
    refine ⟨tail, ?_⟩
    rw [List.append_assoc, htail]
    exact hv.order
  have hcall := D.call ds.z ds.nextIn _ (hv.under_way hlive) hmore hpos hagree
  unfold zlibRun at hrun
  dsimp only at hrun
  rw [Nat.mod_eq_of_lt hsmall] at hrun
  have hsame : Z.run ds.z ds.nextIn (if ds.room = 0 then growth else ds.room) 0 =
      Z.run ds.z ds.nextIn (if ds.room = 0 then growth else ds.room) ds.flush := by rw [hflush]
  rw [hsame] at hcall
  generalize Z.run ds.z ds.nextIn (if ds.room = 0 then growth else ds.room) ds.flush = r
    at hrun hcall
  rw [zlibProduced_small hsmall hcall.out_le] at hrun
  simp only [Prod.mk.injEq] at hrun
  obtain ⟨rfl, rfl, rfl⟩ := hrun
  have htaken := hcall.taken_le
  have hfed := congrArg List.length hcall.fed_eq
  have hmade := congrArg List.length hcall.made_eq
  rw [List.length_append, List.length_take] at hfed
  rw [List.length_append] at hmade
  have hprogress := hcall.progress
  have hfedle := hcall.inside.length_le
  have hmadele := hcall.data.length_le
  have hnextIn := hv.nextIn_le
  have hused : ds.readIn - (ds.nextIn.drop r.taken).length = ds.used + r.taken := by
    unfold ZlibStream.used
    rw [List.length_drop]
    omega
  have hwindow : (C.rest ds.source).drop (ds.used + r.taken) = ds.nextIn.drop r.taken ++ tail := by
    rw [← List.drop_drop, ← htail, List.drop_append_of_le_length htaken]
  have horder : D.fed r.z ++ (C.rest ds.source).drop (ds.used + r.taken) = enc := by
    rw [hwindow, hcall.fed_eq, List.append_assoc, ← List.append_assoc (ds.nextIn.take r.taken),
      List.take_append_drop, htail]
    exact hv.order
  have hdata := hcall.data
  rw [hcall.made_eq] at hdata
  refine ⟨⟨rfl, ?_⟩, ⟨?_, ?_⟩, hlive, hflush, ?_, ?_⟩
  · dsimp only
    rw [hcall.made_eq, List.append_assoc, append_drop_of_prefix hdata]
  · dsimp only
    omega
  · intro hend
    by_cases hcode : r.code = zStreamEnd
    · right
      have hall := (hcall.ends hcode).2
      dsimp only
      rw [hall]
      omega
    · left
      have hfull := (hcall.goes_on hcode).2.2 hend
      dsimp only
      omega
  · unfold ZlibStream.toDo
    dsimp only
    rw [if_neg hmore]
    split <;> omega
  · have hconsumed := hv.consumed_le
    have hbuf := hv.buf_le
    have hsmallIn := hv.nextIn_small
    have hlong : (ds.buf ++ r.out).length ≤ (D.made r.z).length := by
      rw [List.length_append]
      omega
    have hconsumed' : ds.consumed ≤ (ds.buf ++ r.out).length := by
      rw [List.length_append]
      omega
    have hvalid : ∀ finished : Bool, (finished = false → D.live r.z) →
        (finished = true → D.made r.z = dec) →
        ZlibStream.Valid D C { ds with
          z := r.z
          nextIn := ds.nextIn.drop r.taken
          buf := ds.buf ++ r.out
          room := (if ds.room = 0 then growth else ds.room) - r.out.length
          finished := finished } := by
      intro finished hunder hended
      refine ⟨hv.source, hv.readIn_le, ?_, ?_, ?_, ?_, hcall.data, Or.inl hflush, hunder, hended,
        hconsumed', hlong⟩
      · dsimp only
        rw [List.length_drop]
        omega
      · dsimp only
        rw [List.length_drop]
        omega
      · unfold ZlibStream.used
        dsimp only
        rw [hused, hwindow]
        exact List.prefix_append _ _
      · unfold ZlibStream.used
        dsimp only
        rw [hused]
        exact horder
    by_cases hcode : r.code = zStreamEnd
    · exact Or.inr ⟨hcode, hvalid true (by simp) fun _ => (hcall.ends hcode).2⟩
    · obtain ⟨hzero, hlive', hfull⟩ := hcall.goes_on hcode
      refine Or.inl ⟨hzero, hvalid ds.finished (fun _ => hlive')
        (fun h => absurd (hlive.symm.trans h) (by simp)), ?_⟩
      intro hnone
      refine ⟨fun hend => ?_, ?_⟩
      · have := hfull hend
        omega
      · dsimp only
        rw [List.length_drop]
        omega

/-- What a call with `Z_FINISH` leads to. -/
theorem zlibRun_finish (hv : ds.Valid D C) (hsmall : ds.room < 2 ^ 32)
    (hlive : ds.finished = false) (hflush : ds.flush = zFinish) (hend : D.fed ds.z = enc)
    (hnil : ds.nextIn = []) {ds' : ZlibStream ζ σ} {res : Int} {produced : Nat}
    (hrun : zlibRun Z ds = (res, produced, ds')) :
    SameInflated D ds ds' ∧
      (ds.RoomOk D → res = zStreamEnd ∧ { ds' with finished := true }.Valid D C) ∧
      (¬ ds.RoomOk D → res = zBufError) := by
  have hheld := D.held _ (hv.under_way hlive) hend
  have hpos : 0 < if ds.room = 0 then growth else ds.room := by
    unfold growth
    split <;> omega
  have hsmall' : (if ds.room = 0 then growth else ds.room) < 2 ^ 32 := by
    unfold growth
    split <;> omega
  have hcall := D.finish ds.z _ (hv.under_way hlive) hend hpos
  unfold zlibRun at hrun
  dsimp only at hrun
  rw [Nat.mod_eq_of_lt hsmall'] at hrun
  have hsame : Z.run ds.z [] (if ds.room = 0 then growth else ds.room) zFinish =
      Z.run ds.z ds.nextIn (if ds.room = 0 then growth else ds.room) ds.flush := by
    rw [hflush, hnil]
  rw [hsame] at hcall
  generalize Z.run ds.z ds.nextIn (if ds.room = 0 then growth else ds.room) ds.flush = r
    at hrun hcall
  have hrest : ds.nextIn.drop r.taken = ds.nextIn := by rw [hnil, List.drop_nil]
  rw [hrest] at hrun
  rw [zlibProduced_small hsmall' hcall.out_le] at hrun
  simp only [Prod.mk.injEq] at hrun
  obtain ⟨rfl, -, rfl⟩ := hrun
  have hdata := hcall.data
  rw [hcall.made_eq] at hdata
  have hmade := congrArg List.length hcall.made_eq
  rw [List.length_append] at hmade
  have hconsumed := hv.consumed_le
  have hbuf := hv.buf_le
  refine ⟨⟨rfl, ?_⟩, ?_, ?_⟩
  · dsimp only
    rw [hcall.made_eq, List.append_assoc, append_drop_of_prefix hdata]
  · intro hok
    have hfits : dec.length - (D.made ds.z).length ≤ if ds.room = 0 then growth else ds.room := by
      rcases hok.enough hend with hzero | henough
      · rw [if_pos hzero]
        exact hheld
      · split <;> omega
    obtain ⟨hcode, hall⟩ := hcall.ends hfits
    refine ⟨hcode, hv.source, hv.readIn_le, hv.nextIn_le, hv.nextIn_small, hv.window, ?_,
      hcall.data, Or.inr ⟨hflush, hcall.fed_eq.trans hend⟩, by simp, fun _ => hall, ?_, ?_⟩
    · dsimp only
      rw [hcall.fed_eq]
      exact hv.order
    · dsimp only
      rw [List.length_append]
      omega
    · dsimp only
      rw [List.length_append]
      omega
  · intro hbad
    apply hcall.stops
    by_contra hfits
    apply hbad
    refine ⟨hsmall, fun _ => ?_⟩
    by_cases hzero : ds.room = 0
    · exact Or.inl hzero
    · rw [if_neg hzero] at hfits
      exact Or.inr (by omega)

/-- The source never takes an error path. -/
def Quiet (C : Contract read) : Prop :=
  ∀ s consume need w s', C.valid s → read s consume need = some (w, s') → w.failed = false

theorem zlibUpstream_quiet (hquiet : Quiet C) (hv : ds.Valid D C) : (zlibUpstream read ds).2 = false := by
  unfold zlibUpstream
  split
  · split
    · rfl
    · rename_i w source hread
      exact hquiet _ _ _ _ _ hv.source hread
  · rfl

/-- When the whole stream has been taken, no input is left. -/
theorem ZlibStream.Valid.nextIn_nil (hv : ds.Valid D C) (hend : D.fed ds.z = enc) :
    ds.nextIn = [] := by
  have hwindow := hv.window
  rw [hv.fed_eq_iff.mp hend] at hwindow
  exact List.prefix_nil.mp hwindow

/-- One round of the loop: it comes nearer to the end, or it comes to the end. -/
theorem zlibRound_spec (hv : ds.Valid D C) (hroom : ds.RoomOk D) (hlive : ds.finished = false) :
    ∃ ds' bad, SameInflated D ds ds' ∧ ds'.Valid D C ∧ (Quiet C → bad = false) ∧
      ((zlibRound Z read ds = (.again ds', bad) ∧ ds'.finished = false ∧ ds'.RoomOk D ∧
          ds'.toDo D < ds.toDo D) ∨
        (zlibRound Z read ds = (.leave ds', bad) ∧ ds'.finished = true)) := by
  by_cases hmore : ds.nextIn = []
  · rcases hv.flush_eq with hflush | ⟨hflush, hend⟩
    · obtain ⟨ds', bad, hup, hv', hsame, hz, hr, -, hf, hcase⟩ :=
        zlibUpstream_spec hv hflush (by rw [hmore]; norm_num)
      have hquiet := fun h => zlibUpstream_quiet h hv
      rw [hup] at hquiet
      refine ⟨ds', bad, hsame, hv', hquiet, Or.inl ⟨?_, hf.trans hlive, ⟨?_, ?_⟩, ?_⟩⟩
      · unfold zlibRound
        rw [if_neg (by simp [hmore, hflush])]
        exact hup
      · rw [hr]
        exact hroom.small
      · rw [hr, hz]
        exact hroom.enough
      · unfold ZlibStream.toDo
        rw [hz, if_pos hmore, if_pos hflush]
        rcases hcase with ⟨-, hne, -⟩ | ⟨-, hnil, hfin⟩
        · rw [if_neg hne]
          split <;> omega
        · rw [if_pos hnil, if_neg (by rw [hfin]; decide)]
          omega
    · cases hrun : zlibRun Z ds with
      | mk res rest =>
        obtain ⟨produced, ds₁⟩ := rest
        obtain ⟨hsame, hok, -⟩ := zlibRun_finish hv hroom.small hlive hflush hend hmore hrun
        obtain ⟨rfl, hv₁⟩ := hok hroom
        refine ⟨{ ds₁ with finished := true }, false, ⟨hsame.consumed, hsame.data⟩, hv₁,
          fun _ => rfl, Or.inr ⟨?_, rfl⟩⟩
        unfold zlibRound
        rw [if_pos (Or.inr (by rw [hflush]; decide)), hrun]
        simp
  · have hflush : ds.flush = 0 := by
      rcases hv.flush_eq with h | ⟨-, hend⟩
      · exact h
      · exact absurd (hv.nextIn_nil hend) hmore
    cases hrun : zlibRun Z ds with
    | mk res rest =>
      obtain ⟨produced, ds₁⟩ := rest
      obtain ⟨hsame, hroom₁, hlive₁, hflush₁, hless, hcode⟩ :=
        zlibRun_spec hv hroom hlive hflush hmore hrun
      rcases hcode with ⟨rfl, hv₁, hnone⟩ | ⟨rfl, hv₁⟩
      · by_cases hproduced : produced = 0
        · obtain ⟨hopen, hshort⟩ := hnone hproduced
          obtain ⟨ds', bad, hup, hv', hsame', hz, hr, -, hf, hcase⟩ :=
            zlibUpstream_spec hv₁ hflush₁ hshort
          have hquiet := fun h => zlibUpstream_quiet h hv₁
          rw [hup] at hquiet
          refine ⟨ds', bad, hsame.trans hsame', hv', hquiet,
            Or.inl ⟨?_, hf.trans hlive₁, ⟨?_, ?_⟩, ?_⟩⟩
          · unfold zlibRound
            rw [if_pos (Or.inl hmore), hrun]
            simp only [zStreamEnd, hproduced]
            exact hup
          · rw [hr]
            exact hroom₁.small
          · rw [hr, hz]
            exact hroom₁.enough
          · rcases hcase with ⟨-, hne, hzero⟩ | ⟨hend, -, -⟩
            · refine Nat.lt_of_le_of_lt ?_ hless
              unfold ZlibStream.toDo
              rw [hz, if_neg hne, if_pos hzero, if_pos hflush₁]
              split <;> omega
            · exact absurd hend hopen
        · refine ⟨ds₁, false, hsame, hv₁, fun _ => rfl, Or.inl ⟨?_, hlive₁, hroom₁, hless⟩⟩
          unfold zlibRound
          rw [if_pos (Or.inl hmore), hrun]
          simp [zStreamEnd, hproduced]
      · refine ⟨{ ds₁ with finished := true }, false, ⟨hsame.consumed, hsame.data⟩, hv₁,
          fun _ => rfl, Or.inr ⟨?_, rfl⟩⟩
        unfold zlibRound
        rw [if_pos (Or.inl hmore), hrun]
        simp

/-- The loop ends, and it stops short of `need` only at the end of the data. -/
theorem zlibLoop_spec (hv : ds.Valid D C) (hroom : ds.RoomOk D) (hlive : ds.finished = false)
    (need fuel : Nat) (hfuel : ds.toDo D < fuel) (failed : Bool) :
    ∃ w ds', zlibLoop Z read need fuel ds failed = some (w, ds') ∧ ds'.Valid D C ∧
      SameInflated D ds ds' ∧ w.bytes = ds'.buf ∧
      (Quiet C → failed = false → w.failed = false) ∧
      (need ≤ ds'.buf.length ∨ ds'.finished = true) := by
  induction fuel generalizing ds failed with
  | zero => omega
  | succ fuel ih =>
    obtain ⟨ds₁, bad, hsame, hv₁, hquiet, hround⟩ := zlibRound_spec hv hroom hlive
    have hflag : Quiet C → failed = false → (failed || bad) = false := by
      intro hq hf
      rw [hf, hquiet hq]
      rfl
    unfold zlibLoop
    rcases hround with ⟨hagain, hlive₁, hroom₁, hless⟩ | ⟨hleave, hend⟩
    · rw [hagain]
      dsimp only
      split
      · obtain ⟨w, ds', hloop, hv', hsame', hw, hq, hstop⟩ :=
          ih hv₁ hroom₁ hlive₁ (by omega) (failed || bad)
        exact ⟨w, ds', hloop, hv', hsame.trans hsame', hw, fun h hf => hq h (hflag h hf), hstop⟩
      · rename_i henough
        exact ⟨_, ds₁, rfl, hv₁, hsame, rfl, hflag, Or.inl (by omega)⟩
    · rw [hleave]
      exact ⟨_, ds₁, rfl, hv₁, hsame, rfl, hflag, Or.inr hend⟩

/-- With the whole stream taken and too little room, the loop takes the error path. -/
theorem zlibLoop_bufError (hv : ds.Valid D C) (hsmall : ds.room < 2 ^ 32)
    (hbad : ¬ ds.RoomOk D) (hlive : ds.finished = false) (need fuel : Nat)
    (hneed : ds.buf.length < need) (failed : Bool) :
    ∃ ds', zlibLoop Z read need (fuel + 2) ds failed = some (⟨[], true⟩, ds') := by
  have hend : D.fed ds.z = enc := by
    by_contra hopen
    exact hbad ⟨hsmall, fun h => absurd h hopen⟩
  have hnil := hv.nextIn_nil hend
  -- the round in which `Z_FINISH` is passed
  have hfinish : ∀ (ds : ZlibStream ζ σ) (fuel : Nat) (failed : Bool), ds.Valid D C →
      ds.room < 2 ^ 32 → ¬ ds.RoomOk D → ds.finished = false → D.fed ds.z = enc →
      ds.nextIn = [] → ds.flush = zFinish →
      ∃ ds', zlibLoop Z read need (fuel + 1) ds failed = some (⟨[], true⟩, ds') := by
    intro ds fuel failed hv hsmall hbad hlive hend hnil hflush
    cases hrun : zlibRun Z ds with
    | mk res rest =>
      obtain ⟨produced, ds₁⟩ := rest
      obtain rfl := (zlibRun_finish hv hsmall hlive hflush hend hnil hrun).2.2 hbad
      have hround : zlibRound Z read ds = (.fail ds₁, true) := by
        unfold zlibRound
        rw [if_pos (Or.inr (by rw [hflush]; decide)), hrun]
        simp [zBufError, zStreamEnd]
      refine ⟨{ ds₁ with finished := true }, ?_⟩
      unfold zlibLoop
      rw [hround]
      simp
  rcases hv.flush_eq with hflush | ⟨hflush, -⟩
  · obtain ⟨ds', bad, hup, hv', -, hz, hr, hb, hf, hcase⟩ :=
      zlibUpstream_spec hv hflush (by rw [hnil]; norm_num)
    rcases hcase with ⟨hopen, -⟩ | ⟨-, hnil', hflush'⟩
    · exact absurd hend hopen
    · have hround : zlibRound Z read ds = (.again ds', bad) := by
        unfold zlibRound
        rw [if_neg (by simp [hnil, hflush])]
        exact hup
      unfold zlibLoop
      rw [hround]
      dsimp only
      rw [if_pos (by rw [hb]; exact hneed)]
      refine hfinish ds' fuel _ hv' (by rw [hr]; exact hsmall) (fun hok => hbad ⟨hsmall, ?_⟩)
        (hf.trans hlive) (by rw [hz]; exact hend) hnil' hflush'
      have := hok.enough
      rwa [hr, hz] at this
  · exact hfinish ds (fuel + 1) failed hv hsmall hbad hlive hend hnil hflush

/-- The condition on a read and the state before it: it is served from the buffer; or the
free room has 32 bits and, if the decoder has taken the whole stream, there is no room or
enough for all that it still holds. -/
def RoomEnough (D : Inflates Z enc dec) (ds : ZlibStream ζ σ) (consume need : Nat) : Prop :=
  ds.finished = true ∨ ds.consumed + consume + need ≤ ds.buf.length ∨
    (ds.room + (ds.consumed + consume) < 2 ^ 32 ∧
      (D.fed ds.z = enc → ds.room + (ds.consumed + consume) = 0 ∨
        dec.length - (D.made ds.z).length ≤ ds.room + (ds.consumed + consume)))

/-- **One read through the inflate filter.** With enough room it serves the inflated data;
with too little it takes the error path. -/
theorem readZlib_serve (hv : ds.Valid D C) (hdec : dec.length < 2 ^ 63) (fuel consume need : Nat)
    (hfuel : 2 * (enc.length + dec.length) + 2 < fuel) (hconsume : consume ≤ ds.lent)
    (hneed : need < 2 ^ 63) :
    (RoomEnough D ds consume need →
      ∃ w ds', readZlib Z read fuel ds consume need = some (w, ds') ∧ ds'.Valid D C ∧
        ds'.lent = w.bytes.length ∧ (Quiet C → w.failed = false) ∧
        Serves (ds.rest D) consume need w (ds'.rest D)) ∧
    (¬ RoomEnough D ds consume need → ds.room + (ds.consumed + consume) < 2 ^ 32 →
      ∃ ds', readZlib Z read fuel ds consume need = some (⟨[], true⟩, ds') ∧
        0 < min need ((ds.rest D).length - consume)) := by
  have hle := hv.consumed_le
  have hbuf := hv.buf_le
  have hmade := hv.data.length_le
  have hin : ds.consumed + consume ≤ ds.buf.length := by
    unfold ZlibStream.lent at hconsume
    omega
  have hadd : add64 (ds.consumed + consume) need = ds.consumed + consume + need :=
    add64_of_lt (by omega)
  have hrest : (ds.rest D).drop consume =
      ds.buf.drop (ds.consumed + consume) ++ dec.drop (D.made ds.z).length := by
    unfold ZlibStream.rest
    rw [List.drop_append_of_le_length (by rw [List.length_drop]; omega), List.drop_drop]
  by_cases hserved : ds.finished = true ∨ ds.consumed + consume + need ≤ ds.buf.length
  · have hread : readZlib Z read fuel ds consume need =
        some (⟨ds.buf.drop (ds.consumed + consume), false⟩,
          { ds with consumed := ds.consumed + consume }) := by
      unfold readZlib
      dsimp only
      rw [hadd, if_pos (by simpa using hserved)]
    refine ⟨fun _ => ⟨_, _, hread, ⟨hv.source, hv.readIn_le, hv.nextIn_le, hv.nextIn_small,
      hv.window, hv.order, hv.data, hv.flush_eq, hv.under_way, hv.ended, hin, hv.buf_le⟩, ?_,
      fun _ => rfl, hrest.symm, List.prefix_append _ _, ?_⟩, fun hbad => ?_⟩
    · simp only [ZlibStream.lent, List.length_drop]
    · simp only [ZlibStream.rest, List.length_append, List.length_drop]
      rcases hserved with hend | hlong
      · rw [hv.ended hend]
        omega
      · omega
    · exact absurd (hserved.elim Or.inl fun h => Or.inr (Or.inl h)) hbad
  · rw [not_or] at hserved
    have hlive : ds.finished = false := by simpa using hserved.1
    have hshort : (ds.buf.drop (ds.consumed + consume)).length ≤ (D.made ds.z).length := by
      rw [List.length_drop]
      omega
    have hv₁ : ZlibStream.Valid D C { ds with
        buf := ds.buf.drop (ds.consumed + consume)
        room := ds.room + (ds.consumed + consume)
        consumed := 0 } :=
      ⟨hv.source, hv.readIn_le, hv.nextIn_le, hv.nextIn_small, hv.window, hv.order, hv.data,
        hv.flush_eq, hv.under_way, hv.ended, Nat.zero_le _, hshort⟩
    have hread : readZlib Z read fuel ds consume need = zlibLoop Z read need fuel
        { ds with
          buf := ds.buf.drop (ds.consumed + consume)
          room := ds.room + (ds.consumed + consume)
          consumed := 0 } false := by
      unfold readZlib
      dsimp only
      rw [hadd, if_neg (by simpa [hlive] using hserved.2)]
    rw [hread]
    constructor
    · rintro (hend | hlong | ⟨hsmall, henough⟩)
      · exact absurd hend hserved.1
      · exact absurd hlong hserved.2
      · obtain ⟨w, ds', hloop, hv', hsame, hw, hquiet, hstop⟩ :=
          zlibLoop_spec hv₁ ⟨hsmall, henough⟩ hlive need fuel
              (by unfold ZlibStream.toDo; dsimp only; split <;> split <;> omega) false
        have hzero : ds'.consumed = 0 := hsame.consumed
        have hrest' : ds'.rest D = ds'.buf ++ dec.drop (D.made ds'.z).length := by
          rw [ZlibStream.rest, hzero, List.drop_zero]
        refine ⟨w, ds', hloop, hv', ?_, fun h => hquiet h rfl, ?_, ?_, ?_⟩
        · rw [ZlibStream.lent, hzero, hw]
          rfl
        · rw [hrest, hrest', hsame.data]
        · rw [hrest', hw]
          exact List.prefix_append _ _
        · rw [hrest', hw, List.length_append, List.length_drop]
          rcases hstop with hlong | hend
          · omega
          · rw [hv'.ended hend]
            omega
    · intro hbad hsmall
      have hmissing : ¬ (D.fed ds.z = enc → ds.room + (ds.consumed + consume) = 0 ∨
          dec.length - (D.made ds.z).length ≤ ds.room + (ds.consumed + consume)) :=
        fun h => hbad (Or.inr (Or.inr ⟨hsmall, h⟩))
      obtain ⟨k, rfl⟩ : ∃ k, fuel = k + 2 := ⟨fuel - 2, by omega⟩
      obtain ⟨ds', hloop⟩ := zlibLoop_bufError hv₁ hsmall (fun hok => hmissing hok.enough) hlive
          need k (by dsimp only; rw [List.length_drop]; omega) false
      refine ⟨ds', hloop, ?_⟩
      rw [Classical.not_imp, not_or] at hmissing
      simp only [ZlibStream.rest, List.length_append, List.length_drop]
      omega

end Rounds

/-! ## Runs of reads -/

/-- In a run of reads with enough room, what is left is what lies behind the bytes consumed. -/
theorem run_inflate {D : Inflates Z enc dec} {C : Contract read} {ds₀ ds : ZlibStream ζ σ}
    {fuel lent total : Nat} (hv₀ : ds₀.Valid D C) (hdec : dec.length < 2 ^ 63)
    (hfuel : 2 * (enc.length + dec.length) + 2 < fuel)
    (hrun : Run (readZlib Z read fuel)
      (fun ds consume need => need < 2 ^ 63 ∧ RoomEnough D ds consume need) ds₀ ds lent total) :
    ds.Valid D C ∧ ds.rest D = (ds₀.rest D).drop total ∧ lent ≤ ds.lent ∧
      total ≤ (ds₀.rest D).length := by
  induction hrun with
  | start => exact ⟨hv₀, rfl, Nat.zero_le _, Nat.zero_le _⟩
  | @read ds ds' lent total consume need w hrun hconsume hok hread ih =>
    obtain ⟨hv, hrest, hlent, htotal⟩ := ih
    obtain ⟨w', ds'', hread', hv', hlent', -, hserve⟩ :=
      (readZlib_serve hv hdec _ _ _ hfuel (hconsume.trans hlent) hok.1).1 hok.2
    rw [hread] at hread'
    cases hread'
    have hle : ds.lent ≤ (ds.rest D).length := by
      simp only [ZlibStream.lent, ZlibStream.rest, List.length_append, List.length_drop]
      omega
    rw [hrest, List.length_drop] at hle
    refine ⟨hv', ?_, hlent'.ge, by omega⟩
    rw [hserve.rest_eq, hrest, List.drop_drop]

/-- An opened filter has all the data to give. -/
theorem openZlib_valid {D : Inflates Z enc dec} {C : Contract read} {s : σ} (hv : C.valid s)
    (hsrc : C.rest s = enc) {ds₀ : ZlibStream ζ σ} (hopen : openZlib Z s = some ds₀) :
    ds₀.Valid D C ∧ ds₀.rest D = dec := by
  unfold openZlib at hopen
  rw [Option.map_eq_some_iff] at hopen
  obtain ⟨z, hinit, rfl⟩ := hopen
  obtain ⟨hlive, hfed, hmade⟩ := D.start z hinit
  refine ⟨⟨hv, Nat.zero_le _, le_rfl, by norm_num, List.nil_prefix, ?_, ?_, Or.inl rfl,
    fun _ => hlive, by simp, le_rfl, Nat.zero_le _⟩, ?_⟩
  · dsimp only
    rw [hfed]
    exact hsrc
  · rw [hmade]
    exact List.nil_prefix
  · rw [ZlibStream.rest, hmade]
    rfl

/-- **Reading through the inflate filter.** For every decoder that inflates `enc` to `dec`,
every source that keeps the read contract and has the bytes `enc`, and every run of reads
with enough room: a further read with enough room serves the data behind what has been
consumed and takes no error path; one whose room is too little for what the decoder still
holds fails, although data is left. -/
theorem read_zlib_refines_iff (D : Inflates Z enc dec) (C : Contract read) {s : σ}
    (hv : C.valid s) (hsrc : C.rest s = enc) (hdec : dec.length < 2 ^ 63) {fuel : Nat}
    (hfuel : 2 * (enc.length + dec.length) + 2 < fuel) {ds₀ ds : ZlibStream ζ σ}
    (hopen : openZlib Z s = some ds₀) {lent total : Nat}
    (hrun : Run (readZlib Z read fuel)
      (fun ds consume need => need < 2 ^ 63 ∧ RoomEnough D ds consume need) ds₀ ds lent total) :
    total ≤ dec.length ∧
      ∀ consume need, consume ≤ lent → need < 2 ^ 63 →
        (RoomEnough D ds consume need →
          ∃ w ds', readZlib Z read fuel ds consume need = some (w, ds') ∧
            (Quiet C → w.failed = false) ∧ w.bytes <+: dec.drop (total + consume) ∧
            min need (dec.length - (total + consume)) ≤ w.bytes.length) ∧
        (¬ RoomEnough D ds consume need → ds.room + (ds.consumed + consume) < 2 ^ 32 →
          ∃ w ds', readZlib Z read fuel ds consume need = some (w, ds') ∧ w.failed = true ∧
            w.bytes.length < min need (dec.length - (total + consume))) := by
  have hv₀ := openZlib_valid (D := D) hv hsrc hopen
  obtain ⟨hvalid, hrest, hlent, htotal⟩ := run_inflate hv₀.1 hdec hfuel hrun
  have hrest' : ds.rest D = dec.drop total := hrest.trans (congrArg (List.drop total) hv₀.2)
  refine ⟨htotal.trans_eq (congrArg List.length hv₀.2), ?_⟩
  intro consume need hconsume hneed
  obtain ⟨hgood, hbad⟩ := readZlib_serve hvalid hdec _ _ _ hfuel (hconsume.trans hlent) hneed
  constructor
  · intro hroom
    obtain ⟨w, ds', hread, -, -, hquiet, hserve⟩ := hgood hroom
    have hprefix := hserve.initial
    have henough := hserve.enough
    rw [hserve.rest_eq, hrest', List.drop_drop] at hprefix henough
    rw [List.length_drop] at henough
    exact ⟨w, ds', hread, hquiet, hprefix, henough⟩
  · intro hroom hsmall
    obtain ⟨ds', hread, hleft⟩ := hbad hroom hsmall
    refine ⟨_, ds', hread, rfl, ?_⟩
    rw [hrest', List.length_drop] at hleft
    dsimp only
    rw [List.length_nil]
    omega

/-! ## A stream with held output -/

section Held

/-- A decoder that puts out as much as there is room for once it has all the input, and takes
the last byte when it holds no more than 258 bytes. Its state is how much it has taken and
how much it has put out. -/
def heldCodec (enc dec : Bytes) : Codec (Nat × Nat) where
  init := some (0, 0)
  run z input room flush :=
    let piece := (dec.drop z.2).take room
    if z.1 + input.length < enc.length then ⟨0, input.length, [], (z.1 + input.length, z.2)⟩
    else if dec.length - z.2 ≤ room then
      ⟨zStreamEnd, input.length, piece, (enc.length, dec.length)⟩
    else if flush = zFinish then ⟨zBufError, input.length, piece, (enc.length, z.2 + room)⟩
    else if dec.length - z.2 ≤ room + 258 then
      ⟨0, input.length, piece, (enc.length, z.2 + room)⟩
    else ⟨0, input.length - 1, piece, (enc.length - 1, z.2 + room)⟩

theorem take_add_of_all {dec : Bytes} {o room : Nat} (h : dec.length - o ≤ room) :
    dec.take dec.length = dec.take o ++ (dec.drop o).take room := by
  rw [List.take_of_length_le (l := dec.drop o) (by rw [List.length_drop]; exact h),
    List.take_append_drop, List.take_length]

theorem take_ne_of_lt {enc : Bytes} {n : Nat} (h : n < enc.length) : enc.take n ≠ enc := by
  intro heq
  have := congrArg List.length heq
  rw [List.length_take] at this
  omega

def heldInflates (enc dec : Bytes) (hne : enc ≠ []) : Inflates (heldCodec enc dec) enc dec where
  live z := z.1 ≤ enc.length ∧ z.2 ≤ dec.length ∧ (z.1 = enc.length → dec.length - z.2 ≤ 258)
  fed z := enc.take z.1
  made z := dec.take z.2
  held z hlive hfed := by
    have hall : z.1 = enc.length := by
      by_contra hlt
      exact take_ne_of_lt (Nat.lt_of_le_of_ne hlive.1 hlt) hfed
    have hmade := hlive.2.2 hall
    rw [List.length_take]
    unfold growth
    omega
  start z hinit := by
    have := List.length_pos_iff.mpr hne
    cases hinit
    exact ⟨⟨Nat.zero_le _, Nat.zero_le _, fun h => by dsimp only at h; omega⟩, rfl, rfl⟩
  call z input room hlive hinput hroom hagree := by
    obtain ⟨hn, ho, -⟩ := hlive
    have hpos := List.length_pos_iff.mpr hinput
    have hok : (0 : Int) ≠ zStreamEnd := by decide
    have hle := hagree.length_le
    rw [List.length_append, List.length_take] at hle
    have htake : ∀ k ≤ input.length, enc.take (z.1 + k) = enc.take z.1 ++ input.take k :=
      fun k hk => take_append_take hk (by omega) (Or.inl hagree)
    have hpiece : ((dec.drop z.2).take room).length = min room (dec.length - z.2) := by
      rw [List.length_take, List.length_drop]
    unfold heldCodec
    dsimp only
    split
    · rename_i hmore
      refine ⟨le_rfl, Nat.zero_le _, htake _ le_rfl, (List.append_nil _).symm, List.take_prefix _ _,
        List.take_prefix _ _, by dsimp only; omega, fun h => absurd h hok, fun _ => ⟨rfl, ⟨by dsimp only; omega,
        ho, fun h => by dsimp only at h; omega⟩, fun h => absurd h (take_ne_of_lt hmore)⟩⟩
    · rename_i hlast
      have hall : z.1 + input.length = enc.length := by omega
      have hfed : enc.take enc.length = enc.take z.1 ++ input.take input.length := by
        rw [← htake _ le_rfl, hall]
      split
      · rename_i hfits
        exact ⟨le_rfl, by rw [hpiece]; omega, hfed, take_add_of_all hfits, List.take_prefix _ _,
          List.take_prefix _ _, by dsimp only; omega, fun _ => ⟨List.take_length, List.take_length⟩,
          fun h => absurd rfl h⟩
      · rename_i hfull
        rw [if_neg (by decide)]
        split
        · rename_i hheld
          exact ⟨le_rfl, by rw [hpiece]; omega, hfed, List.take_add, List.take_prefix _ _,
            List.take_prefix _ _, by dsimp only; omega, fun h => absurd h hok, fun _ => ⟨rfl, ⟨le_rfl,
            by dsimp only; omega, fun _ => by dsimp only; omega⟩, fun _ => by rw [hpiece]; omega⟩⟩
        · rename_i hheld
          have hback : enc.length - 1 = z.1 + (input.length - 1) := by omega
          exact ⟨Nat.sub_le _ _, by rw [hpiece]; omega,
            by dsimp only; rw [hback]; exact htake _ (Nat.sub_le _ _), List.take_add,
            List.take_prefix _ _, List.take_prefix _ _, by dsimp only; rw [hpiece]; omega,
            fun h => absurd h hok,
            fun _ => ⟨rfl, ⟨by dsimp only; omega, by dsimp only; omega,
              fun h => by dsimp only at h; omega⟩,
              fun h => absurd h (take_ne_of_lt (n := enc.length - 1) (by omega))⟩⟩
  finish z room hlive hfed hroom := by
    obtain ⟨hn, ho, -⟩ := hlive
    have hall : z.1 = enc.length := by
      by_contra hlt
      exact take_ne_of_lt (Nat.lt_of_le_of_ne hn hlt) hfed
    have hpiece : ((dec.drop z.2).take room).length = min room (dec.length - z.2) := by
      rw [List.length_take, List.length_drop]
    have hmade : (dec.take z.2).length = z.2 := by
      rw [List.length_take]
      omega
    unfold heldCodec
    dsimp only
    rw [if_neg (by rw [List.length_nil]; omega)]
    split
    · rename_i hfits
      exact ⟨by rw [hpiece]; omega, by rw [hall], take_add_of_all hfits, List.take_prefix _ _,
        fun _ => ⟨rfl, List.take_length⟩, fun h => by rw [hmade] at h; omega⟩
    · rename_i hfull
      rw [if_pos rfl]
      exact ⟨by rw [hpiece]; omega, by rw [hall], List.take_add, List.take_prefix _ _,
        fun h => by rw [hmade] at h; omega, fun _ => rfl⟩

/-- The deflate stream of 33000 times the letter `a`. -/
def longDeflate : Bytes :=
  [237, 193, 129, 0, 0, 0, 0, 195, 32, 214, 249, 75, 28, 228, 85, 1] ++ List.replicate 31 0 ++ [47, 6]

def longRun : Bytes := List.replicate 33000 97

/-- A first read that fills the buffer while the decoder takes the whole stream. -/
theorem heldCodec_first {enc dec : Bytes} (hne : enc ≠ []) (hsmall : enc.length < 2 ^ 32)
    (hlong : growth < dec.length) (hheld : dec.length ≤ growth + 258) (fuel : Nat)
    {ds₀ : ZlibStream (Nat × Nat) BufStream}
    (hopen : openZlib (heldCodec enc dec) (openBufferStream enc) = some ds₀) :
    ∃ w ds, readZlib (heldCodec enc dec) readBuffer (fuel + 2) ds₀ 0 growth = some (w, ds) ∧
      w.bytes.length = growth ∧ ds.z = (enc.length, growth) ∧ ds.room = 0 ∧ ds.consumed = 0 ∧
      ds.finished = false ∧ ds.buf.length = growth := by
  cases hopen
  have hpos := List.length_pos_iff.mpr hne
  have htake : enc.take (2 ^ 32 - 1) = enc := List.take_of_length_le (by omega)
  have hpiece : (dec.take growth).length = growth := by
    rw [List.length_take]
    omega
  have hup : zlibRound (heldCodec enc dec) readBuffer
      ⟨(0, 0), [], [], 0, 0, false, openBufferStream enc, 0, 0⟩ =
      (.again ⟨(0, 0), enc, [], 0, 0, false, openBufferStream enc, enc.length, 0⟩, false) := by
    simp only [zlibRound, zlibUpstream, readBuffer, openBufferStream, List.length_nil, ne_eq,
      not_true_eq_false, or_self, if_false, if_true, Nat.sub_zero, List.drop_zero, htake,
      Nat.ne_of_gt hpos]
  have hprod : zlibProduced growth (dec.take growth) = dec.take growth :=
    zlibProduced_small (by decide) hpiece.le
  have hrun : zlibRun (heldCodec enc dec)
      ⟨(0, 0), enc, [], 0, 0, false, openBufferStream enc, enc.length, 0⟩ =
      (0, growth, ⟨(enc.length, growth), [], dec.take growth, 0, 0, false, openBufferStream enc,
        enc.length, 0⟩) := by
    have hmod : growth % 2 ^ 32 = growth := by decide
    unfold zlibRun heldCodec
    dsimp only
    rw [if_pos rfl, hmod, if_neg (by omega), if_neg (by omega), if_neg (by decide),
      if_pos (by omega)]
    dsimp only
    rw [List.drop_zero, hprod, hpiece, Nat.zero_add, Nat.sub_self, List.drop_length, List.nil_append]
  have hround : zlibRound (heldCodec enc dec) readBuffer
      ⟨(0, 0), enc, [], 0, 0, false, openBufferStream enc, enc.length, 0⟩ =
      (.again ⟨(enc.length, growth), [], dec.take growth, 0, 0, false, openBufferStream enc,
        enc.length, 0⟩, false) := by
    unfold zlibRound
    rw [if_pos (Or.inl hne), hrun]
    rfl
  refine ⟨⟨dec.take growth, false⟩, ⟨(enc.length, growth), [], dec.take growth, 0, 0, false,
    openBufferStream enc, enc.length, 0⟩, ?_, hpiece, rfl, rfl, rfl, rfl, hpiece⟩
  have hmiss : ¬ (false || decide (add64 (0 + 0) growth ≤ ([] : Bytes).length)) = true := by decide
  unfold readZlib
  dsimp only
  rw [if_neg hmiss]
  show zlibLoop _ _ _ _ ⟨(0, 0), [], [], 0, 0, false, openBufferStream enc, 0, 0⟩ _ = _
  rw [zlibLoop, hup]
  dsimp only
  rw [if_pos (by decide), zlibLoop, hround]
  dsimp only
  rw [if_neg (by rw [hpiece]; omega)]
  rfl

section Long

theorem longDeflate_ne_nil : longDeflate ≠ [] := by decide

theorem longDeflate_length : longDeflate.length = 49 := by decide

theorem longRun_length : longRun.length = 33000 := List.length_replicate

/-- The filter after a first read that fills the buffer: `inflate` has taken the whole stream and
still holds 232 bytes. -/
structure Filled32K (ds : ZlibStream (Nat × Nat) BufStream) : Prop where
  room : ds.room = 0
  consumed : ds.consumed = 0
  finished : ds.finished = false
  buf : ds.buf.length = growth
  fed : (heldInflates longDeflate longRun longDeflate_ne_nil).fed ds.z = longDeflate
  made : ((heldInflates longDeflate longRun longDeflate_ne_nil).made ds.z).length = growth

/-- The first read, as a run of one read with enough room. -/
theorem longRun_first :
    ∃ ds₀ w ds,
      openZlib (heldCodec longDeflate longRun) (openBufferStream longDeflate) = some ds₀ ∧
      readZlib (heldCodec longDeflate longRun) readBuffer 70000 ds₀ 0 growth = some (w, ds) ∧
      w.bytes.length = growth ∧ Filled32K ds ∧
      Run (readZlib (heldCodec longDeflate longRun) readBuffer 70000)
        (fun ds consume need => need < 2 ^ 63 ∧
          RoomEnough (heldInflates longDeflate longRun longDeflate_ne_nil) ds consume need)
        ds₀ ds growth 0 := by
  obtain ⟨w, ds, hread, hw, hz, hr, hc, hf, hb⟩ := heldCodec_first longDeflate_ne_nil
    (by rw [longDeflate_length]; norm_num) (by rw [longRun_length]; decide)
    (by rw [longRun_length]; decide) 69998 rfl
  have hmade : ((heldInflates longDeflate longRun longDeflate_ne_nil).made ds.z).length = growth := by
    rw [hz]
    show (longRun.take growth).length = growth
    rw [List.length_take, longRun_length]
    rfl
  have hfed : (heldInflates longDeflate longRun longDeflate_ne_nil).fed ds.z = longDeflate := by
    rw [hz]
    exact List.take_length
  have hrun := (Run.start : Run (readZlib (heldCodec longDeflate longRun) readBuffer 70000)
    (fun ds consume need => need < 2 ^ 63 ∧
      RoomEnough (heldInflates longDeflate longRun longDeflate_ne_nil) ds consume need) _ _ _ _).read
    le_rfl ⟨by decide, Or.inr (Or.inr ⟨by norm_num, fun _ => Or.inl rfl⟩)⟩ hread
  rw [hw] at hrun
  exact ⟨_, w, ds, rfl, hread, hw, ⟨hr, hc, hf, hb, hfed, hmade⟩, hrun⟩

/-- The consumer takes the whole buffer, and `Z_FINISH` finds room for what is left. -/
theorem read_zlib_refines_long :
    ∃ ds₀ ds w ds',
      openZlib (heldCodec longDeflate longRun) (openBufferStream longDeflate) = some ds₀ ∧
      Run (readZlib (heldCodec longDeflate longRun) readBuffer 70000)
        (fun ds consume need => need < 2 ^ 63 ∧
          RoomEnough (heldInflates longDeflate longRun longDeflate_ne_nil) ds consume need)
        ds₀ ds growth 0 ∧
      readZlib (heldCodec longDeflate longRun) readBuffer 70000 ds growth 232 = some (w, ds') ∧
      w.failed = false ∧ w.bytes <+: longRun.drop growth ∧ 232 ≤ w.bytes.length := by
  obtain ⟨ds₀, -, ds, hopen, -, -, hds, hrun⟩ := longRun_first
  have hroom : RoomEnough (heldInflates longDeflate longRun longDeflate_ne_nil) ds growth 232 := by
    refine Or.inr (Or.inr ⟨?_, fun _ => Or.inr ?_⟩)
    · rw [hds.room, hds.consumed]
      decide
    · rw [hds.room, hds.consumed, hds.made, longRun_length]
      decide
  have hquiet : Quiet bufferContract := by
    intro s consume need w s' _ hread
    cases hread
    rfl
  obtain ⟨w, ds', hread, hfailed, hprefix, henough⟩ :=
    ((read_zlib_refines_iff (heldInflates longDeflate longRun longDeflate_ne_nil) bufferContract
      (s := openBufferStream longDeflate) trivial rfl (by rw [longRun_length]; norm_num)
      (by rw [longRun_length, longDeflate_length]; norm_num) hopen hrun).2 growth 232 le_rfl
      (by norm_num)).1 hroom
  rw [Nat.zero_add] at hprefix henough
  refine ⟨ds₀, ds, w, ds', hopen, hrun, hread, hfailed hquiet, hprefix, ?_⟩
  rw [longRun_length] at henough
  exact henough

/-- The buffer is filled, the consumer takes one byte, and the read for more fails: `inflate`
still holds 232 bytes and is given room for one. -/
theorem held_output_fails :
    ∃ ds₀ w ds ds',
      openZlib (heldCodec longDeflate longRun) (openBufferStream longDeflate) = some ds₀ ∧
      readZlib (heldCodec longDeflate longRun) readBuffer 70000 ds₀ 0 32768 = some (w, ds) ∧
      w.bytes.length = 32768 ∧
      readZlib (heldCodec longDeflate longRun) readBuffer 70000 ds 1 32768 =
        some (⟨[], true⟩, ds') := by
  obtain ⟨ds₀, w, ds, hopen, hread, hw, hds, hrun⟩ := longRun_first
  have hvalid := (run_inflate (openZlib_valid (D := heldInflates longDeflate longRun longDeflate_ne_nil)
    (C := bufferContract) (s := openBufferStream longDeflate) trivial rfl hopen).1
    (by rw [longRun_length]; norm_num) (by rw [longRun_length, longDeflate_length]; norm_num) hrun).1
  have hbad : ¬ RoomEnough (heldInflates longDeflate longRun longDeflate_ne_nil) ds 1 32768 := by
    unfold RoomEnough
    rw [hds.finished, hds.buf, hds.consumed, hds.room, hds.made, longRun_length]
    simp [hds.fed, growth]
  obtain ⟨ds', hfail, -⟩ := (readZlib_serve hvalid (by rw [longRun_length]; norm_num) 70000 1 32768
      (by rw [longRun_length, longDeflate_length]; norm_num)
      (by rw [ZlibStream.lent, hds.buf, hds.consumed]; decide) (by norm_num)).2 hbad
      (by rw [hds.room, hds.consumed]; norm_num)
  exact ⟨ds₀, w, ds, ds', hopen, hread, hw, hfail⟩

end Long

end Held

end ToolchainTools
