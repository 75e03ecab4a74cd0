import ToolchainTools.Stream.ZipRuns
import ToolchainTools.Stream.ZlibRuns
import ToolchainTools.Streams.Feed

/-!
# Members of a zip file as feeds

`extract_file` takes every window of a member whole, so the inflate filter is asked for more only
when its buffer is empty. The buffer then never has more than its first step, and what the decoder
holds at the end of its input fits there: the condition under which `read_zlib` fails is not met
(`inflateFeed`). A member that is stored or deflated is opened as a feed of its data
(`openZipFile_feed`).
-/

namespace ToolchainTools

open CLib Streams

variable {σ ζ : Type} {read : Reader σ} {Z : Codec ζ} {enc dec : Bytes}

/-! ## The buffer of the inflate filter -/

/-- The buffer has not been given yet, or has its first step. -/
def ZlibStream.OneStep (ds : ZlibStream ζ σ) : Prop :=
  ds.buf.length + ds.room = 0 ∨ ds.buf.length + ds.room = growth

section Buffer

variable {D : Inflates Z enc dec} {C : Contract read} {ds ds' : ZlibStream ζ σ}

/-- A call of the codec makes the buffer grow only if there is no room. -/
theorem zlibRun_size (hv : ds.Valid D C) (hsmall : ds.room < 2 ^ 32) (hlive : ds.finished = false)
    (hinput : ds.nextIn ≠ [] ∨ ds.flush ≠ 0) :
    (zlibRun Z ds).2.2.buf.length + (zlibRun Z ds).2.2.room =
      ds.buf.length + if ds.room = 0 then growth else ds.room := by
  generalize hr : (if ds.room = 0 then growth else ds.room) = room
  have hpos : 0 < room := by
    rw [← hr]
    unfold growth
    split <;> omega
  have hroom : room < 2 ^ 32 := by
    rw [← hr]
    unfold growth
    split <;> omega
  have hout : (Z.run ds.z ds.nextIn room ds.flush).out.length ≤ room := by
    by_cases hnil : ds.nextIn = []
    · have hflush := hinput.resolve_left (not_not.mpr hnil)
      obtain ⟨hfinish, hend⟩ := hv.flush_eq.resolve_left hflush
      rw [hnil, hfinish]
      exact (D.finish ds.z room (hv.under_way hlive) hend hpos).out_le
    · have hflush : ds.flush = 0 := by
        rcases hv.flush_eq with h | ⟨-, hend⟩
        · exact h
        · exact absurd (hv.nextIn_nil hend) hnil
      obtain ⟨tail, htail⟩ := hv.window
      have hagree : D.fed ds.z ++ ds.nextIn <+: enc := by
        refine ⟨tail, ?_⟩
        rw [List.append_assoc, htail]
        exact hv.order
      rw [hflush]
      exact (D.call ds.z ds.nextIn room (hv.under_way hlive) hnil hpos hagree).out_le
  unfold zlibRun
  dsimp only
  rw [hr, Nat.mod_eq_of_lt hroom, zlibProduced_small hroom hout, List.length_append]
  omega

/-- Reading more from upstream does not touch the buffer. -/
theorem zlibUpstream_size {bad : Bool}
    (h : zlibUpstream read ds = (.again ds', bad) ∨ zlibUpstream read ds = (.leave ds', bad)) :
    ds'.buf = ds.buf ∧ ds'.room = ds.room := by
  unfold zlibUpstream at h
  split at h
  · split at h
    · rcases h with h | h <;> cases h
    · rcases h with h | h
      · cases h
        exact ⟨rfl, rfl⟩
      · cases h
  · rcases h with h | h
    · cases h
    · cases h
      exact ⟨rfl, rfl⟩

/-- A round with an empty buffer leaves it at its first step. -/
theorem zlibRound_oneStep (hv : ds.Valid D C) (hsmall : ds.room < 2 ^ 32)
    (hlive : ds.finished = false) (hnil : ds.buf = []) (hsize : ds.OneStep) {bad : Bool}
    (h : zlibRound Z read ds = (.again ds', bad) ∨ zlibRound Z read ds = (.leave ds', bad)) :
    ds'.OneStep := by
  have hup : ∀ {d : ZlibStream ζ σ}, d.OneStep →
      (zlibUpstream read d = (.again ds', bad) ∨ zlibUpstream read d = (.leave ds', bad)) →
      ds'.OneStep := by
    intro d hd hcall
    obtain ⟨hbuf, hroom⟩ := zlibUpstream_size hcall
    unfold ZlibStream.OneStep
    rw [hbuf, hroom]
    exact hd
  unfold zlibRound at h
  by_cases hinput : ds.nextIn ≠ [] ∨ ds.flush ≠ 0
  · rw [if_pos hinput] at h
    have hrun : (zlibRun Z ds).2.2.OneStep := by
      right
      rw [zlibRun_size hv hsmall hlive hinput, hnil, List.length_nil, Nat.zero_add]
      unfold ZlibStream.OneStep at hsize
      rw [hnil, List.length_nil, Nat.zero_add] at hsize
      split
      · rfl
      · rename_i hne
        exact hsize.resolve_left hne
    dsimp only at h
    split at h
    · rcases h with h | h
      · cases h
      · cases h
        exact hrun
    · split at h
      · rcases h with h | h <;> cases h
      · split at h
        · rcases h with h | h
          · cases h
            exact hrun
          · cases h
        · exact hup hrun h
  · rw [if_neg hinput] at h
    exact hup hsize h

/-- The loop for one byte, from an empty buffer. -/
theorem zlibLoop_oneStep (hv : ds.Valid D C) (hroom : ds.RoomOk D) (hlive : ds.finished = false)
    (hnil : ds.buf = []) (hsize : ds.OneStep) {fuel : Nat} {failed : Bool} {w : Window}
    (hloop : zlibLoop Z read 1 fuel ds failed = some (w, ds')) : ds'.OneStep := by
  induction fuel generalizing ds failed with
  | zero => cases hloop
  | succ fuel ih =>
    obtain ⟨ds₁, bad, -, hv₁, -, hround⟩ := zlibRound_spec hv hroom hlive
    unfold zlibLoop at hloop
    rcases hround with ⟨hagain, hlive₁, hroom₁, -⟩ | ⟨hleave, -⟩
    · have hsize₁ := zlibRound_oneStep hv hroom.small hlive hnil hsize (Or.inl hagain)
      rw [hagain] at hloop
      dsimp only at hloop
      split at hloop
      · rename_i hshort
        exact ih hv₁ hroom₁ hlive₁ (List.length_eq_zero_iff.mp (by omega)) hsize₁ hloop
      · cases hloop
        exact hsize₁
    · have hsize₁ := zlibRound_oneStep hv hroom.small hlive hnil hsize (Or.inr hleave)
      rw [hleave] at hloop
      cases hloop
      exact hsize₁

/-- In a buffer of one step there is room for what the decoder still holds. -/
theorem roomEnough_one (hv : ds.Valid D C) (hsize : ds.OneStep) {consume : Nat}
    (hconsume : consume ≤ ds.lent) : RoomEnough D ds consume 1 := by
  have hle := hv.consumed_le
  unfold ZlibStream.lent at hconsume
  by_cases hend : ds.finished = true
  · exact Or.inl hend
  · by_cases hserved : ds.consumed + consume + 1 ≤ ds.buf.length
    · exact Or.inr (Or.inl hserved)
    · have hall : ds.room + (ds.consumed + consume) = ds.buf.length + ds.room := by omega
      have hgrowth : growth < 2 ^ 32 := by decide
      refine Or.inr (Or.inr ⟨?_, fun hfed => ?_⟩)
      · rw [hall]
        rcases hsize with h | h
        · omega
        · omega
      · have hheld := D.held ds.z (hv.under_way (by simpa using hend)) hfed
        rw [hall]
        rcases hsize with h | h
        · exact Or.inl h
        · exact Or.inr (by omega)

theorem readZlib_oneStep (hv : ds.Valid D C) (hsize : ds.OneStep) (hdec : dec.length < 2 ^ 63)
    {fuel consume : Nat} (hconsume : consume ≤ ds.lent) {w : Window}
    (hread : readZlib Z read fuel ds consume 1 = some (w, ds')) : ds'.OneStep := by
  have hle := hv.consumed_le
  have hbuf := hv.buf_le
  have hmade := hv.data.length_le
  have hroom := roomEnough_one hv hsize hconsume
  unfold ZlibStream.lent at hconsume
  have hadd : add64 (ds.consumed + consume) 1 = ds.consumed + consume + 1 :=
    add64_of_lt (by omega)
  unfold readZlib at hread
  dsimp only at hread
  rw [hadd] at hread
  split at hread
  · cases hread
    exact hsize
  · rename_i hserved
    simp only [Bool.or_eq_true, decide_eq_true_eq, not_or, Bool.not_eq_true] at hserved
    obtain ⟨hlive, hshort⟩ := hserved
    have hnil : ds.buf.drop (ds.consumed + consume) = [] := List.drop_eq_nil_iff.mpr (by omega)
    obtain ⟨hsmall, henough⟩ :=
      (hroom.resolve_left (by rw [hlive]; simp)).resolve_left (by omega)
    have hsize₁ : ds.buf.length + ds.room = ds.room + (ds.consumed + consume) := by omega
    have hv₁ : ZlibStream.Valid D C { ds with
        buf := ds.buf.drop (ds.consumed + consume)
        room := ds.room + (ds.consumed + consume)
        consumed := 0 } :=
      ⟨hv.source, hv.readIn_le, hv.nextIn_le, hv.nextIn_small, hv.window, hv.order, hv.data,
        hv.flush_eq, hv.under_way, hv.ended, Nat.zero_le _, by
          dsimp only
          rw [hnil]
          exact Nat.zero_le _⟩
    refine zlibLoop_oneStep hv₁ ⟨hsmall, henough⟩ hlive hnil ?_ hread
    unfold ZlibStream.OneStep
    dsimp only
    rw [hnil, List.length_nil, Nat.zero_add, ← hsize₁]
    exact hsize

end Buffer

section Inflated

variable {D : Inflates Z enc dec} {C : Contract read} {ds : ZlibStream ζ σ} {fuel consume : Nat}

theorem ZlibStream.lent_le_rest (D : Inflates Z enc dec) (ds : ZlibStream ζ σ) :
    ds.lent ≤ (ds.rest D).length := by
  simp only [ZlibStream.lent, ZlibStream.rest, List.length_append, List.length_drop]
  omega

/-- One round of `extract_file` over inflated data. -/
theorem readZlib_feeds (hv : ds.Valid D C) (hsize : ds.OneStep) (hdec : dec.length < 2 ^ 63)
    (hfuel : 2 * (enc.length + dec.length) + 2 < fuel) (hconsume : consume ≤ ds.lent) :
    ∃ w ds', readZlib Z read fuel ds consume 1 = some (w, ds') ∧
      (ds'.Valid D C ∧ ds'.OneStep ∧ ds'.rest D = (ds.rest D).drop consume) ∧
      ds'.lent = w.bytes.length ∧
      Serves (ds.rest D) consume 1 w ((ds.rest D).drop consume) := by
  obtain ⟨w, ds', hread, hv', hlent, -, hserve⟩ := (readZlib_serve hv hdec fuel consume 1 hfuel
    hconsume (by norm_num)).1 (roomEnough_one hv hsize hconsume)
  rw [← hserve.rest_eq]
  exact ⟨w, ds', hread, ⟨hv', readZlib_oneStep hv hsize hdec hconsume hread, rfl⟩, hlent, hserve⟩

end Inflated

/-- Inflated data is a feed. -/
def inflateFeed (D : Inflates Z enc dec) (C : Contract read) {fuel : Nat}
    (hdec : dec.length < 2 ^ 63) (hfuel : 2 * (enc.length + dec.length) + 2 < fuel) :
    Feed (readZlib Z read fuel) where
  ahead rest ds := ds.Valid D C ∧ ds.OneStep ∧ ds.rest D = rest
  lent := ZlibStream.lent
  lent_le _ ds h := h.2.2 ▸ ds.lent_le_rest D
  serve _ _ _ h hconsume := h.2.2 ▸ readZlib_feeds h.1 h.2.1 hdec hfuel hconsume

/-! ## Members -/

/-- How much of a member has been offered last. -/
def ZipStream.lent : ZipStream ζ → Nat
  | .stored s => min s.source.lent s.left
  | .inflated s => s.lent

/-- What is extracted for an entry of the file `content`. -/
inductive ZipEntry.Gives (Z : Codec ζ) (content : Bytes) (e : ZipEntry) (data : Bytes) : Prop
  | stored (hmethod : e.method = 0) (hdata : e.body content = data)
  | deflated {z : ζ} (hmethod : e.method = 8) (hinit : Z.init = some z)
      (D : Inflates Z (e.body content) data) (hsmall : data.length < 2 ^ 63)

section Member

variable {content data : Bytes} {e : ZipEntry} {z : ZipContainer} {rounds : Nat}

theorem body_length_le (content : Bytes) (e : ZipEntry) : (e.body content).length ≤ content.length := by
  rw [ZipEntry.body, List.length_take, List.length_drop]
  omega

/-- The stream below a member has the bytes of the entry to give. -/
theorem limited_body (hz : Reported content e z) (hsmall : content.length < 2 ^ 63)
    {f : CFile} (hf : f.Working content) (heof : f.eof = false)
    (hpos : f.pos = e.bodyOffset content) :
    (openLimited (openFileStream f) z.compressedLen).Valid (fileContract content) ∧
      (openLimited (openFileStream f) z.compressedLen).rest (fileContract content) =
        e.body content := by
  refine ⟨⟨⟨⟨hf.good, hf.no_err, fun _ => heof, by simp [openLimited, openFileStream], le_rfl, ?_⟩,
    hf.content_eq⟩, ?_⟩, ?_⟩
  · simp only [openLimited, openFileStream, hf.content_eq, List.length_nil]
    omega
  · rw [openLimited, hz.compressedLen]
    exact e.lengths.compressed.value_lt
  · show ((openFileStream f).rest).take z.compressedLen = e.body content
    simp only [FileStream.rest, openFileStream, List.drop_nil, List.nil_append, hf.content_eq,
      hpos, hz.compressedLen, ZipEntry.body]

/-- A member whose bytes are in the file is opened as a feed of its data. -/
theorem openZipFile_feed (hz : Reported content e z) (hsmall : content.length < 2 ^ 63)
    (hbody : e.HasBody content) (hgives : e.Gives Z content data)
    (hrounds : 2 * (content.length + data.length) + 2 < rounds) :
    ∃ s z', openZipFile Z z = (some s, z') ∧
      ∃ F : Feed (readZip Z rounds), F.ahead data s ∧ F.lent s = 0 := by
  obtain ⟨f, hseek, hf, heof, hpos⟩ := seekZipBody_hasBody hz hsmall hbody
  obtain ⟨hv, hrest⟩ := limited_body hz hsmall hf heof hpos
  let C := limitContract (fileContract content)
  let source := openLimited (openFileStream f) z.compressedLen
  have hempty : C.lent source = 0 := Nat.zero_min _
  cases hgives with
  | stored hmethod hdata =>
    let F : Feed (readZip Z rounds) := C.feed.embed .stored ZipStream.lent (fun _ => rfl)
      fun _ _ _ => rfl
    have hahead : C.feed.ahead data source := ⟨hv, hrest.trans hdata⟩
    refine ⟨.stored source, { z with f := f }, ?_, F, ⟨source, rfl, hahead⟩, hempty⟩
    unfold openZipFile
    rw [hseek]
    simp [hz.method, hmethod, source]
  | @deflated state hmethod hinit D hdec =>
    have hbodyLength := body_length_le content e
    have hopen : openZlib Z source = some ⟨state, [], [], 0, 0, false, source, 0, 0⟩ := by
      rw [openZlib, hinit, Option.map_some]
    obtain ⟨hopened, hinflated⟩ := openZlib_valid (D := D) (C := C) hv hrest hopen
    let F : Feed (readZip Z rounds) := (inflateFeed D C hdec (by omega)).embed .inflated
      ZipStream.lent (fun _ => rfl) fun _ _ _ => rfl
    refine ⟨.inflated _, { z with f := f }, ?_, F,
      ⟨_, rfl, hopened, Or.inl rfl, hinflated⟩, rfl⟩
    unfold openZipFile
    rw [hseek]
    simp [hz.method, hmethod, hopen, source]

end Member

end ToolchainTools
