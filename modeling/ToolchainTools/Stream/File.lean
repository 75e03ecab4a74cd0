import ToolchainTools.CLib.File
import ToolchainTools.Streams.Contract

/-!
# The file source (`tools/stream/source-file.c`)

`readFile` refills its buffer in full rounds until the window is long enough. On a device
that works it keeps the read contract for the bytes from the position of the `FILE` on.
-/

namespace ToolchainTools

open CLib Streams

/-- `live` says that `fs->f` is not `NULL` yet. `buf` are the first `avail` bytes of the
buffer and `room` is `bufsz - avail`. -/
structure FileStream where
  f : CFile
  live : Bool
  buf : Bytes
  room : Nat
  consumed : Nat

/-- `bufsz` grows by this when the buffer is full. -/
def growth : Nat := 32 * 1024

/-- The refill loop; false when it ends in the error path. -/
def fileFill (need : Nat) (fs : FileStream) : Bool × FileStream :=
  let room := if fs.room = 0 then growth else fs.room
  let r := fs.f.fread room
  let fs' : FileStream :=
    { fs with f := r.2, buf := fs.buf ++ r.1, room := room - r.1.length }
  if _herr : r.2.err then (false, fs')
  else if _heof : r.2.eof then (true, { fs' with live := false })
  else if fs'.buf.length < need then fileFill need fs'
  else (true, fs')
termination_by fs.f.readable.length - fs.f.pos
decreasing_by
  have hroom : 0 < room := by
    unfold room
    split
    · exact Nat.zero_lt_succ _
    · omega
  have hfull := CFile.length_fread_of_full (f := fs.f) (n := room)
    (by simpa using _heof) (by simpa using _herr)
  simp only [CFile.fread_fst, List.length_take, List.length_drop] at hfull
  simp only [CFile.fread_readable, CFile.fread_pos, List.length_take, List.length_drop]
  omega

def readFile : Reader FileStream := fun fs consume need =>
  let consumed := fs.consumed + consume
  if !fs.live || add64 consumed need ≤ fs.buf.length then
    some (⟨fs.buf.drop consumed, false⟩, { fs with consumed := consumed })
  else
    let fs : FileStream :=
      { fs with buf := fs.buf.drop consumed, room := fs.room + consumed, consumed := 0 }
    match fileFill need fs with
    | (true, fs) => some (⟨fs.buf, false⟩, fs)
    | (false, fs) => some (⟨[], true⟩, { fs with live := false })

def openFileStream (f : CFile) : FileStream := ⟨f, true, [], 0, 0⟩

namespace FileStream

/-- A stream on a working device, in the middle of serving a file. -/
structure Sound (fs : FileStream) : Prop where
  good : fs.f.badAt = none
  no_err : fs.f.err = false
  eof_end : fs.f.eof = true → fs.f.content.length ≤ fs.f.pos
  ended : fs.live = false → fs.f.content.length ≤ fs.f.pos
  consumed_le : fs.consumed ≤ fs.buf.length

/-- A stream on a working device, in the middle of serving a file of less than `2 ^ 63`
bytes. -/
structure Valid (fs : FileStream) : Prop where
  good : fs.f.badAt = none
  no_err : fs.f.err = false
  live_eof : fs.live = true → fs.f.eof = false
  ended : fs.live = false → fs.f.content.length ≤ fs.f.pos
  consumed_le : fs.consumed ≤ fs.buf.length
  small : fs.buf.length + (fs.f.content.length - fs.f.pos) < 2 ^ 63

/-- The bytes not yet consumed: the buffered ones and those still in the file. -/
def rest (fs : FileStream) : Bytes := fs.buf.drop fs.consumed ++ fs.f.content.drop fs.f.pos

def lent (fs : FileStream) : Nat := fs.buf.length - fs.consumed

/-- The number of bytes in the buffer. -/
def avail (fs : FileStream) : Nat := fs.buf.length

/-- The number of bytes that the buffer has been given. -/
def bufsz (fs : FileStream) : Nat := fs.avail + fs.room

theorem length_rest (fs : FileStream) :
    fs.rest.length = fs.lent + (fs.f.content.length - fs.f.pos) := by
  simp only [rest, lent, List.length_append, List.length_drop]

theorem Valid.sound {fs : FileStream} (hv : fs.Valid) : fs.Sound := by
  refine ⟨hv.good, hv.no_err, fun heof => ?_, hv.ended, hv.consumed_le⟩
  apply hv.ended
  by_contra hlive
  rw [hv.live_eof (by simpa using hlive)] at heof
  cases heof

/-- One `fread` moves bytes from the file to the end of the buffer. -/
theorem Sound.fread {fs : FileStream} (hs : fs.Sound) (n room : Nat) {live : Bool}
    (heof : (fs.f.fread n).2.eof = true → fs.f.content.length ≤ (fs.f.fread n).2.pos)
    (hend : live = false → fs.f.content.length ≤ (fs.f.fread n).2.pos) :
    Sound ⟨(fs.f.fread n).2, live, fs.buf ++ (fs.f.fread n).1, room, fs.consumed⟩ := by
  have hconsumed := hs.consumed_le
  refine ⟨?_, ?_, ?_, ?_, ?_⟩
  · rw [CFile.fread_badAt]
    exact hs.good
  · rw [CFile.fread_err, hs.no_err, hs.good]
    simp
  · rw [CFile.fread_content]
    exact heof
  · rw [CFile.fread_content]
    exact hend
  · dsimp only
    rw [List.length_append]
    omega

end FileStream

/-- What one run of the refill loop leaves as it is. -/
structure Refilled (fs fs' : FileStream) : Prop where
  sound : fs'.Sound
  live_eof : fs'.live = true → fs'.f.eof = false
  consumed : fs'.consumed = fs.consumed
  content : fs'.f.content = fs.f.content
  bytes : fs'.buf ++ fs'.f.content.drop fs'.f.pos = fs.buf ++ fs.f.content.drop fs.f.pos
  steps : growth ∣ fs.bufsz → growth ∣ fs'.bufsz

/-- The buffer is as large as before the read, or one step larger. -/
theorem dvd_bufsz_fread (fs : FileStream) {room : Nat}
    (hroom : room = if fs.room = 0 then growth else fs.room) (hdvd : growth ∣ fs.bufsz) :
    growth ∣ (fs.buf ++ (fs.f.fread room).1).length + (room - (fs.f.fread room).1.length) := by
  have hle : (fs.f.fread room).1.length ≤ room := by
    rw [CFile.fread_fst, List.length_take]
    exact Nat.min_le_left _ _
  have hsum : (fs.buf ++ (fs.f.fread room).1).length + (room - (fs.f.fread room).1.length) =
      fs.buf.length + room := by
    rw [List.length_append]
    omega
  rw [hsum, hroom]
  unfold FileStream.bufsz FileStream.avail at hdvd
  split
  · rename_i hfull
    rw [hfull, Nat.add_zero] at hdvd
    exact Nat.dvd_add hdvd (Nat.dvd_refl growth)
  · exact hdvd

/-- On a working device the loop ends well. It only moves bytes from the file to the buffer,
and it stops short of `need` only at the end of the file. -/
theorem fileFill_spec {need : Nat} {fs : FileStream} (hs : fs.Sound) (hlive : fs.live = true) :
    ∃ fs', fileFill need fs = (true, fs') ∧ Refilled fs fs' ∧
      (need ≤ fs'.buf.length ∨ fs'.f.content.drop fs'.f.pos = []) := by
  fun_induction fileFill need fs with
  | case1 fs room r fs' herr =>
    exfalso
    simp [r, CFile.fread_err, hs.no_err, hs.good] at herr
  | case2 fs room r fs' herr heof =>
    have hsplit := CFile.fread_append_drop hs.good room
    have hcontent : r.2.content = fs.f.content := fs.f.fread_content room
    have hend : fs.f.content.length ≤ r.2.pos := by
      have hpos : r.2.pos = fs.f.pos + ((fs.f.readable.drop fs.f.pos).take room).length :=
        fs.f.fread_pos room
      have hset : r.2.eof = _ := fs.f.fread_eof room
      rw [hset, Bool.or_eq_true] at heof
      rcases heof with hold | hnew
      · have := hs.eof_end hold
        omega
      · simp only [hs.good, Option.isNone_none, Bool.and_true, decide_eq_true_eq,
          CFile.fread_fst, CFile.readable_of_good hs.good, List.length_take,
          List.length_drop] at hnew
        rw [hpos, CFile.readable_of_good hs.good, List.length_take, List.length_drop]
        omega
    refine ⟨_, rfl, ⟨hs.fread room _ (fun _ => hend) (fun _ => hend), by simp, rfl, hcontent, ?_,
      dvd_bufsz_fread fs rfl⟩, ?_⟩
    · simp only [fs', List.append_assoc, hcontent]
      rw [hsplit]
    · right
      rw [List.drop_eq_nil_iff, hcontent]
      exact hend
  | case3 fs room r fs' herr heof hmore ih =>
    have hsplit := CFile.fread_append_drop hs.good room
    have hcontent : r.2.content = fs.f.content := fs.f.fread_content room
    have hs' : fs'.Sound := by
      refine hs.fread room _ (fun h => absurd h heof) ?_
      rw [hlive]
      exact fun h => absurd h (by simp)
    obtain ⟨fs'', hfill, hre, hstop⟩ := ih hs' hlive
    refine ⟨fs'', hfill, ⟨hre.sound, hre.live_eof, hre.consumed, hre.content.trans hcontent, ?_,
      fun hdvd => hre.steps (dvd_bufsz_fread fs rfl hdvd)⟩, hstop⟩
    rw [hre.bytes]
    simp only [fs', List.append_assoc, hcontent]
    rw [hsplit]
  | case4 fs room r fs' herr heof hmore =>
    have hsplit := CFile.fread_append_drop hs.good room
    have hcontent : r.2.content = fs.f.content := fs.f.fread_content room
    have hs' : fs'.Sound := by
      refine hs.fread room _ (fun h => absurd h heof) ?_
      rw [hlive]
      exact fun h => absurd h (by simp)
    refine ⟨fs', rfl, ⟨hs', fun _ => by simpa using heof, rfl, hcontent, ?_,
      dvd_bufsz_fread fs rfl⟩, Or.inl (by omega)⟩
    simp only [fs', List.append_assoc, hcontent]
    rw [hsplit]

/-- What one read of a file keeps. -/
structure FileStep (consume : Nat) (fs fs' : FileStream) : Prop where
  sound : fs'.Sound
  consumed_le : fs'.consumed ≤ fs.consumed + consume
  live_eof : (fs.live = true → fs.f.eof = false) → fs'.live = true → fs'.f.eof = false
  content : fs'.f.content = fs.f.content
  steps : growth ∣ fs.bufsz → growth ∣ fs'.bufsz

/-- One read of a file whose arguments do not overflow. -/
theorem readFile_sound {fs : FileStream} (hs : fs.Sound) {consume need : Nat}
    (hconsume : consume ≤ fs.lent) (hfits : fs.consumed + consume + need < 2 ^ 64) :
    ∃ w fs', readFile fs consume need = some (w, fs') ∧ w.failed = false ∧ FileStep consume fs fs' ∧
      fs'.lent = w.bytes.length ∧ Serves fs.rest consume need w fs'.rest := by
  have hle := hs.consumed_le
  have hin : fs.consumed + consume ≤ fs.buf.length := by
    unfold FileStream.lent at hconsume
    omega
  have hrest : fs.rest.drop consume =
      fs.buf.drop (fs.consumed + consume) ++ fs.f.content.drop fs.f.pos := by
    unfold FileStream.rest
    rw [List.drop_append_of_le_length (by rw [List.length_drop]; omega), List.drop_drop]
  unfold readFile
  dsimp only
  rw [add64_of_lt hfits]
  split
  · rename_i hserved
    refine ⟨_, _, rfl, rfl, ⟨⟨hs.good, hs.no_err, hs.eof_end, hs.ended, hin⟩, le_rfl, id,
      rfl, id⟩, ?_, hrest.symm, List.prefix_append _ _, ?_⟩
    · simp only [FileStream.lent, List.length_drop]
    · rcases Bool.eq_false_or_eq_true fs.live with hlive | hlive
      · have hlong : fs.consumed + consume + need ≤ fs.buf.length := by simpa [hlive] using hserved
        simp only [List.length_drop]
        omega
      · have := hs.ended hlive
        simp only [FileStream.rest, List.length_append, List.length_drop]
        omega
  · rename_i hmiss
    have hlive : fs.live = true := by
      rw [Bool.or_eq_true, not_or] at hmiss
      simpa using hmiss.1
    have hs' : FileStream.Sound ⟨fs.f, fs.live, fs.buf.drop (fs.consumed + consume),
        fs.room + (fs.consumed + consume), 0⟩ :=
      ⟨hs.good, hs.no_err, hs.eof_end, hs.ended, Nat.zero_le _⟩
    obtain ⟨fs', hfill, hre, hstop⟩ := fileFill_spec hs' hlive
    rw [hfill]
    have hzero : fs'.consumed = 0 := hre.consumed
    have hrest' : fs'.rest = fs'.buf ++ fs'.f.content.drop fs'.f.pos := by
      simp only [FileStream.rest, hzero, List.drop_zero]
    refine ⟨_, _, rfl, rfl, ⟨hre.sound, by omega, fun _ => hre.live_eof, hre.content,
      fun hdvd => ?_⟩, ?_, ?_, ?_, ?_⟩
    · apply hre.steps
      have hsame : fs.bufsz = (fs.buf.drop (fs.consumed + consume)).length +
          (fs.room + (fs.consumed + consume)) := by
        rw [List.length_drop]
        unfold FileStream.bufsz FileStream.avail
        omega
      rw [hsame] at hdvd
      exact hdvd
    · simp only [FileStream.lent, hzero, Nat.sub_zero]
    · rw [hrest, hrest', hre.bytes]
    · rw [hrest']
      exact List.prefix_append _ _
    · rw [hrest', List.length_append]
      dsimp only
      rcases hstop with hlong | hend
      · omega
      · rw [hend, List.length_nil]
        omega

/-- One read of a file. The content stays, and the contract is kept. -/
theorem readFile_serve {fs : FileStream} (hv : fs.Valid) {consume need : Nat}
    (hconsume : consume ≤ fs.lent) (hneed : need < 2 ^ 63) :
    ∃ w fs', readFile fs consume need = some (w, fs') ∧ fs'.Valid ∧
      fs'.f.content = fs.f.content ∧ fs'.lent = w.bytes.length ∧
      Serves fs.rest consume need w fs'.rest := by
  have hle := hv.consumed_le
  have hsmall := hv.small
  obtain ⟨w, fs', hread, -, hstep, hlent, hserve⟩ := readFile_sound hv.sound hconsume
    (show _ + need < _ by unfold FileStream.lent at hconsume; omega)
  refine ⟨w, fs', hread, ⟨hstep.sound.good, hstep.sound.no_err, hstep.live_eof hv.live_eof,
    hstep.sound.ended, hstep.sound.consumed_le, ?_⟩, hstep.content, hlent, hserve⟩
  have hleft := fs'.length_rest
  have hleft₀ := fs.length_rest
  have hmoved := hstep.consumed_le
  have hconsumed := hstep.sound.consumed_le
  rw [hserve.rest_eq, List.length_drop, hleft₀] at hleft
  unfold FileStream.lent at hleft hconsume
  omega

/-- The contract of a file stream over the file with the bytes `content`. -/
def fileContract (content : Bytes) : Contract readFile where
  valid fs := fs.Valid ∧ fs.f.content = content
  rest := FileStream.rest
  lent := FileStream.lent
  lent_le fs hv := by
    simp only [FileStream.lent, FileStream.rest, List.length_append, List.length_drop]
    omega
  serve fs consume need hv hconsume hneed := by
    obtain ⟨w, fs', hread, hvalid, hcontent, hlent, hserve⟩ := readFile_serve hv.1 hconsume hneed
    exact ⟨w, fs', hread, ⟨hvalid, hcontent.trans hv.2⟩, hlent, hserve⟩

/-- Reading a file does not change it, and a working device goes on working. -/
theorem fileFill_working {content : Bytes} (need : Nat) (fs : FileStream)
    (h : fs.f.Working content) : (fileFill need fs).2.f.Working content := by
  fun_induction fileFill need fs with
  | case1 | case2 | case4 => exact h.fread _
  | case3 fs room r fs' herr heof hmore ih => exact ih (h.fread _)

theorem readFile_preserves (content : Bytes) :
    Preserves readFile fun fs => fs.f.Working content := by
  intro fs consume need w fs' hread h
  unfold readFile at hread
  dsimp only at hread
  split at hread
  · cases hread
    exact h
  · have hfill := fileFill_working need ⟨fs.f, fs.live, fs.buf.drop (fs.consumed + consume),
        fs.room + (fs.consumed + consume), 0⟩ h
    split at hread
    · rename_i fs1 heq
      rw [heq] at hfill
      cases hread
      exact hfill
    · rename_i fs1 heq
      rw [heq] at hfill
      cases hread
      exact hfill

/-! ## Runs of reads -/

/-- The arguments of a read do not overflow `consumed + need`. -/
def FileFits (fs : FileStream) (consume need : Nat) : Prop :=
  fs.consumed + consume + need < 2 ^ 64

instance decidableFileFits (fs : FileStream) (consume need : Nat) :
    Decidable (FileFits fs consume need) := inferInstanceAs (Decidable (_ < _))

theorem run_file {fs₀ fs : FileStream} {lent total : Nat} (hs₀ : fs₀.Sound)
    (hdvd₀ : growth ∣ fs₀.bufsz) (hrun : Run readFile FileFits fs₀ fs lent total) :
    fs.Sound ∧ growth ∣ fs.bufsz ∧ fs.rest = fs₀.rest.drop total ∧ lent ≤ fs.lent ∧
      total ≤ fs₀.rest.length := by
  induction hrun with
  | start => exact ⟨hs₀, hdvd₀, rfl, Nat.zero_le _, Nat.zero_le _⟩
  | @read fs fs' lent total consume need w hrun hconsume hok hread ih =>
    obtain ⟨hs, hdvd, hrest, hlent, htotal⟩ := ih
    obtain ⟨w', fs'', hread', -, hstep, hlent', hserve⟩ :=
      readFile_sound hs (hconsume.trans hlent) hok
    rw [hread] at hread'
    cases hread'
    have hleft := fs.length_rest
    rw [hrest, List.length_drop] at hleft
    refine ⟨hstep.sound, hstep.steps hdvd, ?_, hlent'.ge, by omega⟩
    rw [hserve.rest_eq, hrest, List.drop_drop]

/-- **`read_file` refines the abstract stream.** After any run of reads that do not overflow,
over the bytes from the position of `f` on: `consumed <= avail <= bufsz`, the buffer has
been given in whole steps, and every further read returns a window on the bytes behind
those consumed, as long as was asked for or as is left. -/
theorem read_file_refines {f : CFile} (hgood : f.badAt = none) (hno_err : f.err = false)
    (heof : f.eof = true → f.content.length ≤ f.pos) {fs : FileStream} {lent total : Nat}
    (hrun : Run readFile FileFits (openFileStream f) fs lent total) :
    total ≤ (f.content.drop f.pos).length ∧ fs.consumed ≤ fs.avail ∧ fs.avail ≤ fs.bufsz ∧
      growth ∣ fs.bufsz ∧
      ∀ consume need, consume ≤ lent → FileFits fs consume need →
        ∃ w fs', readFile fs consume need = some (w, fs') ∧ w.failed = false ∧
          w.bytes <+: (f.content.drop f.pos).drop (total + consume) ∧
          min need ((f.content.drop f.pos).drop (total + consume)).length ≤ w.bytes.length := by
  have hs₀ : (openFileStream f).Sound :=
    ⟨hgood, hno_err, heof, fun h => absurd h (by simp [openFileStream]), le_rfl⟩
  obtain ⟨hs, hdvd, hrest, hlent, htotal⟩ := run_file hs₀ ⟨0, rfl⟩ hrun
  refine ⟨htotal, hs.consumed_le, Nat.le_add_right _ _, hdvd, ?_⟩
  intro consume need hconsume hfits
  obtain ⟨w, fs', hread, hfailed, -, -, hserve⟩ :=
    readFile_sound hs (hconsume.trans hlent) hfits
  have hleft : fs'.rest = (f.content.drop f.pos).drop (total + consume) := by
    rw [hserve.rest_eq, hrest, List.drop_drop]
    rfl
  rw [← hleft]
  exact ⟨w, fs', hread, hfailed, hserve.initial, hserve.enough⟩

/-- A file of three bytes, read from its second byte on to its end. -/
theorem read_file_refines_three :
    ∃ fs₁ fs₂ fs₃ w₁ w₂ w₃,
      readFile (openFileStream { CFile.ofBytes [7, 8, 9] with pos := 1 }) 0 1 = some (w₁, fs₁) ∧
      readFile fs₁ 1 1 = some (w₂, fs₂) ∧ readFile fs₂ 1 4 = some (w₃, fs₃) ∧
      w₁.bytes = [8, 9] ∧ w₂.bytes = [9] ∧ w₃.failed = false ∧ w₃.bytes = [] := by
  have hread₁ : readFile (openFileStream { CFile.ofBytes [7, 8, 9] with pos := 1 }) 0 1 =
      some (⟨[8, 9], false⟩, ⟨⟨[7, 8, 9], 3, none, true, false⟩, false, [8, 9], growth - 2, 0⟩) := by
    simp [readFile, openFileStream, fileFill, CFile.fread, CFile.readable, CFile.ofBytes, growth,
      add64]
  have hrun₁ := (Run.start : Run readFile FileFits _ _ 0 0).read le_rfl (by decide) hread₁
  have hrun₂ := hrun₁.read (show 1 ≤ 2 by decide) (by decide)
    (show readFile _ 1 1 = some (⟨[9], false⟩, _) from rfl)
  obtain ⟨w₃, fs₃, hread₃, hfailed, hpre, -⟩ :=
    (read_file_refines rfl rfl (by decide) hrun₂).2.2.2.2 1 4 (by decide) (by decide)
  exact ⟨_, _, fs₃, _, _, w₃, hread₁, rfl, hread₃, rfl, rfl, hfailed, List.prefix_nil.mp hpre⟩

end ToolchainTools
