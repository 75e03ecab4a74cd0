import ToolchainTools.Download.Truncation
import ToolchainTools.Stream.TarResync
import ToolchainTools.Stream.ZipRuns

/-!
# The loop over the members of an archive ends

Every size, offset and length in an archive is taken from its bytes, whatever they are. The
loop of `extract_container` still ends: a tar member that is reported has taken its header
block off the source, and a zip entry that is reported has moved the directory offset behind
its header, which lies in the file. What is done with a member in between gives no bytes
back.
-/

namespace ToolchainTools

open CLib Posix Streams

variable {σ ζ : Type} {read : Reader σ} {fuel k : Nat} {c c' : TarContainer σ}

/-- `k` calls of `next_tar_file` have reported a member, each of which has been passed over or
opened, read and closed. -/
inductive TarCalls (read : Reader σ) (fuel : Nat) (c : TarContainer σ) :
    Nat → TarContainer σ → Prop
  | start : TarCalls read fuel c 0 c
  | next {k : Nat} {c₁ c₂ c₃ : TarContainer σ} {r : Option Nat} : TarCalls read fuel c k c₁ →
      nextTarFile read fuel c₁ = (some 0, c₂) → Used read c₂ r c₃ →
      TarCalls read fuel c (k + 1) c₃

/-- A use of a member gives no bytes back to the source. -/
theorem Used.rest_le (C : Contract read) {r : Option Nat} (h : Used read c r c')
    (hv : C.valid c.s) (hsize : c.h.fileSize < 2 ^ 64) :
    C.valid c'.s ∧ c'.h.fileSize < 2 ^ 64 ∧ (C.rest c'.s).length ≤ (C.rest c.s).length := by
  cases h with
  | passed => exact ⟨hv, hsize, le_rfl⟩
  | @opened ls ls' c₁ lent k hopen hrun =>
    unfold openTarFile at hopen
    split at hopen
    · cases hopen
    · cases hopen
      obtain ⟨hvalid, hrest, -⟩ := run_limit C (show (openLimited c.s c.h.fileSize).Valid C from
        ⟨hv, hsize⟩) hrun
      refine ⟨hvalid.source, hsize, ?_⟩
      dsimp only [closeTarFile]
      rw [hrest, List.length_drop]
      exact Nat.sub_le _ _

/-- Every member reported has taken a block off the source. -/
theorem TarCalls.rest_le (C : Contract read) (h : TarCalls read fuel c k c')
    (hv : C.valid c.s) (hsize : c.h.fileSize < 2 ^ 64) (hfuel : (C.rest c.s).length < fuel) :
    C.valid c'.s ∧ c'.h.fileSize < 2 ^ 64 ∧
      (C.rest c'.s).length + tarBlockSize * k ≤ (C.rest c.s).length := by
  induction h with
  | start => exact ⟨hv, hsize, by rw [Nat.mul_zero, Nat.add_zero]⟩
  | @next k c₁ c₂ c₃ r _ hnext huse ih =>
    obtain ⟨hv₁, hsize₁, hle₁⟩ := ih
    obtain ⟨code, c₂', hnext', hv₂, htaken⟩ :=
      nextTarFile_total C hv₁ (show (C.rest c₁.s).length < fuel by omega)
    have hsize₂ : (nextTarFile read fuel c₁).2.h.fileSize < 2 ^ 64 := nextTarFile_size hsize₁
    rw [hnext] at hnext' hsize₂
    cases hnext'
    obtain ⟨hv₃, hsize₃, hle₃⟩ := huse.rest_le C hv₂ hsize₂
    have hblock := htaken rfl
    refine ⟨hv₃, hsize₃, ?_⟩
    rw [Nat.mul_succ]
    omega

/-! ## The zip directory -/

/-- A use of a member moves the position in the file alone. -/
theorem ZipUse.frame {Z : Codec ζ} {rounds : Nat} {content : Bytes} {z z' : ZipContainer}
    (h : ZipUse Z rounds z z') (hf : z.f.Working content) :
    z'.f.Working content ∧ z'.diroff = z.diroff := by
  induction h with
  | done z => exact ⟨hf, rfl⟩
  | refused hopen _ ih =>
    obtain ⟨hworking, hdiroff, -⟩ := openZipFile_frame hopen hf
    obtain ⟨hworking', hdiroff'⟩ := ih hworking
    exact ⟨hworking', hdiroff'.trans hdiroff⟩
  | @read z z₁ z₂ s s' hopen hreads _ ih =>
    obtain ⟨hworking, hdiroff, hfile⟩ := openZipFile_frame hopen hf
    have hs : s.file.Working content := by
      rw [hfile s rfl]
      exact hworking
    obtain ⟨hworking', hdiroff'⟩ := ih ((readZip_preserves Z rounds content).reads hreads hs)
    exact ⟨hworking', hdiroff'.trans hdiroff⟩

/-! The device goes on working while a header is read. -/

section Working

variable {content : Bytes} {z z' : ZipContainer}

theorem zip64Field_working {f f' : CFile} {value sz value' sz' : Nat}
    (h : zip64Field f value sz = some (value', sz', f')) (hf : f.Working content) :
    f'.Working content := by
  unfold zip64Field at h
  split at h
  · dsimp only at h
    split at h
    · cases h
    · cases h
      exact hf.fread 8
  · cases h
    exact hf

theorem zipExtraRecord_working {tag sz : Nat} (h : zipExtraRecord z tag sz = some z')
    (hf : z.f.Working content) : z'.f.Working content := by
  simp only [zipExtraRecord, Option.bind_eq_some_iff, Option.map_eq_some_iff] at h
  obtain ⟨⟨sz₁, z₁⟩, hrec, f, hseek, rfl⟩ := h
  refine CFile.Working.fseekSet ?_ hseek
  split at hrec
  · simp only [zip64Record, Option.bind_eq_some_iff] at hrec
    obtain ⟨⟨u, sz2, f2⟩, h2, ⟨c, sz3, f3⟩, h3, ⟨o, sz4, f4⟩, h4, he⟩ := hrec
    cases he
    exact zip64Field_working h4 (zip64Field_working h3 (zip64Field_working h2 hf))
  · cases hrec
    exact hf

theorem zipExtraLoop_working {extralen : Nat} (hf : z.f.Working content) :
    (zipExtraLoop z extralen).2.f.Working content := by
  fun_induction zipExtraLoop z extralen with
  | case1 | case2 => exact hf.fread 4
  | case3 z extralen hmore r z1 hlen sz hbreak f hseek => exact (hf.fread 4).fseekSet hseek
  | case4 => exact hf.fread 4
  | case5 z extralen hmore r z1 hlen tag sz hbreak z2 hrec ih =>
    exact ih (zipExtraRecord_working hrec (hf.fread 4))
  | case6 => exact hf
  | case7 z extralen hdone f hseek => exact hf.fseekSet hseek

theorem zipRound_working (hf : z.f.Working content) : (zipRound z).2.f.Working content := by
  have hheader : ∀ z : ZipContainer, z.f.Working content →
      (readZipFileHeader z).2.f.Working content := by
    intro z hf
    unfold readZipFileHeader
    dsimp only
    split
    · exact hf.fread _
    · split
      · exact (hf.fread _).fread _
      · split
        · exact (hf.fread _).fread _
        · exact zipExtraLoop_working ((hf.fread _).fread _)
  unfold zipRound
  split
  · exact hf
  · rename_i f hseek
    have hread := hheader { z with f := f } (hf.fseekSet hseek)
    dsimp only
    split
    · exact hread
    · split <;> exact hread

theorem readable_of_working {f : CFile} (hf : f.Working content) : f.readable = content := by
  rw [CFile.readable, hf.good, hf.content_eq]

/-- The header of an entry that is reported lies in the file, behind the directory offset that
the call started from and in front of the one that it leaves. -/
theorem nextZipFile_diroff (h : nextZipFile z = (0, z')) (hf : z.f.Working content) :
    z'.f.Working content ∧ ∃ off, z.diroff ≤ off ∧ off + zipFileHeaderSize ≤ content.length ∧
      off + zipFileHeaderSize ≤ z'.diroff := by
  fun_induction nextZipFile z with
  | case1 z r hr hdir ih =>
    have hnext : z.diroff + zipFileHeaderSize ≤ r.2.diroff := (zipRound_diroff hr).2.1
    obtain ⟨hf', off, hoff, hinside, hbehind⟩ := ih h (zipRound_working hf)
    exact ⟨hf', off, by omega, hinside, hbehind⟩
  | case2 z r hr hfile =>
    obtain ⟨hinside, hnext, -⟩ := zipRound_diroff hr
    rw [readable_of_working hf] at hinside
    cases h
    exact ⟨zipRound_working hf, z.diroff, le_rfl, hinside, hnext⟩
  | case3 z r hr =>
    rw [h] at hr
    exact absurd rfl hr

end Working

/-- Every entry reported has moved the directory offset behind its header. -/
theorem ZipCalls.diroff_le {Z : Codec ζ} {rounds : Nat} {content : Bytes} {z z' : ZipContainer}
    (h : ZipCalls Z rounds z k z') (hf : z.f.Working content) :
    z'.f.Working content ∧ z.diroff + zipFileHeaderSize * k ≤ z'.diroff ∧
      (0 < k → z.diroff + zipFileHeaderSize * k ≤ content.length) := by
  induction h with
  | start => exact ⟨hf, by simp, by simp⟩
  | @next k z₁ z₂ z₃ _ hnext huse ih =>
    obtain ⟨hf₁, hle₁, -⟩ := ih
    obtain ⟨hf₂, off, hoff, hinside, hbehind⟩ := nextZipFile_diroff hnext hf₁
    obtain ⟨hf₃, hsame⟩ := huse.frame hf₂
    rw [Nat.mul_succ]
    refine ⟨hf₃, by omega, fun _ => by omega⟩

/-- **Archive iteration ends.** On any bytes, each call of `next_tar_file` returns, one that
reports a member takes at least a block off the source, and no more members are reported than
there are blocks. Each call of `next_zip_file` that reports an entry finds its header in the
file and moves the directory offset behind it, so that no more entries are reported than
headers fit in the file. -/
theorem archive_iteration_ends (C : Contract read) {s : σ} (hv : C.valid s)
    (hfuel : (C.rest s).length < fuel) (Z : Codec ζ) (rounds : Nat) {content : Bytes}
    {z : ZipContainer} (hf : z.f.Working content) :
    (∀ k c, TarCalls read fuel (openTar s) k c →
      tarBlockSize * k ≤ (C.rest s).length ∧
        ∃ code c', nextTarFile read fuel c = (some code, c') ∧
          (code = 0 → (C.rest c'.s).length + tarBlockSize ≤ (C.rest c.s).length)) ∧
    ∀ k z', ZipCalls Z rounds z k z' →
      zipFileHeaderSize * k ≤ content.length ∧
        ∀ z'', nextZipFile z' = (0, z'') →
          z'.diroff + zipFileHeaderSize ≤ content.length ∧
            z'.diroff + zipFileHeaderSize ≤ z''.diroff := by
  constructor
  · intro k c hcalls
    obtain ⟨hv', -, hle⟩ := hcalls.rest_le C hv (by simp [openTar]) hfuel
    dsimp only [openTar] at hle
    obtain ⟨code, c', hnext, -, htaken⟩ :=
      nextTarFile_total C hv' (show (C.rest c.s).length < fuel by omega)
    exact ⟨by omega, code, c', hnext, htaken⟩
  · intro k z' hcalls
    obtain ⟨hf', -, hinside⟩ := hcalls.diroff_le hf
    refine ⟨?_, fun z'' hnext => ?_⟩
    · rcases Nat.eq_zero_or_pos k with rfl | hk
      · exact Nat.zero_le _
      · have := hinside hk
        omega
    · obtain ⟨-, off, hoff, hfits, hbehind⟩ := nextZipFile_diroff hnext hf'
      omega

/-- An archive of four blocks, and a zip file with room for three headers that has two, the second
of which is reported. -/
theorem archive_iteration_ends_four :
    (∀ k c, TarCalls readBuffer 3000 (openTar (openBufferStream (encodeTar [.file plainFile] 2))) k
        c → k ≤ 4) ∧
      (∀ k z, ZipCalls noCodec 8 (zipAt plainImage.content plainImage.diroff) k z → k ≤ 3) ∧
      ∃ z, nextZipFile (zipAt plainImage.content plainImage.diroff) = (0, z) ∧
        z.h.filePath = lit "a" ∧ plainImage.diroff + zipFileHeaderSize ≤ z.diroff := by
  have hlen : (encodeTar [.file plainFile] 2).length = 2048 := by decide +kernel
  have hroom : plainImage.content.length < 4 * zipFileHeaderSize := by decide +kernel
  obtain ⟨htar, hzip⟩ := archive_iteration_ends bufferContract
    (show bufferContract.valid (openBufferStream (encodeTar [.file plainFile] 2)) from trivial)
    (show (encodeTar [.file plainFile] 2).length < 3000 by omega)
    noCodec 8 (show (zipAt plainImage.content plainImage.diroff).f.Working plainImage.content from
      ⟨rfl, rfl, rfl⟩)
  refine ⟨fun k c hcalls => ?_, fun k z hcalls => ?_, ?_⟩
  · have hblocks : tarBlockSize * k ≤ (encodeTar [.file plainFile] 2).length := (htar k c hcalls).1
    rw [hlen, tarBlockSize] at hblocks
    omega
  · have hheaders := (hzip k z hcalls).1
    unfold zipFileHeaderSize at hheaders hroom
    omega
  · have hfirst : (nextZipFile (zipAt plainImage.content plainImage.diroff)).1 = 0 ∧
        (nextZipFile (zipAt plainImage.content plainImage.diroff)).2.h.filePath = lit "a" := by
      decide +kernel
    refine ⟨_, Prod.ext hfirst.1 rfl, hfirst.2, ?_⟩
    exact ((hzip 0 _ .start).2 _ (Prod.ext hfirst.1 rfl)).2

end ToolchainTools
