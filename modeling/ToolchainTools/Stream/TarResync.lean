import ToolchainTools.Stream.TarRuns

/-!
# What a tar container does after a member was used

The container keeps one bit, `file_opened`, of what the caller has done with a member. When
the bit is set `next_tar_file` steps over the padding alone, so it relies on the caller to
have read the member to its end. A caller that closes the stream after `k` of the `n`
bytes leaves the next call `n - k` bytes short of the next header, inside the body. The
call still finds that header when these bytes are whole blocks that the code passes over
(`resync_iff`), and in no other case.
-/

namespace ToolchainTools

open CLib Posix Streams

variable {σ : Type} {read : Reader σ} {C : Contract read} {fuel zeros : Nat}
  {c c' : TarContainer σ} {f : TarFile} {ms : List TarMember}

/-- What the caller does with the member just reported: it passes it over, or it opens it,
consumes `k` bytes of its stream in any number of reads and closes it. -/
inductive Used (read : Reader σ) (c : TarContainer σ) : Option Nat → TarContainer σ → Prop
  | passed : Used read c none c
  | opened {ls ls' : LimitStream σ} {c' : TarContainer σ} {lent k : Nat} :
      openTarFile c = (some ls, c') →
      Run (readLimit read) (fun _ _ need => need < 2 ^ 63) ls ls' lent k →
      Used read c (some k) (closeTarFile c' ls')

/-- The call that has just returned reported `f`: the source is right behind its header. -/
structure BehindHeader (C : Contract read) (fuel : Nat) (f : TarFile) (ms : List TarMember)
    (zeros : Nat) (c : TarContainer σ) : Prop where
  valid : C.valid c.s
  member : c.h = ⟨f.path, none, f.content.length, octalValue f.mode⟩
  rest : C.rest c.s = f.content ++ f.padding ++ encodeTar ms zeros
  fresh : c.fileOpened = false
  padding : c.padding = f.padding.length
  fuel : (C.rest c.s).length < fuel

/-- The next call looks for a header from the start of `bytes` on: it reads the first block
with an interpreted typeflag and stops right behind it, or it finds the end. -/
def Interprets (C : Contract read) (fuel : Nat) (c : TarContainer σ) (bytes : Bytes) : Prop :=
  match tarScan bytes with
  | .finish => ∃ s, nextTarFile read fuel c = (some 1, { c with padding := 0, s := s }) ∧
      C.rest s = []
  | .broken => ∃ s, nextTarFile read fuel c = (some (-1), { c with padding := 0, s := s })
  | .header t rest => ∃ s,
      nextTarFile read fuel c = (some (readTarHeader { c with padding := 0 } t).1,
        { (readTarHeader { c with padding := 0 } t).2 with s := s }) ∧ C.rest s = rest

/-- A member that is not opened is in sync. One that is closed after `k` bytes is in sync
when the bytes between the position of the next call and the next header are whole blocks,
none of which has an interpreted typeflag. -/
def ClosedInSync (f : TarFile) : Option Nat → Prop
  | none => True
  | some k => tarBlockSize ∣ f.content.length - k ∧
      InertBody ((f.content ++ f.padding).drop (k + f.padding.length))

/-! ## Positions modulo the block size -/

theorem TarMember.body_aligned (m : TarMember) : tarBlockSize ∣ m.body.length := by
  cases m with
  | file f =>
    rw [TarMember.body, List.length_append]
    exact f.aligned
  | link l => exact dvd_zero _
  | other o =>
    rw [TarMember.body, List.length_append]
    exact o.aligned

theorem encodeTar_aligned (ms : List TarMember) (zeros : Nat) :
    tarBlockSize ∣ (encodeTar ms zeros).length := by
  induction ms with
  | nil =>
    rw [encodeTar, List.flatMap_nil, List.nil_append, List.length_replicate]
    exact dvd_mul_right _ _
  | cons m ms ih =>
    rw [encodeTar_cons, List.length_append, List.length_append, m.header_length]
    exact dvd_add (dvd_refl _) (dvd_add m.body_aligned ih)

/-- A scan goes by whole blocks. -/
theorem tarScan_mod (bytes : Bytes) :
    match tarScan bytes with
    | .finish => bytes.length % tarBlockSize = 0
    | .broken => bytes.length % tarBlockSize ≠ 0
    | .header _ rest => rest.length % tarBlockSize = bytes.length % tarBlockSize := by
  fun_induction tarScan bytes with
  | case1 => rfl
  | case2 bytes hne hlen =>
    have hpos := List.length_pos_iff.mpr hne
    rw [Nat.mod_eq_of_lt hlen]
    omega
  | case3 bytes _ hlen _ =>
    simp only [tarBlockSize, List.length_drop] at hlen ⊢
    omega
  | case4 bytes _ hlen _ ih =>
    have hmod : (bytes.drop tarBlockSize).length % tarBlockSize = bytes.length % tarBlockSize := by
      simp only [tarBlockSize, List.length_drop] at hlen ⊢
      omega
    rwa [hmod] at ih

/-! ## The position that a use leaves -/

theorem Ahead.behindHeader (h : Ahead C fuel c (encodeTar (.file f :: ms) zeros)) :
    ∃ c', nextTarFile read fuel c = (some 0, c') ∧ BehindHeader C fuel f ms zeros c' := by
  obtain ⟨c', hnext, hh, hrest, hopened, hpadding, hv, hfuel⟩ := h.file
  exact ⟨c', hnext, hv, hh, hrest, hopened, hpadding, hfuel⟩

theorem BehindHeader.openLimited_valid (h : BehindHeader C fuel f ms zeros c) :
    (openLimited c.s c.h.fileSize).Valid C := by
  have hlt := f.content_lt
  refine ⟨h.valid, ?_⟩
  rw [openLimited, h.member]
  dsimp only
  omega

theorem BehindHeader.openTarFile (h : BehindHeader C fuel f ms zeros c) :
    ToolchainTools.openTarFile c =
      (some (openLimited c.s c.h.fileSize), { c with fileOpened := true }) := by
  simp [ToolchainTools.openTarFile, h.fresh]

/-- The caller can stop after any number of bytes. -/
theorem BehindHeader.exists_used (h : BehindHeader C fuel f ms zeros c) {k : Nat}
    (hk : k ≤ f.content.length) : ∃ c', Used read c (some k) c' := by
  have hlt := f.content_lt
  have hleft : (openLimited c.s c.h.fileSize).left = f.content.length := by
    rw [openLimited, h.member]
  -- one read that asks for `k` bytes, and one that takes them
  obtain ⟨w, ls, hread, hv, hl, -, hlen, hserve⟩ :=
    readLimit_serve C h.openLimited_valid (Nat.zero_le _) (Nat.zero_le _)
      (show k < 2 ^ 63 by omega)
  have henough := hserve.enough
  have hrest : (openLimited c.s c.h.fileSize).rest C = f.content := by
    rw [LimitStream.rest, hleft, openLimited, h.rest, List.append_assoc, List.take_left]
  rw [hserve.rest_eq, hrest, List.drop_zero, Nat.min_eq_left hk] at henough
  obtain ⟨w', ls', hread', -⟩ :=
    readLimit_serve C hv (show k ≤ C.lent ls.source by omega) (show k ≤ ls.left by omega)
      (show 0 < 2 ^ 63 by norm_num)
  refine ⟨closeTarFile { c with fileOpened := true } ls', ?_⟩
  have hrun : Run (readLimit read) (fun _ _ need => need < 2 ^ 63)
      (openLimited c.s c.h.fileSize) ls' w'.bytes.length k := by
    have hfirst : Run (readLimit read) (fun _ _ need => need < 2 ^ 63)
        (openLimited c.s c.h.fileSize) ls w.bytes.length (0 + 0) :=
      .read .start le_rfl (by omega) hread
    have hsecond := Run.read hfirst henough (by norm_num) hread'
    rwa [Nat.zero_add] at hsecond
  exact .opened h.openTarFile hrun

theorem BehindHeader.ahead_pass (h : BehindHeader C fuel f ms zeros c) :
    Ahead C fuel c (encodeTar ms zeros) :=
  .of_pass h.rest h.fresh h.padding (by rw [h.member]) h.valid h.fuel

/-- After `k` bytes the next call begins `n - k` bytes before the next header. -/
theorem BehindHeader.ahead_close (h : BehindHeader C fuel f ms zeros c) {k : Nat}
    (huse : Used read c (some k) c') :
    k ≤ f.content.length ∧
      Ahead C fuel c'
        ((f.content ++ f.padding).drop (k + f.padding.length) ++ encodeTar ms zeros) := by
  cases huse with
  | @opened ls ls' c1 lent _ hopen hrun =>
    rw [h.openTarFile] at hopen
    cases hopen
    obtain ⟨hv, hrest, hleft, -⟩ := run_limit C h.openLimited_valid hrun
    rw [openLimited, h.member] at hleft
    dsimp only at hleft
    have hk : k ≤ f.content.length := by omega
    have hskip : tarSkip (closeTarFile { c with fileOpened := true } ls') = f.padding.length := by
      simp only [tarSkip, closeTarFile, if_true]
      exact h.padding
    have hsource : C.rest ls'.source = (C.rest c.s).drop k := hrest
    have hfuel := h.fuel
    refine ⟨hk, hv.source, ?_, ?_, ?_⟩
    · rw [hskip]
      simp only [closeTarFile, hsource, h.rest, List.length_drop, List.length_append]
      omega
    · rw [hskip]
      simp only [closeTarFile, hsource]
      rw [List.drop_drop, h.rest, List.drop_append_of_le_length]
      rw [List.length_append]
      omega
    · simp only [closeTarFile, hsource, List.length_drop]
      omega

/-! ## What the next call makes of a position -/

theorem Ahead.interprets {bytes target : Bytes} (h : Ahead C fuel c bytes)
    (hscan : tarScan bytes = tarScan target) : Interprets C fuel c target := by
  have hnext := nextTarFile_scan C h.valid h.skip h.fuel
  rw [h.scan, hscan] at hnext
  unfold Interprets
  revert hnext
  cases tarScan target with
  | finish =>
    rintro ⟨s, hs, -, hrest⟩
    exact ⟨s, hs, hrest⟩
  | broken =>
    rintro ⟨s, hs, -⟩
    exact ⟨s, hs⟩
  | header t rest =>
    rintro ⟨s, hs, -, hrest⟩
    exact ⟨s, hs, hrest⟩

/-- What a call that interprets the headers of an archive leaves of the source. -/
theorem Interprets.rest {bytes : Bytes} (haligned : tarBlockSize ∣ bytes.length)
    (hi : Interprets C fuel c bytes) :
    ∃ code c', nextTarFile read fuel c = (some code, c') ∧
      ((tarScan bytes = .finish ∧ code = 1 ∧ C.rest c'.s = []) ∨
        ∃ t rest, tarScan bytes = .header t rest ∧ C.rest c'.s = rest ∧
          tarBlockSize ∣ rest.length) := by
  have hmod := tarScan_mod bytes
  unfold Interprets at hi
  cases hscan : tarScan bytes with
  | finish =>
    rw [hscan] at hi
    obtain ⟨s, hs, hrest⟩ := hi
    exact ⟨1, _, hs, Or.inl ⟨rfl, rfl, hrest⟩⟩
  | broken =>
    rw [hscan] at hmod
    exact absurd (Nat.mod_eq_zero_of_dvd haligned) hmod
  | header t rest =>
    rw [hscan] at hi hmod
    obtain ⟨s, hs, hrest⟩ := hi
    refine ⟨_, _, hs, Or.inr ⟨t, rest, rfl, hrest, ?_⟩⟩
    rw [Nat.dvd_iff_mod_eq_zero, hmod]
    exact Nat.mod_eq_zero_of_dvd haligned

/-- From `left` bytes before the headers the call interprets them exactly when these bytes
are whole blocks that it passes over. -/
theorem Ahead.interprets_iff {left target : Bytes} (h : Ahead C fuel c (left ++ target))
    (haligned : tarBlockSize ∣ target.length) :
    Interprets C fuel c target ↔ tarBlockSize ∣ left.length ∧ InertBody left := by
  constructor
  · intro hi
    have hnext := nextTarFile_scan C h.valid h.skip h.fuel
    rw [h.scan] at hnext
    have hmod := tarScan_mod (left ++ target)
    obtain ⟨code, c', hcall, hwhere⟩ := hi.rest haligned
    have hblocks : tarBlockSize ∣ left.length := by
      rw [← Nat.dvd_add_left haligned, ← List.length_append, Nat.dvd_iff_mod_eq_zero]
      cases hscan : tarScan (left ++ target) with
      | finish =>
        rw [hscan] at hmod
        exact hmod
      | broken =>
        rw [hscan] at hnext
        obtain ⟨s, hs, -, hne, hshort⟩ := hnext
        rw [hs] at hcall
        cases hcall
        rcases hwhere with ⟨-, hcode, -⟩ | ⟨t, rest, -, hrest, hdvd⟩
        · cases hcode
        · rw [← hrest] at hdvd
          have hpos := List.length_pos_iff.mpr hne
          exact absurd (Nat.le_of_dvd hpos hdvd) (by omega)
      | header t rest =>
        rw [hscan] at hmod hnext
        obtain ⟨s, hs, -, hrest⟩ := hnext
        rw [hs] at hcall
        cases hcall
        rw [← hmod]
        rcases hwhere with ⟨-, -, hnil⟩ | ⟨t', rest', -, hrest', hdvd⟩
        · rw [← hrest, hnil]
          rfl
        · rw [← hrest, hrest']
          exact Nat.mod_eq_zero_of_dvd hdvd
    refine ⟨hblocks, ?_⟩
    by_contra hinert
    obtain ⟨t, rest, hscan⟩ := (tarScan_body hblocks target).2 hinert
    rw [hscan] at hnext
    obtain ⟨s, hs, -, hrest⟩ := hnext
    rw [hs] at hcall
    cases hcall
    rcases hwhere with ⟨-, hcode, -⟩ | ⟨t', rest', hscan', hrest', -⟩
    · rcases readTarHeader_code { c with padding := 0 } t with h0 | h0 <;> omega
    · -- the call has stopped before the headers of `target`
      have hless := tarScan_length hscan'
      rw [← hrest', hrest, List.length_append] at hless
      simp only [tarBlockSize] at hless
      omega
  · rintro ⟨hblocks, hinert⟩
    exact h.interprets ((tarScan_body hblocks target).1 hinert)

theorem BehindHeader.interprets_close_iff (h : BehindHeader C fuel f ms zeros c) {k : Nat}
    (huse : Used read c (some k) c') :
    Interprets C fuel c' (encodeTar ms zeros) ↔ ClosedInSync f (some k) := by
  obtain ⟨hk, hahead⟩ := h.ahead_close huse
  have hlen : ((f.content ++ f.padding).drop (k + f.padding.length)).length =
      f.content.length - k := by
    rw [List.length_drop, List.length_append]
    omega
  rw [hahead.interprets_iff (encodeTar_aligned ms zeros), ClosedInSync, hlen]

/-- Reading to the end keeps the container in sync. -/
theorem closedInSync_all (f : TarFile) : ClosedInSync f (some f.content.length) := by
  refine ⟨by simp, ?_⟩
  intro k hk
  rw [← List.length_append, List.drop_length] at hk
  simp [tarBlockSize] at hk

/-! ## The result -/

/-- **A member closed early.** Over any source that keeps the read contract, the caller of
a member of `n` bytes can stop after any `k ≤ n` of them. Whatever it does, the next call
interprets the header block behind the padded body if and only if the member was not
opened, or the `n - k` bytes before that block are whole blocks without an interpreted
typeflag; in particular when the member was read to its end. -/
theorem resync_iff (C : Contract read) (f : TarFile) (ms : List TarMember) (zeros fuel : Nat)
    {c : TarContainer σ} (h : BehindHeader C fuel f ms zeros c) :
    (∀ k ≤ f.content.length, ∃ c', Used read c (some k) c') ∧
    ∀ use c', Used read c use c' →
      (Interprets C fuel c' (encodeTar ms zeros) ↔ ClosedInSync f use) := by
  refine ⟨fun k hk => h.exists_used hk, ?_⟩
  intro use c' huse
  cases use with
  | none =>
    cases huse
    exact iff_of_true (h.ahead_pass.interprets rfl) trivial
  | some k => exact h.interprets_close_iff huse

theorem plainFile_behindHeader :
    ∃ c, nextTarFile readBuffer 4096
        (openTar (openBufferStream (encodeTar [.file plainFile, .link plainLink] 2))) =
          (some 0, c) ∧
      BehindHeader bufferContract 4096 plainFile [.link plainLink] 2 c :=
  (openTar_ahead (C := bufferContract) trivial rfl (by decide +kernel)).behindHeader

theorem resync_iff_plain :
    ∃ c, nextTarFile readBuffer 4096
        (openTar (openBufferStream (encodeTar [.file plainFile, .link plainLink] 2))) =
          (some 0, c) ∧
      (∀ k ≤ 2, ∃ c', Used readBuffer c (some k) c') ∧
      ∀ use c', Used readBuffer c use c' →
        (Interprets bufferContract 4096 c' (encodeTar [.link plainLink] 2) ↔
          ClosedInSync plainFile use) := by
  obtain ⟨c, hnext, hc⟩ := plainFile_behindHeader
  exact ⟨c, hnext, resync_iff bufferContract plainFile [.link plainLink] 2 4096 hc⟩

/-- A file of two bytes is closed after its first one. The next call does not come upon the
link that follows. -/
theorem closed_after_one_byte :
    ∃ c c', nextTarFile readBuffer 4096
        (openTar (openBufferStream (encodeTar [.file plainFile, .link plainLink] 2))) =
          (some 0, c) ∧
      Used readBuffer c (some 1) c' ∧
      ¬ Interprets bufferContract 4096 c' (encodeTar [.link plainLink] 2) := by
  obtain ⟨c, hnext, hc⟩ := plainFile_behindHeader
  obtain ⟨c', huse⟩ := hc.exists_used (k := 1) (by decide)
  refine ⟨c, c', hnext, huse, ?_⟩
  rw [hc.interprets_close_iff huse]
  rintro ⟨hblocks, -⟩
  revert hblocks
  decide

end ToolchainTools
