import ToolchainTools.Stream.Tar

/-!
# Reading a tar stream is scanning its bytes

Over a source that keeps the read contract, what a call of `nextTarFile` does depends on
the bytes not yet consumed alone, not on the windows the source chooses to offer:
it drops what is left of the current member and scans the rest block by block
(`nextTarFile_scan`).
-/

namespace ToolchainTools

open CLib Posix Streams

variable {σ : Type} {read : Reader σ}

/-- The typeflags that `next_tar_file` has a case for. -/
def interpreted (flag : UInt8) : Prop := flag = lnkType ∨ flag = symType ∨ flag = regType

instance (flag : UInt8) : Decidable (interpreted flag) := inferInstanceAs (Decidable (_ ∨ _ ∨ _))

inductive Scan where
  | finish
  | broken
  | header (t rest : Bytes)

/-- The first block of `bytes` with an interpreted typeflag. -/
def tarScan (bytes : Bytes) : Scan :=
  if bytes = [] then .finish
  else if _h : bytes.length < tarBlockSize then .broken
  else if interpreted (tarTypeflag (bytes.take tarBlockSize)) then
    .header (bytes.take tarBlockSize) (bytes.drop tarBlockSize)
  else tarScan (bytes.drop tarBlockSize)
termination_by bytes.length
decreasing_by
  simp only [tarBlockSize, List.length_drop] at *
  omega

/-- The header reader that the typeflag of the block selects. -/
def readTarHeader (c : TarContainer σ) (t : Bytes) : Int × TarContainer σ :=
  if tarTypeflag t = lnkType ∨ tarTypeflag t = symType then readTarLinkHeader c t
  else readTarFileHeader c t

theorem readTarHeader_link {c : TarContainer σ} {t : Bytes}
    (h : tarTypeflag t = lnkType ∨ tarTypeflag t = symType) :
    readTarHeader c t = readTarLinkHeader c t := if_pos h

theorem readTarHeader_file {c : TarContainer σ} {t : Bytes}
    (h : ¬ (tarTypeflag t = lnkType ∨ tarTypeflag t = symType)) :
    readTarHeader c t = readTarFileHeader c t := if_neg h

/-- A header reader neither looks at the source nor moves it. -/
theorem readTarHeader_source (c : TarContainer σ) (t : Bytes) (s s' : σ) :
    (readTarHeader { c with s := s } t).1 = (readTarHeader c t).1 ∧
      { (readTarHeader { c with s := s } t).2 with s := s' } =
        { (readTarHeader c t).2 with s := s' } := by
  unfold readTarHeader
  split
  · unfold readTarLinkHeader
    cases cleanTarName t with
    | none => exact ⟨rfl, rfl⟩
    | some path => cases cleanTarLinkname t <;> exact ⟨rfl, rfl⟩
  · unfold readTarFileHeader
    cases cleanTarName t <;> exact ⟨rfl, rfl⟩

theorem readTarHeader_code (c : TarContainer σ) (t : Bytes) :
    (readTarHeader c t).1 = 0 ∨ (readTarHeader c t).1 = -1 := by
  unfold readTarHeader readTarLinkHeader readTarFileHeader
  split
  · cases cleanTarName t with
    | none => exact Or.inr rfl
    | some path =>
      cases cleanTarLinkname t with
      | none => exact Or.inr rfl
      | some lnk => exact Or.inl rfl
  · cases cleanTarName t with
    | none => exact Or.inr rfl
    | some path => exact Or.inl rfl

/-- A scan that finds a header has moved on by at least its block. -/
theorem tarScan_length {bytes t rest : Bytes} (h : tarScan bytes = .header t rest) :
    rest.length + tarBlockSize ≤ bytes.length := by
  fun_induction tarScan bytes with
  | case1 => cases h
  | case2 => cases h
  | case3 bytes _ hlen _ =>
    cases h
    rw [List.length_drop]
    omega
  | case4 bytes _ _ _ ih =>
    have := ih h
    rw [List.length_drop] at this
    omega

theorem skipLoop_spec (C : Contract read) {skip consume : Nat} {s : σ} (hv : C.valid s)
    (hlent : consume ≤ C.lent s) (hskip : skip ≤ ((C.rest s).drop consume).length) :
    ∃ consume' s', skipLoop read skip consume s = .done consume' s' ∧ C.valid s' ∧
      consume' ≤ C.lent s' ∧
      (C.rest s').drop consume' = ((C.rest s).drop consume).drop skip := by
  induction skip using Nat.strong_induction_on generalizing consume s with
  | _ skip ih =>
    unfold skipLoop
    by_cases hz : skip = 0
    · rw [if_pos hz]
      exact ⟨consume, s, rfl, hv, hlent, by rw [hz, List.drop_zero]⟩
    · rw [if_neg hz]
      obtain ⟨w, s', hread, hv', hlen, hserve⟩ := C.serve s consume 1 hv hlent (by norm_num)
      have henough := hserve.enough
      rw [hserve.rest_eq] at henough
      have hpos : w.bytes.length ≠ 0 := by omega
      simp only [hread, hpos, dif_neg, not_false_eq_true]
      obtain ⟨n, hn, hns, hnw, hnpos⟩ : ∃ n,
          (if w.bytes.length > skip then skip else w.bytes.length) = n ∧ n ≤ skip ∧
            n ≤ w.bytes.length ∧ 0 < n := by
        refine ⟨_, rfl, ?_⟩
        split <;> omega
      rw [hn]
      have hrest := hserve.rest_eq
      have hdrop : (C.rest s').drop n = ((C.rest s).drop consume).drop n := by rw [hrest]
      have hlength : skip - n ≤ ((C.rest s').drop n).length := by
        rw [hdrop, List.length_drop]
        omega
      obtain ⟨consume', s'', hloop, hv'', hlent'', hfinal⟩ :=
        ih (skip - n) (by omega) hv' (by omega) hlength
      refine ⟨consume', s'', hloop, hv'', hlent'', ?_⟩
      rw [hfinal, hdrop, List.drop_drop]
      congr 1
      omega

/-- On a finite source the loop ends. -/
theorem skipLoop_total (C : Contract read) (skip : Nat) {consume : Nat} {s : σ} (hv : C.valid s)
    (hlent : consume ≤ C.lent s) :
    (∃ consume' s', skipLoop read skip consume s = .done consume' s' ∧ C.valid s' ∧
      consume' ≤ C.lent s' ∧
      ((C.rest s').drop consume').length ≤ ((C.rest s).drop consume).length) ∨
    ∃ s', skipLoop read skip consume s = .early s' ∧ C.valid s' := by
  induction skip using Nat.strong_induction_on generalizing consume s with
  | _ skip ih =>
    unfold skipLoop
    by_cases hz : skip = 0
    · rw [if_pos hz]
      exact Or.inl ⟨consume, s, rfl, hv, hlent, le_rfl⟩
    · rw [if_neg hz]
      obtain ⟨w, s', hread, hv', hlen, hserve⟩ := C.serve s consume 1 hv hlent (by norm_num)
      simp only [hread]
      by_cases hw : w.bytes.length = 0
      · rw [dif_pos hw]
        exact Or.inr ⟨s', rfl, hv'⟩
      · rw [dif_neg hw]
        obtain ⟨n, hn, hnw, hnpos⟩ : ∃ n,
            (if w.bytes.length > skip then skip else w.bytes.length) = n ∧
              n ≤ w.bytes.length ∧ 0 < n := by
          refine ⟨_, rfl, ?_⟩
          split <;> omega
        rw [hn]
        rcases ih (skip - n) (by omega) hv' (show n ≤ C.lent s' by omega) with
          ⟨consume', s'', hloop, hv'', hlent'', hle⟩ | ⟨s'', hloop, hv''⟩
        · refine Or.inl ⟨consume', s'', hloop, hv'', hlent'', hle.trans ?_⟩
          rw [hserve.rest_eq, List.length_drop, List.length_drop]
          omega
        · exact Or.inr ⟨s'', hloop, hv''⟩

/-- Stepping over more than the source has ends early. -/
theorem skipLoop_early (C : Contract read) (skip : Nat) {consume : Nat} {s : σ} (hv : C.valid s)
    (hlent : consume ≤ C.lent s) (hskip : ((C.rest s).drop consume).length < skip) :
    ∃ s', skipLoop read skip consume s = .early s' := by
  induction skip using Nat.strong_induction_on generalizing consume s with
  | _ skip ih =>
    obtain ⟨w, s', hread, hv', hlen, hserve⟩ := C.serve s consume 1 hv hlent (by norm_num)
    unfold skipLoop
    rw [if_neg (by omega)]
    simp only [hread]
    by_cases hw : w.bytes.length = 0
    · rw [dif_pos hw]
      exact ⟨s', rfl⟩
    · rw [dif_neg hw]
      have hle := hserve.initial.length_le
      rw [hserve.rest_eq] at hle
      rw [if_neg (by omega)]
      refine ih _ (by omega) hv' hlen.ge ?_
      rw [hserve.rest_eq, List.length_drop]
      omega

/-- The loop over the blocks, on a source whose bytes behind `consume` are `bytes`. -/
theorem headerLoop_scan (C : Contract read) {c : TarContainer σ} {fuel consume : Nat}
    {bytes : Bytes} (hv : C.valid c.s) (hlent : consume ≤ C.lent c.s)
    (hbytes : (C.rest c.s).drop consume = bytes) (hfuel : bytes.length < fuel) :
    match tarScan bytes with
    | .finish => ∃ s, headerLoop read c fuel consume = (some 1, { c with s := s }) ∧
        C.valid s ∧ C.rest s = []
    | .broken => ∃ s, headerLoop read c fuel consume = (some (-1), { c with s := s }) ∧
        C.valid s ∧ C.rest s ≠ [] ∧ (C.rest s).length < tarBlockSize
    | .header t rest => ∃ s,
        headerLoop read c fuel consume =
          (some (readTarHeader c t).1, { (readTarHeader c t).2 with s := s }) ∧
        C.valid s ∧ C.rest s = rest := by
  induction fuel generalizing c consume bytes with
  | zero => omega
  | succ fuel ih =>
    obtain ⟨w, s, hread, hv', hlen, hserve⟩ :=
      C.serve c.s consume tarBlockSize hv hlent (by simp [tarBlockSize])
    have hrest : C.rest s = bytes := by rw [hserve.rest_eq, hbytes]
    have hpre := hserve.initial
    have henough := hserve.enough
    rw [hrest] at hpre henough
    have hle := hpre.length_le
    unfold tarScan headerLoop
    simp only [hread]
    by_cases hnil : bytes = []
    · subst hnil
      have hw : w.bytes.length = 0 := by simpa using hle
      simp only [hw, if_true]
      exact ⟨s, rfl, hv', hrest⟩
    · have hpos : 0 < bytes.length := List.length_pos_iff.mpr hnil
      have hw : w.bytes.length ≠ 0 := by
        simp only [tarBlockSize] at henough
        omega
      simp only [hnil, hw, if_false]
      by_cases hshort : bytes.length < tarBlockSize
      · have hws : w.bytes.length < tarBlockSize := by omega
        simp only [hshort, hws, if_true, dif_pos]
        exact ⟨s, rfl, hv', by rwa [hrest], by rwa [hrest]⟩
      · have hws : ¬ w.bytes.length < tarBlockSize := by omega
        have htake : w.bytes.take tarBlockSize = bytes.take tarBlockSize := by
          obtain ⟨tail, rfl⟩ := hpre
          rw [List.take_append_of_le_length (by omega)]
        simp only [hshort, hws, if_false, dif_neg, not_false_eq_true, htake]
        have hblock : tarBlockSize ≤ C.lent s := by omega
        obtain ⟨w2, s2, hread2, hv2, -, hserve2⟩ :=
          C.serve s tarBlockSize 0 hv' hblock (by norm_num)
        have hrest2 : C.rest s2 = bytes.drop tarBlockSize := by rw [hserve2.rest_eq, hrest]
        by_cases hlink : tarTypeflag (bytes.take tarBlockSize) = lnkType ∨
            tarTypeflag (bytes.take tarBlockSize) = symType
        · have hint : interpreted (tarTypeflag (bytes.take tarBlockSize)) := by
            rcases hlink with h | h
            · exact Or.inl h
            · exact Or.inr (Or.inl h)
          simp only [hint, hlink, if_true, hread2, ← readTarHeader_link hlink]
          obtain ⟨hcode, hstate⟩ := readTarHeader_source c (bytes.take tarBlockSize) s s2
          exact ⟨s2, Prod.ext (congrArg some hcode) hstate, hv2, hrest2⟩
        · by_cases hreg : tarTypeflag (bytes.take tarBlockSize) = regType
          · simp only [hreg, if_true, hread2, ← readTarHeader_file hlink]
            obtain ⟨hcode, hstate⟩ := readTarHeader_source c (bytes.take tarBlockSize) s s2
            exact ⟨s2, Prod.ext (congrArg some hcode) hstate, hv2, hrest2⟩
          · have hint : ¬ interpreted (tarTypeflag (bytes.take tarBlockSize)) := by
              rintro (h | h | h)
              · exact hlink (Or.inl h)
              · exact hlink (Or.inr h)
              · exact hreg h
            simp only [hint, hlink, hreg, if_false]
            have hfuel' : (bytes.drop tarBlockSize).length < fuel := by
              simp only [List.length_drop, tarBlockSize] at hshort ⊢
              omega
            have hind := ih (c := { c with s := s }) hv' hblock (by rw [hrest]) hfuel'
            revert hind
            cases tarScan (bytes.drop tarBlockSize) with
            | finish => exact id
            | broken => exact id
            | header t rest =>
              rintro ⟨s3, hloop, hv3, hrest3⟩
              obtain ⟨hcode, hstate⟩ := readTarHeader_source c t s s3
              exact ⟨s3, hloop.trans (Prod.ext (congrArg some hcode) hstate), hv3, hrest3⟩

/-- A call of `next_tar_file` scans the bytes behind the current member. -/
theorem nextTarFile_scan (C : Contract read) {c : TarContainer σ} {fuel : Nat}
    (hv : C.valid c.s) (hskip : tarSkip c ≤ (C.rest c.s).length)
    (hfuel : (C.rest c.s).length < fuel) :
    match tarScan ((C.rest c.s).drop (tarSkip c)) with
    | .finish => ∃ s, nextTarFile read fuel c = (some 1, { c with padding := 0, s := s }) ∧
        C.valid s ∧ C.rest s = []
    | .broken => ∃ s, nextTarFile read fuel c = (some (-1), { c with padding := 0, s := s }) ∧
        C.valid s ∧ C.rest s ≠ [] ∧ (C.rest s).length < tarBlockSize
    | .header t rest => ∃ s,
        nextTarFile read fuel c = (some (readTarHeader { c with padding := 0 } t).1,
          { (readTarHeader { c with padding := 0 } t).2 with s := s }) ∧
        C.valid s ∧ C.rest s = rest := by
  obtain ⟨consume, s, hloop, hv', hlent, hdrop⟩ :=
    skipLoop_spec C hv (Nat.zero_le _) (by simpa using hskip)
  rw [List.drop_zero] at hdrop
  have hnext : nextTarFile read fuel c =
      headerLoop read { c with padding := 0, s := s } fuel consume := by
    simp only [nextTarFile, hloop]
  have hscan := headerLoop_scan C (c := { c with padding := 0, s := s }) hv' hlent hdrop
    (show _ < fuel by rw [List.length_drop]; omega)
  rw [hnext]
  revert hscan
  cases tarScan ((C.rest c.s).drop (tarSkip c)) with
  | finish => exact id
  | broken => exact id
  | header t rest =>
    rintro ⟨s2, h, hv2, hrest⟩
    obtain ⟨hcode, hstate⟩ := readTarHeader_source { c with padding := 0 } t s s2
    exact ⟨s2, h.trans (Prod.ext (congrArg some hcode) hstate), hv2, hrest⟩

/-- On a finite source every call returns, and one that reports a member has taken its
header block. -/
theorem nextTarFile_total (C : Contract read) {c : TarContainer σ} {fuel : Nat}
    (hv : C.valid c.s) (hfuel : (C.rest c.s).length < fuel) :
    ∃ code c', nextTarFile read fuel c = (some code, c') ∧ C.valid c'.s ∧
      (code = 0 → (C.rest c'.s).length + tarBlockSize ≤ (C.rest c.s).length) := by
  rcases skipLoop_total C (tarSkip c) hv (Nat.zero_le _) with
    ⟨consume, s, hloop, hv', hlent, hle⟩ | ⟨s, hloop, hv'⟩
  · rw [List.drop_zero] at hle
    have hnext : nextTarFile read fuel c =
        headerLoop read { c with padding := 0, s := s } fuel consume := by
      simp only [nextTarFile, hloop]
    have hscan := headerLoop_scan C (c := { c with padding := 0, s := s }) hv' hlent rfl
      (show _ < fuel by dsimp only; omega)
    rw [hnext]
    cases hcase : tarScan ((C.rest s).drop consume) with
    | finish =>
      rw [hcase] at hscan
      obtain ⟨s2, h, hv2, -⟩ := hscan
      exact ⟨1, _, h, hv2, by simp⟩
    | broken =>
      rw [hcase] at hscan
      obtain ⟨s2, h, hv2, -⟩ := hscan
      exact ⟨-1, _, h, hv2, by simp⟩
    | header t rest =>
      rw [hcase] at hscan
      obtain ⟨s2, h, hv2, hrest⟩ := hscan
      refine ⟨_, _, h, hv2, fun _ => ?_⟩
      have := tarScan_length hcase
      dsimp only
      rw [hrest]
      omega
  · refine ⟨-1, { c with padding := 0, s := s }, ?_, hv', by simp⟩
    simp only [nextTarFile, hloop]

end ToolchainTools
