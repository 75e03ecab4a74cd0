import ToolchainTools.Stream.ZipRuns

/-!
# Finding the central directory (`find_central_dir` and `open_zip`)

`open_zip` looks for the end-of-directory record in the last 22, then the last 1024 and then
the last 66560 bytes of the file, or in all of it when it is smaller. A window that holds any
record that passes the test holds the last one, and the loop over a window goes downwards, so
the stages find what one search of the whole file would find (`staged_search_agrees`).

Two things go wrong. A window that has been cut to the size of the file may be the one that
was looked at before, so that a file of exactly 22 or 1024 bytes without a record is searched
for ever (`open_zip_terminates_iff`). And `find_central_dir_64` is given the position of the
record in its window where it expects its distance from the end of the file, and takes the
place of the zip64 record for that of the directory (`zip64_located_iff`).
-/

namespace ToolchainTools

open CLib CFile

variable {content : Bytes} {f : CFile}

/-! ## Records that pass the test -/

/-- The end-of-directory test for the record at `q`. -/
def IsEndRecord (content : Bytes) (q : Nat) : Prop :=
  little (field content q 4) = zipCentralDirEndSig ∧
    q + zipCentralDirEndSize + little (field content (q + 20) 2) = content.length

instance (content : Bytes) (q : Nat) : Decidable (IsEndRecord content q) :=
  inferInstanceAs (Decidable (_ ∧ _))

/-- The last of the records that pass the test. -/
def LastEndRecord (content : Bytes) (q : Nat) : Prop :=
  IsEndRecord content q ∧ ∀ q', q < q' → ¬ IsEndRecord content q'

/-- The `dir_offset` of the record at `q`. -/
def endRecordOffset (content : Bytes) (q : Nat) : Nat := little (field content (q + 16) 4)

theorem IsEndRecord.le {q : Nat} (h : IsEndRecord content q) :
    q + zipCentralDirEndSize ≤ content.length := by
  have := h.2
  omega

theorem little_lt (bs : Bytes) : little bs < 256 ^ bs.length := by
  induction bs with
  | nil => simp [little]
  | cons b bs ih =>
    have hb := b.toNat_lt
    rw [little, List.length_cons, pow_succ]
    omega

theorem little_field_lt (t : Bytes) (offset length : Nat) :
    little (field t offset length) < 256 ^ length := by
  refine lt_of_lt_of_le (little_lt _) (Nat.pow_le_pow_right (by omega) ?_)
  exact List.length_take_le _ _

/-- No record that passes the test begins further than 65557 bytes before the end. -/
theorem IsEndRecord.near_end {q : Nat} (h : IsEndRecord content q) :
    content.length ≤ q + 65557 := by
  have hlen := h.2
  have hcomment : little (field content (q + 20) 2) < 256 ^ 2 := little_field_lt ..
  unfold zipCentralDirEndSize at hlen
  omega

/-- Where there is a record there is a last one. -/
theorem exists_lastEndRecord {q : Nat} (h : IsEndRecord content q) :
    ∃ q', q ≤ q' ∧ LastEndRecord content q' := by
  by_contra hnone
  have hall : ∀ n, ∃ q', q + n ≤ q' ∧ IsEndRecord content q' := by
    intro n
    induction n with
    | zero => exact ⟨q, by omega, h⟩
    | succ n ih =>
      obtain ⟨q', hle, hrecord⟩ := ih
      by_contra hmore
      refine hnone ⟨q', by omega, hrecord, fun q'' hlt hrecord' => hmore ⟨q'', by omega, hrecord'⟩⟩
  obtain ⟨q', hle, hrecord⟩ := hall (content.length + 1)
  have := hrecord.le
  omega

/-! ## One window -/

/-- The window of the last `off` bytes. -/
def tailWindow (content : Bytes) (off : Nat) : Bytes :=
  (content.drop (content.length - off)).take off

/-- The locator is read, or the search has failed for good. -/
theorem findCentralDir64_ne (f : CFile) (off : Nat) : (findCentralDir64 f off).1 ≠ -1 := by
  unfold findCentralDir64
  split
  · simp
  · dsimp only
    split
    · simp
    · split
      · simp
      · split
        · simp
        · dsimp only
          omega

/-- What the loop makes of the record at `q`, which stands at `p` in the window. -/
def endRecordResult (content : Bytes) (f : CFile) (q p : Nat) : Int × CFile :=
  if endRecordOffset content q = 0xFFFFFFFF then findCentralDir64 f p
  else (endRecordOffset content q, f)

theorem centralDirAt_eq {off p : Nat} (hoff : off ≤ content.length)
    (hp : p + zipCentralDirEndSize ≤ off) :
    centralDirAt f off (tailWindow content off) p =
      if IsEndRecord content (content.length - off + p) then
        some (endRecordResult content f (content.length - off + p) p)
      else none := by
  have hfield : ∀ k n, k + n ≤ zipCentralDirEndSize →
      field (field (tailWindow content off) p zipCentralDirEndSize) k n =
        field content (content.length - off + p + k) n := by
    intro k n hk
    unfold tailWindow
    rw [field_field _ _ _ _ _ hp]
    exact field_field _ _ _ _ _ hk
  have hiff : (little (field content (content.length - off + p) 4) = zipCentralDirEndSig ∧
      p + zipCentralDirEndSize + little (field content (content.length - off + p + 20) 2) = off) ↔
        IsEndRecord content (content.length - off + p) := by
    unfold IsEndRecord
    constructor
    · rintro ⟨hsig, hlen⟩
      exact ⟨hsig, by omega⟩
    · rintro ⟨hsig, hlen⟩
      exact ⟨hsig, by omega⟩
  unfold centralDirAt
  dsimp only
  rw [hfield 0 4 (by decide), hfield 20 2 (by decide), hfield 16 4 (by decide), Nat.add_zero,
    ← endRecordOffset, ← apply_ite some, ← endRecordResult]
  simp only [hiff]

theorem findCentralDirLoop_none {off n : Nat} (hoff : off ≤ content.length)
    (hn : n + zipCentralDirEndSize ≤ off + 1)
    (hnone : ∀ q, content.length - off ≤ q → ¬ IsEndRecord content q) :
    findCentralDirLoop f off (tailWindow content off) n = (-1, f) := by
  induction n with
  | zero => rfl
  | succ p ih =>
    unfold findCentralDirLoop
    rw [centralDirAt_eq hoff (by omega), if_neg (hnone _ (by omega))]
    exact ih (by omega)

theorem findCentralDirLoop_last {off n q : Nat} (hoff : off ≤ content.length)
    (hn : n + zipCentralDirEndSize ≤ off + 1) (hq : LastEndRecord content q)
    (hin : content.length - off ≤ q) (hlt : q < content.length - off + n) :
    findCentralDirLoop f off (tailWindow content off) n =
      endRecordResult content f q (q - (content.length - off)) := by
  induction n with
  | zero => omega
  | succ p ih =>
    unfold findCentralDirLoop
    rw [centralDirAt_eq hoff (by omega)]
    rcases Nat.lt_or_ge q (content.length - off + p) with hbelow | habove
    · rw [if_neg (hq.2 _ hbelow)]
      exact ih (by omega) hbelow
    · have heq : content.length - off + p = q := by omega
      have hp : q - (content.length - off) = p := by omega
      rw [heq, hp, if_pos hq.1]

theorem findCentralDir_eq (hf : Working content f) (hsmall : content.length < 2 ^ 63) {off : Nat}
    (hmin : zipCentralDirEndSize ≤ off) (hoff : off ≤ content.length) :
    ∃ f', Working content f' ∧ findCentralDir f off =
      findCentralDirLoop f' off (tailWindow content off) (off - zipCentralDirEndSize + 1) := by
  have hseek : f.fseekEnd off = some (f.seek (content.length - off)) := by
    unfold CFile.fseekEnd CFile.fseekSet
    rw [hf.content_eq, if_pos hoff, if_pos (by omega)]
  have hdata : ((f.seek (content.length - off)).fread off).1 = tailWindow content off := by
    rw [fread_fst, readable_of_good (hf.seek _).good, (hf.seek _).content_eq]
    rfl
  have hlen : (tailWindow content off).length = off := by
    unfold tailWindow
    rw [List.length_take, List.length_drop]
    omega
  refine ⟨((f.seek (content.length - off)).fread off).2, (hf.seek _).fread _, ?_⟩
  unfold findCentralDir
  rw [if_neg (by omega), hseek]
  dsimp only
  rw [hdata, if_neg (by simp [hlen])]

theorem findCentralDir_none (hf : Working content f) (hsmall : content.length < 2 ^ 63) {off : Nat}
    (hmin : zipCentralDirEndSize ≤ off) (hoff : off ≤ content.length)
    (hnone : ∀ q, content.length - off ≤ q → ¬ IsEndRecord content q) :
    ∃ f', Working content f' ∧ findCentralDir f off = (-1, f') := by
  obtain ⟨f', hf', heq⟩ := findCentralDir_eq hf hsmall hmin hoff
  exact ⟨f', hf', heq.trans (findCentralDirLoop_none hoff (by omega) hnone)⟩

theorem findCentralDir_last (hf : Working content f) (hsmall : content.length < 2 ^ 63)
    {off q : Nat} (hmin : zipCentralDirEndSize ≤ off) (hoff : off ≤ content.length)
    (hq : LastEndRecord content q) (hin : content.length - off ≤ q) :
    ∃ f', Working content f' ∧
      findCentralDir f off = endRecordResult content f' q (q - (content.length - off)) := by
  obtain ⟨f', hf', heq⟩ := findCentralDir_eq hf hsmall hmin hoff
  have hle := hq.1.le
  exact ⟨f', hf', heq.trans (findCentralDirLoop_last hoff (by omega) hq hin (by omega))⟩

/-! ## The stages -/

/-- The container that `open_zip` makes. -/
def freshContainer (f : CFile) (diroff : Nat) : ZipContainer :=
  ⟨⟨[], none, 0, 0⟩, f, diroff, 0, 0, 0, 0, [], false⟩

/-- A window cut to the size of the file. -/
def clip (size off : Nat) : Nat := if off > size then size else off

/-- The window in which the record at `q` of a file of `size` bytes is found. -/
def searchWindow (size q : Nat) : Nat :=
  if size ≤ q + 22 then 22 else if size ≤ q + 1024 then clip size 1024 else clip size (65 * 1024)

/-- The file when the search for the directory has ended with `d`. -/
def endSearch : Int × CFile → Option (Option ZipContainer)
  | (d, f) => if d < -1 then some none else some (some (freshContainer f d.toNat))

theorem openZipLoop_last (hf : Working content f) (hsmall : content.length < 2 ^ 63)
    (fuel : Nat) {off q : Nat} (hmin : zipCentralDirEndSize ≤ off) (hq : LastEndRecord content q)
    (hin : content.length - clip content.length off ≤ q) :
    ∃ f', Working content f' ∧ openZipLoop content.length (fuel + 1) off f =
      endSearch (endRecordResult content f' q (q - (content.length - clip content.length off))) := by
  have hle := hq.1.le
  have hclip : clip content.length off ≤ content.length ∧
      zipCentralDirEndSize ≤ clip content.length off := by
    unfold clip
    split <;> omega
  obtain ⟨f', hf', heq⟩ := findCentralDir_last hf hsmall hclip.2 hclip.1 hq hin
  refine ⟨f', hf', ?_⟩
  have hne : (endRecordResult content f' q
      (q - (content.length - clip content.length off))).1 ≠ -1 := by
    unfold endRecordResult
    split
    · exact findCentralDir64_ne _ _
    · simp only [ne_eq]
      omega
  unfold openZipLoop
  dsimp only
  rw [← clip, heq]
  generalize endRecordResult content f' q
    (q - (content.length - clip content.length off)) = r at hne ⊢
  obtain ⟨d, f''⟩ := r
  dsimp only at hne ⊢
  unfold endSearch
  dsimp only
  split
  · rfl
  · rw [if_pos (by omega)]
    rfl

/-- A window without a record leads to the next stage, which its size decides. -/
theorem openZipLoop_none (hf : Working content f) (hsmall : content.length < 2 ^ 63)
    (hsize : zipCentralDirEndSize ≤ content.length) (fuel : Nat) {off : Nat}
    (hmin : zipCentralDirEndSize ≤ off)
    (hnone : ∀ q, content.length - clip content.length off ≤ q → ¬ IsEndRecord content q) :
    ∃ f', Working content f' ∧ openZipLoop content.length (fuel + 1) off f =
      if clip content.length off = zipCentralDirEndSize then
        openZipLoop content.length fuel 1024 f'
      else if clip content.length off = 1024 then openZipLoop content.length fuel (65 * 1024) f'
      else some none := by
  have hclip : clip content.length off ≤ content.length ∧
      zipCentralDirEndSize ≤ clip content.length off := by
    unfold clip
    split <;> omega
  obtain ⟨f', hf', heq⟩ := findCentralDir_none hf hsmall hclip.2 hclip.1 hnone
  refine ⟨f', hf', ?_⟩
  rw [openZipLoop]
  dsimp only
  rw [← clip, heq]
  rfl

theorem rewind_working (hf : Working content f) : Working content ((f.fseekEnd 0).getD f) := by
  cases hseek : f.fseekEnd 0 with
  | none => exact hf
  | some f' =>
    unfold CFile.fseekEnd at hseek
    rw [if_pos (Nat.zero_le _)] at hseek
    exact hf.fseekSet hseek

theorem clip_eq {size off : Nat} (h : off ≤ size) : clip size off = off := if_neg (by omega)

/-- The stages end at the last record of the file. -/
theorem openZip_last (hf : Working content f) (hsmall : content.length < 2 ^ 63) {q : Nat}
    (hq : LastEndRecord content q) {fuel : Nat} (hfuel : 3 ≤ fuel) :
    ∃ f', Working content f' ∧ openZip fuel f = endSearch (endRecordResult content f' q
      (q - (content.length - searchWindow content.length q))) := by
  obtain ⟨fuel, rfl⟩ := Nat.exists_eq_add_of_le' hfuel
  have hf0 := rewind_working hf
  have hle := hq.1.le
  have hnear := hq.1.near_end
  have hfirst : clip content.length zipCentralDirEndSize = zipCentralDirEndSize := clip_eq (by omega)
  have hnone : ∀ off, q + off < content.length → ∀ q', content.length - off ≤ q' →
      ¬ IsEndRecord content q' := fun off hoff q' hq' => hq.2 q' (by omega)
  unfold openZip
  rw [hf.content_eq]
  unfold zipCentralDirEndSize at hle hfirst
  by_cases h22 : content.length ≤ q + 22
  · -- the record is the last thing in the file
    rw [searchWindow, if_pos h22]
    have hstage := openZipLoop_last hf0 hsmall (fuel + 2) (le_refl 22) hq
      (by rw [hfirst]; omega)
    rwa [hfirst] at hstage
  · obtain ⟨f1, hf1, hstage⟩ := openZipLoop_none hf0 hsmall (by unfold zipCentralDirEndSize; omega)
      (fuel + 2) (le_refl 22) (by rw [hfirst]; exact hnone 22 (by omega))
    unfold zipCentralDirEndSize at hstage ⊢
    rw [hstage, if_pos hfirst, searchWindow, if_neg h22]
    by_cases h1024 : content.length ≤ q + 1024
    · rw [if_pos h1024]
      refine openZipLoop_last hf1 hsmall _ (by decide) hq ?_
      unfold clip
      split <;> omega
    · have hsecond : clip content.length 1024 = 1024 := clip_eq (by omega)
      obtain ⟨f2, hf2, hstage2⟩ := openZipLoop_none hf1 hsmall
        (by unfold zipCentralDirEndSize; omega) (fuel + 1) (show _ ≤ 1024 by decide)
        (by rw [hsecond]; exact hnone 1024 (by omega))
      unfold zipCentralDirEndSize at hstage2
      rw [if_neg h1024, hstage2, hsecond, if_neg (by decide), if_pos rfl]
      refine openZipLoop_last hf2 hsmall _ (by decide) hq ?_
      unfold clip
      split <;> omega

/-- **The staged search agrees with a full one.** For every file with an end-of-directory record
`open_zip` ends within three searches and returns a container with the offset that the last record
holds. -/
theorem staged_search_agrees (hf : Working content f) (hsmall : content.length < 2 ^ 63) {q : Nat}
    (hq : LastEndRecord content q) (hoffset : endRecordOffset content q ≠ 0xFFFFFFFF) {fuel : Nat}
    (hfuel : 3 ≤ fuel) :
    ∃ z, openZip fuel f = some (some z) ∧ z.diroff = endRecordOffset content q ∧
      Working content z.f := by
  obtain ⟨f', hf', hopen⟩ := openZip_last hf hsmall hq hfuel
  rw [endRecordResult, if_neg hoffset, endSearch, if_neg (by omega)] at hopen
  exact ⟨_, hopen, rfl, hf'⟩

/-- An end-of-directory record. -/
def endRecord (info : Bytes) (dirOffset : Nat) (comment : Bytes) : Bytes :=
  littleBytes 4 zipCentralDirEndSig ++ info ++ littleBytes 4 dirOffset ++
    littleBytes 2 comment.length ++ comment

/-- A record whose comment looks like a record with an overlong comment. -/
def decoyZip : Bytes :=
  List.replicate 7 0 ++ endRecord (List.replicate 12 0) 5
    (littleBytes 4 zipCentralDirEndSig ++ List.replicate 18 1)

theorem staged_search_agrees_decoy :
    LastEndRecord decoyZip 7 ∧
      ∃ z, openZip 3 (.ofBytes decoyZip) = some (some z) ∧ z.diroff = 5 := by
  have hlast : LastEndRecord decoyZip 7 := by
    have hall : ∀ q' < 30, 7 < q' → ¬ IsEndRecord decoyZip q' := by decide
    refine ⟨by decide, fun q' hlt hrecord => hall q' ?_ hlt hrecord⟩
    have hle := hrecord.le
    have hlen : decoyZip.length = 51 := by decide
    unfold zipCentralDirEndSize at hle
    omega
  obtain ⟨z, hopen, hdiroff, -⟩ := staged_search_agrees (f := .ofBytes decoyZip) ⟨rfl, rfl, rfl⟩
    (by decide) hlast (by decide) le_rfl
  exact ⟨hlast, z, hopen, hdiroff.trans (by decide)⟩

/-! ## Files without a record -/

section NoRecord

variable (hf : Working content f) (hsmall : content.length < 2 ^ 63)
  (hnone : ∀ q, ¬ IsEndRecord content q)

include hf hsmall hnone

/-- A window that is cut to 22 or to 1024 bytes leads to itself. -/
theorem openZipLoop_stuck (hsize : content.length = 22 ∨ content.length = 1024) {fuel off : Nat}
    (hoff : content.length ≤ off) : openZipLoop content.length fuel off f = none := by
  induction fuel generalizing off f with
  | zero => rfl
  | succ fuel ih =>
    have hmin : zipCentralDirEndSize ≤ off := by
      unfold zipCentralDirEndSize
      omega
    obtain ⟨f', hf', hstage⟩ := openZipLoop_none hf hsmall (by unfold zipCentralDirEndSize; omega)
      fuel hmin (fun q _ => hnone q)
    have hclip : clip content.length off = content.length := by
      unfold clip
      split <;> omega
    rw [hstage, hclip]
    rcases hsize with h22 | h1024
    · rw [if_pos (by simpa [zipCentralDirEndSize] using h22)]
      exact ih hf' (by omega)
    · rw [if_neg (by unfold zipCentralDirEndSize; omega), if_pos h1024]
      exact ih hf' (by omega)

theorem openZip_stuck (hsize : content.length = 22 ∨ content.length = 1024) (fuel : Nat) :
    openZip fuel f = none := by
  have hf0 := rewind_working hf
  unfold openZip
  rw [hf.content_eq]
  rcases hsize with h22 | h1024
  · exact openZipLoop_stuck hf0 hsmall hnone (Or.inl h22) (by unfold zipCentralDirEndSize; omega)
  · cases fuel with
    | zero => rfl
    | succ fuel =>
      obtain ⟨f', hf', hstage⟩ := openZipLoop_none hf0 hsmall
        (by unfold zipCentralDirEndSize; omega) fuel (le_refl zipCentralDirEndSize)
        (fun q _ => hnone q)
      rw [hstage, if_pos (clip_eq (by unfold zipCentralDirEndSize; omega))]
      exact openZipLoop_stuck hf' hsmall hnone (Or.inr h1024) (by omega)

/-- Every other file is given up after at most three searches. -/
theorem openZip_given_up (h22 : content.length ≠ 22) (h1024 : content.length ≠ 1024) :
    openZip 3 f = some none := by
  have hf0 := rewind_working hf
  unfold openZip
  rw [hf.content_eq]
  rcases Nat.lt_or_ge content.length zipCentralDirEndSize with hshort | hsize
  · -- too short for a record
    unfold openZipLoop
    dsimp only
    rw [if_pos hshort]
    unfold findCentralDir
    rw [if_pos hshort]
    rfl
  · obtain ⟨f1, hf1, hstage⟩ := openZipLoop_none hf0 hsmall hsize 2
      (le_refl zipCentralDirEndSize) (fun q _ => hnone q)
    rw [hstage, if_pos (clip_eq hsize)]
    obtain ⟨f2, hf2, hstage2⟩ := openZipLoop_none hf1 hsmall hsize 1
      (show _ ≤ 1024 by decide) (fun q _ => hnone q)
    unfold zipCentralDirEndSize at hsize hstage2
    rw [hstage2]
    rcases Nat.lt_or_ge content.length 1024 with hsmall2 | hlarge
    · have hclip : clip content.length 1024 = content.length := if_pos hsmall2
      rw [hclip, if_neg h22, if_neg h1024]
    · rw [clip_eq hlarge, if_neg (by decide), if_pos rfl]
      obtain ⟨f3, hf3, hstage3⟩ := openZipLoop_none hf2 hsmall
        (by unfold zipCentralDirEndSize; omega) 0 (show _ ≤ 65 * 1024 by decide)
        (fun q _ => hnone q)
      have hclip : clip content.length (65 * 1024) ≠ 22 ∧
          clip content.length (65 * 1024) ≠ 1024 := by
        unfold clip
        split <;> omega
      unfold zipCentralDirEndSize at hstage3
      rw [hstage3, if_neg hclip.1, if_neg hclip.2]

end NoRecord

/-- **When `open_zip` ends.** The search ends for every file but one of exactly 22 or 1024 bytes in
which no position passes the end-of-directory test. -/
theorem open_zip_terminates_iff (hf : Working content f) (hsmall : content.length < 2 ^ 63) :
    (∃ fuel, (openZip fuel f).isSome) ↔
      ¬ ((content.length = 22 ∨ content.length = 1024) ∧ ∀ q, ¬ IsEndRecord content q) := by
  constructor
  · rintro ⟨fuel, hsome⟩ ⟨hsize, hnone⟩
    rw [openZip_stuck hf hsmall hnone hsize] at hsome
    cases hsome
  · intro h
    by_cases hrecord : ∃ q, IsEndRecord content q
    · obtain ⟨q, hq⟩ := hrecord
      obtain ⟨q', -, hlast⟩ := exists_lastEndRecord hq
      obtain ⟨f', -, hopen⟩ := openZip_last hf hsmall hlast (le_refl 3)
      refine ⟨3, ?_⟩
      rw [hopen]
      unfold endSearch
      split
      split <;> rfl
    · have hnone : ∀ q, ¬ IsEndRecord content q := fun q hq => hrecord ⟨q, hq⟩
      have hsize : ¬ (content.length = 22 ∨ content.length = 1024) := fun hs => h ⟨hs, hnone⟩
      refine ⟨3, ?_⟩
      rw [openZip_given_up hf hsmall hnone (fun h22 => hsize (Or.inl h22))
        (fun h1024 => hsize (Or.inr h1024))]
      rfl

theorem open_zip_terminates_iff_zeros :
    ∃ fuel, (openZip fuel (.ofBytes (List.replicate 23 0))).isSome := by
  have hf : Working (List.replicate 23 0) (.ofBytes (List.replicate 23 0)) := ⟨rfl, rfl, rfl⟩
  refine (open_zip_terminates_iff hf (by decide)).mpr ?_
  rintro ⟨hsize, -⟩
  simp at hsize

/-- A file of 22 zero bytes is searched for ever. -/
theorem zeros_searched_forever :
    ¬ ∃ fuel, (openZip fuel (.ofBytes (List.replicate 22 0))).isSome := by
  rintro ⟨fuel, hsome⟩
  have hnone : ∀ q, ¬ IsEndRecord (List.replicate 22 0) q := by
    have hzero : ¬ IsEndRecord (List.replicate 22 0) 0 := by decide
    intro q hq
    have hle := hq.le
    rw [List.length_replicate] at hle
    unfold zipCentralDirEndSize at hle
    exact hzero (by rwa [show q = 0 by omega] at hq)
  rw [openZip_stuck (f := .ofBytes (List.replicate 22 0)) ⟨rfl, rfl, rfl⟩ (by decide) hnone
    (Or.inl rfl)] at hsome
  cases hsome

/-! ## Zip64 files -/

/-- The parts of a zip64 file: what is in front of the directory, the directory, the fields of the
three records that `open_zip` does not look at, and the comment. -/
structure Zip64Image where
  front : Bytes
  entries : List ZipEntry
  /-- The record from its size to `dir_len`. -/
  recordInfo : Bytes
  recordInfo_length : recordInfo.length = 44
  locatorDisk : Bytes
  locatorDisk_length : locatorDisk.length = 4
  totalDisks : Bytes
  totalDisks_length : totalDisks.length = 4
  /-- The end record from `disk_num` to `dir_len`. -/
  endInfo : Bytes
  endInfo_length : endInfo.length = 12
  comment : Bytes
  comment_lt : comment.length < 2 ^ 16

def zip64CentralDirEndSig : Nat := 0x06064b50

namespace Zip64Image

variable (image : Zip64Image)

def directory : Bytes := image.entries.flatMap ZipEntry.encode

/-- The offset of the first central directory header. -/
def dirStart : Nat := image.front.length

def record : Bytes :=
  littleBytes 4 zip64CentralDirEndSig ++ image.recordInfo ++ littleBytes 8 image.dirStart

def locator : Bytes :=
  littleBytes 4 zip64CentralDirLocatorSig ++ image.locatorDisk ++
    littleBytes 8 (image.front.length + image.directory.length) ++ image.totalDisks

/-- Everything in front of the end-of-directory record. -/
def body : Bytes := image.front ++ image.directory ++ image.record ++ image.locator

def bytes : Bytes := image.body ++ endRecord image.endInfo 0xFFFFFFFF image.comment

/-- The end-of-directory record passes the test. -/
theorem isEndRecord : IsEndRecord image.bytes image.body.length := by
  have hinfo := image.endInfo_length
  have hparts : image.bytes = (image.body :: littleBytes 4 zipCentralDirEndSig :: image.endInfo ::
      littleBytes 4 0xFFFFFFFF :: littleBytes 2 image.comment.length :: [image.comment]).flatten := by
    simp [bytes, endRecord]
  have hsig : field image.bytes image.body.length 4 = littleBytes 4 zipCentralDirEndSig := by
    rw [hparts]
    exact field_flatten [image.body] _ _ (by simp) (by simp)
  have hlen : field image.bytes (image.body.length + 20) 2 =
      littleBytes 2 image.comment.length := by
    rw [hparts]
    exact field_flatten [image.body, littleBytes 4 zipCentralDirEndSig, image.endInfo,
      littleBytes 4 0xFFFFFFFF] _ _ (by simp [hinfo]) (by simp)
  refine ⟨?_, ?_⟩
  · rw [hsig]
    exact little_32 (by decide)
  · rw [hlen, little_16 image.comment_lt]
    simp [bytes, endRecord, hinfo, zipCentralDirEndSize]
    omega

theorem bytes_parts : image.bytes =
    [image.front ++ image.directory ++ image.record, littleBytes 4 zip64CentralDirLocatorSig,
      image.locatorDisk, littleBytes 8 (image.front.length + image.directory.length),
      image.totalDisks, littleBytes 4 zipCentralDirEndSig, image.endInfo,
      littleBytes 4 0xFFFFFFFF, littleBytes 2 image.comment.length, image.comment].flatten := by
  simp [bytes, body, locator, endRecord]

/-- Where the locator stands. -/
def locatorStart : Nat := (image.front ++ image.directory ++ image.record).length

theorem length_body : image.body.length = image.locatorStart + zip64CentralDirLocatorSize := by
  have hdisk := image.locatorDisk_length
  have htotal := image.totalDisks_length
  simp only [body, locator, locatorStart, List.length_append, length_littleBytes,
    zip64CentralDirLocatorSize]
  omega

theorem length_bytes : image.bytes.length =
    image.body.length + (zipCentralDirEndSize + image.comment.length) := by
  have hinfo := image.endInfo_length
  simp only [bytes, endRecord, List.length_append, length_littleBytes, zipCentralDirEndSize]
  omega

theorem dirStart_le : image.dirStart ≤ image.bytes.length := by
  simp only [dirStart, bytes, body, List.length_append]
  omega

theorem endRecordOffset_body : endRecordOffset image.bytes image.body.length = 0xFFFFFFFF := by
  have hfield : field image.bytes (image.body.length + 16) 4 = littleBytes 4 0xFFFFFFFF := by
    rw [image.bytes_parts]
    refine field_flatten [image.front ++ image.directory ++ image.record,
      littleBytes 4 zip64CentralDirLocatorSig, image.locatorDisk,
      littleBytes 8 (image.front.length + image.directory.length), image.totalDisks,
      littleBytes 4 zipCentralDirEndSig, image.endInfo] _ _ ?_ (length_littleBytes ..)
    simp [body, locator, image.endInfo_length]
    omega
  rw [endRecordOffset, hfield]
  exact little_32 (by decide)

theorem locator_sig :
    little (field image.bytes image.locatorStart 4) = zip64CentralDirLocatorSig := by
  have hfield : field image.bytes image.locatorStart 4 =
      littleBytes 4 zip64CentralDirLocatorSig := by
    rw [image.bytes_parts]
    exact field_flatten [image.front ++ image.directory ++ image.record] _ _
      (by simp [locatorStart]) (length_littleBytes ..)
  rw [hfield]
  exact little_32 (by decide)

/-- The locator holds the place of the zip64 record. -/
theorem locator_offset (hsmall : image.bytes.length < 2 ^ 63) :
    little (field image.bytes (image.locatorStart + 8) 8) =
      image.front.length + image.directory.length := by
  have hfield : field image.bytes (image.locatorStart + 8) 8 =
      littleBytes 8 (image.front.length + image.directory.length) := by
    rw [image.bytes_parts]
    exact field_flatten [image.front ++ image.directory ++ image.record,
      littleBytes 4 zip64CentralDirLocatorSig, image.locatorDisk] _ _
      (by simp [locatorStart, image.locatorDisk_length]; omega) (length_littleBytes ..)
  rw [hfield]
  refine little_64 ?_
  simp only [bytes, body, List.length_append] at hsmall
  omega

theorem length_directory_eq_zero_iff : image.directory.length = 0 ↔ image.entries = [] := by
  unfold directory
  cases image.entries with
  | nil => simp
  | cons e es =>
    have hheader := e.length_headerFields
    simp only [List.flatMap_cons, List.length_append, ZipEntry.encode, hheader,
      zipFileHeaderSize, reduceCtorEq, iff_false]
    omega

end Zip64Image

/-- The twenty bytes in which `find_central_dir_64` looks for the locator lead to `d`, when the last
record that passes the test stands at `q`. They end as many bytes before the end of the file as the
record stands behind the start of its window. -/
def LocatorLeads (content : Bytes) (q d : Nat) : Prop :=
  let p := q - (content.length - searchWindow content.length q)
  p + zip64CentralDirLocatorSize ≤ content.length ∧
    little (field content (content.length - (p + zip64CentralDirLocatorSize)) 4) =
      zip64CentralDirLocatorSig ∧
    little (field content (content.length - (p + zip64CentralDirLocatorSize) + 8) 8) = d

instance (content : Bytes) (q d : Nat) : Decidable (LocatorLeads content q d) :=
  inferInstanceAs (Decidable (_ ∧ _ ∧ _))

/-- The last record that passes the test leads to `d`. -/
def Leads (content : Bytes) (q d : Nat) : Prop :=
  if endRecordOffset content q = 0xFFFFFFFF then LocatorLeads content q d
  else endRecordOffset content q = d

/-- The window lies in the file and holds the record. -/
theorem searchWindow_le {q : Nat} (h : IsEndRecord content q) :
    searchWindow content.length q ≤ content.length ∧
      content.length - searchWindow content.length q ≤ q := by
  have hle := h.le
  have hnear := h.near_end
  unfold zipCentralDirEndSize at hle
  unfold searchWindow clip
  split
  · omega
  · split
    · split <;> omega
    · split <;> omega

namespace Zip64Image

variable (image : Zip64Image)

/-- When only the locator looks like one. -/
theorem leads_iff (hsmall : image.bytes.length < 2 ^ 63)
    (honly : ∀ k, little (field image.bytes k 4) = zip64CentralDirLocatorSig →
      k = image.locatorStart) :
    Leads image.bytes image.body.length image.dirStart ↔
      searchWindow image.bytes.length image.body.length =
        2 * (zipCentralDirEndSize + image.comment.length) ∧ image.entries = [] := by
  have hbody := image.length_body
  have hbytes := image.length_bytes
  have hwindow := searchWindow_le image.isEndRecord
  rw [← image.length_directory_eq_zero_iff, Leads, if_pos image.endRecordOffset_body, LocatorLeads]
  constructor
  · rintro ⟨hp, hsig, hoffset⟩
    have hplace := honly _ hsig
    rw [hplace, image.locator_offset hsmall, dirStart] at hoffset
    exact ⟨by omega, by omega⟩
  · rintro ⟨htwice, hempty⟩
    have hplace : image.bytes.length - (image.body.length - (image.bytes.length -
        searchWindow image.bytes.length image.body.length) + zip64CentralDirLocatorSize) =
          image.locatorStart := by omega
    rw [hplace, image.locator_offset hsmall, dirStart]
    exact ⟨by omega, image.locator_sig, by omega⟩

end Zip64Image

theorem findCentralDir64_iff (hf : Working content f) (hsmall : content.length < 2 ^ 63) {p d : Nat}
    (hd : d < 2 ^ 63) :
    (findCentralDir64 f p).1 = d ↔ p + zip64CentralDirLocatorSize ≤ content.length ∧
      little (field content (content.length - (p + zip64CentralDirLocatorSize)) 4) =
        zip64CentralDirLocatorSig ∧
      little (field content (content.length - (p + zip64CentralDirLocatorSize) + 8) 8) = d := by
  unfold findCentralDir64
  by_cases hp : p + zip64CentralDirLocatorSize ≤ content.length
  · have hseek : f.fseekEnd (p + zip64CentralDirLocatorSize) =
        some (f.seek (content.length - (p + zip64CentralDirLocatorSize))) := by
      unfold CFile.fseekEnd CFile.fseekSet
      rw [hf.content_eq, if_pos hp, if_pos (by omega)]
    have hdata : ((f.seek (content.length - (p + zip64CentralDirLocatorSize))).fread
        zip64CentralDirLocatorSize).1 =
          (content.drop (content.length - (p + zip64CentralDirLocatorSize))).take
            zip64CentralDirLocatorSize := by
      rw [fread_fst, readable_of_good (hf.seek _).good, (hf.seek _).content_eq]
      rfl
    have hlen : ((content.drop (content.length - (p + zip64CentralDirLocatorSize))).take
        zip64CentralDirLocatorSize).length = zip64CentralDirLocatorSize := by
      rw [List.length_take, List.length_drop]
      omega
    rw [hseek]
    dsimp only
    rw [hdata, if_neg (by simp [hlen]), field_field _ _ _ _ _ (by decide),
      field_field _ _ _ _ _ (by decide), Nat.add_zero]
    generalize content.length - (p + zip64CentralDirLocatorSize) = at64
    have hlt : little (field content (at64 + 8) 8) < 256 ^ 8 := little_field_lt ..
    generalize little (field content (at64 + 8) 8) = value at hlt ⊢
    by_cases hsig : little (field content at64 4) = zip64CentralDirLocatorSig
    · rw [if_neg (by simpa using hsig)]
      have hbmod : ((value : Int).bmod (2 ^ 64) = d) ↔ value = d := by
        rw [Int.bmod_def]
        split <;> omega
      split
      · rename_i hneg
        simp only [hp, hsig, true_and]
        constructor
        · intro h
          omega
        · intro h
          rw [hbmod.mpr h] at hneg
          omega
      · simp only [hp, hsig, true_and]
        exact hbmod
    · rw [if_pos hsig]
      simp only [hsig, false_and, and_false, iff_false]
      omega
  · have hseek : f.fseekEnd (p + zip64CentralDirLocatorSize) = none := by
      unfold CFile.fseekEnd
      rw [hf.content_eq, if_neg hp]
    rw [hseek]
    simp only [hp, false_and, iff_false]
    omega

/-- What `open_zip` returns for a file whose last record stands at `q`. -/
theorem openZip_iff (hf : Working content f) (hsmall : content.length < 2 ^ 63) {q d : Nat}
    (hq : LastEndRecord content q) (hd : d < 2 ^ 63) {fuel : Nat} (hfuel : 3 ≤ fuel) :
    (∃ z, openZip fuel f = some (some z) ∧ z.diroff = d) ↔ Leads content q d := by
  obtain ⟨f', hf', hopen⟩ := openZip_last hf hsmall hq hfuel
  rw [hopen]
  have hend : ∀ r : Int × CFile, r.1 ≠ -1 →
      ((∃ z, endSearch r = some (some z) ∧ z.diroff = d) ↔ r.1 = d) := by
    rintro ⟨v, f''⟩ hv
    unfold endSearch
    dsimp only at hv ⊢
    split
    · simp only [Option.some.injEq, reduceCtorEq, false_and, exists_false, false_iff]
      omega
    · simp only [Option.some.injEq]
      constructor
      · rintro ⟨z, rfl, hz⟩
        simp only [freshContainer] at hz
        omega
      · intro h
        exact ⟨_, rfl, by simp only [freshContainer]; omega⟩
  unfold endRecordResult Leads
  split
  · rw [hend _ (findCentralDir64_ne _ _)]
    exact findCentralDir64_iff hf' hsmall hd
  · rw [hend _ (by dsimp only; omega)]
    dsimp only
    omega

/-- **When a zip64 file is located.** Let the last record that passes the end-of-directory test stand
at `q` (without a decoy in the comment, this is the end record of the file). `open_zip` returns a
container at the first directory header if and only if the bytes in which it looks for the locator
happen to lead there. When only the locator itself looks like one, this takes a window of exactly
twice the size of the end record and an empty directory. -/
theorem zip64_located_iff (image : Zip64Image) (hsmall : image.bytes.length < 2 ^ 63) {f : CFile}
    (hf : Working image.bytes f) :
    (∃ q, LastEndRecord image.bytes q) ∧
    (∀ q, LastEndRecord image.bytes q → ∀ fuel, 3 ≤ fuel →
      ((∃ z, openZip fuel f = some (some z) ∧ z.diroff = image.dirStart) ↔
        Leads image.bytes q image.dirStart)) ∧
    (LastEndRecord image.bytes image.body.length →
      (∀ k, little (field image.bytes k 4) = zip64CentralDirLocatorSig →
        k = image.locatorStart) →
      (Leads image.bytes image.body.length image.dirStart ↔
        searchWindow image.bytes.length image.body.length =
          2 * (zipCentralDirEndSize + image.comment.length) ∧ image.entries = [])) := by
  have hstart : image.dirStart < 2 ^ 63 := by
    have hlen : image.dirStart ≤ image.bytes.length := image.dirStart_le
    omega
  refine ⟨?_, fun q hq fuel hfuel => openZip_iff hf hsmall hq hstart hfuel, ?_⟩
  · obtain ⟨q, -, hq⟩ := exists_lastEndRecord image.isEndRecord
    exact ⟨q, hq⟩
  · intro _ honly
    exact image.leads_iff hsmall honly

/-- A zip64 file with these entries and this comment behind `front`. -/
def zip64Image (front : Bytes) (entries : List ZipEntry) (comment : Bytes)
    (hcomment : comment.length < 2 ^ 16) : Zip64Image where
  front := front
  entries := entries
  recordInfo := littleBytes 8 44 ++ littleBytes 2 45 ++ littleBytes 2 45 ++ littleBytes 4 0 ++
    littleBytes 4 0 ++ littleBytes 8 entries.length ++ littleBytes 8 entries.length ++
    littleBytes 8 (entries.flatMap ZipEntry.encode).length
  recordInfo_length := by simp
  locatorDisk := littleBytes 4 0
  locatorDisk_length := rfl
  totalDisks := littleBytes 4 1
  totalDisks_length := rfl
  endInfo := littleBytes 2 0 ++ littleBytes 2 0 ++ littleBytes 2 0xFFFF ++ littleBytes 2 0xFFFF ++
    littleBytes 4 0xFFFFFFFF
  endInfo_length := by simp
  comment := comment
  comment_lt := hcomment

/-- No entries, and a comment that makes the end record half of the file. -/
def halfImage : Zip64Image := zip64Image [] [] (List.replicate 54 0) (by decide)

theorem zip64_located_iff_half :
    LastEndRecord halfImage.bytes halfImage.body.length ∧
      ∃ z, openZip 3 (.ofBytes halfImage.bytes) = some (some z) ∧ z.diroff = halfImage.dirStart := by
  have hlast : LastEndRecord halfImage.bytes halfImage.body.length := by
    have hall : ∀ q' < 131, halfImage.body.length < q' → ¬ IsEndRecord halfImage.bytes q' := by
      decide +kernel
    refine ⟨halfImage.isEndRecord, fun q' hlt hrecord => hall q' ?_ hlt hrecord⟩
    have hle := hrecord.le
    have hlen : halfImage.bytes.length = 152 := by decide +kernel
    unfold zipCentralDirEndSize at hle
    omega
  have hf : Working halfImage.bytes (.ofBytes halfImage.bytes) := ⟨rfl, rfl, rfl⟩
  obtain ⟨-, hiff, -⟩ := zip64_located_iff halfImage (by decide +kernel) hf
  refine ⟨hlast, (hiff _ hlast 3 le_rfl).mpr ?_⟩
  unfold Leads
  rw [if_pos (by decide)]
  decide +kernel

/-- One entry and no comment. -/
def oneEntryImage : Zip64Image := zip64Image [] [plainFileEntry] [] (by decide)

/-- The file is refused: the twenty bytes that are read as the locator lie in the end record. -/
theorem zip64_file_refused :
    ¬ ∃ fuel z, openZip fuel (.ofBytes oneEntryImage.bytes) = some (some z) ∧
      z.diroff = oneEntryImage.dirStart := by
  rintro ⟨fuel, z, hopen, -⟩
  have hfind : (findCentralDir (((CFile.ofBytes oneEntryImage.bytes).fseekEnd 0).getD
      (.ofBytes oneEntryImage.bytes)) 22).1 = -2 ∧ ¬ 22 > oneEntryImage.bytes.length := by
    decide +kernel
  cases fuel with
  | zero => cases hopen
  | succ fuel =>
    unfold openZip openZipLoop zipCentralDirEndSize at hopen
    dsimp only at hopen
    rw [show (CFile.ofBytes oneEntryImage.bytes).content = oneEntryImage.bytes from rfl,
      if_neg hfind.2, hfind.1] at hopen
    cases hopen

end ToolchainTools
