import ToolchainTools.Stream.Tar

/-!
# The size of a member and what follows it

The size field of a header is text. `strtoull` accepts blanks and a sign in front of the
digits and takes `-k` for `2^64 - k`, which is a size like any other for the code behind it.
The bytes that are skipped behind a member that is not opened are counted modulo `2^64`:
the count is right unless the rounded size does not fit.
-/

namespace ToolchainTools

open CLib Posix Streams

variable {σ : Type}

/-- The number of bytes in the blocks that a body of `sz` bytes takes. -/
def roundUp (sz : Nat) : Nat := (sz + (tarBlockSize - 1)) / tarBlockSize * tarBlockSize

/-- The size field reads as one of `-1` to `-511`. -/
def NegativeSize (t : Bytes) : Prop :=
  (strto (cstr (tarSize t)) 8).1 = true ∧ 0 < (strto (cstr (tarSize t)) 8).2 ∧
    (strto (cstr (tarSize t)) 8).2 < tarBlockSize

instance (t : Bytes) : Decidable (NegativeSize t) := inferInstanceAs (Decidable (_ ∧ _ ∧ _))

/-! ## The number in the field -/

theorem digit_lt {base d : Nat} {c : UInt8} (h : digit base c = some d) : d < base := by
  unfold digit at h
  simp only [Option.ite_none_right_eq_some, Option.some.injEq] at h
  omega

theorem digits_lt {base : Nat} (hbase : 0 < base) (acc : Nat) (s : Bytes) :
    digits base acc s < (acc + 1) * base ^ s.length := by
  induction s generalizing acc with
  | nil => simp [digits]
  | cons c cs ih =>
    rw [digits, List.length_cons, Nat.pow_succ']
    split
    · rename_i d hd
      have hlt := digit_lt hd
      calc digits base (acc * base + d) cs
          < (acc * base + d + 1) * base ^ cs.length := ih _
        _ ≤ (acc + 1) * base * base ^ cs.length :=
          Nat.mul_le_mul_right _ (by rw [Nat.add_mul]; omega)
        _ = (acc + 1) * (base * base ^ cs.length) := Nat.mul_assoc _ _ _
    · calc acc < acc + 1 := Nat.lt_succ_self acc
        _ = (acc + 1) * 1 := (Nat.mul_one _).symm
        _ ≤ (acc + 1) * (base * base ^ cs.length) :=
          Nat.mul_le_mul_left _ (Nat.mul_pos hbase (Nat.pow_pos hbase))

theorem length_sign (s : Bytes) : (sign s).2.length ≤ s.length := by
  unfold sign
  split <;> simp

/-- A field of `n` bytes holds a number below `8 ^ n`. -/
theorem strto_octal_lt {s : Bytes} {n : Nat} (h : s.length ≤ n) : (strto s 8).2 < 8 ^ n := by
  have hradix : ∀ r : Bytes, radix 8 r = (8, r) := fun r => by
    unfold radix
    split <;> simp
  have hlen : (sign (s.dropWhile isspace)).2.length ≤ n :=
    (length_sign _).trans ((List.dropWhile_suffix _).length_le.trans h)
  have hdigits := digits_lt (show 0 < 8 by norm_num) 0 (sign (s.dropWhile isspace)).2
  simp only [strto, hradix]
  exact hdigits.trans_le (by simpa using Nat.pow_le_pow_right (by norm_num) hlen)

theorem length_tarSize (t : Bytes) : (cstr (tarSize t)).length ≤ 12 := by
  have hcut := (List.takeWhile_prefix (· ≠ 0) (l := tarSize t)).length_le
  have hfield : (tarSize t).length ≤ 12 := List.length_take_le _ _
  exact hcut.trans hfield

/-- What the size field makes of a small number and of a small number with a minus sign. -/
theorem tarSize_value (t : Bytes) :
    strtoull (cstr (tarSize t)) 8 =
      if (strto (cstr (tarSize t)) 8).1 = true ∧ 0 < (strto (cstr (tarSize t)) 8).2 then
        2 ^ 64 - (strto (cstr (tarSize t)) 8).2
      else (strto (cstr (tarSize t)) 8).2 := by
  have hlt := strto_octal_lt (length_tarSize t)
  unfold strtoull
  dsimp only
  rw [if_neg (by omega)]
  by_cases hsign : (strto (cstr (tarSize t)) 8).1 = true
  · rw [if_pos hsign]
    split
    · exact Nat.mod_eq_of_lt (by omega)
    · rename_i hzero
      have hvalue : (strto (cstr (tarSize t)) 8).2 = 0 := by
        by_contra hne
        exact hzero ⟨hsign, Nat.pos_of_ne_zero hne⟩
      rw [hvalue, Nat.sub_zero, Nat.mod_self]
  · rw [if_neg hsign, if_neg fun h => hsign h.1]

/-! ## The bytes behind a member -/

theorem tarPadding_lt (sz : Nat) : tarPadding sz < tarBlockSize := by
  simp only [tarPadding, tarBlockSize, add64, sub64]
  omega

/-- The count is right exactly if the rounded size fits. -/
theorem add64_tarPadding_iff {sz : Nat} (h : sz < 2 ^ 64) :
    add64 (tarPadding sz) sz = roundUp sz ↔ sz ≤ 2 ^ 64 - tarBlockSize := by
  simp only [tarPadding, tarBlockSize, add64, sub64, roundUp]
  omega

/-- What an accepted header says of its member. -/
theorem readTarFileHeader_zero {c : TarContainer σ} {t : Bytes}
    (h : (readTarFileHeader c t).1 = 0) :
    (readTarFileHeader c t).2.h.fileSize = strtoull (cstr (tarSize t)) 8 ∧
      (readTarFileHeader c t).2.padding = tarPadding (strtoull (cstr (tarSize t)) 8) ∧
      (readTarFileHeader c t).2.fileOpened = false := by
  unfold readTarFileHeader at h ⊢
  cases hclean : cleanTarName t with
  | none =>
    rw [hclean] at h
    cases h
  | some path => exact ⟨rfl, rfl, rfl⟩

/-- **Tar size arithmetic.** The padding of an accepted header is shorter than a block, and the
bytes counted for its member are its size rounded up to whole blocks, exactly unless the
size field reads as a negative number of less than a block. -/
theorem tar_size_arithmetic_iff {c : TarContainer σ} {t : Bytes}
    (h : (readTarFileHeader c t).1 = 0) :
    (readTarFileHeader c t).2.padding < tarBlockSize ∧
      ((readTarFileHeader c t).2.padding < tarBlockSize ∧
          tarSkip (readTarFileHeader c t).2 = roundUp (strtoull (cstr (tarSize t)) 8) ↔
        ¬ NegativeSize t) := by
  obtain ⟨hsize, hpadding, hopened⟩ := readTarFileHeader_zero h
  have hlt : (readTarFileHeader c t).2.padding < tarBlockSize := hpadding ▸ tarPadding_lt _
  have hvalue := tarSize_value t
  have hoctal := strto_octal_lt (length_tarSize t)
  have hfits : strtoull (cstr (tarSize t)) 8 < 2 ^ 64 := by
    rw [hvalue]
    split <;> omega
  refine ⟨hlt, ?_⟩
  rw [and_iff_right hlt, tarSkip, hopened, if_neg Bool.false_ne_true, hsize, hpadding,
    add64_tarPadding_iff hfits, hvalue]
  unfold NegativeSize tarBlockSize
  clear hvalue hfits hsize hpadding
  generalize strto (cstr (tarSize t)) 8 = r at hoctal ⊢
  obtain ⟨negative, n⟩ := r
  cases negative with
  | false =>
    rw [if_neg (by simp)]
    simp only [Bool.false_eq_true, false_and, not_false_eq_true, iff_true]
    dsimp only at hoctal
    omega
  | true =>
    simp only [true_and]
    dsimp only at hoctal
    split <;> omega

/-- A header of a regular file with nothing but a name and a size. -/
def sizeHeader (size : Bytes) : Bytes :=
  lit "a/b" ++ List.replicate 121 0 ++ (size ++ List.replicate (32 - size.length) 0) ++
    regType :: List.replicate 355 0

/-- A size of 513 bytes takes two blocks. -/
theorem tar_size_arithmetic_two :
    (readTarFileHeader (openTar ()) (sizeHeader (lit "1001"))).1 = 0 ∧
      tarSkip (readTarFileHeader (openTar ()) (sizeHeader (lit "1001"))).2 = 1024 := by
  have hzero : (readTarFileHeader (openTar ()) (sizeHeader (lit "1001"))).1 = 0 := by
    decide +kernel
  obtain ⟨-, hiff⟩ := tar_size_arithmetic_iff hzero
  have hsize : ¬ NegativeSize (sizeHeader (lit "1001")) := by decide
  refine ⟨hzero, (hiff.mpr hsize).2.trans ?_⟩
  decide +kernel

/-- The size `-1` is taken for `2^64 - 1`, and nothing is skipped for it. -/
theorem negative_size_skips_nothing :
    (readTarFileHeader (openTar ()) (sizeHeader (lit "-1"))).1 = 0 ∧
      (readTarFileHeader (openTar ()) (sizeHeader (lit "-1"))).2.h.fileSize = 2 ^ 64 - 1 ∧
      tarSkip (readTarFileHeader (openTar ()) (sizeHeader (lit "-1"))).2 = 0 ∧
      roundUp (strtoull (cstr (tarSize (sizeHeader (lit "-1")))) 8) = 2 ^ 64 := by
  decide +kernel

end ToolchainTools
