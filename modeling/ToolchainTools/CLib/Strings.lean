import Mathlib

/-!
# C strings, numbers and fixed-width arithmetic

A C string is the list of its bytes without the terminating NUL, and a `char` buffer is
the list of all its bytes; `cstr` is the string that a buffer holds. The number readers
follow the C standard: leading white space, an optional sign, the digits of the base,
and clamping where the value does not fit. Arithmetic on `size_t`, `uint64_t` and `int`
is arithmetic on `Nat` and `Int` followed by the reduction the type makes.
-/

namespace CLib

abbrev Bytes := List UInt8

/-- The bytes of an ASCII string literal. -/
def lit (s : String) : Bytes := s.toList.map fun c => UInt8.ofNat c.toNat

/-- The string in a `char` buffer: everything before its first NUL. -/
def cstr (buf : Bytes) : Bytes := buf.takeWhile (· ≠ 0)

/-- The suffix of `s` that starts at the first `c`. -/
def strchr : Bytes → UInt8 → Option Bytes
  | [], _ => none
  | x :: xs, c => if x = c then some (x :: xs) else strchr xs c

/-- The bytes of a field of a packed record. -/
def field (t : Bytes) (offset length : Nat) : Bytes := (t.drop offset).take length

/-- `strncmp(s, p, strlen(p)) == 0`. -/
def startsWith (s p : Bytes) : Bool := p.isPrefixOf s

/-- A string without the bytes of one kind at its start and of another kind at its end. -/
def trimBy (front back : UInt8 → Bool) (s : Bytes) : Bytes :=
  ((s.dropWhile front).reverse.dropWhile back).reverse

/-- `tolower` in the C locale. -/
def tolower (c : UInt8) : UInt8 := if 65 ≤ c ∧ c ≤ 90 then c + 32 else c

/-- `strcasecmp(a, b) == 0`. -/
def strcaseeq (a b : Bytes) : Bool := a.map tolower = b.map tolower

/-! ## Numbers -/

def isspace (c : UInt8) : Bool := c = 32 ∨ (9 ≤ c ∧ c ≤ 13)

/-- The value of `c` as a digit of `base`. -/
def digit (base : Nat) (c : UInt8) : Option Nat :=
  let v :=
    if 48 ≤ c ∧ c ≤ 57 then c.toNat - 48
    else if 97 ≤ c ∧ c ≤ 122 then c.toNat - 87
    else if 65 ≤ c ∧ c ≤ 90 then c.toNat - 55
    else base
  if v < base then some v else none

/-- The number written by the leading digits, on top of `acc`. -/
def digits (base : Nat) : Nat → Bytes → Nat
  | acc, [] => acc
  | acc, c :: cs =>
    match digit base c with
    | some d => digits base (acc * base + d) cs
    | none => acc

def sign : Bytes → Bool × Bytes
  | 45 :: r => (true, r)
  | 43 :: r => (false, r)
  | r => (false, r)

/-- The base in force after a possible `0x` or `0` mark, with the digits behind it. -/
def radix (base : Nat) : Bytes → Nat × Bytes
  | 48 :: x :: d :: r =>
    if (base = 0 ∨ base = 16) ∧ (x = 120 ∨ x = 88) ∧ (digit 16 d).isSome then (16, d :: r)
    else if base = 0 then (8, 48 :: x :: d :: r)
    else (base, 48 :: x :: d :: r)
  | 48 :: r => if base = 0 then (8, 48 :: r) else (base, 48 :: r)
  | r => if base = 0 then (10, r) else (base, r)

/-- Sign and magnitude read by the `strto*` family. -/
def strto (s : Bytes) (base : Nat) : Bool × Nat :=
  let sr := sign (s.dropWhile isspace)
  let br := radix base sr.2
  (sr.1, digits br.1 0 br.2)

/-- `strtoll`, and `strtol` where `long` has 64 bits. -/
def strtoll (s : Bytes) (base : Nat) : Int :=
  let r := strto s base
  if r.1 then max (-(r.2 : Int)) (-2 ^ 63) else min (r.2 : Int) (2 ^ 63 - 1)

def strtoull (s : Bytes) (base : Nat) : Nat :=
  let r := strto s base
  if 2 ^ 64 ≤ r.2 then 2 ^ 64 - 1
  else if r.1 then (2 ^ 64 - r.2) % 2 ^ 64
  else r.2

/-- The conversion to a 32-bit `int`. -/
def toInt32 (n : Int) : Int := n.bmod (2 ^ 32)

/-- The conversion to `int64_t`. -/
def toInt64 (n : Int) : Int := n.bmod (2 ^ 64)

/-- The conversion to `size_t` and `uint64_t`. -/
def toSize (n : Int) : Nat := (n % 2 ^ 64).toNat

def atoi (s : Bytes) : Int := toInt32 (strtoll s 10)

/-! ## Unsigned 64-bit arithmetic -/

def add64 (a b : Nat) : Nat := (a + b) % 2 ^ 64

def sub64 (a b : Nat) : Nat := (a + (2 ^ 64 - b % 2 ^ 64)) % 2 ^ 64

theorem toInt64_of_range {n : Int} (hlo : -2 ^ 63 ≤ n) (hhi : n < 2 ^ 63) : toInt64 n = n := by
  unfold toInt64
  rw [Int.bmod_eq_of_le (by omega) (by omega)]

theorem toSize_of_range {n : Int} (hlo : 0 ≤ n) (hhi : n < 2 ^ 64) : toSize n = n.toNat := by
  unfold toSize
  rw [Int.emod_eq_of_lt hlo (by omega)]

theorem add64_of_lt {a b : Nat} (h : a + b < 2 ^ 64) : add64 a b = a + b :=
  Nat.mod_eq_of_lt h

theorem sub64_of_le {a b : Nat} (h : b ≤ a) (ha : a < 2 ^ 64) : sub64 a b = a - b := by
  unfold sub64
  rw [Nat.mod_eq_of_lt (show b < 2 ^ 64 by omega)]
  omega

/-! ## Packed records -/

/-- The bytes of a field of a given width. -/
abbrev Packed (n : Nat) := { b : Bytes // b.length = n }

/-- A field of NULs. -/
def zeroField (n : Nat) : Packed n := ⟨List.replicate n 0, List.length_replicate⟩

/-- The number whose bytes, lowest first, are given. -/
def little : Bytes → Nat
  | [] => 0
  | b :: bs => b.toNat + 256 * little bs

/-- The `n` lowest bytes of a number. -/
def littleBytes : Nat → Nat → Bytes
  | 0, _ => []
  | n + 1, v => UInt8.ofNat v :: littleBytes n (v / 256)

@[simp] theorem length_littleBytes (n v : Nat) : (littleBytes n v).length = n := by
  induction n generalizing v with
  | zero => rfl
  | succ n ih => simp [littleBytes, ih]

theorem little_littleBytes {n v : Nat} (h : v < 256 ^ n) : little (littleBytes n v) = v := by
  induction n generalizing v with
  | zero =>
    simp only [littleBytes, little]
    omega
  | succ n ih =>
    have hq : v / 256 < 256 ^ n := by
      rw [Nat.pow_succ] at h
      omega
    simp only [littleBytes, little, ih hq, UInt8.toNat_ofNat']
    omega

theorem little_16 {v : Nat} (h : v < 2 ^ 16) : little (littleBytes 2 v) = v :=
  little_littleBytes (lt_of_lt_of_eq h (by norm_num))

theorem little_32 {v : Nat} (h : v < 2 ^ 32) : little (littleBytes 4 v) = v :=
  little_littleBytes (lt_of_lt_of_eq h (by norm_num))

theorem little_64 {v : Nat} (h : v < 2 ^ 64) : little (littleBytes 8 v) = v :=
  little_littleBytes (lt_of_lt_of_eq h (by norm_num))

theorem littleBytes_little (bs : Bytes) : littleBytes bs.length (little bs) = bs := by
  induction bs with
  | nil => rfl
  | cons b bs ih =>
    have hb := b.toNat_lt
    have hquot : (b.toNat + 256 * little bs) / 256 = little bs := by omega
    simp only [List.length_cons, little, littleBytes, hquot, ih]
    congr 1
    rw [← UInt8.toNat_inj, UInt8.toNat_ofNat']
    omega

theorem field_flatten (front : List Bytes) (b : Bytes) (back : List Bytes) {offset length : Nat}
    (hoffset : front.flatten.length = offset) (hlength : b.length = length) :
    field (front ++ b :: back).flatten offset length = b := by
  subst hoffset hlength
  simp [field]

theorem field_field (content : Bytes) (pos n off len : Nat) (h : off + len ≤ n) :
    field ((content.drop pos).take n) off len = field content (pos + off) len := by
  unfold field
  rw [List.drop_take, List.drop_drop, List.take_take, Nat.min_eq_left (by omega)]

/-! ## Facts about strings -/

theorem strchr_length {s r : Bytes} {c : UInt8} (h : strchr s c = some r) :
    0 < r.length ∧ r.length ≤ s.length := by
  induction s with
  | nil => cases h
  | cons x xs ih =>
    unfold strchr at h
    split at h
    · cases h
      simp
    · have := ih h
      simp only [List.length_cons]
      omega

theorem strchr_eq_none_iff {s : Bytes} {c : UInt8} : strchr s c = none ↔ c ∉ s := by
  induction s with
  | nil => simp [strchr]
  | cons x xs ih =>
    unfold strchr
    split
    · rename_i h
      simp [h]
    · rename_i h
      simp [ih, Ne.symm h]

/-- The prefix before the first `c` and the rest behind it. -/
theorem strchr_eq_some {s r : Bytes} {c : UInt8} (h : strchr s c = some r) :
    ∃ a b, s = a ++ c :: b ∧ r = c :: b ∧ c ∉ a := by
  induction s with
  | nil => cases h
  | cons x xs ih =>
    unfold strchr at h
    split at h
    · rename_i hx
      cases h
      exact ⟨[], xs, by simp [hx], by simp [hx], by simp⟩
    · rename_i hx
      obtain ⟨a, b, hs, hr, ha⟩ := ih h
      exact ⟨x :: a, b, by simp [hs], hr, by simp [Ne.symm hx, ha]⟩

theorem strchr_append {a b : Bytes} {c : UInt8} (h : c ∉ a) :
    strchr (a ++ c :: b) c = some (c :: b) := by
  induction a with
  | nil => simp [strchr]
  | cons x xs ih =>
    simp only [List.mem_cons, not_or] at h
    simp only [List.cons_append, strchr, Ne.symm h.1, if_false]
    exact ih h.2

theorem not_mem_cstr (buf : Bytes) : (0 : UInt8) ∉ cstr buf := by
  intro h
  simpa using List.mem_takeWhile_imp h

theorem cstr_append_zero {s rest : Bytes} (h : (0 : UInt8) ∉ s) : cstr (s ++ 0 :: rest) = s := by
  unfold cstr
  rw [List.takeWhile_append_of_pos]
  · simp
  · intro x hx
    have : x ≠ 0 := fun h0 => h (h0 ▸ hx)
    simpa using this

theorem cstr_of_not_mem {s : Bytes} (h : (0 : UInt8) ∉ s) : cstr s = s := by
  unfold cstr
  rw [List.takeWhile_eq_self_iff]
  intro x hx
  have : x ≠ 0 := fun h0 => h (h0 ▸ hx)
  simpa using this

end CLib
