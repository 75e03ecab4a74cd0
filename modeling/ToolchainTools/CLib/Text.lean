import ToolchainTools.CLib.File

/-!
# Lines and tokens

`fgets` gives a line with its newline, or as much of it as the buffer holds; `strtok` skips
delimiters, gives the bytes up to the next one and remembers what is behind it. A file
that is written line by line is read back line by line as long as every line fits the
buffer (`fileLines_flatten`).
-/

namespace CLib

/-- The newline character. -/
def eol : UInt8 := 10

def comma : UInt8 := 44

/-- `fgets` with room for `n` bytes besides the NUL: the bytes it stores and those behind. -/
def takeLine : Nat → Bytes → Bytes × Bytes
  | 0, rest => ([], rest)
  | _ + 1, [] => ([], [])
  | n + 1, b :: bs =>
    if b = eol then ([b], bs)
    else
      let r := takeLine n bs
      (b :: r.1, r.2)

theorem takeLine_length (n : Nat) (bytes : Bytes) :
    (takeLine n bytes).2.length ≤ bytes.length := by
  fun_induction takeLine n bytes with
  | case1 => exact le_rfl
  | case2 => exact le_rfl
  | case3 => simp
  | case4 n b bs _ r ih =>
    exact Nat.le_succ_of_le ih

theorem takeLine_length_lt {n : Nat} {bytes : Bytes} (hne : bytes ≠ []) :
    (takeLine (n + 1) bytes).2.length < bytes.length := by
  obtain ⟨b, bs, rfl⟩ := List.exists_cons_of_ne_nil hne
  unfold takeLine
  split
  · simp
  · have := takeLine_length n bs
    simp only [List.length_cons]
    omega

/-- What `while (fgets(line, size, f))` sees of a file, one entry a round. -/
def fileLines (size : Nat) (bytes : Bytes) : List Bytes :=
  if h : bytes = [] then []
  else
    let r := takeLine (size - 2 + 1) bytes
    r.1 :: fileLines size r.2
termination_by bytes.length
decreasing_by exact takeLine_length_lt h

/-- `strtok`, with the bytes that the next call goes on with. -/
def strtok (delim : UInt8) (s : Bytes) : Option (Bytes × Bytes) :=
  let s := s.dropWhile (· = delim)
  if s = [] then none
  else some (s.takeWhile (· ≠ delim), (s.dropWhile (· ≠ delim)).tail)

/-! ## Reading back what was written -/

/-- A line that a buffer of `size` bytes holds. -/
structure IsLine (size : Nat) (line : Bytes) : Prop where
  ends : ∃ body, eol ∉ body ∧ line = body ++ [eol]
  fits : line.length < size

theorem takeLine_line {n : Nat} {body rest : Bytes} (hnl : eol ∉ body)
    (hfits : body.length < n) :
    takeLine n (body ++ eol :: rest) = (body ++ [eol], rest) := by
  induction body generalizing n with
  | nil =>
    obtain ⟨n, rfl⟩ := Nat.exists_eq_add_of_lt hfits
    simp [takeLine]
  | cons b bs ih =>
    obtain ⟨n, rfl⟩ := Nat.exists_eq_add_of_lt hfits
    simp only [List.mem_cons, not_or] at hnl
    have hrec := ih (n := bs.length + 1 + n) hnl.2 (by omega)
    have hn : (b :: bs).length + n + 1 = (bs.length + 1 + n) + 1 := by simp
    rw [hn, List.cons_append, takeLine, if_neg (Ne.symm hnl.1), hrec]
    rfl

theorem fileLines_nil (size : Nat) : fileLines size [] = [] := by
  rw [fileLines, dif_pos rfl]

theorem fileLines_cons {size : Nat} {line rest : Bytes} (h : IsLine size line) :
    fileLines size (line ++ rest) = line :: fileLines size rest := by
  obtain ⟨⟨body, hnl, rfl⟩, hfits⟩ := h
  rw [List.length_append, List.length_singleton] at hfits
  have htake : takeLine (size - 2 + 1) (body ++ [eol] ++ rest) = (body ++ [eol], rest) := by
    rw [List.append_assoc, List.singleton_append]
    exact takeLine_line hnl (by omega)
  rw [fileLines, dif_neg (by simp), htake]

/-- Lines that fit are read back one by one. -/
theorem fileLines_flatten {size : Nat} {lines : List Bytes} (h : ∀ l ∈ lines, IsLine size l) :
    fileLines size lines.flatten = lines := by
  induction lines with
  | nil => exact fileLines_nil size
  | cons line lines ih =>
    rw [List.flatten_cons, fileLines_cons (h line List.mem_cons_self),
      ih fun l hl => h l (List.mem_cons_of_mem _ hl)]

section Cut

variable {α : Type} [DecidableEq α] {c : α} {a : List α}

theorem takeWhile_ne_append (ha : c ∉ a) (rest : List α) :
    (a ++ c :: rest).takeWhile (· ≠ c) = a := by
  rw [List.takeWhile_append_of_pos]
  · simp
  · intro x hx
    have : x ≠ c := fun h => ha (h ▸ hx)
    simpa using this

theorem takeWhile_ne_self (ha : c ∉ a) : a.takeWhile (· ≠ c) = a := by
  rw [List.takeWhile_eq_self_iff]
  intro x hx
  have : x ≠ c := fun h => ha (h ▸ hx)
  simpa using this

theorem dropWhile_ne_append (ha : c ∉ a) (rest : List α) :
    (a ++ c :: rest).dropWhile (· ≠ c) = c :: rest := by
  rw [List.dropWhile_append_of_pos]
  · simp
  · intro x hx
    have : x ≠ c := fun h => ha (h ▸ hx)
    simpa using this

theorem dropWhile_ne_self (ha : c ∉ a) : a.dropWhile (· ≠ c) = [] := by
  rw [List.dropWhile_eq_nil_iff]
  intro x hx
  have : x ≠ c := fun h => ha (h ▸ hx)
  simpa using this

end Cut

theorem dropWhile_eq_of_head {c : UInt8} {a : Bytes} (hne : a ≠ []) (ha : c ∉ a) (rest : Bytes) :
    (a ++ rest).dropWhile (· = c) = a ++ rest := by
  obtain ⟨b, bs, rfl⟩ := List.exists_cons_of_ne_nil hne
  simp only [List.mem_cons, not_or] at ha
  rw [List.cons_append, List.dropWhile_cons, if_neg]
  simpa using Ne.symm ha.1

/-- The first token, up to a delimiter. -/
theorem strtok_append {delim : UInt8} {a : Bytes} (hne : a ≠ []) (ha : delim ∉ a) (rest : Bytes) :
    strtok delim (a ++ delim :: rest) = some (a, rest) := by
  unfold strtok
  dsimp only
  rw [dropWhile_eq_of_head hne ha, if_neg (by simp), takeWhile_ne_append ha,
    dropWhile_ne_append ha]
  rfl

/-- The last token, up to the end. -/
theorem strtok_last {delim : UInt8} {a : Bytes} (hne : a ≠ []) (ha : delim ∉ a) :
    strtok delim a = some (a, []) := by
  have hdrop : a.dropWhile (· = delim) = a := by
    have := dropWhile_eq_of_head hne ha []
    rwa [List.append_nil] at this
  unfold strtok
  dsimp only
  rw [hdrop, if_neg hne, takeWhile_ne_self ha, dropWhile_ne_self ha]
  rfl

/-! ## Which tokens there are -/

theorem strtok_eq_none_iff {delim : UInt8} {s : Bytes} :
    strtok delim s = none ↔ ∀ x ∈ s, x = delim := by
  unfold strtok
  dsimp only
  rw [ite_eq_left_iff]
  simp only [reduceCtorEq, imp_false, Classical.not_not]
  rw [List.dropWhile_eq_nil_iff]
  simp

/-- A token is what stands between delimiters, or behind the last one. -/
theorem strtok_eq_some {delim : UInt8} {s a rest : Bytes} (h : strtok delim s = some (a, rest)) :
    ∃ front, (∀ x ∈ front, x = delim) ∧ a ≠ [] ∧ delim ∉ a ∧
      ((s = front ++ a ∧ rest = []) ∨ s = front ++ a ++ delim :: rest) := by
  unfold strtok at h
  dsimp only at h
  split at h
  · cases h
  · rename_i hne
    cases h
    have hcut := List.takeWhile_append_dropWhile (p := (· = delim)) (l := s)
    have hhead := List.head?_dropWhile_not (· = delim) s
    cases hrest : s.dropWhile (· = delim) with
    | nil => exact absurd hrest hne
    | cons y ys =>
      rw [hrest] at hcut hhead
      have hy : y ≠ delim := by simpa using hhead
      refine ⟨s.takeWhile (· = delim), fun x hx => by simpa using List.mem_takeWhile_imp hx, ?_,
        fun hmem => by simpa using List.mem_takeWhile_imp hmem, ?_⟩
      · rw [List.takeWhile_cons, if_pos (by simpa using hy)]
        exact List.cons_ne_nil _ _
      · have hsplit := List.takeWhile_append_dropWhile (p := (· ≠ delim)) (l := y :: ys)
        have hstop := List.head?_dropWhile_not (· ≠ delim) (y :: ys)
        cases htail : (y :: ys).dropWhile (· ≠ delim) with
        | nil =>
          rw [htail, List.append_nil] at hsplit
          rw [hsplit]
          exact Or.inl ⟨hcut.symm, rfl⟩
        | cons z zs =>
          rw [htail] at hsplit hstop
          have hz : z = delim := by simpa using hstop
          subst hz
          rw [List.append_assoc, List.tail_cons, hsplit]
          exact Or.inr hcut.symm

end CLib
