import Mathlib

/-!
# Substrings

`strstr` over any kind of character, and what it means to replace all occurrences of a
string: the leftmost one is replaced, and the search goes on behind it in the text that was
there before. `Replaced` says this of a text and a result, and a text has exactly one result
(`Replaced.unique`).
-/

namespace CLib

variable {α : Type} [DecidableEq α]

/-- The position of the first occurrence of `test` in `s`. -/
def strstr (test : List α) : List α → Option Nat
  | [] => if test.isPrefixOf [] then some 0 else none
  | c :: cs =>
    if test.isPrefixOf (c :: cs) then some 0 else (strstr test cs).map (· + 1)

/-- `test` occurs in `s` behind `front`, and nowhere before. -/
structure FirstAt (test s front back : List α) : Prop where
  split : s = front ++ test ++ back
  first : ∀ front' back', s = front' ++ test ++ back' → front.length ≤ front'.length

/-- All occurrences of `test` in the first text are replaced in the second one. -/
inductive Replaced (test replacement : List α) : List α → List α → Prop
  | none {s : List α} : ¬ test <:+: s → Replaced test replacement s s
  | first {s front back result : List α} : FirstAt test s front back →
      Replaced test replacement back result →
      Replaced test replacement s (front ++ replacement ++ result)

/-- The number of occurrences that are replaced. -/
def occurrences (test : List α) (s : List α) : Nat :=
  match _h : strstr test s with
  | none => 0
  | some n =>
    if test = [] ∨ s = [] then 0 else occurrences test (s.drop (n + test.length)) + 1
termination_by s.length
decreasing_by
  rename_i hne
  rw [not_or] at hne
  have h1 := List.length_pos_iff.mpr hne.1
  have h2 := List.length_pos_iff.mpr hne.2
  rw [List.length_drop]
  omega

/-! ## The first occurrence -/

theorem strstr_eq_none_iff {test s : List α} : strstr test s = none ↔ ¬ test <:+: s := by
  induction s with
  | nil =>
    unfold strstr
    rw [List.infix_nil]
    cases test <;> simp
  | cons c cs ih =>
    unfold strstr
    rw [List.infix_cons_iff, not_or, ← ih, ← List.isPrefixOf_iff_prefix]
    split <;> simp_all

theorem firstAt_of_strstr {test s : List α} {n : Nat} (h : strstr test s = some n) :
    FirstAt test s (s.take n) (s.drop (n + test.length)) := by
  induction s generalizing n with
  | nil =>
    unfold strstr at h
    split at h
    · rename_i hpre
      cases h
      rw [List.isPrefixOf_iff_prefix, List.prefix_nil] at hpre
      exact ⟨by simp [hpre], fun _ _ _ => Nat.zero_le _⟩
    · cases h
  | cons c cs ih =>
    unfold strstr at h
    split at h
    · rename_i hpre
      cases h
      obtain ⟨back, hback⟩ := List.isPrefixOf_iff_prefix.mp hpre
      refine ⟨?_, fun _ _ _ => Nat.zero_le _⟩
      rw [← hback, Nat.zero_add, List.drop_left]
      simp
    · rename_i hpre
      obtain ⟨m, hm, rfl⟩ := Option.map_eq_some_iff.mp h
      obtain ⟨hsplit, hfirst⟩ := ih hm
      refine ⟨?_, fun front' back' heq => ?_⟩
      · rw [List.take_succ_cons, Nat.add_right_comm, List.drop_succ_cons, List.cons_append,
          List.cons_append, ← hsplit]
      · -- an occurrence that is no prefix lies in the tail
        cases front' with
        | nil =>
          refine absurd (List.isPrefixOf_iff_prefix.mpr ⟨back', ?_⟩) hpre
          rw [heq, List.nil_append]
        | cons d front' =>
          simp only [List.cons_append, List.cons.injEq] at heq
          have hle := hfirst front' back' heq.2
          rw [List.take_succ_cons, List.length_cons, List.length_cons]
          omega

omit [DecidableEq α] in
/-- The first occurrence is at one place only. -/
theorem FirstAt.unique {test s front back front' back' : List α} (h : FirstAt test s front back)
    (h' : FirstAt test s front' back') : front = front' ∧ back = back' := by
  have hlen : front.length = front'.length :=
    le_antisymm (h.first _ _ h'.split) (h'.first _ _ h.split)
  have heq := h.split.symm.trans h'.split
  rw [List.append_assoc, List.append_assoc] at heq
  obtain ⟨hfront, hback⟩ := List.append_inj heq hlen
  exact ⟨hfront, List.append_cancel_left hback⟩

omit [DecidableEq α] in
theorem FirstAt.infix {test s front back : List α} (h : FirstAt test s front back) :
    test <:+: s := ⟨front, back, h.split.symm⟩

/-! ## Replacement -/

omit [DecidableEq α] in
theorem Replaced.unique {test replacement s r r' : List α} (h : Replaced test replacement s r)
    (h' : Replaced test replacement s r') : r = r' := by
  induction h generalizing r' with
  | none hno =>
    cases h' with
    | none => rfl
    | first hfirst => exact absurd hfirst.infix hno
  | first hfirst _ ih =>
    cases h' with
    | none hno => exact absurd hfirst.infix hno
    | first hfirst' hrest =>
      obtain ⟨rfl, rfl⟩ := hfirst.unique hfirst'
      rw [ih hrest]

omit [DecidableEq α] in
/-- Behind the first occurrence there is less text than before. -/
theorem FirstAt.shorter {test s front back : List α} (h : FirstAt test s front back)
    (hne : test ≠ []) : back.length < s.length := by
  have hlen := congrArg List.length h.split
  have hpos := List.length_pos_iff.mpr hne
  simp only [List.length_append] at hlen
  omega

theorem occurrences_none {test s : List α} (h : ¬ test <:+: s) : occurrences test s = 0 := by
  rw [occurrences]
  split
  · rfl
  · rename_i n hn
    rw [strstr_eq_none_iff.mpr h] at hn
    cases hn

theorem occurrences_first {test s front back : List α} (hne : test ≠ [])
    (h : FirstAt test s front back) : occurrences test s = occurrences test back + 1 := by
  rw [occurrences]
  split
  · rename_i hnone
    exact absurd h.infix (strstr_eq_none_iff.mp hnone)
  · rename_i n hn
    obtain ⟨-, rfl⟩ := h.unique (firstAt_of_strstr hn)
    have hs : s ≠ [] := by
      rintro rfl
      have := h.shorter hne
      simp at this
    rw [if_neg (by simp [hne, hs])]

/-- The length of the result, without subtraction. -/
theorem Replaced.length {test replacement s r : List α} (hne : test ≠ [])
    (h : Replaced test replacement s r) :
    r.length + occurrences test s * test.length =
      s.length + occurrences test s * replacement.length := by
  induction h with
  | none hno => rw [occurrences_none hno, Nat.zero_mul, Nat.zero_mul]
  | first hfirst _ ih =>
    rw [occurrences_first hne hfirst, Nat.add_mul, Nat.add_mul]
    have hlen := congrArg List.length hfirst.split
    simp only [List.length_append] at hlen ⊢
    omega

end CLib
