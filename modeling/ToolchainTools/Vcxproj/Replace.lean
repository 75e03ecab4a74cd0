import ToolchainTools.CLib.Search
import ToolchainTools.CLib.Strings
import ToolchainTools.Vcxproj.Generate

/-!
# Replacing placeholders (`dup_with_replacement` in `tools/generate-vcxproj/generate.c`)

The function makes two passes over the string: the first adds up the size of the result in a
`size_t`, the second writes the result into memory of that size. Both passes meet the same
occurrences, so the text is the one with all occurrences replaced, and it fills the
memory exactly as long as its length with the terminator is a `size_t`.
-/

namespace ToolchainTools.Vcxproj

open CLib Xml

variable {α : Type} [DecidableEq α]

/-! ## The code -/

/-- The first pass from `prev` on; `none` when it takes more rounds than given. -/
def replacedSize (test replacement : List α) : Nat → List α → Nat → Option Nat
  | 0, _, _ => none
  | rounds + 1, prev, sz =>
    match strstr test prev with
    | some n =>
      replacedSize test replacement rounds (prev.drop (n + test.length))
        (add64 (add64 sz n) replacement.length)
    | none => some (add64 sz prev.length)

/-- The second pass from `prev` on, behind what it has written before. -/
def replacedText (test replacement : List α) : Nat → List α → List α → Option (List α)
  | 0, _, _ => none
  | rounds + 1, prev, written =>
    match strstr test prev with
    | some n =>
      replacedText test replacement rounds (prev.drop (n + test.length))
        (written ++ prev.take n ++ replacement)
    | none => some (written ++ prev)

/-- The argument of `malloc`, and the string in that memory. -/
structure Duplicate (α : Type) where
  allocated : Nat
  text : List α
  deriving DecidableEq

/-- The characters that the second pass writes, with the terminator. -/
def Duplicate.written (d : Duplicate α) : Nat := d.text.length + 1

/-- `dup_with_replacement`, each of its loops with no more than `rounds` rounds. -/
def duplicate (rounds : Nat) (src test replacement : List α) : Option (Duplicate α) :=
  (replacedSize test replacement rounds src 0).bind fun sz =>
    (replacedText test replacement rounds src []).map fun text => ⟨add64 sz 1, text⟩

/-! ## Both passes meet the same occurrences -/

variable {test : List α}

/-- The two passes from the same place: the text replaced, and its length in a `size_t`. -/
theorem passes_spec (hne : test ≠ []) (replacement : List α) {rounds : Nat} {prev : List α}
    (hrounds : prev.length < rounds) :
    ∃ r, Replaced test replacement prev r ∧
      (∀ sz, replacedSize test replacement rounds prev sz = some ((sz + r.length) % 2 ^ 64)) ∧
      ∀ written, replacedText test replacement rounds prev written = some (written ++ r) := by
  induction rounds generalizing prev with
  | zero => omega
  | succ rounds ih =>
    cases hfind : strstr test prev with
    | none =>
      refine ⟨prev, .none (strstr_eq_none_iff.mp hfind), fun sz => ?_, fun written => ?_⟩
      · rw [replacedSize, hfind]
        rfl
      · rw [replacedText, hfind]
    | some n =>
      have hfirst := firstAt_of_strstr hfind
      have hshort := hfirst.shorter hne
      obtain ⟨r, hr, hsize, htext⟩ := ih (show (prev.drop (n + test.length)).length < rounds by omega)
      refine ⟨prev.take n ++ replacement ++ r, .first hfirst hr, fun sz => ?_, fun written => ?_⟩
      · have hn : (prev.take n).length = n := by
          have hlen := congrArg List.length hfirst.split
          simp only [List.length_append, List.length_take, List.length_drop] at hlen ⊢
          have hpos := List.length_pos_iff.mpr hne
          omega
        rw [replacedSize, hfind]
        dsimp only
        rw [hsize, List.length_append, List.length_append, hn]
        simp only [add64, Option.some.injEq]
        omega
      · rw [replacedText, hfind]
        dsimp only
        rw [htext]
        simp only [List.append_assoc]

theorem duplicate_spec (hne : test ≠ []) (src replacement : List α) :
    ∃ r, Replaced test replacement src r ∧
      ∀ rounds, src.length < rounds →
        duplicate rounds src test replacement = some ⟨add64 (r.length % 2 ^ 64) 1, r⟩ := by
  obtain ⟨r, hr, -, -⟩ := passes_spec hne replacement (Nat.lt_succ_self src.length)
  refine ⟨r, hr, fun rounds hrounds => ?_⟩
  obtain ⟨r', hr', hsize, htext⟩ := passes_spec hne replacement hrounds
  obtain rfl := hr.unique hr'
  rw [duplicate, hsize, htext, Option.bind_some, Option.map_some, Nat.zero_add, List.nil_append]

/-- The result of the model of the printing functions is the result of the two passes. -/
theorem dupWithReplacement_replaced {test : Text} (hne : test ≠ []) (src replacement : Text) :
    Replaced test replacement src (dupWithReplacement src test replacement) := by
  obtain ⟨a, as, rfl⟩ := List.exists_cons_of_ne_nil hne
  fun_induction dupWithReplacement src (a :: as) replacement with
  | case1 => exact .none (by simp)
  | case2 c cs hpre ih =>
    obtain ⟨back, hback⟩ := List.isPrefixOf_iff_prefix.mp hpre
    have hdrop : cs.drop ((a :: as).length - 1) = back := by
      simp only [List.cons_append, List.cons.injEq] at hback
      rw [← hback.2, List.length_cons, Nat.add_sub_cancel, List.drop_left]
    rw [hdrop] at ih ⊢
    have hfirst : FirstAt (a :: as) (c :: cs) [] back :=
      ⟨hback.symm, fun _ _ _ => Nat.zero_le _⟩
    exact .first hfirst ih
  | case3 c cs hpre ih =>
    rw [List.isPrefixOf_iff_prefix] at hpre
    generalize dupWithReplacement cs (a :: as) replacement = r at ih ⊢
    -- what is found in the tail is found in the whole string one place later
    cases ih with
    | none hno => exact .none (by rw [List.infix_cons_iff, not_or]; exact ⟨hpre, hno⟩)
    | @first _ front back result hfirst hrest =>
      have hlater : FirstAt (a :: as) (c :: cs) (c :: front) back := by
        refine ⟨?_, fun front' back' heq => ?_⟩
        · rw [hfirst.split, List.cons_append, List.cons_append]
        · cases front' with
          | nil => exact absurd ⟨back', heq.symm⟩ hpre
          | cons d front' =>
            simp only [List.cons_append, List.cons.injEq] at heq
            have hle := hfirst.first front' back' heq.2
            rw [List.length_cons, List.length_cons]
            omega
      exact .first hlater hrest

/-- The text that the two passes leave in memory is the one that the files are written with. -/
theorem duplicate_text {test : Text} (hne : test ≠ []) (replacement : Text) {rounds : Nat}
    {src : Text} (hrounds : src.length < rounds) :
    (duplicate rounds src test replacement).map Duplicate.text =
      some (dupWithReplacement src test replacement) := by
  obtain ⟨r, hr, hrun⟩ := duplicate_spec hne src replacement
  rw [hrun rounds hrounds, Option.map_some,
    hr.unique (dupWithReplacement_replaced hne src replacement)]

/-- **Replace all.** The text is the source with all occurrences replaced, and it fills the memory
that the first pass asks for exactly if its length with the terminator is a `size_t`. -/
theorem dup_with_replacement_iff {test : List α} (hne : test ≠ []) (src replacement : List α) :
    ∃ d, (∀ rounds, src.length < rounds → duplicate rounds src test replacement = some d) ∧
      Replaced test replacement src d.text ∧
      (Replaced test replacement src d.text ∧ d.written = d.allocated ↔
        src.length + occurrences test src * replacement.length + 1 <
          2 ^ 64 + occurrences test src * test.length) := by
  obtain ⟨r, hr, hrun⟩ := duplicate_spec hne src replacement
  refine ⟨_, hrun, hr, ?_⟩
  have hlen := hr.length hne
  rw [and_iff_right hr]
  simp only [Duplicate.written, add64]
  omega

/-- Two placeholders of a target. -/
theorem dup_with_replacement_two :
    ∃ d, duplicate 20 (str "a-[T]-[T]") (str "[T]") (str "x[T]") = some d ∧
      d.text = str "a-x[T]-x[T]" ∧ d.written = d.allocated := by
  have hne : str "[T]" ≠ [] := by decide
  have htwo : duplicate 20 (str "a-[T]-[T]") (str "[T]") (str "x[T]") =
      some ⟨12, str "a-x[T]-x[T]"⟩ := by decide
  obtain ⟨d, hrun, -, hiff⟩ := dup_with_replacement_iff hne (str "a-[T]-[T]") (str "x[T]")
  have hd := hrun 20 (by decide)
  refine ⟨d, hd, ?_, (hiff.mpr ?_).2⟩
  · rw [hd, Option.some.injEq] at htwo
    rw [htwo]
  · decide +kernel

/-! ## A size that does not fit -/

omit [DecidableEq α] in
theorem replaced_replicate (a b : α) (n m : Nat) :
    Replaced [a] (List.replicate m b) (List.replicate n a) (List.replicate (n * m) b) := by
  induction n with
  | zero => simpa using Replaced.none (by simp)
  | succ n ih =>
    have hfirst : FirstAt [a] (List.replicate (n + 1) a) [] (List.replicate n a) :=
      ⟨rfl, fun _ _ _ => Nat.zero_le _⟩
    have hsplit : List.replicate ((n + 1) * m) b =
        [] ++ List.replicate m b ++ List.replicate (n * m) b := by
      rw [List.nil_append, ← List.replicate_add, Nat.add_mul, Nat.one_mul, Nat.add_comm]
    rw [hsplit]
    exact .first hfirst ih

/-- Each of `n` characters is replaced by `n` characters. -/
theorem duplicate_replicate (n : Nat) :
    ∃ d : Duplicate Char, (∀ rounds, n < rounds →
        duplicate rounds (List.replicate n 'a') ['a'] (List.replicate n 'b') = some d) ∧
      d.written = n * n + 1 ∧ d.allocated = add64 (n * n % 2 ^ 64) 1 := by
  obtain ⟨r, hr, hrun⟩ := duplicate_spec (List.cons_ne_nil 'a' []) (List.replicate n 'a')
    (List.replicate n 'b')
  obtain rfl := hr.unique (replaced_replicate 'a' 'b' n n)
  rw [List.length_replicate] at hrun
  refine ⟨_, hrun, ?_, ?_⟩
  · rw [Duplicate.written, List.length_replicate]
  · rw [List.length_replicate]

/-- Strings of `2 ^ 32` characters: one byte is allocated, and `2 ^ 64 + 1` are written. -/
theorem large_replacement_overflows :
    ∃ d, (∀ rounds, 2 ^ 32 < rounds →
        duplicate rounds (List.replicate (2 ^ 32) 'a') ['a'] (List.replicate (2 ^ 32) 'b') =
          some d) ∧
      d.written = 2 ^ 64 + 1 ∧ d.allocated = 1 := by
  obtain ⟨d, hrun, hwritten, hallocated⟩ := duplicate_replicate (2 ^ 32)
  refine ⟨d, hrun, ?_, ?_⟩
  · rw [hwritten]
    norm_num
  · rw [hallocated]
    norm_num [add64]

end ToolchainTools.Vcxproj
