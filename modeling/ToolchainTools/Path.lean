import ToolchainTools.Posix.Resolve

/-!
# Member paths (`tools/stream/path.c`)

`cleanPath` is the one place where the name of an archive member is judged. A path that
it returns is not empty, has neither a colon nor a backslash, does not start with a slash,
and has no component `..` (`cleanPath_eq_some_iff`).
-/

namespace ToolchainTools

open CLib Posix

def colon : UInt8 := 58

def backslash : UInt8 := 92

/-- The loop of `valid_path` over the components that start at `next`. -/
def validPathLoop (next : Bytes) : Bool :=
  if next = dotdot ∨ startsWith next (dotdot ++ [slash]) then false
  else
    match _h : strchr next slash with
    | none => true
    | some rest => validPathLoop rest.tail
termination_by next.length
decreasing_by
  have := strchr_length _h
  rw [List.length_tail]
  omega

def validPath (name : Bytes) : Bool :=
  if (strchr name colon).isSome ∨ name.head? = some slash ∨ (strchr name backslash).isSome then
    false
  else validPathLoop name

def cleanPath (name1 name2 : Bytes) : Option Bytes :=
  let ret := name1 ++ name2
  if ret = [] ∨ ¬ validPath ret then none else some ret

/-! ## What is accepted -/

/-- A string that starts with `../` has `..` as its first component, and conversely. -/
theorem head_components_eq_dotdot_iff (next : Bytes) :
    (components next).head? = some dotdot ↔
      next = dotdot ∨ startsWith next (dotdot ++ [slash]) := by
  cases h : strchr next slash with
  | none =>
    have hmem := strchr_eq_none_iff.mp h
    rw [components_of_not_mem hmem]
    simp only [List.head?_cons, Option.some.injEq]
    constructor
    · exact Or.inl
    · rintro (he | he)
      · exact he
      · obtain ⟨t, ht⟩ := List.isPrefixOf_iff_prefix.mp he
        exact absurd (ht ▸ by simp) hmem
  | some rest =>
    obtain ⟨a, b, rfl, rfl, ha⟩ := strchr_eq_some h
    rw [components_append, components_of_not_mem ha]
    simp only [List.cons_append, List.nil_append, List.head?_cons, Option.some.injEq]
    constructor
    · rintro rfl
      exact Or.inr (List.isPrefixOf_iff_prefix.mpr ⟨b, by simp⟩)
    · rintro (he | he)
      · have : slash ∈ dotdot := he ▸ by simp
        exact absurd this (by decide)
      · obtain ⟨t, ht⟩ := List.isPrefixOf_iff_prefix.mp he
        rw [List.append_assoc, List.singleton_append] at ht
        have h2 := strchr_append (b := t) (show slash ∉ dotdot by decide)
        rw [ht, strchr_append ha] at h2
        simp only [Option.some.injEq, List.cons.injEq, true_and] at h2
        rw [h2] at ht
        exact (List.append_cancel_right ht).symm

theorem validPathLoop_iff (next : Bytes) :
    validPathLoop next = true ↔ dotdot ∉ components next := by
  fun_induction validPathLoop next with
  | case1 next h =>
    have hhead := (head_components_eq_dotdot_iff next).mpr h
    simpa using List.mem_of_mem_head? hhead
  | case2 next hnot hnone =>
    rw [components_of_not_mem (strchr_eq_none_iff.mp hnone)]
    simpa using fun he => hnot (Or.inl he.symm)
  | case3 next hnot rest hrest ih =>
    obtain ⟨a, b, rfl, rfl, ha⟩ := strchr_eq_some hrest
    have hhead := mt (head_components_eq_dotdot_iff _).mp hnot
    rw [components_append, components_of_not_mem ha] at hhead ⊢
    simp only [List.cons_append, List.nil_append, List.head?_cons, Option.some.injEq] at hhead
    rw [ih, List.tail_cons]
    simp [Ne.symm hhead]

/-- The paths that `clean_path` hands out. -/
structure SafePath (p : Bytes) : Prop where
  nonempty : p ≠ []
  no_colon : colon ∉ p
  no_backslash : backslash ∉ p
  relative : p.head? ≠ some slash
  no_dotdot : dotdot ∉ components p

theorem cleanPath_eq_some_iff {name1 name2 p : Bytes} :
    cleanPath name1 name2 = some p ↔ p = name1 ++ name2 ∧ SafePath p := by
  unfold cleanPath
  dsimp only
  constructor
  · intro h
    split at h
    · cases h
    · rename_i hcond
      cases h
      simp only [not_or, Classical.not_not, validPath] at hcond
      obtain ⟨hne, hvalid⟩ := hcond
      split at hvalid
      · cases hvalid
      · rename_i hchars
        simp only [not_or, Option.not_isSome_iff_eq_none, strchr_eq_none_iff] at hchars
        exact ⟨rfl, hne, hchars.1, hchars.2.2, hchars.2.1, (validPathLoop_iff _).mp hvalid⟩
  · rintro ⟨rfl, h⟩
    have hvalid : validPath (name1 ++ name2) = true := by
      unfold validPath
      rw [if_neg, validPathLoop_iff]
      · exact h.no_dotdot
      · simp only [not_or, Option.not_isSome_iff_eq_none, strchr_eq_none_iff]
        exact ⟨h.no_colon, h.relative, h.no_backslash⟩
    rw [if_neg]
    simp [h.nonempty, hvalid]

/-- **Clean paths.** The two names are joined exactly when the result is a safe path, and the
way to `dir/result` does not leave `dir` on any of its prefixes. -/
theorem clean_path_exact (name1 name2 : Bytes) :
    (SafePath (name1 ++ name2) → cleanPath name1 name2 = some (name1 ++ name2)) ∧
      (¬ SafePath (name1 ++ name2) → cleanPath name1 name2 = none) ∧
      ∀ p, cleanPath name1 name2 = some p → ∀ (start : Loc) (dir : Bytes) (cs : List Name),
        components dir <+: cs → cs <+: components (dir ++ slash :: p) →
        lexical start (components dir) <+: lexical start cs := by
  refine ⟨fun hsafe => cleanPath_eq_some_iff.mpr ⟨rfl, hsafe⟩, fun hunsafe => ?_, ?_⟩
  · rw [Option.eq_none_iff_forall_not_mem]
    intro p hp
    obtain ⟨rfl, hsafe⟩ := cleanPath_eq_some_iff.mp hp
    exact hunsafe hsafe
  · rintro p hp start dir cs ⟨more, rfl⟩ hcut
    obtain ⟨-, hsafe⟩ := cleanPath_eq_some_iff.mp hp
    rw [components_append, List.prefix_append_right_inj] at hcut
    rw [lexical_append]
    exact lexical_below List.prefix_rfl fun hmem => hsafe.no_dotdot (hcut.subset hmem)

end ToolchainTools
