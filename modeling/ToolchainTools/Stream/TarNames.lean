import ToolchainTools.Stream.Tar

/-!
# How a member's path is stored

An archiver stores a path whole in the name field, or cut at one of its slashes into the
prefix and the name field of a ustar header. `clean_tar_name` joins the two fields without
the slash between them, so that it gives back the path only if the prefix is the top
directory alone.
-/

namespace ToolchainTools

open CLib Posix

/-- The path is stored in the name field, which it may fill. -/
structure StoredWhole (t path : Bytes) : Prop where
  name_eq : cstr (tarName t) = path
  unused : ¬ (tarMagic t = ustarMagic ∧ (tarPrefix t).headD 0 ≠ 0)

/-- The path `x/y` is stored as the prefix `x` and the name `y` of a ustar header. -/
structure StoredSplit (t x y : Bytes) : Prop where
  magic : tarMagic t = ustarMagic
  nonempty : x ≠ []
  prefix_eq : cstr (tarPrefix t) = x
  name_eq : cstr (tarName t) = y

theorem cleanTarName_whole {t path : Bytes} (h : StoredWhole t path) :
    cleanTarName t = cleanPath [] (stripTopDir path) := by
  unfold cleanTarName
  dsimp only
  rw [if_neg h.unused, h.name_eq]

theorem cleanTarName_split {t x y : Bytes} (h : StoredSplit t x y) :
    cleanTarName t = cleanPath (stripTopDir x) y := by
  have hused : (tarPrefix t).headD 0 ≠ 0 := by
    intro hzero
    apply h.nonempty
    rw [← h.prefix_eq]
    cases hp : tarPrefix t with
    | nil => rfl
    | cons b bs =>
      rw [hp, List.headD_cons] at hzero
      rw [hzero]
      rfl
  unfold cleanTarName
  dsimp only
  rw [if_pos ⟨h.magic, hused⟩, h.prefix_eq, h.name_eq]

/-- The top directory of `x/y` is `x` itself or that of `x`. -/
theorem stripTopDir_append (x y : Bytes) :
    stripTopDir (x ++ slash :: y) = if slash ∈ x then stripTopDir x ++ slash :: y else y := by
  split
  · rename_i hmem
    obtain ⟨r, hr⟩ : ∃ r, strchr x slash = some r := by
      rw [← Option.ne_none_iff_exists', ne_eq, strchr_eq_none_iff, Classical.not_not]
      exact hmem
    obtain ⟨a, b, rfl, -, ha⟩ := strchr_eq_some hr
    unfold stripTopDir
    rw [List.append_assoc, List.cons_append, strchr_append ha, strchr_append ha]
    rfl
  · rename_i hmem
    unfold stripTopDir
    rw [strchr_append hmem]
    rfl

theorem cleanPath_eq_none_iff {name1 name2 : Bytes} :
    cleanPath name1 name2 = none ↔ ¬ SafePath (name1 ++ name2) := by
  rw [Option.eq_none_iff_forall_not_mem]
  constructor
  · intro h hsafe
    exact h _ (cleanPath_eq_some_iff.mpr ⟨rfl, hsafe⟩)
  · intro h p hp
    obtain ⟨rfl, hsafe⟩ := cleanPath_eq_some_iff.mp hp
    exact h hsafe

/-- **Storage of member paths.** Stored whole, a path is given back without its first
component. Stored as prefix `x` and name `y` it is, too, exactly if `x` is the top
directory alone, or if neither `x/y` nor what the two fields join to is acceptable. -/
theorem tar_name_split_iff (x y : Bytes) :
    (∀ t, StoredWhole t (x ++ slash :: y) →
      cleanTarName t = cleanPath [] (stripTopDir (x ++ slash :: y))) ∧
    ∀ t, StoredSplit t x y →
      (cleanTarName t = cleanPath [] (stripTopDir (x ++ slash :: y)) ↔
        slash ∉ x ∨
          (¬ SafePath (stripTopDir x ++ y) ∧ ¬ SafePath (stripTopDir x ++ slash :: y))) := by
  refine ⟨fun t ht => cleanTarName_whole ht, fun t ht => ?_⟩
  rw [cleanTarName_split ht, stripTopDir_append]
  by_cases hmem : slash ∈ x
  · rw [if_pos hmem]
    constructor
    · intro heq
      refine Or.inr ?_
      rcases hclean : cleanPath (stripTopDir x) y with _ | p
      · rw [hclean] at heq
        exact ⟨cleanPath_eq_none_iff.mp hclean, cleanPath_eq_none_iff.mp heq.symm⟩
      · -- two joins of different lengths cannot be the same path
        exfalso
        rw [hclean] at heq
        have hshort := (cleanPath_eq_some_iff.mp hclean).1
        have hlong := (cleanPath_eq_some_iff.mp heq.symm).1
        have hlen := congrArg List.length (hshort.symm.trans hlong)
        simp at hlen
    · rintro (habs | ⟨hshort, hlong⟩)
      · exact absurd hmem habs
      · rw [cleanPath_eq_none_iff.mpr hshort]
        exact (cleanPath_eq_none_iff.mpr hlong).symm
  · rw [if_neg hmem]
    refine iff_of_true ?_ (Or.inl hmem)
    have htop : stripTopDir x = [] := by
      unfold stripTopDir
      rw [strchr_eq_none_iff.mpr hmem]
    rw [htop]

/-- A ustar header with nothing but a prefix and a name. -/
def splitHeader (x y : Bytes) : Bytes :=
  y ++ List.replicate (257 - y.length) 0 ++ ustarMagic ++ List.replicate 82 0 ++
    (x ++ List.replicate (167 - x.length) 0)

theorem tar_name_split_top :
    StoredSplit (splitHeader (lit "top") (lit "dir/file")) (lit "top") (lit "dir/file") ∧
      slash ∉ lit "top" ∧
      cleanTarName (splitHeader (lit "top") (lit "dir/file")) =
        cleanPath [] (stripTopDir (lit "top" ++ slash :: lit "dir/file")) := by
  have hstored : StoredSplit (splitHeader (lit "top") (lit "dir/file")) (lit "top")
      (lit "dir/file") :=
    ⟨by decide, by decide, by decide, by decide⟩
  have htop : slash ∉ lit "top" := by decide
  exact ⟨hstored, htop, ((tar_name_split_iff _ _).2 _ hstored).mpr (Or.inl htop)⟩

/-- The same path cut at its second slash: the slash is lost. -/
theorem split_loses_slash :
    StoredSplit (splitHeader (lit "top/dir") (lit "file")) (lit "top/dir") (lit "file") ∧
      cleanTarName (splitHeader (lit "top/dir") (lit "file")) = some (lit "dirfile") ∧
      cleanPath [] (stripTopDir (lit "top/dir" ++ slash :: lit "file")) =
        some (lit "dir/file") :=
  ⟨⟨by decide, by decide, by decide, by decide⟩,
    by decide +kernel, by decide +kernel⟩

end ToolchainTools
