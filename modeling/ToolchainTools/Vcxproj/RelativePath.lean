import ToolchainTools.CLib.Text
import ToolchainTools.Vcxproj.Generate

/-!
# Relative paths (`print_relative_path` in `tools/generate-vcxproj/generate.c`)

The directories that both paths start with are dropped as text, with three ways for a component
to match or to fail. For a project file in ordinary directories this finds the longest common
prefix (`commonDirs_eq`), so that what is printed leads to the directory and no path does so
with fewer components: one component takes a place at most one step nearer to another
(`steps_le_length`).
-/

namespace ToolchainTools.Vcxproj

open CLib Xml

/-! ## The distance of two places in a tree -/

section Distance

variable {α : Type} [DecidableEq α]

/-- The length of the longest common prefix. -/
def common : List α → List α → Nat
  | a :: as, b :: bs => if a = b then common as bs + 1 else 0
  | _, _ => 0

/-- The steps up from one place and down to the other. -/
def steps (a b : List α) : Nat := (a.length - common a b) + (b.length - common a b)

theorem common_le (a b : List α) : common a b ≤ a.length ∧ common a b ≤ b.length := by
  fun_induction common a b with
  | case1 as b bs ih => simpa using ih
  | case2 | case3 => exact ⟨Nat.zero_le _, Nat.zero_le _⟩

theorem take_common (a b : List α) : a.take (common a b) = b.take (common a b) := by
  fun_induction common a b with
  | case1 as b bs ih => rw [List.take_succ_cons, List.take_succ_cons, ih]
  | case2 | case3 => simp

/-- A step down changes the common prefix by at most one component. -/
theorem common_concat (a b : List α) (x : α) :
    common a b ≤ common (a ++ [x]) b ∧ common (a ++ [x]) b ≤ common a b + 1 := by
  induction a generalizing b with
  | nil =>
    refine ⟨Nat.zero_le _, ?_⟩
    cases b with
    | nil => exact Nat.zero_le _
    | cons b bs =>
      rw [List.nil_append, common]
      split <;> simp [common]
  | cons a as ih =>
    cases b with
    | nil => simp [common]
    | cons b bs =>
      rw [List.cons_append, common, common]
      split
      · have := ih bs
        omega
      · exact ⟨le_rfl, Nat.zero_le _⟩

theorem steps_concat (a b : List α) (x : α) :
    steps a b ≤ steps (a ++ [x]) b + 1 ∧ steps (a ++ [x]) b ≤ steps a b + 1 := by
  have hstep := common_concat a b x
  have hle := common_le a b
  have hle' := common_le (a ++ [x]) b
  rw [List.length_append, List.length_singleton] at hle'
  unfold steps
  rw [List.length_append, List.length_singleton]
  omega

theorem steps_dropLast (a b : List α) : steps a b ≤ steps a.dropLast b + 1 := by
  rcases List.eq_nil_or_concat' a with rfl | ⟨front, x, rfl⟩
  · exact Nat.le_succ _
  · rw [List.dropLast_concat]
    exact (steps_concat front b x).2

theorem common_append_left (base a b : List α) :
    common (base ++ a) (base ++ b) = base.length + common a b := by
  induction base with
  | nil => simp
  | cons x base ih =>
    rw [List.cons_append, List.cons_append, common, if_pos rfl, ih, List.length_cons]
    omega

theorem steps_append_left (base a b : List α) : steps (base ++ a) (base ++ b) = steps a b := by
  unfold steps
  rw [common_append_left, List.length_append, List.length_append]
  omega

theorem steps_self (a : List α) : steps a a = 0 := by
  have hself : common a a = a.length := by
    induction a with
    | nil => rfl
    | cons x xs ih => rw [common, if_pos rfl, ih, List.length_cons]
  rw [steps, hself, Nat.sub_self]

end Distance

/-! ## Paths -/

def upDir : Text := str ".."

def thisDir : Text := str "."

/-- The pieces between the backslashes. -/
def pieces : Text → List Text
  | [] => [[]]
  | c :: cs =>
    if c = '\\' then [] :: pieces cs
    else
      match pieces cs with
      | [] => [[c]]
      | p :: ps => (c :: p) :: ps

def pathComponents (path : Text) : List Text := (pieces path).filter (· ≠ [])

/-- The place that the components lead to. -/
def resolveDir : List Text → List Text → List Text
  | cur, [] => cur
  | cur, c :: cs =>
    if c = thisDir then resolveDir cur cs
    else if c = upDir then resolveDir cur.dropLast cs
    else resolveDir (cur ++ [c]) cs

/-- A name that stands for an entry of the directory it is looked up in. -/
structure DirName (c : Text) : Prop where
  nonempty : c ≠ []
  no_backslash : '\\' ∉ c
  not_this : c ≠ thisDir
  not_up : c ≠ upDir

/-- Directories, each with the backslash behind it. -/
def dirText (cs : List Text) : Text := cs.flatMap (· ++ str "\\")

/-- Directories with backslashes between them. -/
def joinDirs : List Text → Text
  | [] => []
  | [d] => d
  | d :: ds => d ++ '\\' :: joinDirs ds

theorem dirText_cons (c : Text) (cs : List Text) : dirText (c :: cs) = c ++ '\\' :: dirText cs := by
  rw [dirText, List.flatMap_cons, List.append_assoc]
  rfl

theorem joinDirs_cons (d : Text) (ds : List Text) :
    joinDirs (d :: ds) = d ++ if ds = [] then [] else '\\' :: joinDirs ds := by
  cases ds with
  | nil => simp [joinDirs]
  | cons e es => simp [joinDirs]

theorem joinDirs_eq_nil_iff {ds : List Text} (h : ∀ d ∈ ds, d ≠ []) :
    joinDirs ds = [] ↔ ds = [] := by
  cases ds with
  | nil => simp [joinDirs]
  | cons d ds =>
    have hd := h d List.mem_cons_self
    simp [joinDirs_cons, hd]

theorem joinDirs_backslash {ds : List Text} (hne : ds ≠ []) :
    joinDirs ds ++ str "\\" = dirText ds := by
  induction ds with
  | nil => exact absurd rfl hne
  | cons d ds ih =>
    rw [joinDirs_cons, dirText_cons, List.append_assoc]
    split
    · rename_i hnil
      rw [hnil]
      rfl
    · rename_i hds
      rw [List.cons_append, ih hds]

theorem pieces_append {a : Text} (h : '\\' ∉ a) (b : Text) :
    pieces (a ++ '\\' :: b) = a :: pieces b := by
  induction a with
  | nil => simp [pieces]
  | cons c cs ih =>
    simp only [List.mem_cons, not_or] at h
    rw [List.cons_append, pieces, if_neg (Ne.symm h.1), ih h.2]

theorem pathComponents_dirText {cs : List Text} (h : ∀ c ∈ cs, c ≠ [] ∧ '\\' ∉ c) :
    pathComponents (dirText cs) = cs := by
  have hpieces : pieces (dirText cs) = cs ++ [[]] := by
    induction cs with
    | nil => rfl
    | cons c cs ih =>
      rw [List.forall_mem_cons] at h
      rw [dirText_cons, pieces_append h.1.2, ih h.2, List.cons_append]
  rw [pathComponents, hpieces, List.filter_append, List.filter_eq_self.mpr]
  · simp
  · intro c hc
    simpa using (h c hc).1

theorem resolveDir_append (cur as bs : List Text) :
    resolveDir cur (as ++ bs) = resolveDir (resolveDir cur as) bs := by
  induction as generalizing cur with
  | nil => rfl
  | cons c cs ih =>
    rw [List.cons_append, resolveDir, resolveDir]
    split
    · exact ih cur
    · split
      · exact ih _
      · exact ih _

theorem resolveDir_names {cs : List Text} (h : ∀ c ∈ cs, DirName c) (cur : List Text) :
    resolveDir cur cs = cur ++ cs := by
  induction cs generalizing cur with
  | nil => rw [resolveDir, List.append_nil]
  | cons c cs ih =>
    rw [List.forall_mem_cons] at h
    rw [resolveDir, if_neg h.1.not_this, if_neg h.1.not_up, ih h.2, List.append_assoc]
    rfl

/-- As many components up as there were names take back the names. -/
theorem resolveDir_up (cur cs more : List Text) :
    resolveDir (cur ++ cs) (List.replicate cs.length upDir ++ more) = resolveDir cur more := by
  induction cs using List.reverseRecOn with
  | nil => simp
  | append_singleton cs c ih =>
    have hup : upDir ≠ thisDir := by decide
    rw [List.length_append, List.length_singleton, List.replicate_succ, List.cons_append,
      resolveDir, if_neg hup, if_pos rfl, ← List.append_assoc, List.dropLast_concat, ih]

/-- Every component comes at most one step nearer. -/
theorem steps_le_length {cur dest q : List Text} (h : resolveDir cur q = dest) :
    steps cur dest ≤ q.length := by
  induction q generalizing cur with
  | nil =>
    rw [resolveDir] at h
    rw [h, steps_self]
    exact Nat.zero_le _
  | cons c cs ih =>
    rw [resolveDir] at h
    rw [List.length_cons]
    split at h
    · exact (ih h).trans (Nat.le_succ _)
    · split at h
      · exact (steps_dropLast cur dest).trans (Nat.succ_le_succ (ih h))
      · exact (steps_concat cur dest c).1.trans (Nat.succ_le_succ (ih h))

/-! ## What the loops do -/

/-- A directory matches exactly if it is the first component of the other path. -/
theorem eq_of_component_starts {c d e tail : Text} (hc : '\\' ∉ c) (hd : '\\' ∉ d)
    (htail : tail = [] ∨ ∃ r, tail = '\\' :: r) (he : e = [] ∨ ∃ r, e = '\\' :: r)
    (h : c ++ e = d ++ tail) : c = d := by
  have hcut : ∀ {x y : Text}, '\\' ∉ x → (y = [] ∨ ∃ r, y = '\\' :: r) →
      (x ++ y).takeWhile (· ≠ '\\') = x := by
    rintro x y hx (rfl | ⟨r, rfl⟩)
    · rw [List.append_nil, takeWhile_ne_self hx]
    · exact takeWhile_ne_append hx r
  rw [← hcut hc he, h, hcut hd htail]

theorem joinDirs_tail (ds : List Text) :
    (if ds = [] then [] else '\\' :: joinDirs ds) = ([] : Text) ∨
      ∃ r, (if ds = [] then [] else '\\' :: joinDirs ds) = '\\' :: r := by
  split
  · exact Or.inl rfl
  · exact Or.inr ⟨_, rfl⟩

/-- The first loop drops the longest common prefix. -/
theorem commonDirs_eq {cs ds : List Text} {file : Text} (hcs : ∀ c ∈ cs, DirName c)
    (hds : ∀ d ∈ ds, d ≠ [] ∧ '\\' ∉ d) (hfile : '\\' ∉ file) :
    commonDirs (dirText cs ++ file) (joinDirs ds) =
      (dirText (cs.drop (common cs ds)) ++ file, joinDirs (ds.drop (common cs ds))) := by
  induction cs generalizing ds with
  | nil =>
    rw [commonDirs, dif_neg (by simpa [dirText] using hfile)]
    simp [common]
  | cons c cs ih =>
    rw [List.forall_mem_cons] at hcs
    obtain ⟨hc, hcs⟩ := hcs
    have htake := takeWhile_ne_append hc.no_backslash (dirText cs ++ file)
    have hdrop := dropWhile_ne_append hc.no_backslash (dirText cs ++ file)
    rw [dirText_cons, List.append_assoc, List.cons_append, commonDirs, dif_pos (by simp)]
    dsimp only
    rw [htake, hdrop, List.tail_cons]
    cases ds with
    | nil =>
      obtain ⟨a, as, rfl⟩ := List.exists_cons_of_ne_nil hc.nonempty
      rw [joinDirs, if_neg (by simp), common]
      · rw [List.drop_zero, List.drop_zero, dirText_cons, List.append_assoc]
        rfl
      · simp
    | cons d ds =>
      rw [List.forall_mem_cons] at hds
      obtain ⟨hd, hds⟩ := hds
      rw [joinDirs_cons, common]
      by_cases heq : c = d
      · subst heq
        rw [if_pos (List.isPrefixOf_iff_prefix.mpr (List.prefix_append _ _)), if_pos rfl,
          List.drop_left, List.drop_succ_cons, List.drop_succ_cons]
        by_cases hnil : ds = []
        · subst hnil
          rw [if_pos rfl]
          exact ih hcs hds
        · rw [if_neg hnil]
          dsimp only
          rw [if_pos rfl]
          exact ih hcs hds
      · rw [if_neg heq, List.drop_zero, List.drop_zero, joinDirs_cons, dirText_cons,
          List.append_assoc, List.cons_append]
        have htail := joinDirs_tail ds
        generalize (if ds = [] then [] else '\\' :: joinDirs ds : Text) = tail at htail ⊢
        split
        · -- a directory whose name only starts like the other one
          rename_i hpre
          obtain ⟨e, he⟩ := List.isPrefixOf_iff_prefix.mp hpre
          rw [← he, List.drop_left]
          have hno : ∀ r, e ≠ '\\' :: r := fun r hr =>
            heq (eq_of_component_starts hc.no_backslash hd.2 htail
              (Or.inr ⟨r, hr⟩) he)
          have hnil : e ≠ [] := fun hr =>
            heq (eq_of_component_starts hc.no_backslash hd.2 htail (Or.inl hr) he)
          obtain ⟨x, r, rfl⟩ := List.exists_cons_of_ne_nil hnil
          have hx : x ≠ '\\' := by
            rintro rfl
            exact hno r rfl
          rw [he]
          dsimp only
          rw [if_neg hx]
        · rfl

/-- The second loop goes up once for each directory left. -/
theorem upDirs_eq {cs : List Text} {file : Text} (hcs : ∀ c ∈ cs, c ≠ [] ∧ '\\' ∉ c)
    (hfile : '\\' ∉ file) :
    upDirs (dirText cs ++ file) = dirText (List.replicate cs.length upDir) := by
  induction cs with
  | nil =>
    have hnone := dropWhile_ne_self hfile
    rw [upDirs]
    split
    · rfl
    · rename_i c next h
      rw [show dirText [] ++ file = file from rfl, hnone] at h
      cases h
  | cons c cs ih =>
    rw [List.forall_mem_cons] at hcs
    obtain ⟨hc, hcs⟩ := hcs
    have hdrop := dropWhile_ne_append hc.2 (dirText cs ++ file)
    have hnext : ('\\' :: (dirText cs ++ file)).dropWhile (· = '\\') = dirText cs ++ file := by
      rw [List.dropWhile_cons, if_pos (by simp)]
      -- neither a directory nor the file starts with a backslash
      have hhead : ∀ x, (dirText cs ++ file).head? = some x → x ≠ '\\' := by
        intro x hx
        rintro rfl
        cases cs with
        | nil => exact hfile (List.mem_of_mem_head? hx)
        | cons e es =>
          obtain ⟨he, -⟩ := List.forall_mem_cons.mp hcs
          obtain ⟨y, ys, rfl⟩ := List.exists_cons_of_ne_nil he.1
          rw [dirText_cons, List.append_assoc, List.cons_append, List.head?_cons,
            Option.some.injEq] at hx
          exact he.2 (hx ▸ List.mem_cons_self)
      cases hrest : dirText cs ++ file with
      | nil => rfl
      | cons x xs =>
        rw [hrest] at hhead
        rw [List.dropWhile_cons, if_neg (by simpa using hhead x rfl)]
    rw [dirText_cons, List.append_assoc, List.cons_append, upDirs]
    split
    · rename_i hnil
      rw [hdrop] at hnil
      cases hnil
    · rename_i x next hsome
      rw [hdrop] at hsome
      cases hsome
      rw [hnext, ih hcs, List.length_cons, List.replicate_succ, dirText_cons]
      rfl

/-- What is printed: up from the project to the common directory and down from there. -/
theorem relativePath_eq {cs ds : List Text} {file : Text} (hcs : ∀ c ∈ cs, DirName c)
    (hds : ∀ d ∈ ds, d ≠ [] ∧ '\\' ∉ d) (hfile : '\\' ∉ file) :
    relativePath (dirText cs ++ file) (joinDirs ds) =
      dirText (List.replicate (cs.length - common cs ds) upDir ++ ds.drop (common cs ds)) := by
  have hup : ∀ c ∈ cs.drop (common cs ds), c ≠ [] ∧ '\\' ∉ c := fun c hc =>
    ⟨(hcs c (List.mem_of_mem_drop hc)).nonempty, (hcs c (List.mem_of_mem_drop hc)).no_backslash⟩
  have hdown : ∀ d ∈ ds.drop (common cs ds), d ≠ [] := fun d hd =>
    (hds d (List.mem_of_mem_drop hd)).1
  unfold relativePath
  dsimp only
  rw [commonDirs_eq hcs hds hfile]
  dsimp only
  rw [upDirs_eq hup hfile, List.length_drop]
  split
  · rename_i hnil
    rw [(joinDirs_eq_nil_iff hdown).mp hnil, List.append_nil, List.append_nil]
  · rename_i hne
    have hds' : ds.drop (common cs ds) ≠ [] := fun hnil =>
      hne ((joinDirs_eq_nil_iff hdown).mpr hnil)
    rw [joinDirs_backslash hds', dirText, dirText, dirText, List.flatMap_append]

/-- **Relative paths.** From the directory of the project file, the printed path leads where the
directory leads from the common base; for a directory of ordinary names this is the directory
itself, and no path with fewer components leads there. -/
theorem relative_path_shortest {cs ds : List Text} {file : Text} (hcs : ∀ c ∈ cs, DirName c)
    (hds : ∀ d ∈ ds, d ≠ [] ∧ '\\' ∉ d) (hfile : '\\' ∉ file) (base : List Text) :
    resolveDir (base ++ cs)
        (pathComponents (relativePath (dirText cs ++ file) (joinDirs ds))) =
      resolveDir base ds ∧
    ((∀ d ∈ ds, DirName d) →
      resolveDir (base ++ cs)
          (pathComponents (relativePath (dirText cs ++ file) (joinDirs ds))) = base ++ ds ∧
        ∀ q, resolveDir (base ++ cs) (pathComponents q) = base ++ ds →
          (pathComponents (relativePath (dirText cs ++ file) (joinDirs ds))).length ≤
            (pathComponents q).length) := by
  have hparts : pathComponents (relativePath (dirText cs ++ file) (joinDirs ds)) =
      List.replicate (cs.length - common cs ds) upDir ++ ds.drop (common cs ds) := by
    rw [relativePath_eq hcs hds hfile]
    refine pathComponents_dirText fun c hc => ?_
    rcases List.mem_append.mp hc with hc | hc
    · rw [List.eq_of_mem_replicate hc]
      decide
    · exact hds c (List.mem_of_mem_drop hc)
  have hleads : resolveDir (base ++ cs)
      (pathComponents (relativePath (dirText cs ++ file) (joinDirs ds))) = resolveDir base ds := by
    have hnames : ∀ c ∈ cs.take (common cs ds), DirName c := fun c hc =>
      hcs c (List.mem_of_mem_take hc)
    calc resolveDir (base ++ cs)
          (pathComponents (relativePath (dirText cs ++ file) (joinDirs ds)))
        = resolveDir (base ++ cs.take (common cs ds) ++ cs.drop (common cs ds))
            (List.replicate (cs.drop (common cs ds)).length upDir ++ ds.drop (common cs ds)) := by
          rw [hparts, List.append_assoc, List.take_append_drop, List.length_drop]
      _ = resolveDir (base ++ cs.take (common cs ds)) (ds.drop (common cs ds)) :=
          resolveDir_up _ _ _
      _ = resolveDir (resolveDir base (ds.take (common cs ds))) (ds.drop (common cs ds)) := by
          rw [← take_common cs ds, resolveDir_names hnames]
      _ = resolveDir base ds := by rw [← resolveDir_append, List.take_append_drop]
  refine ⟨hleads, fun hnames => ?_⟩
  refine ⟨hleads.trans (resolveDir_names hnames base), fun q hq => ?_⟩
  have hsteps := steps_le_length hq
  rw [steps_append_left] at hsteps
  rw [hparts, List.length_append, List.length_replicate, List.length_drop]
  exact hsteps

/-- A directory whose name starts like that of the project. -/
theorem relative_path_shortest_two :
    relativePath (str "a\\b\\c.vcxproj") (str "a\\bc\\e") = str "..\\bc\\e\\" ∧
      resolveDir [str "a", str "b"]
        (pathComponents (relativePath (str "a\\b\\c.vcxproj") (str "a\\bc\\e"))) =
      [str "a", str "bc", str "e"] := by
  have hcs : ∀ c ∈ [str "a", str "b"], DirName c := by
    simp only [List.mem_cons, List.not_mem_nil, or_false, forall_eq_or_imp, forall_eq]
    exact ⟨⟨by decide, by decide, by decide, by decide⟩,
      ⟨by decide, by decide, by decide, by decide⟩⟩
  have hds : ∀ d ∈ [str "a", str "bc", str "e"], DirName d := by
    simp only [List.mem_cons, List.not_mem_nil, or_false, forall_eq_or_imp, forall_eq]
    exact ⟨⟨by decide, by decide, by decide, by decide⟩,
      ⟨by decide, by decide, by decide, by decide⟩, ⟨by decide, by decide, by decide, by decide⟩⟩
  have hfile : '\\' ∉ str "c.vcxproj" := by decide
  have h := (relative_path_shortest hcs (fun d hd => ⟨(hds d hd).nonempty, (hds d hd).no_backslash⟩)
    hfile []).2 hds
  exact ⟨by decide +kernel, h.1⟩

end ToolchainTools.Vcxproj
