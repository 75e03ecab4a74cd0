import ToolchainTools.Download.Main
import ToolchainTools.Posix.Subtrees

/-!
# What `delete_path` removes

Over the entries of a directory `delete_dir` makes no mistake: whatever lies below the
directory goes, links are removed and not followed (`deleteDir_clears`). `delete_path` itself
opens the path, which follows a link, while `rmdir` does not. `Deletable` lists when the two
agree, and this is exactly when the path goes with its own tree and nothing else does.
-/

namespace ToolchainTools

open CLib Posix

variable {os os' : OS} {loc L T : Loc} {path : Bytes}

/-! ## Emptying a directory -/

/-- Nothing that exists lies more than `depth` levels below `loc`. -/
def Shallow (fs : FS) (loc : Loc) (depth : Nat) : Prop :=
  ∀ l, loc <+: l → fs.get l ≠ none → l.length ≤ loc.length + depth

theorem length_le_treeDepth {fs : FS} {l : Loc} (h : fs.get l ≠ none) :
    l.length ≤ treeDepth fs := by
  by_cases hl : l = []
  · rw [hl]
    exact Nat.zero_le _
  · obtain ⟨node, hnode⟩ := Option.ne_none_iff_exists'.mp h
    unfold FS.get nodeAt at hnode
    rw [if_neg hl] at hnode
    have hmem := FS.mem_of_lookup hnode
    unfold treeDepth
    generalize fs.entries = es at hmem
    induction es with
    | nil => cases hmem
    | cons e es ih =>
      rw [List.map_cons, List.foldr_cons]
      rcases List.mem_cons.mp hmem with rfl | hrest
      · exact Nat.le_max_left _ _
      · exact (ih hrest).trans (Nat.le_max_right _ _)

theorem shallow_treeDepth (fs : FS) (loc : Loc) : Shallow fs loc (treeDepth fs) := by
  intro l _ hl
  have := length_le_treeDepth hl
  omega

/-- The tree without the children of `loc` with these names and what is below them. -/
def without (fs : FS) (loc : Loc) (names : List Name) (l : Loc) : Option Node :=
  if ∃ name ∈ names, loc ++ [name] <+: l then none else fs.get l

/-- One entry goes with all that is below it, when directories can be emptied. -/
theorem deleteEntry_spec {deleteDir : Loc → OS → OS} {child : Loc} (hne : child ≠ [])
    (hquiet : Quiet os)
    (hclear : os.fs.get child = some .dir → ∀ os1, Quiet os1 → os1.fs = os.fs →
      Becomes os1 (os.fs.clear child).get (deleteDir child os1)) :
    Becomes os (fun l => if child <+: l then none else os.fs.get l)
      (if os.fs.get child = some .dir then
        let r : Bool × OS := os.call false fun os => (true, os)
        (if r.1 then deleteDir child r.2 else r.2).rmdirAt child
      else os.unlinkAt child) := by
  split
  · rename_i hdir
    rw [OS.call_good (hquiet _)]
    simp only [if_true]
    have hcleared := hclear hdir os.tick hquiet.tick rfl
    have hquiet' := hquiet.tick.of_goes hcleared.goes
    have hdir' : (deleteDir child os.tick).fs.get child = some .dir := by
      rw [hcleared.get, FS.get_clear_self, hdir]
    have herasable : (deleteDir child os.tick).fs.Erasable child := by
      apply FS.erasable_of_missing hne
      intro l hl
      rw [hcleared.get, FS.get_clear, if_pos hl]
    have hremoved := rmdirAt_dir hquiet' hdir' herasable
    refine ⟨(goes_tick os).trans (hcleared.goes.trans hremoved.goes), fun l => ?_⟩
    rw [hremoved.get, Function.update_apply, hcleared.get, FS.get_clear]
    by_cases hl : l = child
    · rw [if_pos hl, if_pos (by rw [hl])]
    · rw [if_neg hl]
      simp only [Below, hl, ne_eq, not_false_eq_true, and_true]
  · rename_i hdir
    -- below what is not a directory there is nothing
    have hbelow : ∀ l, child <+: l → l ≠ child → os.fs.get l = none := fun l hpre hl =>
      FS.get_eq_none_of_below hdir hpre hl
    by_cases hleaf : os.fs.IsLeaf child
    · refine (unlinkAt_leaf hquiet hleaf).congr fun l => ?_
      rw [Function.update_apply]
      by_cases hl : l = child
      · rw [if_pos hl, if_pos (by rw [hl])]
      · rw [if_neg hl]
        split
        · rename_i hpre
          exact hbelow l hpre hl
        · rfl
    · rw [unlinkAt_other hleaf]
      refine (becomes_tick os).congr fun l => ?_
      split
      · rename_i hpre
        by_cases hl : l = child
        · have hmiss : os.fs.get child = none := by
            by_contra hsome
            exact hleaf ⟨hsome, hdir⟩
          rw [hl, hmiss]
        · exact hbelow l hpre hl
      · rfl

/-- The loop over the names, when directories below `loc` of no more than `depth` levels can
be emptied. -/
theorem deleteEntries_spec {deleteDir : Loc → OS → OS} {depth : Nat}
    (hclear : ∀ child os, Quiet os → Shallow os.fs child depth →
      Becomes os (os.fs.clear child).get (deleteDir child os))
    {names : List Name} (hquiet : Quiet os) (hdeep : Shallow os.fs loc (depth + 1)) :
    Becomes os (without os.fs loc names) (deleteEntries deleteDir loc names os) := by
  induction names generalizing os with
  | nil => exact ⟨Goes.refl os, fun l => by simp [without, deleteEntries]⟩
  | cons name names ih =>
    have hchild : Shallow os.fs (loc ++ [name]) depth := by
      intro l hpre hl
      have := hdeep l ((List.prefix_append _ _).trans hpre) hl
      rw [List.length_append, List.length_singleton]
      omega
    have hentry := @deleteEntry_spec os deleteDir (loc ++ [name]) (by simp) hquiet
      fun _ os1 hq hfs => by
        have := hclear (loc ++ [name]) os1 hq (by rwa [hfs])
        rwa [hfs] at this
    refine (hentry.trans (ih (hquiet.of_goes hentry.goes) ?_)).congr ?_
    · intro l hpre hl
      apply hdeep l hpre
      intro hnone
      rw [hentry.get, hnone, ite_self] at hl
      exact hl rfl
    · intro l
      unfold without
      rw [hentry.get]
      by_cases hfirst : loc ++ [name] <+: l
      · rw [if_pos hfirst, ite_self, if_pos ⟨name, List.mem_cons_self, hfirst⟩]
      · rw [if_neg hfirst]
        simp only [List.mem_cons, exists_eq_or_imp, hfirst, false_or]

/-- All names of a directory. -/
theorem without_children (fs : FS) (loc l : Loc) :
    without fs loc (fs.children loc) l = (fs.clear loc).get l := by
  rw [FS.get_clear]
  unfold without
  by_cases hbelow : Below loc l
  · rw [if_pos hbelow]
    split
    · rfl
    · rename_i hno
      obtain ⟨name, hpre⟩ := below_iff.mp hbelow
      have hmiss : fs.get (loc ++ [name]) = none := by
        by_contra hsome
        exact hno ⟨name, FS.mem_children.mpr (Option.isSome_iff_ne_none.mpr hsome), hpre⟩
      by_cases hl : l = loc ++ [name]
      · rw [hl, hmiss]
      · exact FS.get_eq_none_of_below (by rw [hmiss]; simp) hpre hl
  · rw [if_neg hbelow, if_neg]
    rintro ⟨name, -, hpre⟩
    exact hbelow (below_iff.mpr ⟨name, hpre⟩)

/-- `delete_dir` removes what is below the directory, and nothing else. -/
theorem deleteDir_clears {depth : Nat} (hquiet : Quiet os) (hdeep : Shallow os.fs loc depth) :
    Becomes os (os.fs.clear loc).get (deleteDir depth loc os) := by
  induction depth generalizing loc os with
  | zero =>
    refine ⟨Goes.refl os, fun l => ?_⟩
    rw [FS.get_clear]
    split
    · rename_i hbelow
      by_contra hsome
      have hlen := hdeep l hbelow.1 hsome
      exact hbelow.2 (hbelow.1.eq_of_length_le (by omega)).symm
    · rfl
  | succ depth ih =>
    exact (deleteEntries_spec (fun _ _ hq hd => ih hq hd) hquiet hdeep).congr
      (without_children os.fs loc)

/-! ## Removing the directory itself -/

/-- The last component of the path names an entry, trailing slashes apart. -/
def NamesEntry (path : Bytes) : Prop :=
  (components (OS.stripSlashes path)).getLast? ≠ some dot ∧
    (components (OS.stripSlashes path)).getLast? ≠ some dotdot

instance (path : Bytes) : Decidable (NamesEntry path) := inferInstanceAs (Decidable (_ ∧ _))

theorem rmdir_eq (hname : NamesEntry path)
    (hloc : os.locate false (OS.stripSlashes path) = some loc) :
    os.rmdir path = os.rmdirAt loc := by
  unfold OS.rmdir
  rw [if_neg (not_or.mpr hname)]
  simp only [hloc]

/-- `rmdir` changes the directory that it finds, or nothing. -/
theorem rmdir_only {l : Loc} (h : (os.rmdir path).fs.get l ≠ os.fs.get l) :
    NamesEntry path ∧ os.locate false (OS.stripSlashes path) = some l ∧
      os.fs.get l = some .dir := by
  by_cases hname : NamesEntry path
  · cases hloc : os.locate false (OS.stripSlashes path) with
    | none =>
      unfold OS.rmdir at h
      rw [if_neg (not_or.mpr hname)] at h
      simp only [hloc] at h
      exact absurd rfl h
    | some loc =>
      rw [rmdir_eq hname hloc] at h
      have hdir : os.fs.get loc = some .dir := by
        by_contra hdir
        rw [rmdirAt_other hdir] at h
        exact h rfl
      rcases os.rmdirAt_cases loc with htick | ⟨-, hact⟩
      · rw [htick] at h
        exact absurd rfl h
      · have hl : l = loc := by
          by_contra hl
          rw [hact, OS.act_fs, FS.get_erase_ne _ hl] at h
          exact h rfl
        rw [hl]
        exact ⟨hname, rfl, hdir⟩
  · unfold OS.rmdir at h
    rw [if_pos (by by_contra hno; exact hname (not_or.mp hno))] at h
    exact absurd rfl h

/-! ## The three ways of `delete_path` -/

theorem deletePath_missing (h : ∀ T, os.locate true path = some T → os.fs.get T = none) :
    deletePath os path = os.tick := by
  have hopen : os.openRead path = (none, os.tick) := by
    unfold OS.openRead OS.call
    split
    · rfl
    · cases hT : os.locate true path with
      | none =>
        simp only [show os.tick.locate true path = none from hT]
      | some T =>
        simp only [show os.tick.locate true path = some T from hT, OS.tick_fs, h T hT, if_true]
  unfold deletePath
  rw [hopen]

theorem openRead_found (hquiet : Quiet os) (hT : os.locate true path = some T)
    (hsome : os.fs.get T ≠ none) : os.openRead path = (some T, os.tick) := by
  unfold OS.openRead
  rw [OS.call_good (hquiet _)]
  simp only [show os.tick.locate true path = some T from hT, OS.tick_fs, hsome, if_false]

theorem deletePath_leaf (hquiet : Quiet os) (hT : os.locate true path = some T)
    (hleaf : os.fs.IsLeaf T) (hL : os.locate false path = some L) (hLleaf : os.fs.IsLeaf L) :
    Becomes os (Function.update os.fs.get L none) (deletePath os path) := by
  have hunlink : os.tick.unlink path = os.tick.unlinkAt L := by
    unfold OS.unlink
    simp only [show os.tick.locate false path = some L from hL]
  unfold deletePath
  rw [openRead_found hquiet hT hleaf.1]
  dsimp only
  rw [OS.tick_fs, if_neg hleaf.2, hunlink]
  exact (becomes_tick os).trans (unlinkAt_leaf hquiet.tick hLleaf)

theorem deletePath_dir (hquiet : Quiet os) (hT : os.locate true path = some T)
    (hdir : os.fs.get T = some .dir) :
    ∃ os1, Becomes os (os.fs.clear T).get os1 ∧ deletePath os path = os1.rmdir path := by
  have hdeep : Shallow os.fs T (treeDepth os.fs + 1) := fun l hpre hl =>
    (shallow_treeDepth os.fs T l hpre hl).trans (Nat.le_succ _)
  have hcleared : Becomes os.tick (os.fs.clear T).get
      (deleteDir (treeDepth os.fs + 1) T os.tick) := deleteDir_clears hquiet.tick hdeep
  refine ⟨_, (becomes_tick os).trans hcleared, ?_⟩
  · unfold deletePath
    rw [openRead_found hquiet hT (by rw [hdir]; simp)]
    dsimp only
    rw [OS.tick_fs, if_pos hdir]

/-- Where a path leads in an emptied tree. -/
theorem locate_cleared {os1 : OS} (h : Becomes os (os.fs.clear T).get os1) (p : Bytes) :
    os1.locate false p = resolve (os.fs.clear T) os.cwd false p := by
  unfold OS.locate
  rw [h.goes.cwd]
  exact resolve_congr (fun l => Or.inl (h.get l)) os.cwd _ p

/-! ## When a path goes with its own tree -/

/-- Nothing is left at `path`, and what does not lie at or below it is as before. -/
structure OwnTreeOnly (os : OS) (path : Bytes) (os' : OS) : Prop where
  gone : ∀ L, os.locate false path = some L → os'.fs.get L = none
  kept : ∀ l, (∀ L, os.locate false path = some L → ¬ L <+: l) → os'.fs.get l = os.fs.get l

/-- The states in which `open` and `rmdir` or `unlink` agree about `path`. -/
inductive Deletable (os : OS) (path : Bytes) : Prop
  | nothing (h : ∀ L, os.locate false path = some L → os.fs.get L = none)
  | file {L : Loc} {c : Bytes} {m : Int} (hL : os.locate false path = some L) (hfile : os.fs.get L = some (.file c m))
  /-- A link to something other than a directory. -/
  | link {L T : Loc} {t : Bytes} (hL : os.locate false path = some L) (hlink : os.fs.get L = some (.link t))
    (hT : os.locate true path = some T) (hleaf : os.fs.IsLeaf T)
  /-- A link that is alone in the directory it leads to. -/
  | alone {L T : Loc} {t : Bytes} (hL : os.locate false path = some L) (hlink : os.fs.get L = some (.link t))
    (hT : os.locate true path = some T) (hdir : os.fs.get T = some .dir) (hbelow : T <+: L)
    (honly : ∀ l, Below T l → os.fs.get l ≠ none → l = L)
  /-- A directory that the path still leads to when it is empty, now without following a
  link at the end. -/
  | dir {L : Loc} (hL : os.locate false path = some L) (hdir : os.fs.get L = some .dir) (hroot : L ≠ [])
    (hname : NamesEntry path)
    (hempty : resolve (os.fs.clear L) os.cwd false (OS.stripSlashes path) = some L)

theorem locate_true_of_not_link (hL : os.locate false path = some L)
    (hlink : ∀ t, os.fs.get L ≠ some (.link t)) : os.locate true path = some L := by
  rcases resolve_followLast os.fs os.cwd path with heq | ⟨l, t, hl, ht⟩
  · exact heq.symm.trans hL
  · obtain rfl := Option.some.inj (hl.symm.trans hL)
    exact absurd ht (hlink t)

/-- A path that names a link has no trailing slash. -/
theorem stripSlashes_of_link {t : Bytes} (hcwd : os.fs.get os.cwd = some .dir)
    (hL : os.locate false path = some L) (hlink : os.fs.get L = some (.link t)) :
    OS.stripSlashes path = path := by
  obtain ⟨m, hm⟩ := OS.stripSlashes_append path
  cases m with
  | zero => simpa using hm.symm
  | succ m =>
    have hlast : (components path).getLast? = some [] := by
      rw [hm, List.replicate_succ', ← List.append_assoc, components_append]
      simp [components]
    unfold OS.locate resolve at hL
    split at hL
    · cases hL
    · have hdir := walk_slash (get_startOf_dir hcwd path) hlast hL
      rw [hlink] at hdir
      cases hdir

theorem ownTree_of_update (hL : os.locate false path = some L)
    (h : Becomes os (Function.update os.fs.get L none) os') : OwnTreeOnly os path os' := by
  constructor
  · intro L' hL'
    obtain rfl := Option.some.inj (hL.symm.trans hL')
    rw [h.get, Function.update_self]
  · intro l hl
    have hne : l ≠ L := fun heq => hl L hL (by rw [heq])
    rw [h.get, Function.update_of_ne hne]

theorem deletePath_nothing (h : ∀ L, os.locate false path = some L → os.fs.get L = none) :
    deletePath os path = os.tick := by
  apply deletePath_missing
  intro T hT
  rcases resolve_followLast os.fs os.cwd path with heq | ⟨l, t, hl, ht⟩
  · exact h T (heq.trans hT)
  · rw [h l hl] at ht
    cases ht

/-- A link to a directory: `delete_dir` empties the directory, and `rmdir` leaves the link. -/
theorem deletePath_link_dir {t : Bytes} (hquiet : Quiet os) (hcwd : os.fs.get os.cwd = some .dir)
    (hL : os.locate false path = some L) (hlink : os.fs.get L = some (.link t))
    (hT : os.locate true path = some T) (hdir : os.fs.get T = some .dir) (l : Loc) :
    (deletePath os path).fs.get l = (os.fs.clear T).get l := by
  obtain ⟨os1, hos1, heq⟩ := deletePath_dir hquiet hT hdir
  rw [heq, ← hos1.get l]
  by_contra hchange
  obtain ⟨-, hloc, hl⟩ := rmdir_only hchange
  rw [locate_cleared hos1, stripSlashes_of_link hcwd hL hlink] at hloc
  rw [hos1.get] at hl
  rcases resolve_thinner (thinner_clear os.fs T) hloc with hnone | hsame
  · rw [hnone] at hl
    cases hl
  · obtain rfl := Option.some.inj (hL.symm.trans hsame)
    rw [FS.get_clear, hlink] at hl
    split at hl <;> cases hl

/-- A directory: it is gone when the path still leads to it. -/
theorem ownTree_of_dir (hquiet : Quiet os) (hL : os.locate false path = some L)
    (hdir : os.fs.get L = some .dir) (hroot : L ≠ []) (hname : NamesEntry path)
    (hempty : resolve (os.fs.clear L) os.cwd false (OS.stripSlashes path) = some L) :
    OwnTreeOnly os path (deletePath os path) := by
  have hT := locate_true_of_not_link hL (fun t ht => by rw [hdir] at ht; cases ht)
  obtain ⟨os1, hos1, heq⟩ := deletePath_dir hquiet hT hdir
  have hdir1 : os1.fs.get L = some .dir := by rw [hos1.get, FS.get_clear_self, hdir]
  have herasable : os1.fs.Erasable L := by
    apply FS.erasable_of_missing hroot
    intro l hl
    rw [hos1.get, FS.get_clear, if_pos hl]
  have hremoved := rmdirAt_dir (hquiet.of_goes hos1.goes) hdir1 herasable
  rw [heq, rmdir_eq hname ((locate_cleared hos1 _).trans hempty)]
  constructor
  · intro L' hL'
    obtain rfl := Option.some.inj (hL.symm.trans hL')
    rw [hremoved.get, Function.update_self]
  · intro l hl
    have hpre := hl L hL
    have hne : l ≠ L := fun he => hpre (by rw [he])
    rw [hremoved.get, Function.update_of_ne hne, hos1.get, FS.get_clear,
      if_neg fun hbelow => hpre hbelow.1]

theorem deletable_of_dir (hquiet : Quiet os) (hL : os.locate false path = some L)
    (hdir : os.fs.get L = some .dir) (h : OwnTreeOnly os path (deletePath os path)) :
    Deletable os path := by
  have hT := locate_true_of_not_link hL (fun t ht => by rw [hdir] at ht; cases ht)
  obtain ⟨os1, hos1, heq⟩ := deletePath_dir hquiet hT hdir
  have hgone := h.gone L hL
  have hchange : (os1.rmdir path).fs.get L ≠ os1.fs.get L := by
    rw [← heq, hgone, hos1.get, FS.get_clear_self, hdir]
    simp
  obtain ⟨hname, hloc, -⟩ := rmdir_only hchange
  refine .dir hL hdir ?_ hname ((locate_cleared hos1 _).symm.trans hloc)
  rintro rfl
  rw [FS.get_root] at hgone
  cases hgone

theorem deletable_of_link {t : Bytes} (hquiet : Quiet os) (hcwd : os.fs.get os.cwd = some .dir)
    (hL : os.locate false path = some L) (hlink : os.fs.get L = some (.link t))
    (h : OwnTreeOnly os path (deletePath os path)) : Deletable os path := by
  have hgone := h.gone L hL
  by_cases hmissing : ∀ T, os.locate true path = some T → os.fs.get T = none
  · -- a dangling link is not even opened
    rw [deletePath_missing hmissing, OS.tick_fs, hlink] at hgone
    cases hgone
  · simp only [not_forall] at hmissing
    obtain ⟨T, hT, hsome⟩ := hmissing
    by_cases hdir : os.fs.get T = some .dir
    · have hget := deletePath_link_dir hquiet hcwd hL hlink hT hdir
      have hbelow : Below T L := by
        by_contra hno
        rw [hget, FS.get_clear, if_neg hno, hlink] at hgone
        cases hgone
      refine .alone hL hlink hT hdir hbelow.1 fun l hl hpresent => ?_
      have hpre : L <+: l := by
        by_contra hno
        have hkept := h.kept l fun L' hL' => by
          rwa [← Option.some.inj (hL.symm.trans hL')]
        rw [hget, FS.get_clear, if_pos hl] at hkept
        exact hpresent hkept.symm
      by_contra hne
      exact hpresent (FS.get_eq_none_of_below (by rw [hlink]; simp) hpre hne)
    · exact .link hL hlink hT ⟨hsome, hdir⟩

/-- **Deleting a path.** When no call fails for a reason of its own, the path is gone with its own
tree, and nothing else is, exactly if `open` and `rmdir` or `unlink` agree about the path. -/
theorem delete_path_iff (hquiet : Quiet os) (hcwd : os.fs.get os.cwd = some .dir)
    (path : Bytes) : OwnTreeOnly os path (deletePath os path) ↔ Deletable os path := by
  constructor
  · intro h
    cases hL : os.locate false path with
    | none => exact .nothing (by simp [hL])
    | some L =>
      cases hget : os.fs.get L with
      | none =>
        refine .nothing fun L' hL' => ?_
        rw [← Option.some.inj (hL.symm.trans hL'), hget]
      | some node =>
        cases node with
        | dir => exact deletable_of_dir hquiet hL hget h
        | file c m => exact .file hL hget
        | link t => exact deletable_of_link hquiet hcwd hL hget h
  · intro h
    cases h with
    | nothing h =>
      rw [deletePath_nothing h]
      exact ⟨h, fun _ _ => rfl⟩
    | file hL hfile =>
      have hleaf := OS.isLeaf_of_file hfile
      have hT := locate_true_of_not_link hL (fun t ht => by rw [hfile] at ht; cases ht)
      exact ownTree_of_update hL (deletePath_leaf hquiet hT hleaf hL hleaf)
    | link hL hlink hT hleaf =>
      exact ownTree_of_update hL (deletePath_leaf hquiet hT hleaf hL (by simp [FS.IsLeaf, hlink]))
    | @alone L T t hL hlink hT hdir hbelow honly =>
      have hget := deletePath_link_dir hquiet hcwd hL hlink hT hdir
      have hne : L ≠ T := by
        rintro rfl
        rw [hlink] at hdir
        cases hdir
      constructor
      · intro L' hL'
        obtain rfl := Option.some.inj (hL.symm.trans hL')
        rw [hget, FS.get_clear, if_pos ⟨hbelow, hne⟩]
      · intro l hl
        rw [hget, FS.get_clear]
        split
        · rename_i hlT
          by_contra hpresent
          exact hl L hL (by rw [honly l hlT (Ne.symm hpresent)])
        · rfl
    | dir hL hdir hroot hname hempty => exact ownTree_of_dir hquiet hL hdir hroot hname hempty

/-- A directory `keep` with a file, and these further entries. -/
def beside (more : List (Loc × Node)) : OS :=
  { freshOS with
    fs := (([lit "w", lit "keep"], Node.dir) ::
      ([lit "w", lit "keep", lit "data"], .file (lit "hi") 0o644) :: more).foldl
        (fun fs e => fs.add e.1 e.2) freshOS.fs }

/-- A directory `p` with a file two levels down and a link out of it. -/
def treeOS : OS :=
  beside [([lit "w", lit "p"], .dir), ([lit "w", lit "p", lit "sub"], .dir),
    ([lit "w", lit "p", lit "sub", lit "a"], .file (lit "a") 0o644),
    ([lit "w", lit "p", lit "out"], .link (lit "../keep"))]

theorem delete_path_iff_tree :
    (deletePath treeOS (lit "p/")).fs.get [lit "w", lit "p"] = none ∧
      (deletePath treeOS (lit "p/")).fs.get [lit "w", lit "keep", lit "data"] =
        some (.file (lit "hi") 0o644) := by
  have hL : treeOS.locate false (lit "p/") = some [lit "w", lit "p"] := by decide
  have hown := (@delete_path_iff treeOS (fun _ => rfl) (by decide) (lit "p/")).mpr
    (.dir hL (by decide) (by decide) (by decide) (by decide))
  refine ⟨hown.gone _ hL, ?_⟩
  rw [hown.kept]
  · decide
  · intro L hL'
    obtain rfl := Option.some.inj (hL.symm.trans hL')
    decide

/-- A link `p` to the directory `keep`. -/
def linkedOS : OS := beside [([lit "w", lit "p"], .link (lit "keep"))]

/-- The file in the directory that the link leads to is deleted, and the link stays. -/
theorem link_empties_its_target :
    Quiet linkedOS ∧ linkedOS.fs.get linkedOS.cwd = some .dir ∧
      ¬ OwnTreeOnly linkedOS (lit "p") (deletePath linkedOS (lit "p")) ∧
      (deletePath linkedOS (lit "p")).fs.get [lit "w", lit "keep", lit "data"] = none ∧
      (deletePath linkedOS (lit "p")).fs.get [lit "w", lit "p"] = some (.link (lit "keep")) := by
  have hlink : (deletePath linkedOS (lit "p")).fs.get [lit "w", lit "p"] =
      some (.link (lit "keep")) := by decide
  refine ⟨fun _ => rfl, by decide, fun h => ?_, by decide, hlink⟩
  rw [h.gone _ (by decide)] at hlink
  cases hlink

end ToolchainTools
