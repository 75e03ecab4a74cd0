import ToolchainTools.Posix.Ways

/-!
# Emptied directories

`FS.clear` is the tree without what lies below a location. A walk in a tree with fewer
entries comes to the same place or to a missing one (`walk_thinner`). Whether the last
component is followed matters only where the walk ends at a link (`walk_followLast`), and a
path with a trailing slash ends in a directory (`walk_slash`).
-/

namespace Posix

open CLib

/-- `l` lies strictly below `loc`. -/
def Below (loc l : Loc) : Prop := loc <+: l ∧ l ≠ loc

instance (loc l : Loc) : Decidable (Below loc l) := inferInstanceAs (Decidable (_ ∧ _))

theorem not_below_self (loc : Loc) : ¬ Below loc loc := fun h => h.2 rfl

theorem Below.of_dropLast {loc l : Loc} (h : Below loc l.dropLast) : Below loc l := by
  refine ⟨h.1.trans (List.dropLast_prefix l), fun he => ?_⟩
  have hlen := h.1.length_le
  rw [he, List.length_dropLast] at hlen
  have hloc : loc = [] := List.eq_nil_of_length_eq_zero (by omega)
  apply h.2
  rw [he, hloc, List.dropLast_nil]

theorem below_concat (loc : Loc) (name : Name) : Below loc (loc ++ [name]) :=
  ⟨List.prefix_append _ _, by simp⟩

/-- What is strictly below `loc` is one of its children or below one. -/
theorem below_iff {loc l : Loc} : Below loc l ↔ ∃ name, loc ++ [name] <+: l := by
  constructor
  · rintro ⟨⟨tail, rfl⟩, hne⟩
    cases tail with
    | nil => simp at hne
    | cons name tail => exact ⟨name, tail, by simp⟩
  · rintro ⟨name, hpre⟩
    refine ⟨(List.prefix_append _ _).trans hpre, ?_⟩
    rintro rfl
    simpa using hpre.length_le

namespace FS

theorem nodeAt_keep {entries : List (Loc × Node)} {keep : Loc → Bool} (hroot : keep [] = true)
    (l : Loc) :
    nodeAt (entries.filter fun e => keep e.1) l = if keep l then nodeAt entries l else none := by
  unfold nodeAt
  by_cases hl : l = []
  · rw [if_pos hl, if_pos hl, if_pos (by rw [hl, hroot])]
  · rw [if_neg hl, if_neg hl]
    induction entries with
    | nil => simp
    | cons e es ih =>
      obtain ⟨k, n⟩ := e
      rw [List.filter_cons]
      dsimp only
      by_cases hk : keep k = true
      · rw [if_pos hk]
        by_cases hlk : l = k
        · rw [hlk, lookup_cons_self, lookup_cons_self, if_pos hk]
        · rw [lookup_cons_ne n hlk, lookup_cons_ne n hlk, ih]
      · rw [if_neg hk, ih]
        by_cases hlk : l = k
        · rw [hlk, if_neg hk, if_neg hk]
        · rw [lookup_cons_ne n hlk]

theorem nodeAt_clear (entries : List (Loc × Node)) (loc l : Loc) :
    nodeAt (entries.filter fun e => ! decide (Below loc e.1)) l =
      if Below loc l then none else nodeAt entries l := by
  have hroot : (! decide (Below loc [])) = true := by
    rw [Bool.not_eq_true', decide_eq_false_iff_not]
    exact fun h => h.2 (List.prefix_nil.mp h.1).symm
  rw [@nodeAt_keep entries (fun l => ! decide (Below loc l)) hroot l]
  by_cases h : Below loc l <;> simp [h]

/-- The tree without what lies strictly below `loc`. -/
def clear (fs : FS) (loc : Loc) : FS where
  entries := fs.entries.filter fun e => ! decide (Below loc e.1)
  tree l hl hs := by
    rw [nodeAt_clear] at hs ⊢
    split at hs
    · cases hs
    · rename_i hbelow
      rw [if_neg fun h => hbelow h.of_dropLast]
      exact fs.tree l hl hs

theorem get_clear (fs : FS) (loc l : Loc) :
    (fs.clear loc).get l = if Below loc l then none else fs.get l := nodeAt_clear _ _ _

theorem get_clear_self (fs : FS) (loc : Loc) : (fs.clear loc).get loc = fs.get loc := by
  rw [get_clear, if_neg (not_below_self loc)]

theorem erasable_of_missing {fs : FS} {loc : Loc} (hne : loc ≠ [])
    (h : ∀ l, Below loc l → fs.get l = none) : fs.Erasable loc := by
  refine ⟨hne, List.eq_nil_iff_forall_not_mem.mpr fun name hname => ?_⟩
  have hsome := mem_children.mp hname
  rw [h _ (below_concat loc name)] at hsome
  cases hsome

end FS

/-! ## Walks in two trees -/

variable {fs fs' : FS} {followLast : Bool}

/-- Every entry of the second tree is in the first. -/
def Thinner (fs fs' : FS) : Prop := ∀ l, fs'.get l = none ∨ fs'.get l = fs.get l

theorem thinner_clear (fs : FS) (loc : Loc) : Thinner fs (fs.clear loc) := by
  intro l
  rw [FS.get_clear]
  split
  · exact Or.inl rfl
  · exact Or.inr rfl

theorem walkUntil_thinner (hthin : Thinner fs fs') {follow follow' : Loc → List Name → Option Loc}
    (hfollow : ∀ cur cs l, follow' cur cs = some l → fs'.get l = none ∨ follow cur cs = some l)
    {cur : Loc} {cs : List Name} {l : Loc}
    (h : walkUntil fs' followLast follow' cur cs = some l) :
    fs'.get l = none ∨ walkUntil fs followLast follow cur cs = some l := by
  induction cs generalizing cur with
  | nil => exact Or.inr h
  | cons c cs ih =>
    simp only [walkUntil] at h ⊢
    split at h
    · rename_i hc
      rw [if_pos hc]
      exact ih h
    · rename_i hc
      rw [if_neg hc]
      split at h
      · rename_i hdd
        rw [if_pos hdd]
        exact ih h
      · rename_i hdd
        rw [if_neg hdd]
        rcases hthin (cur ++ [c]) with hnone | hsame
        · -- a missing entry ends the walk
          rw [hnone] at h
          dsimp only at h
          split at h
          · cases h
            exact Or.inl hnone
          · cases h
        · rw [hsame] at h
          cases hget : fs.get (cur ++ [c]) with
          | none => exact Or.inr (by simpa only [hget] using h)
          | some node =>
            rw [hget] at h
            cases node with
            | dir => exact ih h
            | file content mode => exact Or.inr h
            | link t =>
              dsimp only at h ⊢
              split at h
              · rename_i hlast
                rw [if_pos hlast]
                exact Or.inr h
              · rename_i hlast
                rw [if_neg hlast]
                exact hfollow _ _ _ h

/-- A walk comes to a place that is missing now, or to the same place as before. -/
theorem walk_thinner (hthin : Thinner fs fs') {n : Nat} {cur : Loc} {cs : List Name} {l : Loc}
    (h : walk fs' followLast n cur cs = some l) :
    fs'.get l = none ∨ walk fs followLast n cur cs = some l := by
  induction n generalizing cur cs l with
  | zero => exact walkUntil_thinner hthin (fun _ _ _ hl => by cases hl) h
  | succ n ih => exact walkUntil_thinner hthin (fun _ _ _ hl => ih hl) h

theorem resolve_thinner (hthin : Thinner fs fs') {cwd l : Loc} {path : Bytes}
    (h : resolve fs' cwd followLast path = some l) :
    fs'.get l = none ∨ resolve fs cwd followLast path = some l := by
  unfold resolve at h ⊢
  split at h
  · cases h
  · rename_i hpath
    rw [if_neg hpath]
    exact walk_thinner hthin h

/-! ## The last component -/

theorem walkUntil_followLast {follow follow' : Loc → List Name → Option Loc}
    (hfollow : ∀ cur cs, follow cur cs = follow' cur cs ∨
      ∃ l t, follow cur cs = some l ∧ fs.get l = some (.link t))
    (cur : Loc) (cs : List Name) :
    walkUntil fs false follow cur cs = walkUntil fs true follow' cur cs ∨
      ∃ l t, walkUntil fs false follow cur cs = some l ∧ fs.get l = some (.link t) := by
  induction cs generalizing cur with
  | nil => exact Or.inl rfl
  | cons c cs ih =>
    simp only [walkUntil]
    split
    · exact ih cur
    · split
      · exact ih _
      · cases hget : fs.get (cur ++ [c]) with
        | none => exact Or.inl rfl
        | some node =>
          cases node with
          | dir => exact ih _
          | file content mode => exact Or.inl rfl
          | link t =>
            dsimp only
            rw [if_neg fun h : cs = [] ∧ ¬ True => h.2 trivial]
            split
            · exact Or.inr ⟨_, t, rfl, hget⟩
            · exact hfollow _ _

/-- Not to follow the last component makes a difference only where it is a link. -/
theorem walk_followLast (fs : FS) (n : Nat) (cur : Loc) (cs : List Name) :
    walk fs false n cur cs = walk fs true n cur cs ∨
      ∃ l t, walk fs false n cur cs = some l ∧ fs.get l = some (.link t) := by
  induction n generalizing cur cs with
  | zero => exact walkUntil_followLast (fun _ _ => Or.inl rfl) cur cs
  | succ n ih => exact walkUntil_followLast ih cur cs

theorem resolve_followLast (fs : FS) (cwd : Loc) (path : Bytes) :
    resolve fs cwd false path = resolve fs cwd true path ∨
      ∃ l t, resolve fs cwd false path = some l ∧ fs.get l = some (.link t) := by
  unfold resolve
  split
  · exact Or.inl rfl
  · exact walk_followLast fs _ _ _

theorem get_dropLast_dir {cur : Loc} (h : fs.get cur = some .dir) :
    fs.get cur.dropLast = some .dir := by
  by_cases hcur : cur = []
  · rw [hcur]
    exact fs.get_root
  · exact FS.get_parent hcur h

theorem get_startOf_dir {cur : Loc} (h : fs.get cur = some .dir) (path : Bytes) :
    fs.get (startOf cur path) = some .dir := by
  unfold startOf
  split
  · exact fs.get_root
  · exact h

theorem walkUntil_slash {follow : Loc → List Name → Option Loc}
    (hfollow : ∀ cur cs l, fs.get cur = some .dir → cs.getLast? = some [] →
      follow cur cs = some l → fs.get l = some .dir)
    {cur : Loc} {cs : List Name} {l : Loc} (hcur : fs.get cur = some .dir)
    (hlast : cs.getLast? = some []) (h : walkUntil fs followLast follow cur cs = some l) :
    fs.get l = some .dir := by
  induction cs generalizing cur with
  | nil => cases hlast
  | cons c cs ih =>
    cases cs with
    | nil =>
      have hc : c = [] := by simpa using hlast
      simp only [walkUntil, hc, true_or, if_true] at h
      cases h
      exact hcur
    | cons d ds =>
      rw [List.getLast?_cons_cons] at hlast
      have hne : d :: ds ≠ [] := List.cons_ne_nil d ds
      rw [walkUntil] at h
      split at h
      · exact ih hcur hlast h
      · split at h
        · exact ih (get_dropLast_dir hcur) hlast h
        · split at h
          · rename_i hdir
            exact ih hdir hlast h
          · rename_i t ht
            rw [if_neg fun hand => hne hand.1] at h
            refine hfollow _ _ _ (get_startOf_dir hcur t) ?_ h
            rw [List.getLast?_append_of_ne_nil _ hne, hlast]
          · cases h
          · cases h

/-- A path with a trailing slash names a directory. -/
theorem walk_slash {n : Nat} {cur : Loc} {cs : List Name} {l : Loc}
    (hcur : fs.get cur = some .dir) (hlast : cs.getLast? = some [])
    (h : walk fs followLast n cur cs = some l) : fs.get l = some .dir := by
  induction n generalizing cur cs l with
  | zero => exact walkUntil_slash (fun _ _ _ _ _ hl => by cases hl) hcur hlast h
  | succ n ih => exact walkUntil_slash (fun _ _ _ h1 h2 h3 => ih h1 h2 h3) hcur hlast h

/-! ## Calls that remove -/

variable {os os' : OS}

theorem becomes_erase {loc : Loc} (h : os.fs.Erasable loc) (e : Effect) :
    Becomes os (Function.update os.fs.get loc none) (os.tick.act (os.fs.erase loc) e) := by
  refine ⟨goes_act .., fun l => ?_⟩
  rw [OS.act_fs, FS.get_erase h, Function.update_apply]

theorem unlinkAt_leaf {loc : Loc} (hquiet : Quiet os) (h : os.fs.IsLeaf loc) :
    Becomes os (Function.update os.fs.get loc none) (os.unlinkAt loc) := by
  unfold OS.unlinkAt
  rw [OS.call_good (hquiet _), if_pos (show os.tick.fs.IsLeaf loc from h)]
  exact becomes_erase (OS.erasable_of_isLeaf h) _

theorem unlinkAt_other {loc : Loc} (h : ¬ os.fs.IsLeaf loc) : os.unlinkAt loc = os.tick := by
  rcases os.unlinkAt_cases loc with htick | ⟨hleaf, -⟩
  · exact htick
  · exact absurd hleaf h

theorem rmdirAt_dir {loc : Loc} (hquiet : Quiet os) (hdir : os.fs.get loc = some .dir)
    (h : os.fs.Erasable loc) :
    Becomes os (Function.update os.fs.get loc none) (os.rmdirAt loc) := by
  unfold OS.rmdirAt
  rw [OS.call_good (hquiet _),
    if_pos (show os.tick.fs.get loc = some .dir ∧ os.tick.fs.Erasable loc from ⟨hdir, h⟩)]
  exact becomes_erase h _

theorem rmdirAt_other {loc : Loc} (h : os.fs.get loc ≠ some .dir) :
    os.rmdirAt loc = os.tick := by
  unfold OS.rmdirAt OS.call
  split
  · rfl
  · dsimp only
    rw [if_neg fun hand : os.tick.fs.get loc = some .dir ∧ _ => h hand.1]

end Posix
