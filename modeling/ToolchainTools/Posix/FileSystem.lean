import ToolchainTools.CLib.Strings

/-!
# A tree of directories, files and symbolic links

A location is the list of names on the way down from the root, so two different
locations are two different places: hard links to directories do not exist, and
symbolic links are entries like any other until a path is walked. `FS` carries the proof
that every entry lies in a directory. The three changes of a tree (`add` a missing
entry, `update` a file, `erase` an entry without children) keep that proof and do nothing
where they do not apply.
-/

namespace Posix

open CLib

abbrev Name := Bytes

/-- The names on the way from the root; `[]` is the root itself. -/
abbrev Loc := List Name

instance : LawfulBEq Loc := inferInstance

inductive Node where
  | dir
  | file (content : Bytes) (mode : Int)
  | link (target : Bytes)
  deriving DecidableEq, Repr

/-- The node of a location in a list of entries. The first entry for a location counts. -/
def nodeAt (entries : List (Loc × Node)) (loc : Loc) : Option Node :=
  if loc = [] then some .dir else entries.lookup loc

structure FS where
  entries : List (Loc × Node)
  /-- Every entry lies in a directory. -/
  tree : ∀ loc, loc ≠ [] → (nodeAt entries loc).isSome →
    nodeAt entries loc.dropLast = some .dir

namespace FS

def get (fs : FS) (loc : Loc) : Option Node := nodeAt fs.entries loc

@[simp] theorem get_root (fs : FS) : fs.get [] = some .dir := by simp [get, nodeAt]

theorem get_parent {fs : FS} {loc : Loc} {node : Node} (hne : loc ≠ [])
    (h : fs.get loc = some node) : fs.get loc.dropLast = some .dir :=
  fs.tree loc hne (by rw [get] at h; rw [h]; rfl)

/-- The names of the entries that lie directly in `loc`. -/
def children (fs : FS) (loc : Loc) : List Name :=
  (fs.entries.filterMap fun e =>
    if e.1.dropLast = loc then e.1.getLast? else none).dedup

theorem lookup_isSome_of_mem {entries : List (Loc × Node)} {loc : Loc} {node : Node}
    (h : (loc, node) ∈ entries) : (entries.lookup loc).isSome := by
  induction entries with
  | nil => cases h
  | cons e es ih =>
    obtain ⟨l, n⟩ := e
    rw [List.lookup_cons]
    split
    · rfl
    · rename_i hne
      apply ih
      rcases List.mem_cons.mp h with he | he
      · cases he
        simp at hne
      · exact he

theorem mem_of_lookup {entries : List (Loc × Node)} {loc : Loc} {node : Node}
    (h : entries.lookup loc = some node) : (loc, node) ∈ entries := by
  induction entries with
  | nil => cases h
  | cons e es ih =>
    obtain ⟨l, n⟩ := e
    rw [List.lookup_cons] at h
    split at h
    · rename_i he
      cases h
      rw [eq_of_beq he]
      exact List.mem_cons_self
    · exact List.mem_cons_of_mem _ (ih h)

theorem mem_children {fs : FS} {loc : Loc} {name : Name} :
    name ∈ fs.children loc ↔ (fs.get (loc ++ [name])).isSome := by
  unfold children get nodeAt
  rw [List.mem_dedup, List.mem_filterMap, if_neg (by simp)]
  constructor
  · rintro ⟨⟨l, n⟩, hmem, hsome⟩
    dsimp only at hsome
    split at hsome
    · rename_i hl
      obtain ⟨front, rfl⟩ := List.getLast?_eq_some_iff.mp hsome
      rw [List.dropLast_concat] at hl
      subst hl
      exact lookup_isSome_of_mem hmem
    · cases hsome
  · intro h
    obtain ⟨node, hnode⟩ := Option.isSome_iff_exists.mp h
    exact ⟨(loc ++ [name], node), mem_of_lookup hnode, by simp⟩

/-! ## Changes of a tree -/

theorem lookup_cons_self (entries : List (Loc × Node)) (loc : Loc) (node : Node) :
    ((loc, node) :: entries).lookup loc = some node := by
  rw [List.lookup_cons, beq_self_eq_true]

theorem lookup_cons_ne {entries : List (Loc × Node)} {loc l : Loc} (node : Node) (h : l ≠ loc) :
    ((loc, node) :: entries).lookup l = entries.lookup l := by
  have hb : (l == loc) = false := beq_eq_false_iff_ne.mpr h
  rw [List.lookup_cons, hb]

theorem nodeAt_cons {entries : List (Loc × Node)} {loc : Loc} (hne : loc ≠ []) (node : Node)
    (l : Loc) :
    nodeAt ((loc, node) :: entries) l = if l = loc then some node else nodeAt entries l := by
  unfold nodeAt
  by_cases hl : l = []
  · rw [if_pos hl, if_neg (by rintro rfl; exact hne hl), if_pos hl]
  · rw [if_neg hl, if_neg hl]
    split
    · rename_i h
      rw [h, lookup_cons_self]
    · rename_i h
      exact lookup_cons_ne node h

/-- A missing entry can be added where its parent is a directory. -/
def Addable (fs : FS) (loc : Loc) : Prop :=
  loc ≠ [] ∧ fs.get loc = none ∧ fs.get loc.dropLast = some .dir

instance (fs : FS) (loc : Loc) : Decidable (fs.Addable loc) :=
  inferInstanceAs (Decidable (_ ∧ _ ∧ _))

theorem tree_add {fs : FS} {loc : Loc} (h : fs.Addable loc) (node : Node) (l : Loc)
    (hl : l ≠ []) (hs : (nodeAt ((loc, node) :: fs.entries) l).isSome) :
    nodeAt ((loc, node) :: fs.entries) l.dropLast = some .dir := by
  obtain ⟨hne, hmiss, hdir⟩ := h
  rw [nodeAt_cons hne] at hs ⊢
  have hparent : nodeAt fs.entries l.dropLast = some .dir := by
    split at hs
    · rename_i he
      rw [he]
      exact hdir
    · exact fs.tree l hl hs
  rw [if_neg, hparent]
  rintro he
  rw [he] at hparent
  rw [get, hparent] at hmiss
  cases hmiss

/-- Add a missing entry. -/
def add (fs : FS) (loc : Loc) (node : Node) : FS :=
  if h : fs.Addable loc then ⟨(loc, node) :: fs.entries, tree_add h node⟩ else fs

theorem get_add {fs : FS} {loc : Loc} (h : fs.Addable loc) (node : Node) (l : Loc) :
    (fs.add loc node).get l = if l = loc then some node else fs.get l := by
  unfold add
  rw [dif_pos h]
  exact nodeAt_cons h.1 node l

theorem get_add_ne (fs : FS) {loc l : Loc} (node : Node) (hl : l ≠ loc) :
    (fs.add loc node).get l = fs.get l := by
  by_cases h : fs.Addable loc
  · rw [get_add h, if_neg hl]
  · rw [add, dif_neg h]

/-- Neither a directory nor missing. -/
def IsLeaf (fs : FS) (loc : Loc) : Prop :=
  fs.get loc ≠ none ∧ fs.get loc ≠ some .dir

instance (fs : FS) (loc : Loc) : Decidable (fs.IsLeaf loc) :=
  inferInstanceAs (Decidable (_ ∧ _))

theorem IsLeaf.ne_nil {fs : FS} {loc : Loc} (h : fs.IsLeaf loc) : loc ≠ [] := by
  rintro rfl
  exact h.2 fs.get_root

theorem tree_update {fs : FS} {loc : Loc} (h : fs.IsLeaf loc) (node : Node) (l : Loc)
    (hl : l ≠ []) (hs : (nodeAt ((loc, node) :: fs.entries) l).isSome) :
    nodeAt ((loc, node) :: fs.entries) l.dropLast = some .dir := by
  have hsome : (nodeAt fs.entries l).isSome := by
    rw [nodeAt_cons h.ne_nil] at hs
    split at hs
    · rename_i he
      rw [he]
      exact Option.isSome_iff_ne_none.mpr h.1
    · exact hs
  have hparent := fs.tree l hl hsome
  rw [nodeAt_cons h.ne_nil, if_neg, hparent]
  rintro he
  rw [he] at hparent
  exact h.2 hparent

/-- Replace a file or a link. -/
def update (fs : FS) (loc : Loc) (node : Node) : FS :=
  if h : fs.IsLeaf loc then ⟨(loc, node) :: fs.entries, tree_update h node⟩ else fs

theorem get_update {fs : FS} {loc : Loc} (h : fs.IsLeaf loc) (node : Node) (l : Loc) :
    (fs.update loc node).get l = if l = loc then some node else fs.get l := by
  unfold update
  rw [dif_pos h]
  exact nodeAt_cons h.ne_nil node l

theorem get_update_ne (fs : FS) {loc l : Loc} (node : Node) (hl : l ≠ loc) :
    (fs.update loc node).get l = fs.get l := by
  by_cases h : fs.IsLeaf loc
  · rw [get_update h, if_neg hl]
  · rw [update, dif_neg h]

theorem lookup_filter {entries : List (Loc × Node)} (loc l : Loc) :
    (entries.filter fun e => e.1 ≠ loc).lookup l =
      if l = loc then none else entries.lookup l := by
  induction entries with
  | nil => simp
  | cons e es ih =>
    obtain ⟨k, n⟩ := e
    rw [List.filter_cons]
    by_cases hk : k = loc
    · subst hk
      simp only [ne_eq, not_true_eq_false, decide_false, Bool.false_eq_true, if_false]
      rw [ih]
      split
      · rfl
      · rename_i hne
        rw [lookup_cons_ne n hne]
    · simp only [ne_eq, hk, not_false_eq_true, decide_true, if_true]
      by_cases hl : l = k
      · subst hl
        rw [lookup_cons_self, lookup_cons_self, if_neg hk]
      · rw [lookup_cons_ne n hl, lookup_cons_ne n hl, ih]

theorem nodeAt_filter {entries : List (Loc × Node)} {loc : Loc} (hne : loc ≠ []) (l : Loc) :
    nodeAt (entries.filter fun e => e.1 ≠ loc) l =
      if l = loc then none else nodeAt entries l := by
  unfold nodeAt
  by_cases hl : l = []
  · rw [if_pos hl, if_neg (by rintro rfl; exact hne hl), if_pos hl]
  · rw [if_neg hl, if_neg hl, lookup_filter]

/-- An entry other than the root with nothing in it. -/
def Erasable (fs : FS) (loc : Loc) : Prop := loc ≠ [] ∧ fs.children loc = []

instance (fs : FS) (loc : Loc) : Decidable (fs.Erasable loc) :=
  inferInstanceAs (Decidable (_ ∧ _))

theorem tree_erase {fs : FS} {loc : Loc} (h : fs.Erasable loc) (l : Loc) (hl : l ≠ [])
    (hs : (nodeAt (fs.entries.filter fun e => e.1 ≠ loc) l).isSome) :
    nodeAt (fs.entries.filter fun e => e.1 ≠ loc) l.dropLast = some .dir := by
  obtain ⟨hne, hch⟩ := h
  rw [nodeAt_filter hne] at hs ⊢
  split at hs
  · cases hs
  · rw [if_neg, fs.tree l hl hs]
    intro hd
    have hmem : l.getLast hl ∈ fs.children loc := by
      rw [mem_children, ← hd, List.dropLast_append_getLast hl]
      exact hs
    rw [hch] at hmem
    cases hmem

/-- Remove an entry without children. -/
def erase (fs : FS) (loc : Loc) : FS :=
  if h : fs.Erasable loc then ⟨fs.entries.filter fun e => e.1 ≠ loc, tree_erase h⟩ else fs

theorem get_erase {fs : FS} {loc : Loc} (h : fs.Erasable loc) (l : Loc) :
    (fs.erase loc).get l = if l = loc then none else fs.get l := by
  unfold erase
  rw [dif_pos h]
  exact nodeAt_filter h.1 l

theorem get_erase_ne (fs : FS) {loc l : Loc} (hl : l ≠ loc) :
    (fs.erase loc).get l = fs.get l := by
  by_cases h : fs.Erasable loc
  · rw [get_erase h, if_neg hl]
  · rw [erase, dif_neg h]

/-- Nothing lies below a location that is missing or not a directory. -/
theorem get_eq_none_of_below {fs : FS} {base l : Loc} (hbase : fs.get base ≠ some .dir)
    (hpre : base <+: l) (hne : l ≠ base) : fs.get l = none := by
  obtain ⟨tail, rfl⟩ := hpre
  induction tail using List.reverseRecOn with
  | nil => simp at hne
  | append_singleton front name ih =>
    by_contra hsome
    obtain ⟨node, hnode⟩ := Option.ne_none_iff_exists'.mp hsome
    have hparent := get_parent (by simp) hnode
    rw [← List.append_assoc, List.dropLast_concat] at hparent
    by_cases hfront : front = []
    · rw [hfront, List.append_nil] at hparent
      exact hbase hparent
    · rw [ih (by simpa using hfront)] at hparent
      cases hparent

end FS

end Posix
