import ToolchainTools.Posix.FileSystem

/-!
# Path resolution

A path is cut at its slashes; the empty component that a leading, doubled or trailing
slash leaves behind means the same as `.`, so a trailing slash asks for an existing
directory. `walk` resolves components from a directory, following symbolic links as
often as `symloopMax` allows. The last component may be missing, and is not followed
when `followLast` is false.

Two statements bound where a walk can end. When every link strictly below `base` has a
single ordinary name as its target, a walk without `..` that starts below `base` stays
below it (`walk_below`). A walk that meets no link ends at the place its text names
(`walk_lexical`).
-/

namespace Posix

open CLib

def slash : UInt8 := 47

def dot : Name := [46]

def dotdot : Name := [46, 46]

/-- The pieces of a path between its slashes. -/
def components : Bytes → List Name
  | [] => [[]]
  | b :: bs =>
    if b = slash then [] :: components bs
    else
      match components bs with
      | [] => [[b]]
      | c :: cs => (b :: c) :: cs

/-- A name that stands for an entry of the directory it is looked up in. -/
def Ordinary (n : Name) : Prop := n ≠ [] ∧ n ≠ dot ∧ n ≠ dotdot ∧ slash ∉ n

instance (n : Name) : Decidable (Ordinary n) := inferInstanceAs (Decidable (_ ∧ _ ∧ _ ∧ _))

def symloopMax : Nat := 40

/-- Where the components of a link's target are looked up from. -/
def startOf (cur : Loc) (path : Bytes) : Loc := if path.head? = some slash then [] else cur

/-- One walk from `cur` that hands over to `follow` at the first symbolic link. -/
def walkUntil (fs : FS) (followLast : Bool) (follow : Loc → List Name → Option Loc) :
    Loc → List Name → Option Loc
  | cur, [] => some cur
  | cur, c :: cs =>
    if c = [] ∨ c = dot then walkUntil fs followLast follow cur cs
    else if c = dotdot then walkUntil fs followLast follow cur.dropLast cs
    else
      match fs.get (cur ++ [c]) with
      | some .dir => walkUntil fs followLast follow (cur ++ [c]) cs
      | some (.link t) =>
        if cs = [] ∧ ¬ followLast then some (cur ++ [c])
        else follow (startOf cur t) (components t ++ cs)
      | some (.file _ _) => if cs = [] then some (cur ++ [c]) else none
      | none => if cs = [] then some (cur ++ [c]) else none

/-- A walk that may follow `n` more links. -/
def walk (fs : FS) (followLast : Bool) : Nat → Loc → List Name → Option Loc
  | 0 => walkUntil fs followLast fun _ _ => none
  | n + 1 => walkUntil fs followLast (walk fs followLast n)

/-- The location a path names. The empty path names nothing. -/
def resolve (fs : FS) (cwd : Loc) (followLast : Bool) (path : Bytes) : Option Loc :=
  if path = [] then none
  else walk fs followLast symloopMax (startOf cwd path) (components path)

/-- The location that the text of a path names, whatever entries there are. -/
def lexical : Loc → List Name → Loc
  | cur, [] => cur
  | cur, c :: cs =>
    if c = [] ∨ c = dot then lexical cur cs
    else if c = dotdot then lexical cur.dropLast cs
    else lexical (cur ++ [c]) cs

/-! ## Components -/

theorem components_ne_nil (p : Bytes) : components p ≠ [] := by
  cases p with
  | nil => simp [components]
  | cons b bs =>
    unfold components
    split
    · simp
    · split <;> simp

theorem components_append (a b : Bytes) :
    components (a ++ slash :: b) = components a ++ components b := by
  induction a with
  | nil => simp [components]
  | cons x xs ih =>
    simp only [List.cons_append, components, ih]
    split
    · rfl
    · cases h : components xs with
      | nil => exact absurd h (components_ne_nil xs)
      | cons c cs => rfl

theorem components_of_not_mem {p : Bytes} (h : slash ∉ p) : components p = [p] := by
  induction p with
  | nil => rfl
  | cons b bs ih =>
    simp only [List.mem_cons, not_or] at h
    rw [components, if_neg (Ne.symm h.1), ih h.2]

theorem Ordinary.components {n : Name} (h : Ordinary n) : components n = [n] :=
  components_of_not_mem h.2.2.2

theorem Ordinary.startOf {n : Name} (h : Ordinary n) (cur : Loc) : startOf cur n = cur := by
  unfold Posix.startOf
  rw [if_neg]
  intro hh
  exact h.2.2.2 (List.mem_of_mem_head? hh)

/-! ## What a walk depends on -/

/-- Nothing leads on from a place that is missing or a regular file. -/
def Ends (fs : FS) (l : Loc) : Prop := fs.get l = none ∨ ∃ c m, fs.get l = some (.file c m)

theorem walkUntil_congr {fs fs' : FS} (h : ∀ l, fs'.get l = fs.get l ∨ Ends fs' l ∧ Ends fs l)
    {followLast : Bool} {follow follow' : Loc → List Name → Option Loc}
    (hfollow : ∀ l cs, follow' l cs = follow l cs) (cur : Loc) (cs : List Name) :
    walkUntil fs' followLast follow' cur cs = walkUntil fs followLast follow cur cs := by
  induction cs generalizing cur with
  | nil => rfl
  | cons c cs ih =>
    unfold walkUntil
    split
    · exact ih cur
    · split
      · exact ih _
      · rcases h (cur ++ [c]) with heq | ⟨hends', hends⟩
        · rw [heq]
          split
          · exact ih _
          · rw [hfollow]
          · rfl
          · rfl
        · rcases hends' with hget' | ⟨_, _, hget'⟩ <;> rcases hends with hget | ⟨_, _, hget⟩
          all_goals rw [hget', hget]

theorem resolve_congr {fs fs' : FS} (h : ∀ l, fs'.get l = fs.get l ∨ Ends fs' l ∧ Ends fs l)
    (cwd : Loc) (followLast : Bool) (path : Bytes) :
    resolve fs' cwd followLast path = resolve fs cwd followLast path := by
  have hwalk : ∀ n cur cs, walk fs' followLast n cur cs = walk fs followLast n cur cs := by
    intro n
    induction n with
    | zero => exact walkUntil_congr h fun _ _ => rfl
    | succ n ih => exact walkUntil_congr h ih
  unfold resolve
  rw [hwalk]

/-! ## Text and place -/

theorem lexical_append (cur : Loc) (as bs : List Name) :
    lexical cur (as ++ bs) = lexical (lexical cur as) bs := by
  induction as generalizing cur with
  | nil => rfl
  | cons c cs ih =>
    simp only [List.cons_append, lexical]
    split
    · exact ih cur
    · split
      · exact ih _
      · exact ih _

theorem lexical_below {base cur : Loc} (hcur : base <+: cur) {cs : List Name}
    (hcs : dotdot ∉ cs) : base <+: lexical cur cs := by
  induction cs generalizing cur with
  | nil => exact hcur
  | cons c cs ih =>
    simp only [List.mem_cons, not_or] at hcs
    simp only [lexical, Ne.symm hcs.1, if_false]
    split
    · exact ih hcur hcs.2
    · exact ih (hcur.trans (List.prefix_append _ _)) hcs.2

/-! ## Walks that stay below a directory -/

/-- Every link strictly below `base` points to a neighbour by its name. -/
def FlatBelow (fs : FS) (base : Loc) : Prop :=
  ∀ l t, base <+: l → l ≠ base → fs.get l = some (.link t) → Ordinary t

theorem ne_of_below_concat {base cur : Loc} {c : Name} (h : base <+: cur) : cur ++ [c] ≠ base := by
  rintro he
  have := h.length_le
  rw [← he] at this
  simp at this

theorem walkUntil_below {fs : FS} {base : Loc} (hflat : FlatBelow fs base) {followLast : Bool}
    {follow : Loc → List Name → Option Loc}
    (hfollow : ∀ cur cs l, base <+: cur → dotdot ∉ cs → follow cur cs = some l → base <+: l)
    {cur : Loc} {cs : List Name} {l : Loc} (hcur : base <+: cur) (hcs : dotdot ∉ cs)
    (h : walkUntil fs followLast follow cur cs = some l) : base <+: l := by
  induction cs generalizing cur with
  | nil =>
    cases h
    exact hcur
  | cons c cs ih =>
    simp only [List.mem_cons, not_or] at hcs
    have hnext : base <+: cur ++ [c] := hcur.trans (List.prefix_append _ _)
    simp only [walkUntil, Ne.symm hcs.1, if_false] at h
    split at h
    · exact ih hcur hcs.2 h
    · split at h
      · exact ih hnext hcs.2 h
      · rename_i t ht
        split at h
        · cases h
          exact hnext
        · have ht' := hflat _ t hnext (ne_of_below_concat hcur) ht
          rw [ht'.startOf, ht'.components] at h
          refine hfollow _ _ _ hcur ?_ h
          simp only [List.cons_append, List.nil_append, List.mem_cons, not_or]
          exact ⟨Ne.symm ht'.2.2.1, hcs.2⟩
      · split at h
        · cases h
          exact hnext
        · cases h
      · split at h
        · cases h
          exact hnext
        · cases h

/-- A walk without `..` cannot leave a directory below which all links are flat. -/
theorem walk_below {fs : FS} {base : Loc} (hflat : FlatBelow fs base) {followLast : Bool}
    {n : Nat} {cur : Loc} {cs : List Name} {l : Loc} (hcur : base <+: cur)
    (hcs : dotdot ∉ cs) (h : walk fs followLast n cur cs = some l) : base <+: l := by
  induction n generalizing cur cs l with
  | zero => exact walkUntil_below hflat (by simp) hcur hcs h
  | succ n ih => exact walkUntil_below hflat (fun _ _ _ h1 h2 h3 => ih h1 h2 h3) hcur hcs h

/-! ## Walks along real directories -/

/-- No place that the components name on their way is a symbolic link. -/
def LinkFree (fs : FS) (cur : Loc) (cs : List Name) : Prop :=
  ∀ k t, fs.get (lexical cur (cs.take k)) ≠ some (.link t)

theorem LinkFree.take {fs : FS} {cur : Loc} {cs : List Name} (h : LinkFree fs cur cs) (k : Nat) :
    LinkFree fs cur (cs.take k) := by
  intro j t
  rw [List.take_take]
  exact h _ t

theorem LinkFree.tail {fs : FS} {cur : Loc} {c : Name} {cs : List Name}
    (h : LinkFree fs cur (c :: cs)) : LinkFree fs (lexical cur [c]) cs := by
  intro k t
  have := h (k + 1) t
  rwa [List.take_succ_cons, ← List.singleton_append, lexical_append] at this

/-- Components free of links lead to the places their text names, and when more components
follow, these places are directories. -/
theorem walkUntil_append {fs : FS} {followLast : Bool} {follow : Loc → List Name → Option Loc}
    {cur : Loc} {as bs : List Name} {l : Loc} (hfree : LinkFree fs cur as) (hbs : bs ≠ [])
    (hdir : fs.get cur = some .dir)
    (h : walkUntil fs followLast follow cur (as ++ bs) = some l) :
    (∀ k, fs.get (lexical cur (as.take k)) = some .dir) ∧
      walkUntil fs followLast follow (lexical cur as) bs = some l := by
  induction as generalizing cur with
  | nil => exact ⟨fun k => by rw [List.take_nil]; exact hdir, h⟩
  | cons c cs ih =>
    have hfree' := hfree.tail
    have hlink := hfree 1
    have hstep : fs.get (lexical cur [c]) = some .dir ∧
        walkUntil fs followLast follow (lexical cur [c]) (cs ++ bs) = some l := by
      simp only [List.cons_append, walkUntil] at h
      simp only [List.take_succ_cons, List.take_zero, lexical] at hlink ⊢
      split at h
      · rename_i hc
        simp only [hc, if_true]
        exact ⟨hdir, h⟩
      · rename_i hc
        simp only [hc, if_false] at hlink ⊢
        split at h
        · rename_i hdd
          simp only [hdd, if_true]
          refine ⟨?_, h⟩
          by_cases hcur : cur = []
          · rw [hcur]
            exact fs.get_root
          · exact FS.get_parent hcur hdir
        · rename_i hdd
          simp only [hdd, if_false] at hlink ⊢
          split at h
          · rename_i hd
            exact ⟨hd, h⟩
          · rename_i t ht
            exact absurd ht (hlink t)
          · simp [hbs] at h
          · simp [hbs] at h
    obtain ⟨hall, hwalk⟩ := ih hfree' hstep.1 hstep.2
    rw [← List.singleton_append, lexical_append]
    refine ⟨fun k => ?_, hwalk⟩
    cases k with
    | zero => exact hdir
    | succ k =>
      rw [List.singleton_append, List.take_succ_cons, ← List.singleton_append, lexical_append]
      exact hall k

theorem walk_append {fs : FS} {followLast : Bool} {n : Nat} {cur : Loc} {as bs : List Name}
    {l : Loc} (hfree : LinkFree fs cur as) (hbs : bs ≠ []) (hdir : fs.get cur = some .dir)
    (h : walk fs followLast n cur (as ++ bs) = some l) :
    (∀ k, fs.get (lexical cur (as.take k)) = some .dir) ∧
      walk fs followLast n (lexical cur as) bs = some l := by
  cases n with
  | zero => exact walkUntil_append hfree hbs hdir h
  | succ n => exact walkUntil_append hfree hbs hdir h

theorem walkUntil_lexical {fs : FS} {followLast : Bool}
    {follow : Loc → List Name → Option Loc} {cur : Loc} {cs : List Name} {l : Loc}
    (hfree : LinkFree fs cur cs) (h : walkUntil fs followLast follow cur cs = some l) :
    l = lexical cur cs := by
  induction cs generalizing cur with
  | nil =>
    cases h
    rfl
  | cons c cs ih =>
    have hfree' := hfree.tail
    have hlink := hfree 1
    simp only [walkUntil] at h
    simp only [lexical, List.take_succ_cons, List.take_zero] at hfree' hlink ⊢
    split at h
    · rename_i hc
      simp only [hc, if_true] at hfree' ⊢
      exact ih hfree' h
    · rename_i hc
      simp only [hc, if_false] at hfree' hlink ⊢
      split at h
      · rename_i hdd
        simp only [hdd, if_true] at hfree' ⊢
        exact ih hfree' h
      · rename_i hdd
        simp only [hdd, if_false] at hfree' hlink ⊢
        split at h
        · exact ih hfree' h
        · rename_i t ht
          exact absurd ht (hlink t)
        all_goals
          split at h
          · rename_i hnil
            cases h
            rw [hnil]
            rfl
          · cases h

theorem walk_lexical {fs : FS} {followLast : Bool} {n : Nat} {cur : Loc} {cs : List Name}
    {l : Loc} (hfree : LinkFree fs cur cs) (h : walk fs followLast n cur cs = some l) :
    l = lexical cur cs := by
  cases n with
  | zero => exact walkUntil_lexical hfree h
  | succ n => exact walkUntil_lexical hfree h

end Posix
