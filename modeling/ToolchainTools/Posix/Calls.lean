import ToolchainTools.Posix.Resolve
import ToolchainTools.CLib.File

/-!
# System calls

The state of the system as a process sees it: the tree, the working directory, and which
of the coming calls fail for a reason of their own (a full disk, missing permission).
Every change of the tree is also noted in `log`, newest first, with the location it
happened at after all links are resolved, so that a statement about the log is one about
every point of a run.
-/

namespace Posix

open CLib

inductive Effect where
  | mkdir (loc : Loc)
  | create (loc : Loc)
  | truncate (loc : Loc)
  | chmod (loc : Loc)
  | write (loc : Loc)
  | symlink (loc : Loc)
  | remove (loc : Loc)
  deriving DecidableEq

def Effect.loc : Effect → Loc
  | mkdir l | create l | truncate l | chmod l | write l | symlink l | remove l => l

structure OS where
  fs : FS
  cwd : Loc
  /-- Whether the call with this number fails. -/
  fault : Nat → Bool
  calls : Nat
  log : List Effect

namespace OS

/-- One more call has been made. -/
def tick (os : OS) : OS := { os with calls := os.calls + 1 }

/-- A call that fails with `bad` when its number is a faulty one. -/
def call {α : Type} (os : OS) (bad : α) (body : OS → α × OS) : α × OS :=
  if os.fault os.calls then (bad, os.tick) else body os.tick

def act (os : OS) (fs : FS) (e : Effect) : OS := { os with fs := fs, log := e :: os.log }

def locate (os : OS) (followLast : Bool) (path : Bytes) : Option Loc :=
  resolve os.fs os.cwd followLast path

/-- `mkdir` accepts trailing slashes behind the name it makes. -/
def stripSlashes (path : Bytes) : Bytes := (path.reverse.dropWhile (· = slash)).reverse

theorem stripSlashes_append (p : Bytes) :
    ∃ m, p = stripSlashes p ++ List.replicate m slash := by
  refine ⟨(p.reverse.takeWhile (· = slash)).length, ?_⟩
  have hsplit := List.takeWhile_append_dropWhile (p := fun b => decide (b = slash)) (l := p.reverse)
  have hrep : p.reverse.takeWhile (fun b => decide (b = slash)) =
      List.replicate (p.reverse.takeWhile (fun b => decide (b = slash))).length slash := by
    rw [List.eq_replicate_iff]
    refine ⟨rfl, fun b hb => ?_⟩
    simpa using List.mem_takeWhile_imp hb
  have hrev := congrArg List.reverse hsplit
  rw [List.reverse_append, List.reverse_reverse, hrep, List.reverse_replicate] at hrev
  exact hrev.symm

/-- `mkdir(path, 0755)`; true on success. -/
def mkdir (os : OS) (path : Bytes) : Bool × OS :=
  os.call false fun os =>
    match os.locate false (stripSlashes path) with
    | some loc =>
      if os.fs.Addable loc then (true, os.act (os.fs.add loc .dir) (.mkdir loc)) else (false, os)
    | none => (false, os)

/-- `symlink(target, path)`; true on success. -/
def symlink (os : OS) (target path : Bytes) : Bool × OS :=
  os.call false fun os =>
    match os.locate false path with
    | some loc =>
      if os.fs.Addable loc then (true, os.act (os.fs.add loc (.link target)) (.symlink loc))
      else (false, os)
    | none => (false, os)

/-- The mode of a file that `fopen` creates under the usual umask. -/
def createMode : Int := 0o644

/-- `fopen(path, "wb")`, which creates or empties the file behind all links. The file is
then known by its location. -/
def fopenWrite (os : OS) (path : Bytes) : Option Loc × OS :=
  os.call none fun os =>
    match os.locate true path with
    | some loc =>
      if os.fs.Addable loc then
        (some loc, os.act (os.fs.add loc (.file [] createMode)) (.create loc))
      else
        match os.fs.get loc with
        | some (.file _ m) => (some loc, os.act (os.fs.update loc (.file [] m)) (.truncate loc))
        | _ => (none, os)
    | none => (none, os)

/-- What `fchmod` keeps of a mode: the permissions and the three bits above them. -/
def modeBits (mode : Int) : Int := mode % 0o10000

def fchmod (os : OS) (loc : Loc) (mode : Int) : OS :=
  (os.call () fun os =>
    match os.fs.get loc with
    | some (.file c _) => ((), os.act (os.fs.update loc (.file c (modeBits mode))) (.chmod loc))
    | _ => ((), os)).2

/-- `fwrite` of all of `data` at the end; true when it was all written. -/
def fwrite (os : OS) (loc : Loc) (data : Bytes) : Bool × OS :=
  os.call false fun os =>
    match os.fs.get loc with
    | some (.file c m) => (true, os.act (os.fs.update loc (.file (c ++ data) m)) (.write loc))
    | _ => (false, os)

/-- `fopen(path, "rb")`. A directory can be opened but not read. -/
def fopenRead (os : OS) (path : Bytes) : Option CFile × OS :=
  os.call none fun os =>
    match (os.locate true path).bind os.fs.get with
    | some (.file c _) => (some (.ofBytes c), os)
    | some .dir => (some { CFile.ofBytes [] with badAt := some 0 }, os)
    | _ => (none, os)

/-- `unlink` and `unlinkat` of the entry at `loc`. -/
def unlinkAt (os : OS) (loc : Loc) : OS :=
  (os.call () fun os =>
    if os.fs.IsLeaf loc then ((), os.act (os.fs.erase loc) (.remove loc)) else ((), os)).2

/-- `rmdir` and `unlinkat` with `AT_REMOVEDIR` of the directory at `loc`. -/
def rmdirAt (os : OS) (loc : Loc) : OS :=
  (os.call () fun os =>
    if os.fs.get loc = some .dir ∧ os.fs.Erasable loc then
      ((), os.act (os.fs.erase loc) (.remove loc))
    else ((), os)).2

/-- `unlink(path)`, whose result nobody looks at. -/
def unlink (os : OS) (path : Bytes) : OS :=
  match os.locate false path with
  | some loc => os.unlinkAt loc
  | none => os.tick

/-- `rmdir(path)`, whose result nobody looks at. It accepts trailing slashes but neither `.` nor
`..` as the last component, and does not follow a link. -/
def rmdir (os : OS) (path : Bytes) : OS :=
  if (components (stripSlashes path)).getLast? = some dot ∨
      (components (stripSlashes path)).getLast? = some dotdot then os.tick
  else
    match os.locate false (stripSlashes path) with
    | some loc => os.rmdirAt loc
    | none => os.tick

/-- `open(path, O_RDONLY)`: the place that the descriptor refers to. -/
def openRead (os : OS) (path : Bytes) : Option Loc × OS :=
  os.call none fun os =>
    match os.locate true path with
    | some loc => if os.fs.get loc = none then (none, os) else (some loc, os)
    | none => (none, os)

/-- `open(path, O_CREAT | O_RDONLY, mode)` of a file that is then read as a whole. -/
def openCreate (os : OS) (path : Bytes) (mode : Int) : Option Bytes × OS :=
  os.call none fun os =>
    match os.locate true path with
    | some loc =>
      if os.fs.Addable loc then
        (some [], os.act (os.fs.add loc (.file [] mode)) (.create loc))
      else
        match os.fs.get loc with
        | some (.file c _) => (some c, os)
        | _ => (none, os)
    | none => (none, os)

/-- `fopen(path, "r+b")`. -/
def fopenUpdate (os : OS) (path : Bytes) : Option CFile × OS :=
  os.call none fun os =>
    match (os.locate true path).bind os.fs.get with
    | some (.file c _) => (some (.ofBytes c), os)
    | _ => (none, os)

/-- `rename` of a file or a link onto one or onto a free name; true on success. -/
def rename (os : OS) (old new : Bytes) : Bool × OS :=
  os.call false fun os =>
    match os.locate false old, os.locate false new with
    | some a, some b =>
      match os.fs.get a with
      | none => (false, os)
      | some .dir => (false, os)
      | some node =>
        if a = b then (true, os)
        else if os.fs.Addable b then
          (true, (os.act (os.fs.erase a) (.remove a)).act ((os.fs.erase a).add b node) (.create b))
        else if os.fs.IsLeaf b then
          (true, (os.act (os.fs.erase a) (.remove a)).act ((os.fs.erase a).update b node) (.create b))
        else (false, os)
    | _, _ => (false, os)

/-! ## What a call does

For each call: it only counts itself, or it makes its one change. -/

@[simp] theorem tick_fs (os : OS) : os.tick.fs = os.fs := rfl
@[simp] theorem tick_cwd (os : OS) : os.tick.cwd = os.cwd := rfl
@[simp] theorem tick_fault (os : OS) : os.tick.fault = os.fault := rfl
@[simp] theorem tick_log (os : OS) : os.tick.log = os.log := rfl
@[simp] theorem act_fs (os : OS) (fs : FS) (e : Effect) : (os.act fs e).fs = fs := rfl
@[simp] theorem act_cwd (os : OS) (fs : FS) (e : Effect) : (os.act fs e).cwd = os.cwd := rfl
@[simp] theorem act_fault (os : OS) (fs : FS) (e : Effect) : (os.act fs e).fault = os.fault := rfl
@[simp] theorem act_log (os : OS) (fs : FS) (e : Effect) : (os.act fs e).log = e :: os.log := rfl

/-- Without faults a call is its body. -/
theorem call_good {α : Type} {os : OS} {bad : α} {body : OS → α × OS}
    (h : os.fault os.calls = false) : os.call bad body = body os.tick := by
  simp [call, h]

theorem mkdir_cases (os : OS) (path : Bytes) :
    os.mkdir path = (false, os.tick) ∨
      ∃ loc, os.locate false (stripSlashes path) = some loc ∧ os.fs.Addable loc ∧
        os.mkdir path = (true, os.tick.act (os.fs.add loc .dir) (.mkdir loc)) := by
  unfold mkdir call
  split
  · exact Or.inl rfl
  · cases hloc : os.locate false (stripSlashes path) with
    | none =>
      left
      simp only [locate, tick_fs, tick_cwd] at hloc ⊢
      rw [hloc]
    | some loc =>
      have hloc' : os.tick.locate false (stripSlashes path) = some loc := hloc
      simp only [hloc']
      split
      · rename_i h
        exact Or.inr ⟨loc, rfl, h, rfl⟩
      · exact Or.inl rfl

theorem symlink_cases (os : OS) (target path : Bytes) :
    os.symlink target path = (false, os.tick) ∨
      ∃ loc, os.locate false path = some loc ∧ os.fs.Addable loc ∧
        os.symlink target path =
          (true, os.tick.act (os.fs.add loc (.link target)) (.symlink loc)) := by
  unfold symlink call
  split
  · exact Or.inl rfl
  · cases hloc : os.locate false path with
    | none =>
      left
      simp only [locate, tick_fs, tick_cwd] at hloc ⊢
      rw [hloc]
    | some loc =>
      have hloc' : os.tick.locate false path = some loc := hloc
      simp only [hloc']
      split
      · rename_i h
        exact Or.inr ⟨loc, rfl, h, rfl⟩
      · exact Or.inl rfl

theorem fopenWrite_cases (os : OS) (path : Bytes) :
    os.fopenWrite path = (none, os.tick) ∨
      ∃ loc, os.locate true path = some loc ∧
        ((os.fs.Addable loc ∧ os.fopenWrite path =
            (some loc, os.tick.act (os.fs.add loc (.file [] createMode)) (.create loc))) ∨
          ∃ c m, os.fs.get loc = some (.file c m) ∧ os.fopenWrite path =
            (some loc, os.tick.act (os.fs.update loc (.file [] m)) (.truncate loc))) := by
  unfold fopenWrite call
  split
  · exact Or.inl rfl
  · cases hloc : os.locate true path with
    | none =>
      left
      simp only [locate, tick_fs, tick_cwd] at hloc ⊢
      rw [hloc]
    | some loc =>
      have hloc' : os.tick.locate true path = some loc := hloc
      simp only [hloc']
      split
      · rename_i h
        exact Or.inr ⟨loc, rfl, Or.inl ⟨h, rfl⟩⟩
      · split
        · rename_i c m hg
          exact Or.inr ⟨loc, rfl, Or.inr ⟨c, m, hg, rfl⟩⟩
        · exact Or.inl rfl

theorem fchmod_cases (os : OS) (loc : Loc) (mode : Int) :
    os.fchmod loc mode = os.tick ∨
      ∃ c m, os.fs.get loc = some (.file c m) ∧
        os.fchmod loc mode =
          os.tick.act (os.fs.update loc (.file c (modeBits mode))) (.chmod loc) := by
  unfold fchmod call
  split
  · exact Or.inl rfl
  · dsimp only
    split
    · rename_i c m hg
      exact Or.inr ⟨c, m, hg, rfl⟩
    · exact Or.inl rfl

theorem fwrite_cases (os : OS) (loc : Loc) (data : Bytes) :
    os.fwrite loc data = (false, os.tick) ∨
      ∃ c m, os.fs.get loc = some (.file c m) ∧ os.fwrite loc data =
        (true, os.tick.act (os.fs.update loc (.file (c ++ data) m)) (.write loc)) := by
  unfold fwrite call
  split
  · exact Or.inl rfl
  · dsimp only
    split
    · rename_i c m hg
      exact Or.inr ⟨c, m, hg, rfl⟩
    · exact Or.inl rfl

/-- A file that is not a directory has nothing in it. -/
theorem erasable_of_isLeaf {fs : FS} {loc : Loc} (h : fs.IsLeaf loc) : fs.Erasable loc := by
  refine ⟨h.ne_nil, List.eq_nil_iff_forall_not_mem.mpr fun name hname => ?_⟩
  obtain ⟨node, hnode⟩ := Option.isSome_iff_exists.mp (FS.mem_children.mp hname)
  have := FS.get_parent (by simp) hnode
  rw [List.dropLast_concat] at this
  exact h.2 this

theorem isLeaf_of_file {fs : FS} {loc : Loc} {c : Bytes} {m : Int}
    (h : fs.get loc = some (.file c m)) : fs.IsLeaf loc := by
  constructor <;> simp [h]

theorem fopenRead_os (os : OS) (path : Bytes) : (os.fopenRead path).2 = os.tick := by
  unfold fopenRead call
  split
  · rfl
  · dsimp only
    split <;> rfl

theorem unlinkAt_cases (os : OS) (loc : Loc) :
    os.unlinkAt loc = os.tick ∨
      os.fs.IsLeaf loc ∧ os.unlinkAt loc = os.tick.act (os.fs.erase loc) (.remove loc) := by
  unfold unlinkAt call
  split
  · exact Or.inl rfl
  · dsimp only
    split
    · rename_i h
      exact Or.inr ⟨h, rfl⟩
    · exact Or.inl rfl

theorem rmdirAt_cases (os : OS) (loc : Loc) :
    os.rmdirAt loc = os.tick ∨
      os.fs.Erasable loc ∧ os.rmdirAt loc = os.tick.act (os.fs.erase loc) (.remove loc) := by
  unfold rmdirAt call
  split
  · exact Or.inl rfl
  · dsimp only
    split
    · rename_i h
      exact Or.inr ⟨h.2, rfl⟩
    · exact Or.inl rfl

end OS

end Posix
