import ToolchainTools.Posix.Frames

/-!
# Calls along real directories

A path whose components all but the last lead through real directories ends where its text
says (`walk_way`). For such a path, and in a system where no call fails for a reason of its
own, this module says of each call that makes an entry what the tree then holds.
-/

namespace Posix

open CLib

/-- The places that the path goes through before its last component. -/
def way (start : Loc) (cs : List Name) : List Loc :=
  (List.range cs.length).map fun k => lexical start (cs.take k)

/-- No call fails for a reason of its own. -/
def Quiet (os : OS) : Prop := ∀ n, os.fault n = false

/-- A later system of the same process that holds what `view` says. -/
structure Becomes (os : OS) (view : Loc → Option Node) (os' : OS) : Prop where
  goes : Goes os os'
  get : ∀ l, os'.fs.get l = view l

variable {os os' os'' : OS} {start cur : Loc} {cs : List Name} {view : Loc → Option Node}

theorem Quiet.of_goes (h : Quiet os) (hgoes : Goes os os') : Quiet os' := by
  intro n
  rw [hgoes.fault]
  exact h n

theorem Quiet.tick (h : Quiet os) : Quiet os.tick := h

theorem becomes_tick (os : OS) : Becomes os os.fs.get os.tick := ⟨goes_tick os, fun _ => rfl⟩

theorem Becomes.trans {view' : Loc → Option Node} (h : Becomes os view os')
    (h' : Becomes os' view' os'') : Becomes os view' os'' :=
  ⟨h.goes.trans h'.goes, h'.get⟩

theorem Becomes.congr {view' : Loc → Option Node} (h : Becomes os view os')
    (heq : ∀ l, view l = view' l) : Becomes os view' os' :=
  ⟨h.goes, fun l => (h.get l).trans (heq l)⟩

/-! ## Ways -/

theorem mem_way {l : Loc} : l ∈ way start cs ↔ ∃ k < cs.length, lexical start (cs.take k) = l := by
  simp [way]

theorem lexical_cons (cur : Loc) (c : Name) (cs : List Name) :
    lexical cur (c :: cs) = lexical (lexical cur [c]) cs := by
  rw [← List.singleton_append, lexical_append]

/-- One more component goes on from the place reached. -/
theorem way_cons (cur : Loc) (c : Name) (cs : List Name) :
    way cur (c :: cs) = cur :: way (lexical cur [c]) cs := by
  unfold way
  rw [List.length_cons, List.range_succ_eq_map, List.map_cons, List.map_map]
  congr 1
  apply List.map_congr_left
  intro k _
  rw [Function.comp_apply, Nat.succ_eq_add_one, List.take_succ_cons, lexical_cons]

theorem way_append (cur : Loc) (as bs : List Name) :
    way cur (as ++ bs) = way cur as ++ way (lexical cur as) bs := by
  induction as generalizing cur with
  | nil => rfl
  | cons a as ih =>
    rw [List.cons_append, way_cons, way_cons, ih, ← lexical_cons]
    rfl

theorem way_of_append {as bs : List Name} (hbs : bs ≠ []) : lexical cur as ∈ way cur (as ++ bs) := by
  obtain ⟨b, bs, rfl⟩ := List.exists_cons_of_ne_nil hbs
  rw [way_append, way_cons]
  simp

/-- All directories on the way. -/
def Paved (fs : FS) (start : Loc) (cs : List Name) : Prop :=
  ∀ l ∈ way start cs, fs.get l = some .dir

theorem Paved.cons {fs : FS} {c : Name} (h : Paved fs cur (c :: cs)) :
    fs.get cur = some .dir ∧ Paved fs (lexical cur [c]) cs := by
  unfold Paved at h
  rw [way_cons] at h
  exact ⟨h cur List.mem_cons_self, fun l hl => h l (List.mem_cons_of_mem _ hl)⟩

theorem Paved.first {fs : FS} (h : Paved fs cur cs) (hne : cs ≠ []) : fs.get cur = some .dir := by
  obtain ⟨c, cs, rfl⟩ := List.exists_cons_of_ne_nil hne
  exact h.cons.1

theorem Paved.of_append {fs : FS} {as bs : List Name} (h : Paved fs cur (as ++ bs)) :
    Paved fs cur as := by
  intro l hl
  apply h
  rw [way_append]
  exact List.mem_append_left _ hl

/-! ## Walking -/

/-- A paved path ends where its text says, unless a link is there that is followed. -/
theorem walkUntil_way {fs : FS} {followLast : Bool} {follow : Loc → List Name → Option Loc}
    (hway : Paved fs cur cs)
    (hlast : followLast = true → ∀ t, fs.get (lexical cur cs) ≠ some (.link t)) :
    walkUntil fs followLast follow cur cs = some (lexical cur cs) := by
  induction cs generalizing cur with
  | nil => rfl
  | cons c cs ih =>
    obtain ⟨hcur, hnext⟩ := hway.cons
    rw [lexical_cons] at hlast ⊢
    have hgo := ih hnext hlast
    unfold walkUntil
    simp only [lexical] at hgo hnext hlast ⊢
    split
    · rename_i hc
      simpa only [hc, if_true] using hgo
    · rename_i hc
      split
      · rename_i hdd
        simpa only [if_neg hc, if_pos hdd] using hgo
      · rename_i hdd
        simp only [hc, hdd, if_false] at hgo hnext hlast ⊢
        cases cs with
        | nil =>
          -- the last component may be anything but a link that is followed
          simp only [lexical] at hlast ⊢
          cases hget : fs.get (cur ++ [c]) with
          | none => rfl
          | some node =>
            cases node with
            | dir => rfl
            | file content mode => rfl
            | link t =>
              cases followLast with
              | false => rfl
              | true => exact absurd hget (hlast rfl t)
        | cons d ds =>
          have hdir := hnext.cons.1
          simp only [hdir]
          exact hgo

theorem walk_way {fs : FS} {followLast : Bool} {n : Nat} (hway : Paved fs cur cs)
    (hlast : followLast = true → ∀ t, fs.get (lexical cur cs) ≠ some (.link t)) :
    walk fs followLast n cur cs = some (lexical cur cs) := by
  cases n with
  | zero => exact walkUntil_way hway hlast
  | succ n => exact walkUntil_way hway hlast

/-- A path that names a place, and meets no link, is paved. -/
theorem paved_of_walk {fs : FS} {followLast : Bool} {n : Nat} {l : Loc}
    (hfree : LinkFree fs cur cs) (hcur : fs.get cur = some .dir) (hne : cs ≠ [])
    (h : walk fs followLast n cur cs = some l) : Paved fs cur cs := by
  have hsplit := List.dropLast_append_getLast hne
  have hdrop : cs.dropLast = cs.take (cs.length - 1) := List.dropLast_eq_take
  rw [← hsplit] at h
  have hfree' : LinkFree fs cur cs.dropLast := by
    rw [hdrop]
    exact hfree.take _
  obtain ⟨hdirs, -⟩ := walk_append hfree' (by simp) hcur h
  intro l hl
  obtain ⟨k, hk, rfl⟩ := mem_way.mp hl
  have := hdirs k
  rwa [hdrop, List.take_take, Nat.min_eq_left (by omega)] at this

/-- What is missing at the end of a paved path can be added there. -/
theorem Paved.addable {fs : FS} (hway : Paved fs cur cs) (hcur : fs.get cur = some .dir)
    (hmiss : fs.get (lexical cur cs) = none) : fs.Addable (lexical cur cs) := by
  have hne : lexical cur cs ≠ [] := by
    intro h
    rw [h, FS.get_root] at hmiss
    cases hmiss
  refine ⟨hne, hmiss, ?_⟩
  induction cs generalizing cur with
  | nil =>
    rw [lexical, hcur] at hmiss
    cases hmiss
  | cons c cs ih =>
    obtain ⟨-, hnext⟩ := hway.cons
    rw [lexical_cons] at hmiss hne ⊢
    cases cs with
    | cons d ds => exact ih hnext hnext.cons.1 hmiss hne
    | nil =>
      simp only [lexical] at hmiss ⊢
      split
      · rename_i hc
        simp only [hc, if_true, hcur] at hmiss
        cases hmiss
      · rename_i hc
        split
        · rename_i hdd
          simp only [if_neg hc, if_pos hdd] at hmiss
          by_cases hroot : cur = []
          · rw [hroot, List.dropLast_nil, FS.get_root] at hmiss
            cases hmiss
          · rw [FS.get_parent hroot hcur] at hmiss
            cases hmiss
        · rw [List.dropLast_concat]
          exact hcur

/-! ## Making entries -/

theorem becomes_add {loc : Loc} (h : os.fs.Addable loc) (node : Node) (e : Effect) :
    Becomes os (Function.update os.fs.get loc (some node))
      (os.tick.act (os.fs.add loc node) e) := by
  refine ⟨goes_act .., fun l => ?_⟩
  rw [OS.act_fs, FS.get_add h, Function.update_apply]

theorem becomes_update {loc : Loc} (h : os.fs.IsLeaf loc) (node : Node) (e : Effect) :
    Becomes os (Function.update os.fs.get loc (some node))
      (os.tick.act (os.fs.update loc node) e) := by
  refine ⟨goes_act .., fun l => ?_⟩
  rw [OS.act_fs, FS.get_update h, Function.update_apply]

theorem locate_way (os : OS) {path : Bytes} {followLast : Bool} (hpath : path ≠ [])
    (hway : Paved os.fs (startOf os.cwd path) (components path))
    (hlast : followLast = true → ∀ t,
      os.fs.get (lexical (startOf os.cwd path) (components path)) ≠ some (.link t)) :
    os.locate followLast path = some (lexical (startOf os.cwd path) (components path)) := by
  unfold OS.locate resolve
  rw [if_neg hpath]
  exact walk_way hway hlast

/-- `mkdir` at the end of a paved path where nothing but a directory is. -/
theorem mkdir_way {path name : Bytes} (hquiet : Quiet os) (hname : OS.stripSlashes path = name)
    (hne : name ≠ []) (hway : Paved os.fs (startOf os.cwd name) (components name))
    (hplace : os.fs.get (lexical (startOf os.cwd name) (components name)) = none ∨
      os.fs.get (lexical (startOf os.cwd name) (components name)) = some .dir) :
    Becomes os (Function.update os.fs.get (lexical (startOf os.cwd name) (components name))
      (some .dir)) (os.mkdir path).2 := by
  have hloc : os.tick.locate false name =
      some (lexical (startOf os.cwd name) (components name)) :=
    locate_way os hne hway (by simp)
  unfold OS.mkdir
  rw [OS.call_good (hquiet _), hname]
  simp only [hloc]
  rcases hplace with hmiss | hdir
  · have hadd := hway.addable (hway.first (components_ne_nil name)) hmiss
    rw [if_pos (show os.tick.fs.Addable _ from hadd)]
    exact becomes_add hadd _ _
  · have hadd : ¬ os.tick.fs.Addable (lexical (startOf os.cwd name) (components name)) := by
      intro h
      have := h.2.1
      rw [OS.tick_fs, hdir] at this
      cases this
    rw [if_neg hadd]
    refine (becomes_tick os).congr fun l => ?_
    rw [Function.update_apply]
    split
    · rename_i hl
      rw [hl, hdir]
    · rfl

/-- `fopen` for writing at the end of a paved path: a missing file is made, a directory is
refused. -/
theorem fopenWrite_way {path : Bytes} (hquiet : Quiet os) (hpath : path ≠ [])
    (hway : Paved os.fs (startOf os.cwd path) (components path)) :
    (os.fs.get (lexical (startOf os.cwd path) (components path)) = none →
      ∃ os', os.fopenWrite path =
          (some (lexical (startOf os.cwd path) (components path)), os') ∧
        Becomes os (Function.update os.fs.get
          (lexical (startOf os.cwd path) (components path))
          (some (.file [] OS.createMode))) os') ∧
    (os.fs.get (lexical (startOf os.cwd path) (components path)) = some .dir →
      os.fopenWrite path = (none, os.tick)) := by
  constructor
  · intro hmiss
    have hloc : os.tick.locate true path =
        some (lexical (startOf os.cwd path) (components path)) :=
      locate_way os hpath hway (fun _ t h => by rw [hmiss] at h; cases h)
    have hadd := hway.addable (hway.first (components_ne_nil path)) hmiss
    refine ⟨_, ?_, becomes_add hadd (.file [] OS.createMode)
      (.create (lexical (startOf os.cwd path) (components path)))⟩
    unfold OS.fopenWrite
    rw [OS.call_good (hquiet _)]
    simp only [hloc]
    rw [if_pos (show os.tick.fs.Addable _ from hadd)]
    rfl
  · intro hdir
    have hloc : os.tick.locate true path =
        some (lexical (startOf os.cwd path) (components path)) :=
      locate_way os hpath hway (fun _ t h => by rw [hdir] at h; cases h)
    have hadd : ¬ os.tick.fs.Addable (lexical (startOf os.cwd path) (components path)) := by
      intro h
      have := h.2.1
      rw [OS.tick_fs, hdir] at this
      cases this
    unfold OS.fopenWrite
    rw [OS.call_good (hquiet _)]
    simp only [hloc]
    rw [if_neg hadd]
    simp only [OS.tick_fs, hdir]

/-- `symlink` at the end of a paved path where nothing is. -/
theorem symlink_way {path : Bytes} (target : Bytes) (hquiet : Quiet os) (hpath : path ≠ [])
    (hway : Paved os.fs (startOf os.cwd path) (components path))
    (hmiss : os.fs.get (lexical (startOf os.cwd path) (components path)) = none) :
    ∃ os', os.symlink target path = (true, os') ∧
      Becomes os (Function.update os.fs.get (lexical (startOf os.cwd path) (components path))
        (some (.link target))) os' := by
  have hloc : os.tick.locate false path =
      some (lexical (startOf os.cwd path) (components path)) :=
    locate_way os hpath hway (by simp)
  have hadd := hway.addable (hway.first (components_ne_nil path)) hmiss
  refine ⟨_, ?_, becomes_add hadd (.link target)
    (.symlink (lexical (startOf os.cwd path) (components path)))⟩
  unfold OS.symlink
  rw [OS.call_good (hquiet _)]
  simp only [hloc]
  rw [if_pos (show os.tick.fs.Addable _ from hadd)]
  rfl

/-- A link is only made at the end of a paved path, and where nothing is. -/
theorem paved_of_symlink {target path : Bytes}
    (hfree : LinkFree os.fs (startOf os.cwd path) (components path))
    (hstart : os.fs.get (startOf os.cwd path) = some .dir)
    (h : (os.symlink target path).1 = true) :
    Paved os.fs (startOf os.cwd path) (components path) ∧
      os.fs.Addable (lexical (startOf os.cwd path) (components path)) := by
  rcases os.symlink_cases target path with hfail | ⟨loc, hloc, hadd, -⟩
  · rw [hfail] at h
    cases h
  · unfold OS.locate resolve at hloc
    split at hloc
    · cases hloc
    · have hplace := walk_lexical hfree hloc
      subst hplace
      exact ⟨paved_of_walk hfree hstart (components_ne_nil path) hloc, hadd⟩

theorem fchmod_file {loc : Loc} {c : Bytes} {m : Int} (hquiet : Quiet os)
    (hfile : os.fs.get loc = some (.file c m)) (mode : Int) :
    Becomes os (Function.update os.fs.get loc (some (.file c (OS.modeBits mode))))
      (os.fchmod loc mode) := by
  unfold OS.fchmod
  rw [OS.call_good (hquiet _)]
  simp only [OS.tick_fs, hfile]
  exact becomes_update (OS.isLeaf_of_file hfile) _ _

end Posix
