import ToolchainTools.Posix.Calls

/-!
# Entries of the working directory

A program that keeps its own files names them by a single name in its working directory.
As long as such a slot is free or holds a regular file, every call on it does what it
says or, when it is a faulty one, nothing: `After` describes the system after a number of
calls by what each location then holds.
-/

namespace Posix

open CLib

/-- The place of a name in the working directory. -/
def OS.at (os : OS) (name : Name) : Loc := os.cwd ++ [name]

/-- The name of an entry of the working directory that is missing or a regular file. -/
structure Slot (os : OS) (name : Name) : Prop where
  ordinary : Ordinary name
  cwd : os.fs.get os.cwd = some .dir
  plain : os.fs.get (os.at name) = none ∨ ∃ c m, os.fs.get (os.at name) = some (.file c m)

/-- The system after `n` calls that leave every location with what `view` says. -/
structure After (os : OS) (n : Nat) (view : Loc → Option Node) (os' : OS) : Prop where
  get : ∀ l, os'.fs.get l = view l
  cwd : os'.cwd = os.cwd
  fault : os'.fault = os.fault
  calls : os'.calls = os.calls + n

theorem After.tick (os : OS) : After os 1 os.fs.get os.tick := ⟨fun _ => rfl, rfl, rfl, rfl⟩

theorem After.trans {os os' os'' : OS} {n k : Nat} {view view' : Loc → Option Node}
    (h : After os n view os') (h' : After os' k view' os'') : After os (n + k) view' os'' :=
  ⟨h'.get, h'.cwd.trans h.cwd, h'.fault.trans h.fault, by rw [h'.calls, h.calls, Nat.add_assoc]⟩

theorem After.tick_right {os os' : OS} {n : Nat} {view : Loc → Option Node}
    (h : After os n view os') : After os (n + 1) view os'.tick :=
  ⟨h.get, h.cwd, h.fault, congrArg (· + 1) h.calls⟩

theorem After.at_eq {os os' : OS} {n : Nat} {view : Loc → Option Node} (h : After os n view os')
    (name : Name) : os'.at name = os.at name := by
  unfold OS.at
  rw [h.cwd]

theorem OS.at_ne_cwd (os : OS) (name : Name) : os.at name ≠ os.cwd := by
  unfold OS.at
  intro h
  simpa using congrArg List.length h

theorem OS.at_inj {os : OS} {a b : Name} (h : os.at a = os.at b) : a = b := by
  simpa [OS.at] using h

namespace Slot

variable {os : OS} {name : Name}

theorem locate (h : Slot os name) (followLast : Bool) :
    os.locate followLast name = some (os.at name) := by
  obtain ⟨hne, hdot, hdotdot, -⟩ := h.ordinary
  have hsteps : ∀ follow, walkUntil os.fs followLast follow os.cwd [name] = some (os.at name) := by
    intro follow
    unfold walkUntil
    rw [if_neg (by simp [hne, hdot]), if_neg hdotdot]
    rcases h.plain with hp | ⟨c, m, hp⟩
    all_goals
      unfold OS.at at hp
      simp only [hp, if_true]
      rfl
  unfold OS.locate resolve
  rw [if_neg hne, h.ordinary.startOf, h.ordinary.components]
  exact hsteps _

theorem addable (h : Slot os name) (hfree : os.fs.get (os.at name) = none) :
    os.fs.Addable (os.at name) := by
  refine ⟨by simp [OS.at], hfree, ?_⟩
  rw [OS.at, List.dropLast_concat]
  exact h.cwd

/-- A slot stays one when it is freed or filled with a file. -/
theorem after {n : Nat} {view : Loc → Option Node} {os' : OS} (h : Slot os name)
    (ha : After os n view os') (hcwd : view os.cwd = some .dir)
    (hplain : view (os.at name) = none ∨ ∃ c m, view (os.at name) = some (.file c m)) :
    Slot os' name := by
  refine ⟨h.ordinary, ?_, ?_⟩
  · rw [ha.cwd, ha.get]
    exact hcwd
  · rw [ha.at_eq, ha.get]
    exact hplain

theorem fopenWrite (h : Slot os name) (hgood : os.fault os.calls = false) :
    ∃ m os', os.fopenWrite name = (some (os.at name), os') ∧
      After os 1 (Function.update os.fs.get (os.at name) (some (.file [] m))) os' := by
  have hloc : os.tick.locate true name = some (os.at name) := h.locate true
  unfold OS.fopenWrite
  rw [OS.call_good hgood]
  simp only [hloc]
  by_cases hadd : os.fs.Addable (os.at name)
  · refine ⟨OS.createMode, _, if_pos hadd, ?_, rfl, rfl, rfl⟩
    intro l
    rw [OS.act_fs, OS.tick_fs, FS.get_add hadd, Function.update_apply]
  · rcases h.plain with hp | ⟨c, m, hp⟩
    · exact absurd (h.addable hp) hadd
    · refine ⟨m, os.tick.act (os.fs.update (os.at name) (.file [] m)) (.truncate (os.at name)),
        ?_, ?_, rfl, rfl, rfl⟩
      · simp only [OS.tick_fs, if_neg hadd, hp]
      · intro l
        rw [OS.act_fs, FS.get_update (OS.isLeaf_of_file hp), Function.update_apply]

theorem fopenRead_missing (h : Slot os name) (hfree : os.fs.get (os.at name) = none) :
    os.fopenRead name = (none, os.tick) := by
  have hloc : os.tick.locate true name = some (os.at name) := h.locate true
  unfold OS.fopenRead OS.call
  split
  · rfl
  · simp [hloc, hfree]

theorem fopenRead_file (h : Slot os name) {c : Bytes} {m : Int}
    (hfile : os.fs.get (os.at name) = some (.file c m)) (hgood : os.fault os.calls = false) :
    os.fopenRead name = (some (.ofBytes c), os.tick) := by
  have hloc : os.tick.locate true name = some (os.at name) := h.locate true
  unfold OS.fopenRead
  rw [OS.call_good hgood]
  simp [hloc, hfile]

theorem unlink_file (h : Slot os name) {c : Bytes} {m : Int}
    (hfile : os.fs.get (os.at name) = some (.file c m)) (hgood : os.fault os.calls = false) :
    After os 1 (Function.update os.fs.get (os.at name) none) (os.unlink name) := by
  have hleaf : os.tick.fs.IsLeaf (os.at name) := OS.isLeaf_of_file hfile
  have hdone : os.unlink name =
      os.tick.act (os.fs.erase (os.at name)) (.remove (os.at name)) := by
    unfold OS.unlink
    rw [h.locate false]
    dsimp only
    unfold OS.unlinkAt
    rw [OS.call_good hgood]
    rw [if_pos hleaf]
    rfl
  rw [hdone]
  refine ⟨?_, rfl, rfl, rfl⟩
  intro l
  rw [OS.act_fs, FS.get_erase (OS.erasable_of_isLeaf (OS.isLeaf_of_file hfile)),
    Function.update_apply]

end Slot

theorem unlink_fault {os : OS} (hbad : os.fault os.calls = true) (name : Name) :
    os.unlink name = os.tick := by
  unfold OS.unlink
  split
  · unfold OS.unlinkAt OS.call
    rw [if_pos hbad]
  · rfl

theorem fwrite_file {os : OS} {loc : Loc} {c : Bytes} {m : Int}
    (hfile : os.fs.get loc = some (.file c m)) (hgood : os.fault os.calls = false) (data : Bytes) :
    ∃ os', os.fwrite loc data = (true, os') ∧
      After os 1 (Function.update os.fs.get loc (some (.file (c ++ data) m))) os' := by
  refine ⟨os.tick.act (os.fs.update loc (.file (c ++ data) m)) (.write loc), ?_, ?_, rfl, rfl, rfl⟩
  · unfold OS.fwrite
    rw [OS.call_good hgood]
    simp only [OS.tick_fs, hfile]
  · intro l
    rw [OS.act_fs, FS.get_update (OS.isLeaf_of_file hfile), Function.update_apply]

theorem fwrite_fault {os : OS} (hbad : os.fault os.calls = true) (loc : Loc) (data : Bytes) :
    os.fwrite loc data = (false, os.tick) := by
  unfold OS.fwrite OS.call
  rw [if_pos hbad]

theorem rename_fault {os : OS} (hbad : os.fault os.calls = true) (old new : Name) :
    os.rename old new = (false, os.tick) := by
  unfold OS.rename OS.call
  rw [if_pos hbad]

/-- A file that is renamed replaces what is there. -/
theorem rename_slot {os : OS} {old new : Name} (ho : Slot os old) (hn : Slot os new)
    (hne : old ≠ new) {c : Bytes} {m : Int} (hfile : os.fs.get (os.at old) = some (.file c m))
    (hgood : os.fault os.calls = false) :
    ∃ os', os.rename old new = (true, os') ∧
      After os 1 (Function.update (Function.update os.fs.get (os.at old) none) (os.at new)
        (some (.file c m))) os' := by
  have hloc : os.tick.locate false old = some (os.at old) := ho.locate false
  have hloc' : os.tick.locate false new = some (os.at new) := hn.locate false
  have hleaf := OS.isLeaf_of_file hfile
  have hne' : os.at old ≠ os.at new := fun h => hne (OS.at_inj h)
  have herase := FS.get_erase (OS.erasable_of_isLeaf hleaf)
  have hfile' : os.tick.fs.get (os.at old) = some (.file c m) := hfile
  unfold OS.rename
  rw [OS.call_good hgood]
  simp only [hloc, hloc', hfile', if_neg hne']
  by_cases hadd : os.tick.fs.Addable (os.at new)
  · rw [if_pos hadd]
    refine ⟨_, rfl, ?_, rfl, rfl, rfl⟩
    intro l
    have hadd' : (os.fs.erase (os.at old)).Addable (os.at new) := by
      refine ⟨hadd.1, ?_, ?_⟩
      · rw [herase, if_neg hne'.symm]
        exact hadd.2.1
      · have hparent : (os.at new).dropLast ≠ os.at old := by
          rw [OS.at, List.dropLast_concat]
          exact (os.at_ne_cwd old).symm
        rw [herase, if_neg hparent]
        exact hadd.2.2
    rw [OS.act_fs, OS.tick_fs, FS.get_add hadd', herase, Function.update_apply,
      Function.update_apply]
  · rw [if_neg hadd]
    rcases hn.plain with hp | ⟨c', m', hp⟩
    · exact absurd (hn.addable hp) hadd
    · have hleaf' : os.tick.fs.IsLeaf (os.at new) := OS.isLeaf_of_file hp
      rw [if_pos hleaf']
      refine ⟨_, rfl, ?_, rfl, rfl, rfl⟩
      intro l
      have hupdate : (os.fs.erase (os.at old)).IsLeaf (os.at new) := by
        unfold FS.IsLeaf
        rw [herase, if_neg hne'.symm]
        exact hleaf'
      rw [OS.act_fs, OS.tick_fs, FS.get_update hupdate, herase, Function.update_apply,
        Function.update_apply]

end Posix
