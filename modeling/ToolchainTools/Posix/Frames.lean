import ToolchainTools.Posix.Slots

/-!
# What calls leave alone

`Goes` says that a system is a later one of the same process. `Only` adds that nothing has
changed but some entries of the working directory, and that these are still missing or
regular files; every call on a slot is of that kind, whether it succeeds or not.
-/

namespace Posix

open CLib

/-- A later system of the same process. -/
structure Goes (os os' : OS) : Prop where
  cwd : os'.cwd = os.cwd
  fault : os'.fault = os.fault

theorem Goes.refl (os : OS) : Goes os os := ⟨rfl, rfl⟩

theorem Goes.trans {os os' os'' : OS} (h : Goes os os') (h' : Goes os' os'') : Goes os os'' :=
  ⟨h'.cwd.trans h.cwd, h'.fault.trans h.fault⟩

theorem Goes.at_eq {os os' : OS} (h : Goes os os') (name : Name) : os'.at name = os.at name := by
  unfold OS.at
  rw [h.cwd]

theorem goes_tick (os : OS) : Goes os os.tick := ⟨rfl, rfl⟩

theorem goes_act (os : OS) (fs : FS) (e : Effect) : Goes os (os.tick.act fs e) := ⟨rfl, rfl⟩

theorem goes_mkdir (os : OS) (path : Bytes) : Goes os (os.mkdir path).2 := by
  rcases os.mkdir_cases path with h | ⟨loc, -, -, h⟩
  · rw [h]
    exact goes_tick os
  · rw [h]
    exact goes_act ..

theorem goes_symlink (os : OS) (target path : Bytes) : Goes os (os.symlink target path).2 := by
  rcases os.symlink_cases target path with h | ⟨loc, -, -, h⟩
  · rw [h]
    exact goes_tick os
  · rw [h]
    exact goes_act ..

theorem goes_fopenWrite (os : OS) (path : Bytes) : Goes os (os.fopenWrite path).2 := by
  rcases os.fopenWrite_cases path with h | ⟨loc, -, ⟨-, h⟩ | ⟨c, m, -, h⟩⟩
  · rw [h]
    exact goes_tick os
  · rw [h]
    exact goes_act ..
  · rw [h]
    exact goes_act ..

theorem goes_fchmod (os : OS) (loc : Loc) (mode : Int) : Goes os (os.fchmod loc mode) := by
  rcases os.fchmod_cases loc mode with h | ⟨c, m, -, h⟩
  · rw [h]
    exact goes_tick os
  · rw [h]
    exact goes_act ..

theorem goes_fwrite (os : OS) (loc : Loc) (data : Bytes) : Goes os (os.fwrite loc data).2 := by
  rcases os.fwrite_cases loc data with h | ⟨c, m, -, h⟩
  · rw [h]
    exact goes_tick os
  · rw [h]
    exact goes_act ..

theorem goes_unlinkAt (os : OS) (loc : Loc) : Goes os (os.unlinkAt loc) := by
  rcases os.unlinkAt_cases loc with h | ⟨-, h⟩
  · rw [h]
    exact goes_tick os
  · rw [h]
    exact goes_act ..

theorem goes_rmdirAt (os : OS) (loc : Loc) : Goes os (os.rmdirAt loc) := by
  rcases os.rmdirAt_cases loc with h | ⟨-, h⟩
  · rw [h]
    exact goes_tick os
  · rw [h]
    exact goes_act ..

theorem goes_unlink (os : OS) (path : Bytes) : Goes os (os.unlink path) := by
  unfold OS.unlink
  split
  · exact goes_unlinkAt os _
  · exact goes_tick os

theorem goes_rmdir (os : OS) (path : Bytes) : Goes os (os.rmdir path) := by
  unfold OS.rmdir
  split
  · exact goes_tick os
  · split
    · exact goes_rmdirAt os _
    · exact goes_tick os

theorem openRead_os (os : OS) (path : Bytes) : (os.openRead path).2 = os.tick := by
  unfold OS.openRead OS.call
  split
  · rfl
  · dsimp only
    split
    · split <;> rfl
    · rfl

theorem fopenUpdate_os (os : OS) (path : Bytes) : (os.fopenUpdate path).2 = os.tick := by
  unfold OS.fopenUpdate OS.call
  split
  · rfl
  · dsimp only
    split <;> rfl

/-! ## Entries of the working directory -/

/-- Nothing but the entries `names` of the working directory has changed, and nothing is logged
that was done elsewhere. -/
structure Only (names : List Name) (os os' : OS) : Prop where
  goes : Goes os os'
  get : ∀ l, (∀ n ∈ names, l ≠ os.at n) → os'.fs.get l = os.fs.get l
  slots : ∀ n ∈ names, Slot os n → Slot os' n
  log : ∃ new, os'.log = new ++ os.log ∧ ∀ e ∈ new, ∃ n ∈ names, e.loc = os.at n

namespace Only

variable {names : List Name} {os os' os'' : OS}

theorem cwd_ne (os : OS) (n : Name) : os.cwd ≠ os.at n := (os.at_ne_cwd n).symm

theorem refl (names : List Name) (os : OS) : Only names os os :=
  ⟨.refl os, fun _ _ => rfl, fun _ _ h => h, [], rfl, by simp⟩

theorem trans (h : Only names os os') (h' : Only names os' os'') : Only names os os'' := by
  refine ⟨h.goes.trans h'.goes, ?_, fun n hn hs => h'.slots n hn (h.slots n hn hs), ?_⟩
  · intro l hl
    rw [h'.get l fun n hn => by rw [h.goes.at_eq]; exact hl n hn, h.get l hl]
  · obtain ⟨new, hlog, hnew⟩ := h.log
    obtain ⟨new', hlog', hnew'⟩ := h'.log
    refine ⟨new' ++ new, by rw [hlog', hlog, List.append_assoc], fun e he => ?_⟩
    rcases List.mem_append.mp he with he | he
    · obtain ⟨n, hn, hloc⟩ := hnew' e he
      exact ⟨n, hn, hloc.trans (h.goes.at_eq n)⟩
    · exact hnew e he

/-- A slot that is not among the entries has not changed. -/
theorem get_slot (h : Only names os os') {n : Name} (hn : n ∉ names) :
    os'.fs.get (os'.at n) = os.fs.get (os.at n) := by
  rw [h.goes.at_eq]
  exact h.get _ fun k hk heq => hn (by rw [OS.at_inj heq]; exact hk)

theorem slot (h : Only names os os') {n : Name} (hs : Slot os n) : Slot os' n := by
  by_cases hn : n ∈ names
  · exact h.slots n hn hs
  · refine ⟨hs.ordinary, ?_, ?_⟩
    · rw [h.goes.cwd, h.get _ fun k _ => cwd_ne os k]
      exact hs.cwd
    · rw [h.get_slot hn]
      exact hs.plain

theorem mono {names' : List Name} (h : Only names os os') (hsub : ∀ n ∈ names, n ∈ names') :
    Only names' os os' :=
  ⟨h.goes, fun l hl => h.get l fun n hn => hl n (hsub n hn), fun _ _ hs => h.slot hs,
    h.log.imp fun _ hlog => ⟨hlog.1, fun e he => (hlog.2 e he).imp fun n hn => ⟨hsub n hn.1, hn.2⟩⟩⟩

theorem tick (names : List Name) (os : OS) : Only names os os.tick :=
  ⟨goes_tick os, fun _ _ => rfl, fun _ _ h => ⟨h.ordinary, h.cwd, h.plain⟩, [], rfl, by simp⟩

/-- A change at one entry, which leaves it missing or a regular file. -/
theorem of_act {name : Name} {fs : FS} {e : Effect} (he : e.loc = os.at name)
    (hframe : ∀ l, l ≠ os.at name → fs.get l = os.fs.get l)
    (hplain : fs.get (os.at name) = none ∨ ∃ c m, fs.get (os.at name) = some (.file c m)) :
    Only [name] os (os.tick.act fs e) := by
  refine ⟨goes_act .., fun l hl => hframe l (hl name List.mem_cons_self), ?_, [e], rfl, ?_⟩
  · intro n hn hs
    rw [List.mem_singleton.mp hn] at hs ⊢
    exact ⟨hs.ordinary, (hframe _ (cwd_ne os name)).trans hs.cwd, hplain⟩
  · intro e' he'
    rw [List.mem_singleton.mp he']
    exact ⟨name, List.mem_cons_self, he⟩

/-- A path leads where it led before, whatever has become of slots. -/
theorem locate (h : Only names os os') (hslots : ∀ n ∈ names, Slot os n) (followLast : Bool)
    (path : Bytes) : os'.locate followLast path = os.locate followLast path := by
  unfold OS.locate
  rw [h.goes.cwd]
  apply resolve_congr
  intro l
  by_cases hl : ∀ n ∈ names, l ≠ os.at n
  · exact Or.inl (h.get l hl)
  · push Not at hl
    obtain ⟨n, hn, rfl⟩ := hl
    have hplain := (h.slots n hn (hslots n hn)).plain
    rw [h.goes.at_eq] at hplain
    exact Or.inr ⟨hplain, (hslots n hn).plain⟩

end Only

/-! ## What is behind a path -/

/-- The path leads where it led, and nothing has been done there or below. -/
def Undisturbed (path : Bytes) (os os' : OS) : Prop :=
  os'.locate true path = os.locate true path ∧
    ∃ new, os'.log = new ++ os.log ∧
      ∀ l, os.locate true path = some l → ∀ e ∈ new, ¬ l <+: e.loc

/-- The path leads to none of these entries of the working directory, and not above one. -/
def ClearOf (names : List Name) (path : Bytes) (os : OS) : Prop :=
  ∀ l, os.locate true path = some l → ∀ n ∈ names, ¬ l <+: os.at n

section Undisturbed

variable {names : List Name} {path : Bytes} {os os' os'' : OS}

theorem Undisturbed.refl (path : Bytes) (os : OS) : Undisturbed path os os :=
  ⟨rfl, [], rfl, by simp⟩

theorem Undisturbed.trans (h : Undisturbed path os os') (h' : Undisturbed path os' os'') :
    Undisturbed path os os'' := by
  obtain ⟨hsame, new, hlog, hnew⟩ := h
  obtain ⟨hsame', new', hlog', hnew'⟩ := h'
  refine ⟨hsame'.trans hsame, new' ++ new, by rw [hlog', hlog, List.append_assoc], ?_⟩
  intro l hl e he
  rcases List.mem_append.mp he with he | he
  · exact hnew' l (hsame.trans hl) e he
  · exact hnew l hl e he

theorem ClearOf.undisturbed (h : ClearOf names path os) (hgoes : os'.cwd = os.cwd)
    (hpath : Undisturbed path os os') : ClearOf names path os' := by
  intro l hl n hn
  rw [hpath.1] at hl
  unfold OS.at
  rw [hgoes]
  exact h l hl n hn

/-- A path that is clear of some slots is not disturbed by calls on these. -/
theorem Only.undisturbed {touched : List Name} (h : Only touched os os')
    (hslots : ∀ n ∈ touched, Slot os n) (hsub : ∀ n ∈ touched, n ∈ names)
    (hclear : ClearOf names path os) : Undisturbed path os os' := by
  obtain ⟨new, hlog, hnew⟩ := h.log
  refine ⟨h.locate hslots true path, new, hlog, fun l hl e he => ?_⟩
  obtain ⟨n, hn, hloc⟩ := hnew e he
  rw [hloc]
  exact hclear l hl n (hsub n hn)

end Undisturbed

/-! ## Calls on slots -/

section Calls

variable {os : OS} {name : Name}

/-- The file that is opened for writing is the slot. -/
theorem Slot.only_fopenWrite (h : Slot os name) :
    Only [name] os (os.fopenWrite name).2 ∧
      ∀ f, (os.fopenWrite name).1 = some f →
        f = os.at name ∧ ∃ m, (os.fopenWrite name).2.fs.get (os.at name) = some (.file [] m) := by
  have hplace : ∀ loc, os.locate true name = some loc → loc = os.at name := by
    intro loc hloc
    rw [h.locate true] at hloc
    exact (Option.some.inj hloc).symm
  rcases os.fopenWrite_cases name with hfail | ⟨loc, hloc, ⟨hadd, hdone⟩ | ⟨c, m, hget, hdone⟩⟩
  · rw [hfail]
    exact ⟨.tick _ os, by simp⟩
  · cases hplace loc hloc
    rw [hdone]
    have hself : (os.fs.add (os.at name) (.file [] OS.createMode)).get (os.at name) =
        some (.file [] OS.createMode) := (FS.get_add hadd _ _).trans (if_pos rfl)
    refine ⟨.of_act rfl (fun l hl => FS.get_add_ne _ _ hl) (Or.inr ⟨_, _, hself⟩), ?_⟩
    rintro f hf
    cases hf
    exact ⟨rfl, _, hself⟩
  · cases hplace loc hloc
    rw [hdone]
    have hself : (os.fs.update (os.at name) (.file [] m)).get (os.at name) =
        some (.file [] m) := (FS.get_update (OS.isLeaf_of_file hget) _ _).trans (if_pos rfl)
    refine ⟨.of_act rfl (fun l hl => FS.get_update_ne _ _ hl) (Or.inr ⟨_, _, hself⟩), ?_⟩
    rintro f hf
    cases hf
    exact ⟨rfl, _, hself⟩

theorem only_fwrite (os : OS) (name : Name) (data : Bytes) :
    Only [name] os (os.fwrite (os.at name) data).2 := by
  rcases os.fwrite_cases (os.at name) data with hfail | ⟨c, m, hget, hdone⟩
  · rw [hfail]
    exact .tick _ os
  · rw [hdone]
    exact .of_act rfl (fun l hl => FS.get_update_ne _ _ hl)
      (Or.inr ⟨_, _, (FS.get_update (OS.isLeaf_of_file hget) _ _).trans (if_pos rfl)⟩)

theorem Slot.only_unlink (h : Slot os name) : Only [name] os (os.unlink name) := by
  unfold OS.unlink
  rw [h.locate false]
  dsimp only
  rcases os.unlinkAt_cases (os.at name) with hfail | ⟨hleaf, hdone⟩
  · rw [hfail]
    exact .tick _ os
  · rw [hdone]
    exact .of_act rfl (fun l hl => FS.get_erase_ne _ hl)
      (Or.inl ((FS.get_erase (OS.erasable_of_isLeaf hleaf) _).trans (if_pos rfl)))

/-- A slot that is renamed is freed, and the other one replaced. -/
theorem Slot.only_rename {new : Name} (ho : Slot os name) (hn : Slot os new) :
    Only [name, new] os (os.rename name new).2 := by
  unfold OS.rename OS.call
  split
  · exact .tick _ os
  · have hloc : os.tick.locate false name = some (os.at name) := ho.locate false
    have hloc' : os.tick.locate false new = some (os.at new) := hn.locate false
    simp only [hloc, hloc']
    rcases ho.plain with hold | ⟨c, m, hold⟩
    · have hold' : os.tick.fs.get (os.at name) = none := hold
      simp only [hold']
      exact .tick _ os
    · have hold' : os.tick.fs.get (os.at name) = some (.file c m) := hold
      have herase := FS.get_erase (OS.erasable_of_isLeaf (OS.isLeaf_of_file hold))
      simp only [hold']
      split
      · exact .tick _ os
      · rename_i hne
        -- the file has left its old name and is put under the new one
        have hmoved : ∀ {fs : FS} {e : Effect}, e.loc = os.at new →
            (∀ l, l ≠ os.at new → fs.get l = (os.fs.erase (os.at name)).get l) →
            fs.get (os.at new) = some (.file c m) →
            Only [name, new] os ((os.tick.act (os.fs.erase (os.at name))
              (.remove (os.at name))).act fs e) := by
          intro fs e he hframe hnew
          have hcwd : fs.get os.cwd = os.fs.get os.cwd := by
            rw [hframe _ (Only.cwd_ne os new), herase, if_neg (Only.cwd_ne os name)]
          refine ⟨⟨rfl, rfl⟩, ?_, ?_, [e, .remove (os.at name)], rfl, ?_⟩
          · intro l hl
            rw [OS.act_fs, hframe l (hl new (by simp)), herase, if_neg (hl name (by simp))]
          · intro k hk hs
            refine ⟨hs.ordinary, hcwd.trans hs.cwd, ?_⟩
            rcases List.mem_cons.mp hk with rfl | hk
            · left
              exact (hframe _ hne).trans ((herase _).trans (if_pos rfl))
            · right
              rw [List.mem_singleton.mp hk]
              exact ⟨c, m, hnew⟩
          · intro e' he'
            rcases List.mem_cons.mp he' with rfl | he'
            · exact ⟨new, by simp, he⟩
            · rw [List.mem_singleton.mp he']
              exact ⟨name, by simp, rfl⟩
        split
        · rename_i hadd
          have hadd' : (os.fs.erase (os.at name)).Addable (os.at new) := by
            refine ⟨hadd.1, ?_, ?_⟩
            · rw [herase, if_neg (Ne.symm hne)]
              exact hadd.2.1
            · have hparent : (os.at new).dropLast = os.cwd := List.dropLast_concat
              rw [hparent, herase, if_neg (Only.cwd_ne os name)]
              exact hn.cwd
          exact hmoved rfl (fun l hl => FS.get_add_ne _ _ hl)
            ((FS.get_add hadd' _ _).trans (if_pos rfl))
        · split
          · rename_i hleaf
            have hleaf' : (os.fs.erase (os.at name)).IsLeaf (os.at new) := by
              unfold FS.IsLeaf
              rw [herase, if_neg (Ne.symm hne)]
              exact hleaf
            exact hmoved rfl (fun l hl => FS.get_update_ne _ _ hl)
              ((FS.get_update hleaf' _ _).trans (if_pos rfl))
          · exact .tick _ os

end Calls

end Posix
