import ToolchainTools.Download.Confinement
import ToolchainTools.Download.Truncation
import ToolchainTools.Posix.Ways

/-!
# What extracting one member makes

When no call fails for a reason of its own, `make_directory` paves the way to a path
(`makeDirectory_way`) and `extract_path` then puts a file at its end, or fails because a
directory is there (`extractPath_way`, `extractPath_occupied`). A link is put where it
belongs only if its way is paved already.
-/

namespace ToolchainTools

open CLib Posix Streams

variable {σ : Type} {read : Reader σ} {os : OS} {start : Loc}

/-- Nothing but directories on the way. -/
def Clear (view : Loc → Option Node) (start : Loc) (cs : List Name) : Prop :=
  ∀ l ∈ way start cs, view l = none ∨ view l = some .dir

/-- The directories of the way are made. -/
def paving (view : Loc → Option Node) (start : Loc) (cs : List Name) (l : Loc) : Option Node :=
  if l ∈ way start cs then some .dir else view l

theorem Clear.linkFree {cs : List Name} (h : Clear os.fs.get start cs)
    (hlast : ∀ t, os.fs.get (lexical start cs) ≠ some (.link t)) : LinkFree os.fs start cs := by
  intro k t hlink
  by_cases hk : k < cs.length
  · rcases h _ (mem_way.mpr ⟨k, hk, rfl⟩) with hl | hl
    all_goals
      rw [hl] at hlink
      cases hlink
  · rw [List.take_of_length_le (Nat.le_of_not_lt hk)] at hlink
    exact hlast t hlink

/-! ## Directories -/

theorem lexical_replicate_nil (cur : Loc) (cs : List Name) (m : Nat) :
    lexical cur (cs ++ List.replicate m []) = lexical cur cs := by
  rw [lexical_append]
  generalize lexical cur cs = l
  induction m with
  | zero => rfl
  | succ m ih =>
    rw [List.replicate_succ, lexical, if_pos (Or.inl rfl)]
    exact ih

/-- One `mkdir` of `make_directory`. -/
theorem mkdir_upto {path upto rest : Bytes} (hquiet : Quiet os)
    (hsplit : path = upto ++ slash :: rest) (hstart : startOf os.cwd path = start)
    (hpaved : Paved os.fs start (components upto))
    (hplace : os.fs.get (lexical start (components upto)) = none ∨
      os.fs.get (lexical start (components upto)) = some .dir) :
    Becomes os (Function.update os.fs.get (lexical start (components upto)) (some .dir))
      (os.mkdir upto).2 := by
  obtain ⟨m, hm⟩ := OS.stripSlashes_append upto
  generalize hname : OS.stripSlashes upto = name at hm
  have hcomp : components upto = components name ++ List.replicate m [] := by
    rw [← components_replicate_slash, ← hm]
  have hsame : lexical start (components upto) = lexical start (components name) := by
    rw [hcomp, lexical_replicate_nil]
  rw [hsame] at hplace ⊢
  rw [hcomp] at hpaved
  by_cases hnil : name = []
  · -- the empty path names nothing, and the place is the start
    have hdir : os.fs.get start = some .dir := hpaved.of_append.first (components_ne_nil name)
    have hnone : os.mkdir upto = (false, os.tick) := by
      rcases os.mkdir_cases upto with h | ⟨loc, hloc, -⟩
      · exact h
      · rw [hname, hnil] at hloc
        cases hloc
    rw [hnone]
    refine (becomes_tick os).congr fun l => ?_
    rw [hnil, Function.update_apply]
    split
    · rename_i hl
      rw [hl]
      exact hdir
    · rfl
  · have hcwd : startOf os.cwd name = start := by
      rw [← hstart]
      apply startOf_of_head
      obtain ⟨b, bs, rfl⟩ := List.exists_cons_of_ne_nil hnil
      rw [hsplit, hm]
      rfl
    subst hcwd
    exact mkdir_way hquiet hname hnil hpaved.of_append hplace

theorem makeDirectoryLoop_way {path : Bytes} (done next : Bytes) (before : List Name)
    (hquiet : Quiet os) (hpath : path = done ++ next) (hstart : startOf os.cwd path = start)
    (hbefore : ∀ rest, components (done ++ rest) = before ++ components rest)
    (hpaved : Paved os.fs start before) (hhere : os.fs.get (lexical start before) = some .dir)
    (hclear : Clear os.fs.get start (components path)) :
    Becomes os (paving os.fs.get start (components path)) (makeDirectoryLoop done next os) := by
  induction hn : next.length using Nat.strong_induction_on generalizing done next before os with
  | _ n ih =>
    unfold makeDirectoryLoop
    split
    · rename_i hnone
      have hnext := components_of_not_mem (strchr_eq_none_iff.mp hnone)
      refine ⟨.refl os, fun l => ?_⟩
      unfold paving
      split
      · rename_i hl
        rw [hpath, hbefore, hnext, way_append, way_cons] at hl
        rcases List.mem_append.mp hl with hl | hl
        · exact hpaved l hl
        · rw [List.mem_singleton.mp hl]
          exact hhere
      · rfl
    · rename_i rest hsome
      obtain ⟨a, b, hnext, rfl, ha⟩ := strchr_eq_some hsome
      have htake : done ++ next.take (next.length - (slash :: b).length) = done ++ a := by
        rw [hnext, List.length_append, Nat.add_sub_cancel, List.take_left]
      dsimp only
      rw [htake, List.tail_cons]
      have hupto : components (done ++ a) = before ++ [a] := by
        rw [hbefore, components_of_not_mem ha]
      have hsplit : path = (done ++ a) ++ slash :: b := by
        rw [hpath, hnext, List.append_assoc]
      have hcomp : components path = components (done ++ a) ++ components b := by
        rw [hsplit, components_append]
      have hmem : lexical start (components (done ++ a)) ∈ way start (components path) := by
        rw [hcomp]
        exact way_of_append (components_ne_nil b)
      have hpaved' : Paved os.fs start (components (done ++ a)) := by
        intro l hl
        rw [hupto, way_append, way_cons] at hl
        rcases List.mem_append.mp hl with hl | hl
        · exact hpaved l hl
        · rw [List.mem_singleton.mp hl]
          exact hhere
      have hmade := mkdir_upto hquiet hsplit hstart hpaved' (hclear _ hmem)
      generalize (os.mkdir (done ++ a)).2 = os1 at hmade
      have hget : ∀ l, os1.fs.get l = some .dir ∨ os1.fs.get l = os.fs.get l := by
        intro l
        rw [hmade.get, Function.update_apply]
        split
        · exact Or.inl rfl
        · exact Or.inr rfl
      have hgo := ih b.length
        (by rw [← hn, hnext, List.length_append, List.length_cons]; omega)
        (done ++ a ++ [slash]) b (components (done ++ a))
        (hquiet.of_goes hmade.goes) (by rw [hsplit, List.append_assoc (done ++ a), List.singleton_append])
        (by rw [hmade.goes.cwd]; exact hstart)
        (fun rest => by
          rw [List.append_assoc, List.singleton_append, components_append])
        (fun l hl => by
          rcases hget l with h | h
          · exact h
          · rw [h]
            exact hpaved' l hl)
        (by rw [hmade.get, Function.update_self])
        (fun l hl => by
          rcases hget l with h | h
          · exact Or.inr h
          · rw [h]
            exact hclear l hl)
        rfl
      refine (hmade.trans hgo).congr fun l => ?_
      unfold paving
      split
      · rfl
      · rename_i hl
        rw [hmade.get, Function.update_of_ne]
        rintro rfl
        exact hl hmem

/-- `make_directory` paves the way. -/
theorem makeDirectory_way {path : Bytes} (hquiet : Quiet os) (hstart : startOf os.cwd path = start)
    (hdir : os.fs.get start = some .dir) (hclear : Clear os.fs.get start (components path)) :
    Becomes os (paving os.fs.get start (components path)) (makeDirectory os path) :=
  makeDirectoryLoop_way [] path [] hquiet rfl hstart (fun _ => rfl)
    (fun l hl => by simp [way] at hl) hdir hclear

theorem paved_of_paving {path : Bytes} {os' : OS}
    (h : Becomes os (paving os.fs.get start (components path)) os') :
    Paved os'.fs start (components path) := by
  intro l hl
  rw [h.get, paving, if_pos hl]

/-! ## Regular files -/

/-- A node is put at a place whose way is paved. -/
def putting (view : Loc → Option Node) (start : Loc) (cs : List Name) (node : Node) :
    Loc → Option Node :=
  Function.update (paving view start cs) (lexical start cs) (some node)

/-- Writing to an open file touches nothing else. -/
theorem extractFileLoop_frame (read : Reader σ) (f : Loc) (fuel len : Nat) (s : σ) (os : OS)
    (failed : Bool) :
    Goes os (extractFileLoop read f fuel len s os failed).os ∧
      ∀ l, l ≠ f → (extractFileLoop read f fuel len s os failed).os.fs.get l = os.fs.get l := by
  refine extractFileLoop_rule
    (P := fun os' => Goes os os' ∧ ∀ l, l ≠ f → os'.fs.get l = os.fs.get l) ?_
    ⟨.refl os, fun _ _ => rfl⟩
  rintro os' data ⟨hgoes, hget⟩
  refine ⟨hgoes.trans (goes_fwrite os' f data), fun l hl => ?_⟩
  rw [← hget l hl]
  rcases os'.fwrite_cases f data with h | ⟨c, m, -, h⟩
  · rw [h]
    rfl
  · rw [h]
    exact FS.get_update_ne _ _ hl

/-- Without a write that fails the loop can only end with zero. -/
theorem extractFileLoop_quiet {f : Loc} {fuel len : Nat} {s : σ} {failed : Bool} {c : Bytes}
    {m : Int} (hquiet : Quiet os) (hfile : os.fs.get f = some (.file c m)) {code : Int}
    (hcode : (extractFileLoop read f fuel len s os failed).code = some code) : code = 0 := by
  induction fuel generalizing len s os failed c with
  | zero => cases hcode
  | succ fuel ih =>
    unfold extractFileLoop at hcode
    split at hcode
    · cases hcode
    · rename_i w s' hread
      split at hcode
      · cases hcode
        rfl
      · obtain ⟨os', hwrite, hafter⟩ := fwrite_file hfile (hquiet _) w.bytes
        rw [hwrite] at hcode
        have hfile' : os'.fs.get f = some (.file (c ++ w.bytes) m) := by
          rw [hafter.get, Function.update_self]
        have hquiet' : Quiet os' := by
          intro n
          rw [hafter.fault]
          exact hquiet n
        exact ih hquiet' hfile' hcode

section Member

variable {dir file : Bytes}

theorem joinPath_ne_nil (dir file : Bytes) : joinPath dir file ≠ [] := by simp [joinPath]

/-- A member whose place is free is extracted whole. -/
theorem extractPath_way (C : Contract read) {ls : LimitStream σ} (hv : ls.Valid C) {fuel : Nat}
    (mode : Int) (hfuel : (C.rest ls.source).length + 1 < fuel) (hquiet : Quiet os)
    (hstart : startOf os.cwd (joinPath dir file) = start) (hdir : os.fs.get start = some .dir)
    (hclear : Clear os.fs.get start (components (joinPath dir file)))
    (hout : lexical start (components (joinPath dir file)) ∉
      way start (components (joinPath dir file)))
    (hfree : os.fs.get (lexical start (components (joinPath dir file))) = none) :
    ∃ r, extractPath (readLimit read) fuel ls dir file mode os = r ∧ r.code = some 0 ∧
      Becomes os (putting os.fs.get start (components (joinPath dir file))
        (.file ((C.rest ls.source).take ls.left) (OS.modeBits mode))) r.os ∧
      C.valid r.s.source ∧ C.rest r.s.source = (C.rest ls.source).drop ls.left := by
  have hmade := makeDirectory_way hquiet hstart hdir hclear
  have hpaved := paved_of_paving hmade
  subst hstart
  generalize hos1 : makeDirectory os (joinPath dir file) = os1 at hmade hpaved
  have hquiet1 := hquiet.of_goes hmade.goes
  rw [← hmade.goes.cwd] at hpaved hout hfree hmade hclear hdir ⊢
  have hmiss : os1.fs.get (lexical (startOf os1.cwd (joinPath dir file))
      (components (joinPath dir file))) = none := by
    rw [hmade.get, paving, if_neg hout, hfree]
  obtain ⟨os2, hopen, hcreated⟩ :=
    (fopenWrite_way hquiet1 (joinPath_ne_nil dir file) hpaved).1 hmiss
  generalize hcs : components (joinPath dir file) = cs at *
  generalize hst : startOf os1.cwd (joinPath dir file) = start at *
  have hfile2 : os2.fs.get (lexical start cs) = some (.file [] OS.createMode) := by
    rw [hcreated.get, Function.update_self]
  have hquiet2 := hquiet1.of_goes hcreated.goes
  have hmode := fchmod_file hquiet2 hfile2 mode
  generalize hos3 : os2.fchmod (lexical start cs) mode = os3 at hmode
  have hopenPath : openPath os dir file mode = (some (lexical start cs), os3) := by
    unfold openPath
    simp only [hos1, hopen, hos3]
  have hfile3 : os3.fs.get (lexical start cs) = some (.file [] (OS.modeBits mode)) := by
    rw [hmode.get, Function.update_self]
  have hquiet3 := hquiet2.of_goes hmode.goes
  obtain ⟨code, hcode, -⟩ := extractPath_limit_total C hv dir file mode os hfuel
  have hrun : extractPath (readLimit read) fuel ls dir file mode os =
      extractFileLoop (readLimit read) (lexical start cs) fuel 0 ls os3 false := by
    unfold extractPath
    rw [hopenPath]
    rfl
  have hzero : code = 0 := by
    rw [hrun] at hcode
    exact extractFileLoop_quiet hquiet3 hfile3 hcode
  rw [hzero] at hcode
  refine ⟨_, rfl, hcode, ?_, ?_⟩
  · rw [hrun] at hcode ⊢
    obtain ⟨hgoes, hframe⟩ :=
      extractFileLoop_frame (readLimit read) (lexical start cs) fuel 0 ls os3 false
    obtain ⟨got, hdrain, hwritten⟩ := extractFileLoop_drains [] hfile3 rfl hcode
    obtain ⟨hgot, -, -⟩ :=
      drains_limit C hdrain hv List.nil_prefix (Nat.zero_le _) (Nat.zero_le _)
    rw [List.nil_append] at hgot hwritten
    refine ⟨((hmade.goes.trans hcreated.goes).trans hmode.goes).trans hgoes, fun l => ?_⟩
    unfold putting
    by_cases hl : l = lexical start cs
    · rw [hl, Function.update_self, ← hgot]
      exact hwritten
    · rw [Function.update_of_ne hl, hframe l hl, hmode.get, Function.update_of_ne hl,
        hcreated.get, Function.update_of_ne hl, hmade.get]
  · obtain ⟨f, m, -, -, hvalid, hrest⟩ := extractPath_limit C hv fuel dir file mode os hcode
    exact ⟨hvalid, hrest⟩

/-- A member whose place is on its own way paves that way and fails. -/
theorem extractPath_occupied (read : Reader σ) (fuel : Nat) (s : σ) (mode : Int)
    (hquiet : Quiet os)
    (hstart : startOf os.cwd (joinPath dir file) = start) (hdir : os.fs.get start = some .dir)
    (hclear : Clear os.fs.get start (components (joinPath dir file)))
    (hin : lexical start (components (joinPath dir file)) ∈
      way start (components (joinPath dir file))) :
    ∃ os', extractPath read fuel s dir file mode os = ⟨some (-1), s, os', false⟩ ∧
      Becomes os (paving os.fs.get start (components (joinPath dir file))) os' := by
  have hmade := makeDirectory_way hquiet hstart hdir hclear
  have hpaved := paved_of_paving hmade
  have hthere := hpaved _ hin
  subst hstart
  generalize hos1 : makeDirectory os (joinPath dir file) = os1 at hmade hpaved hthere
  rw [← hmade.goes.cwd] at hpaved hthere
  have hfail := (fopenWrite_way (hquiet.of_goes hmade.goes) (joinPath_ne_nil dir file) hpaved).2
    hthere
  refine ⟨os1.tick, ?_, hmade.trans (becomes_tick os1 |>.congr hmade.get)⟩
  unfold extractPath openPath
  simp only [hos1, hfail]

end Member

end ToolchainTools
