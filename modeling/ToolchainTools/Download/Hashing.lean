import ToolchainTools.Download.Extract
import ToolchainTools.Stream.Buffer
import ToolchainTools.Stream.Hash

/-!
# What is hashed is what is written

The hash filter absorbs a window when it is consumed, one call after it was offered. Over
a source that keeps the read contract, what has been absorbed is at every point of a run
what has been consumed; and when `extract_file` returns zero, it is also what has been
written, and everything that the source had.
-/

namespace ToolchainTools

open CLib Posix Streams

variable {σ : Type} {read : Reader σ}

/-- The source below the filter is in order, and `data` is the window it offered last. -/
structure HashStream.Valid (C : Contract read) (hs : HashStream σ) : Prop where
  source : C.valid hs.source
  window : hs.data <+: C.rest hs.source
  lent_le : hs.data.length ≤ C.lent hs.source

theorem openHash_valid (C : Contract read) {s : σ} (hv : C.valid s) : (openHash s).Valid C :=
  ⟨hv, List.nil_prefix, Nat.zero_le _⟩

/-- One read through the filter: what it absorbs is what it takes off the source. -/
theorem readHash_serve {C : Contract read} {hs : HashStream σ} (hv : hs.Valid C)
    {consume need : Nat} (hconsume : consume ≤ hs.data.length)
    (hneed : C.AnyNeed ∨ need < 2 ^ 63) :
    ∃ w hs', readHash read hs consume need = some (w, hs') ∧ hs'.Valid C ∧
      hs'.data = w.bytes ∧ hs'.absorbed = hs.absorbed ++ (C.rest hs.source).take consume ∧
      Serves (C.rest hs.source) consume need w (C.rest hs'.source) := by
  have hlent := hconsume.trans hv.lent_le
  obtain ⟨w, s', hread, hvalid, hlen, hserve⟩ :
      ∃ w s', read hs.source consume need = some (w, s') ∧ C.valid s' ∧
        C.lent s' = w.bytes.length ∧ Serves (C.rest hs.source) consume need w (C.rest s') := by
    rcases hneed with hany | hneed
    · exact hany _ _ _ hv.source hlent
    · exact C.serve _ _ _ hv.source hlent hneed
  refine ⟨w, ⟨hs.absorbed ++ hs.data.take consume, s', w.bytes⟩, ?_,
    ⟨hvalid, hserve.initial, hlen.ge⟩, rfl, ?_, hserve⟩
  · unfold readHash
    rw [hread]
  · obtain ⟨tail, htail⟩ := hv.window
    dsimp only
    rw [← htail, List.take_append_of_le_length hconsume]

/-- In every run the filter has absorbed what has been consumed. -/
theorem run_hash {C : Contract read} {s : σ} (hv : C.valid s) {hs : HashStream σ}
    {lent total : Nat}
    (hrun : Run (readHash read) (fun _ _ need => C.AnyNeed ∨ need < 2 ^ 63) (openHash s)
      hs lent total) :
    hs.Valid C ∧ lent ≤ hs.data.length ∧ total ≤ (C.rest s).length ∧
      hs.absorbed = (C.rest s).take total ∧ C.rest hs.source = (C.rest s).drop total := by
  induction hrun with
  | start =>
    exact ⟨openHash_valid C hv, le_rfl, Nat.zero_le _, by rw [List.take_zero]; rfl, rfl⟩
  | @read hs hs' lent total consume need w hrun hconsume hok hread ih =>
    obtain ⟨hvalid, hlent, htotal, habsorbed, hrest⟩ := ih
    obtain ⟨w', hs'', hread', hvalid', hdata, habsorbed', hserve⟩ :=
      readHash_serve hvalid (hconsume.trans hlent) hok
    rw [hread] at hread'
    cases hread'
    have hwindow := hvalid.window.length_le
    rw [hrest, List.length_drop] at hwindow
    refine ⟨hvalid', by rw [hdata], by omega, ?_, ?_⟩
    · rw [habsorbed', habsorbed, hrest, List.take_add]
    · rw [hserve.rest_eq, hrest, List.drop_drop]

/-- The loop of `extract_file` over the filter. On entry the window offered last has been
written but not yet absorbed. -/
theorem extractFileLoop_hash {C : Contract read} {f : Loc} {fuel : Nat} {hs : HashStream σ}
    {os : OS} {failed : Bool} {c : Bytes} {m : Int} (hv : hs.Valid C)
    (hfile : os.fs.get f = some (.file c m))
    {r : Extracted (HashStream σ)}
    (hr : extractFileLoop (readHash read) f fuel hs.data.length hs os failed = r)
    (hcode : r.code = some 0) :
    r.s.absorbed = hs.absorbed ++ C.rest hs.source ∧ C.rest r.s.source = [] ∧
      r.os.fs.get f = some (.file (c ++ (C.rest hs.source).drop hs.data.length) m) := by
  induction fuel generalizing hs os failed c with
  | zero =>
    subst hr
    cases hcode
  | succ fuel ih =>
    obtain ⟨w, hs', hread, hv', hdata, habsorbed, hserve⟩ :=
      readHash_serve hv le_rfl (Or.inr (by norm_num : (1 : Nat) < 2 ^ 63))
    rw [extractFileLoop, hread] at hr
    dsimp only at hr
    split at hr
    · rename_i hempty
      subst hr
      have hend : C.rest hs'.source = [] := by
        have henough := hserve.enough
        rw [← List.length_eq_zero_iff]
        omega
      have hall : (C.rest hs.source).drop hs.data.length = [] := hserve.rest_eq.symm.trans hend
      refine ⟨?_, hend, ?_⟩
      · rw [habsorbed, List.take_of_length_le (List.drop_eq_nil_iff.mp hall)]
      · rw [hall, List.append_nil]
        exact hfile
    · rcases os.fwrite_cases f w.bytes with hfail | ⟨c', m', hget, hdone⟩
      · rw [hfail] at hr
        subst hr
        cases hcode
      · rw [hfile] at hget
        cases hget
        rw [hdone, ← hdata] at hr
        have hfile' : (os.tick.act (os.fs.update f (.file (c ++ w.bytes) m)) (.write f)).fs.get f =
            some (.file (c ++ w.bytes) m) :=
          (FS.get_update (OS.isLeaf_of_file hfile) _ f).trans (if_pos rfl)
        rw [← hdata] at hfile'
        obtain ⟨hhash, hend, hwritten⟩ := ih hv' hfile' hr
        refine ⟨?_, hend, ?_⟩
        · rw [hhash, habsorbed, hserve.rest_eq, List.append_assoc, List.take_append_drop]
        · obtain ⟨tail, htail⟩ := hv'.window
          rw [hwritten, List.append_assoc, ← hserve.rest_eq, ← htail, List.drop_left]

/-- Over any source, draining the filter absorbs what is drained, from the window on that it
offered last. -/
theorem absorbed_of_drains {hs hs' : HashStream σ} {window got : Bytes}
    (h : Drains (readHash read) hs window got hs') (hwindow : hs.data = window) :
    hs'.absorbed = hs.absorbed ++ got := by
  have hstep : ∀ {hs hs' : HashStream σ} {consume need : Nat} {w : Window},
      readHash read hs consume need = some (w, hs') →
        hs'.absorbed = hs.absorbed ++ hs.data.take consume ∧ hs'.data = w.bytes := by
    intro hs hs' consume need w hread
    unfold readHash at hread
    split at hread
    · cases hread
    · cases hread
      exact ⟨rfl, rfl⟩
  induction h with
  | stop _ _ _ hread _ =>
    rw [(hstep hread).1, hwindow]
  | step _ _ _ hread _ _ ih =>
    rw [ih (hstep hread).2, (hstep hread).1, hwindow, List.append_assoc]

/-- Whatever the source does: when `extract_file` returns zero, what was hashed has been
written. -/
theorem extractFile_absorbed {f : Loc} {fuel : Nat} {s : σ} {os : OS} {c : Bytes} {m : Int}
    (hfile : os.fs.get f = some (.file c m)) {r : Extracted (HashStream σ)}
    (hr : extractFile (readHash read) fuel (openHash s) f os = r) (hcode : r.code = some 0) :
    r.os.fs.get f = some (.file (c ++ r.s.absorbed) m) := by
  obtain ⟨got, hdrain, hwritten⟩ := extractFileLoop_drains [] hfile hr hcode
  have habsorbed : r.s.absorbed = [] ++ ([] ++ got) := absorbed_of_drains hdrain rfl
  rw [hwritten, habsorbed]
  rfl

/-- **What is hashed is what is written.** Over every source that keeps the read contract:
when `extract_file` returns zero, what was hashed, what was written and what was consumed
are all that the source had; and at every point of any other use of the filter, what was
hashed is what was consumed. -/
theorem hashed_is_written (C : Contract read) {s : σ} (hv : C.valid s) :
    (∀ fuel f os c m, os.fs.get f = some (.file c m) →
      ∀ r, extractFile (readHash read) fuel (openHash s) f os = r → r.code = some 0 →
        r.s.absorbed = C.rest s ∧ C.rest r.s.source = [] ∧
          r.os.fs.get f = some (.file (c ++ C.rest s) m)) ∧
    ∀ hs lent total,
      Run (readHash read) (fun _ _ need => C.AnyNeed ∨ need < 2 ^ 63) (openHash s)
        hs lent total →
      total ≤ (C.rest s).length ∧ hs.absorbed = (C.rest s).take total ∧
        C.rest hs.source = (C.rest s).drop total := by
  constructor
  · intro fuel f os c m hfile r hr hcode
    exact extractFileLoop_hash (openHash_valid C hv) hfile hr hcode
  · intro hs lent total hrun
    exact (run_hash hv hrun).2.2

theorem hashed_is_written_two :
    ∃ r, extractFile (readHash readBuffer) 4 (openHash (openBufferStream (lit "ab")))
        tmpFile.1 tmpFile.2 = r ∧ r.code = some 0 ∧
      r.s.absorbed = lit "ab" ∧ bufferContract.rest r.s.source = [] ∧
      r.os.fs.get tmpFile.1 = some (.file (lit "ab") OS.createMode) := by
  have hcode : (extractFile (readHash readBuffer) 4 (openHash (openBufferStream (lit "ab")))
      tmpFile.1 tmpFile.2).code = some 0 := by decide
  have hfile : tmpFile.2.fs.get tmpFile.1 = some (.file [] OS.createMode) := by decide
  exact ⟨_, rfl, hcode,
    (hashed_is_written bufferContract (s := openBufferStream (lit "ab")) trivial).1 4 _ _ [] _
      hfile _ rfl hcode⟩

end ToolchainTools
