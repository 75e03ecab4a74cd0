import ToolchainTools.Download.Extract
import ToolchainTools.Stream.Hash
import ToolchainTools.Stream.HttpLimit
import ToolchainTools.Stream.Limit
import ToolchainTools.Stream.Xz

/-!
# Errors below `extract_file`

Every filter and source reports an error by a window of length zero, which is also how it
reports the end. `extract_file` takes both for the end. It returns an error exactly if the
output file refuses one of the windows it is given, whatever goes wrong in the streams.
-/

namespace ToolchainTools

open CLib Posix Streams

variable {σ ζ ξ : Type}

/-! ## Stacks of streams -/

/-- The windows of the first `n` reads of a consumer that takes each window whole and stops
at the first empty one; `len` is the length of the window before them. -/
def delivered (read : Reader σ) : Nat → Nat → σ → List Window
  | 0, _, _ => []
  | n + 1, len, s =>
    match read s len 1 with
    | none => []
    | some (w, s) =>
      if w.bytes.length = 0 then [w] else w :: delivered read n w.bytes.length s

/-- The output file refuses one of the windows: the write with its number fails. -/
def Refused (fault : Nat → Bool) (calls : Nat) (ws : List Window) : Prop :=
  ∃ k w, ws[k]? = some w ∧ w.bytes.length ≠ 0 ∧ fault (calls + k) = true

theorem refused_cons {fault : Nat → Bool} {calls : Nat} {w : Window} {ws : List Window} :
    Refused fault calls (w :: ws) ↔
      (w.bytes.length ≠ 0 ∧ fault calls = true) ∨ Refused fault (calls + 1) ws := by
  constructor
  · rintro ⟨k, w', hk, hne, hfault⟩
    cases k with
    | zero =>
      rw [List.getElem?_cons_zero, Option.some_inj] at hk
      subst hk
      exact Or.inl ⟨hne, hfault⟩
    | succ k =>
      rw [List.getElem?_cons_succ] at hk
      exact Or.inr ⟨k, w', hk, hne, by rw [← hfault]; congr 1; omega⟩
  · rintro (⟨hne, hfault⟩ | ⟨k, w', hk, hne, hfault⟩)
    · exact ⟨0, w, rfl, hne, hfault⟩
    · exact ⟨k + 1, w', hk, hne, by rw [← hfault]; congr 1; omega⟩

theorem not_refused_nil (fault : Nat → Bool) (calls : Nat) : ¬ Refused fault calls [] := by
  rintro ⟨k, w, hk, -⟩
  simp at hk

/-! ## The loop over the windows -/

/-- A file that can be written to. -/
def IsOpen (f : Loc) (os : OS) : Prop := ∃ c m, os.fs.get f = some (.file c m)

/-- A write to an open file fails exactly if its number is a faulty one. -/
theorem fwrite_open {os : OS} {f : Loc} (hf : IsOpen f os) (data : Bytes) :
    ∃ os', os.fwrite f data = (!os.fault os.calls, os') ∧ IsOpen f os' ∧
      os'.fault = os.fault ∧ os'.calls = os.calls + 1 := by
  obtain ⟨c, m, hget⟩ := hf
  unfold OS.fwrite OS.call
  split
  · rename_i hfault
    rw [hfault]
    exact ⟨os.tick, rfl, ⟨c, m, hget⟩, rfl, rfl⟩
  · rename_i hfault
    have hget' : os.tick.fs.get f = some (.file c m) := hget
    rw [Bool.not_eq_true] at hfault
    rw [hfault]
    dsimp only
    rw [hget']
    refine ⟨_, rfl, ⟨c ++ data, m, ?_⟩, rfl, rfl⟩
    exact (FS.get_update (OS.isLeaf_of_file hget) _ f).trans (if_pos rfl)

/-- The loop returns an error within `fuel` rounds exactly if a window is refused. -/
theorem extractFileLoop_error_iff {read : Reader σ} {f : Loc} {fuel len : Nat} {s : σ} {os : OS}
    {failed : Bool} (hf : IsOpen f os) :
    (∃ code, (extractFileLoop read f fuel len s os failed).code = some code ∧ code ≠ 0) ↔
      Refused os.fault os.calls (delivered read fuel len s) := by
  induction fuel generalizing len s os failed with
  | zero => exact iff_of_false (by simp [extractFileLoop]) (not_refused_nil _ _)
  | succ fuel ih =>
    unfold extractFileLoop delivered
    cases hread : read s len 1 with
    | none => exact iff_of_false (by simp) (not_refused_nil _ _)
    | some r =>
      obtain ⟨w, s'⟩ := r
      dsimp only
      by_cases hempty : w.bytes.length = 0
      · rw [if_pos hempty, if_pos hempty, refused_cons]
        exact iff_of_false (by simp) (by simp [hempty, not_refused_nil])
      · rw [if_neg hempty, if_neg hempty, refused_cons]
        obtain ⟨os', hwrite, hopen, hfault, hcalls⟩ := fwrite_open hf w.bytes
        rw [hwrite]
        cases hbad : os.fault os.calls with
        | true => exact iff_of_true ⟨-1, rfl, by norm_num⟩ (Or.inl ⟨hempty, rfl⟩)
        | false =>
          simp only [Bool.not_false, Bool.false_eq_true, and_false, false_or]
          rw [ih hopen, hfault, hcalls]

/-- Two bytes of a body of five. -/
def brokenResponse : Bytes := lit "HTTP/1.1 200 OK\r\nContent-Length: 5\r\n\r\nab"

end ToolchainTools
