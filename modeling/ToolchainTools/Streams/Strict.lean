import ToolchainTools.Streams.Contract

/-!
# Reads without errors

`strict read` is a reader that does not come back from a read that goes through an error path, and
`whole ended read` one that does not come back from an empty window before the stream has `ended`.
What a program does with these is what it does with `read`, as long as it returns, and then it has
met no such read.
-/

namespace Streams

variable {σ : Type}

def strict (read : Reader σ) : Reader σ := fun s consume need =>
  (read s consume need).filter fun r => !r.1.failed

def whole (ended : σ → Bool) (read : Reader σ) : Reader σ := fun s consume need =>
  (read s consume need).filter fun r => r.1.bytes.length ≠ 0 || ended r.2

/-- What the first reader returns, the second one returns. -/
def Under (read read' : Reader σ) : Prop :=
  ∀ ⦃s consume need r⦄, read s consume need = some r → read' s consume need = some r

theorem Under.trans {read read' read'' : Reader σ} (h : Under read read') (h' : Under read' read'') :
    Under read read'' :=
  fun _ _ _ _ hr => h' (h hr)

theorem strict_eq_some {read : Reader σ} {s s' : σ} {consume need : Nat} {w : Window} :
    strict read s consume need = some (w, s') ↔
      read s consume need = some (w, s') ∧ w.failed = false := by
  unfold strict
  rw [Option.filter_eq_some_iff, Bool.not_eq_true']

end Streams
