import ToolchainTools.CLib.Strings

/-!
# Pull streams and the read contract

A pull stream is asked `read(consume, need)`: it drops the first `consume` bytes of what
it offered last and offers a window on what comes next. `Contract` says what a reader
promises: the window is a prefix of the bytes not yet consumed, and it is shorter than
`need` only when no more bytes are left. `rest` are the bytes not yet consumed and
`lent` is the length of the window offered last, which bounds the next `consume`.
-/

namespace Streams

open CLib

/-- What a read returns. `failed` is not part of the answer: it notes that the read, or one
it made on a source below, went through its error path. -/
structure Window where
  bytes : Bytes
  failed : Bool
  deriving DecidableEq

/-- `read(consume, need)`; `none` when the call does not return. -/
abbrev Reader (σ : Type) := σ → Nat → Nat → Option (Window × σ)

variable {σ : Type}

/-- The result of a read that keeps the contract, over the bytes `rest` left before it. -/
structure Serves (rest : Bytes) (consume need : Nat) (w : Window) (rest' : Bytes) : Prop where
  rest_eq : rest' = rest.drop consume
  initial : w.bytes <+: rest'
  enough : min need rest'.length ≤ w.bytes.length

structure Contract (read : Reader σ) where
  valid : σ → Prop
  rest : σ → Bytes
  lent : σ → Nat
  lent_le : ∀ s, valid s → lent s ≤ (rest s).length
  serve : ∀ s consume need, valid s → consume ≤ lent s → need < 2 ^ 63 →
    ∃ w s', read s consume need = some (w, s') ∧ valid s' ∧ lent s' = w.bytes.length ∧
      Serves (rest s) consume need w (rest s')

/-- The contract is kept for requests of any length. -/
def Contract.AnyNeed {read : Reader σ} (C : Contract read) : Prop :=
  ∀ s consume need, C.valid s → consume ≤ C.lent s →
    ∃ w s', read s consume need = some (w, s') ∧ C.valid s' ∧ C.lent s' = w.bytes.length ∧
      Serves (C.rest s) consume need w (C.rest s')

/-! ## Readers that go on to the end -/

/-- A consumer that was last offered `window` reads on, consuming as much as it likes of
each window and asking for at least one byte, until a read returns nothing. `got` are the
bytes it has consumed by then. -/
inductive Drains (read : Reader σ) : σ → Bytes → Bytes → σ → Prop
  | stop {s s' : σ} {window : Bytes} {consume need : Nat} {w : Window} :
      consume ≤ window.length → 0 < need → need < 2 ^ 63 →
      read s consume need = some (w, s') → w.bytes = [] →
      Drains read s window (window.take consume) s'
  | step {s s' s'' : σ} {window got : Bytes} {consume need : Nat} {w : Window} :
      consume ≤ window.length → 0 < need → need < 2 ^ 63 →
      read s consume need = some (w, s') → w.bytes ≠ [] →
      Drains read s' w.bytes got s'' →
      Drains read s window (window.take consume ++ got) s''

/-- A run of reads from `s₀`, each of which consumes no more than it was offered and meets
`ok`. `lent` is the length of the window offered last, `total` what has been consumed. -/
inductive Run (read : Reader σ) (ok : σ → Nat → Nat → Prop) (s₀ : σ) : σ → Nat → Nat → Prop
  | start : Run read ok s₀ s₀ 0 0
  | read {s s' : σ} {lent total consume need : Nat} {w : Window} :
      Run read ok s₀ s lent total → consume ≤ lent → ok s consume need →
      read s consume need = some (w, s') →
      Run read ok s₀ s' w.bytes.length (total + consume)

/-- Any number of reads, with any arguments. -/
inductive Reads (read : Reader σ) : σ → σ → Prop
  | none (s : σ) : Reads read s s
  | more {s s' s'' : σ} {consume need : Nat} {w : Window} :
      read s consume need = some (w, s') → Reads read s' s'' → Reads read s s''

/-- Every read that returns keeps `P`. -/
def Preserves (read : Reader σ) (P : σ → Prop) : Prop :=
  ∀ s consume need w s', read s consume need = some (w, s') → P s → P s'

theorem Preserves.reads {read : Reader σ} {P : σ → Prop} (hp : Preserves read P) {s s' : σ}
    (h : Reads read s s') (hs : P s) : P s' := by
  induction h with
  | none s => exact hs
  | more hread _ ih => exact ih (hp _ _ _ _ _ hread hs)

/-- What is consumed of a window together with what is left is what there was. -/
theorem take_append_drop_of_prefix {window rest : Bytes} {consume : Nat} (hpre : window <+: rest)
    (hc : consume ≤ window.length) : window.take consume ++ rest.drop consume = rest := by
  obtain ⟨tail, rfl⟩ := hpre
  have htake : (window ++ tail).take consume = window.take consume :=
    List.take_append_of_le_length hc
  rw [← htake, List.take_append_drop]

/-- What comes behind `made`, when `out` is the next piece of it. -/
theorem append_drop_of_prefix {made out data : Bytes} (h : made ++ out <+: data) :
    out ++ data.drop (made ++ out).length = data.drop made.length := by
  obtain ⟨tail, rfl⟩ := h
  rw [List.drop_left, List.append_assoc, List.drop_left]

namespace Contract

variable {read : Reader σ} (C : Contract read)

/-- Whoever reads to the end has got everything. -/
theorem drains_eq {s s' : σ} {window got : Bytes} (hd : Drains read s window got s')
    (hv : C.valid s) (hpre : window <+: C.rest s) (hlent : window.length ≤ C.lent s) :
    got = C.rest s := by
  induction hd with
  | @stop s s' window consume need w hc hpos hneed hread hnil =>
    obtain ⟨w', s2, hread', -, -, hserve⟩ := C.serve s consume need hv (hc.trans hlent) hneed
    rw [hread] at hread'
    cases hread'
    have henough := hserve.enough
    rw [hnil, hserve.rest_eq, List.length_nil] at henough
    have hend : (C.rest s).drop consume = [] := by
      rw [← List.length_eq_zero_iff]
      omega
    rw [← take_append_drop_of_prefix hpre hc, hend, List.append_nil]
  | @step s s1 s' window got consume need w hc hpos hneed hread hne hrun ih =>
    obtain ⟨w', s2, hread', hvalid, hlen, hserve⟩ :=
      C.serve s consume need hv (hc.trans hlent) hneed
    rw [hread] at hread'
    cases hread'
    rw [ih hvalid hserve.initial hlen.ge, hserve.rest_eq]
    exact take_append_drop_of_prefix hpre hc

/-- In every run of reads, what is left is what lies behind the bytes consumed. -/
theorem run_rest {s₀ s : σ} {lent total : Nat} (hv : C.valid s₀)
    (hrun : Run read (fun _ _ need => need < 2 ^ 63) s₀ s lent total) :
    C.valid s ∧ C.rest s = (C.rest s₀).drop total ∧ lent ≤ C.lent s ∧
      total ≤ (C.rest s₀).length := by
  induction hrun with
  | start => exact ⟨hv, rfl, Nat.zero_le _, Nat.zero_le _⟩
  | @read s s' lent total consume need w hrun hconsume hneed hread ih =>
    obtain ⟨hvalid, hrest, hlent, htotal⟩ := ih
    obtain ⟨w', s'', hread', hvalid', hlent', hserve⟩ :=
      C.serve s consume need hvalid (hconsume.trans hlent) hneed
    rw [hread] at hread'
    cases hread'
    have hle := C.lent_le s hvalid
    rw [hrest, List.length_drop] at hle
    refine ⟨hvalid', ?_, hlent'.ge, by omega⟩
    rw [hserve.rest_eq, hrest, List.drop_drop]

/-- Taking every window whole ends after finitely many reads. -/
theorem exists_drains {s : σ} {window : Bytes} (hv : C.valid s) (hpre : window <+: C.rest s)
    (hlent : window.length ≤ C.lent s) : ∃ got s', Drains read s window got s' := by
  -- a window that is not empty shortens the rest; only the first one may be empty
  generalize hn : (C.rest s).length + (if window = [] then 1 else 0) = n
  induction n using Nat.strong_induction_on generalizing s window with
  | _ n ih =>
    obtain ⟨w, s', hread, hv', hlen, hserve⟩ :=
      C.serve s window.length 1 hv hlent (by norm_num)
    by_cases hnil : w.bytes = []
    · exact ⟨_, s', .stop le_rfl one_pos (by norm_num) hread hnil⟩
    · have hsmaller : (C.rest s').length + (if w.bytes = [] then 1 else 0) < n := by
        have hle := hpre.length_le
        rw [if_neg hnil, hserve.rest_eq, List.length_drop, ← hn]
        split
        · omega
        · rename_i hne
          have := List.length_pos_iff.mpr hne
          omega
      obtain ⟨got, s'', hdrain⟩ := ih _ hsmaller hv' hserve.initial hlen.ge rfl
      exact ⟨_, s'', .step le_rfl one_pos (by norm_num) hread hnil hdrain⟩

end Contract

end Streams
