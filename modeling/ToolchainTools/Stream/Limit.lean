import ToolchainTools.Stream.Buffer

/-!
# The limiting filter (`tools/stream/filter-limit.c`)

`readLimit` lends a window on a source that goes on being used by its owner. Over a
source that keeps the read contract it keeps the contract for the first `left` bytes, and
the source has been advanced by exactly the bytes consumed through it.
-/

namespace ToolchainTools

open CLib Streams

variable {σ : Type}

structure LimitStream (σ : Type) where
  left : Nat
  source : σ

def readLimit (read : Reader σ) : Reader (LimitStream σ) := fun ls consume need =>
  let left := sub64 ls.left consume
  let need := if need > left then left else need
  match read ls.source consume need with
  | none => none
  | some (w, source) => some ({ w with bytes := w.bytes.take left }, ⟨left, source⟩)

def openLimited (source : σ) (size : Nat) : LimitStream σ := ⟨size, source⟩

namespace LimitStream

/-- What is left of the limit fits the type, and nothing behind it has been lent. -/
structure Valid {read : Reader σ} (C : Contract read) (ls : LimitStream σ) : Prop where
  source : C.valid ls.source
  left_lt : ls.left < 2 ^ 64

/-- The bytes a limited stream has yet to give. -/
def rest {read : Reader σ} (C : Contract read) (ls : LimitStream σ) : Bytes :=
  (C.rest ls.source).take ls.left

end LimitStream

/-- One read through the limit, when the source serves the clamped request: the window is one
of the source cut at the limit, and the source moves by what is consumed. -/
theorem readLimit_served {read : Reader σ} (C : Contract read) {ls : LimitStream σ}
    (hv : ls.Valid C) {consume need : Nat} (hleft : consume ≤ ls.left) {w : Window} {src : σ}
    (hread : read ls.source consume (min need (ls.left - consume)) = some (w, src))
    (hvalid : C.valid src) (hlen : C.lent src = w.bytes.length)
    (hserve : Serves (C.rest ls.source) consume (min need (ls.left - consume)) w (C.rest src)) :
    ∃ w ls', readLimit read ls consume need = some (w, ls') ∧ ls'.Valid C ∧
      ls'.left = ls.left - consume ∧
      C.rest ls'.source = (C.rest ls.source).drop consume ∧
      w.bytes.length = min (C.lent ls'.source) ls'.left ∧
      Serves (ls.rest C) consume need w (ls'.rest C) := by
  have hsub : sub64 ls.left consume = ls.left - consume := sub64_of_le hleft hv.left_lt
  have hclamp : (if need > ls.left - consume then ls.left - consume else need) =
      min need (ls.left - consume) := by
    split <;> omega
  refine ⟨{ w with bytes := w.bytes.take (ls.left - consume) }, ⟨ls.left - consume, src⟩, ?_,
    ⟨hvalid, ?_⟩, rfl, hserve.rest_eq, ?_, ?_, ?_, ?_⟩
  · simp only [readLimit, hsub, hclamp, hread]
  · have := hv.left_lt
    dsimp only
    omega
  · simp only [List.length_take, hlen]
    omega
  · simp only [LimitStream.rest, hserve.rest_eq, List.drop_take]
  · exact hserve.initial.take _
  · have henough := hserve.enough
    simp only [LimitStream.rest, List.length_take]
    omega

theorem readLimit_serve {read : Reader σ} (C : Contract read) {ls : LimitStream σ}
    (hv : ls.Valid C) {consume need : Nat} (hlent : consume ≤ C.lent ls.source)
    (hleft : consume ≤ ls.left) (hneed : need < 2 ^ 63) :
    ∃ w ls', readLimit read ls consume need = some (w, ls') ∧ ls'.Valid C ∧
      ls'.left = ls.left - consume ∧
      C.rest ls'.source = (C.rest ls.source).drop consume ∧
      w.bytes.length = min (C.lent ls'.source) ls'.left ∧
      Serves (ls.rest C) consume need w (ls'.rest C) := by
  obtain ⟨w, src, hread, hvalid, hlen, hserve⟩ :=
    C.serve ls.source consume (min need (ls.left - consume)) hv.source hlent (by omega)
  exact readLimit_served C hv hleft hread hvalid hlen hserve

theorem readLimit_preserves {read : Reader σ} {P : σ → Prop} (hp : Preserves read P) :
    Preserves (readLimit read) fun ls => P ls.source := by
  intro ls consume need w ls' hread hs
  unfold readLimit at hread
  dsimp only at hread
  split at hread
  · cases hread
  · rename_i w' source hsource
    cases hread
    exact hp _ _ _ _ _ hsource hs

/-- A limited stream keeps the contract that its source keeps. -/
def limitContract {read : Reader σ} (C : Contract read) : Contract (readLimit read) where
  valid ls := ls.Valid C
  rest ls := ls.rest C
  lent ls := min (C.lent ls.source) ls.left
  lent_le ls hv := by
    have hle := C.lent_le ls.source hv.source
    simp only [LimitStream.rest, List.length_take]
    omega
  serve ls consume need hv hconsume hneed := by
    obtain ⟨w, ls', hread, hv', -, -, hlent, hserve⟩ :=
      readLimit_serve C hv (hconsume.trans (Nat.min_le_left _ _))
        (hconsume.trans (Nat.min_le_right _ _)) hneed
    exact ⟨w, ls', hread, hv', hlent.symm, hserve⟩

/-- What is consumed of a window together with what is left behind it. -/
theorem take_append_take_drop {window rest : Bytes} {consume left : Nat} (hpre : window <+: rest)
    (hwin : window.length ≤ left) (hc : consume ≤ window.length) :
    window.take consume ++ (rest.drop consume).take (left - consume) = rest.take left := by
  have htake : window.take consume = (rest.take left).take consume := by
    obtain ⟨tail, rfl⟩ := hpre
    rw [List.take_take, Nat.min_eq_left (hc.trans hwin), List.take_append_of_le_length hc]
  rw [htake, ← List.drop_take, List.take_append_drop]

/-- Whoever reads a limited stream to its end has got the bytes of the limit, or as many as the
source had, and has moved the source behind them. -/
theorem drains_limit {read : Reader σ} (C : Contract read) {ls ls' : LimitStream σ}
    {window got : Bytes} (hd : Drains (readLimit read) ls window got ls') (hv : ls.Valid C)
    (hpre : window <+: C.rest ls.source) (hwin : window.length ≤ ls.left)
    (hlent : window.length ≤ C.lent ls.source) :
    got = (C.rest ls.source).take ls.left ∧ C.valid ls'.source ∧
      C.rest ls'.source = (C.rest ls.source).drop ls.left := by
  induction hd with
  | @stop ls ls' window consume need w hc hpos hneed hread hnil =>
    obtain ⟨w', ls2, hread', hv2, hleft2, hrest2, hwl, hserve⟩ :=
      readLimit_serve C hv (hc.trans hlent) (hc.trans hwin) hneed
    rw [hread] at hread'
    cases hread'
    have henough := hserve.enough
    rw [hnil, LimitStream.rest, hrest2, hleft2, List.length_nil] at henough
    have hend : ((C.rest ls.source).drop consume).take (ls.left - consume) = [] := by
      rw [← List.length_eq_zero_iff]
      omega
    refine ⟨?_, hv2.source, ?_⟩
    · rw [← take_append_take_drop hpre hwin hc, hend, List.append_nil]
    · rw [hrest2, ← List.take_append_drop (ls.left - consume) ((C.rest ls.source).drop consume),
        hend, List.nil_append, List.drop_drop, Nat.add_sub_cancel' (hc.trans hwin)]
  | @step ls ls1 ls' window got consume need w hc hpos hneed hread hne hrun ih =>
    obtain ⟨w', ls2, hread', hv2, hleft2, hrest2, hwl, hserve⟩ :=
      readLimit_serve C hv (hc.trans hlent) (hc.trans hwin) hneed
    rw [hread] at hread'
    cases hread'
    have hwpre : w.bytes <+: C.rest ls1.source := hserve.initial.trans (List.take_prefix _ _)
    obtain ⟨hgot, hvalid, hrest⟩ := ih hv2 hwpre (by omega) (by omega)
    refine ⟨?_, hvalid, ?_⟩
    · rw [hgot, hrest2, hleft2]
      exact take_append_take_drop hpre hwin hc
    · rw [hrest, hrest2, hleft2, List.drop_drop]
      congr 1
      omega

/-- In every run of reads through the limit the source moves by exactly what is consumed. -/
theorem run_limit {read : Reader σ} (C : Contract read) {ls ls' : LimitStream σ}
    {lent total : Nat} (hv : ls.Valid C)
    (hrun : Run (readLimit read) (fun _ _ need => need < 2 ^ 63) ls ls' lent total) :
    ls'.Valid C ∧ C.rest ls'.source = (C.rest ls.source).drop total ∧
      ls'.left + total = ls.left ∧ lent ≤ C.lent ls'.source ∧ lent ≤ ls'.left := by
  induction hrun with
  | start => exact ⟨hv, rfl, rfl, Nat.zero_le _, Nat.zero_le _⟩
  | @read s s' lent total consume need w hrun hconsume hneed hread ih =>
    obtain ⟨hvalid, hrest, hleft, hlent, hle⟩ := ih
    obtain ⟨w', s'', hread', hvalid', hleft', hrest', hlen, -⟩ :=
      readLimit_serve C hvalid (hconsume.trans hlent) (hconsume.trans hle) hneed
    rw [hread] at hread'
    cases hread'
    refine ⟨hvalid', ?_, by omega, by omega, by omega⟩
    rw [hrest', hrest, List.drop_drop]

/-- The reads through a limit that was put on `source`, and what holds after each run of them. -/
theorem run_opened {read : Reader σ} (C : Contract read) (hC : C.AnyNeed) {source : σ}
    (hv : C.valid source) {size : Nat} (hsize : size < 2 ^ 64) {ls : LimitStream σ}
    {lent total : Nat}
    (hrun : Run (readLimit read) (fun _ _ _ => True) (openLimited source size) ls lent total) :
    ls.Valid C ∧ C.rest ls.source = (C.rest source).drop total ∧ ls.left + total = size ∧
      lent ≤ C.lent ls.source ∧ lent ≤ ls.left := by
  induction hrun with
  | start => exact ⟨⟨hv, hsize⟩, rfl, rfl, Nat.zero_le _, Nat.zero_le _⟩
  | @read s s' lent total consume need w hrun hconsume hneed hread ih =>
    obtain ⟨hvalid, hrest, hleft, hlent, hle⟩ := ih
    obtain ⟨w₀, src, hsource, hv₀, hlen₀, hserve₀⟩ :=
      hC s.source consume (min need (s.left - consume)) hvalid.source (hconsume.trans hlent)
    obtain ⟨w', s'', hread', hvalid', hleft', hrest', hlen, -⟩ :=
      readLimit_served C hvalid (hconsume.trans hle) hsource hv₀ hlen₀ hserve₀
    rw [hread] at hread'
    cases hread'
    refine ⟨hvalid', ?_, by omega, by omega, by omega⟩
    rw [hrest', hrest, List.drop_drop]

/-- **A window on a shared source.** After any reads through the limit, what is left is the size
without what has been consumed, and the source has moved by exactly that. The next read
does not underflow, and what it offers is a prefix of the next `left` bytes of the source, as
long as asked for, as the limit, or as the source allows. -/
theorem limit_window {read : Reader σ} (C : Contract read) (hC : C.AnyNeed) {source : σ}
    (hv : C.valid source) {size : Nat} (hsize : size < 2 ^ 64) {ls : LimitStream σ}
    {lent total : Nat}
    (hrun : Run (readLimit read) (fun _ _ _ => True) (openLimited source size) ls lent total) :
    total ≤ size ∧ ls.left = size - total ∧ C.rest ls.source = (C.rest source).drop total ∧
      ∀ consume need, consume ≤ lent →
        consume ≤ ls.left ∧
        ∃ w ls', readLimit read ls consume need = some (w, ls') ∧
          ls'.left = ls.left - consume ∧
          C.rest ls'.source = (C.rest ls.source).drop consume ∧
          w.bytes <+: (C.rest ls'.source).take ls'.left ∧
          min need (min ls'.left (C.rest ls'.source).length) ≤ w.bytes.length := by
  obtain ⟨hvalid, hrest, hleft, hlent, hle⟩ := run_opened C hC hv hsize hrun
  refine ⟨by omega, by omega, hrest, fun consume need hconsume => ⟨hconsume.trans hle, ?_⟩⟩
  obtain ⟨w₀, src, hsource, hv₀, hlen₀, hserve₀⟩ :=
    hC ls.source consume (min need (ls.left - consume)) hvalid.source (hconsume.trans hlent)
  obtain ⟨w, ls', hread, -, hleft', hrest', -, hserve⟩ :=
    readLimit_served C hvalid (hconsume.trans hle) hsource hv₀ hlen₀ hserve₀
  refine ⟨w, ls', hread, hleft', hrest', hserve.initial, ?_⟩
  have henough := hserve.enough
  rwa [LimitStream.rest, List.length_take] at henough

/-- Two of four bytes, after the first of them has been consumed. -/
theorem limit_window_two :
    ∃ ls, Run (readLimit readBuffer) (fun _ _ _ => True)
        (openLimited (openBufferStream [1, 2, 3, 4]) 2) ls 1 1 ∧
      ls.left = 1 ∧ ls.source.next = [2, 3, 4] := by
  have hany : bufferContract.AnyNeed := fun bs consume need _ _ =>
    ⟨_, _, rfl, trivial, rfl, rfl, List.prefix_rfl, Nat.min_le_right _ _⟩
  have hrun : Run (readLimit readBuffer) (fun _ _ _ => True)
      (openLimited (openBufferStream [1, 2, 3, 4]) 2) ⟨1, ⟨[2, 3, 4]⟩⟩ 1 (0 + 1) := by
    have h₁ : readLimit readBuffer ⟨2, ⟨[1, 2, 3, 4]⟩⟩ 0 1 =
        some (⟨[1, 2], false⟩, ⟨2, ⟨[1, 2, 3, 4]⟩⟩) := rfl
    have h₂ : readLimit readBuffer ⟨2, ⟨[1, 2, 3, 4]⟩⟩ 1 1 =
        some (⟨[2], false⟩, ⟨1, ⟨[2, 3, 4]⟩⟩) := rfl
    exact .read (.read .start le_rfl trivial h₁) one_le_two trivial h₂
  obtain ⟨-, hleft, hrest, -⟩ :=
    limit_window bufferContract hany trivial (show 2 < 2 ^ 64 by norm_num) hrun
  exact ⟨_, hrun, hleft, hrest⟩

end ToolchainTools
