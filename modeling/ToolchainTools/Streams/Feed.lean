import ToolchainTools.Streams.Contract

/-!
# Feeds

A consumer that takes every window whole and then asks for one byte more needs less than the
read contract. A `Feed` says what it needs: while `rest` is ahead, a read for one byte offers the
next piece of it, and nothing only when nothing is left. Every reader that keeps the contract is a
feed (`Contract.feed`), and so can be one that keeps it only for short requests.
-/

namespace Streams

open CLib

variable {σ : Type}

/-- What a reader promises to a consumer that asks for one byte at a time. -/
structure Feed (read : Reader σ) where
  ahead : Bytes → σ → Prop
  lent : σ → Nat
  lent_le : ∀ rest s, ahead rest s → lent s ≤ rest.length
  serve : ∀ rest s consume, ahead rest s → consume ≤ lent s →
    ∃ w s', read s consume 1 = some (w, s') ∧ ahead (rest.drop consume) s' ∧
      lent s' = w.bytes.length ∧ Serves rest consume 1 w (rest.drop consume)

/-- A reader that keeps the contract. -/
def Contract.feed {read : Reader σ} (C : Contract read) : Feed read where
  ahead rest s := C.valid s ∧ C.rest s = rest
  lent := C.lent
  lent_le rest s h := by
    rw [← h.2]
    exact C.lent_le s h.1
  serve rest s consume h hconsume := by
    obtain ⟨hvalid, rfl⟩ := h
    obtain ⟨w, s', hread, hvalid', hlent, hserve⟩ :=
      C.serve s consume 1 hvalid hconsume (by norm_num)
    rw [← hserve.rest_eq]
    exact ⟨w, s', hread, ⟨hvalid', rfl⟩, hlent, hserve⟩

namespace Feed

variable {read : Reader σ}

/-- A read offers a piece of what is left, or nothing is left. -/
theorem step (F : Feed read) {rest : Bytes} {s : σ} (h : F.ahead rest s) :
    ∃ w s', read s (F.lent s) 1 = some (w, s') ∧ F.ahead (rest.drop (F.lent s)) s' ∧
      F.lent s' = w.bytes.length ∧
      (w.bytes = [] → rest.drop (F.lent s) = []) ∧
      w.bytes ++ (rest.drop (F.lent s)).drop w.bytes.length = rest.drop (F.lent s) := by
  obtain ⟨w, s', hread, hahead, hlent, hserve⟩ := F.serve rest s (F.lent s) h le_rfl
  refine ⟨w, s', hread, hahead, hlent, ?_, ?_⟩
  · intro hnil
    have henough := hserve.enough
    rw [hnil, List.length_nil] at henough
    rw [← List.length_eq_zero_iff]
    omega
  · obtain ⟨tail, htail⟩ := hserve.initial
    rw [← htail, List.drop_left]

/-- A feed below a reader whose states contain those of the feed. -/
def embed {τ : Type} {outer : Reader τ} (F : Feed read) (ι : σ → τ) (lent : τ → Nat)
    (hlent : ∀ s, lent (ι s) = F.lent s)
    (houter : ∀ s consume need,
      outer (ι s) consume need = (read s consume need).map fun r => (r.1, ι r.2)) : Feed outer where
  ahead rest t := ∃ s, ι s = t ∧ F.ahead rest s
  lent := lent
  lent_le rest t h := by
    obtain ⟨s, rfl, hahead⟩ := h
    rw [hlent]
    exact F.lent_le rest s hahead
  serve rest t consume h hconsume := by
    obtain ⟨s, rfl, hahead⟩ := h
    rw [hlent] at hconsume
    obtain ⟨w, s', hread, hahead', hlent', hserve⟩ := F.serve rest s consume hahead hconsume
    refine ⟨w, ι s', ?_, ⟨s', rfl, hahead'⟩, (hlent s').trans hlent', hserve⟩
    rw [houter, hread]
    rfl

end Feed

end Streams
