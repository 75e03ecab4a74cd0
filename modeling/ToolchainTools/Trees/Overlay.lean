import Mathlib.Data.List.Infix
import Mathlib.Data.List.Pairwise
import Mathlib.Data.List.Perm.Basic

/-!
# Leaves over a tree

A tree is seen as what each of its places holds, and a place is the list of the names that lead
to it. Laying leaves over a tree puts them at their places and makes every place above them a
directory (`overlay`). Planting them at a place empties that place first (`plant`). Leaves of which
none is above another one can be laid in any order (`overlay_swap`), and so can trees be planted at
places that are unrelated (`plant_comm`).
-/

namespace Trees

variable {ν N : Type}

/-- Neither place is the other one or above it. -/
def Unrelated (a b : List ν) : Prop := ¬ a <+: b ∧ ¬ b <+: a

/-- A place above one of the leaves. -/
def Above (leaves : List (List ν × N)) (l : List ν) : Prop := ∃ e ∈ leaves, l <+: e.1 ∧ l ≠ e.1

section Decidable

variable [DecidableEq ν]

instance decidableUnrelated (a b : List ν) : Decidable (Unrelated a b) := inferInstanceAs (Decidable (_ ∧ _))

instance decidableAbove (leaves : List (List ν × N)) (l : List ν) : Decidable (Above leaves l) :=
  inferInstanceAs (Decidable (∃ e ∈ leaves, l <+: e.1 ∧ l ≠ e.1))

/-- The tree `base` with leaves laid over it. -/
def overlay (dir : N) (base : List ν → Option N) (leaves : List (List ν × N)) (l : List ν) :
    Option N :=
  if Above leaves l then some dir else (leaves.lookup l).or (base l)

/-- The tree without `p` and what is below it. -/
def prune (p : List ν) (view : List ν → Option N) (l : List ν) : Option N :=
  if p <+: l then none else view l

/-- Leaves that are moved below `p`. -/
def shift (p : List ν) (leaves : List (List ν × N)) : List (List ν × N) :=
  leaves.map fun e => (p ++ e.1, e.2)

/-- The tree in which nothing but the leaves is at `p`. -/
def plant (dir : N) (p : List ν) (leaves : List (List ν × N)) (view : List ν → Option N) :
    List ν → Option N :=
  overlay dir (prune p view) (shift p leaves)

end Decidable

/-! ## Places -/

section Places

variable {a b p q l : List ν} {A B leaves : List (List ν × N)}

theorem Unrelated.symm (h : Unrelated a b) : Unrelated b a := ⟨h.2, h.1⟩

theorem Unrelated.ne (h : Unrelated a b) : a ≠ b := by
  rintro rfl
  exact h.1 List.prefix_rfl

/-- What is below unrelated places is unrelated too. -/
theorem Unrelated.append_right (h : Unrelated p q) (r : List ν) : Unrelated p (q ++ r) := by
  constructor
  · intro hpre
    rcases List.prefix_or_prefix_of_prefix hpre (List.prefix_append q r) with hl | hr
    · exact h.1 hl
    · exact h.2 hr
  · intro hpre
    exact h.2 ((List.prefix_append q r).trans hpre)

theorem Above.append : Above (A ++ B) l ↔ Above A l ∨ Above B l := by
  unfold Above
  simp only [List.mem_append, or_and_right, exists_or]

theorem mem_shift {e : List ν × N} :
    e ∈ shift p leaves ↔ ∃ k ∈ leaves, (p ++ k.1, k.2) = e := by
  unfold shift
  rw [List.mem_map]

theorem Unrelated.shift (h : Unrelated p q) : ∀ e ∈ shift q leaves, Unrelated p e.1 := by
  intro e he
  obtain ⟨k, -, rfl⟩ := mem_shift.mp he
  exact h.append_right k.1

theorem shift_append (p : List ν) (A B : List (List ν × N)) :
    shift p (A ++ B) = shift p A ++ shift p B := List.map_append

theorem shift_unrelated (h : Unrelated p q) : ∀ a ∈ shift p A, ∀ b ∈ shift q B, Unrelated a.1 b.1 := by
  intro a ha b hb
  obtain ⟨k, -, rfl⟩ := mem_shift.mp ha
  exact (h.symm.append_right k.1).symm.shift b hb

end Places

/-! ## Laying leaves -/

section Overlay

variable [DecidableEq ν] {dir : N} {base view : List ν → Option N} {p q l : List ν} {n : N}
  {A B leaves : List (List ν × N)}

theorem mem_of_lookup_eq (h : leaves.lookup l = some n) : (l, n) ∈ leaves := by
  induction leaves with
  | nil => cases h
  | cons e leaves ih =>
    obtain ⟨k, m⟩ := e
    rw [List.lookup_cons] at h
    split at h
    · rename_i heq
      obtain rfl := eq_of_beq heq
      cases h
      exact List.mem_cons_self
    · exact List.mem_cons_of_mem _ (ih h)

theorem lookup_append_or (A B : List (List ν × N)) (l : List ν) :
    (A ++ B).lookup l = (A.lookup l).or (B.lookup l) := by
  induction A with
  | nil => simp
  | cons e A ih =>
    rw [List.cons_append, List.lookup_cons, List.lookup_cons, ih]
    split
    · rfl
    · rfl

@[simp] theorem overlay_nil (dir : N) (base : List ν → Option N) : overlay dir base [] = base := by
  funext l
  simp [overlay, Above]

theorem overlay_singleton (dir : N) (base : List ν → Option N) (p l : List ν) (n : N) :
    overlay dir base [(p, n)] l =
      if l = p then some n else if l <+: p then some dir else base l := by
  have habove : Above [(p, n)] l ↔ l <+: p ∧ l ≠ p := by simp [Above]
  unfold overlay
  rw [if_congr habove rfl rfl, List.lookup_cons]
  by_cases hl : l = p
  · rw [if_pos hl, if_neg fun h => h.2 hl, hl, beq_self_eq_true]
    rfl
  · rw [if_neg hl, beq_eq_false_iff_ne.mpr hl]
    simp [hl]

theorem overlay_above (h : Above leaves l) : overlay dir base leaves l = some dir := if_pos h

/-- What a place holds: it is above a leaf, a leaf, or as it was. -/
theorem overlay_cases (dir : N) (base : List ν → Option N) (leaves : List (List ν × N))
    (l : List ν) :
    overlay dir base leaves l = some dir ∨
      (∃ e ∈ leaves, e.1 = l ∧ overlay dir base leaves l = some e.2) ∨
      overlay dir base leaves l = base l := by
  unfold overlay
  split
  · exact Or.inl rfl
  · cases hlookup : leaves.lookup l with
    | none =>
      right; right
      rfl
    | some n =>
      right; left
      exact ⟨_, mem_of_lookup_eq hlookup, rfl, rfl⟩

/-- Where no leaf is, nor below, nothing has changed. -/
theorem overlay_base (h : ∀ e ∈ leaves, ¬ l <+: e.1) : overlay dir base leaves l = base l := by
  have hnot : ¬ Above leaves l := by
    rintro ⟨e, he, hpre, -⟩
    exact h e he hpre
  have hnone : leaves.lookup l = none := by
    cases hlookup : leaves.lookup l with
    | none => rfl
    | some n => exact absurd List.prefix_rfl (h _ (mem_of_lookup_eq hlookup))
  rw [overlay, if_neg hnot, hnone, Option.none_or]

/-- A leaf is at its place. -/
theorem overlay_leaf (hpairs : leaves.Pairwise fun a b => Unrelated a.1 b.1) {e : List ν × N}
    (he : e ∈ leaves) : overlay dir base leaves e.1 = some e.2 := by
  have hnot : ¬ Above leaves e.1 := by
    rintro ⟨k, hk, hpre, hne⟩
    have hsymm : Std.Symm fun a b : List ν × N => Unrelated a.1 b.1 := ⟨fun _ _ h => h.symm⟩
    have heq : e ≠ k := fun heq => hne (by rw [heq])
    exact (hpairs.forall he hk heq).1 hpre
  have hlookup : leaves.lookup e.1 = some e.2 := by
    clear hnot
    induction leaves with
    | nil => cases he
    | cons k leaves ih =>
      rw [List.lookup_cons]
      obtain ⟨hfirst, hrest⟩ := List.pairwise_cons.mp hpairs
      rcases List.mem_cons.mp he with rfl | he
      · rw [beq_self_eq_true]
      · have hb : (e.1 == k.1) = false := beq_eq_false_iff_ne.mpr (hfirst e he).ne.symm
        rw [hb]
        exact ih hrest he
  rw [overlay, if_neg hnot, hlookup, Option.some_or]

theorem not_above_of_lookup (hpairs : ∀ a ∈ A, ∀ b ∈ B, Unrelated a.1 b.1)
    (hlookup : B.lookup l = some n) : ¬ Above A l ∧ A.lookup l = none := by
  have hb := mem_of_lookup_eq hlookup
  constructor
  · rintro ⟨a, ha, hpre, -⟩
    exact (hpairs a ha _ hb).2 hpre
  · cases hA : A.lookup l with
    | none => rfl
    | some m => exact absurd rfl (hpairs _ (mem_of_lookup_eq hA) _ hb).ne

/-- Leaves that are laid one list after the other. -/
theorem overlay_append (hpairs : ∀ a ∈ A, ∀ b ∈ B, Unrelated a.1 b.1) :
    overlay dir (overlay dir base A) B = overlay dir base (A ++ B) := by
  funext l
  unfold overlay
  rw [lookup_append_or]
  by_cases hB : Above B l
  · rw [if_pos hB, if_pos (Above.append.mpr (Or.inr hB))]
  · rw [if_neg hB]
    cases hlookup : B.lookup l with
    | some n =>
      obtain ⟨hA, hnone⟩ := not_above_of_lookup hpairs hlookup
      rw [if_neg (fun h => (Above.append.mp h).elim hA hB), hnone]
      rfl
    | none =>
      rw [Option.none_or, Option.or_none]
      by_cases hA : Above A l
      · rw [if_pos hA, if_pos (Above.append.mpr (Or.inl hA))]
      · rw [if_neg hA, if_neg fun h => (Above.append.mp h).elim hA hB]

/-- Two lists of leaves can be laid in either order. -/
theorem overlay_swap (hpairs : ∀ a ∈ A, ∀ b ∈ B, Unrelated a.1 b.1) :
    overlay dir base (A ++ B) = overlay dir base (B ++ A) := by
  funext l
  unfold overlay
  have habove : Above (A ++ B) l ↔ Above (B ++ A) l := by
    rw [Above.append, Above.append, or_comm]
  rw [lookup_append_or, lookup_append_or, if_congr habove rfl rfl]
  cases hlookup : B.lookup l with
  | none => rw [Option.or_none, Option.none_or]
  | some n => rw [(not_above_of_lookup hpairs hlookup).2, Option.none_or, Option.or_none]

/-- What is pruned away from the leaves may be pruned before. -/
theorem prune_overlay (h : ∀ e ∈ leaves, Unrelated p e.1) :
    prune p (overlay dir base leaves) = overlay dir (prune p base) leaves := by
  funext l
  unfold prune
  by_cases hl : p <+: l
  · rw [if_pos hl, overlay_base fun e he hpre => (h e he).1 (hl.trans hpre), if_pos hl]
  · rw [if_neg hl, overlay, overlay, if_neg hl]

theorem prune_comm (p q : List ν) (view : List ν → Option N) :
    prune p (prune q view) = prune q (prune p view) := by
  funext l
  unfold prune
  split
  · split <;> rfl
  · rfl

/-! ## Planting -/

/-- Below the place there are the leaves and nothing else, whatever the tree is. -/
theorem plant_below (r : List ν) :
    plant dir p leaves view (p ++ r) = overlay dir (fun _ => none) leaves r := by
  have habove : Above (shift p leaves) (p ++ r) ↔ Above leaves r := by
    constructor
    · rintro ⟨e, he, hpre, hne⟩
      obtain ⟨k, hk, rfl⟩ := mem_shift.mp he
      exact ⟨k, hk, (List.prefix_append_right_inj p).mp hpre, fun heq => hne (by rw [heq])⟩
    · rintro ⟨k, hk, hpre, hne⟩
      exact ⟨_, mem_shift.mpr ⟨k, hk, rfl⟩, (List.prefix_append_right_inj p).mpr hpre,
        fun heq => hne (List.append_cancel_left heq)⟩
  have hlookup : (shift p leaves).lookup (p ++ r) = leaves.lookup r := by
    clear habove
    induction leaves with
    | nil => rfl
    | cons e leaves ih =>
      rw [shift, List.map_cons, List.lookup_cons, List.lookup_cons, ← shift, ih]
      have hb : (p ++ r == p ++ e.1) = (r == e.1) := by
        rw [Bool.eq_iff_iff, beq_iff_eq, beq_iff_eq, List.append_cancel_left_eq]
      rw [hb]
  unfold plant overlay
  rw [if_congr habove rfl rfl, hlookup, prune, if_pos (List.prefix_append p r)]

/-- An unrelated place keeps what it holds. -/
theorem plant_unrelated (h : Unrelated p l) : plant dir p leaves view l = view l := by
  unfold plant
  rw [overlay_base fun e he hpre => (h.symm.shift e he).1 hpre, prune, if_neg h.1]

theorem plant_comm (h : Unrelated p q) :
    plant dir p A (plant dir q B view) = plant dir q B (plant dir p A view) := by
  unfold plant
  rw [prune_overlay h.shift, prune_overlay h.symm.shift, prune_comm,
    overlay_append (shift_unrelated h.symm), overlay_append (shift_unrelated h),
    overlay_swap (shift_unrelated h.symm)]

end Overlay

end Trees
