import ToolchainTools.Download.Catalog

/-!
# What a run is about

Apart from its own files, `main` is about a tree, the urls that are installed at the paths and the
hashes that are pinned to the urls: a `Ledger`. A line of the manifest plants the leaves of its url
at its path unless that has been done, and a run ends early only at a url that is pinned to another
hash (`Ledger.lines`). Lines whose paths are unrelated can be settled in any order
(`settleAll_perm`), and settling them again changes nothing (`settleAll_again`).
-/

namespace ToolchainTools

open CLib Posix Trees

/-- What a url stands for. -/
structure Release where
  content : Bytes
  leaves : Leaves

/-- Where the working directory is, what the urls stand for, and the hash. -/
structure Shop where
  cwd : Loc
  catalog : Bytes → Release
  sha256 : Bytes → Fin 32 → UInt8

namespace Shop

/-- The text that a url is pinned to. -/
def pin (shop : Shop) (url : Bytes) : Bytes := hashText (shop.sha256 (shop.catalog url).content)

def place (shop : Shop) (path : Bytes) : Loc := shop.cwd ++ components path

end Shop

structure Ledger where
  tree : Loc → Option Node
  done : Bytes → Option Bytes
  pins : Bytes → Option Bytes

namespace Ledger

/-- The leaves of the url at the path, and nothing else there. -/
def install (shop : Shop) (s : Ledger) (e : Bytes × Bytes) : Ledger where
  tree := plant .dir (shop.place e.1) (shop.catalog e.2).leaves s.tree
  done := Function.update s.done e.1 (some e.2)
  pins := Function.update s.pins e.2 (some (shop.pin e.2))

/-- The url is new or has the hash that it is pinned to. -/
def Trusts (shop : Shop) (s : Ledger) (url : Bytes) : Prop :=
  s.pins url = none ∨ s.pins url = some (shop.pin url)

instance decidableTrusts (shop : Shop) (s : Ledger) (url : Bytes) : Decidable (s.Trusts shop url) :=
  inferInstanceAs (Decidable (_ ∨ _))

/-- A line with a path and a url. When the url is not trusted, the path is already empty. -/
def line (shop : Shop) (s : Ledger) (e : Bytes × Bytes) : Outcome × Ledger :=
  if s.done e.1 = some e.2 then (.next, s)
  else if s.Trusts shop e.2 then (.next, s.install shop e)
  else (.exit 10, { s with tree := prune (shop.place e.1) s.tree })

/-- The lines, up to the first one that is not gone beyond. -/
def lines (shop : Shop) (s : Ledger) : List (Bytes × Bytes) → Outcome × Ledger
  | [] => (.next, s)
  | e :: es =>
    if (s.line shop e).1 = .next then (s.line shop e).2.lines shop es else s.line shop e

/-- A whole run, with the code it exits with. -/
def run (shop : Shop) (s : Ledger) (es : List (Bytes × Bytes)) : Outcome × Ledger :=
  (if (s.lines shop es).1 = .next then .exit 0 else (s.lines shop es).1, (s.lines shop es).2)

/-- A line that is gone beyond. -/
def settle (shop : Shop) (s : Ledger) (e : Bytes × Bytes) : Ledger :=
  if s.done e.1 = some e.2 then s else s.install shop e

def settleAll (shop : Shop) (s : Ledger) (es : List (Bytes × Bytes)) : Ledger :=
  es.foldl (settle shop) s

end Ledger

/-- The paths of the lines are unrelated. -/
def Spread (es : List (Bytes × Bytes)) : Prop :=
  es.Pairwise fun a b => Unrelated (components a.1) (components b.1)

section Settle

open Ledger

variable {shop : Shop} {s : Ledger} {e e' : Bytes × Bytes} {es es' : List (Bytes × Bytes)}

theorem Spread.forall (h : Spread es) (he : e ∈ es) (he' : e' ∈ es) (hne : e ≠ e') :
    Unrelated (components e.1) (components e'.1) := by
  have hsymm : Std.Symm fun a b : Bytes × Bytes => Unrelated (components a.1) (components b.1) :=
    ⟨fun _ _ h => h.symm⟩
  exact List.Pairwise.forall h he he' hne

theorem Spread.perm (h : Spread es) (hperm : es.Perm es') : Spread es' :=
  (hperm.pairwise_iff fun h => h.symm).mp h

theorem path_ne (h : Unrelated (components e.1) (components e'.1)) : e.1 ≠ e'.1 := by
  intro heq
  rw [heq] at h
  exact h.ne rfl

theorem place_unrelated_of (h : Unrelated (components e.1) (components e'.1)) :
    Unrelated (shop.place e.1) (shop.place e'.1) :=
  ⟨fun hpre => h.1 ((List.prefix_append_right_inj _).mp hpre),
    fun hpre => h.2 ((List.prefix_append_right_inj _).mp hpre)⟩

/-- A line says nothing about other paths. -/
theorem settle_done_ne (hne : e.1 ≠ e'.1) : (s.settle shop e).done e'.1 = s.done e'.1 := by
  unfold settle
  split
  · rfl
  · exact Function.update_of_ne hne.symm ..

theorem settle_done (shop : Shop) (s : Ledger) (e : Bytes × Bytes) :
    (s.settle shop e).done e.1 = some e.2 := by
  unfold settle
  split
  · rename_i hdone
    exact hdone
  · exact Function.update_self ..

theorem install_comm (h : Unrelated (components e.1) (components e'.1)) :
    (s.install shop e).install shop e' = (s.install shop e').install shop e := by
  have hpins : ∀ pins : Bytes → Option Bytes,
      Function.update (Function.update pins e.2 (some (shop.pin e.2))) e'.2
        (some (shop.pin e'.2)) =
      Function.update (Function.update pins e'.2 (some (shop.pin e'.2))) e.2
        (some (shop.pin e.2)) := by
    intro pins
    by_cases heq : e.2 = e'.2
    · rw [heq]
    · exact Function.update_comm heq ..
  unfold install
  dsimp only
  rw [plant_comm (place_unrelated_of h).symm, Function.update_comm (path_ne h), hpins]

/-- Lines with unrelated paths are settled in either order. -/
theorem settle_comm (h : Unrelated (components e.1) (components e'.1)) :
    (s.settle shop e).settle shop e' = (s.settle shop e').settle shop e := by
  have hdone : ((s.install shop e).done e'.1 = some e'.2) = (s.done e'.1 = some e'.2) := by
    rw [show (s.install shop e).done e'.1 = s.done e'.1 from
      Function.update_of_ne (path_ne h).symm ..]
  have hdone' : ((s.install shop e').done e.1 = some e.2) = (s.done e.1 = some e.2) := by
    rw [show (s.install shop e').done e.1 = s.done e.1 from Function.update_of_ne (path_ne h) ..]
  by_cases hd : s.done e.1 = some e.2
  · by_cases hd' : s.done e'.1 = some e'.2
    · simp [settle, hd, hd']
    · simp [settle, hd, hd', hdone']
  · by_cases hd' : s.done e'.1 = some e'.2
    · simp [settle, hd, hd', hdone]
    · simp [settle, hd, hd', hdone, hdone', install_comm h]

/-- The order of the lines does not matter. -/
theorem settleAll_perm (hspread : Spread es) (hperm : es.Perm es') :
    s.settleAll shop es = s.settleAll shop es' := by
  apply hperm.foldl_eq'
  intro a ha b hb z
  by_cases heq : a = b
  · rw [heq]
  · exact settle_comm (hspread.forall ha hb heq)

theorem settleAll_done_ne (h : ∀ a ∈ es, a.1 ≠ e.1) :
    (s.settleAll shop es).done e.1 = s.done e.1 := by
  induction es generalizing s with
  | nil => rfl
  | cons a es ih =>
    have hrest := @ih (s.settle shop a) fun b hb => h b (List.mem_cons_of_mem _ hb)
    rw [settle_done_ne (h a List.mem_cons_self)] at hrest
    exact hrest

/-- Every line is settled. -/
theorem settleAll_done (hspread : Spread es) (he : e ∈ es) :
    (s.settleAll shop es).done e.1 = some e.2 := by
  induction es generalizing s with
  | nil => cases he
  | cons a es ih =>
    obtain ⟨hfirst, hrest⟩ := List.pairwise_cons.mp hspread
    rcases List.mem_cons.mp he with rfl | he
    · have hlast := @settleAll_done_ne shop (s.settle shop e) e es
        fun b hb => (path_ne (hfirst b hb)).symm
      exact hlast.trans (settle_done shop s e)
    · exact ih hrest he

/-- What has been settled is left alone. -/
theorem settleAll_of_done (h : ∀ a ∈ es, s.done a.1 = some a.2) : s.settleAll shop es = s := by
  induction es with
  | nil => rfl
  | cons a es ih =>
    have hsame : s.settle shop a = s := if_pos (h a List.mem_cons_self)
    show (s.settle shop a).settleAll shop es = s
    rw [hsame]
    exact ih fun b hb => h b (List.mem_cons_of_mem _ hb)

theorem settleAll_append (shop : Shop) (s : Ledger) (es es' : List (Bytes × Bytes)) :
    s.settleAll shop (es ++ es') = (s.settleAll shop es).settleAll shop es' := List.foldl_append

/-- Behind a run with fewer lines, only the new lines are left to settle. -/
theorem settleAll_again (hspread : Spread es') {new : List (Bytes × Bytes)}
    (hperm : es'.Perm (es ++ new)) :
    (s.settleAll shop es).settleAll shop es' = s.settleAll shop es' := by
  have hall : Spread (es ++ new) := hspread.perm hperm
  have hes : Spread es := (List.pairwise_append.mp hall).1
  rw [settleAll_perm hspread hperm, settleAll_perm hspread hperm, settleAll_append, settleAll_append,
    settleAll_of_done fun a ha => settleAll_done hes ha]

/-! ## The tree -/

theorem settle_tree {l : Loc} (h : Unrelated (shop.place e.1) l) : (s.settle shop e).tree l = s.tree l := by
  unfold settle
  split
  · rfl
  · exact plant_unrelated h

/-- A place that is unrelated to all paths keeps what it holds. -/
theorem settleAll_tree {l : Loc} (h : ∀ a ∈ es, Unrelated (shop.place a.1) l) :
    (s.settleAll shop es).tree l = s.tree l := by
  induction es generalizing s with
  | nil => rfl
  | cons a es ih =>
    have hrest := @ih (s.settle shop a) fun b hb => h b (List.mem_cons_of_mem _ hb)
    rw [settle_tree (h a List.mem_cons_self)] at hrest
    exact hrest

/-- At a path that was not settled before there are the leaves of its url and nothing else. -/
theorem settleAll_below (hspread : Spread es) (he : e ∈ es) (hnew : s.done e.1 ≠ some e.2)
    (r : Loc) :
    (s.settleAll shop es).tree (shop.place e.1 ++ r) =
      overlay .dir (fun _ => none) (shop.catalog e.2).leaves r := by
  induction es generalizing s with
  | nil => cases he
  | cons a es ih =>
    obtain ⟨hfirst, hrest⟩ := List.pairwise_cons.mp hspread
    rcases List.mem_cons.mp he with rfl | he
    · have hlast := @settleAll_tree shop (s.settle shop e) es (shop.place e.1 ++ r) fun b hb =>
        (place_unrelated_of (hfirst b hb).symm).append_right r
      refine hlast.trans ?_
      unfold settle
      rw [if_neg hnew]
      exact plant_below r
    · refine ih hrest he ?_
      rw [settle_done_ne (path_ne (hfirst e he))]
      exact hnew

/-- A url stays pinned to its hash. -/
theorem settle_pin {url : Bytes} (h : s.pins url = some (shop.pin url)) :
    (s.settle shop e).pins url = some (shop.pin url) := by
  unfold settle
  split
  · exact h
  · unfold install
    dsimp only
    by_cases heq : url = e.2
    · rw [heq, Function.update_self]
    · rw [Function.update_of_ne heq, h]

theorem settleAll_pin {url : Bytes} (h : s.pins url = some (shop.pin url)) :
    (s.settleAll shop es).pins url = some (shop.pin url) := by
  induction es generalizing s with
  | nil => exact h
  | cons a es ih => exact ih (settle_pin h)

/-- The url of a line that was not settled before is pinned. -/
theorem settleAll_pins (hspread : Spread es) (he : e ∈ es) (hnew : s.done e.1 ≠ some e.2) :
    (s.settleAll shop es).pins e.2 = some (shop.pin e.2) := by
  induction es generalizing s with
  | nil => cases he
  | cons a es ih =>
    obtain ⟨hfirst, hrest⟩ := List.pairwise_cons.mp hspread
    rcases List.mem_cons.mp he with rfl | he
    · refine @settleAll_pin shop (s.settle shop e) es e.2 ?_
      unfold settle
      rw [if_neg hnew]
      exact Function.update_self ..
    · refine ih hrest he ?_
      rw [settle_done_ne (path_ne (hfirst e he))]
      exact hnew

/-! ## Where a run ends -/

/-- The line is settled, or its url is trusted. -/
def Passes (shop : Shop) (s : Ledger) (e : Bytes × Bytes) : Prop :=
  s.done e.1 = some e.2 ∨ s.Trusts shop e.2

theorem settle_trusts (h : s.Trusts shop e.2) (url : Bytes) :
    (s.settle shop e).Trusts shop url ↔ s.Trusts shop url := by
  unfold settle
  split
  · rfl
  · unfold Trusts install
    dsimp only
    by_cases heq : url = e.2
    · rw [heq, Function.update_self]
      exact iff_of_true (Or.inr rfl) h
    · rw [Function.update_of_ne heq]

/-- A line that passes takes nothing away from the lines with other paths. -/
theorem settle_passes (h : Passes shop s e) (hne : e.1 ≠ e'.1) :
    Passes shop (s.settle shop e) e' ↔ Passes shop s e' := by
  unfold Passes
  rw [settle_done_ne hne]
  by_cases hdone : s.done e.1 = some e.2
  · rw [show s.settle shop e = s from if_pos hdone]
  · rw [settle_trusts (h.resolve_left hdone)]

theorem line_passes (h : Passes shop s e) : s.line shop e = (.next, s.settle shop e) := by
  unfold line settle
  split
  · rfl
  · rename_i hdone
    rw [if_pos (h.resolve_left hdone)]

theorem line_stops (h : ¬ Passes shop s e) :
    s.line shop e = (.exit 10, { s with tree := prune (shop.place e.1) s.tree }) := by
  unfold Passes at h
  rw [not_or] at h
  unfold line
  rw [if_neg h.1, if_neg h.2]

theorem lines_pass (hspread : Spread es) (h : ∀ a ∈ es, Passes shop s a) :
    s.lines shop es = (.next, s.settleAll shop es) := by
  induction es generalizing s with
  | nil => rfl
  | cons a es ih =>
    obtain ⟨hfirst, hrest⟩ := List.pairwise_cons.mp hspread
    have hpass := h a List.mem_cons_self
    unfold lines
    rw [line_passes hpass, if_pos rfl]
    exact ih hrest fun b hb => (settle_passes hpass (path_ne (hfirst b hb))).mpr
      (h b (List.mem_cons_of_mem _ hb))

/-- A run settles all its lines, or those before the first one that does not pass. -/
theorem lines_cases (hspread : Spread es) :
    ((∀ a ∈ es, Passes shop s a) ∧ s.lines shop es = (.next, s.settleAll shop es)) ∨
      ∃ before e after, es = before ++ e :: after ∧ (∀ a ∈ before, Passes shop s a) ∧
        ¬ Passes shop s e ∧ s.lines shop es = (.exit 10,
          { s.settleAll shop before with
            tree := prune (shop.place e.1) (s.settleAll shop before).tree }) := by
  induction es generalizing s with
  | nil => exact Or.inl ⟨by simp, rfl⟩
  | cons a es ih =>
    obtain ⟨hfirst, hrest⟩ := List.pairwise_cons.mp hspread
    by_cases hpass : Passes shop s a
    · have hsame : ∀ b ∈ es, Passes shop (s.settle shop a) b ↔ Passes shop s b :=
        fun b hb => settle_passes hpass (path_ne (hfirst b hb))
      have hstep : s.lines shop (a :: es) = (s.settle shop a).lines shop es := by
        rw [lines, line_passes hpass, if_pos rfl]
      rcases @ih (s.settle shop a) hrest with ⟨hall, hrun⟩ | ⟨before, e, after, rfl, hbefore, hnot, hrun⟩
      · left
        refine ⟨?_, hstep.trans hrun⟩
        intro b hb
        rcases List.mem_cons.mp hb with rfl | hb
        · exact hpass
        · exact (hsame b hb).mp (hall b hb)
      · right
        refine ⟨a :: before, e, after, rfl, ?_, ?_, hstep.trans hrun⟩
        · intro b hb
          rcases List.mem_cons.mp hb with rfl | hb
          · exact hpass
          · exact (hsame b (List.mem_append_left _ hb)).mp (hbefore b hb)
        · exact fun he => hnot ((hsame e (by simp)).mpr he)
    · right
      refine ⟨[], a, es, rfl, by simp, hpass, ?_⟩
      have hline := line_stops hpass
      rw [lines, hline, if_neg (by simp)]
      rfl

end Settle

end ToolchainTools
