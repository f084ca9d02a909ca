import Mathlib.Data.List.Basic
import Mathlib.Data.List.Perm.Basic
import Mathlib.Tactic.Common

/-! The cross product of a list of lists. -/
namespace Product

variable {α β : Type*}

/-- One element of each list, in all ways. -/
def cross : List (List α) → List (List α)
  | [] => [[]]
  | l :: ls => l.flatMap fun a => (cross ls).map (a :: ·)

theorem mem_cross {ls : List (List α)} {c : List α} : c ∈ cross ls ↔ List.Forall₂ (· ∈ ·) c ls := by
  induction ls generalizing c with
  | nil => simp [cross]
  | cons l ls ih =>
    rw [cross, List.mem_flatMap]
    constructor
    · rintro ⟨a, ha, hc⟩
      obtain ⟨c, hmem, rfl⟩ := List.mem_map.mp hc
      exact .cons ha (ih.mp hmem)
    · intro h
      cases h with
      | cons ha hc => exact ⟨_, ha, List.mem_map_of_mem (ih.mpr hc)⟩

theorem mem_of_mem_cross {ls : List (List α)} {c : List α} (h : c ∈ cross ls) {a : α} (ha : a ∈ c) :
    ∃ l ∈ ls, a ∈ l := by
  rw [mem_cross] at h
  induction h with
  | nil => cases ha
  | cons hb _ ih =>
    rcases List.mem_cons.mp ha with rfl | ha
    · exact ⟨_, List.mem_cons_self, hb⟩
    · obtain ⟨l, hl, hin⟩ := ih ha
      exact ⟨l, List.mem_cons_of_mem _ hl, hin⟩

/-- The last list can be multiplied in last. -/
theorem cross_concat (ls : List (List α)) (l : List α) :
    cross (ls ++ [l]) = (cross ls).flatMap fun c => l.map fun a => c ++ [a] := by
  induction ls with
  | nil => simp [cross, ← List.map_eq_flatMap]
  | cons m ls ih =>
    rw [List.cons_append, cross, ih, cross, List.flatMap_assoc]
    congr 1
    funext a
    rw [List.map_flatMap, List.flatMap_map]
    simp only [List.map_map, Function.comp_def, List.cons_append]

/-- Filtering the lists filters the product. -/
theorem cross_filter (p : α → Bool) (ls : List (List α)) :
    cross (ls.map (List.filter p)) = (cross ls).filter fun c => c.all p := by
  induction ls with
  | nil => rfl
  | cons l ls ih =>
    rw [List.map_cons, cross, ih, cross]
    induction l with
    | nil => rfl
    | cons a l ihl =>
      have htail : ∀ b, p a = b → ((cross ls).map (a :: ·)).filter (fun c => c.all p) =
          if b then ((cross ls).filter fun c => c.all p).map (a :: ·) else [] := by
        intro b hb
        rw [List.filter_map]
        cases b with
        | true => simp [Function.comp_def, hb]
        | false => simp [Function.comp_def, hb]
      rw [List.flatMap_cons, List.filter_append, ← ihl]
      cases ha : p a with
      | true => rw [List.filter_cons_of_pos ha, List.flatMap_cons, htail true ha, if_pos rfl]
      | false => rw [List.filter_cons_of_neg (by simp [ha]), htail false ha]; rfl

theorem cross_map (f : α → β) (ls : List (List α)) :
    cross (ls.map (List.map f)) = (cross ls).map (List.map f) := by
  induction ls with
  | nil => rfl
  | cons l ls ih =>
    rw [List.map_cons, cross, ih, cross, List.map_flatMap, List.flatMap_map]
    simp only [List.map_map, Function.comp_def, List.map_cons]

theorem cross_perm {ls ls' : List (List α)} (h : List.Forall₂ List.Perm ls ls') : (cross ls).Perm (cross ls') := by
  induction h with
  | nil => exact .refl _
  | cons hl _ ih =>
    exact (hl.flatMap_right _).trans (List.Perm.flatMap_left _ fun a _ => ih.map _)

/-- All pairs of two lists, by the first or by the second. -/
theorem flatMap_comm_perm (l m : List α) (g : α → α → List β) :
    (l.flatMap fun a => m.flatMap fun b => g a b).Perm (m.flatMap fun b => l.flatMap fun a => g a b) := by
  induction l with
  | nil => simp
  | cons a l ih =>
    simp only [List.flatMap_cons]
    exact (ih.append_left _).trans (List.flatMap_append_perm m (g a) fun b => l.flatMap fun a => g a b)

/-- Lists with different keys can be multiplied in any order, as far as `f` does not see the order of
two elements with different keys. -/
theorem cross_reorder {κ : Type*} {entries entries' : List (κ × List α)} (hperm : entries.Perm entries')
    (hnodup : (entries.map (·.1)).Nodup) (key : α → κ) (hkey : ∀ e ∈ entries, ∀ a ∈ e.2, key a = e.1)
    {f : List α → β} (hf : ∀ s x y q, key x ≠ key y → f (s ++ x :: y :: q) = f (s ++ y :: x :: q)) :
    ((cross (entries.map (·.2))).map f).Perm ((cross (entries'.map (·.2))).map f) := by
  induction hperm generalizing f with
  | nil => exact .refl _
  | @cons e l l' _ ih =>
    rw [List.map_cons, List.map_cons, cross, cross, List.map_flatMap, List.map_flatMap]
    refine List.Perm.flatMap_left _ fun a _ => ?_
    rw [List.map_map, List.map_map]
    refine ih (List.nodup_cons.mp hnodup).2 (fun e he => hkey e (List.mem_cons_of_mem _ he)) fun s x y q hne => ?_
    exact hf (a :: s) x y q hne
  | swap e e' l =>
    have hne : e'.1 ≠ e.1 := by
      rw [List.map_cons, List.map_cons, List.nodup_cons, List.mem_cons] at hnodup
      exact fun heq => hnodup.1 (.inl heq)
    simp only [List.map_cons, cross, List.map_flatMap, List.map_map, Function.comp_def]
    refine (flatMap_comm_perm e'.2 e.2 fun b a => (cross (l.map (·.2))).map fun c => f (b :: a :: c)).trans ?_
    refine List.Perm.flatMap_left _ fun a ha => List.Perm.flatMap_left _ fun b hb => .of_eq ?_
    refine List.map_congr_left fun c _ => hf [] b a c ?_
    rw [hkey e' (List.mem_cons_self) b hb, hkey e (List.mem_cons_of_mem _ List.mem_cons_self) a ha]
    exact hne
  | trans hl hl' ih ih' =>
    refine (ih hnodup hkey hf).trans (ih' ((hl.map _).nodup_iff.mp hnodup) (fun e he => hkey e (hl.mem_iff.mpr he)) hf)

/-! ### Pairs and those of the left that have one -/

end Product
