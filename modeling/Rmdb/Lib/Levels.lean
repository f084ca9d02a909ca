import Mathlib.Data.List.Basic
import Mathlib.Tactic.Common

/-! Forests level by level: each level lists the children of the one above it, in order. -/
namespace Levels

variable {α β : Type*} {children : α → List α} {f : α → List β}

theorem flatMap_eq_append_cons {up : List α} {pre post : List β} {x : β} (h : up.flatMap f = pre ++ x :: post) :
    ∃ u₁ y u₂ c₁ c₂, up = u₁ ++ y :: u₂ ∧ f y = c₁ ++ x :: c₂ ∧ pre = u₁.flatMap f ++ c₁ ∧
      post = c₂ ++ u₂.flatMap f := by
  induction up generalizing pre with
  | nil => simp at h
  | cons y up ih =>
    rw [List.flatMap_cons, List.append_eq_append_iff] at h
    rcases h with ⟨mid, hpre, hrest⟩ | ⟨mid, hhere, hrest⟩
    · obtain ⟨u₁, z, u₂, c₁, c₂, rfl, hz, hmid, hpost⟩ := ih hrest
      refine ⟨y :: u₁, z, u₂, c₁, c₂, rfl, hz, ?_, hpost⟩
      rw [hpre, hmid, List.flatMap_cons, List.append_assoc]
    · cases mid with
      | nil =>
        rw [List.nil_append] at hrest
        obtain ⟨u₁, z, u₂, c₁, c₂, rfl, hz, hmid, hpost⟩ := ih (show up.flatMap f = [] ++ x :: post from hrest.symm)
        refine ⟨y :: u₁, z, u₂, c₁, c₂, rfl, hz, ?_, hpost⟩
        rw [List.append_nil] at hhere
        rw [List.flatMap_cons, List.append_assoc, ← hmid, List.append_nil, hhere]
      | cons w mid =>
        rw [List.cons_append, List.cons.injEq] at hrest
        obtain ⟨rfl, hpost⟩ := hrest
        exact ⟨[], y, up, pre, mid, rfl, hhere, rfl, hpost⟩

/-- The nodes `n` levels below the given ones. -/
def descend (children : α → List α) : ℕ → List α → List α
  | 0, l => l
  | n + 1, l => descend children n (l.flatMap children)

theorem descend_append (n : ℕ) (l₁ l₂ : List α) :
    descend children n (l₁ ++ l₂) = descend children n l₁ ++ descend children n l₂ := by
  induction n generalizing l₁ l₂ with
  | zero => rfl
  | succ n ih => rw [descend, List.flatMap_append, ih, descend, descend]

/-- What is below some nodes is below one of them each. -/
theorem descend_eq_flatMap (n : ℕ) (l : List α) : descend children n l = l.flatMap fun a => descend children n [a] := by
  induction l with
  | nil =>
    induction n with
    | zero => rfl
    | succ n ih => exact ih
  | cons a l ih =>
    rw [← List.singleton_append, descend_append, ih]
    simp only [List.flatMap_append, List.flatMap_singleton]

/-- No node is without children: a level has as many nodes as the one above it, at least. -/
theorem length_le_descend (h : ∀ a, children a ≠ []) (n : ℕ) (l : List α) : l.length ≤ (descend children n l).length := by
  induction n generalizing l with
  | zero => exact Nat.le_refl _
  | succ n ih =>
    refine Nat.le_trans ?_ (ih (l.flatMap children))
    clear ih
    induction l with
    | nil => exact Nat.le_refl 0
    | cons a l ih =>
      have hpos := List.length_pos_iff.mpr (h a)
      rw [List.flatMap_cons, List.length_append, List.length_cons]
      omega

theorem descend_succ (n : ℕ) (l : List α) :
    descend children (n + 1) l = (descend children n l).flatMap children := by
  induction n generalizing l with
  | zero => rfl
  | succ n ih => rw [descend, ih, descend]

theorem descend_add (m n : ℕ) (l : List α) :
    descend children (m + n) l = descend children n (descend children m l) := by
  induction n with
  | zero => rfl
  | succ n ih => rw [← Nat.add_assoc, descend_succ, ih, descend_succ]

/-- Two forests whose nodes correspond have corresponding levels. -/
theorem descend_map {children' : β → List β} (g : α → β) (h : ∀ a, (children a).map g = children' (g a)) (n : ℕ)
    (l : List α) : (descend children n l).map g = descend children' n (l.map g) := by
  induction n generalizing l with
  | zero => rfl
  | succ n ih =>
    rw [descend, ih, descend, List.map_flatMap, List.flatMap_map]
    congr 2
    funext a
    exact h a

end Levels
