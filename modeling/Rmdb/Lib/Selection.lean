import Mathlib.Data.List.Nodup
import Mathlib.Order.Lattice

/-! Selecting the first of the least elements again and again. -/
namespace Selection

variable {α κ : Type} [LinearOrder κ] {key : α → κ} {l pre post : List α} {a b m : α}

/-- The loop that replaces its candidate by a smaller element only. -/
def better (key : α → κ) (least : Option α) (a : α) : Option α :=
  match least with
  | none => some a
  | some m => if key a < key m then some a else some m

def firstMin (key : α → κ) (l : List α) : Option α := l.foldl (better key) none

/-- Nothing is smaller than `m`, and everything before it is larger. -/
structure FirstMin (key : α → κ) (m : α) (pre post : List α) : Prop where
  before : ∀ a ∈ pre, key m < key a
  after : ∀ a ∈ post, key m ≤ key a

theorem FirstMin.le (h : FirstMin key m pre post) (ha : a ∈ pre ++ m :: post) : key m ≤ key a := by
  rw [List.mem_append, List.mem_cons] at ha
  rcases ha with hpre | rfl | hpost
  · exact le_of_lt (h.before a hpre)
  · exact le_rfl
  · exact h.after a hpost

theorem foldl_better (key : α → κ) (m : α) (l : List α) :
    ∃ m' pre post, l.foldl (better key) (some m) = some m' ∧ m :: l = pre ++ m' :: post ∧ FirstMin key m' pre post := by
  induction l generalizing m with
  | nil => exact ⟨m, [], [], rfl, rfl, List.forall_mem_nil _, List.forall_mem_nil _⟩
  | cons a l ih =>
    rw [List.foldl_cons]
    unfold better
    dsimp only
    by_cases hlt : key a < key m
    · obtain ⟨m', pre, post, hfold, hsplit, hmin⟩ := ih a
      rw [if_pos hlt]
      refine ⟨m', m :: pre, post, hfold, by rw [hsplit, List.cons_append], ?_, hmin.after⟩
      refine List.forall_mem_cons.mpr ⟨lt_of_le_of_lt (hmin.le ?_) hlt, hmin.before⟩
      rw [← hsplit]
      exact List.mem_cons_self
    · obtain ⟨m', pre, post, hfold, hsplit, hmin⟩ := ih m
      rw [if_neg hlt]
      cases pre with
      | nil =>
        obtain ⟨rfl, rfl⟩ := List.cons.inj hsplit
        exact ⟨m, [], a :: l, hfold, rfl, List.forall_mem_nil _, List.forall_mem_cons.mpr ⟨not_lt.mp hlt, hmin.after⟩⟩
      | cons p pre =>
        obtain ⟨rfl, rfl⟩ := List.cons.inj hsplit
        have hm := hmin.before m List.mem_cons_self
        refine ⟨m', m :: a :: pre, post, hfold, rfl, ?_, hmin.after⟩
        refine List.forall_mem_cons.mpr ⟨hm, List.forall_mem_cons.mpr ⟨lt_of_lt_of_le hm (not_lt.mp hlt), ?_⟩⟩
        exact fun x hx => hmin.before x (List.mem_cons_of_mem m hx)

theorem firstMin_spec (hl : l ≠ []) :
    ∃ m pre post, firstMin key l = some m ∧ l = pre ++ m :: post ∧ FirstMin key m pre post := by
  cases l with
  | nil => exact absurd rfl hl
  | cons a l => exact foldl_better key a l

end Selection
