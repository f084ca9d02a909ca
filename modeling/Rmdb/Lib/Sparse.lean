import Mathlib.Data.List.GetD
import Mathlib.Tactic.Common

/-! Sequences that read as a filler behind their end, and that grow where they are written. -/
namespace Sparse

variable {α : Type*} {zero : α} {content data : List α} {pos size : ℕ}

/-- So many elements from a position on. -/
def window (zero : α) (content : List α) (pos size : ℕ) : List α :=
  (List.range size).map fun i => content.getD (pos + i) zero

/-- Write at a position; a gap before it is filled. -/
def overwrite (zero : α) (content : List α) (pos : ℕ) (data : List α) : List α :=
  content.take pos ++ List.replicate (pos - content.length) zero ++ data ++ content.drop (pos + data.length)

@[simp] theorem length_window (zero : α) (content : List α) (pos size : ℕ) :
    (window zero content pos size).length = size := by
  rw [window, List.length_map, List.length_range]

theorem window_eq_of_getD {content' : List α}
    (h : ∀ i < size, content'.getD (pos + i) zero = content.getD (pos + i) zero) :
    window zero content' pos size = window zero content pos size :=
  List.map_congr_left fun i hi => h i (List.mem_range.mp hi)

/-- What there is of a window, filled up. -/
theorem take_append_replicate (zero : α) (content : List α) (pos size : ℕ) :
    (content.drop pos).take size ++ List.replicate (size - ((content.drop pos).take size).length) zero =
      window zero content pos size := by
  apply List.ext_getElem
  · simp only [List.length_append, List.length_replicate, length_window, List.length_take]
    omega
  · intro i _ hi
    rw [length_window] at hi
    simp only [window, List.getElem_map, List.getElem_range, List.getElem_append, List.getElem_take,
      List.getElem_drop, List.getElem_replicate]
    split
    · rename_i hlt
      rw [List.length_take, List.length_drop] at hlt
      have hin : pos + i < content.length := by omega
      rw [List.getD_eq_getElem _ _ hin]
    · rename_i hlt
      rw [List.length_take, List.length_drop] at hlt
      have hout : content.length ≤ pos + i := by omega
      rw [List.getD_eq_default _ _ hout]

theorem getD_overwrite (i : ℕ) : (overwrite zero content pos data).getD i zero =
    if pos ≤ i ∧ i < pos + data.length then data.getD (i - pos) zero else content.getD i zero := by
  have hfront : (content.take pos ++ List.replicate (pos - content.length) zero).length = pos := by
    rw [List.length_append, List.length_take, List.length_replicate]
    omega
  by_cases hbefore : i < pos
  · have hget : (overwrite zero content pos data).getD i zero =
        (content.take pos ++ List.replicate (pos - content.length) zero).getD i zero := by
      rw [overwrite, List.append_assoc, List.getD_append _ _ _ _ (by omega)]
    rw [hget, if_neg (by omega)]
    by_cases hin : i < content.length
    · have hlt : i < (content.take pos).length := by
        rw [List.length_take]
        omega
      rw [List.getD_append _ _ _ _ hlt, List.getD_eq_getElem _ _ hlt, List.getElem_take,
        List.getD_eq_getElem _ _ hin]
    · have hle : (content.take pos).length ≤ i := by
        rw [List.length_take]
        omega
      rw [List.getD_append_right _ _ _ _ hle, List.getD_replicate _ (by rw [List.length_take]; omega),
        List.getD_eq_default _ _ (by omega)]
  · have hright : (overwrite zero content pos data).getD i zero =
        (data ++ content.drop (pos + data.length)).getD (i - pos) zero := by
      rw [overwrite, List.append_assoc, List.getD_append_right _ _ _ _ (by omega), hfront]
    rw [hright]
    by_cases hin : i < pos + data.length
    · rw [if_pos ⟨by omega, hin⟩, List.getD_append _ _ _ _ (by omega)]
    · rw [if_neg (by omega), List.getD_append_right _ _ _ _ (by omega), List.getD_eq_getElem?_getD,
        List.getElem?_drop, List.getD_eq_getElem?_getD]
      congr 2
      omega

theorem window_overwrite (zero : α) (content : List α) (pos : ℕ) (data : List α) :
    window zero (overwrite zero content pos data) pos data.length = data := by
  apply List.ext_getElem
  · exact length_window _ _ _ _
  · intro i hi hi'
    simp only [window, List.getElem_map, List.getElem_range]
    rw [getD_overwrite, if_pos ⟨by omega, by omega⟩, Nat.add_sub_cancel_left, List.getD_eq_getElem _ _ hi']

/-- A window beside what is written stays. -/
theorem window_overwrite_disjoint {pos' : ℕ} (h : pos' + size ≤ pos ∨ pos + data.length ≤ pos') :
    window zero (overwrite zero content pos data) pos' size = window zero content pos' size := by
  apply window_eq_of_getD
  intro i hi
  rw [getD_overwrite, if_neg (by omega)]

theorem length_overwrite (h : pos + data.length ≤ content.length) :
    (overwrite zero content pos data).length = content.length := by
  simp only [overwrite, List.length_append, List.length_take, List.length_replicate, List.length_drop]
  omega

end Sparse
