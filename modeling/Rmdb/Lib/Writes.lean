import Mathlib.Data.List.Nodup
import Mathlib.Logic.Function.Basic

/-! Functions that are written at one place after another. -/
namespace Writes

variable {ι β : Type*} [DecidableEq ι] {f : ι → β} {l : List (ι × β)} {i : ι} {b : β}

def writeAll (l : List (ι × β)) (f : ι → β) : ι → β := l.foldl (fun f w => Function.update f w.1 w.2) f

@[simp] theorem writeAll_cons (w : ι × β) : writeAll (w :: l) f = writeAll l (Function.update f w.1 w.2) := rfl

/-- What stands at one place depends on that place only. -/
theorem writeAll_congr {g : ι → β} (h : f i = g i) : writeAll l f i = writeAll l g i := by
  induction l generalizing f g with
  | nil => exact h
  | cons w l ih =>
    apply ih
    dsimp only
    by_cases hi : i = w.1
    · rw [hi, Function.update_self, Function.update_self]
    · rw [Function.update_of_ne hi, Function.update_of_ne hi, h]

theorem writeAll_of_notMem (h : i ∉ l.map Prod.fst) : writeAll l f i = f i := by
  induction l generalizing f with
  | nil => rfl
  | cons w l ih =>
    obtain ⟨hne, hrest⟩ := List.ne_and_not_mem_of_not_mem_cons h
    rw [writeAll_cons, ih hrest, Function.update_of_ne hne]

theorem writeAll_of_mem (hnodup : (l.map Prod.fst).Nodup) (h : (i, b) ∈ l) : writeAll l f i = b := by
  induction l generalizing f with
  | nil => cases h
  | cons w l ih =>
    obtain ⟨hnot, hrest⟩ := List.nodup_cons.mp hnodup
    rw [writeAll_cons]
    rcases List.mem_cons.mp h with rfl | hmem
    · rw [writeAll_of_notMem hnot, Function.update_self]
    · exact ih hrest hmem

/-- Writes at different places do the same in any order. -/
theorem writeAll_perm {l' : List (ι × β)} (hnodup : (l.map Prod.fst).Nodup) (h : l.Perm l') :
    writeAll l f = writeAll l' f := by
  have hnodup' : (l'.map Prod.fst).Nodup := (h.map Prod.fst).nodup_iff.mp hnodup
  funext i
  by_cases hi : i ∈ l.map Prod.fst
  · obtain ⟨w, hw, rfl⟩ := List.mem_map.mp hi
    rw [writeAll_of_mem hnodup hw, writeAll_of_mem hnodup' (h.mem_iff.mp hw)]
  · have hi' : i ∉ l'.map Prod.fst := mt ((h.map Prod.fst).mem_iff.mpr) hi
    rw [writeAll_of_notMem hi, writeAll_of_notMem hi']

/-- Writes at different places change nothing if and only if each of them writes what is there. -/
theorem writeAll_eq_iff (hnodup : (l.map Prod.fst).Nodup) : writeAll l f = f ↔ ∀ w ∈ l, f w.1 = w.2 := by
  constructor
  · intro heq w hw
    rw [← heq]
    exact writeAll_of_mem hnodup hw
  · intro hsame
    induction l with
    | nil => rfl
    | cons w l ih =>
      have hfirst : Function.update f w.1 w.2 = f := by
        rw [← hsame w List.mem_cons_self, Function.update_eq_self]
      rw [writeAll_cons, hfirst]
      exact ih (List.nodup_cons.mp hnodup).2 fun v hv => hsame v (List.mem_cons_of_mem w hv)

end Writes
