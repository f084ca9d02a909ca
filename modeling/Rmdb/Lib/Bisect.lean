import Mathlib.Data.Nat.Notation
import Mathlib.Order.Basic
import Mathlib.Order.Bounds.Basic
import Mathlib.Tactic.Common

/-! Binary search for the boundary of a predicate that holds on an initial segment. -/
namespace Bisect

/-- The loop `while (l < r) { mid = l + (r - l) / 2; if (p mid) l = mid + 1; else r = mid; }`.
The fuel bounds the number of iterations; `r - l` is always enough. -/
def search (p : ℕ → Bool) : ℕ → ℕ → ℕ → ℕ
  | 0, l, _ => l
  | fuel + 1, l, r =>
    if l < r then
      let mid := l + (r - l) / 2
      if p mid then search p fuel (mid + 1) r else search p fuel l mid
    else l

/-- Once `p` fails it keeps failing, as long as the index is below `n`. -/
def Boundary (p : ℕ → Bool) (n : ℕ) : Prop :=
  ∀ i j, i < j → j < n → p j = true → p i = true

variable {p : ℕ → Bool}

/-- The indices at which the loop evaluates `p`. -/
def probes (p : ℕ → Bool) : ℕ → ℕ → ℕ → List ℕ
  | 0, _, _ => []
  | fuel + 1, l, r =>
    if l < r then
      let mid := l + (r - l) / 2
      mid :: if p mid then probes p fuel (mid + 1) r else probes p fuel l mid
    else []

theorem lt_of_mem_probes {fuel l r i : ℕ} (hi : i ∈ probes p fuel l r) : i < r := by
  induction fuel generalizing l r with
  | zero => cases hi
  | succ fuel ih =>
    unfold probes at hi
    split at hi
    · rename_i hlt
      rcases List.mem_cons.mp hi with rfl | hi
      · omega
      · split at hi
        · exact ih hi
        · have := ih hi
          omega
    · cases hi

theorem search_le_right {fuel l r : ℕ} (hlr : l ≤ r) : search p fuel l r ≤ r := by
  induction fuel generalizing l r with
  | zero => exact hlr
  | succ fuel ih =>
    unfold search
    by_cases hlt : l < r
    · simp only [hlt, if_true]
      split
      · apply ih
        omega
      · have hmid : l ≤ l + (r - l) / 2 := by omega
        have := ih hmid
        omega
    · rw [if_neg hlt]
      exact hlr

private theorem search_spec {n : ℕ} (hp : Boundary p n) (fuel l r : ℕ) (hr : r ≤ n)
    (hlr : l ≤ r) (hf : r - l ≤ fuel) (hlo : ∀ i < l, p i = true)
    (hhi : ∀ i, r ≤ i → i < n → p i = false) :
    search p fuel l r ≤ n ∧ (∀ i < search p fuel l r, p i = true) ∧
      ∀ i, search p fuel l r ≤ i → i < n → p i = false := by
  induction fuel generalizing l r with
  | zero =>
    have : l = r := by omega
    subst this
    exact ⟨hr, hlo, hhi⟩
  | succ fuel ih =>
    unfold search
    by_cases hlt : l < r
    · simp only [hlt, if_true]
      split
      · rename_i hmid
        refine ih (l + (r - l) / 2 + 1) r hr (by omega) (by omega) ?_ hhi
        intro i hi
        rcases Nat.lt_succ_iff_lt_or_eq.mp hi with hi | rfl
        · exact hp i _ hi (by omega) hmid
        · exact hmid
      · rename_i hmid
        refine ih l (l + (r - l) / 2) (by omega) (by omega) (by omega) hlo ?_
        intro i hi hin
        by_contra hpi
        rcases Nat.lt_or_eq_of_le hi with hi | rfl
        · exact hmid (hp _ i hi hin (by simpa using hpi))
        · exact hmid (by simpa using hpi)
    · have : l = r := by omega
      subst this
      rw [if_neg hlt]
      exact ⟨hr, hlo, hhi⟩

section boundary
variable {n : ℕ} (hp : Boundary p n)
include hp

theorem search_le : search p n 0 n ≤ n :=
  (search_spec hp n 0 n (Nat.le_refl n) (Nat.zero_le n) (by omega) (by omega) (by omega)).1

theorem of_lt_search {i : ℕ} (hi : i < search p n 0 n) : p i = true :=
  (search_spec hp n 0 n (Nat.le_refl n) (Nat.zero_le n) (by omega) (by omega) (by omega)).2.1 i hi

theorem of_search_le {i : ℕ} (hi : search p n 0 n ≤ i) (hin : i < n) : p i = false :=
  (search_spec hp n 0 n (Nat.le_refl n) (Nat.zero_le n) (by omega) (by omega) (by omega)).2.2 i hi hin

/-- The search stops exactly at the boundary. -/
theorem search_eq {b : ℕ} (hb : b ≤ n) (hlo : ∀ i < b, p i = true)
    (hhi : ∀ i, b ≤ i → i < n → p i = false) : search p n 0 n = b := by
  have hle := search_le hp
  rcases Nat.lt_trichotomy (search p n 0 n) b with h | h | h
  · have := of_search_le hp (Nat.le_refl _) (by omega : search p n 0 n < n)
    rw [hlo _ h] at this
    cases this
  · exact h
  · have := of_lt_search hp h
    rw [hhi b (Nat.le_refl b) (by omega)] at this
    cases this

/-- The search finds the least index that fails `p`, or `n`. -/
theorem isLeast_search : IsLeast {i | i = n ∨ i < n ∧ p i = false} (search p n 0 n) := by
  constructor
  · by_cases hfound : search p n 0 n < n
    · exact .inr ⟨hfound, of_search_le hp (Nat.le_refl _) hfound⟩
    · have hle := search_le hp
      exact .inl (by omega)
  · intro i hi
    rcases hi with rfl | ⟨-, hstop⟩
    · exact search_le hp
    · by_contra hlt
      have hpass := of_lt_search hp (Nat.lt_of_not_le hlt)
      rw [hstop] at hpass
      cases hpass

end boundary
end Bisect
