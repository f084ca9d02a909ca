import Mathlib.Data.List.DropRight
import Mathlib.Order.Compare
import Mathlib.Tactic.Common

/-! Lists in the order of a dictionary, and what becomes of the order when the lists are cut. -/
namespace Dictionary

section
variable {α : Type} [Ord α] [Std.LawfulEqOrd α] {a b : α}

theorem compare_cons_self (a : α) (as bs : List α) : compare (a :: as) (a :: bs) = compare as bs := by
  rw [List.compare_cons_cons, Std.ReflOrd.compare_self, Ordering.eq_then]

theorem compare_cons_of_ne (h : a ≠ b) (as bs : List α) : compare (a :: as) (b :: bs) = compare a b := by
  have hne : compare a b ≠ .eq := fun heq => h (Std.LawfulEqOrd.eq_of_compare heq)
  rw [List.compare_cons_cons]
  cases hab : compare a b with
  | lt => rfl
  | eq => exact absurd hab hne
  | gt => rfl

end

variable {α : Type} [Ord α] [DecidableEq α] {a b z : α} {as bs : List α} {m n : ℕ}

/-- How many elements two lists share at their front. -/
def shared : List α → List α → ℕ
  | a :: as, b :: bs => if a = b then shared as bs + 1 else 0
  | _, _ => 0

/-- The order of the first elements that differ. -/
def parting : List α → List α → Ordering
  | a :: as, b :: bs => if a = b then parting as bs else compare a b
  | _, _ => .eq

omit [Ord α] in
theorem shared_cons_self (a : α) (as bs : List α) : shared (a :: as) (a :: bs) = shared as bs + 1 := if_pos rfl

omit [Ord α] in
theorem shared_cons_of_ne (h : a ≠ b) (as bs : List α) : shared (a :: as) (b :: bs) = 0 := if_neg h

theorem parting_cons_self (a : α) (as bs : List α) : parting (a :: as) (a :: bs) = parting as bs := if_pos rfl

theorem parting_cons_of_ne (h : a ≠ b) (as bs : List α) : parting (a :: as) (b :: bs) = compare a b := if_neg h

/-- The order of the first `m` and the first `n` elements of two lists: that of the elements that differ first, or, if
one of the cuts is in front of these, that of the cuts. -/
def cutOrder (as bs : List α) (m n : ℕ) : Ordering :=
  if shared as bs < m ∧ shared as bs < n then parting as bs else compare m n

theorem cutOrder_zero_left (as bs : List α) (n : ℕ) : cutOrder as bs 0 n = compare 0 n :=
  if_neg fun h => absurd h.1 (Nat.not_lt_zero _)

theorem cutOrder_zero_right (as bs : List α) (m : ℕ) : cutOrder as bs m 0 = compare m 0 :=
  if_neg fun h => absurd h.2 (Nat.not_lt_zero _)

theorem cutOrder_cons_self (a : α) (as bs : List α) (m n : ℕ) :
    cutOrder (a :: as) (a :: bs) (m + 1) (n + 1) = cutOrder as bs m n := by
  have hcuts : compare (m + 1) (n + 1) = compare m n := by
    cases h : compare m n with
    | lt => exact compare_lt_iff_lt.mpr (Nat.succ_lt_succ (compare_lt_iff_lt.mp h))
    | eq => exact compare_eq_iff_eq.mpr (congrArg (· + 1) (compare_eq_iff_eq.mp h))
    | gt => exact compare_gt_iff_gt.mpr (Nat.succ_lt_succ (compare_gt_iff_gt.mp h))
  unfold cutOrder
  rw [shared_cons_self, parting_cons_self, hcuts]
  exact if_congr (and_congr Nat.add_lt_add_iff_right Nat.add_lt_add_iff_right) rfl rfl

theorem cutOrder_cons_of_ne (h : a ≠ b) (as bs : List α) (m n : ℕ) :
    cutOrder (a :: as) (b :: bs) (m + 1) (n + 1) = compare a b := by
  unfold cutOrder
  rw [shared_cons_of_ne h, parting_cons_of_ne h, if_pos ⟨Nat.succ_pos m, Nat.succ_pos n⟩]

omit [DecidableEq α] in
theorem compare_nil (as : List α) : compare [] as = compare 0 as.length := by
  cases as with
  | nil => rfl
  | cons a as => exact (compare_lt_iff_lt.mpr (Nat.succ_pos as.length)).symm

theorem compare_take [Std.LawfulEqOrd α] (hm : m ≤ as.length) (hn : n ≤ bs.length) :
    compare (as.take m) (bs.take n) = cutOrder as bs m n := by
  induction as generalizing bs m n with
  | nil =>
    obtain rfl := Nat.le_zero.mp hm
    rw [cutOrder_zero_left, List.take_nil, compare_nil, List.length_take_of_le hn]
  | cons a as ih =>
    cases m with
    | zero => rw [cutOrder_zero_left, List.take_zero, compare_nil, List.length_take_of_le hn]
    | succ m =>
      cases bs with
      | nil =>
        obtain rfl := Nat.le_zero.mp hn
        rw [cutOrder_zero_right]
        exact (compare_gt_iff_gt.mpr (Nat.succ_pos m)).symm
      | cons b bs =>
        cases n with
        | zero =>
          rw [cutOrder_zero_right]
          exact (compare_gt_iff_gt.mpr (Nat.succ_pos m)).symm
        | succ n =>
          rw [List.take_succ_cons, List.take_succ_cons]
          by_cases hab : a = b
          · subst hab
            rw [compare_cons_self, cutOrder_cons_self]
            exact ih (Nat.le_of_succ_le_succ hm) (Nat.le_of_succ_le_succ hn)
          · rw [compare_cons_of_ne hab, cutOrder_cons_of_ne hab]

/-! ### Lists that end at a terminator -/

/-- Of two lists of one length the parts in front of the terminator `z`, which is the least element, are in the order
of the lists, unless the lists have the terminator in common before they differ. -/
theorem compare_takeWhile [Std.LawfulEqOrd α] (hz : ∀ a, a ≠ z → compare z a = .lt ∧ compare a z = .gt)
    (hlen : as.length = bs.length) :
    compare (as.takeWhile (· ≠ z)) (bs.takeWhile (· ≠ z)) =
      if z ∈ as.take (shared as bs) then .eq else compare as bs := by
  induction as generalizing bs with
  | nil =>
    obtain rfl := List.length_eq_zero_iff.mp hlen.symm
    rw [List.take_nil, if_neg List.not_mem_nil]
    rfl
  | cons a as ih =>
    cases bs with
    | nil => cases hlen
    | cons b bs =>
      have htail := ih (Nat.succ.inj hlen)
      by_cases hab : a = b
      · subst hab
        rw [shared_cons_self, List.take_succ_cons, compare_cons_self]
        by_cases ha : a = z
        · rw [if_pos (List.mem_cons.mpr (.inl ha.symm)), List.takeWhile_cons_of_neg (by simpa using ha),
            List.takeWhile_cons_of_neg (by simpa using ha)]
          rfl
        · rw [List.takeWhile_cons_of_pos (by simpa using ha), List.takeWhile_cons_of_pos (by simpa using ha),
            compare_cons_self, htail]
          exact if_congr (by simp [Ne.symm ha]) rfl rfl
      · rw [shared_cons_of_ne hab, List.take_zero, if_neg List.not_mem_nil, compare_cons_of_ne hab]
        by_cases ha : a = z
        · subst ha
          rw [List.takeWhile_cons_of_neg (by simp), List.takeWhile_cons_of_pos (by simpa using Ne.symm hab)]
          exact (hz b (Ne.symm hab)).1.symm
        · rw [List.takeWhile_cons_of_pos (by simpa using ha)]
          by_cases hb : b = z
          · subst hb
            rw [List.takeWhile_cons_of_neg (by simp)]
            exact (hz a ha).2.symm
          · rw [List.takeWhile_cons_of_pos (by simpa using hb), compare_cons_of_ne hab]

theorem compare_eq_parting [Std.LawfulEqOrd α] (hlen : as.length = bs.length) : compare as bs = parting as bs := by
  induction as generalizing bs with
  | nil =>
    obtain rfl := List.length_eq_zero_iff.mp hlen.symm
    rfl
  | cons a as ih =>
    cases bs with
    | nil => cases hlen
    | cons b bs =>
      by_cases hab : a = b
      · subst hab
        rw [compare_cons_self, parting_cons_self]
        exact ih (Nat.succ.inj hlen)
      · rw [compare_cons_of_ne hab, parting_cons_of_ne hab]

/-! ### Parts of a list without some of its elements -/

section
variable {β : Type} (p : β → Bool)

/-- A part at the front is a part of the whole when both are filtered. -/
theorem filter_prefix {l l' : List β} (h : l' <+: l) : l'.filter p = (l.filter p).take (l'.countP p) := by
  obtain ⟨rest, rfl⟩ := h
  rw [List.filter_append, List.countP_eq_length_filter, List.take_left]

theorem takeWhile_eq_take (l : List β) : l.takeWhile p = (l.filter p).take (l.takeWhile p).length := by
  have h := filter_prefix p (List.takeWhile_prefix p (l := l))
  have hall : ∀ a ∈ l.takeWhile p, p a = true := fun a ha => List.mem_takeWhile_imp ha
  rwa [List.filter_eq_self.mpr hall, List.countP_eq_length.mpr hall] at h

end
end Dictionary
