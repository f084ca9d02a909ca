import Mathlib.Data.List.TakeDrop
import Rmdb.Execution.NumberCompare
import Rmdb.Lib.Dictionary

/-! What a condition between two values means, and which values the comparisons of the executors take for others. -/
namespace Rmdb

open Binary32 Dictionary

/-! ### Values -/

/-- Numbers are ordered up to the tolerance and strings by their bytes in front of the first NUL. A number and a string
are not. -/
def Value.order : Value → Value → Option Ordering
  | .str s, .str t => some (compare (upToNul s) (upToNul t))
  | .str _, _ => none
  | _, .str _ => none
  | lhs, rhs => lhs.compareTolerant rhs

def Value.meets (op : CompOp) (lhs rhs : Value) : Bool := (lhs.order rhs).any op.holds

theorem Value.meets_int (op : CompOp) (i j : BitVec 32) : meets op (.int i) (.int j) = op.holdsInt i j :=
  op.holds_compare i j

theorem Value.meets_float (op : CompOp) (f : BitVec 32) {val : Value} (hnumber : val.type ≠ .string) :
    meets op (.float f) val = op.holdsFloat f (val.cast .float).word := by
  rw [op.holdsFloat_eq]
  cases val with
  | int i => rfl
  | float g => rfl
  | str s => exact absurd rfl hnumber

theorem Value.meets_str (op : CompOp) (s t : Bytes) :
    meets op (.str s) (.str t) = op.holds (compare (upToNul s) (upToNul t)) := rfl

/-- The value in a cell, whose bytes may go on behind it. -/
def cellValue (cell : TableCol × Bytes) : Value :=
  match cell.1.type with
  | .int => .int (readWord cell.2)
  | .float => .float (readWord cell.2)
  | .string => .str (cell.2.take cell.1.len)

/-! ### Integers -/

/-- `op` tells the number `x` from `a` and `b` differently. -/
def CompOp.Splits (op : CompOp) (x a b : ℤ) : Prop :=
  match op with
  | .eq | .ne => a ≠ b ∧ (x = a ∨ x = b)
  | .lt | .ge => min a b ≤ x ∧ x < max a b
  | .gt | .le => min a b < x ∧ x ≤ max a b

theorem CompOp.holds_compare_iff (op : CompOp) (x a b : ℤ) :
    op.holds (compare x a) = op.holds (compare x b) ↔ ¬op.Splits x a b := by
  unfold holds Splits
  cases op with
  | eq =>
    simp only [compare_eq_iff_eq, decide_eq_decide]
    omega
  | ne =>
    simp only [ne_eq, compare_eq_iff_eq, decide_eq_decide]
    omega
  | lt =>
    simp only [compare_lt_iff_lt, decide_eq_decide]
    omega
  | gt =>
    simp only [compare_gt_iff_gt, decide_eq_decide]
    omega
  | le =>
    simp only [ne_eq, compare_gt_iff_gt, decide_eq_decide]
    omega
  | ge =>
    simp only [ne_eq, compare_lt_iff_lt, decide_eq_decide]
    omega

/-! ### Floats -/

theorem floatMagnitude_eq (w : BitVec 32) : floatMagnitude w = signed w (w.toNat % 2 ^ 31) := by
  have hw := w.isLt
  unfold floatMagnitude signed
  rw [BitVec.msb_eq_decide]
  simp only [decide_eq_true_eq]
  split <;> omega

/-- The index compares the exact numbers, and takes a NaN for equal. -/
theorem floatCompare_eq (a b : BitVec 32) :
    floatCompare a b = (Option.map₂ compare (count (.ofBits ⟨a⟩)) (count (.ofBits ⟨b⟩))).getD .eq := by
  have hnan : ∀ w : BitVec 32, floatIsNaN w = true ↔ 255 * 2 ^ 23 < w.toNat % 2 ^ 31 := fun w => decide_eq_true_iff
  unfold floatCompare
  rw [count_ofBits, count_ofBits, floatMagnitude_eq, floatMagnitude_eq]
  by_cases ha : 255 * 2 ^ 23 < a.toNat % 2 ^ 31
  · rw [if_pos ha, (hnan a).mpr ha]
    rfl
  · rw [if_neg ha, Bool.eq_false_iff.mpr (mt (hnan a).mp ha)]
    by_cases hb : 255 * 2 ^ 23 < b.toNat % 2 ^ 31
    · rw [if_pos hb, (hnan b).mpr hb]
      rfl
    · rw [if_neg hb, Bool.eq_false_iff.mpr (mt (hnan b).mp hb), signed_pattern, signed_pattern]
      exact (compare_signedPattern _ _).symm

/-- `op` tells the number `i` exactly from `j` and up to the tolerance from `k` differently. -/
def CompOp.SplitsNear (op : CompOp) (i j k : ℤ) : Prop :=
  match op with
  | .eq | .ne => i = j ∧ tolerance ≤ (i - k).natAbs ∨ i ≠ j ∧ (i - k).natAbs < tolerance
  | .lt | .ge => op.Splits i j (k - tolerance + 1)
  | .gt | .le => op.Splits i j (k + tolerance - 1)

/-- `op` decides differently on the FLOAT `x` against `b` exactly and against `v` up to the tolerance. NaN is exactly
equal to anything, and up to the tolerance it meets nothing. -/
def CompOp.Strays (op : CompOp) (x b v : Float32) : Prop :=
  match count x, difference x v with
  | none, _ => op.holds .eq = true
  | some i, none => op.holds (compare i ((count b).getD i)) = true
  | some i, some d => op.SplitsNear i ((count b).getD i) (i - d)

theorem CompOp.holds_tolerantOrder_iff (op : CompOp) (i j d : ℤ) :
    op.holds (compare i j) = op.holds (tolerantOrder d) ↔ ¬op.SplitsNear i j (i - d) := by
  obtain ⟨heq, hgt, hlt⟩ := tolerantOrder_cases d
  unfold holds SplitsNear Splits
  cases op with
  | eq =>
    simp only [compare_eq_iff_eq, decide_eq_decide, heq]
    omega
  | ne =>
    simp only [ne_eq, compare_eq_iff_eq, decide_eq_decide, heq]
    omega
  | lt =>
    simp only [compare_lt_iff_lt, decide_eq_decide, hlt]
    omega
  | gt =>
    simp only [compare_gt_iff_gt, decide_eq_decide, hgt]
    omega
  | le =>
    simp only [ne_eq, compare_gt_iff_gt, decide_eq_decide, hgt]
    omega
  | ge =>
    simp only [ne_eq, compare_lt_iff_lt, decide_eq_decide, hlt]
    omega

theorem CompOp.holds_floatCompare_iff (op : CompOp) (x b v : BitVec 32) :
    op.holds (floatCompare x b) = op.holdsFloat x v ↔ ¬op.Strays (.ofBits ⟨x⟩) (.ofBits ⟨b⟩) (.ofBits ⟨v⟩) := by
  rw [floatCompare_eq, op.holdsFloat_eq]
  unfold Strays
  cases hx : count (.ofBits ⟨x⟩) with
  | none =>
    have hd : difference (.ofBits ⟨x⟩) (.ofBits ⟨v⟩) = none := by
      unfold difference
      rw [hx]
    rw [hd]
    simp
  | some i =>
    have hexact : (Option.map₂ compare (some i) (count (.ofBits ⟨b⟩))).getD .eq =
        compare i ((count (.ofBits ⟨b⟩)).getD i) := by
      cases count (.ofBits ⟨b⟩) with
      | none => exact (compare_eq_iff_eq.mpr rfl).symm
      | some j => rfl
    rw [hexact]
    cases difference (.ofBits ⟨x⟩) (.ofBits ⟨v⟩) with
    | none => simp
    | some d => exact op.holds_tolerantOrder_iff i _ d

/-! ### Strings -/

/-- Whether `op` tells this order from equality. -/
def CompOp.Tells (op : CompOp) (res : Ordering) : Prop :=
  match op with
  | .eq | .ne => res ≠ .eq
  | .lt | .ge => res = .lt
  | .gt | .le => res = .gt

theorem CompOp.holds_eq_holds_iff (op : CompOp) (res res' : Ordering) :
    op.holds res = op.holds res' ↔ (op.Tells res ↔ op.Tells res') := by
  cases op <;> cases res <;> cases res' <;> simp [holds, Tells]

/-- Behind a NUL that they have in common two strings differ, and `op` tells which way. -/
def CompOp.HidesBytes (op : CompOp) (s t : Bytes) : Prop := 0 ∈ s.take (shared s t) ∧ op.Tells (parting s t)

theorem compare_zero (b : UInt8) (h : b ≠ 0) : compare 0 b = .lt ∧ compare b 0 = .gt := by
  have hpos : (0 : UInt8) < b := UInt8.pos_iff_ne_zero.mpr h
  exact ⟨Std.compare_eq_lt.mpr hpos, Std.compare_eq_gt.mpr hpos⟩

theorem memcmp_eq (x y : Bytes) (n : ℕ) : memcmp x y n = compare (x.takeD n 0) (y.takeD n 0) := by
  induction n generalizing x y with
  | zero => rfl
  | succ n ih =>
    change (if x.headD 0 = y.headD 0 then memcmp x.tail y.tail n else _) =
      compare (x.headD 0 :: x.tail.takeD n 0) (y.headD 0 :: y.tail.takeD n 0)
    by_cases h : x.headD 0 = y.headD 0
    · rw [if_pos h, h, compare_cons_self, ih]
    · rw [if_neg h, compare_cons_of_ne h]

theorem strncmp_eq (x y : Bytes) (n : ℕ) :
    strncmp x y n = compare (upToNul (x.takeD n 0)) (upToNul (y.takeD n 0)) := by
  induction n generalizing x y with
  | zero => rfl
  | succ n ih =>
    change (if x.headD 0 = y.headD 0 then if x.headD 0 = 0 then .eq else strncmp x.tail y.tail n else _) =
      compare ((x.headD 0 :: x.tail.takeD n 0).takeWhile (· ≠ 0)) ((y.headD 0 :: y.tail.takeD n 0).takeWhile (· ≠ 0))
    generalize x.headD 0 = c
    generalize y.headD 0 = d
    by_cases h : c = d
    · subst h
      rw [if_pos rfl]
      by_cases hc : c = 0
      · rw [if_pos hc, List.takeWhile_cons_of_neg (by simpa using hc), List.takeWhile_cons_of_neg (by simpa using hc)]
        rfl
      · rw [if_neg hc, List.takeWhile_cons_of_pos (by simpa using hc), List.takeWhile_cons_of_pos (by simpa using hc),
          compare_cons_self]
        exact ih x.tail y.tail
    · rw [if_neg h]
      by_cases hc : c = 0
      · subst hc
        rw [List.takeWhile_cons_of_neg (by simp), List.takeWhile_cons_of_pos (by simpa using Ne.symm h)]
        exact (compare_zero d (Ne.symm h)).1
      · rw [List.takeWhile_cons_of_pos (by simpa using hc)]
        by_cases hd : d = 0
        · subst hd
          rw [List.takeWhile_cons_of_neg (by simp)]
          exact (compare_zero c hc).2
        · rw [List.takeWhile_cons_of_pos (by simpa using hd), compare_cons_of_ne h]

/-- Bytes that are missing are read as NULs, which end a string anyway. -/
theorem upToNul_takeD (x : Bytes) (n : ℕ) : upToNul (x.takeD n 0) = upToNul (x.take n) := by
  induction n generalizing x with
  | zero => rfl
  | succ n ih =>
    cases x with
    | nil => rfl
    | cons c x =>
      change (c :: x.takeD n 0).takeWhile (· ≠ 0) = (c :: x.take n).takeWhile (· ≠ 0)
      by_cases hc : c = 0
      · rw [List.takeWhile_cons_of_neg (by simpa using hc), List.takeWhile_cons_of_neg (by simpa using hc)]
      · rw [List.takeWhile_cons_of_pos (by simpa using hc), List.takeWhile_cons_of_pos (by simpa using hc)]
        exact congrArg (c :: ·) (ih x)

theorem strncmp_take (x y : Bytes) (n : ℕ) : strncmp x y n = compare (upToNul (x.take n)) (upToNul (y.take n)) := by
  rw [strncmp_eq, upToNul_takeD, upToNul_takeD]

theorem upToNul_pad (s : Bytes) (k : ℕ) : upToNul (s ++ List.replicate k 0) = upToNul s := by
  induction s with
  | nil => cases k <;> rfl
  | cons c s ih =>
    change (c :: (s ++ _)).takeWhile (· ≠ 0) = (c :: s).takeWhile (· ≠ 0)
    by_cases hc : c = 0
    · rw [List.takeWhile_cons_of_neg (by simpa using hc), List.takeWhile_cons_of_neg (by simpa using hc)]
    · rw [List.takeWhile_cons_of_pos (by simpa using hc), List.takeWhile_cons_of_pos (by simpa using hc)]
      exact congrArg (c :: ·) ih

theorem CompOp.holds_memcmp_iff (op : CompOp) (x y : Bytes) (n : ℕ) :
    op.holds (memcmp x y n) = op.holds (compare (upToNul (x.take n)) (upToNul (y.take n))) ↔
      ¬op.HidesBytes (x.takeD n 0) (y.takeD n 0) := by
  have hlen : (x.takeD n 0).length = (y.takeD n 0).length := by rw [List.takeD_length, List.takeD_length]
  have hread : compare (upToNul (x.takeD n 0)) (upToNul (y.takeD n 0)) = _ := compare_takeWhile compare_zero hlen
  rw [← upToNul_takeD, ← upToNul_takeD, hread, memcmp_eq, compare_eq_parting hlen, op.holds_eq_holds_iff]
  unfold HidesBytes
  have heq : ¬op.Tells .eq := by cases op <;> simp [Tells]
  split
  · simp_all
  · simp_all

/-! ### Trimmed strings -/

/-- The bytes of a string that are no NULs. -/
def letters (s : Bytes) : Bytes := s.filter (· ≠ 0)

/-- How many of them stand in front of the first NUL. -/
def nulEnd (s : Bytes) : ℕ := (s.takeWhile (· ≠ 0)).length

/-- How many of them stand in front of the blanks at the end of the string. -/
def blankEnd (s : Bytes) : ℕ := (s.rdropWhile (· = 32)).countP (· ≠ 0)

/-- The letters up to the first NUL and the letters without the blanks at the end are in different orders, which `op`
tells from each other. -/
def CompOp.EndsApart (op : CompOp) (s t : Bytes) : Prop :=
  ¬(op.Tells (cutOrder (letters s) (letters t) (nulEnd s) (nulEnd t)) ↔
    op.Tells (cutOrder (letters s) (letters t) (blankEnd s) (blankEnd t)))

theorem upToNul_eq (s : Bytes) : upToNul s = (letters s).take (nulEnd s) := takeWhile_eq_take _ s

theorem trimString_eq (s : Bytes) : trimString s = (letters s).take (blankEnd s) :=
  filter_prefix _ (List.rdropWhile_prefix _ _)

theorem CompOp.holds_trimmedCompare_iff (op : CompOp) (x y : Bytes) (n : ℕ) :
    op.holds (trimmedCompare x y n) = op.holds (compare (upToNul (x.take n)) (upToNul (y.take n))) ↔
      ¬op.EndsApart (x.take n) (y.take n) := by
  have hnul : ∀ s : Bytes, nulEnd s ≤ (letters s).length := by
    intro s
    have h := congrArg List.length (upToNul_eq s)
    rw [List.length_take] at h
    exact left_eq_inf.mp h
  have hblank : ∀ s : Bytes, blankEnd s ≤ (letters s).length := by
    intro s
    have h := (List.rdropWhile_prefix (· = 32) s).sublist.countP_le (p := (· ≠ 0))
    rwa [List.countP_eq_length_filter (l := s)] at h
  unfold trimmedCompare EndsApart
  rw [trimString_eq, trimString_eq, upToNul_eq, upToNul_eq, compare_take (hnul _) (hnul _),
    compare_take (hblank _) (hblank _), op.holds_eq_holds_iff, not_not]
  exact Iff.comm

/-! ### The index -/

section
variable (op : CompOp) (lhs : ColMeta) (rec_ : Bytes)

/-- The index compares a column with another one, read alike, by their values. -/
theorem ColMeta.meets_stored (offset : ℕ) :
    Value.meets op (lhs.stored rec_) ({ lhs with offset }.stored rec_) =
      if lhs.type = .float then op.holdsFloat (readWord (rec_.drop lhs.offset)) (readWord (rec_.drop offset))
      else op.holds (ixCompareCol lhs.type lhs.len (rec_.drop lhs.offset) (rec_.drop offset)) := by
  unfold stored ixCompareCol
  cases lhs.type with
  | int => exact (Value.meets_int _ _ _).trans (op.holds_compare _ _).symm
  | float => exact Value.meets_float _ _ nofun
  | string =>
    rw [if_neg (by decide), strncmp_take]
    rfl

/-- So it does with a literal of the column's type, whose bytes are in `buf`. -/
theorem ColMeta.meets_literal {val : Value} {buf : Bytes} (htype : val.type = lhs.type)
    (hraw : val.rawBytes lhs.len = .ok buf) :
    Value.meets op (lhs.stored rec_) val =
      if lhs.type = .float then op.holdsFloat (readWord (rec_.drop lhs.offset)) (readWord buf)
      else op.holds (ixCompareCol lhs.type lhs.len (rec_.drop lhs.offset) buf) := by
  unfold Value.rawBytes at hraw
  unfold stored ixCompareCol
  rw [← htype]
  cases val with
  | int i =>
    dsimp only at hraw
    split at hraw
    · cases hraw
      refine (Value.meets_int _ _ _).trans ?_
      rw [if_neg ColType.noConfusion, readWord_wordBytes]
      exact (op.holds_compare _ _).symm
    · cases hraw
  | float f =>
    dsimp only at hraw
    split at hraw
    · cases hraw
      have hnumber : (Value.float f).type ≠ .string := nofun
      refine (Value.meets_float op _ hnumber).trans ?_
      rw [readWord_wordBytes]
      rfl
    · cases hraw
  | str s =>
    dsimp only at hraw
    split at hraw
    · cases hraw
    · cases hraw
      rw [if_neg ColType.noConfusion, strncmp_take, List.take_of_length_le (l := s ++ _) (by simp; omega), upToNul_pad]
      rfl

end

end Rmdb
