import Rmdb.Execution.CheckedConditions
import Rmdb.Lib.Binary32

/-! What a sequential scan computes for a condition between numbers. -/
namespace Rmdb

open Program Analyze Binary32

/-! ### Numbers -/

/-- The value of a column where the scan reads it. -/
def ColMeta.stored (col : ColMeta) (rec_ : Bytes) : Value :=
  match col.type with
  | .int => .int (readWord (rec_.drop col.offset))
  | .float => .float (readWord (rec_.drop col.offset))
  | .string => .str (col.field rec_)

theorem ColMeta.type_stored (col : ColMeta) (rec_ : Bytes) : (col.stored rec_).type = col.type := by
  unfold stored
  cases col.type <;> rfl

/-- A number as a FLOAT, after the conversion of an INT. -/
def Value.toFloat (val : Value) : Float32 := .ofBits ⟨(val.cast .float).word⟩

/-- Integers as such, and otherwise the numbers that the two FLOATs stand for. NaN is none. -/
def Value.compareNumbers : Value → Value → Option Ordering
  | .int i, .int j => some (compare i.toInt j.toInt)
  | lhs, rhs => Option.map₂ compare (count lhs.toFloat) (count rhs.toFloat)

/-- In multiples of `2^-149`, the midpoint between `epsilon` and the next number of the format. -/
def tolerance : ℕ := 17592187 * 2 ^ 105

/-- The order of two FLOATs with the given difference; closer than the tolerance they count as equal. -/
def tolerantOrder (d : ℤ) : Ordering := if d.natAbs < tolerance then .eq else compare d 0

/-- Integers are compared as such, and FLOATs by their difference, if there is one. -/
def Value.compareTolerant : Value → Value → Option Ordering
  | .int i, .int j => some (compare i.toInt j.toInt)
  | lhs, rhs => (difference lhs.toFloat rhs.toFloat).map tolerantOrder

/-- What is not comparable is different. -/
def CompOp.holdsNumbers (op : CompOp) : Option Ordering → Bool
  | some res => op.holds res
  | none => op = .ne

/-! ### The comparison of floats -/

theorem count_epsilon : count epsilon = some (8796093 * 2 ^ (105 + 1) : ℕ) := by decide +kernel

theorem count_neg_epsilon : count (-epsilon) = some (-((8796093 * 2 ^ (105 + 1) : ℕ) : ℤ)) := by decide +kernel

section
variable {f g : Float32} {d : ℤ}

theorem sub_le_epsilon (h : difference f g = some d) : f - g ≤ epsilon ↔ d < tolerance := by
  obtain ⟨r, hr, hround⟩ := count_sub h
  rw [le_iff hr count_epsilon]
  exact hround.le_iff (by decide) (by decide) (by decide) (by decide)

theorem epsilon_lt_sub (h : difference f g = some d) : epsilon < f - g ↔ tolerance ≤ d := by
  obtain ⟨r, hr, hround⟩ := count_sub h
  have hle := hround.le_iff (m := 8796093) (j := 105) (by decide) (by decide) (by decide) (by decide)
  rw [lt_iff count_epsilon hr, ← not_le, hle, not_lt]
  rfl

theorem neg_epsilon_le_sub (h : difference f g = some d) : -epsilon ≤ f - g ↔ -d < tolerance := by
  obtain ⟨r, hr, hround⟩ := count_sub h
  rw [le_iff count_neg_epsilon hr, neg_le]
  exact hround.neg.le_iff (by decide) (by decide) (by decide) (by decide)

theorem sub_lt_neg_epsilon (h : difference f g = some d) : f - g < -epsilon ↔ tolerance ≤ -d := by
  obtain ⟨r, hr, hround⟩ := count_sub h
  have hle := neg_epsilon_le_sub h
  rw [le_iff count_neg_epsilon hr] at hle
  rw [lt_iff hr count_neg_epsilon, ← not_le, hle, not_lt]

theorem abs_sub_le_epsilon (h : difference f g = some d) : (f - g).abs ≤ epsilon ↔ d.natAbs < tolerance := by
  obtain ⟨r, hr, hround⟩ := count_sub h
  have hle := hround.natAbs_le_iff (m := 8796093) (j := 105) (by decide) (by decide) (by decide) (by decide)
  have habs : count (f - g).abs = some (r.natAbs : ℤ) := by rw [count_abs, hr, Option.map_some]
  rw [le_iff habs count_epsilon, Nat.cast_le]
  exact hle

theorem epsilon_lt_abs_sub (h : difference f g = some d) : epsilon < (f - g).abs ↔ ¬d.natAbs < tolerance := by
  obtain ⟨r, hr, hround⟩ := count_sub h
  have hle := hround.natAbs_le_iff (m := 8796093) (j := 105) (by decide) (by decide) (by decide) (by decide)
  have habs : count (f - g).abs = some (r.natAbs : ℤ) := by rw [count_abs, hr, Option.map_some]
  rw [lt_iff count_epsilon habs, Nat.cast_lt, ← not_le, hle]
  rfl

end

theorem tolerantOrder_cases (d : ℤ) :
    (tolerantOrder d = .eq ↔ d.natAbs < tolerance) ∧ (tolerantOrder d = .gt ↔ (tolerance : ℤ) ≤ d) ∧
      (tolerantOrder d = .lt ↔ (tolerance : ℤ) ≤ -d) := by
  have hpos : 0 < tolerance := by decide
  unfold tolerantOrder
  split_ifs with hnear
  · refine ⟨iff_of_true rfl hnear, iff_of_false nofun (by omega), iff_of_false nofun (by omega)⟩
  · rw [compare_eq_iff_eq, compare_gt_iff_gt, compare_lt_iff_lt]
    omega

/-- Every operator reads the difference in the same way. -/
theorem CompOp.holdsFloat_eq (op : CompOp) (lhs rhs : BitVec 32) :
    op.holdsFloat lhs rhs = ((difference (.ofBits ⟨lhs⟩) (.ofBits ⟨rhs⟩)).map tolerantOrder).any op.holds := by
  have hswap := difference_swap (.ofBits ⟨lhs⟩) (.ofBits ⟨rhs⟩)
  cases h : difference (.ofBits ⟨lhs⟩) (.ofBits ⟨rhs⟩) with
  | none =>
    rw [h] at hswap
    have hsub := count_sub_none h
    have hsub' := count_sub_none hswap
    have habs : count (Float32.ofBits ⟨lhs⟩ - Float32.ofBits ⟨rhs⟩).abs = none := by
      rw [count_abs, hsub]
      rfl
    cases op <;> apply decide_eq_false
    · exact not_le_of_nan habs
    · exact not_lt_of_nan habs
    · exact not_lt_of_nan hsub'
    · exact not_lt_of_nan hsub
    · exact not_le_of_nan hsub
    · exact not_le_of_nan hsub'
  | some d =>
    rw [h] at hswap
    obtain ⟨heq, hgt, hlt⟩ := tolerantOrder_cases d
    rw [Option.map_some, Option.any_some]
    cases op <;> apply decide_eq_decide.mpr
    · rw [heq, abs_sub_le_epsilon h]
    · rw [ne_eq, heq, epsilon_lt_abs_sub h]
    · rw [hlt, epsilon_lt_sub hswap]
    · rw [hgt, epsilon_lt_sub h]
    · rw [ne_eq, hgt, sub_le_epsilon h, not_le]
    · rw [ne_eq, hlt, sub_le_epsilon hswap, not_le]

/-! ### The scan -/

/-- The two sides of a condition on a row of the table: the number in the column on the left, and on the
right the literal as it was written or the number in another column. -/
inductive Sides (tab : String) (tabMeta : TabMeta) (rec_ : Bytes) (cond₀ cond : Condition) : Value → Value → Prop
  | val {lhs : ColMeta} {val : Value} {raw : Option Bytes} (htab : cond.lhsCol.tabName = tab)
    (hlhs : tabMeta.cols.find? (·.name = cond.lhsCol.colName) = some lhs) (hnumber : lhs.type ≠ .string)
    (hrhs : cond₀.rhs = .val val raw) : Sides tab tabMeta rec_ cond₀ cond (lhs.stored rec_) val
  | col {lhs rhs : ColMeta} {rhsCol : TabCol} (htab : cond.lhsCol.tabName = tab)
    (hlhs : tabMeta.cols.find? (·.name = cond.lhsCol.colName) = some lhs) (hnumber : lhs.type ≠ .string)
    (hrhs : cond.rhs = .col rhsCol) (hrhsTab : rhsCol.tabName = tab)
    (hcol : tabMeta.cols.find? (·.name = rhsCol.colName) = some rhs) (hnumber' : rhs.type ≠ .string) :
    Sides tab tabMeta rec_ cond₀ cond (lhs.stored rec_) (rhs.stored rec_)

/-- The scan compares the numbers themselves. -/
def ComparesNumbers (tab : String) (tabMeta : TabMeta) (rec_ : Bytes) (cond₀ cond : Condition) : Prop :=
  ∀ x y, Sides tab tabMeta rec_ cond₀ cond x y →
    SeqScanExecutor.evalCond (tabMeta.tableCols tab) rec_ cond = .ok (cond.op.holdsNumbers (x.compareNumbers y))

section
variable {tabs : String → Option TabMeta} {tab : String} {tabMeta : TabMeta} {rec_ : Bytes}
  {allCols : List TableCol} {cond₀ cond : Condition} {lhs : ColMeta}

theorem checkCondition_val {val : Value} {raw : Option Bytes} (h : checkCondition tabs allCols cond₀ = .ok cond)
    (hrhs : cond₀.rhs = .val val raw) : ∃ lhs buf, columnOf tabs cond.lhsCol = .ok lhs ∧
      val.rawBytes lhs.len = .ok buf ∧ comparable lhs.type val.type = true ∧
      cond.rhs = .val (val.cast lhs.type) (some buf) := by
  unfold checkCondition at h
  obtain ⟨lhsCol, -, h⟩ := bind_eq_ok.mp h
  rw [hrhs] at h
  obtain ⟨lhs, hlhs, h⟩ := bind_eq_ok.mp h
  obtain ⟨buf, hraw, h⟩ := bind_eq_ok.mp h
  by_cases hcomparable : comparable lhs.type val.type = true
  · rw [if_pos hcomparable] at h
    cases h
    exact ⟨lhs, buf, hlhs, hraw, hcomparable, rfl⟩
  · rw [if_neg hcomparable] at h
    cases h

private theorem scan_val {val : Value} {buf : Bytes} (htab : cond.lhsCol.tabName = tab)
    (hlhs : tabMeta.cols.find? (·.name = cond.lhsCol.colName) = some lhs)
    (hrhs : cond.rhs = .val (val.cast lhs.type) (some buf)) (hraw : val.rawBytes lhs.len = .ok buf)
    (htype : lhs.type = .int ∧ val.type = .int ∨ lhs.type = .float) :
    SeqScanExecutor.evalCond (tabMeta.tableCols tab) rec_ cond =
      .ok (((lhs.stored rec_).compareTolerant val).any cond.op.holds) := by
  unfold SeqScanExecutor.evalCond
  rw [evalCondWith_val memcmp htab hlhs hrhs]
  unfold ColMeta.stored
  obtain ⟨hint, hval⟩ | hfloat := htype
  · rw [hint]
    cases val with
    | float f => cases hval
    | str s => cases hval
    | int i =>
      have hcomparable : comparable .int (Value.int i).type = true := rfl
      obtain ⟨raw', hraw', hword, -⟩ := Value.rawBytes_cast hcomparable hraw
      obtain rfl := Except.ok.inj (hraw.symm.trans hraw')
      have hbuf : readWord buf = i := hword nofun
      simp only [reduceCtorEq, if_false, compareValues, hbuf]
      exact congrArg Except.ok (cond.op.holds_compare _ _).symm
  · rw [hfloat, if_pos rfl, CompOp.holdsFloat_eq]
    cases val <;> rfl

private theorem scan_col {rhsCol : TabCol} {rhs : ColMeta} (htab : cond.lhsCol.tabName = tab)
    (hlhs : tabMeta.cols.find? (·.name = cond.lhsCol.colName) = some lhs) (hrhs : cond.rhs = .col rhsCol)
    (hrhsTab : rhsCol.tabName = tab) (hcol : tabMeta.cols.find? (·.name = rhsCol.colName) = some rhs)
    (hnumber : lhs.type ≠ .string) (htype : lhs.type = rhs.type) :
    SeqScanExecutor.evalCond (tabMeta.tableCols tab) rec_ cond =
      .ok (((lhs.stored rec_).compareTolerant (rhs.stored rec_)).any cond.op.holds) := by
  unfold SeqScanExecutor.evalCond
  rw [evalCondWith_col memcmp htab hlhs hrhs hrhsTab hcol]
  unfold ColMeta.stored
  rw [← htype]
  cases hlhsType : lhs.type with
  | int => exact congrArg Except.ok (cond.op.holds_compare _ _).symm
  | float => exact congrArg Except.ok (cond.op.holdsFloat_eq _ _)
  | string => exact absurd hlhsType hnumber

/-- Of two INTs the scan sees the order, and of a FLOAT and a number that it is given as a FLOAT the order up to
the tolerance. -/
theorem SeqScanExecutor.evalCond_numbers {tabNames : List String} {conds₀ conds : List Condition} {i : ℕ} {x y : Value}
    (htabMeta : tabs tab = some tabMeta) (hcheck : checkClause tabs tabNames conds₀ = .ok conds)
    (hcond₀ : conds₀[i]? = some cond₀) (hcond : conds[i]? = some cond)
    (hsides : Sides tab tabMeta rec_ cond₀ cond x y)
    (hsame : x.type = y.type ∨ x.type = .float ∧ ∃ val raw, cond₀.rhs = .val val raw) :
    evalCond (tabMeta.tableCols tab) rec_ cond = .ok ((x.compareTolerant y).any cond.op.holds) := by
  obtain ⟨allCols, -, hconds⟩ := bind_eq_ok.mp hcheck
  have hcheck := of_getElem?_mapM hconds hcond₀ hcond
  cases hsides with
  | val htab hlhs hnumber hrhs₀ =>
    rename_i lhs raw
    obtain ⟨lhs', buf, hcol, hraw, -, hrhs⟩ := checkCondition_val hcheck hrhs₀
    obtain rfl := Option.some.inj (hlhs.symm.trans (find?_of_columnOf htabMeta htab hcol))
    refine scan_val htab hlhs hrhs hraw ?_
    rw [ColMeta.type_stored] at hsame
    cases hlhsType : lhs.type with
    | int =>
      rw [hlhsType] at hsame
      obtain hsame | ⟨hfloat, -⟩ := hsame
      · exact .inl ⟨rfl, hsame.symm⟩
      · cases hfloat
    | float => exact .inr rfl
    | string => exact absurd hlhsType hnumber
  | col htab hlhs hnumber hrhs hrhsTab hcol hnumber' =>
    rw [ColMeta.type_stored, ColMeta.type_stored] at hsame
    obtain hsame | ⟨-, val, raw, hrhs₀⟩ := hsame
    · exact scan_col htab hlhs hrhs hrhsTab hcol hnumber hsame
    · obtain ⟨lhs', buf, -, -, -, hrhs'⟩ := checkCondition_val hcheck hrhs₀
      rw [hrhs] at hrhs'
      cases hrhs'

end
/-! ### Some conditions -/

/-- An INT column and a FLOAT column. -/
def numberTable : TabMeta := ⟨[⟨"i", .int, 4, 0⟩, ⟨"f", .float, 4, 4⟩], [], List.cons_ne_nil _ _⟩

/-- `f < 2` on the row `(2, 1.0)`. -/
theorem evalCond_numbers_literal :
    let tabs : String → Option TabMeta := fun tab => if tab = "t" then some numberTable else none
    let f : ColMeta := ⟨"f", .float, 4, 4⟩
    let row := wordBytes 2 ++ wordBytes 0x3F800000
    let cond₀ : Condition := ⟨⟨"", "f"⟩, .lt, .val (.int 2) none⟩
    let cond : Condition := ⟨⟨"t", "f"⟩, .lt, .val (.float 0x40000000) (some (wordBytes 2))⟩
    checkClause tabs ["t"] [cond₀] = .ok [cond] ∧
      SeqScanExecutor.evalCond (numberTable.tableCols "t") row cond =
        .ok (((f.stored row).compareTolerant (.int 2)).any CompOp.lt.holds) := by
  intro tabs f row cond₀ cond
  have hcheck : checkClause tabs ["t"] [cond₀] = .ok [cond] := by decide +kernel
  have hsides : Sides "t" numberTable row cond₀ cond (f.stored row) (.int 2) := .val rfl rfl (by decide) rfl
  exact ⟨hcheck, SeqScanExecutor.evalCond_numbers (i := 0) rfl hcheck rfl rfl hsides (.inr ⟨rfl, _, _, rfl⟩)⟩

/-- On the row `(2, 1.0)`, `f = 1.00000012` holds, and neither `i > 1.5` nor `i > f` does. -/
theorem not_comparesNumbers :
    let tabs : String → Option TabMeta := fun tab => if tab = "t" then some numberTable else none
    let row := wordBytes 2 ++ wordBytes 0x3F800000
    let close₀ : Condition := ⟨⟨"", "f"⟩, .eq, .val (.float 0x3F800001) none⟩
    let close : Condition := ⟨⟨"t", "f"⟩, .eq, .val (.float 0x3F800001) (some (wordBytes 0x3F800001))⟩
    let literal₀ : Condition := ⟨⟨"", "i"⟩, .gt, .val (.float 0x3FC00000) none⟩
    let literal : Condition :=
      ⟨⟨"t", "i"⟩, .gt, .val ((Value.float 0x3FC00000).cast .int) (some (wordBytes 0x3FC00000))⟩
    let column₀ : Condition := ⟨⟨"", "i"⟩, .gt, .col ⟨"", "f"⟩⟩
    let column : Condition := ⟨⟨"t", "i"⟩, .gt, .col ⟨"t", "f"⟩⟩
    checkClause tabs ["t"] [close₀, literal₀, column₀] = .ok [close, literal, column] ∧
      ¬ComparesNumbers "t" numberTable row close₀ close ∧ ¬ComparesNumbers "t" numberTable row literal₀ literal ∧
      ¬ComparesNumbers "t" numberTable row column₀ column := by
  intro tabs row close₀ close literal₀ literal column₀ column
  refine ⟨rfl, ?_, ?_, ?_⟩
  · intro h
    have hscan := h _ _ (.val rfl rfl (by decide) rfl)
    revert hscan
    decide +kernel
  · intro h
    have hscan := h _ _ (.val rfl rfl (by decide) rfl)
    revert hscan
    decide +kernel
  · intro h
    have hscan := h _ _ (.col rfl rfl (by decide) rfl rfl rfl (by decide))
    revert hscan
    decide +kernel

end Rmdb
