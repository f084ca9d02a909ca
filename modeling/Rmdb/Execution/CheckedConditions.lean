import Rmdb.Execution.Conditions
import Rmdb.Lib.Program

/-! The conditions that the semantic check lets through, and how the evaluators find their columns. -/
namespace Rmdb

open Program Analyze

/-! ### What the semantic check leaves -/

theorem Value.cast_cast (val : Value) (type : ColType) : (val.cast type).cast type = val.cast type := by
  cases val <;> cases type <;> rfl

theorem Value.type_cast {val : Value} {type : ColType} (h : comparable type val.type = true) :
    (val.cast type).type = type := by
  cases val <;> cases type <;> first | rfl | cases h

/-- The buffer of the converted literal holds the literal. -/
theorem Value.rawBytes_cast {val : Value} {type : ColType} {len : ℕ} {raw : Bytes}
    (hcomparable : comparable type val.type = true) (hraw : val.rawBytes len = .ok raw) :
    ∃ raw', (val.cast type).rawBytes len = .ok raw' ∧
      (type ≠ .string → readWord raw' = (val.cast type).word) ∧ (type = .string → raw' = raw) := by
  have hnumber : val.type ≠ .string → len = 4 := by
    intro hnot
    cases val with
    | int i =>
      by_contra hlen
      rw [rawBytes, if_neg hlen] at hraw
      cases hraw
    | float f =>
      by_contra hlen
      rw [rawBytes, if_neg hlen] at hraw
      cases hraw
    | str s => exact absurd rfl hnot
  cases val with
  | int i =>
    have hlen := hnumber nofun
    cases type with
    | int => exact ⟨wordBytes i, by simp [cast, rawBytes, hlen]; rfl, fun _ => readWord_wordBytes i, nofun⟩
    | float => exact ⟨_, by simp [cast, rawBytes, hlen]; rfl, fun _ => readWord_wordBytes _, nofun⟩
    | string => cases hcomparable
  | float f =>
    have hlen := hnumber nofun
    cases type with
    | int => exact ⟨_, by simp [cast, rawBytes, hlen]; rfl, fun _ => readWord_wordBytes _, nofun⟩
    | float => exact ⟨wordBytes f, by simp [cast, rawBytes, hlen]; rfl, fun _ => readWord_wordBytes f, nofun⟩
    | string => cases hcomparable
  | str s =>
    cases type with
    | int => cases hcomparable
    | float => cases hcomparable
    | string => exact ⟨raw, hraw, fun h => absurd rfl h, fun _ => rfl⟩

/-- A condition as it comes out of the check. -/
structure Checked (tabs : String → Option TabMeta) (cond : Condition) (lhs : ColMeta) : Prop where
  column : columnOf tabs cond.lhsCol = .ok lhs
  val : ∀ val raw, cond.rhs = .val val raw → ∃ (val₀ : Value) (buf : Bytes), raw = some buf ∧ val = val₀.cast lhs.type ∧
    val₀.rawBytes lhs.len = .ok buf ∧ comparable lhs.type val₀.type = true
  col : ∀ rhsCol, cond.rhs = .col rhsCol → ∃ rhs, columnOf tabs rhsCol = .ok rhs

theorem checkCondition_checked {tabs : String → Option TabMeta} {allCols : List TableCol}
    {cond₀ cond : Condition} (h : checkCondition tabs allCols cond₀ = .ok cond) :
    ∃ lhs, Checked tabs cond lhs := by
  unfold checkCondition at h
  obtain ⟨lhsCol, -, h⟩ := bind_eq_ok.mp h
  cases hrhs : cond₀.rhs with
  | val val raw =>
    rw [hrhs] at h
    obtain ⟨lhs, hlhs, h⟩ := bind_eq_ok.mp h
    obtain ⟨buf, hraw, h⟩ := bind_eq_ok.mp h
    by_cases hcomparable : comparable lhs.type val.type = true
    · rw [if_pos hcomparable] at h
      cases h
      refine ⟨lhs, hlhs, ?_, nofun⟩
      rintro val' raw' ⟨⟩
      exact ⟨val, buf, rfl, rfl, hraw, hcomparable⟩
    · rw [if_neg hcomparable] at h
      cases h
  | col rhsCol₀ =>
    rw [hrhs] at h
    obtain ⟨rhsCol, -, h⟩ := bind_eq_ok.mp h
    obtain ⟨lhs, hlhs, h⟩ := bind_eq_ok.mp h
    obtain ⟨rhs, hcol, h⟩ := bind_eq_ok.mp h
    by_cases hcomparable : comparable lhs.type rhs.type = true
    · rw [if_pos hcomparable] at h
      cases h
      refine ⟨lhs, hlhs, nofun, ?_⟩
      rintro rhsCol' ⟨⟩
      exact ⟨rhs, hcol⟩
    · rw [if_neg hcomparable] at h
      cases h

theorem checkClause_checked {tabs : String → Option TabMeta} {tabNames : List String}
    {conds₀ conds : List Condition} {cond : Condition} (h : checkClause tabs tabNames conds₀ = .ok conds)
    (hcond : cond ∈ conds) : ∃ lhs, Checked tabs cond lhs := by
  obtain ⟨allCols, -, h⟩ := bind_eq_ok.mp h
  obtain ⟨cond₀, -, hcheck⟩ := of_mem_mapM h hcond
  exact checkCondition_checked hcheck

section
variable {tabs : String → Option TabMeta} {tab : String} {tabMeta : TabMeta} {rec_ : Bytes}
  {cond : Condition} {lhs : ColMeta} {target : TabCol}

theorem find?_tableCols (htab : target.tabName = tab) :
    ((tabMeta.tableCols tab).find? fun col => col.tabName = target.tabName ∧ col.name = target.colName) =
      (tabMeta.cols.find? (·.name = target.colName)).map fun col => { col with tabName := tab } := by
  unfold TabMeta.tableCols
  rw [List.find?_map]
  congr 2
  funext col
  simp [htab]

theorem find?_tableCols_ne (htab : target.tabName ≠ tab) :
    ((tabMeta.tableCols tab).find? fun col => col.tabName = target.tabName ∧ col.name = target.colName) =
      none := by
  unfold TabMeta.tableCols
  rw [List.find?_map, Option.map_eq_none_iff, List.find?_eq_none]
  intro col _
  simp [htab.symm]

theorem find?_of_columnOf (htabMeta : tabs tab = some tabMeta) (htab : target.tabName = tab)
    {col : ColMeta} (h : columnOf tabs target = .ok col) :
    tabMeta.cols.find? (·.name = target.colName) = some col := by
  unfold columnOf getTable at h
  rw [htab, htabMeta] at h
  obtain ⟨found, hfound, h⟩ := bind_eq_ok.mp h
  cases hfound
  cases hcol : tabMeta.cols.find? (·.name = target.colName) with
  | none =>
    rw [hcol] at h
    cases h
  | some col' =>
    rw [hcol] at h
    cases h
    rfl

theorem getCol_tableCols (htab : target.tabName = tab) {col : ColMeta}
    (h : tabMeta.cols.find? (·.name = target.colName) = some col) :
    getCol (tabMeta.tableCols tab) target = .ok { col with tabName := tab } := by
  unfold getCol
  rw [find?_tableCols htab, h]
  rfl

theorem getCol_tableCols_ne (htab : target.tabName ≠ tab) :
    getCol (tabMeta.tableCols tab) target = .error (.rmdb .columnNotFound) := by
  unfold getCol
  rw [find?_tableCols_ne htab]
  rfl

theorem evalCondWith_val (compareString : Bytes → Bytes → ℕ → Ordering) {val : Value} {buf : Bytes}
    (htab : cond.lhsCol.tabName = tab) (hlhs : tabMeta.cols.find? (·.name = cond.lhsCol.colName) = some lhs)
    (hrhs : cond.rhs = .val val (some buf)) :
    evalCondWith compareString (tabMeta.tableCols tab) rec_ cond =
      .ok (if lhs.type = .float then cond.op.holdsFloat (readWord (rec_.drop lhs.offset)) val.word
        else compareValues compareString lhs.type (rec_.drop lhs.offset) buf cond.op lhs.len) := by
  unfold evalCondWith
  rw [getCol_tableCols htab hlhs, hrhs]
  change (if lhs.type = .float then _ else _) = _
  split <;> rfl

theorem evalCondWith_col (compareString : Bytes → Bytes → ℕ → Ordering) {rhsCol : TabCol} {rhs : ColMeta}
    (htab : cond.lhsCol.tabName = tab) (hlhs : tabMeta.cols.find? (·.name = cond.lhsCol.colName) = some lhs)
    (hrhs : cond.rhs = .col rhsCol) (hrhsTab : rhsCol.tabName = tab)
    (hcol : tabMeta.cols.find? (·.name = rhsCol.colName) = some rhs) :
    evalCondWith compareString (tabMeta.tableCols tab) rec_ cond =
      .ok (compareValues compareString lhs.type (rec_.drop lhs.offset) (rec_.drop rhs.offset) cond.op lhs.len) := by
  unfold evalCondWith
  rw [getCol_tableCols htab hlhs, hrhs]
  change (getCol (tabMeta.tableCols tab) rhsCol >>= _) = _
  rw [getCol_tableCols hrhsTab hcol]
  rfl

namespace IndexScanExecutor

/-- The index scan compares with the bytes of the literal as the check left it. -/
theorem evalCond_val {val : Value} {raw : Option Bytes} {buf : Bytes} (htab : cond.lhsCol.tabName = tab)
    (hlhs : tabMeta.cols.find? (·.name = cond.lhsCol.colName) = some lhs) (hrhs : cond.rhs = .val val raw)
    (hraw : (val.cast lhs.type).rawBytes lhs.len = .ok buf) :
    prepareCond tab tabMeta.cols cond >>= evalCond (tabMeta.tableCols tab) rec_ =
      .ok (if lhs.type = .float then cond.op.holdsFloat (readWord (rec_.drop lhs.offset)) (readWord buf)
        else cond.op.holds (ixCompareCol lhs.type lhs.len (rec_.drop lhs.offset) buf)) := by
  unfold prepareCond
  rw [hrhs]
  dsimp only
  rw [if_neg (not_not.mpr htab), hlhs]
  dsimp only
  rw [hraw]
  change evalCond (tabMeta.tableCols tab) rec_ _ = _
  unfold evalCond
  dsimp only
  rw [getCol_tableCols htab hlhs]
  change (if lhs.type = .float then _ else _) = _
  split <;> rfl

theorem evalCond_col {rhsCol : TabCol} {rhs : ColMeta} (htab : cond.lhsCol.tabName = tab)
    (hlhs : tabMeta.cols.find? (·.name = cond.lhsCol.colName) = some lhs) (hrhs : cond.rhs = .col rhsCol)
    (hrhsTab : rhsCol.tabName = tab) (hcol : tabMeta.cols.find? (·.name = rhsCol.colName) = some rhs) :
    prepareCond tab tabMeta.cols cond >>= evalCond (tabMeta.tableCols tab) rec_ =
      .ok (if lhs.type = .float
        then cond.op.holdsFloat (readWord (rec_.drop lhs.offset)) (readWord (rec_.drop rhs.offset))
        else cond.op.holds (ixCompareCol lhs.type lhs.len (rec_.drop lhs.offset) (rec_.drop rhs.offset))) := by
  unfold prepareCond
  rw [hrhs]
  change evalCond (tabMeta.tableCols tab) rec_ cond = _
  unfold evalCond
  rw [getCol_tableCols htab hlhs, hrhs]
  dsimp only
  rw [getCol_tableCols hrhsTab hcol]
  change (if lhs.type = .float then _ else _) = _
  split <;> rfl

end IndexScanExecutor
end
end Rmdb
