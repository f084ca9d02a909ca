import Rmdb.Execution.CheckedConditions
import Rmdb.Execution.Meaning
import Rmdb.Optimizer.Planner

/-! A condition on one record: what its values say, and where an evaluator reads something else. -/
namespace Rmdb

open Program Analyze

namespace Condition

/-- The condition names columns of the table only. -/
def within (tab : String) (cond : Condition) : Bool := (Planner.condCols cond).all (·.tabName = tab)

/-- The values in a record meet the condition. The right column is read like the left one. -/
def meets (tabMeta : TabMeta) (rec_ : Bytes) (cond : Condition) : Bool :=
  (tabMeta.cols.find? (·.name = cond.lhsCol.colName)).any fun lhs =>
    match cond.rhs with
    | .val val _ => Value.meets cond.op (lhs.stored rec_) val
    | .col rhsCol => (tabMeta.cols.find? (·.name = rhsCol.colName)).any fun rhs =>
      Value.meets cond.op (lhs.stored rec_) ({ lhs with offset := rhs.offset }.stored rec_)

/-- An integer comes between the buffer of the literal and the literal, or two strings are taken apart. -/
def MisreadBy (apart : CompOp → Bytes → Bytes → ℕ → Prop) (tabMeta : TabMeta) (rec_ : Bytes) (cond : Condition) : Prop :=
  ∃ lhs ∈ tabMeta.cols.find? (·.name = cond.lhsCol.colName),
    let x := rec_.drop lhs.offset
    match cond.rhs with
    | .val val raw => ∃ buf ∈ raw,
      match lhs.type with
      | .int => cond.op.Splits (readWord x).toInt (readWord buf).toInt val.word.toInt
      | .float => False
      | .string => apart cond.op x buf lhs.len
    | .col rhsCol => ∃ rhs ∈ tabMeta.cols.find? (·.name = rhsCol.colName),
      lhs.type = .string ∧ apart cond.op x (rec_.drop rhs.offset) lhs.len

/-- By the sequential scan, which takes two strings apart that go on behind a common NUL. -/
def Misread : TabMeta → Bytes → Condition → Prop :=
  MisreadBy fun op x y n => op.HidesBytes (x.takeD n 0) (y.takeD n 0)

/-- By the filter, which goes on behind a NUL and leaves the blanks at the end out. -/
def MisreadTrimmed : TabMeta → Bytes → Condition → Prop :=
  MisreadBy fun op x y n => op.EndsApart (x.take n) (y.take n)

/-- The right column has the type of the left one, and a string there is the same when it is read with the length of
the left one. -/
def Alike (tabMeta : TabMeta) (rec_ : Bytes) (cond : Condition) : Prop :=
  ∀ rhsCol, cond.rhs = .col rhsCol → ∀ lhs ∈ tabMeta.cols.find? (·.name = cond.lhsCol.colName),
    ∀ rhs ∈ tabMeta.cols.find? (·.name = rhsCol.colName), rhs.type = lhs.type ∧
      (lhs.type = .string → upToNul ((rec_.drop rhs.offset).take lhs.len) = upToNul ((rec_.drop rhs.offset).take rhs.len))

end Condition

section
variable {tabs : String → Option TabMeta} {tab : String} {tabMeta : TabMeta} (rec_ : Bytes) {cond : Condition}
  {lhs : ColMeta} {compareString : Bytes → Bytes → ℕ → Ordering} {apart : CompOp → Bytes → Bytes → ℕ → Prop}

theorem within_val {val : Value} {raw : Option Bytes} (hrhs : cond.rhs = .val val raw) :
    cond.within tab = true ↔ cond.lhsCol.tabName = tab := by
  unfold Condition.within Planner.condCols
  simp [hrhs]

theorem within_col {rhsCol : TabCol} (hrhs : cond.rhs = .col rhsCol) :
    cond.within tab = true ↔ cond.lhsCol.tabName = tab ∧ rhsCol.tabName = tab := by
  unfold Condition.within Planner.condCols
  simp [hrhs]

/-- A checked literal in a record. -/
private theorem meets_val {val : Value} {raw : Option Bytes} (htabMeta : tabs tab = some tabMeta)
    (h : Checked tabs cond lhs) (hrhs : cond.rhs = .val val raw) (htab : cond.lhsCol.tabName = tab) :
    ∃ buf buf', raw = some buf ∧ (val.cast lhs.type).rawBytes lhs.len = .ok buf' ∧
      (lhs.type ≠ .string → readWord buf' = val.word) ∧ (lhs.type = .string → buf' = buf) ∧
      cond.meets tabMeta rec_ =
        if lhs.type = .float then cond.op.holdsFloat (readWord (rec_.drop lhs.offset)) (readWord buf')
        else cond.op.holds (ixCompareCol lhs.type lhs.len (rec_.drop lhs.offset) buf') := by
  have hlhs := find?_of_columnOf htabMeta htab h.column
  obtain ⟨val₀, buf, rfl, rfl, hraw, hcomparable⟩ := h.val val raw hrhs
  obtain ⟨buf', hbuf', hword, hsame⟩ := Value.rawBytes_cast hcomparable hraw
  refine ⟨buf, buf', rfl, by rw [Value.cast_cast, hbuf'], hword, hsame, ?_⟩
  rw [← lhs.meets_literal cond.op rec_ (Value.type_cast hcomparable) hbuf']
  unfold Condition.meets
  rw [hlhs, hrhs]
  rfl

private theorem meets_col {rhsCol : TabCol} (htabMeta : tabs tab = some tabMeta) (h : Checked tabs cond lhs)
    (hrhs : cond.rhs = .col rhsCol) (htab : cond.lhsCol.tabName = tab) (hrhsTab : rhsCol.tabName = tab) :
    ∃ rhs, tabMeta.cols.find? (·.name = rhsCol.colName) = some rhs ∧
      cond.meets tabMeta rec_ =
        if lhs.type = .float then cond.op.holdsFloat (readWord (rec_.drop lhs.offset)) (readWord (rec_.drop rhs.offset))
        else cond.op.holds (ixCompareCol lhs.type lhs.len (rec_.drop lhs.offset) (rec_.drop rhs.offset)) := by
  have hlhs := find?_of_columnOf htabMeta htab h.column
  obtain ⟨rhs, hrhsCol⟩ := h.col rhsCol hrhs
  have hcol := find?_of_columnOf htabMeta hrhsTab hrhsCol
  refine ⟨rhs, hcol, ?_⟩
  rw [← lhs.meets_stored]
  unfold Condition.meets
  rw [hlhs, hrhs]
  dsimp only [Option.any_some]
  rw [hcol]
  rfl

/-- The index scan decides like the values. -/
theorem IndexScanExecutor.evalCond_within (htabMeta : tabs tab = some tabMeta) (h : Checked tabs cond lhs)
    (hwithin : cond.within tab = true) :
    prepareCond tab tabMeta.cols cond >>= evalCond (tabMeta.tableCols tab) rec_ = .ok (cond.meets tabMeta rec_) := by
  cases hrhs : cond.rhs with
  | val val raw =>
    have htab := (within_val hrhs).mp hwithin
    obtain ⟨buf, buf', -, hbuf', -, -, hmeets⟩ := meets_val rec_ htabMeta h hrhs htab
    rw [hmeets]
    exact evalCond_val htab (find?_of_columnOf htabMeta htab h.column) hrhs hbuf'
  | col rhsCol =>
    obtain ⟨htab, hrhsTab⟩ := (within_col hrhs).mp hwithin
    obtain ⟨rhs, hcol, hmeets⟩ := meets_col rec_ htabMeta h hrhs htab hrhsTab
    rw [hmeets]
    exact evalCond_col htab (find?_of_columnOf htabMeta htab h.column) hrhs hrhsTab hcol

/-- The other evaluators do unless something is misread. -/
theorem evalCondWith_within (hstring : ∀ (op : CompOp) x y n, op.holds (compareString x y n) =
      op.holds (compare (upToNul (x.take n)) (upToNul (y.take n))) ↔ ¬apart op x y n)
    (htabMeta : tabs tab = some tabMeta) (h : Checked tabs cond lhs) (hwithin : cond.within tab = true) :
    ∃ b, evalCondWith compareString (tabMeta.tableCols tab) rec_ cond = .ok b ∧
      (b = cond.meets tabMeta rec_ ↔ ¬cond.MisreadBy apart tabMeta rec_) := by
  have hlhs : cond.lhsCol.tabName = tab → tabMeta.cols.find? (·.name = cond.lhsCol.colName) = some lhs :=
    fun htab => find?_of_columnOf htabMeta htab h.column
  cases hrhs : cond.rhs with
  | val val raw =>
    have htab := (within_val hrhs).mp hwithin
    obtain ⟨buf, buf', rfl, -, hword, hsame, hmeets⟩ := meets_val rec_ htabMeta h hrhs htab
    have hmisread : cond.MisreadBy apart tabMeta rec_ ↔ match lhs.type with
        | .int => cond.op.Splits (readWord (rec_.drop lhs.offset)).toInt (readWord buf).toInt val.word.toInt
        | .float => False
        | .string => apart cond.op (rec_.drop lhs.offset) buf lhs.len := by
      unfold Condition.MisreadBy
      rw [hlhs htab, hrhs]
      simp
    rw [hmeets, hmisread]
    refine ⟨_, evalCondWith_val compareString htab (hlhs htab) hrhs, ?_⟩
    unfold compareValues ixCompareCol
    cases htype : lhs.type with
    | int =>
      rw [htype] at hword
      rw [if_neg (by decide), if_neg (by decide), hword (by decide), ← cond.op.holds_compare_iff, ← cond.op.holds_compare]
    | float =>
      rw [htype] at hword
      rw [if_pos rfl, if_pos rfl, hword (by decide)]
      simp
    | string =>
      rw [if_neg (by decide), if_neg (by decide), hsame htype, strncmp_take]
      exact hstring _ _ _ _
  | col rhsCol =>
    obtain ⟨htab, hrhsTab⟩ := (within_col hrhs).mp hwithin
    obtain ⟨rhs, hcol, hmeets⟩ := meets_col rec_ htabMeta h hrhs htab hrhsTab
    have hmisread : cond.MisreadBy apart tabMeta rec_ ↔ lhs.type = .string ∧
        apart cond.op (rec_.drop lhs.offset) (rec_.drop rhs.offset) lhs.len := by
      unfold Condition.MisreadBy
      rw [hlhs htab, hrhs]
      simp [hcol]
    rw [hmeets, hmisread]
    refine ⟨_, evalCondWith_col compareString htab (hlhs htab) hrhs hrhsTab hcol, ?_⟩
    unfold compareValues ixCompareCol
    cases lhs.type with
    | int =>
      rw [if_neg (by decide), cond.op.holds_compare]
      simp
    | float => simp
    | string =>
      rw [if_neg (by decide), strncmp_take]
      simpa using hstring _ _ _ _

theorem SeqScanExecutor.evalCond_within (htabMeta : tabs tab = some tabMeta) (h : Checked tabs cond lhs)
    (hwithin : cond.within tab = true) :
    ∃ b, evalCond (tabMeta.tableCols tab) rec_ cond = .ok b ∧
      (b = cond.meets tabMeta rec_ ↔ ¬cond.Misread tabMeta rec_) :=
  evalCondWith_within rec_ CompOp.holds_memcmp_iff htabMeta h hwithin

theorem FilterExecutor.evalCond_within (htabMeta : tabs tab = some tabMeta) (h : Checked tabs cond lhs)
    (hwithin : cond.within tab = true) :
    ∃ b, evalCond (tabMeta.tableCols tab) rec_ cond = .ok b ∧
      (b = cond.meets tabMeta rec_ ↔ ¬cond.MisreadTrimmed tabMeta rec_) :=
  evalCondWith_within rec_ CompOp.holds_trimmedCompare_iff htabMeta h hwithin

end
end Rmdb
