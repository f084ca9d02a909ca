import Rmdb.Execution.Meaning

/-! When the four evaluators of a condition agree on a record. -/
namespace Rmdb

open Program Analyze

/-! ### The four evaluators -/

/-- All four evaluators give the same truth value. -/
def OneMeaning (tab : String) (tabMeta : TabMeta) (rec_ : Bytes) (cond : Condition) : Prop :=
  let cols := tabMeta.tableCols tab
  ∃ b, SeqScanExecutor.evalCond cols rec_ cond = .ok b ∧
    IndexScanExecutor.prepareCond tab tabMeta.cols cond >>= IndexScanExecutor.evalCond cols rec_ = .ok b ∧
    FilterExecutor.evalCond cols rec_ cond = .ok b ∧ UpdateExecutor.evalCond cols rec_ cond = .ok b

/-- The bytes behind a NUL and the blanks at the end do not matter to `op` in strings of `len` bytes. -/
def CompOp.ReadsAlike (op : CompOp) (x y : Bytes) (len : ℕ) : Prop :=
  ¬op.HidesBytes (x.takeD len 0) (y.takeD len 0) ∧ ¬op.EndsApart (x.take len) (y.take len)

/-- An integer does not come between the buffer of a literal and the literal; a float comes out exactly against the one
as it does against the other up to the tolerance; and strings are alike to their ends. Two columns, the right one read
like the left one, do not meet the condition. -/
def ReadsAlike (tab : String) (tabMeta : TabMeta) (rec_ : Bytes) (cond : Condition) : Prop :=
  cond.lhsCol.tabName = tab ∧ ∀ lhs ∈ tabMeta.cols.find? (·.name = cond.lhsCol.colName),
    let x := rec_.drop lhs.offset
    match cond.rhs with
    | .val val raw => ∀ buf ∈ raw,
      match lhs.type with
      | .int => ¬cond.op.Splits (readWord x).toInt (readWord buf).toInt val.word.toInt
      | .float => ¬cond.op.Strays (.ofBits ⟨readWord x⟩) (.ofBits ⟨readWord buf⟩) (.ofBits ⟨val.word⟩)
      | .string => cond.op.ReadsAlike x buf lhs.len
    | .col rhsCol => rhsCol.tabName = tab ∧ ∀ rhs ∈ tabMeta.cols.find? (·.name = rhsCol.colName),
      Value.meets cond.op (lhs.stored rec_) ({ lhs with offset := rhs.offset }.stored rec_) = false ∧
        (lhs.type = .string → cond.op.ReadsAlike x (rec_.drop rhs.offset) lhs.len)

section
variable {tabs : String → Option TabMeta} {tab : String} {tabMeta : TabMeta} {rec_ : Bytes}
  {cond : Condition} {lhs : ColMeta}

/-- The three readings of two strings. -/
private theorem readsAlike_iff (op : CompOp) (x y : Bytes) (len : ℕ) : op.ReadsAlike x y len ↔
    op.holds (memcmp x y len) = op.holds (strncmp x y len) ∧
      op.holds (trimmedCompare x y len) = op.holds (strncmp x y len) := by
  rw [strncmp_take, op.holds_memcmp_iff, op.holds_trimmedCompare_iff]
  rfl

private theorem oneMeaning_val {val₀ : Value} {buf : Bytes} (htab : cond.lhsCol.tabName = tab)
    (hlhs : tabMeta.cols.find? (·.name = cond.lhsCol.colName) = some lhs)
    (hrhs : cond.rhs = .val (val₀.cast lhs.type) (some buf)) (hraw : val₀.rawBytes lhs.len = .ok buf)
    (hcomparable : comparable lhs.type val₀.type = true) :
    OneMeaning tab tabMeta rec_ cond ↔ ReadsAlike tab tabMeta rec_ cond := by
  obtain ⟨raw', hraw', hword, hsame⟩ := Value.rawBytes_cast hcomparable hraw
  let x := rec_.drop lhs.offset
  have hseq : ∀ compareString, evalCondWith compareString (tabMeta.tableCols tab) rec_ cond = _ :=
    fun compareString => evalCondWith_val compareString htab hlhs hrhs
  have hindex : _ >>= IndexScanExecutor.evalCond _ rec_ = _ := IndexScanExecutor.evalCond_val htab hlhs hrhs
    ((congrArg (Value.rawBytes · lhs.len) (Value.cast_cast val₀ lhs.type)).trans hraw')
  have hupdate : UpdateExecutor.evalCond (tabMeta.tableCols tab) rec_ cond =
      .ok (cond.op.holds (ixCompareCol lhs.type lhs.len x buf)) := by
    unfold UpdateExecutor.evalCond
    rw [find?_tableCols htab, hlhs, hrhs]
    rfl
  unfold OneMeaning ReadsAlike SeqScanExecutor.evalCond FilterExecutor.evalCond
  dsimp only
  rw [hseq, hseq, hindex, hupdate, hlhs, hrhs]
  simp only [htab, true_and, Option.mem_some_iff, forall_eq']
  cases htype : lhs.type with
  | int =>
    rw [htype] at hword
    simp only [reduceCtorEq, if_false, compareValues, ixCompareCol, CompOp.holds_compare, hword (by simp),
      Except.ok.injEq]
    rw [← cond.op.holds_compare_iff, cond.op.holds_compare, cond.op.holds_compare]
    constructor
    · rintro ⟨b, hbuf, hval, -⟩
      exact hbuf.trans hval.symm
    · intro heq
      exact ⟨_, rfl, heq.symm, rfl, rfl⟩
  | float =>
    rw [htype] at hword
    simp only [if_true, ixCompareCol, hword (by simp), Except.ok.injEq]
    rw [← cond.op.holds_floatCompare_iff]
    constructor
    · rintro ⟨b, hval, -, -, hbuf⟩
      exact hbuf.trans hval.symm
    · intro heq
      exact ⟨_, rfl, rfl, rfl, heq⟩
  | string =>
    rw [htype] at hsame
    obtain rfl := hsame rfl
    simp only [reduceCtorEq, if_false, compareValues, ixCompareCol, Except.ok.injEq]
    rw [readsAlike_iff]
    constructor
    · rintro ⟨b, hmem, hnul, htrim, -⟩
      exact ⟨hmem.trans hnul.symm, htrim.trans hnul.symm⟩
    · rintro ⟨hmem, htrim⟩
      exact ⟨_, hmem, rfl, htrim, rfl⟩

private theorem oneMeaning_col {rhsCol : TabCol} {rhs : ColMeta} (htab : cond.lhsCol.tabName = tab)
    (hlhs : tabMeta.cols.find? (·.name = cond.lhsCol.colName) = some lhs) (hrhs : cond.rhs = .col rhsCol)
    (hrhsTab : rhsCol.tabName = tab) (hcol : tabMeta.cols.find? (·.name = rhsCol.colName) = some rhs) :
    OneMeaning tab tabMeta rec_ cond ↔ ReadsAlike tab tabMeta rec_ cond := by
  let x := rec_.drop lhs.offset
  let y := rec_.drop rhs.offset
  have hseq : ∀ compareString, evalCondWith compareString (tabMeta.tableCols tab) rec_ cond = _ :=
    fun compareString => evalCondWith_col compareString htab hlhs hrhs hrhsTab hcol
  have hindex : _ >>= IndexScanExecutor.evalCond _ rec_ = _ :=
    IndexScanExecutor.evalCond_col htab hlhs hrhs hrhsTab hcol
  have hupdate : UpdateExecutor.evalCond (tabMeta.tableCols tab) rec_ cond = .ok false := by
    unfold UpdateExecutor.evalCond
    rw [find?_tableCols htab, hlhs, hrhs]
    rfl
  have halike : ReadsAlike tab tabMeta rec_ cond ↔
      Value.meets cond.op (lhs.stored rec_) ({ lhs with offset := rhs.offset }.stored rec_) = false ∧
        (lhs.type = .string → cond.op.ReadsAlike x y lhs.len) := by
    unfold ReadsAlike
    rw [hlhs, hrhs]
    simp only [htab, hrhsTab, hcol, true_and, Option.mem_some_iff, forall_eq']
    rfl
  rw [halike, lhs.meets_stored]
  unfold OneMeaning SeqScanExecutor.evalCond FilterExecutor.evalCond
  dsimp only
  rw [hseq, hseq, hindex, hupdate]
  cases htype : lhs.type with
  | int =>
    simp only [reduceCtorEq, if_false, compareValues, ixCompareCol, CompOp.holds_compare, Except.ok.injEq]
    constructor
    · rintro ⟨b, hcols, -, -, rfl⟩
      exact ⟨hcols, fun h => absurd h (by decide)⟩
    · rintro ⟨hcols, -⟩
      exact ⟨false, hcols, hcols, hcols, rfl⟩
  | float =>
    simp only [if_true, compareValues, Except.ok.injEq]
    constructor
    · rintro ⟨b, hcols, -, -, rfl⟩
      exact ⟨hcols, fun h => absurd h (by decide)⟩
    · rintro ⟨hcols, -⟩
      exact ⟨false, hcols, hcols, hcols, rfl⟩
  | string =>
    simp only [reduceCtorEq, if_false, compareValues, ixCompareCol, Except.ok.injEq]
    rw [readsAlike_iff]
    constructor
    · rintro ⟨b, hmem, hnul, htrim, rfl⟩
      exact ⟨hnul, fun _ => ⟨hmem.trans hnul.symm, htrim.trans hnul.symm⟩⟩
    · rintro ⟨hnul, halike⟩
      obtain ⟨hmem, htrim⟩ := halike trivial
      exact ⟨false, hmem.trans hnul, hnul, htrim.trans hnul, rfl⟩

private theorem oneMeaning_checked (htabMeta : tabs tab = some tabMeta) (h : Checked tabs cond lhs) :
    OneMeaning tab tabMeta rec_ cond ↔ ReadsAlike tab tabMeta rec_ cond := by
  by_cases htab : cond.lhsCol.tabName = tab
  · have hlhs := find?_of_columnOf htabMeta htab h.column
    cases hrhs : cond.rhs with
    | val val raw =>
      obtain ⟨val₀, buf, rfl, rfl, hraw, hcomparable⟩ := h.val val raw hrhs
      exact oneMeaning_val htab hlhs hrhs hraw hcomparable
    | col rhsCol =>
      obtain ⟨rhs, hcol⟩ := h.col rhsCol hrhs
      by_cases hrhsTab : rhsCol.tabName = tab
      · exact oneMeaning_col htab hlhs hrhs hrhsTab (find?_of_columnOf htabMeta hrhsTab hcol)
      · constructor
        · rintro ⟨b, hseq, -⟩
          unfold SeqScanExecutor.evalCond evalCondWith at hseq
          rw [getCol_tableCols htab hlhs, hrhs] at hseq
          change (getCol (tabMeta.tableCols tab) rhsCol >>= _) = _ at hseq
          rw [getCol_tableCols_ne hrhsTab] at hseq
          cases hseq
        · rintro ⟨-, halike⟩
          rw [hlhs, hrhs] at halike
          exact absurd (halike lhs rfl).1 hrhsTab
  · constructor
    · rintro ⟨b, hseq, -⟩
      unfold SeqScanExecutor.evalCond evalCondWith at hseq
      rw [getCol_tableCols_ne htab] at hseq
      cases hseq
    · rintro ⟨htab', -⟩
      exact absurd htab' htab

/-- The evaluators agree on a checked condition exactly where its readings are alike. -/
theorem oneMeaning_iff {tabNames : List String} {conds₀ conds : List Condition}
    (htabMeta : tabs tab = some tabMeta) (hcheck : checkClause tabs tabNames conds₀ = .ok conds)
    (hcond : cond ∈ conds) : OneMeaning tab tabMeta rec_ cond ↔ ReadsAlike tab tabMeta rec_ cond := by
  obtain ⟨lhs, hchecked⟩ := checkClause_checked hcheck hcond
  exact oneMeaning_checked htabMeta hchecked

end

/-! ### Two conditions -/

/-- Two integer columns. -/
def intTable : TabMeta := ⟨[⟨"a", .int, 4, 0⟩, ⟨"b", .int, 4, 4⟩], [], List.cons_ne_nil _ _⟩

/-- `a < 7` on the row `(5, 5)`. -/
theorem oneMeaning_literal :
    let tabs : String → Option TabMeta := fun tab => if tab = "t" then some intTable else none
    let cond : Condition := ⟨⟨"t", "a"⟩, .lt, .val (.int 7) (some (wordBytes 7))⟩
    checkClause tabs ["t"] [⟨⟨"", "a"⟩, .lt, .val (.int 7) none⟩] = .ok [cond] ∧
      (OneMeaning "t" intTable (wordBytes 5 ++ wordBytes 5) cond ↔
        ReadsAlike "t" intTable (wordBytes 5 ++ wordBytes 5) cond) := by
  intro tabs cond
  have hcheck : checkClause tabs ["t"] [⟨⟨"", "a"⟩, .lt, .val (.int 7) none⟩] = .ok [cond] := by decide
  exact ⟨hcheck, oneMeaning_iff rfl hcheck List.mem_cons_self⟩

/-- `a = b` on the row `(5, 5)` holds for a scan and not for an UPDATE. -/
theorem not_oneMeaning : ¬∀ (tabs : String → Option TabMeta) (tab : String) (tabMeta : TabMeta)
    (rec_ : Bytes) (tabNames : List String) (conds₀ conds : List Condition) (cond : Condition),
    tabs tab = some tabMeta → checkClause tabs tabNames conds₀ = .ok conds → cond ∈ conds →
    OneMeaning tab tabMeta rec_ cond := by
  intro hclaim
  let tabs : String → Option TabMeta := fun tab => if tab = "t" then some intTable else none
  let cond : Condition := ⟨⟨"t", "a"⟩, .eq, .col ⟨"t", "b"⟩⟩
  have hcheck : checkClause tabs ["t"] [⟨⟨"", "a"⟩, .eq, .col ⟨"", "b"⟩⟩] = .ok [cond] := by decide
  obtain ⟨b, hseq, -, -, hupdate⟩ := hclaim tabs "t" intTable (wordBytes 5 ++ wordBytes 5) ["t"] _ _ cond
    rfl hcheck List.mem_cons_self
  have hscan : SeqScanExecutor.evalCond (intTable.tableCols "t") (wordBytes 5 ++ wordBytes 5) cond =
      .ok true := by decide
  have hwrite : UpdateExecutor.evalCond (intTable.tableCols "t") (wordBytes 5 ++ wordBytes 5) cond =
      .ok false := by decide
  rw [hscan] at hseq
  rw [hwrite] at hupdate
  cases hseq
  cases hupdate

end Rmdb
