import Rmdb.Analyze.Analyze
import Rmdb.Lib.Program

/-! When the check of a WHERE clause runs into the assertion of `init_raw`. -/
namespace Rmdb.Analyze

open Program

/-- A condition of the parser, which may have aggregate functions in the place of its columns. -/
structure ClauseCondition where
  cond : Condition
  isLhsAgg : Bool
  isRhsAgg : Bool

/-- An aggregate function is not checked. -/
def ClauseCondition.isAgg (clause : ClauseCondition) : Bool := clause.isLhsAgg || clause.isRhsAgg

section
variable (tabs : String → Option TabMeta)

/-- A round of the loop of `check_clause`. -/
def checkClauseCondition (allCols : List TableCol) (clause : ClauseCondition) : Except DbError ClauseCondition :=
  if clause.isAgg then return clause else return { clause with cond := ← checkCondition tabs allCols clause.cond }

/-- `check_clause` with aggregate functions. -/
def checkClauses (tabNames : List String) (clauses : List ClauseCondition) : Except DbError (List ClauseCondition) := do
  let allCols ← getAllCols tabs tabNames
  clauses.mapM (checkClauseCondition tabs allCols)

/-- The buffer of a literal is as long as the column. -/
def RawFits (cond : Condition) : Prop :=
  ∀ val raw, cond.rhs = .val val raw →
    ∃ col bytes, columnOf tabs cond.lhsCol = .ok col ∧ raw = some bytes ∧ bytes.length = col.len

/-- The clause is accepted with its buffers, or a proper error is thrown. -/
def Clean : Except DbError (List ClauseCondition) → Prop :=
  Ends (fun e => ∃ kind, e = .rmdb kind) fun clauses => ∀ clause ∈ clauses, clause.isAgg = false →
    RawFits tabs clause.cond

/-- The literal is a number or a string that fits into the column. -/
def LiteralFits (val : Value) (len : ℕ) : Prop :=
  match val with
  | .str s => s.length ≤ len
  | _ => len = 4

/-- The columns of the condition are there, and it compares what can be compared. -/
def Acceptable (allCols : List TableCol) (cond : Condition) : Prop :=
  ∃ lhsCol lhs, checkColumn allCols cond.lhsCol = .ok lhsCol ∧ columnOf tabs lhsCol = .ok lhs ∧
    match cond.rhs with
    | .val val _ => comparable lhs.type val.type = true ∧ LiteralFits val lhs.len
    | .col rhsCol => ∃ rhsCol' rhs, checkColumn allCols rhsCol = .ok rhsCol' ∧ columnOf tabs rhsCol' = .ok rhs ∧
        comparable lhs.type rhs.type = true

/-- A number is compared with a column that has another length. -/
def Trips (allCols : List TableCol) (cond : Condition) : Prop :=
  ∃ lhsCol lhs val raw, checkColumn allCols cond.lhsCol = .ok lhsCol ∧ columnOf tabs lhsCol = .ok lhs ∧
    cond.rhs = .val val raw ∧ val.type ≠ .string ∧ lhs.len ≠ 4

end

variable {tabs : String → Option TabMeta} {allCols : List TableCol} {cond cond' : Condition} {val : Value} {len : ℕ}

theorem rawBytes_eq_ok_iff : (∃ raw, val.rawBytes len = .ok raw) ↔ LiteralFits val len := by
  unfold Value.rawBytes LiteralFits
  cases val with
  | int i =>
    dsimp only
    by_cases hlen : len = 4
    · rw [if_pos hlen]
      exact iff_of_true ⟨_, rfl⟩ hlen
    · rw [if_neg hlen]
      exact iff_of_false (fun ⟨_, h⟩ => nomatch h) hlen
  | float f =>
    dsimp only
    by_cases hlen : len = 4
    · rw [if_pos hlen]
      exact iff_of_true ⟨_, rfl⟩ hlen
    · rw [if_neg hlen]
      exact iff_of_false (fun ⟨_, h⟩ => nomatch h) hlen
  | str s =>
    dsimp only
    by_cases hlen : len < s.length
    · rw [if_pos hlen]
      exact iff_of_false (fun ⟨_, h⟩ => nomatch h) (by omega)
    · rw [if_neg hlen]
      exact iff_of_true ⟨_, rfl⟩ (by omega)

theorem rawBytes_eq_crash_iff : val.rawBytes len = .error .crash ↔ val.type ≠ .string ∧ len ≠ 4 := by
  unfold Value.rawBytes Value.type
  cases val with
  | int i =>
    dsimp only
    by_cases hlen : len = 4
    · rw [if_pos hlen]
      exact iff_of_false (fun h => nomatch h) (fun h => h.2 hlen)
    · rw [if_neg hlen]
      exact iff_of_true rfl ⟨by decide, hlen⟩
  | float f =>
    dsimp only
    by_cases hlen : len = 4
    · rw [if_pos hlen]
      exact iff_of_false (fun h => nomatch h) (fun h => h.2 hlen)
    · rw [if_neg hlen]
      exact iff_of_true rfl ⟨by decide, hlen⟩
  | str s =>
    dsimp only
    split
    · exact iff_of_false (fun h => nomatch h) (fun h => h.1 rfl)
    · exact iff_of_false (fun h => nomatch h) (fun h => h.1 rfl)

theorem rawBytes_error {e : DbError} (h : val.rawBytes len = .error e) (hne : e ≠ .crash) : ∃ kind, e = .rmdb kind := by
  unfold Value.rawBytes at h
  cases val with
  | int i =>
    dsimp only at h
    split at h
    · cases h
    · cases h
      exact absurd rfl hne
  | float f =>
    dsimp only at h
    split at h
    · cases h
    · cases h
      exact absurd rfl hne
  | str s =>
    dsimp only at h
    split at h
    · cases h
      exact ⟨_, rfl⟩
    · cases h

/-- What is thrown is a proper error. -/
def Proper {α : Type} : Except DbError α → Prop := Ends (fun e => ∃ kind, e = .rmdb kind) fun _ => True

theorem proper_getTable (tab : String) : Proper (getTable tabs tab) := by
  unfold getTable
  cases tabs tab with
  | some tabMeta => exact trivial
  | none => exact ⟨_, rfl⟩

theorem proper_getAllCols (tabs : String → Option TabMeta) (tabNames : List String) :
    Proper (getAllCols tabs tabNames) :=
  Ends.foldlM (fun _ _ tab _ => (proper_getTable tab).bind fun _ _ => trivial) trivial

theorem proper_checkColumn (allCols : List TableCol) (target : TabCol) : Proper (checkColumn allCols target) := by
  unfold checkColumn
  split
  · exact trivial
  · apply Ends.bind (Q := fun _ => True)
    · apply Ends.foldlM _ trivial
      intro tabName _ col _
      split
      · split
        · exact ⟨_, rfl⟩
        · exact trivial
      · exact trivial
    · intro tabName _
      split
      · apply Ends.bind (Q := fun _ => True)
        · apply Ends.foldlM _ trivial
          intro found _ col _
          split
          · split
            · exact ⟨_, rfl⟩
            · exact trivial
          · exact trivial
        · intro found _
          split
          · exact ⟨_, rfl⟩
          · exact trivial
      · exact trivial

theorem proper_columnOf (tabs : String → Option TabMeta) (col : TabCol) : Proper (columnOf tabs col) := by
  unfold columnOf
  apply (proper_getTable col.tabName).bind
  intro tabMeta _
  split
  · exact trivial
  · exact ⟨_, rfl⟩

theorem Proper.cases {α : Type} {x : Except DbError α} (h : Proper x) :
    (∃ a, x = .ok a) ∨ ∃ kind, x = .error (.rmdb kind) := by
  cases x with
  | ok a => exact Or.inl ⟨a, rfl⟩
  | error e =>
    obtain ⟨kind, rfl⟩ := h
    exact Or.inr ⟨kind, rfl⟩

/-- The three ways in which the check of a condition ends. -/
inductive Checked (tabs : String → Option TabMeta) (allCols : List TableCol) (cond : Condition) :
    Except DbError Condition → Prop
  | accepted {cond' : Condition} (hfits : RawFits tabs cond') (hacc : Acceptable tabs allCols cond) :
    Checked tabs allCols cond (.ok cond')
  | rejected {kind : RmdbErrorKind} (hacc : ¬Acceptable tabs allCols cond) (htrips : ¬Trips tabs allCols cond) :
    Checked tabs allCols cond (.error (.rmdb kind))
  | tripped (hacc : ¬Acceptable tabs allCols cond) (htrips : Trips tabs allCols cond) :
    Checked tabs allCols cond (.error .crash)

theorem checked_of_no_column {kind : RmdbErrorKind}
    (h : ∀ lhsCol lhs, checkColumn allCols cond.lhsCol = .ok lhsCol → columnOf tabs lhsCol ≠ .ok lhs) :
    Checked tabs allCols cond (.error (.rmdb kind)) := by
  apply Checked.rejected
  · rintro ⟨lhsCol, lhs, hcol, hlhs, -⟩
    exact h lhsCol lhs hcol hlhs
  · rintro ⟨lhsCol, lhs, val, raw, hcol, hlhs, -⟩
    exact h lhsCol lhs hcol hlhs

theorem checked_literal {lhsCol : TabCol} {lhs : ColMeta} {val : Value} {raw : Option Bytes}
    (hcol : checkColumn allCols cond.lhsCol = .ok lhsCol) (hlhs : columnOf tabs lhsCol = .ok lhs)
    (hrhs : cond.rhs = .val val raw) :
    Checked tabs allCols cond (checkCondition tabs allCols cond) := by
  have hacceptable : Acceptable tabs allCols cond ↔ comparable lhs.type val.type = true ∧ LiteralFits val lhs.len := by
    unfold Acceptable
    rw [hrhs, hcol]
    constructor
    · rintro ⟨lhsCol', lhs', hcol', hlhs', h⟩
      cases hcol'
      rw [hlhs] at hlhs'
      cases hlhs'
      exact h
    · intro h
      exact ⟨lhsCol, lhs, rfl, hlhs, h⟩
  have htrips : Trips tabs allCols cond ↔ val.type ≠ .string ∧ lhs.len ≠ 4 := by
    constructor
    · rintro ⟨lhsCol', lhs', val', raw', hcol', hlhs', hrhs', h⟩
      rw [hcol] at hcol'
      cases hcol'
      rw [hlhs] at hlhs'
      cases hlhs'
      rw [hrhs] at hrhs'
      cases hrhs'
      exact h
    · intro h
      exact ⟨lhsCol, lhs, val, raw, hcol, hlhs, hrhs, h⟩
  unfold checkCondition
  rw [hcol, hrhs]
  change Checked tabs allCols cond (columnOf tabs lhsCol >>= fun lhs => _)
  rw [hlhs]
  change Checked tabs allCols cond (val.rawBytes lhs.len >>= fun raw => _)
  cases hraw : val.rawBytes lhs.len with
  | error e =>
    have hnot : ¬Acceptable tabs allCols cond := by
      rw [hacceptable, ← rawBytes_eq_ok_iff, hraw]
      rintro ⟨-, raw, h⟩
      cases h
    by_cases hcrash : e = .crash
    · subst hcrash
      exact .tripped hnot (htrips.mpr (rawBytes_eq_crash_iff.mp hraw))
    · obtain ⟨kind, rfl⟩ := rawBytes_error hraw hcrash
      apply Checked.rejected hnot
      rw [htrips, ← rawBytes_eq_crash_iff, hraw]
      exact fun h => nomatch h
  | ok bytes =>
    have hfits : LiteralFits val lhs.len := rawBytes_eq_ok_iff.mp ⟨bytes, hraw⟩
    change Checked tabs allCols cond (if comparable lhs.type val.type = true then _ else _)
    by_cases hcomparable : comparable lhs.type val.type = true
    · rw [if_pos hcomparable]
      apply Checked.accepted _ (hacceptable.mpr ⟨hcomparable, hfits⟩)
      intro val' raw' hval'
      cases hval'
      exact ⟨lhs, bytes, hlhs, rfl, val.length_rawBytes hraw⟩
    · rw [if_neg hcomparable]
      apply Checked.rejected
      · rw [hacceptable]
        exact fun h => hcomparable h.1
      · rw [htrips, ← rawBytes_eq_crash_iff, hraw]
        exact fun h => nomatch h

theorem checked_columns {lhsCol : TabCol} {lhs : ColMeta} {rhsCol : TabCol}
    (hcol : checkColumn allCols cond.lhsCol = .ok lhsCol)
    (hlhs : columnOf tabs lhsCol = .ok lhs) (hrhs : cond.rhs = .col rhsCol) :
    Checked tabs allCols cond (checkCondition tabs allCols cond) := by
  have hacceptable : Acceptable tabs allCols cond ↔ ∃ rhsCol' rhs, checkColumn allCols rhsCol = .ok rhsCol' ∧
      columnOf tabs rhsCol' = .ok rhs ∧ comparable lhs.type rhs.type = true := by
    unfold Acceptable
    rw [hrhs, hcol]
    constructor
    · rintro ⟨lhsCol', lhs', hcol', hlhs', h⟩
      cases hcol'
      rw [hlhs] at hlhs'
      cases hlhs'
      exact h
    · intro h
      exact ⟨lhsCol, lhs, rfl, hlhs, h⟩
  have htrips : ¬Trips tabs allCols cond := by
    rintro ⟨lhsCol', lhs', val, raw, -, -, hrhs', -⟩
    rw [hrhs] at hrhs'
    cases hrhs'
  unfold checkCondition
  rw [hcol, hrhs]
  change Checked tabs allCols cond (checkColumn allCols rhsCol >>= fun rhsCol => _)
  cases (proper_checkColumn allCols rhsCol).cases with
  | inr hnone =>
    obtain ⟨kind, hkind⟩ := hnone
    rw [hkind]
    apply Checked.rejected _ htrips
    rw [hacceptable, hkind]
    rintro ⟨rhsCol', rhs, h, -⟩
    cases h
  | inl hfound =>
    obtain ⟨rhsCol', hrhsCol⟩ := hfound
    rw [hrhsCol]
    change Checked tabs allCols cond (columnOf tabs lhsCol >>= fun lhs => _)
    rw [hlhs]
    change Checked tabs allCols cond (columnOf tabs rhsCol' >>= fun rhs => _)
    cases (proper_columnOf tabs rhsCol').cases with
    | inr hnone =>
      obtain ⟨kind, hkind⟩ := hnone
      rw [hkind]
      apply Checked.rejected _ htrips
      rw [hacceptable, hrhsCol]
      rintro ⟨rhsCol'', rhs, h, hrhs', -⟩
      cases h
      rw [hkind] at hrhs'
      cases hrhs'
    | inl hfound =>
      obtain ⟨rhs, hrhsMeta⟩ := hfound
      rw [hrhsMeta]
      change Checked tabs allCols cond (if comparable lhs.type rhs.type = true then _ else _)
      by_cases hcomparable : comparable lhs.type rhs.type = true
      · rw [if_pos hcomparable]
        apply Checked.accepted
        · intro val' raw' hval'
          cases hval'
        · exact hacceptable.mpr ⟨rhsCol', rhs, hrhsCol, hrhsMeta, hcomparable⟩
      · rw [if_neg hcomparable]
        apply Checked.rejected _ htrips
        rw [hacceptable, hrhsCol]
        rintro ⟨rhsCol'', rhs', h, hrhs', hcomp⟩
        cases h
        rw [hrhsMeta] at hrhs'
        cases hrhs'
        exact hcomparable hcomp

theorem checked_checkCondition (tabs : String → Option TabMeta) (allCols : List TableCol) (cond : Condition) :
    Checked tabs allCols cond (checkCondition tabs allCols cond) := by
  cases (proper_checkColumn allCols cond.lhsCol).cases with
  | inr hnone =>
    obtain ⟨kind, hkind⟩ := hnone
    have herror : checkCondition tabs allCols cond = .error (.rmdb kind) := by
      unfold checkCondition
      rw [hkind]
      rfl
    rw [herror]
    apply checked_of_no_column
    intro lhsCol lhs h
    rw [hkind] at h
    cases h
  | inl hfound =>
    obtain ⟨lhsCol, hcol⟩ := hfound
    cases (proper_columnOf tabs lhsCol).cases with
    | inl hfound =>
      obtain ⟨lhs, hlhs⟩ := hfound
      cases hrhs : cond.rhs with
      | val val raw => exact checked_literal hcol hlhs hrhs
      | col rhsCol => exact checked_columns hcol hlhs hrhs
    | inr hnone =>
      obtain ⟨kind, hkind⟩ := hnone
      have hno : ∀ lhsCol' lhs, checkColumn allCols cond.lhsCol = .ok lhsCol' → columnOf tabs lhsCol' ≠ .ok lhs := by
        intro lhsCol' lhs h
        rw [hcol] at h
        cases h
        rw [hkind]
        exact fun h => nomatch h
      have herror : ∃ kind', checkCondition tabs allCols cond = .error (.rmdb kind') := by
        unfold checkCondition
        rw [hcol]
        cases hrhs : cond.rhs with
        | val val raw =>
          refine ⟨kind, ?_⟩
          change (columnOf tabs lhsCol >>= fun lhs => _) = _
          rw [hkind]
          rfl
        | col rhsCol =>
          change ∃ kind', (checkColumn allCols rhsCol >>= fun rhsCol => columnOf tabs lhsCol >>= fun lhs => _) = _
          cases (proper_checkColumn allCols rhsCol).cases with
          | inl hfound =>
            obtain ⟨rhsCol', hrhsCol⟩ := hfound
            refine ⟨kind, ?_⟩
            rw [hrhsCol, hkind]
            rfl
          | inr hnone =>
            obtain ⟨kind', hkind'⟩ := hnone
            refine ⟨kind', ?_⟩
            rw [hkind']
            rfl
      obtain ⟨kind', hkind'⟩ := herror
      rw [hkind']
      exact checked_of_no_column hno

theorem Acceptable.not_trips (h : Acceptable tabs allCols cond) : ¬Trips tabs allCols cond := by
  obtain ⟨lhsCol, lhs, hcol, hlhs, hrest⟩ := h
  rintro ⟨lhsCol', lhs', val, raw, hcol', hlhs', hrhs, htype, hlen⟩
  rw [hcol] at hcol'
  cases hcol'
  rw [hlhs] at hlhs'
  cases hlhs'
  rw [hrhs] at hrest
  have hraw := rawBytes_eq_ok_iff.mpr hrest.2
  rw [rawBytes_eq_crash_iff.mpr ⟨htype, hlen⟩] at hraw
  obtain ⟨raw', h⟩ := hraw
  cases h

theorem checkClauseCondition_of_not_agg {clause : ClauseCondition} (h : clause.isAgg = false) :
    checkClauseCondition tabs allCols clause = (do
      return { clause with cond := ← checkCondition tabs allCols clause.cond }) := by
  unfold checkClauseCondition
  rw [h]
  rfl

theorem checkClauseCondition_eq_ok_iff {clause : ClauseCondition} :
    (∃ clause', checkClauseCondition tabs allCols clause = .ok clause') ↔
      clause.isAgg = true ∨ Acceptable tabs allCols clause.cond := by
  cases hagg : clause.isAgg with
  | true =>
    unfold checkClauseCondition
    rw [hagg]
    exact iff_of_true ⟨clause, rfl⟩ (Or.inl rfl)
  | false =>
    rw [checkClauseCondition_of_not_agg hagg]
    have hchecked := checked_checkCondition tabs allCols clause.cond
    cases hresult : checkCondition tabs allCols clause.cond with
    | ok cond' =>
      rw [hresult] at hchecked
      cases hchecked with
      | accepted hfits hacc => exact iff_of_true ⟨_, rfl⟩ (Or.inr hacc)
    | error e =>
      rw [hresult] at hchecked
      have hnot : ¬Acceptable tabs allCols clause.cond := by
        cases hchecked with
        | rejected hacc htrips => exact hacc
        | tripped hacc htrips => exact hacc
      refine iff_of_false (fun ⟨_, h⟩ => nomatch h) ?_
      rintro (h | h)
      · cases h
      · exact hnot h

theorem checkClauseCondition_eq_crash_iff {clause : ClauseCondition} :
    checkClauseCondition tabs allCols clause = .error .crash ↔
      clause.isAgg = false ∧ Trips tabs allCols clause.cond := by
  cases hagg : clause.isAgg with
  | true =>
    unfold checkClauseCondition
    rw [hagg]
    exact iff_of_false (fun h => nomatch h) (fun h => nomatch h.1)
  | false =>
    rw [checkClauseCondition_of_not_agg hagg]
    have hchecked := checked_checkCondition tabs allCols clause.cond
    cases hresult : checkCondition tabs allCols clause.cond with
    | ok cond' =>
      rw [hresult] at hchecked
      cases hchecked with
      | accepted hfits hacc =>
        exact iff_of_false (fun h => nomatch h) (fun h => hacc.not_trips h.2)
    | error e =>
      rw [hresult] at hchecked
      cases hchecked with
      | rejected hacc htrips => exact iff_of_false (fun h => nomatch h) (fun h => htrips h.2)
      | tripped hacc htrips => exact iff_of_true rfl ⟨rfl, htrips⟩

theorem checkClauseCondition_error {clause : ClauseCondition} {e : DbError}
    (h : checkClauseCondition tabs allCols clause = .error e) (hne : e ≠ .crash) : ∃ kind, e = .rmdb kind := by
  cases hagg : clause.isAgg with
  | true =>
    unfold checkClauseCondition at h
    rw [hagg] at h
    cases h
  | false =>
    rw [checkClauseCondition_of_not_agg hagg] at h
    have hchecked := checked_checkCondition tabs allCols clause.cond
    cases hresult : checkCondition tabs allCols clause.cond with
    | ok cond' =>
      rw [hresult] at h
      cases h
    | error e' =>
      rw [hresult] at hchecked h
      cases h
      cases hchecked with
      | rejected hacc htrips => exact ⟨_, rfl⟩
      | tripped hacc htrips => exact absurd rfl hne

theorem rawFits_of_checked {clause clause' : ClauseCondition}
    (h : checkClauseCondition tabs allCols clause = .ok clause')
    (hagg : clause'.isAgg = false) : RawFits tabs clause'.cond := by
  cases hagg' : clause.isAgg with
  | true =>
    unfold checkClauseCondition at h
    rw [hagg'] at h
    cases h
    rw [hagg'] at hagg
    cases hagg
  | false =>
    rw [checkClauseCondition_of_not_agg hagg'] at h
    obtain ⟨cond', hcond', hclause⟩ := bind_eq_ok.mp h
    cases hclause
    have hchecked := checked_checkCondition tabs allCols clause.cond
    rw [hcond'] at hchecked
    cases hchecked with
    | accepted hfits hacc => exact hfits

/-- The check is clean unless it comes to a number for a column that is not four bytes long. -/
theorem clean_checkClauses_iff (tabs : String → Option TabMeta) (tabNames : List String)
    (clauses : List ClauseCondition) :
    Clean tabs (checkClauses tabs tabNames clauses) ↔
      ¬∃ allCols pre clause post, getAllCols tabs tabNames = .ok allCols ∧ clauses = pre ++ clause :: post ∧
        (∀ earlier ∈ pre, earlier.isAgg = true ∨ Acceptable tabs allCols earlier.cond) ∧
        clause.isAgg = false ∧ Trips tabs allCols clause.cond := by
  unfold checkClauses
  cases (proper_getAllCols tabs tabNames).cases with
  | inr hnone =>
    obtain ⟨kind, hkind⟩ := hnone
    rw [hkind]
    apply iff_of_true ⟨kind, rfl⟩
    rintro ⟨allCols, pre, clause, post, h, -⟩
    cases h
  | inl hfound =>
    obtain ⟨allCols, hallCols⟩ := hfound
    rw [hallCols]
    change Clean tabs (clauses.mapM (checkClauseCondition tabs allCols)) ↔ _
    have hcrash : clauses.mapM (checkClauseCondition tabs allCols) = .error .crash ↔
        ∃ allCols' pre clause post, (.ok allCols : Except DbError (List TableCol)) = .ok allCols' ∧
          clauses = pre ++ clause :: post ∧
          (∀ earlier ∈ pre, earlier.isAgg = true ∨ Acceptable tabs allCols' earlier.cond) ∧
          clause.isAgg = false ∧ Trips tabs allCols' clause.cond := by
      rw [mapM_eq_error_iff]
      constructor
      · rintro ⟨pre, clause, post, hsplit, hpre, hclause⟩
        exact ⟨allCols, pre, clause, post, rfl, hsplit, fun p hp => checkClauseCondition_eq_ok_iff.mp (hpre p hp),
          checkClauseCondition_eq_crash_iff.mp hclause⟩
      · rintro ⟨allCols', pre, clause, post, hcols, hsplit, hpre, hclause⟩
        cases hcols
        exact ⟨pre, clause, post, hsplit, fun p hp => checkClauseCondition_eq_ok_iff.mpr (hpre p hp),
          checkClauseCondition_eq_crash_iff.mpr hclause⟩
    rw [← hcrash]
    cases hresult : clauses.mapM (checkClauseCondition tabs allCols) with
    | ok clauses' =>
      apply iff_of_true _ (fun h => nomatch h)
      intro clause' hclause' hagg
      obtain ⟨clause, -, hclause⟩ := of_mem_mapM hresult hclause'
      exact rawFits_of_checked hclause hagg
    | error e =>
      obtain ⟨pre, clause, post, -, -, hclause⟩ := mapM_eq_error_iff.mp hresult
      by_cases he : e = .crash
      · subst he
        refine iff_of_false ?_ (not_not.mpr rfl)
        rintro ⟨kind, hkind⟩
        cases hkind
      · exact iff_of_true (checkClauseCondition_error hclause he) fun h => he (Except.error.inj h)

/-- A string column of ten bytes is compared with the number 5. -/
theorem not_clean_charColumn :
    let tabMeta : TabMeta := ⟨[⟨"name", .string, 10, 0⟩], [], by decide⟩
    let clause : ClauseCondition := ⟨⟨⟨"t", "name"⟩, .eq, .val (.int 5) none⟩, false, false⟩
    ¬Clean (fun tab => if tab = "t" then some tabMeta else none)
      (checkClauses (fun tab => if tab = "t" then some tabMeta else none) ["t"] [clause]) := by
  intro tabMeta clause
  have hcrash : checkClauses (fun tab => if tab = "t" then some tabMeta else none) ["t"] [clause] = .error .crash := rfl
  rw [hcrash]
  rintro ⟨kind, hkind⟩
  cases hkind

end Rmdb.Analyze
