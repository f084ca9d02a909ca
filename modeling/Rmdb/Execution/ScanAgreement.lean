import Mathlib.Data.List.ReduceOption
import Rmdb.Execution.OwnConditions
import Rmdb.Execution.SearchRange

/-! When the index scan and the sequential scan of a table return the same rows. -/
namespace Rmdb

open Program Analyze

/-- Both scans return, and with the same set of rows. -/
def SameRows (x y : Except DbError (List Rid)) : Prop :=
  ∃ rids rids', x = .ok rids ∧ y = .ok rids' ∧ ∀ rid, rid ∈ rids ↔ rid ∈ rids'

/-- The columns of an index are columns of the table; numbers have four bytes. -/
structure IndexMeta.OfTable (index : IndexMeta) (tabMeta : TabMeta) : Prop where
  column : ∀ col ∈ index.cols, tabMeta.cols.find? (·.name = col.name) = some col
  number : ∀ col ∈ index.cols, col.type ≠ .string → col.len = 4

/-- The index holds one entry for each row, under the key of the row. -/
def TableView.IndexedBy (view : TableView) (index : IndexMeta) (entries : List (Bytes × Rid)) : Prop :=
  ∀ key rid, (key, rid) ∈ entries ↔ rid ∈ view.rids ∧ ∃ rec_, view.getRecord rid = some rec_ ∧ index.key rec_ = key

namespace TableView

variable {view : TableView} {evalCond : Bytes → Condition → Except DbError Bool} {conds : List Condition}
  {rids out : List Rid} {rid : Rid} {rec_ : Bytes}

theorem select_ok (h : ∀ rid ∈ rids, ∀ rec_, view.getRecord rid = some rec_ →
    ∃ b, conds.allM (evalCond rec_) = .ok b) : ∃ out, view.select evalCond conds rids = .ok out := by
  refine ⟨_, filterM_eq_ok.mpr ⟨fun rid hrid => ?_, rfl⟩⟩
  cases hrec : view.getRecord rid with
  | none => exact ⟨false, rfl⟩
  | some rec_ => exact h rid hrid rec_ hrec

theorem mem_select (h : view.select evalCond conds rids = .ok out) :
    rid ∈ out ↔ rid ∈ rids ∧ ∃ rec_, view.getRecord rid = some rec_ ∧ conds.allM (evalCond rec_) = .ok true := by
  obtain ⟨hall, rfl⟩ := filterM_eq_ok.mp h
  rw [List.mem_filter]
  refine and_congr_right fun hrid => ?_
  obtain ⟨b, hb⟩ := hall rid hrid
  rw [hb]
  cases hrec : view.getRecord rid with
  | none =>
    rw [hrec] at hb
    cases hb
    simp [Except.toOption]
  | some rec_ =>
    rw [hrec] at hb
    simp [Except.toOption, show conds.allM (evalCond rec_) = .ok b from hb]

theorem eval_of_select (h : view.select evalCond conds rids = .ok out) (hrid : rid ∈ rids)
    (hrec : view.getRecord rid = some rec_) :
    ∃ b, conds.allM (evalCond rec_) = .ok b ∧ (rid ∈ out ↔ b = true) := by
  obtain ⟨b, hb⟩ := (filterM_eq_ok.mp h).1 rid hrid
  rw [hrec] at hb
  refine ⟨b, hb, ?_⟩
  rw [mem_select h]
  constructor
  · rintro ⟨-, rec', hrec', htrue⟩
    rw [hrec] at hrec'
    cases hrec'
    rw [show conds.allM (evalCond rec_) = .ok b from hb] at htrue
    exact Except.ok.inj htrue
  · rintro rfl
    exact ⟨hrid, rec_, hrec, hb⟩

end TableView

namespace IndexScanExecutor

variable {tabs : String → Option TabMeta} {tab : String} {tabMeta : TabMeta} {tabNames : List String}
  {conds₀ clause conds held : List Condition} {cond : Condition}

private theorem feedCond_val {cond' : Condition} (h : feedCond tab cond = .ok (some cond'))
    {val : Value} {raw : Option Bytes} (hval : cond'.rhs = .val val raw) : cond' = cond := by
  obtain ⟨turned, hturned, h⟩ := bind_eq_ok.mp h
  have hsame : turned.rhs = cond'.rhs ∧ cond' = turned := by
    cases hrhs : turned.rhs with
    | val val' raw' =>
      rw [hrhs] at h
      cases h
      exact ⟨hrhs.symm, rfl⟩
    | col rhsCol =>
      rw [hrhs] at h
      dsimp only at h
      split at h
      · cases h
      · cases h
        exact ⟨hrhs.symm, rfl⟩
  obtain ⟨-, rfl⟩ := hsame
  unfold turnCond at hturned
  split at hturned
  · cases hturned
    rfl
  · cases hrhs : cond.rhs with
    | val val' raw' =>
      rw [hrhs] at hturned
      cases hturned
    | col rhsCol =>
      rw [hrhs] at hturned
      dsimp only at hturned
      split at hturned
      · cases hturned
        cases hval
      · cases hturned

private theorem prepareCond_val {cols : List ColMeta} {cond' : Condition}
    (h : prepareCond tab cols cond = .ok cond') {val' : Value} {raw' : Option Bytes} (hval : cond'.rhs = .val val' raw') :
    ∃ val raw, cond.rhs = .val val raw ∧ cond'.lhsCol = cond.lhsCol ∧ cond'.op = cond.op ∧
      (cond.lhsCol.tabName = tab → ∀ col, cols.find? (·.name = cond.lhsCol.colName) = some col →
        ∃ buf, (val.cast col.type).rawBytes col.len = .ok buf ∧ raw' = some buf) ∧
      (cond.lhsCol.tabName = tab → cols.find? (·.name = cond.lhsCol.colName) = none → raw' = raw) := by
  unfold prepareCond at h
  cases hrhs : cond.rhs with
  | col rhsCol =>
    rw [hrhs] at h
    cases h
    rw [hrhs] at hval
    cases hval
  | val val raw =>
    rw [hrhs] at h
    dsimp only at h
    by_cases htab : cond.lhsCol.tabName = tab
    · rw [if_neg (not_not.mpr htab)] at h
      cases hcol : cols.find? (·.name = cond.lhsCol.colName) with
      | none =>
        rw [hcol] at h
        cases h
        rw [hrhs] at hval
        cases hval
        exact ⟨val', raw', rfl, rfl, rfl, fun _ _ => nofun, fun _ _ => rfl⟩
      | some col =>
        rw [hcol] at h
        obtain ⟨buf, hbuf, h⟩ := bind_eq_ok.mp h
        cases h
        cases hval
        refine ⟨val, raw, rfl, rfl, rfl, ?_, fun _ => nofun⟩
        rintro - _ ⟨⟩
        exact ⟨buf, hbuf, rfl⟩
    · rw [if_pos htab] at h
      cases h
      rw [hrhs] at hval
      cases hval
      exact ⟨val', raw', rfl, rfl, rfl, fun h => absurd h htab, fun h => absurd h htab⟩

/-- A literal that a checked clause compares a column with fits the column once it is prepared. -/
private theorem literalOn_checked (htabMeta : tabs tab = some tabMeta)
    (hcheck : checkClause tabs tabNames conds₀ = .ok clause) (hconds : ∀ cond ∈ conds, cond ∈ clause)
    (hnan : ∀ cond ∈ conds, ∀ f raw, cond.rhs = .val (.float f) raw → floatIsNaN f = false)
    (hheld : heldConds tab tabMeta conds = .ok held) {name : String} {op : CompOp} {raw : Option Bytes}
    (hfirst : literalOn tab held name = some (op, raw)) :
    raw ≠ none ∧ ∀ col, tabMeta.cols.find? (·.name = name) = some col → (col.type ≠ .string → col.len = 4) →
      ∀ buf ∈ raw, col.Fits buf := by
  obtain ⟨fed, hfed, hprepared⟩ := bind_eq_ok.mp hheld
  obtain ⟨heldCond, hmem, hlit⟩ := List.exists_of_findSome?_eq_some hfirst
  cases hrhs : heldCond.rhs with
  | col rhsCol =>
    rw [hrhs] at hlit
    cases hlit
  | val val' raw' =>
    rw [hrhs] at hlit
    dsimp only at hlit
    split at hlit
    · rename_i hlhs
      cases hlit
      obtain ⟨cond', hcond', hprepare⟩ := of_mem_mapM hprepared hmem
      obtain ⟨val, raw₀, hval, hlhs', -, hfound, hmissing⟩ := prepareCond_val hprepare hrhs
      obtain ⟨cond, hcond, hfeed⟩ := of_mem_mapM hfed (List.reduceOption_mem_iff.mp hcond')
      obtain rfl := feedCond_val hfeed hval
      rw [hlhs'] at hlhs
      obtain ⟨lhs, hchecked⟩ := checkClause_checked hcheck (hconds cond' hcond)
      obtain ⟨val₀, buf, rfl, rfl, hraw, hcomparable⟩ := hchecked.val val raw₀ hval
      have htab : cond'.lhsCol.tabName = tab := by rw [hlhs]
      have hcol := find?_of_columnOf htabMeta htab hchecked.column
      obtain ⟨prepared, hprep, rfl⟩ := hfound htab lhs hcol
      obtain ⟨raw', hraw', hword, -⟩ := Value.rawBytes_cast hcomparable hraw
      rw [Value.cast_cast, hraw', Except.ok.injEq] at hprep
      subst hprep
      refine ⟨nofun, fun col hindex hnumber => ?_⟩
      rintro _ ⟨⟩
      rw [hlhs] at hcol
      obtain rfl : lhs = col := by
        rw [hindex] at hcol
        exact (Option.some.inj hcol).symm
      refine ⟨Value.length_rawBytes _ hraw', hnumber, fun hfloat => ?_⟩
      rw [hword (by rw [hfloat]; nofun)]
      cases val₀ with
      | int i =>
        rw [hfloat] at hval ⊢
        exact hnan cond' hcond _ _ hval
      | float f =>
        rw [hfloat] at hval ⊢
        exact hnan cond' hcond _ _ hval
      | str s =>
        rw [hfloat] at hcomparable
        cases hcomparable
    · cases hlit

end IndexScanExecutor

/-! ### One row -/

/-- The index scan drops an equality between two tables. -/
def Condition.leftToJoin (cond : Condition) : Bool :=
  match cond.rhs with
  | .val _ _ => false
  | .col rhsCol => cond.op = .eq ∧ cond.lhsCol.tabName ≠ rhsCol.tabName

/-- What the two scans make of a row whose entry the index scan reaches or not. A row that meets all conditions is one
that is reached, unless a literal or a string is misread, and of the others something is not met and not misread either. A
condition with another table fails either scan that comes to it. -/
def RowFits (tab : String) (tabMeta : TabMeta) (rec_ : Bytes) (conds : List Condition) (reached : Prop) : Prop :=
  ((∀ cond ∈ conds, cond.within tab = true) →
    ((∀ cond ∈ conds, cond.meets tabMeta rec_ = true) → (reached ↔ ∀ cond ∈ conds, ¬cond.Misread tabMeta rec_)) ∧
    ((∃ cond ∈ conds, cond.meets tabMeta rec_ = false) →
      ∃ cond ∈ conds, cond.meets tabMeta rec_ = true ↔ cond.Misread tabMeta rec_)) ∧
  ((∃ cond ∈ conds, cond.within tab = false) →
    (∃ cond ∈ conds.takeWhile (·.within tab), cond.meets tabMeta rec_ = true ↔ cond.Misread tabMeta rec_) ∧
    (reached → ∃ cond ∈ (conds.filter (!·.leftToJoin)).takeWhile (·.within tab), cond.meets tabMeta rec_ = false))

section
variable {tabs : String → Option TabMeta} {tab : String} {tabMeta : TabMeta} {rec_ : Bytes} {cond : Condition}
  {conds held : List Condition} {lhs : ColMeta} {b : Bool}

private theorem seqEvalCond_ne_ok (hwithin : cond.within tab = false) (b : Bool) :
    SeqScanExecutor.evalCond (tabMeta.tableCols tab) rec_ cond ≠ .ok b := by
  intro h
  obtain ⟨lhs, hlhs, h⟩ := bind_eq_ok.mp h
  have htab : cond.lhsCol.tabName = tab := by
    by_contra htab
    rw [getCol_tableCols_ne htab] at hlhs
    cases hlhs
  cases hrhs : cond.rhs with
  | val val raw =>
    rw [(within_val hrhs).mpr htab] at hwithin
    cases hwithin
  | col rhsCol =>
    rw [hrhs] at h
    obtain ⟨rhs, hcol, -⟩ := bind_eq_ok.mp h
    rw [getCol_tableCols_ne fun hrhsTab => ?_] at hcol
    · cases hcol
    · rw [(within_col hrhs).mpr ⟨htab, hrhsTab⟩] at hwithin
      cases hwithin

namespace IndexScanExecutor

private theorem turnCond_within (hwithin : cond.within tab = true) : turnCond tab cond = .ok cond := by
  have htab : cond.lhsCol.tabName = tab := by
    cases hrhs : cond.rhs with
    | val val raw => exact (within_val hrhs).mp hwithin
    | col rhsCol => exact ((within_col hrhs).mp hwithin).1
  unfold turnCond
  rw [if_pos htab]
  rfl

/-- A condition with another table stands with that table on its right once it is turned. -/
private theorem evalCond_ne_ok (hwithin : cond.within tab = false) (b : Bool) :
    (turnCond tab cond >>= fun turned => prepareCond tab tabMeta.cols turned >>=
      evalCond (tabMeta.tableCols tab) rec_) ≠ .ok b := by
  intro h
  obtain ⟨turned, hturned, h⟩ := bind_eq_ok.mp h
  obtain ⟨rhsCol, hrhs, hrhsTab⟩ : ∃ rhsCol, turned.rhs = .col rhsCol ∧ rhsCol.tabName ≠ tab := by
    unfold turnCond at hturned
    split at hturned
    · rename_i htab
      cases hturned
      cases hrhs : cond.rhs with
      | val val raw =>
        rw [(within_val hrhs).mpr htab] at hwithin
        cases hwithin
      | col rhsCol =>
        refine ⟨rhsCol, rfl, fun hrhsTab => ?_⟩
        rw [(within_col hrhs).mpr ⟨htab, hrhsTab⟩] at hwithin
        cases hwithin
    · rename_i htab
      cases hrhs : cond.rhs with
      | val val raw =>
        rw [hrhs] at hturned
        cases hturned
      | col rhsCol =>
        rw [hrhs] at hturned
        dsimp only at hturned
        split at hturned
        · cases hturned
          exact ⟨cond.lhsCol, rfl, htab⟩
        · cases hturned
  unfold prepareCond at h
  rw [hrhs] at h
  obtain ⟨lhs, -, h⟩ := bind_eq_ok.mp (show evalCond (tabMeta.tableCols tab) rec_ turned = .ok b from h)
  rw [hrhs] at h
  dsimp only at h
  rw [getCol_tableCols_ne hrhsTab] at h
  cases h

private theorem feedCond_eq {turned : Condition} (h : turnCond tab cond = .ok turned) :
    feedCond tab cond = .ok (if cond.leftToJoin then none else some turned) := by
  unfold feedCond
  rw [h]
  change (match turned.rhs with | .val _ _ => _ | .col _ => _) = _
  unfold turnCond at h
  unfold Condition.leftToJoin
  cases hrhs : cond.rhs with
  | val val raw =>
    rw [hrhs] at h
    split at h
    · cases h
      rw [hrhs]
      rfl
    · cases h
  | col rhsCol =>
    rw [hrhs] at h
    dsimp only at h ⊢
    split at h
    · cases h
      rw [hrhs]
      simp only [decide_eq_true_eq]
      split <;> rfl
    · split at h
      · cases h
        have hswap : cond.op.swap = .eq ↔ cond.op = .eq := by cases cond.op <;> decide
        simp only [decide_eq_true_eq, hswap, ne_comm]
        split <;> rfl
      · cases h

/-- What the scan makes of its conditions, one by one. -/
private theorem allM_heldConds (f : Condition → Except DbError Bool) (h : heldConds tab tabMeta conds = .ok held) :
    held.allM f = (conds.filter (!·.leftToJoin)).allM fun cond =>
      turnCond tab cond >>= fun turned => prepareCond tab tabMeta.cols turned >>= f := by
  obtain ⟨fed, hfed, hprepared⟩ := bind_eq_ok.mp h
  have hturned : (conds.filter (!·.leftToJoin)).mapM (turnCond tab) = .ok fed.reduceOption := by
    clear h hprepared
    induction conds generalizing fed with
    | nil =>
      cases hfed
      rfl
    | cons cond conds ih =>
      rw [List.mapM_cons] at hfed
      obtain ⟨here, hhere, hfed⟩ := bind_eq_ok.mp hfed
      obtain ⟨rest, hrest, hfed⟩ := bind_eq_ok.mp hfed
      cases hfed
      have hlater := ih rest hrest
      obtain ⟨turned, hturned, -⟩ := bind_eq_ok.mp hhere
      rw [feedCond_eq hturned, Except.ok.injEq] at hhere
      subst hhere
      cases hleft : cond.leftToJoin with
      | true =>
        rw [List.filter_cons_of_neg (by simp [hleft]), hlater]
        rfl
      | false =>
        rw [List.filter_cons_of_pos (by simp [hleft]), List.mapM_cons, hturned, hlater]
        rfl
  rw [allM_of_mapM hprepared, allM_of_mapM hturned]

end IndexScanExecutor

private theorem filter_leftToJoin (h : ∀ cond ∈ conds, cond.within tab = true) :
    conds.filter (!·.leftToJoin) = conds := by
  rw [List.filter_eq_self]
  intro cond hcond
  have hwithin := h cond hcond
  unfold Condition.leftToJoin
  cases hrhs : cond.rhs with
  | val val raw => rfl
  | col rhsCol =>
    obtain ⟨htab, hrhsTab⟩ := (within_col hrhs).mp hwithin
    simp [htab, hrhsTab]

/-- The conditions of the table are evaluated as they are. -/
theorem IndexScanExecutor.allM_held_within (hheld : heldConds tab tabMeta conds = .ok held)
    (hwithin : ∀ cond ∈ conds, cond.within tab = true) :
    held.allM (evalCond (tabMeta.tableCols tab) rec_) =
      conds.allM fun cond => prepareCond tab tabMeta.cols cond >>= evalCond (tabMeta.tableCols tab) rec_ := by
  rw [allM_heldConds _ hheld, filter_leftToJoin hwithin]
  refine allM_congr fun cond hcond => ?_
  rw [turnCond_within (hwithin cond hcond)]
  rfl

/-- The verdicts of the two scans on a row agree if and only if the row fits. -/
private theorem rowFits_iff (htabMeta : tabs tab = some tabMeta)
    (hchecked : ∀ cond ∈ conds, ∃ lhs, Checked tabs cond lhs)
    (hheld : IndexScanExecutor.heldConds tab tabMeta conds = .ok held) (reached : Prop) :
    (∃ b, conds.allM (SeqScanExecutor.evalCond (tabMeta.tableCols tab) rec_) = .ok b ∧
      (reached → held.allM (IndexScanExecutor.evalCond (tabMeta.tableCols tab) rec_) = .ok b) ∧
      (¬reached → b = false)) ↔ RowFits tab tabMeta rec_ conds reached := by
  classical
  -- what the sequential scan decides on a condition of the table
  let passes : Condition → Bool := fun cond => decide ¬(cond.meets tabMeta rec_ = true ↔ cond.Misread tabMeta rec_)
  have hpasses : ∀ cond, passes cond = true ↔ ¬(cond.meets tabMeta rec_ = true ↔ cond.Misread tabMeta rec_) :=
    fun cond => decide_eq_true_iff
  have hseqWithin : ∀ cond ∈ conds, cond.within tab = true →
      SeqScanExecutor.evalCond (tabMeta.tableCols tab) rec_ cond = .ok (passes cond) := by
    intro cond hcond hwithin
    obtain ⟨lhs, hlhs⟩ := hchecked cond hcond
    obtain ⟨b, hb, hmisread⟩ := SeqScanExecutor.evalCond_within rec_ htabMeta hlhs hwithin
    have hiff : b = true ↔ passes cond = true := by
      rw [hpasses]
      generalize cond.meets tabMeta rec_ = met at hmisread ⊢
      cases b <;> cases met <;> simp_all
    rw [hb, Bool.eq_iff_iff.mpr hiff]
  have hindexWithin : ∀ cond ∈ conds.filter (!·.leftToJoin), cond.within tab = true →
      (IndexScanExecutor.turnCond tab cond >>= fun turned =>
        IndexScanExecutor.prepareCond tab tabMeta.cols turned >>=
          IndexScanExecutor.evalCond (tabMeta.tableCols tab) rec_) = .ok (cond.meets tabMeta rec_) := by
    intro cond hcond hwithin
    obtain ⟨lhs, hlhs⟩ := hchecked cond (List.mem_filter.mp hcond).1
    rw [IndexScanExecutor.turnCond_within hwithin]
    exact IndexScanExecutor.evalCond_within rec_ htabMeta hlhs hwithin
  rw [IndexScanExecutor.allM_heldConds _ hheld, Bool.exists_bool]
  simp only [allM_eq_ok_iff hseqWithin fun _ _ => seqEvalCond_ne_ok,
    allM_eq_ok_iff hindexWithin fun _ _ => IndexScanExecutor.evalCond_ne_ok, if_true, Bool.false_eq_true, if_false]
  have hnot : ∀ cond, passes cond = false ↔ (cond.meets tabMeta rec_ = true ↔ cond.Misread tabMeta rec_) := by
    intro cond
    rw [← Bool.not_eq_true, hpasses, not_not]
  simp only [hpasses, hnot]
  unfold RowFits
  by_cases hall : ∀ cond ∈ conds, cond.within tab = true
  · have hfront : conds.takeWhile (·.within tab) = conds := List.takeWhile_eq_self_iff.mpr hall
    have hnone : ¬∃ cond ∈ conds, cond.within tab = false := by simpa using hall
    have hunmet : (∀ cond ∈ conds, cond.meets tabMeta rec_ = true) ↔
        ¬∃ cond ∈ conds, cond.meets tabMeta rec_ = false := by simp
    have hindex : (∀ cond ∈ conds, cond.within tab = true ∧ cond.meets tabMeta rec_ = true) ↔
        ∀ cond ∈ conds, cond.meets tabMeta rec_ = true :=
      forall₂_congr fun cond hcond => and_iff_right (hall cond hcond)
    have hseq : (∀ cond ∈ conds, cond.within tab = true ∧
        ¬(cond.meets tabMeta rec_ = true ↔ cond.Misread tabMeta rec_)) ↔
        ¬∃ cond ∈ conds, cond.meets tabMeta rec_ = true ↔ cond.Misread tabMeta rec_ := by
      rw [not_exists]
      exact forall_congr' fun cond =>
        ⟨fun h hpair => (h hpair.1).2 hpair.2, fun h hcond => ⟨hall cond hcond, fun hiff => h ⟨hcond, hiff⟩⟩⟩
    -- in a row that meets all conditions it is a misread one that the sequential scan rejects
    have hread : (∀ cond ∈ conds, cond.meets tabMeta rec_ = true) →
        ((∃ cond ∈ conds, cond.meets tabMeta rec_ = true ↔ cond.Misread tabMeta rec_) ↔
          ¬∀ cond ∈ conds, ¬cond.Misread tabMeta rec_) := by
      intro hmet
      rw [not_forall]
      refine exists_congr fun cond => ?_
      rw [Classical.not_imp, not_not]
      exact and_congr_right fun hcond => iff_true_left (hmet cond hcond)
    rw [filter_leftToJoin hall, hfront, hseq, hindex, and_iff_left fun h => absurd h hnone, forall_prop_of_true hall]
    generalize (∃ cond ∈ conds, cond.meets tabMeta rec_ = true ↔ cond.Misread tabMeta rec_) = rejects at *
    rw [hunmet] at hread ⊢
    generalize (∃ cond ∈ conds, cond.meets tabMeta rec_ = false) = unmet at *
    generalize (∀ cond ∈ conds, ¬cond.Misread tabMeta rec_) = read at *
    by_cases hreached : reached <;> by_cases hunmet : unmet <;> simp [hreached, hunmet, hread]
  · have hother : ∃ cond ∈ conds, cond.within tab = false := by simpa using hall
    have hseq : ¬∀ cond ∈ conds, cond.within tab = true ∧
        ¬(cond.meets tabMeta rec_ = true ↔ cond.Misread tabMeta rec_) :=
      fun h => hall fun cond hcond => (h cond hcond).1
    rw [and_iff_right fun h => absurd h hall, forall_prop_of_true hother]
    simp [hseq]

end

namespace IndexScanExecutor

variable {tabs : String → Option TabMeta} {tab : String} {tabMeta : TabMeta} {tabNames : List String}
  {conds₀ clause conds held : List Condition} {cond : Condition}

/-- The conditions bound a range, its start is not behind the last entry, and every row fits. -/
def RangeFits (tab : String) (tabMeta : TabMeta) (index : IndexMeta) (ih : IxIndexHandle Bytes)
    (leaves : List (IxNodeHandle Bytes)) (view : TableView) (conds : List Condition) : Prop :=
  ∃ held lower upper, heldConds tab tabMeta conds = .ok held ∧
    SearchRange (literalOn tab held) index.cols lower upper ∧
    IxIndexHandle.StartsInside index.compare (leaves.flatMap (·.entries)) lower upper ∧
    ∀ rid ∈ view.rids, ∀ rec_, view.getRecord rid = some rec_ →
      RowFits tab tabMeta rec_ conds (ih.Reached index.compare leaves lower upper (index.key rec_, rid))

variable {index : IndexMeta} {ihs : String → Option (IxIndexHandle Bytes)} {ih : IxIndexHandle Bytes}
  {leaves : List (IxNodeHandle Bytes)} {view : TableView} {indexColNames : List String}

section
variable (htabMeta : tabs tab = some tabMeta) (hcheck : checkClause tabs tabNames conds₀ = .ok clause)
  (hconds : ∀ cond ∈ conds, cond ∈ clause)
  (hnan : ∀ cond ∈ conds, ∀ f raw, cond.rhs = .val (.float f) raw → floatIsNaN f = false)
  (hindex : matchIndex tabMeta indexColNames = .ok index) (hih : ihs (getIndexName tab index) = some ih)

include htabMeta hcheck hconds hnan in
private theorem searchKeys_held (hheld : heldConds tab tabMeta conds = .ok held) {lower upper : Option Bytes} :
    searchKeys (literalOn tab held) index.cols = .ok (lower, upper) ↔
      SearchRange (literalOn tab held) index.cols lower upper :=
  searchKeys_iff fun _ _ _ hfirst => (literalOn_checked htabMeta hcheck hconds hnan hheld hfirst).1

include hindex hih in
private theorem scan_steps : scan tab tabMeta ihs view conds indexColNames =
    heldConds tab tabMeta conds >>= fun held => searchKeys (literalOn tab held) index.cols >>= fun range =>
      (ih.scanBetween index.compare range.1 range.2).mapError IxError.toDbError >>= fun rids =>
        view.select (evalCond (tabMeta.tableCols tab)) held rids := by
  unfold scan
  rw [hindex]
  simp only [bind, Except.bind, hih]

variable (hof : index.OfTable tabMeta)
  (hchain : IxIndexHandle.LeafChain (NaNFree index.ixCols) index.compare ih leaves)
include htabMeta hcheck hconds hnan hindex hih hof hchain

/-- A range that starts inside is scanned from its first entry to its last one. -/
theorem scan_eq (view : TableView) (hheld : heldConds tab tabMeta conds = .ok held) {lower upper : Option Bytes}
    (hrange : SearchRange (literalOn tab held) index.cols lower upper)
    (hstart : IxIndexHandle.StartsInside index.compare (leaves.flatMap (·.entries)) lower upper) :
    ∃ scanned : List (Bytes × Rid), scan tab tabMeta ihs view conds indexColNames =
        view.select (evalCond (tabMeta.tableCols tab)) held (scanned.map (·.2)) ∧
      scanned.Sublist (leaves.flatMap (·.entries)) ∧
      ∀ e, e ∈ scanned ↔ ih.Reached index.compare leaves lower upper e := by
  obtain ⟨hlower, hupper, hle⟩ := hrange.ordered hof.number fun col hcol op raw hfirst =>
    (literalOn_checked htabMeta hcheck hconds hnan hheld hfirst).2 col (hof.column col hcol) (hof.number col hcol) raw rfl
  have hcmp : TransOn (NaNFree index.ixCols) index.compare := ixCompare_transOn index.ixCols
  obtain ⟨scanned, hscanned, hsub, hmem⟩ :=
    IxIndexHandle.LeafChain.scanBetween_eq hcmp hchain hlower hupper hle hstart
  refine ⟨scanned, ?_, hsub, hmem⟩
  rw [scan_steps hindex hih, hheld]
  change searchKeys _ _ >>= _ = _
  rw [(searchKeys_held htabMeta hcheck hconds hnan hheld).mpr hrange]
  change Except.mapError _ (ih.scanBetween index.compare lower upper) >>= _ = _
  rw [hscanned]
  rfl

/-- An index scan that returns has searched a range, and one that starts inside. -/
theorem range_of_scan {rids : List Rid} (h : scan tab tabMeta ihs view conds indexColNames = .ok rids) :
    ∃ held lower upper, heldConds tab tabMeta conds = .ok held ∧
      SearchRange (literalOn tab held) index.cols lower upper ∧
      IxIndexHandle.StartsInside index.compare (leaves.flatMap (·.entries)) lower upper := by
  rw [scan_steps hindex hih] at h
  obtain ⟨held, hheld, h⟩ := bind_eq_ok.mp h
  obtain ⟨⟨lower, upper⟩, hkeys, h⟩ := bind_eq_ok.mp h
  obtain ⟨scanned, hscanned, -⟩ := bind_eq_ok.mp h
  dsimp only at hscanned
  have hrange := (searchKeys_held htabMeta hcheck hconds hnan hheld).mp hkeys
  refine ⟨held, lower, upper, hheld, hrange, ?_⟩
  obtain ⟨hlower, hupper, hle⟩ := hrange.ordered hof.number fun col hcol op raw hfirst =>
    (literalOn_checked htabMeta hcheck hconds hnan hheld hfirst).2 col (hof.column col hcol) (hof.number col hcol) raw rfl
  have hcmp : TransOn (NaNFree index.ixCols) index.compare := ixCompare_transOn index.ixCols
  by_contra hout
  rw [IxIndexHandle.LeafChain.scanBetween_error hcmp hchain hlower hupper hle hout] at hscanned
  cases hscanned

end

/-- The two scans return the same rows exactly if the range fits. -/
theorem sameRows_iff (htabMeta : tabs tab = some tabMeta)
    (hcheck : checkClause tabs tabNames conds₀ = .ok clause) (hconds : ∀ cond ∈ conds, cond ∈ clause)
    (hnan : ∀ cond ∈ conds, ∀ f raw, cond.rhs = .val (.float f) raw → floatIsNaN f = false)
    (hindex : matchIndex tabMeta indexColNames = .ok index) (hih : ihs (getIndexName tab index) = some ih)
    (hof : index.OfTable tabMeta)
    (hchain : IxIndexHandle.LeafChain (NaNFree index.ixCols) index.compare ih leaves)
    (hentries : view.IndexedBy index (leaves.flatMap (·.entries))) :
    SameRows (scan tab tabMeta ihs view conds indexColNames) (SeqScanExecutor.scan tab tabMeta view conds) ↔
      RangeFits tab tabMeta index ih leaves view conds := by
  have hchecked : ∀ cond ∈ conds, ∃ lhs, Checked tabs cond lhs := fun cond hcond =>
    checkClause_checked hcheck (hconds cond hcond)
  -- the scanned slots hold rows of the table, and a row is scanned if its entry is reached
  have hscanned : ∀ {scanned : List (Bytes × Rid)} {lower upper},
      (∀ e, e ∈ scanned ↔ ih.Reached index.compare leaves lower upper e) →
      (∀ rid ∈ scanned.map (·.2), rid ∈ view.rids) ∧ ∀ rid rec_, view.getRecord rid = some rec_ →
        (rid ∈ scanned.map (·.2) ↔ ih.Reached index.compare leaves lower upper (index.key rec_, rid)) := by
    intro scanned lower upper hmem
    constructor
    · intro rid hrid
      obtain ⟨e, he, rfl⟩ := List.mem_map.mp hrid
      exact ((hentries e.1 e.2).mp ((hmem e).mp he).1).1
    · intro rid rec_ hrec
      constructor
      · intro hrid
        obtain ⟨e, he, rfl⟩ := List.mem_map.mp hrid
        obtain ⟨-, rec', hrec', hkey⟩ := (hentries e.1 e.2).mp ((hmem e).mp he).1
        rw [hrec] at hrec'
        cases hrec'
        rw [hkey]
        exact (hmem e).mp he
      · exact fun hreached => List.mem_map.mpr ⟨_, (hmem _).mpr hreached, rfl⟩
  constructor
  · rintro ⟨rids, rids', hindexScan, hseqScan, hsame⟩
    obtain ⟨held, lower, upper, hheld, hrange, hstart⟩ :=
      range_of_scan htabMeta hcheck hconds hnan hindex hih hof hchain hindexScan
    obtain ⟨scanned, hselect, -, hmem⟩ := scan_eq htabMeta hcheck hconds hnan hindex hih hof hchain view hheld hrange hstart
    rw [hindexScan] at hselect
    obtain ⟨-, hreached⟩ := hscanned hmem
    refine ⟨held, lower, upper, hheld, hrange, hstart, fun rid hrid rec_ hrec =>
      (rowFits_iff htabMeta hchecked hheld _).mp ?_⟩
    obtain ⟨b, hseq, hin⟩ := TableView.eval_of_select hseqScan hrid hrec
    refine ⟨b, hseq, fun hreach => ?_, fun hnot => ?_⟩
    · obtain ⟨b', heval, hin'⟩ := TableView.eval_of_select hselect.symm ((hreached rid rec_ hrec).mpr hreach) hrec
      have : b' = true ↔ b = true := hin'.symm.trans ((hsame rid).trans hin)
      rw [heval, Bool.eq_iff_iff.mpr this]
    · cases b with
      | false => rfl
      | true =>
        have hrid := ((TableView.mem_select hselect.symm).mp ((hsame rid).mpr (hin.mpr rfl))).1
        exact absurd ((hreached rid rec_ hrec).mp hrid) hnot
  · rintro ⟨held, lower, upper, hheld, hrange, hstart, hfits⟩
    have hrows := fun rid hrid rec_ hrec => (rowFits_iff htabMeta hchecked hheld _).mpr (hfits rid hrid rec_ hrec)
    obtain ⟨scanned, hselect, -, hmem⟩ := scan_eq htabMeta hcheck hconds hnan hindex hih hof hchain view hheld hrange hstart
    obtain ⟨hrow, hreached⟩ := hscanned hmem
    obtain ⟨out, hout⟩ : ∃ out, view.select (evalCond (tabMeta.tableCols tab)) held (scanned.map (·.2)) = .ok out :=
      TableView.select_ok fun rid hrid rec_ hrec => by
        obtain ⟨b, -, heval, -⟩ := hrows rid (hrow rid hrid) rec_ hrec
        exact ⟨b, heval ((hreached rid rec_ hrec).mp hrid)⟩
    obtain ⟨out', hout'⟩ : ∃ out', SeqScanExecutor.scan tab tabMeta view conds = .ok out' :=
      TableView.select_ok fun rid hrid rec_ hrec => by
        obtain ⟨b, hseq, -⟩ := hrows rid hrid rec_ hrec
        exact ⟨b, hseq⟩
    refine ⟨out, out', hselect.trans hout, hout', fun rid => ?_⟩
    rw [TableView.mem_select hout, TableView.mem_select hout']
    constructor
    · rintro ⟨hrid, rec_, hrec, heval⟩
      obtain ⟨b, hseq, hin, -⟩ := hrows rid (hrow rid hrid) rec_ hrec
      rw [hin ((hreached rid rec_ hrec).mp hrid)] at heval
      exact ⟨hrow rid hrid, rec_, hrec, hseq.trans heval⟩
    · rintro ⟨hrid, rec_, hrec, hseq⟩
      obtain ⟨b, hseq', hin, hout⟩ := hrows rid hrid rec_ hrec
      rw [hseq] at hseq'
      cases hseq'
      have hreach : ih.Reached index.compare leaves lower upper (index.key rec_, rid) := by
        by_contra hnot
        cases hout hnot
      exact ⟨(hreached rid rec_ hrec).mpr hreach, rec_, hrec, hin hreach⟩

/-! ### One row with the key 1 -/

def keyCol : ColMeta := ⟨"a", .int, 4, 0⟩

/-- One integer column with a unique index. -/
def keyTable : TabMeta := ⟨[keyCol], [⟨true, [keyCol]⟩], List.cons_ne_nil _ _⟩

def keyTabs : String → Option TabMeta := fun tab => if tab = "t" then some keyTable else none

def keyView : TableView := ⟨[⟨1, 0⟩], fun rid => if rid = ⟨1, 0⟩ then some (wordBytes 1) else none⟩

def keyIndex : IxIndexHandle Bytes :=
  IxIndexHandle.leafIndex 338 4 true 1 (fun _ => wordBytes 1) fun _ => ⟨1, 0⟩

def keyLeaf : IxNodeHandle Bytes := IxIndexHandle.rootLeaf 1 (fun _ => wordBytes 1) fun _ => ⟨1, 0⟩

/-- `a = i`, as the check leaves it. -/
def keyCond (i : BitVec 32) : Condition := ⟨⟨"t", "a"⟩, .eq, .val (.int i) (some (wordBytes i))⟩

private theorem keyIndex_chain :
    IxIndexHandle.LeafChain (NaNFree (⟨true, [keyCol]⟩ : IndexMeta).ixCols) (⟨true, [keyCol]⟩ : IndexMeta).compare
      keyIndex [keyLeaf] :=
  IxIndexHandle.leafChain_leafIndex (by omega) (fun _ _ => ⟨nofun, trivial⟩) fun i j _ _ => by omega

private theorem keyView_indexedBy : keyView.IndexedBy ⟨true, [keyCol]⟩ ([keyLeaf].flatMap (·.entries)) := by
  intro key rid
  have hentries : [keyLeaf].flatMap (·.entries) = [(wordBytes 1, ⟨1, 0⟩)] := rfl
  have hkey : IndexMeta.key ⟨true, [keyCol]⟩ (wordBytes 1) = wordBytes 1 := rfl
  rw [hentries, List.mem_singleton, Prod.mk.injEq]
  change _ ↔ rid ∈ [(⟨1, 0⟩ : Rid)] ∧ ∃ rec_, (if rid = ⟨1, 0⟩ then some (wordBytes 1) else none) = some rec_ ∧ _
  rw [List.mem_singleton]
  constructor
  · rintro ⟨rfl, rfl⟩
    exact ⟨rfl, _, rfl, hkey⟩
  · rintro ⟨rfl, rec_, hrec, rfl⟩
    cases hrec
    exact ⟨hkey, rfl⟩

private theorem keyTable_ofTable : IndexMeta.OfTable ⟨true, [keyCol]⟩ keyTable := by
  constructor
  · intro col hcol
    rw [List.mem_singleton.mp hcol]
    rfl
  · intro col hcol _
    rw [List.mem_singleton.mp hcol]
    rfl

/-- `a = 1`. -/
theorem sameRows_found :
    let ihs : String → Option (IxIndexHandle Bytes) := fun name => if name = "t_a.idx" then some keyIndex else none
    checkClause keyTabs ["t"] [⟨⟨"", "a"⟩, .eq, .val (.int 1) none⟩] = .ok [keyCond 1] ∧
      Planner.getIndexCols "t" keyTable [keyCond 1] = some ["a"] ∧
      (SameRows (scan "t" keyTable ihs keyView [keyCond 1] ["a"]) (SeqScanExecutor.scan "t" keyTable keyView [keyCond 1]) ↔
        RangeFits "t" keyTable ⟨true, [keyCol]⟩ keyIndex [keyLeaf] keyView [keyCond 1]) := by
  intro ihs
  have hcheck : checkClause keyTabs ["t"] [⟨⟨"", "a"⟩, .eq, .val (.int 1) none⟩] = .ok [keyCond 1] := by decide
  refine ⟨hcheck, by decide, sameRows_iff rfl hcheck (fun _ h => h) ?_ rfl rfl keyTable_ofTable
    keyIndex_chain keyView_indexedBy⟩
  intro cond hcond f raw hrhs
  rw [List.mem_singleton.mp hcond] at hrhs
  cases hrhs

/-- `a = 100` makes the index scan throw, where the sequential scan finds no row. -/
theorem not_sameRows : ¬∀ (tabs : String → Option TabMeta) (tab : String) (tabMeta : TabMeta)
    (tabNames : List String) (conds₀ conds : List Condition) (index : IndexMeta)
    (ihs : String → Option (IxIndexHandle Bytes)) (ih : IxIndexHandle Bytes) (leaves : List (IxNodeHandle Bytes))
    (view : TableView) (indexColNames : List String),
    tabs tab = some tabMeta → checkClause tabs tabNames conds₀ = .ok conds →
    Planner.getIndexCols tab tabMeta conds = some indexColNames →
    matchIndex tabMeta indexColNames = .ok index → ihs (getIndexName tab index) = some ih →
    index.OfTable tabMeta → IxIndexHandle.LeafChain (NaNFree index.ixCols) index.compare ih leaves →
    view.IndexedBy index (leaves.flatMap (·.entries)) →
    SameRows (scan tab tabMeta ihs view conds indexColNames) (SeqScanExecutor.scan tab tabMeta view conds) := by
  intro hclaim
  let ihs : String → Option (IxIndexHandle Bytes) := fun name => if name = "t_a.idx" then some keyIndex else none
  have hcheck : checkClause keyTabs ["t"] [⟨⟨"", "a"⟩, .eq, .val (.int 100) none⟩] = .ok [keyCond 100] := by decide
  obtain ⟨rids, rids', hscan, -⟩ := hclaim keyTabs "t" keyTable ["t"] _ [keyCond 100] ⟨true, [keyCol]⟩ ihs keyIndex
    [keyLeaf] keyView ["a"] rfl hcheck (by decide) rfl rfl keyTable_ofTable keyIndex_chain keyView_indexedBy
  have herror : scan "t" keyTable ihs keyView [keyCond 100] ["a"] = .error (.rmdb .indexEntryNotFound) := rfl
  rw [herror] at hscan
  cases hscan

end IndexScanExecutor
end Rmdb
