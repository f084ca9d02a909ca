import Mathlib.Data.List.ReduceOption
import Rmdb.Execution.SelectAnswer
import Rmdb.Lib.Program

/-! Rows of several tables side by side, and what a join makes of them. -/
namespace Rmdb

open Product Program

/-! ### Looking a column up -/

section
variable {tuple tuple' left right : Tuple} {target : TabCol} {cols : List TableCol}

theorem getCell_append : getCell (left ++ right) target = (getCell left target).or (getCell right target) :=
  List.find?_append

theorem getCell_header (target : TabCol) (h : tuple.map (·.1) = cols) :
    (getCell tuple target).map (·.1) = cols.find? (TableCol.is target) := by
  rw [← h, List.find?_map]
  rfl

theorem getCell_eq_none (h : ∀ cell ∈ tuple, cell.1.tabName ≠ target.tabName) : getCell tuple target = none := by
  unfold getCell
  rw [List.find?_eq_none]
  intro cell hcell
  simp [h cell hcell]

theorem find?_of_getCol {col : TableCol} (h : getCol cols target = .ok col) :
    cols.find? (TableCol.is target) = some col := by
  unfold getCol at h
  unfold TableCol.is
  split at h
  · rename_i hfind
    cases h
    exact hfind
  · cases h

theorem tabName_of_getCell {cell : TableCol × Bytes} (h : getCell tuple target = some cell) :
    cell ∈ tuple ∧ cell.1.tabName = target.tabName := by
  have hcell := List.find?_some h
  rw [decide_eq_true_eq] at hcell
  exact ⟨List.mem_of_find?_eq_some h, hcell.1⟩

theorem Condition.holdsOn_congr {cond : Condition}
    (h : ∀ col ∈ Planner.condCols cond, getCell tuple col = getCell tuple' col) :
    cond.holdsOn tuple = cond.holdsOn tuple' := by
  unfold holdsOn
  unfold Planner.condCols at h
  cases hrhs : cond.rhs with
  | val val raw =>
    rw [hrhs] at h
    rw [h cond.lhsCol List.mem_cons_self]
  | col rhsCol =>
    rw [hrhs] at h
    have hrhsCol := h rhsCol (List.mem_cons_of_mem _ List.mem_cons_self)
    rw [h cond.lhsCol List.mem_cons_self]
    dsimp only
    rw [hrhsCol]

theorem projectTuple_congr {cols : List TabCol} (h : ∀ col ∈ cols, getCell tuple col = getCell tuple' col) :
    projectTuple cols tuple = projectTuple cols tuple' := List.filterMap_congr h

/-- The columns of a projection. -/
theorem projectTuple_header {targets : List TabCol} (h : tuple.map (·.1) = cols) :
    (projectTuple targets tuple).map (·.1) = targets.filterMap fun target => cols.find? (TableCol.is target) := by
  unfold projectTuple
  rw [List.map_filterMap]
  exact List.filterMap_congr fun target _ => getCell_header target h

/-- A projection keeps the cells of its columns. -/
theorem getCell_projectTuple {targets : List TabCol} (h : target ∈ targets) :
    getCell (projectTuple targets tuple) target = getCell tuple target := by
  unfold projectTuple
  induction targets with
  | nil => cases h
  | cons first targets ih =>
    cases hfirst : getCell tuple first with
    | none =>
      rw [List.filterMap_cons_none hfirst]
      rcases List.mem_cons.mp h with rfl | h
      · rw [hfirst]
        refine List.find?_eq_none.mpr fun cell hcell => ?_
        obtain ⟨other, -, hother⟩ := List.mem_filterMap.mp hcell
        exact List.find?_eq_none.mp hfirst cell (tabName_of_getCell hother).1
      · exact ih h
    | some cell =>
      rw [List.filterMap_cons_some hfirst]
      have hcell := List.find?_some hfirst
      rw [decide_eq_true_eq] at hcell
      by_cases heq : first = target
      · subst heq
        rw [hfirst]
        exact List.find?_cons_of_pos (by rw [decide_eq_true_eq]; exact hcell)
      · have hne : ¬(cell.1.tabName = target.tabName ∧ cell.1.name = target.colName) := by
          rintro ⟨htab, hname⟩
          apply heq
          cases first
          cases target
          rw [TabCol.mk.injEq]
          exact ⟨hcell.1.symm.trans htab, hcell.2.symm.trans hname⟩
        unfold getCell
        rw [List.find?_cons_of_neg (by simpa using hne)]
        exact ih ((List.mem_cons.mp h).resolve_left (Ne.symm heq))

end

/-! ### Rows side by side -/

namespace Env

theorem tuple_eq {env : Env} {tab : String} {tabMeta : TabMeta} (h : env.tabs tab = some tabMeta) (rec_ : Bytes) :
    env.tuple (tab, rec_) = tabMeta.tuple tab rec_ := by
  unfold tuple
  dsimp only
  rw [h]

end Env

section
variable {cells cells' : Row → Tuple} {c : List Row} {row : Row} {target : TabCol}

theorem getCell_flatMap_congr (h : ∀ row ∈ c, getCell (cells row) target = getCell (cells' row) target) :
    getCell (c.flatMap cells) target = getCell (c.flatMap cells') target := by
  induction c with
  | nil => rfl
  | cons row c ih =>
    have htail := ih fun row hrow => h row (List.mem_cons_of_mem _ hrow)
    rw [List.flatMap_cons, List.flatMap_cons, getCell_append, getCell_append, h row List.mem_cons_self, htail]

theorem exists_row_of_getCell {cell : TableCol × Bytes} (h : getCell (c.flatMap cells) target = some cell) :
    ∃ row ∈ c, getCell (cells row) target = some cell := by
  induction c with
  | nil => cases h
  | cons row c ih =>
    rw [List.flatMap_cons, getCell_append, Option.or_eq_some_iff] at h
    rcases h with h | ⟨-, h⟩
    · exact ⟨row, List.mem_cons_self, h⟩
    · obtain ⟨row', hrow', h⟩ := ih h
      exact ⟨row', List.mem_cons_of_mem _ hrow', h⟩

/-- The cells that a row contributes are those of its table. -/
def OfTable (cells : Row → Tuple) : Prop := ∀ row, ∀ cell ∈ cells row, cell.1.tabName = row.1

theorem OfTable.getCell_eq_none (hcells : OfTable cells) (h : row.1 ≠ target.tabName) :
    getCell (cells row) target = none :=
  Rmdb.getCell_eq_none fun cell hcell => by
    rw [hcells row cell hcell]
    exact h

theorem OfTable.getCell_flatMap_eq_none (hcells : OfTable cells) (h : ∀ row ∈ c, row.1 ≠ target.tabName) :
    getCell (c.flatMap cells) target = none := by
  cases hcell : getCell (c.flatMap cells) target with
  | none => rfl
  | some cell =>
    obtain ⟨row, hrow, hcell⟩ := exists_row_of_getCell hcell
    rw [hcells.getCell_eq_none (h row hrow)] at hcell
    cases hcell

/-- A column is found in the row of its table. -/
theorem OfTable.getCell_flatMap (hcells : OfTable cells) (hnodup : (c.map (·.1)).Nodup) (hrow : row ∈ c)
    (htab : row.1 = target.tabName) : getCell (c.flatMap cells) target = getCell (cells row) target := by
  induction c with
  | nil => cases hrow
  | cons first c ih =>
    rw [List.map_cons, List.nodup_cons] at hnodup
    rw [List.flatMap_cons, getCell_append]
    rcases List.mem_cons.mp hrow with rfl | hrow
    · have hnone : getCell (c.flatMap cells) target = none := by
        refine hcells.getCell_flatMap_eq_none fun other hother heq => hnodup.1 ?_
        rw [htab, ← heq]
        exact List.mem_map_of_mem hother
      rw [hnone, Option.or_none]
    · have hne : first.1 ≠ target.tabName := by
        intro heq
        rw [← htab] at heq
        rw [heq] at hnodup
        exact hnodup.1 (List.mem_map_of_mem hrow)
      rw [hcells.getCell_eq_none hne, Option.none_or]
      exact ih hnodup.2 hrow

/-- Rows of different tables can change places. -/
theorem OfTable.getCell_swap (hcells : OfTable cells) (s q : List Row) {x y : Row} (hne : x.1 ≠ y.1) :
    getCell ((s ++ x :: y :: q).flatMap cells) target = getCell ((s ++ y :: x :: q).flatMap cells) target := by
  simp only [List.flatMap_append, List.flatMap_cons, getCell_append]
  by_cases hx : x.1 = target.tabName
  · rw [hcells.getCell_eq_none fun hy => hne (hx.trans hy.symm), Option.none_or, Option.none_or]
  · rw [hcells.getCell_eq_none hx, Option.none_or, Option.none_or]

theorem ofTable_tuple (env : Env) : OfTable env.tuple := by
  intro row cell hcell
  unfold Env.tuple at hcell
  split at hcell
  · obtain ⟨col, hcol, rfl⟩ := List.mem_map.mp hcell
    obtain ⟨colMeta, -, rfl⟩ := List.mem_map.mp hcol
    rfl
  · cases hcell

theorem OfTable.projectTuple (hcells : OfTable cells) (targets : String → List TabCol) :
    OfTable fun row => projectTuple (targets row.1) (cells row) := by
  intro row cell hcell
  obtain ⟨target, -, hcell⟩ := List.mem_filterMap.mp hcell
  exact hcells row cell (tabName_of_getCell hcell).1

end

/-! ### Executors -/

/-- An executor has these columns and returns these rows. -/
structure Delivers (env : Env) (plan : Plan) (header : List TableCol) (tuples : List Tuple) : Prop where
  cols : plan.cols env = .ok header
  run : plan.run env = .ok (tuples.map some)
  headed : ∀ tuple ∈ tuples, tuple.map (·.1) = header

/-- The cell has the bytes of its column. -/
def Sized (cell : TableCol × Bytes) : Prop := cell.2.length = cell.1.len ∧ (cell.1.type ≠ .string → cell.1.len = 4)

/-- The join finds the columns of a condition, and they are of one type. -/
def Condition.ComparesOn (cond : Condition) (tuple : Tuple) : Prop :=
  ∃ rhsCol lhs rhs, cond.rhs = .col rhsCol ∧ getCell tuple cond.lhsCol = some lhs ∧
    getCell tuple rhsCol = some rhs ∧ lhs.1.type = rhs.1.type ∧ Sized lhs ∧ Sized rhs

section
variable {tuple : Tuple} {target : TabCol} {cell : TableCol × Bytes}

/-- What stands behind a cell does not change its value. -/
theorem cellValue_append (h : Sized cell) (rest : Bytes) : cellValue (cell.1, cell.2 ++ rest) = cellValue cell := by
  obtain ⟨hlen, hnumber⟩ := h
  unfold cellValue
  cases htype : cell.1.type with
  | int =>
    dsimp only
    rw [readWord_append _ (by rw [hlen, hnumber (by rw [htype]; nofun)])]
  | float =>
    dsimp only
    rw [readWord_append _ (by rw [hlen, hnumber (by rw [htype]; nofun)])]
  | string =>
    dsimp only
    rw [← hlen, List.take_left, List.take_length]

theorem getCell_cons (cell : TableCol × Bytes) (rest : Tuple) :
    getCell (cell :: rest) target = if TableCol.is target cell.1 then some cell else getCell rest target := by
  split
  · rename_i hcell
    exact List.find?_cons_of_pos hcell
  · rename_i hcell
    exact List.find?_cons_of_neg (p := fun cell : TableCol × Bytes => TableCol.is target cell.1) hcell

theorem cellFrom_eq_none (h : getCell tuple target = none) : cellFrom target tuple = none := by
  induction tuple with
  | nil => rfl
  | cons first rest ih =>
    rw [getCell_cons] at h
    rw [cellFrom]
    split at h
    · cases h
    · rename_i hfirst
      rw [if_neg hfirst]
      exact ih h

theorem cellFrom_eq_some (h : getCell tuple target = some cell) :
    ∃ rest, cellFrom target tuple = some (cell.1, cell.2 ++ rest) := by
  induction tuple with
  | nil => cases h
  | cons first rest ih =>
    rw [getCell_cons] at h
    rw [cellFrom]
    split at h
    · rename_i hfirst
      cases h
      rw [if_pos hfirst]
      exact ⟨Tuple.bytes rest, rfl⟩
    · rename_i hfirst
      rw [if_neg hfirst]
      exact ih h

end

namespace NestedLoopJoinExecutor

variable {leftCols rightCols : List TableCol} {left right : Tuple} {target : TabCol} {cond : Condition}

theorem operand_eq (hleft : left.map (·.1) = leftCols) (hright : right.map (·.1) = rightCols) :
    operand leftCols rightCols (some left) (some right) target =
      .ok ((cellFrom target left).or (cellFrom target right)) := by
  have hl := getCell_header target hleft
  have hr := getCell_header target hright
  unfold operand
  rw [← List.isSome_find?, ← List.isSome_find?, ← hl, ← hr]
  cases hleft : getCell left target with
  | some cell =>
    obtain ⟨rest, hrest⟩ := cellFrom_eq_some hleft
    dsimp only
    rw [hrest]
    rfl
  | none =>
    rw [cellFrom_eq_none hleft, Option.none_or]
    cases hright : getCell right target with
    | some cell => rfl
    | none =>
      rw [cellFrom_eq_none hright]
      rfl

/-- The operand of a column begins with its cell. -/
theorem operand_of_getCell (hleft : left.map (·.1) = leftCols) (hright : right.map (·.1) = rightCols)
    {cell : TableCol × Bytes} (h : getCell (left ++ right) target = some cell) :
    ∃ rest, operand leftCols rightCols (some left) (some right) target = .ok (some (cell.1, cell.2 ++ rest)) := by
  rw [getCell_append] at h
  rw [operand_eq hleft hright]
  cases hl : getCell left target with
  | some found =>
    rw [hl, Option.some_or] at h
    cases h
    obtain ⟨rest, hrest⟩ := cellFrom_eq_some hl
    rw [hrest]
    exact ⟨rest, rfl⟩
  | none =>
    rw [hl, Option.none_or] at h
    obtain ⟨rest, hrest⟩ := cellFrom_eq_some h
    rw [cellFrom_eq_none hl, hrest]
    exact ⟨rest, rfl⟩

theorem satisfies_eq (hleft : left.map (·.1) = leftCols) (hright : right.map (·.1) = rightCols)
    (hcond : cond.ComparesOn (left ++ right)) :
    satisfies leftCols rightCols (some left) (some right) cond = .ok (cond.holdsOn (left ++ right)) := by
  obtain ⟨rhsCol, lhs, rhs, hrhs, hlhs, hcell, htype, hlsized, hrsized⟩ := hcond
  have hholds : cond.holdsOn (left ++ right) = Value.meets cond.op (cellValue lhs) (cellValue rhs) := by
    unfold Condition.holdsOn
    rw [hlhs, hrhs]
    dsimp only
    rw [hcell]
  obtain ⟨lrest, hl⟩ := operand_of_getCell hleft hright hlhs
  obtain ⟨rrest, hr⟩ := operand_of_getCell hleft hright hcell
  unfold satisfies
  rw [hholds, hrhs, hl]
  change (operand _ _ _ _ rhsCol >>= fun rhs => _) = _
  rw [hr]
  have hcompare : compareCells cond.op (lhs.1, lhs.2 ++ lrest) (rhs.1, rhs.2 ++ rrest) = _ := compareCells_eq cond.op htype
  rw [cellValue_append hlsized, cellValue_append hrsized] at hcompare
  exact congrArg Except.ok hcompare

/-- A pair whose conditions compare columns of one type, as far as the join comes to them. -/
theorem joinPair_eq {conds : List Condition} (hleft : left.map (·.1) = leftCols) (hright : right.map (·.1) = rightCols)
    (hconds : ∀ cond, ComesTo (·.holdsOn (left ++ right)) conds cond → cond.ComparesOn (left ++ right)) :
    joinPair leftCols rightCols (some left) (some right) conds =
      .ok (if conds.all (·.holdsOn (left ++ right)) then some (left ++ right) else none) := by
  unfold joinPair
  rw [allM_eq_all_of_comesTo fun cond hcond => satisfies_eq hleft hright (hconds cond hcond)]
  change (if _ then _ else _) = _
  split
  · rfl
  · rfl

end NestedLoopJoinExecutor

namespace Delivers

variable {env : Env} {left right sub : Plan} {cols header header' : List TableCol} {tuples tuples' : List Tuple}

private theorem mapM_getCol {targets : List TabCol}
    (hfound : ∀ target ∈ targets, (header.find? (TableCol.is target)).isSome) :
    targets.mapM (getCol header) = .ok (targets.filterMap fun target => header.find? (TableCol.is target)) := by
  induction targets with
  | nil => rfl
  | cons target targets ih =>
    obtain ⟨col, hcol⟩ := Option.isSome_iff_exists.mp (hfound target List.mem_cons_self)
    have hget : getCol header target = .ok col := by
      unfold TableCol.is at hcol
      unfold getCol
      rw [hcol]
      rfl
    have htail := ih fun target htarget => hfound target (List.mem_cons_of_mem _ htarget)
    rw [List.mapM_cons, hget, htail, List.filterMap_cons, hcol]
    rfl

/-- A projection looks its columns up. -/
theorem projection_cols {targets : List TabCol} (hcols : sub.cols env = .ok header) (hsome : targets ≠ [])
    (hfound : ∀ target ∈ targets, (header.find? (TableCol.is target)).isSome) :
    (Plan.projection sub targets).cols env =
      .ok (targets.filterMap fun target => header.find? (TableCol.is target)) := by
  have hheader : header ≠ [] := by
    obtain ⟨target, htarget⟩ := List.exists_mem_of_ne_nil targets hsome
    have := hfound target htarget
    rintro rfl
    cases this
  rw [Plan.cols, hcols]
  change (if header = [] then _ else targets.mapM (getCol header)) = _
  rw [if_neg hheader, mapM_getCol hfound]

theorem projection {targets : List TabCol} (h : Delivers env sub header tuples) (hsome : targets ≠ [])
    (hfound : ∀ target ∈ targets, (header.find? (TableCol.is target)).isSome) :
    Delivers env (.projection sub targets) (targets.filterMap fun target => header.find? (TableCol.is target))
      (tuples.map (projectTuple targets)) := by
  constructor
  · exact projection_cols h.cols hsome hfound
  · rw [Plan.run, h.run]
    change Except.ok _ = _
    rw [List.map_map, List.map_map]
    rfl
  · intro tuple htuple
    obtain ⟨subTuple, hsub, rfl⟩ := List.mem_map.mp htuple
    exact projectTuple_header (h.headed subTuple hsub)

/-- The right side of a join is run only beside rows of the left one. -/
theorem run_join {conds : List Condition} {test : Tuple → Tuple → Bool} (hleft : Delivers env left header tuples)
    (hcols : right.cols env = .ok header') (hright : tuples ≠ [] → Delivers env right header' tuples')
    (hpairs : ∀ t ∈ tuples, ∀ u ∈ tuples', NestedLoopJoinExecutor.joinPair header header' (some t) (some u) conds =
      .ok (if test t u then some (t ++ u) else none)) :
    (Plan.join left right conds).run env =
      .ok ((tuples.flatMap fun t => (tuples'.filter (test t)).map (t ++ ·)).map some) := by
  rw [Plan.run, hleft.run]
  change (if tuples.map some = [] then _ else _) = _
  by_cases hnil : tuples = []
  · rw [hnil]
    rfl
  · have hright := hright hnil
    rw [if_neg (mt List.map_eq_nil_iff.mp hnil), hright.run, hleft.cols, hcols]
    dsimp only [bind, Except.bind]
    have hfound : (tuples.map some).mapM (fun l => (tuples'.map some).mapM fun r =>
        NestedLoopJoinExecutor.joinPair header header' l r conds) =
        .ok (tuples.map fun t => tuples'.map fun u => if test t u then some (t ++ u) else none) := by
      rw [List.mapM_map]
      refine mapM_eq_map fun t ht => ?_
      rw [Function.comp_apply, List.mapM_map]
      exact mapM_eq_map fun u hu => hpairs t ht u hu
    have hkept : (tuples.map fun t => tuples'.map fun u => if test t u then some (t ++ u) else none).flatten.reduceOption =
        tuples.flatMap fun t => (tuples'.filter (test t)).map (t ++ ·) := by
      rw [List.reduceOption, ← List.flatMap_def, List.filterMap_flatMap]
      congr 1
      funext t
      rw [List.filterMap_map, ← List.filterMap_eq_filter, List.map_filterMap]
      congr 1
      funext u
      cases test t u <;> simp [Option.guard]
    rw [hfound]
    change Except.ok _ = _
    rw [hkept]

theorem join (conds : List Condition) (hleft : Delivers env left header tuples) (hcols : right.cols env = .ok header')
    (hright : tuples ≠ [] → Delivers env right header' tuples')
    (hconds : ∀ t ∈ tuples, ∀ u ∈ tuples', ∀ cond, ComesTo (·.holdsOn (t ++ u)) conds cond → cond.ComparesOn (t ++ u)) :
    Delivers env (.join left right conds) (header ++ header')
      ((tuples.flatMap fun t => tuples'.map (t ++ ·)).filter fun t => conds.all (·.holdsOn t)) := by
  constructor
  · rw [Plan.cols, hleft.cols, hcols]
    rfl
  · have hkept : (tuples.flatMap fun t => (tuples'.filter fun u => conds.all (·.holdsOn (t ++ u))).map (t ++ ·)) =
        (tuples.flatMap fun t => tuples'.map (t ++ ·)).filter fun t => conds.all (·.holdsOn t) := by
      rw [List.filter_flatMap]
      congr 1
      funext t
      rw [List.filter_map]
      rfl
    rw [← hkept]
    refine hleft.run_join hcols hright fun t ht u hu => ?_
    exact NestedLoopJoinExecutor.joinPair_eq (hleft.headed t ht) ((hright (List.ne_nil_of_mem ht)).headed u hu)
      (hconds t ht u hu)
  · intro tuple htuple
    obtain ⟨t, ht, htuple⟩ := List.mem_flatMap.mp (List.mem_filter.mp htuple).1
    obtain ⟨u, hu, rfl⟩ := List.mem_map.mp htuple
    rw [List.map_append, hleft.headed t ht, (hright (List.ne_nil_of_mem ht)).headed u hu]

/-- A null pointer on the left meets nobody if there is nothing on the right. -/
theorem join_null (conds : List Condition) (hleft : left.cols env = .ok header) (hnull : left.run env = .ok [none])
    (hright : Delivers env right header' []) : Delivers env (.join left right conds) (header ++ header') [] := by
  constructor
  · rw [Plan.cols, hleft, hright.cols]
    rfl
  · rw [Plan.run, hnull, hleft, hright.cols, hright.run]
    rfl
  · exact List.forall_mem_nil _

end Delivers
end Rmdb
