import Rmdb.Optimizer.KeptColumns

/-! A plan that is fed runs without an executor missing a column. -/
namespace Rmdb

open Planner Program

/-! ### Looking a column up -/

def TableCol.key (col : TableCol) : TabCol := ⟨col.tabName, col.name⟩

/-- The call does not end with a column that is not found. -/
abbrev Finds {α : Type} (Q : α → Prop) (x : Except DbError α) : Prop :=
  Ends (fun e => e ≠ .rmdb .columnNotFound) Q x

/-- The columns of a tuple. -/
def Tuple.keys (tuple : Tuple) : List TabCol := tuple.map fun cell => cell.1.key

section
variable {cols : List TableCol} {tuple : Tuple} {target : TabCol} {targets : List TabCol}

theorem finds_getCol (h : target ∈ cols.map TableCol.key) :
    Finds (fun col => col.key = target) (getCol cols target) := by
  obtain ⟨col, hcol, rfl⟩ := List.mem_map.mp h
  unfold getCol
  cases hfind : cols.find? fun c => c.tabName = col.key.tabName ∧ c.name = col.key.colName with
  | none =>
    have := List.find?_eq_none.mp hfind col hcol
    simp [TableCol.key] at this
  | some found =>
    have := List.find?_some hfind
    rw [decide_eq_true_eq] at this
    exact congrArg₂ TabCol.mk this.1 this.2

theorem exists_getCell (h : target ∈ tuple.keys) : ∃ cell, getCell tuple target = some cell ∧ cell.1.key = target := by
  obtain ⟨cell, hcell, rfl⟩ := List.mem_map.mp h
  unfold getCell
  cases hfind : tuple.find? fun c => c.1.tabName = cell.1.key.tabName ∧ c.1.name = cell.1.key.colName with
  | none =>
    have := List.find?_eq_none.mp hfind cell hcell
    simp [TableCol.key] at this
  | some found =>
    have := List.find?_some hfind
    rw [decide_eq_true_eq] at this
    exact ⟨found, rfl, congrArg₂ TabCol.mk this.1 this.2⟩

theorem keys_projectTuple (h : ∀ target ∈ targets, target ∈ tuple.keys) :
    (projectTuple targets tuple).keys = targets := by
  induction targets with
  | nil => rfl
  | cons target targets ih =>
    obtain ⟨cell, hcell, hkey⟩ := exists_getCell (h target List.mem_cons_self)
    have htail := ih fun target htarget => h target (List.mem_cons_of_mem _ htarget)
    unfold projectTuple at htail ⊢
    rw [List.filterMap_cons_some hcell]
    exact congrArg₂ List.cons hkey htail

theorem finds_mapM_getCol (h : ∀ target ∈ targets, target ∈ cols.map TableCol.key) :
    Finds (fun found => found.map TableCol.key = targets) (targets.mapM (getCol cols)) := by
  have hfound := Ends.mapM_map (g := id) fun target htarget => finds_getCol (h target htarget)
  rwa [List.map_id] at hfound

end

/-! ### The scans -/

section
variable {env : Env} {tab : String} {tabMeta : TabMeta} {conds : List Condition} {cond : Condition}
  {cols : List TableCol}

theorem finds_rawOf (raw : Option Bytes) : Finds (fun _ => True) (rawOf raw) := by
  cases raw with
  | none => exact nofun
  | some raw => exact True.intro

theorem finds_evalCondWith (compareString : Bytes → Bytes → ℕ → Ordering) (rec_ : Bytes)
    (h : ∀ col ∈ condCols cond, col ∈ cols.map TableCol.key) :
    Finds (fun _ => True) (evalCondWith compareString cols rec_ cond) := by
  unfold evalCondWith
  refine (finds_getCol (h _ (Query.lhsCol_mem_condCols cond))).bind fun lhs _ => ?_
  unfold condCols at h
  cases hrhs : cond.rhs with
  | val val raw =>
    dsimp only
    split
    · exact True.intro
    · exact (finds_rawOf raw).bind fun _ _ => True.intro
  | col rhsCol =>
    rw [hrhs] at h
    exact (finds_getCol (h rhsCol (List.mem_cons_of_mem _ List.mem_cons_self))).bind fun _ _ => True.intro

theorem finds_indexEvalCond (rec_ : Bytes) (h : ∀ col ∈ condCols cond, col ∈ cols.map TableCol.key) :
    Finds (fun _ => True) (IndexScanExecutor.evalCond cols rec_ cond) := by
  unfold IndexScanExecutor.evalCond
  refine (finds_getCol (h _ (Query.lhsCol_mem_condCols cond))).bind fun lhs _ => ?_
  have hrest : ∀ lhsValue rhsValue, Finds (fun _ => True)
      (if lhs.type = .float then
          (pure (cond.op.holdsFloat (readWord lhsValue) (readWord rhsValue)) : Except DbError Bool)
        else pure (cond.op.holds (ixCompareCol lhs.type lhs.len lhsValue rhsValue))) := by
    intro lhsValue rhsValue
    split <;> exact True.intro
  unfold condCols at h
  cases hrhs : cond.rhs with
  | val val raw => exact (finds_rawOf raw).bind fun rhsValue _ => hrest _ rhsValue
  | col rhsCol =>
    rw [hrhs] at h
    refine Ends.bind (Q := fun _ => True) ?_ fun rhsValue _ => hrest _ rhsValue
    exact (finds_getCol (h rhsCol (List.mem_cons_of_mem _ List.mem_cons_self))).map fun _ _ => True.intro

theorem finds_select (view : TableView) (evalCond : Bytes → Condition → Except DbError Bool)
    (h : ∀ cond ∈ conds, ∀ rec_, Finds (fun _ => True) (evalCond rec_ cond)) (rids : List Rid) :
    Finds (fun _ => True) (view.select evalCond conds rids) := by
  refine Ends.filterM fun rid _ => ?_
  cases view.getRecord rid with
  | none => exact True.intro
  | some rec_ => exact Ends.allM fun cond hcond => h cond hcond rec_

section
variable {P : TabCol → Prop}

private theorem finds_turnCond (h : ∀ col ∈ condCols cond, P col) :
    Finds (fun cond => ∀ col ∈ condCols cond, P col) (IndexScanExecutor.turnCond tab cond) := by
  unfold IndexScanExecutor.turnCond
  split
  · exact h
  · unfold condCols at h
    cases hrhs : cond.rhs with
    | val val raw => exact nofun
    | col rhsCol =>
      rw [hrhs] at h
      dsimp only
      split
      · intro col hcol
        obtain rfl | hcol := List.mem_cons.mp hcol
        · exact h _ (List.mem_cons_of_mem _ List.mem_cons_self)
        · rw [List.mem_singleton.mp hcol]
          exact h _ List.mem_cons_self
      · exact nofun

private theorem finds_feedCond (h : ∀ col ∈ condCols cond, P col) :
    Finds (fun fed => ∀ cond ∈ fed, ∀ col ∈ condCols cond, P col) (IndexScanExecutor.feedCond tab cond) := by
  unfold IndexScanExecutor.feedCond
  refine (finds_turnCond h).bind fun cond hcond => ?_
  have hsome : ∀ fed ∈ some cond, ∀ col ∈ condCols fed, P col := by
    rintro fed ⟨⟩
    exact hcond
  cases cond.rhs with
  | val val raw => exact hsome
  | col rhsCol =>
    dsimp only
    split
    · exact nofun
    · exact hsome

theorem Value.finds_rawBytes (val : Value) (len : ℕ) : Finds (fun _ => True) (val.rawBytes len) := by
  unfold rawBytes
  cases val <;> dsimp only <;> split <;> first | exact True.intro | exact nofun

private theorem finds_prepareCond (h : ∀ col ∈ condCols cond, P col) :
    Finds (fun cond => ∀ col ∈ condCols cond, P col) (IndexScanExecutor.prepareCond tab tabMeta.cols cond) := by
  unfold IndexScanExecutor.prepareCond
  cases hrhs : cond.rhs with
  | col rhsCol => exact h
  | val val raw =>
    dsimp only
    split
    · exact h
    · cases tabMeta.cols.find? (·.name = cond.lhsCol.colName) with
      | none => exact h
      | some col =>
        refine ((val.cast col.type).finds_rawBytes col.len).bind fun raw' _ => ?_
        unfold condCols at h
        rw [hrhs] at h
        exact h

/-- The conditions of an index scan have the columns that they came with. -/
theorem finds_heldConds (h : ∀ cond ∈ conds, ∀ col ∈ condCols cond, P col) :
    Finds (fun held => ∀ cond ∈ held, ∀ col ∈ condCols cond, P col)
      (IndexScanExecutor.heldConds tab tabMeta conds) := by
  unfold IndexScanExecutor.heldConds
  refine (Ends.mapM_all fun cond hcond => finds_feedCond (h cond hcond)).bind fun fed hfed => ?_
  refine Ends.mapM_all fun cond hcond => finds_prepareCond ?_
  obtain ⟨fedCond, hmem, hcond⟩ := List.mem_filterMap.mp hcond
  exact hfed fedCond hmem cond hcond

end

private theorem finds_keysFrom (index : List ColMeta) (first : String → Option (CompOp × Option Bytes))
    (keyCols : List ColMeta) (keys : ScanKeys) :
    Finds (fun _ => True) (IndexScanExecutor.keysFrom index first keyCols keys) := by
  induction keyCols generalizing keys with
  | nil => exact True.intro
  | cons col keyCols ih =>
    unfold IndexScanExecutor.keysFrom
    cases first col.name with
    | none => exact True.intro
    | some found =>
      obtain ⟨op, raw⟩ := found
      refine (finds_rawOf raw).bind fun raw _ => ?_
      cases op <;> first | exact True.intro | exact ih _

private theorem finds_side (boundCols : ℕ) (key : ℕ → Option Bytes) (n : ℕ) :
    Finds (fun _ => True) (ScanKeys.side boundCols key n) := by
  have hbytes : Finds (fun _ => True) (ScanKeys.bytes key n) := by
    induction n with
    | zero => exact True.intro
    | succ n ih =>
      refine ih.bind fun done _ => ?_
      cases key n with
      | none => exact nofun
      | some part => exact True.intro
  unfold ScanKeys.side
  split
  · exact True.intro
  · exact hbytes.map fun _ _ => True.intro

theorem finds_searchKeys (first : String → Option (CompOp × Option Bytes)) (keyCols : List ColMeta) :
    Finds (fun _ => True) (IndexScanExecutor.searchKeys first keyCols) :=
  (finds_keysFrom keyCols first keyCols ScanKeys.empty).bind fun keys _ =>
    (finds_side keys.lowerCol _ _).bind fun _ _ => (finds_side keys.upperCol _ _).bind fun _ _ => True.intro

theorem finds_mapError {α : Type} (x : Except IxError α) : Finds (fun _ => True) (x.mapError IxError.toDbError) := by
  cases x with
  | ok a => exact True.intro
  | error e => cases e <;> exact nofun

theorem finds_scanRids (names : Option (List String)) (h : ∀ cond ∈ conds, ∀ col ∈ condCols cond,
    col ∈ (tabMeta.tableCols tab).map TableCol.key) :
    Finds (fun _ => True) (Plan.scanRids env tab tabMeta names conds) := by
  cases names with
  | none => exact finds_select _ _ (fun cond hcond rec_ => finds_evalCondWith memcmp rec_ (h cond hcond)) _
  | some names =>
    unfold Plan.scanRids IndexScanExecutor.scan
    refine Ends.bind (Q := fun _ => True) ?_ fun index _ => ?_
    · unfold IndexScanExecutor.matchIndex
      split
      · exact True.intro
      · exact nofun
    refine (finds_heldConds h).bind fun held hheld => ?_
    cases env.ihs (getIndexName tab index) with
    | none => exact nofun
    | some ih =>
      refine (finds_searchKeys _ _).bind fun keys _ => (finds_mapError _).bind fun rids _ => ?_
      exact finds_select _ _ (fun cond hcond rec_ => finds_indexEvalCond rec_ (hheld cond hcond)) rids

end
/-! ### Scans, projections and joins -/

section
variable {env : Env} {tab : String} {tabMeta : TabMeta} {conds filterConds : List Condition} {plan : Plan}

theorem keys_tableCols (htab : env.tabs tab = some tabMeta) :
    (tabMeta.tableCols tab).map TableCol.key = env.tableOutputs tab := by
  unfold Env.tableOutputs TabMeta.tableCols
  rw [htab, List.map_map]
  rfl

theorem keys_tuple (htab : env.tabs tab = some tabMeta) (rec_ : Bytes) :
    (tabMeta.tuple tab rec_).keys = env.tableOutputs tab := by
  unfold Tuple.keys TabMeta.tuple
  rw [List.map_map, ← keys_tableCols htab]
  rfl

theorem finds_getTable (tab : String) :
    Finds (fun tabMeta => env.tabs tab = some tabMeta) (Analyze.getTable env.tabs tab) := by
  unfold Analyze.getTable
  cases env.tabs tab with
  | none => exact nofun
  | some tabMeta => exact rfl

theorem finds_scanRows (names : Option (List String))
    (h : ∀ cond ∈ conds ++ filterConds, ∀ col ∈ condCols cond, col ∈ env.tableOutputs tab) :
    Finds (fun _ => True) (Plan.scanRows env tab names conds filterConds) := by
  unfold Plan.scanRows
  refine (finds_getTable tab).bind fun tabMeta htab => ?_
  rw [← keys_tableCols htab] at h
  refine (finds_scanRids names fun cond hcond => h cond (List.mem_append_left _ hcond)).bind fun rids _ => ?_
  dsimp only
  split
  · exact True.intro
  · unfold FilterExecutor.rows
    refine (Ends.filterM fun rec_ _ => Ends.allM fun cond hcond => ?_).bind fun _ _ => True.intro
    exact finds_evalCondWith trimmedCompare rec_ (h cond (List.mem_append_right _ hcond))

theorem Plan.finds_cols (h : plan.Feeds env) :
    Finds (fun cols => cols.map TableCol.key = plan.outputs env) (plan.cols env) := by
  induction plan with
  | scan tab names conds filterConds => exact (finds_getTable tab).bind fun tabMeta htab => keys_tableCols htab
  | projection sub targets ih =>
    unfold cols
    refine (ih h.1).bind fun subCols hsub => ?_
    split
    · intro hcrash
      cases hcrash
    · refine finds_mapM_getCol fun target htarget => ?_
      rw [hsub]
      exact h.2 target htarget
  | join left right conds ihl ihr =>
    unfold cols
    refine (ihl h.1.1).bind fun leftCols hleft => (ihr h.1.2).bind fun rightCols hright => ?_
    change (leftCols ++ rightCols).map TableCol.key = _
    rw [List.map_append, hleft, hright]
    rfl

/-- Every row has the given columns. -/
def Keyed (keys : List TabCol) (rows : List (Option Tuple)) : Prop := ∀ row ∈ rows, ∀ tuple ∈ row, tuple.keys = keys

theorem finds_joinPair (leftCols rightCols : List TableCol) (conds : List Condition) {left right : Option Tuple}
    {leftKeys rightKeys : List TabCol}
    (hleft : ∀ tuple ∈ left, tuple.keys = leftKeys) (hright : ∀ tuple ∈ right, tuple.keys = rightKeys) :
    Finds (fun row => ∀ tuple ∈ row, tuple.keys = leftKeys ++ rightKeys)
      (NestedLoopJoinExecutor.joinPair leftCols rightCols left right conds) := by
  have hoperand :
      ∀ target, Finds (fun _ => True) (NestedLoopJoinExecutor.operand leftCols rightCols left right target) := by
    intro target
    unfold NestedLoopJoinExecutor.operand
    split
    · cases left with
      | none =>
        intro hcrash
        cases hcrash
      | some tuple => exact True.intro
    · split
      · cases right with
        | none =>
          intro hcrash
          cases hcrash
        | some tuple => exact True.intro
      · exact True.intro
  unfold NestedLoopJoinExecutor.joinPair
  refine Ends.bind (Q := fun _ => True) (Ends.allM fun cond _ => ?_) fun holds _ => ?_
  · unfold NestedLoopJoinExecutor.satisfies
    refine (hoperand cond.lhsCol).bind fun lhs _ => ?_
    cases cond.rhs with
    | val val raw => cases lhs <;> exact True.intro
    | col rhsCol =>
      refine (hoperand rhsCol).bind fun rhs _ => ?_
      cases lhs <;> cases rhs <;> exact True.intro
  · cases holds with
    | false =>
      intro tuple htuple
      cases htuple
    | true =>
      cases left with
      | none =>
        intro hcrash
        cases hcrash
      | some l =>
        cases right with
        | none =>
          intro hcrash
          cases hcrash
        | some r =>
          rintro tuple ⟨⟩
          rw [Tuple.keys, List.map_append]
          exact congrArg₂ (· ++ ·) (hleft l rfl) (hright r rfl)

/-- The rows of a plan that is fed have the columns that it passes on. -/
theorem Plan.finds_run (h : plan.Feeds env) : Finds (Keyed (plan.outputs env)) (plan.run env) := by
  induction plan with
  | scan tab names conds filterConds =>
    unfold run
    refine (finds_getTable tab).bind fun tabMeta htab => (finds_scanRows names h).bind fun rows _ => ?_
    intro row hrow tuple htuple
    obtain ⟨rec_, -, rfl⟩ := List.mem_map.mp hrow
    obtain ⟨bytes, -, rfl⟩ := Option.map_eq_some_iff.mp htuple
    exact keys_tuple htab bytes
  | projection sub targets ih =>
    unfold run
    refine (ih h.1).bind fun rows hrows => ?_
    intro row hrow tuple htuple
    obtain ⟨subRow, hsubRow, rfl⟩ := List.mem_map.mp hrow
    obtain ⟨subTuple, hsubTuple, rfl⟩ := Option.map_eq_some_iff.mp htuple
    refine keys_projectTuple fun target htarget => ?_
    rw [hrows subRow hsubRow subTuple hsubTuple]
    exact h.2 target htarget
  | join left right conds ihl ihr =>
    unfold run
    refine (ihl h.1.1).bind fun lefts hlefts => ?_
    split
    · intro row hrow
      cases hrow
    · refine (ihr h.1.2).bind fun rights hrights => (Plan.finds_cols h.1.1).bind fun leftCols _ =>
        (Plan.finds_cols h.1.2).bind fun rightCols _ => ?_
      have hpairs := Ends.mapM_all (l := lefts) fun l hl => Ends.mapM_all (l := rights) fun r hr =>
        finds_joinPair leftCols rightCols conds (hlefts l hl) (hrights r hr)
      refine hpairs.bind fun found hfound => ?_
      intro row hrow tuple htuple
      obtain ⟨joined, hjoined, rfl⟩ := List.mem_map.mp hrow
      obtain rfl := Option.some.inj htuple
      obtain ⟨cells, hcells, hmem⟩ := List.mem_flatten.mp (List.reduceOption_mem_iff.mp hjoined)
      exact hfound cells hcells (some joined) hmem joined rfl

end
/-! ### Aggregation -/

namespace AggregationExecutor

section
variable {stl : Stl} {clause : AggClause} {prevCols groupCols : List TableCol} {tuple : Tuple} {keys : List TabCol}

theorem keys_layOut (offset : ℕ) (cols : List TableCol) :
    (layOut offset cols).map TableCol.key = cols.map TableCol.key := by
  induction cols generalizing offset with
  | nil => rfl
  | cons col cols ih =>
    rw [layOut, List.map_cons, List.map_cons, ih]
    rfl

theorem finds_groupCol {col : TabCol} (h : col ∈ prevCols.map TableCol.key) :
    Finds (fun made => made.key = col) (groupCol prevCols col) := by
  unfold groupCol
  exact (finds_getCol h).bind fun _ _ => rfl

theorem finds_aggCol {f : AggFunc} {size : ℕ} (h : f.col ≠ noCol → f.col ∈ prevCols.map TableCol.key) :
    Finds (fun made => made.key = ⟨"", f.caption size⟩) (aggCol prevCols f size) := by
  unfold aggCol
  have hmade : ∀ type len, Finds (fun made : TableCol => made.key = ⟨"", f.caption size⟩)
      (pure ⟨⟨f.caption size, type, len, 0⟩, ""⟩) := fun _ _ => rfl
  have hcol : ¬f.col = noCol → Finds (fun made : TableCol => made.key = ⟨"", f.caption size⟩) (do
      let col ← getCol prevCols f.col
      pure ⟨⟨f.caption size, col.type, col.len, 0⟩, ""⟩) :=
    fun hne => (finds_getCol (h hne)).bind fun col _ => hmade _ _
  cases f.funcType <;> dsimp only <;> first | exact hmade _ _ | skip
  all_goals
    split
    · exact hmade _ _
    · exact hcol ‹_›

/-- The constructor finds its columns, and makes those of its results. -/
theorem finds_cols (h : clause.AsksFor (· ∈ prevCols.map TableCol.key)) :
    Finds (fun made => (made.1 ++ made.2).map TableCol.key = clause.outputs) (cols clause prevCols) := by
  unfold cols
  refine Ends.bind (Q := fun groupCols => groupCols.map TableCol.key = clause.groupByCols) ?_ fun groupCols hgroup => ?_
  · have hfound := Ends.mapM_map (f := groupCol prevCols) (g := id) fun col hcol => finds_groupCol (h.groupBy col hcol)
    rwa [List.map_id] at hfound
  have hlen : groupCols.length = clause.groupByCols.length := by rw [← hgroup, List.length_map]
  refine Ends.bind (Q := fun aggCols => aggCols.map TableCol.key =
    clause.aggFuncs.zipIdx.map fun entry => ⟨"", entry.1.caption (clause.groupByCols.length + entry.2)⟩) ?_ fun aggCols hagg => ?_
  · rw [← hlen]
    refine Ends.mapM_map fun entry hentry => finds_aggCol ?_
    exact h.aggFuncs entry.1 (List.fst_mem_of_mem_zipIdx hentry)
  · change (List.take _ _ ++ List.drop _ _).map TableCol.key = _
    rw [List.take_append_drop, keys_layOut, List.map_append, hgroup, hagg]
    rfl

theorem finds_getColumnValue {col : TabCol} (h : col.colName ≠ "" → col ∈ tuple.keys) :
    Finds (fun _ => True) (getColumnValue tuple col) := by
  unfold getColumnValue
  by_cases hname : col.colName = ""
  · rw [if_pos hname]
    exact True.intro
  · obtain ⟨cell, hcell, -⟩ := exists_getCell (h hname)
    rw [if_neg hname, hcell]
    dsimp only
    cases cell.1.type <;> exact True.intro

theorem finds_initValue {f : AggFunc} (h : f.col ≠ noCol → f.col ∈ prevCols.map TableCol.key) :
    Finds (fun _ => True) (f.initValue prevCols) := by
  unfold AggFunc.initValue
  cases f.funcType <;> first | exact True.intro | dsimp only
  all_goals
    split
    · exact True.intro
    · refine (finds_getCol (h ‹_›)).bind fun col _ => ?_
      cases col.type <;> exact True.intro

theorem finds_updateAggState (h : clause.AsksFor (· ∈ prevCols.map TableCol.key))
    (htuple : tuple.keys = prevCols.map TableCol.key)
    (state : AggState) : Finds (fun _ => True) (updateAggState clause prevCols state tuple) := by
  unfold updateAggState
  refine Ends.bind (Q := fun _ => True) ?_ fun inits _ => ?_
  · refine (Ends.mapM_all (S := fun _ => True) fun f hf => ?_).mono fun _ _ => True.intro
    exact (finds_initValue (h.aggFuncs f (List.mem_of_mem_drop hf))).bind fun _ _ => True.intro
  · refine Ends.bind (Q := fun _ => True) ?_ fun _ _ => True.intro
    refine (Ends.mapM_all (S := fun _ => True) fun entry hentry => ?_).mono fun _ _ => True.intro
    dsimp only
    split
    · exact True.intro
    · refine (finds_getColumnValue fun hname => ?_).bind fun _ _ => True.intro
      rw [htuple]
      refine h.aggFuncs entry.1 (List.of_mem_zip hentry).1 fun hno => ?_
      rw [hno] at hname
      exact hname rfl

theorem finds_updateGroup (h : clause.AsksFor (· ∈ prevCols.map TableCol.key))
    (htuple : tuple.keys = prevCols.map TableCol.key) (groups : List (Bytes × AggState)) (key : Bytes) :
    Finds (fun _ => True) (updateGroup clause prevCols groups key tuple) := by
  induction groups with
  | nil => exact (finds_updateAggState h htuple _).bind fun _ _ => True.intro
  | cons group groups ih =>
    unfold updateGroup
    split
    · exact (finds_updateAggState h htuple _).bind fun _ _ => True.intro
    · exact ih.bind fun _ _ => True.intro

theorem finds_getGroupKey (h : clause.AsksFor (· ∈ prevCols.map TableCol.key))
    (htuple : tuple.keys = prevCols.map TableCol.key) :
    Finds (fun _ => True) (getGroupKey stl clause tuple) := by
  unfold getGroupKey
  split
  · exact True.intro
  · refine Ends.bind (Q := fun _ => True) ?_ fun _ _ => True.intro
    refine (Ends.mapM_all (S := fun _ => True) fun col hcol => ?_).mono fun _ _ => True.intro
    refine (finds_getColumnValue fun _ => ?_).bind fun _ _ => True.intro
    rw [htuple]
    exact h.groupBy col hcol

theorem finds_groupStates (h : clause.AsksFor (· ∈ prevCols.map TableCol.key)) {records : List Tuple}
    (hrecords : ∀ tuple ∈ records, tuple.keys = prevCols.map TableCol.key) :
    Finds (fun _ => True) (groupStates stl clause prevCols records) := by
  unfold groupStates
  refine (Ends.foldlM (I := fun _ => True) (fun groups _ tuple htuple => ?_) True.intro).bind fun _ _ => True.intro
  have hkeys := hrecords tuple htuple
  exact (finds_getGroupKey h hkeys).bind fun key _ => finds_updateGroup h hkeys groups key

theorem finds_parseKey (cols : List TableCol) (key : Bytes) : Finds (fun _ => True) (parseKey stl cols key) := by
  unfold parseKey
  refine (Ends.mapM_all (S := fun _ => True) fun entry _ => ?_).mono fun _ _ => True.intro
  obtain ⟨col, token⟩ := entry
  dsimp only
  cases col.type with
  | int => cases stoi token <;> first | exact True.intro | exact nofun
  | float => cases stl.stof token <;> first | exact True.intro | exact nofun
  | string => exact True.intro

theorem finds_computeResult (group : Bytes × AggState) :
    Finds (fun _ => True) (computeResult stl clause groupCols group) := by
  unfold computeResult
  split
  · exact True.intro
  · exact (finds_parseKey groupCols group.1).bind fun _ _ => True.intro

theorem finds_rows (h : clause.AsksFor (· ∈ prevCols.map TableCol.key)) {prevRows : List (Option Tuple)}
    (hrows : Keyed (prevCols.map TableCol.key) prevRows) :
    Finds (fun _ => True) (rows stl clause prevCols prevRows) := by
  unfold rows
  refine (finds_cols h).bind fun made _ => ?_
  dsimp only
  refine Ends.bind (Q := fun _ => True) ?_ fun results _ => ?_
  · unfold computeFinalResults results
    refine Ends.bind (Q := fun _ => True) ?_ fun _ _ => True.intro
    refine (finds_groupStates h fun tuple htuple => ?_).bind fun groups _ => ?_
    · have hrow := List.reduceOption_mem_iff.mp htuple
      exact hrows (some tuple) ((List.takeWhile_sublist _).subset hrow) tuple rfl
    · exact (Ends.mapM_all (S := fun _ => True) fun group _ => finds_computeResult group).bind fun _ _ => True.intro
  · refine (Ends.mapM_all (S := fun _ => True) fun result _ => ?_).bind fun _ _ => True.intro
    unfold record
    split
    · exact nofun
    · exact True.intro

end
end AggregationExecutor

/-! ### The whole SELECT -/

namespace SelectQuery

section
variable {stl : Stl} {env : Env} {query : SelectQuery} {plan : Plan}

theorem finds_prevCols (hfeeds : plan.Feeds env) (hasks : query.AsksFor (· ∈ plan.outputs env)) :
    Finds (fun cols => ∀ col ∈ query.selCols, col ∈ cols.map TableCol.key) ((query.prev plan).cols env) := by
  have hsub := Plan.finds_cols hfeeds
  unfold AsksFor at hasks
  unfold prev selCols
  cases hgrouped : query.grouped with
  | true =>
    rw [hgrouped, if_pos rfl] at hasks
    rw [if_pos rfl, if_pos rfl]
    refine hsub.bind fun prevCols hprev => ?_
    rw [← hprev] at hasks
    refine (AggregationExecutor.finds_cols hasks).bind fun made hmade => ?_
    intro col hcol
    rw [hmade]
    exact hcol
  | false =>
    rw [hgrouped, if_neg Bool.false_ne_true] at hasks
    rw [if_neg Bool.false_ne_true, if_neg Bool.false_ne_true]
    have hselect : Finds (fun cols => ∀ col ∈ query.cols, col ∈ cols.map TableCol.key) (plan.cols env) := by
      refine hsub.mono fun cols hcols => ?_
      rw [hcols]
      exact hasks.2
    cases hsorts : query.sorts with
    | false => exact hselect
    | true =>
      rw [if_pos rfl]
      have hkeys : ∀ target ∈ (query.orderByCols.filter (!·.isAgg)).map (·.col), target ∈ plan.outputs env := by
        intro target htarget
        obtain ⟨o, ho, rfl⟩ := List.mem_map.mp htarget
        obtain ⟨ho, hcol⟩ := List.mem_filter.mp ho
        rw [Bool.not_eq_true'] at hcol
        exact hasks.1 hsorts o ho hcol
      refine hsub.bind fun prevCols hprev => ?_
      dsimp only
      split
      · exact nofun
      · rw [← hprev] at hkeys hasks
        exact (finds_mapM_getCol hkeys).bind fun _ _ => hasks.2

theorem finds_prevRows (hfeeds : plan.Feeds env) (hasks : query.AsksFor (· ∈ plan.outputs env)) :
    Finds (fun _ => True) ((query.prev plan).rows stl env) := by
  have hsub : Finds (fun _ => True) ((Executor.sub plan).rows stl env) :=
    (Plan.finds_run hfeeds).mono fun _ _ => True.intro
  unfold AsksFor at hasks
  unfold prev
  cases hgrouped : query.grouped with
  | true =>
    rw [hgrouped, if_pos rfl] at hasks
    rw [if_pos rfl]
    refine (Plan.finds_cols hfeeds).bind fun prevCols hprev => (Plan.finds_run hfeeds).bind fun prevRows hrows => ?_
    rw [← hprev] at hasks hrows
    exact AggregationExecutor.finds_rows hasks hrows
  | false =>
    rw [if_neg Bool.false_ne_true]
    split
    · exact hsub.bind fun _ _ => True.intro
    · exact hsub

/-- The executors of a plan that is fed do not miss a column. -/
theorem finds_selectFrom (stl : Stl) (hfeeds : plan.Feeds env) (hasks : query.AsksFor (· ∈ plan.outputs env)) :
    Finds (fun _ => True) ((Executor.projection (query.prev plan) query.selCols (-1)).selectFrom stl env) := by
  rw [selectFrom_projection]
  refine Ends.bind (Q := fun _ => True) ?_ fun _ _ => (finds_prevRows hfeeds hasks).bind fun _ _ => True.intro
  refine (finds_prevCols hfeeds hasks).bind fun prevCols hprev => ?_
  dsimp only
  split
  · exact nofun
  · exact (finds_mapM_getCol hprev).mono fun _ _ => True.intro

theorem run_ne_columnNotFound (stl : Stl) (hacc : query.Accepted env) (hkeeps : query.KeepsColumns env) :
    query.run stl env ≠ .error (.rmdb .columnNotFound) := by
  obtain ⟨plan, hplan, hkept, hfeeds⟩ := physicalOptimization_outputs hacc
  have hasks := hkeeps.above
  rw [← hkept] at hasks
  have hfinds := finds_selectFrom stl (hfeeds.mpr hkeeps.below) hasks
  rw [run_eq, hplan]
  intro herror
  change (Executor.projection (query.prev plan) query.selCols (-1)).selectFrom stl env = _ at herror
  rw [herror] at hfinds
  exact hfinds rfl

end

/-- Every node of the plan passes on what the nodes above it ask for, each scan is given conditions on its own
table, and no executor misses a column. -/
def ColumnsReach (env : Env) (query : SelectQuery) : Prop :=
  ∃ plan, Planner.generateWholePlan env.tabs env.rowCount query = .ok plan ∧ plan.Feeds env ∧
    ∀ stl, query.run stl env ≠ .error (.rmdb .columnNotFound)

theorem columnsReach_iff (env : Env) (query : SelectQuery) (hacc : query.Accepted env) :
    query.ColumnsReach env ↔ query.KeepsColumns env := by
  obtain ⟨plan, hplan, hfeeds⟩ := generateWholePlan_feeds hacc
  constructor
  · rintro ⟨plan', hplan', hfed, -⟩
    rw [hplan, Except.ok.injEq] at hplan'
    rw [← hplan'] at hfed
    exact hfeeds.mp hfed
  · intro hkeeps
    exact ⟨plan, hplan, hfeeds.mpr hkeeps, fun stl => run_ne_columnNotFound stl hacc hkeeps⟩

/-! ### Sorting by a column that is not selected -/

/-- The table `a` with the columns `x` and `z`, and `b` with `y`, with a row each. -/
def wideEnv : Env :=
  ⟨fun tab => if tab = "a" then some ⟨[⟨"x", .int, 4, 0⟩, ⟨"z", .int, 4, 4⟩], [], List.cons_ne_nil _ _⟩
    else Query.pairTabs tab,
    fun _ => none, fun _ => ⟨[⟨1, 0⟩], fun _ => some (wordBytes 1 ++ wordBytes 1)⟩, fun _ => 1⟩

/-- `SELECT a.x FROM a JOIN b ON a.x = b.y`, in the order of a column of `a`. -/
def orderedQuery (colName : String) : SelectQuery :=
  ⟨Query.pairQuery [], false, [], false, [], [], true, [⟨⟨"a", colName⟩, false, ⟨.count, noCol, ""⟩⟩], [false], -1⟩

private theorem orderedQuery_accepted (colName : String) : (orderedQuery colName).Accepted wideEnv := by
  refine ⟨List.cons_ne_nil _ _, fun tab htab => ?_, [], rfl⟩
  rcases List.mem_cons.mp htab with rfl | htab
  · exact ⟨_, rfl⟩
  · rw [List.mem_singleton.mp htab]
    exact ⟨_, rfl⟩

private theorem wideEnv_hasCol {col : TabCol} (h : col = ⟨"a", "x"⟩ ∨ col = ⟨"b", "y"⟩) : wideEnv.HasCol col := by
  rcases h with rfl | rfl
  · exact ⟨_, rfl, _, List.mem_cons_self, rfl⟩
  · exact ⟨_, rfl, _, List.mem_cons_self, rfl⟩

private theorem orderedQuery_keepsColumns : (orderedQuery "x").KeepsColumns wideEnv := by
  have hkept : (orderedQuery "x").Kept wideEnv ⟨"a", "x"⟩ := by
    refine ⟨List.mem_cons_self, ?_⟩
    rw [if_neg (by decide), Query.ScanKeeps, if_neg (by decide)]
    decide
  constructor
  · refine ⟨fun cond hcond => absurd hcond List.not_mem_nil, fun _ tab htab col hcol => wideEnv_hasCol ?_,
      fun _ _ cond hcond _ col hcol => wideEnv_hasCol ?_⟩
    · rcases List.mem_cons.mp htab with rfl | htab
      · exact .inl (List.mem_singleton.mp hcol)
      · rw [List.mem_singleton.mp htab] at hcol
        exact .inr (List.mem_singleton.mp hcol)
    · rw [List.mem_singleton.mp hcond] at hcol
      simpa [condCols] using hcol
  · refine ⟨fun _ o ho _ => ?_, fun col hcol => ?_⟩
    · rw [List.mem_singleton.mp ho]
      exact hkept
    · rw [List.mem_singleton.mp hcol]
      exact hkept

theorem columnsReach_orderedQuery : (orderedQuery "x").Accepted wideEnv ∧ (orderedQuery "x").ColumnsReach wideEnv :=
  ⟨orderedQuery_accepted "x",
    (columnsReach_iff wideEnv (orderedQuery "x") (orderedQuery_accepted "x")).mpr orderedQuery_keepsColumns⟩

/-- `ORDER BY a.z` sorts by a column that the projection below the join has dropped. -/
theorem not_columnsReach : ¬∀ (env : Env) (query : SelectQuery), query.Accepted env → query.ColumnsReach env := by
  intro h
  obtain ⟨_, _, _, hrun⟩ := h wideEnv (orderedQuery "z") (orderedQuery_accepted "z")
  exact hrun plainStl rfl

end SelectQuery
end Rmdb
