import Rmdb.Execution.JoinRows

/-! The scan of a table and the filter above it keep the rows that meet what the table is handed. -/
namespace Rmdb

open Program

/-! ### The cells of a record -/

section
variable {tabs : String → Option TabMeta} {tab : String} {tabMeta : TabMeta} {rec_ : Bytes} {cond : Condition}
  {lhs col : ColMeta} {target : TabCol}

theorem TabMeta.Stores.sized (tab : String) (h : tabMeta.Stores rec_) (hcol : col ∈ tabMeta.cols) :
    Sized ({ col with tabName := tab }, col.field rec_) := by
  obtain ⟨hlen, hnumber⟩ := h col hcol
  refine ⟨?_, hnumber⟩
  change ((rec_.drop col.offset).take col.len).length = col.len
  rw [List.length_take, List.length_drop]
  omega

theorem TabMeta.getCell_tuple (htab : target.tabName = tab) : getCell (tabMeta.tuple tab rec_) target =
    (tabMeta.cols.find? (·.name = target.colName)).map fun col => ({ col with tabName := tab }, col.field rec_) := by
  unfold getCell tuple
  rw [List.find?_map]
  have hfind : (tabMeta.tableCols tab).find? (fun col => col.tabName = target.tabName ∧ col.name = target.colName) = _ :=
    find?_tableCols htab
  change ((tabMeta.tableCols tab).find? fun col => col.tabName = target.tabName ∧ col.name = target.colName).map _ = _
  rw [hfind, Option.map_map]
  rfl

/-- The cell of a stored column has its value. -/
theorem TabMeta.Stores.cellValue (h : tabMeta.Stores rec_) (hcol : col ∈ tabMeta.cols) :
    Rmdb.cellValue ({ col with tabName := tab }, col.field rec_) = col.stored rec_ := by
  have happend := cellValue_append (h.sized tab hcol) ((rec_.drop col.offset).drop col.len)
  unfold ColMeta.field at happend ⊢
  dsimp only at happend
  rw [List.take_append_drop] at happend
  rw [← happend]
  rfl

/-- A condition about columns of the table that are alike means what its values say. -/
theorem Condition.holdsOn_eq_meets (htabMeta : tabs tab = some tabMeta) (h : Checked tabs cond lhs)
    (hstores : tabMeta.Stores rec_) (hwithin : cond.within tab = true) (halike : cond.Alike tabMeta rec_) :
    cond.holdsOn (tabMeta.tuple tab rec_) = cond.meets tabMeta rec_ := by
  unfold holdsOn meets
  cases hrhs : cond.rhs with
  | val val raw =>
    have htab := (within_val hrhs).mp hwithin
    have hlhs := find?_of_columnOf htabMeta htab h.column
    rw [TabMeta.getCell_tuple htab, hlhs, Option.map_some, Option.any_some]
    dsimp only
    rw [hstores.cellValue (List.mem_of_find?_eq_some hlhs)]
  | col rhsCol =>
    obtain ⟨htab, hrhsTab⟩ := (within_col hrhs).mp hwithin
    have hlhs := find?_of_columnOf htabMeta htab h.column
    obtain ⟨rhs, hcolumn⟩ := h.col rhsCol hrhs
    have hcol := find?_of_columnOf htabMeta hrhsTab hcolumn
    obtain ⟨htype, hstring⟩ := halike rhsCol hrhs lhs hlhs rhs hcol
    rw [TabMeta.getCell_tuple htab, hlhs, Option.map_some, Option.any_some]
    dsimp only
    rw [TabMeta.getCell_tuple hrhsTab, hcol, Option.map_some, Option.any_some]
    dsimp only
    rw [hstores.cellValue (List.mem_of_find?_eq_some hlhs), hstores.cellValue (List.mem_of_find?_eq_some hcol)]
    unfold ColMeta.stored ColMeta.field
    rw [htype]
    cases hlhsType : lhs.type with
    | int => rfl
    | float => rfl
    | string =>
      dsimp only
      rw [Value.meets_str, Value.meets_str, hstring hlhsType]

end

/-! ### The evaluators -/

section
variable {tabs : String → Option TabMeta} {tab : String} {tabMeta : TabMeta} {rec_ : Bytes} {conds : List Condition}
  {misread : TabMeta → Bytes → Condition → Prop} {evalCond : List TableCol → Bytes → Condition → Except DbError Bool}

/-- A record that is read right is kept if it meets the conditions. -/
theorem Query.ReadsRight.allM_eq (h : Query.ReadsRight tab tabMeta conds misread rec_)
    (heval : ∀ {cond lhs}, Checked tabs cond lhs → cond.within tab = true →
      ∃ b, evalCond (tabMeta.tableCols tab) rec_ cond = .ok b ∧ (b = cond.meets tabMeta rec_ ↔ ¬misread tabMeta rec_ cond))
    (htabMeta : tabs tab = some tabMeta) (hchecked : ∀ cond ∈ conds, ∃ lhs, Checked tabs cond lhs)
    (hstores : tabMeta.Stores rec_) :
    conds.allM (evalCond (tabMeta.tableCols tab) rec_) = .ok (conds.all (·.holdsOn (tabMeta.tuple tab rec_))) := by
  refine allM_eq_all_of_comesTo fun cond hcond => ?_
  obtain ⟨hwithin, halike, hread⟩ := h cond hcond
  obtain ⟨lhs, hlhs⟩ := hchecked cond hcond.mem
  obtain ⟨b, hb, hmeets⟩ := heval hlhs hwithin
  rw [hb, hmeets.mpr hread, Condition.holdsOn_eq_meets htabMeta hlhs hstores hwithin halike]

end

/-! ### Scans -/

section
variable {view : TableView} {evalCond : Bytes → Condition → Except DbError Bool} {conds : List Condition}
  {rids : List Rid} {keep : Bytes → Bool}

theorem TableView.select_eq (h : ∀ rid ∈ rids, ∀ rec_, view.getRecord rid = some rec_ →
      conds.allM (evalCond rec_) = .ok (keep rec_)) :
    view.select evalCond conds rids = .ok (rids.filter fun rid => (view.getRecord rid).any keep) := by
  refine filterM_eq_filter fun rid hrid => ?_
  cases hrec : view.getRecord rid with
  | none => rfl
  | some rec_ => exact h rid hrid rec_ hrec

/-- The records of the slots that are kept. -/
theorem TableView.filterMap_filter (view : TableView) (rids : List Rid) (keep : Bytes → Bool) :
    (rids.filter fun rid => (view.getRecord rid).any keep).filterMap view.getRecord =
      (rids.filterMap view.getRecord).filter keep := by
  induction rids with
  | nil => rfl
  | cons rid rids ih =>
    rw [List.filter_cons]
    cases hrec : view.getRecord rid with
    | none =>
      rw [Option.any_none, if_neg (by simp), List.filterMap_cons_none hrec, ih]
    | some rec_ =>
      rw [Option.any_some, List.filterMap_cons_some hrec, List.filter_cons]
      split
      · rw [List.filterMap_cons_some hrec, ih]
      · exact ih

theorem FilterExecutor.rows_eq {cols : List TableCol} {rows : List Bytes}
    (h : ∀ rec_ ∈ rows, conds.allM (FilterExecutor.evalCond cols rec_) = .ok (keep rec_)) :
    FilterExecutor.rows cols conds rows =
      .ok (if rows ≠ [] ∧ rows.filter keep = [] then [none] else (rows.filter keep).map some) := by
  unfold FilterExecutor.rows
  rw [filterM_eq_filter h]
  rfl

end

section
variable {env : Env} {query : Query} {tab : String} {tabMeta : TabMeta} {conds : List Condition} {cond : Condition}

theorem Plan.scanRows_eq {indexColNames : Option (List String)} {filterConds : List Condition} {rids : List Rid}
    (htab : env.tabs tab = some tabMeta) (hrids : scanRids env tab tabMeta indexColNames conds = .ok rids) :
    scanRows env tab indexColNames conds filterConds =
      if filterConds = [] then .ok ((rids.filterMap (env.view tab).getRecord).map some)
      else FilterExecutor.rows (tabMeta.tableCols tab) filterConds (rids.filterMap (env.view tab).getRecord) := by
  unfold scanRows Analyze.getTable
  rw [htab]
  dsimp only [bind, Except.bind, pure, Except.pure]
  rw [hrids]

/-- The conditions that an index scan takes are about its table, those between two tables apart. -/
theorem IndexScanExecutor.within_of_heldConds {held : List Condition} (h : heldConds tab tabMeta conds = .ok held)
    (hcond : cond ∈ conds) (hcross : Query.crossTable cond = false) : cond.within tab = true := by
  obtain ⟨fed, hfed, -⟩ := bind_eq_ok.mp h
  obtain ⟨here, -, hhere⟩ := exists_of_mem_mapM hfed hcond
  obtain ⟨turned, hturned, -⟩ := bind_eq_ok.mp hhere
  unfold turnCond at hturned
  unfold Query.crossTable at hcross
  cases hrhs : cond.rhs with
  | val val raw =>
    rw [hrhs] at hturned
    split at hturned
    · rename_i htab
      exact (within_val hrhs).mpr htab
    · cases hturned
  | col rhsCol =>
    rw [hrhs] at hturned hcross
    rw [decide_eq_false_iff_not, not_not] at hcross
    split at hturned
    · rename_i htab
      exact (within_col hrhs).mpr ⟨htab, hcross ▸ htab⟩
    · rename_i htab
      dsimp only at hturned
      split at hturned
      · rename_i hrhsTab
        exact absurd (hcross.trans hrhsTab) htab
      · cases hturned

namespace Query

theorem Accepted.exists_checked (h : query.Accepted env) (hcond : cond ∈ query.conds) :
    ∃ lhs, Checked env.tabs cond lhs := by
  obtain ⟨conds, hconds⟩ := h.checked
  exact checkClause_checked hconds hcond

theorem Accepted.stores (h : query.Accepted env) (htab : tab ∈ query.tables) (hmeta : env.tabs tab = some tabMeta)
    {rec_ : Bytes} (hrec : rec_ ∈ env.records tab) : tabMeta.Stores rec_ := by
  obtain ⟨rid, -, hrid⟩ := List.mem_filterMap.mp hrec
  exact h.stored tab htab tabMeta hmeta rid rec_ hrid

theorem mem_handed (hcond : cond ∈ query.handed tab) : cond ∈ query.conds ∧ crossTable cond = false := by
  obtain ⟨hmem, hown⟩ := List.mem_filter.mp hcond
  rw [Bool.and_eq_true, Bool.not_eq_true'] at hown
  exact ⟨hmem, hown.1⟩

/-- An index scan that fits returns the records that meet the conditions, each once. -/
theorem IndexFits.scan {index : IndexMeta} {ih : IxIndexHandle Bytes} {leaves : List (IxNodeHandle Bytes)}
    {lower upper : Option Bytes} {names : List String}
    (h : IndexFits tab tabMeta index ih leaves (env.view tab) conds lower upper)
    (hacc : query.Accepted env) (htab : tab ∈ query.tables) (hmeta : env.tabs tab = some tabMeta)
    (hindex : IndexScanExecutor.matchIndex tabMeta names = .ok index) (hih : env.ihs (getIndexName tab index) = some ih)
    (hconds : ∀ cond ∈ conds, cond ∈ query.conds ∧ crossTable cond = false) :
    ∃ rids, IndexScanExecutor.scan tab tabMeta env.ihs (env.view tab) conds names = .ok rids ∧
      (rids.filterMap (env.view tab).getRecord).Perm
        ((env.records tab).filter fun rec_ => conds.all (·.holdsOn (tabMeta.tuple tab rec_))) := by
  obtain ⟨conds₀, hcheck⟩ := hacc.checked
  obtain ⟨held, hheld, hrange⟩ := h.range
  obtain ⟨scanned, hscan, hsub, hmem⟩ := IndexScanExecutor.scan_eq hmeta hcheck
    (fun cond hcond => (hconds cond hcond).1) (fun cond hcond => hacc.literals cond (hconds cond hcond).1) hindex hih
    h.ofTable h.chain (env.view tab) hheld hrange h.starts
  have hwithin : ∀ cond ∈ conds, cond.within tab = true := fun cond hcond =>
    IndexScanExecutor.within_of_heldConds hheld hcond (hconds cond hcond).2
  let keep (rec_ : Bytes) : Bool := conds.all (·.holdsOn (tabMeta.tuple tab rec_))
  have hselect : (env.view tab).select (IndexScanExecutor.evalCond (tabMeta.tableCols tab)) held (scanned.map (·.2)) =
      .ok ((scanned.map (·.2)).filter fun rid => ((env.view tab).getRecord rid).any keep) :=
    TableView.select_eq fun rid hrid rec_ hrec => by
      obtain ⟨e, he, rfl⟩ := List.mem_map.mp hrid
      rw [IndexScanExecutor.allM_held_within hheld hwithin]
      refine allM_eq_all_of_comesTo fun cond hcond => ?_
      obtain ⟨lhs, hlhs⟩ := hacc.exists_checked (hconds cond hcond.mem).1
      rw [IndexScanExecutor.evalCond_within rec_ hmeta hlhs (hwithin cond hcond.mem),
        Condition.holdsOn_eq_meets hmeta hlhs (hacc.stored tab htab tabMeta hmeta e.2 rec_ hrec) (hwithin cond hcond.mem)
          (h.alike e.1 e.2 rec_ ((hmem e).mp he) hrec cond hcond)]
  refine ⟨_, hscan.trans hselect, ?_⟩
  unfold Env.records
  rw [← TableView.filterMap_filter]
  refine List.Perm.filterMap _ ((List.perm_ext_iff_of_nodup ?_ ((hacc.slots tab htab).filter _)).mpr fun rid => ?_)
  · -- a kept slot has one entry only
    rw [List.filter_map]
    refine List.Nodup.map_on ?_ ((h.nodup.sublist hsub).filter _)
    intro e he e' he' hrid
    obtain ⟨he, hkeep⟩ := List.mem_filter.mp he
    obtain ⟨rec_, hrec, hall⟩ := (Option.any_eq_true ..).mp hkeep
    have hfound := h.found e.2 rec_ hrec hall
    have hreached : ih.Reached index.compare leaves lower upper (e.1, e.2) := (hmem e).mp he
    have hreached' : ih.Reached index.compare leaves lower upper (e'.1, e'.2) := (hmem e').mp (List.mem_filter.mp he').1
    split at hfound
    · rw [← hrid] at hreached'
      exact Prod.ext (hfound.unique hreached hreached') hrid
    · exact absurd hreached (hfound e.1)
  · rw [List.mem_filter, List.mem_filter]
    refine and_congr_left fun hkeep => ?_
    obtain ⟨rec_, hrec, hall⟩ := (Option.any_eq_true ..).mp hkeep
    have hfound := h.found rid rec_ hrec hall
    constructor
    · intro hrid
      obtain ⟨e, he, rfl⟩ := List.mem_map.mp hrid
      split at hfound
      · assumption
      · exact absurd ((hmem e).mp he) (hfound e.1)
    · intro hrid
      rw [if_pos hrid] at hfound
      obtain ⟨key, hkey, -⟩ := hfound
      exact List.mem_map.mpr ⟨(key, rid), (hmem _).mpr hkey, rfl⟩

theorem passed_eq (hmeta : env.tabs tab = some tabMeta) : query.passed env tab =
    ((env.records tab).filter fun rec_ => (query.handed tab).all (·.holdsOn (tabMeta.tuple tab rec_))).map (tab, ·) := by
  unfold passed Env.rows
  rw [List.filter_map]
  congr 1
  refine List.filter_congr fun rec_ _ => ?_
  simp only [Function.comp_apply, Env.tuple_eq hmeta]

namespace ScanFits

variable (h : ScanFits env query tab tabMeta) (hacc : query.Accepted env) (htab : tab ∈ query.tables)
  (hmeta : env.tabs tab = some tabMeta)
include h hacc htab hmeta

/-- The filter keeps the records that meet what the table is handed. -/
private theorem filter_rows (hjoins : query.joins = true) {rows : List Bytes} (hrows : rows ⊆ env.records tab) :
    FilterExecutor.rows (tabMeta.tableCols tab) (query.handed tab) rows =
      .ok (if rows ≠ [] ∧ rows.filter (fun rec_ => (query.handed tab).all (·.holdsOn (tabMeta.tuple tab rec_))) = []
        then [none]
        else (rows.filter fun rec_ => (query.handed tab).all (·.holdsOn (tabMeta.tuple tab rec_))).map some) :=
  FilterExecutor.rows_eq fun rec_ hrec => (h.filter hjoins rec_ (hrows hrec)).allM_eq
    (FilterExecutor.evalCond_within _ hmeta) hmeta (fun _ hcond => hacc.exists_checked (mem_handed hcond).1)
    (hacc.stores htab hmeta (hrows hrec))

/-- Below a join the scan returns all records, in whatever order. -/
private theorem scanRids_join (hjoins : query.joins = true) :
    ∃ rids, Plan.scanRids env tab tabMeta (Planner.getIndexCols tab tabMeta (query.handed tab)) [] = .ok rids ∧
      (rids.filterMap (env.view tab).getRecord).Perm (env.records tab) := by
  have hall : (env.records tab).filter (fun _ => true) = env.records tab := List.filter_eq_self.mpr fun _ _ => rfl
  cases hindex : Planner.getIndexCols tab tabMeta (query.handed tab) with
  | none =>
    have hselect : (env.view tab).select (SeqScanExecutor.evalCond (tabMeta.tableCols tab)) [] (env.view tab).rids =
        .ok ((env.view tab).rids.filter fun rid => ((env.view tab).getRecord rid).any fun _ => true) :=
      TableView.select_eq fun _ _ _ _ => rfl
    refine ⟨_, hselect, .of_eq ?_⟩
    rw [TableView.filterMap_filter]
    exact hall
  | some names =>
    obtain ⟨index, ih, leaves, lower, upper, hmatch, hih, hfits⟩ := h.indexScan names hindex
    rw [hjoins, if_pos rfl] at hfits
    obtain ⟨rids, hrids, hperm⟩ := hfits.scan hacc htab hmeta hmatch hih (List.forall_mem_nil _)
    exact ⟨rids, hrids, hperm.trans (.of_eq hall)⟩

/-- The rows of a table among several of a JOIN clause. -/
theorem scanRows_join (hjoins : query.joins = true) :
    ∃ recs : List Bytes, (recs.map (tab, ·)).Perm (query.passed env tab) ∧
      Plan.scanRows env tab (Planner.getIndexCols tab tabMeta (query.handed tab)) [] (query.handed tab) =
        .ok (if query.handed tab ≠ [] ∧ env.records tab ≠ [] ∧ query.passed env tab = [] then [none]
          else recs.map some) := by
  obtain ⟨rids, hrids, hperm⟩ := h.scanRids_join hacc htab hmeta hjoins
  rw [passed_eq hmeta, Plan.scanRows_eq hmeta hrids]
  by_cases hconds : query.handed tab = []
  · rw [if_pos hconds, hconds]
    refine ⟨_, (hperm.trans (.of_eq ?_)).map _, ?_⟩
    · exact (List.filter_eq_self.mpr fun _ _ => rfl).symm
    · rw [if_neg fun h => h.1 rfl]
  · rw [if_neg hconds, h.filter_rows hacc htab hmeta hjoins hperm.subset]
    refine ⟨_, (hperm.filter _).map _, ?_⟩
    have hrecords : rids.filterMap (env.view tab).getRecord = [] ↔ env.records tab = [] :=
      ⟨fun hnil => List.nil_perm.mp (hnil ▸ hperm), fun hnil => List.perm_nil.mp (hnil ▸ hperm)⟩
    have hkept : ∀ keep, (rids.filterMap (env.view tab).getRecord).filter keep = [] ↔ (env.records tab).filter keep = [] :=
      fun keep => ⟨fun hnil => List.nil_perm.mp (hnil ▸ hperm.filter keep),
        fun hnil => List.perm_nil.mp (hnil ▸ hperm.filter keep)⟩
    simp only [ne_eq, hconds, not_false_eq_true, true_and, hrecords, hkept, List.map_eq_nil_iff]

/-- Without JOIN clauses the scan takes the conditions, and after a sequential scan the filter takes them again. -/
theorem scanRows_from (hjoins : query.joins = false) :
    ∃ recs : List Bytes, (recs.map (tab, ·)).Perm (query.passed env tab) ∧
      Plan.scanRows env tab (Planner.getIndexCols tab tabMeta (query.handed tab)) (query.handed tab)
        (if Planner.getIndexCols tab tabMeta (query.handed tab) = none then query.handed tab else []) =
        .ok (recs.map some) := by
  have hchecked : ∀ cond ∈ query.handed tab, ∃ lhs, Checked env.tabs cond lhs :=
    fun _ hcond => hacc.exists_checked (mem_handed hcond).1
  rw [passed_eq hmeta]
  cases hindex : Planner.getIndexCols tab tabMeta (query.handed tab) with
  | none =>
    let keep (rec_ : Bytes) : Bool := (query.handed tab).all (·.holdsOn (tabMeta.tuple tab rec_))
    have hscan : Plan.scanRids env tab tabMeta none (query.handed tab) =
        .ok ((env.view tab).rids.filter fun rid => ((env.view tab).getRecord rid).any keep) :=
      TableView.select_eq fun rid hrid rec_ hrec => by
        have hrecord : rec_ ∈ env.records tab := List.mem_filterMap.mpr ⟨rid, hrid, hrec⟩
        exact (h.seqScan hjoins hindex rec_ hrecord).allM_eq (SeqScanExecutor.evalCond_within _ hmeta) hmeta hchecked
          (hacc.stores htab hmeta hrecord)
    rw [if_pos rfl, Plan.scanRows_eq hmeta hscan, TableView.filterMap_filter]
    refine ⟨(env.records tab).filter keep, .refl _, ?_⟩
    split
    · rfl
    · have hfilter : FilterExecutor.rows (tabMeta.tableCols tab) (query.handed tab) ((env.records tab).filter keep) =
          .ok (if (env.records tab).filter keep ≠ [] ∧ ((env.records tab).filter keep).filter (fun _ => true) = []
            then [none] else (((env.records tab).filter keep).filter fun _ => true).map some) :=
        FilterExecutor.rows_eq fun rec_ hrec => by
          obtain ⟨hrecord, hkeep⟩ := List.mem_filter.mp hrec
          have hmet : ∀ cond ∈ query.handed tab, cond.holdsOn (tabMeta.tuple tab rec_) = true := List.all_eq_true.mp hkeep
          rw [allM_eq_all (p := fun _ => true), List.all_eq_true.mpr fun _ _ => rfl]
          intro cond hcond
          obtain ⟨lhs, hlhs⟩ := hchecked cond hcond
          obtain ⟨pre, post, hsplit⟩ := List.append_of_mem hcond
          obtain ⟨hwithin, halike, -⟩ := h.seqScan hjoins hindex rec_ hrecord cond ⟨pre, post, hsplit, fun other hother =>
            hmet other (hsplit ▸ List.mem_append_left _ hother)⟩
          obtain ⟨b, hb, hread⟩ := FilterExecutor.evalCond_within rec_ hmeta hlhs hwithin
          rw [hb, hread.mpr (h.again hjoins hindex rec_ hrecord hkeep cond hcond),
            ← Condition.holdsOn_eq_meets hmeta hlhs (hacc.stores htab hmeta hrecord) hwithin halike, hmet cond hcond]
      have hall : ((env.records tab).filter keep).filter (fun _ => true) = (env.records tab).filter keep :=
        List.filter_eq_self.mpr fun _ _ => rfl
      refine hfilter.trans ?_
      rw [hall, if_neg fun h => h.1 h.2]
  | some names =>
    obtain ⟨index, ih, leaves, lower, upper, hmatch, hih, hfits⟩ := h.indexScan names hindex
    rw [hjoins, if_neg Bool.false_ne_true] at hfits
    obtain ⟨rids, hrids, hperm⟩ := hfits.scan hacc htab hmeta hmatch hih fun _ hcond => mem_handed hcond
    have hscan : Plan.scanRids env tab tabMeta (some names) (query.handed tab) = .ok rids := hrids
    rw [if_neg nofun, Plan.scanRows_eq hmeta hscan, if_pos rfl]
    exact ⟨_, hperm.map _, rfl⟩

end ScanFits
end Query
end
end Rmdb
