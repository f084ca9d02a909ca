import Rmdb.Execution.OneMeaning
import Rmdb.Execution.SelectScans
import Rmdb.Optimizer.JoinOrder

/-! The plan of a SELECT returns the rows that the query asks for. -/
namespace Rmdb

open Product Program Planner Query

/-! ### The joins -/

section
variable {env : Env} {rows rows' : String → List Row} {header : String → List TableCol} {cells cells' : Row → Tuple}
  {conds : List Condition} {lefts rest tabs before : List String} {plan : Plan} {c : List Row}

theorem map_fst_of_mem_cross (hrows : ∀ tab, ∀ row ∈ rows tab, row.1 = tab) (hc : c ∈ cross (tabs.map rows)) :
    c.map (·.1) = tabs := by
  induction tabs generalizing c with
  | nil =>
    rw [List.map_nil, cross, List.mem_singleton] at hc
    rw [hc]
    rfl
  | cons tab tabs ih =>
    rw [List.map_cons, mem_cross] at hc
    cases hc with
    | cons hrow hc => rw [List.map_cons, hrows tab _ hrow, ih (mem_cross.mpr hc)]

/-- The rows of some of the tables, as they are in a combination of them all. -/
theorem exists_restrict (hcells : OfTable cells) (hrows : ∀ tab, ∀ row ∈ rows tab, row.1 = tab) (hnodup : tabs.Nodup)
    (hbefore : before.Nodup) (hsub : before ⊆ tabs) (hc : c ∈ cross (tabs.map rows)) :
    ∃ c' ∈ cross (before.map rows), c' ⊆ c ∧
      ∀ col : TabCol, col.tabName ∈ before → getCell (c'.flatMap cells) col = getCell (c.flatMap cells) col := by
  have hkeys := map_fst_of_mem_cross hrows hc
  have hrow : ∀ tab ∈ before, ∃ row ∈ c, row.1 = tab := by
    intro tab htab
    have hmem := hsub htab
    rw [← hkeys] at hmem
    exact List.mem_map.mp hmem
  choose! r hr hfst using hrow
  have hmem : ∀ tab ∈ before, r tab ∈ rows tab := by
    intro tab htab
    obtain ⟨l, hl, hin⟩ := mem_of_mem_cross hc (hr tab htab)
    obtain ⟨tab', -, rfl⟩ := List.mem_map.mp hl
    have heq := hrows tab' _ hin
    rw [hfst tab htab] at heq
    rwa [← heq] at hin
  have hcross : before.map r ∈ cross (before.map rows) := by
    rw [mem_cross, List.forall₂_map_left_iff, List.forall₂_map_right_iff, List.forall₂_same]
    exact hmem
  refine ⟨before.map r, hcross, ?_, fun col hcol => ?_⟩
  · intro row hrow
    obtain ⟨tab, htab, rfl⟩ := List.mem_map.mp hrow
    exact hr tab htab
  · rw [← hkeys] at hnodup
    rw [hcells.getCell_flatMap hnodup (hr _ hcol) (hfst _ hcol)]
    refine hcells.getCell_flatMap ?_ (List.mem_map_of_mem hcol) (hfst _ hcol)
    rwa [map_fst_of_mem_cross hrows hcross]

theorem meetsAll_iff : meetsAll cells conds tabs c = true ↔
    ∀ cond ∈ conds, between tabs cond = true → cond.holdsOn (c.flatMap cells) = true := by
  unfold meetsAll
  rw [List.all_eq_true]
  refine forall₂_congr fun cond _ => ?_
  cases between tabs cond with
  | true => simp
  | false => simp

theorem mem_joined : c ∈ joined rows cells conds tabs ↔ c ∈ cross (tabs.map rows) ∧
    ∀ cond ∈ conds, between tabs cond = true → cond.holdsOn (c.flatMap cells) = true := by
  unfold joined
  rw [List.mem_filter, meetsAll_iff]

theorem mem_cross_mono (h : ∀ tab ∈ tabs, rows tab ⊆ rows' tab) (hc : c ∈ cross (tabs.map rows)) :
    c ∈ cross (tabs.map rows') := by
  induction tabs generalizing c with
  | nil => exact hc
  | cons tab tabs ih =>
    rw [List.map_cons, mem_cross] at hc ⊢
    cases hc with
    | cons hrow hc =>
      refine .cons (h tab List.mem_cons_self hrow) (mem_cross.mp ?_)
      exact ih (fun tab htab => h tab (List.mem_cons_of_mem _ htab)) (mem_cross.mpr hc)

/-- The joins look at the columns of their conditions only. -/
theorem mem_joined_congr (hrows : ∀ tab ∈ tabs, ∀ row, row ∈ rows tab ↔ row ∈ rows' tab)
    (hcells : ∀ cond ∈ conds, ∀ col ∈ condCols cond, ∀ row, getCell (cells row) col = getCell (cells' row) col) :
    c ∈ joined rows cells conds tabs ↔ c ∈ joined rows' cells' conds tabs := by
  rw [mem_joined, mem_joined]
  refine and_congr ?_ (forall₂_congr fun cond hcond => imp_congr_right fun _ => ?_)
  · constructor
    · exact mem_cross_mono fun tab htab row hrow => (hrows tab htab row).mp hrow
    · exact mem_cross_mono fun tab htab row hrow => (hrows tab htab row).mpr hrow
  · rw [Condition.holdsOn_congr fun col hcol => getCell_flatMap_congr fun row _ => hcells cond hcond col hcol row]

/-- If the tables in front leave nothing, all of them do. -/
theorem joined_eq_nil (hcells : OfTable cells) (hrows : ∀ tab, ∀ row ∈ rows tab, row.1 = tab) (hnodup : tabs.Nodup)
    (hbefore : before.Nodup) (hsub : before ⊆ tabs) (hnil : joined rows cells conds before = []) :
    joined rows cells conds tabs = [] := by
  rw [List.eq_nil_iff_forall_not_mem] at hnil ⊢
  intro c hc
  obtain ⟨hcross, hmeets⟩ := mem_joined.mp hc
  obtain ⟨c', hc', -, hcell⟩ := exists_restrict hcells hrows hnodup hbefore hsub hcross
  refine hnil c' (mem_joined.mpr ⟨hc', fun cond hcond hbetween => ?_⟩)
  obtain ⟨hcross', hin⟩ := between_iff.mp hbetween
  rw [Condition.holdsOn_congr fun col hcol => hcell col (hin col hcol)]
  exact hmeets cond hcond (between_iff.mpr ⟨hcross', fun col hcol => hsub (hin col hcol)⟩)

/-- A further table adds the conditions that it completes. -/
theorem meetsAll_concat (hcells : OfTable cells) {row : Row} (htab : row.1 ∉ lefts) :
    meetsAll cells conds (lefts ++ [row.1]) (c ++ [row]) = (meetsAll cells conds lefts c &&
      (conds.filter (connects row.1 lefts)).all (·.holdsOn ((c ++ [row]).flatMap cells))) := by
  have hsame : ∀ cond, between lefts cond = true →
      cond.holdsOn ((c ++ [row]).flatMap cells) = cond.holdsOn (c.flatMap cells) := by
    intro cond hbetween
    refine Condition.holdsOn_congr fun col hcol => ?_
    have hne : row.1 ≠ col.tabName := fun h => htab (h ▸ (between_iff.mp hbetween).2 col hcol)
    rw [List.flatMap_append, List.flatMap_singleton, getCell_append, hcells.getCell_eq_none hne, Option.or_none]
  rw [Bool.eq_iff_iff, Bool.and_eq_true, meetsAll_iff, meetsAll_iff, List.all_eq_true]
  constructor
  · intro h
    constructor
    · intro cond hcond hbetween
      rw [← hsame cond hbetween]
      exact h cond hcond (between_append hbetween)
    · intro cond hcond
      obtain ⟨hcond, hconnects⟩ := List.mem_filter.mp hcond
      rw [connects_eq htab, Bool.and_eq_true] at hconnects
      exact h cond hcond hconnects.2
  · rintro ⟨hbefore, hnew⟩ cond hcond hbetween
    cases hold : between lefts cond with
    | true =>
      rw [hsame cond hold]
      exact hbefore cond hcond hold
    | false =>
      refine hnew cond (List.mem_filter.mpr ⟨hcond, ?_⟩)
      rw [connects_eq htab, hold, hbetween]
      rfl

/-- Filtering the combinations before the last table and after it. -/
private theorem filter_concat {L : List (List Row)} {R : List Row} {p q r : List Row → Bool}
    (h : ∀ c ∈ L, ∀ row ∈ R, p (c ++ [row]) = (q c && r (c ++ [row]))) :
    (L.flatMap fun c => R.map fun row => c ++ [row]).filter p =
      ((L.filter q).flatMap fun c => R.map fun row => c ++ [row]).filter r := by
  induction L with
  | nil => rfl
  | cons c L ih =>
    have hrest := ih fun c hc => h c (List.mem_cons_of_mem _ hc)
    have hfirst := h c List.mem_cons_self
    rw [List.flatMap_cons, List.filter_append, hrest, List.filter_cons]
    cases hq : q c with
    | true =>
      rw [if_pos rfl, List.flatMap_cons, List.filter_append]
      congr 1
      refine List.filter_congr fun c' hc' => ?_
      obtain ⟨row, hrow, rfl⟩ := List.mem_map.mp hc'
      rw [hfirst row hrow, hq, Bool.true_and]
    | false =>
      rw [if_neg (by simp), List.filter_eq_nil_iff.mpr, List.nil_append]
      intro c' hc'
      obtain ⟨row, hrow, rfl⟩ := List.mem_map.mp hc'
      rw [hfirst row hrow, hq]
      simp

/-- The joins of one more table. -/
theorem joined_concat (hcells : OfTable cells) (hrows : ∀ tab, ∀ row ∈ rows tab, row.1 = tab) {tab : String}
    (htab : tab ∉ lefts) : (joined rows cells conds (lefts ++ [tab])).map (·.flatMap cells) =
      (((joined rows cells conds lefts).map (·.flatMap cells)).flatMap fun t =>
        ((rows tab).map cells).map (t ++ ·)).filter
          fun t => (conds.filter (connects tab lefts)).all (·.holdsOn t) := by
  unfold joined
  rw [List.map_append, List.map_singleton, cross_concat,
    filter_concat (q := meetsAll cells conds lefts)
      (r := fun c => (conds.filter (connects tab lefts)).all (·.holdsOn (c.flatMap cells)))]
  · have hflat : ∀ kept : List (List Row), (kept.map (·.flatMap cells)).flatMap (fun t =>
        ((rows tab).map cells).map (t ++ ·)) =
        (kept.flatMap fun c => (rows tab).map fun row => c ++ [row]).map (·.flatMap cells) := by
      intro kept
      rw [List.flatMap_map, List.map_flatMap]
      simp only [List.map_map, Function.comp_def, List.flatMap_append, List.flatMap_singleton]
    rw [hflat, List.filter_map]
    rfl
  · intro c _ row hrow
    rw [← hrows tab row hrow] at htab ⊢
    exact meetsAll_concat hcells htab

/-- The left-deep tree returns the combinations that meet the conditions between its tables. A scan counts once the
tables in front leave something. -/
theorem joinOn_delivers {planOf : String → Plan} (hcells : OfTable cells) (hrows : ∀ tab, ∀ row ∈ rows tab, row.1 = tab)
    (hplan : Delivers env plan (lefts.flatMap header) ((joined rows cells conds lefts).map (·.flatMap cells)))
    (hlefts : lefts ≠ []) (hall : tabs = lefts ++ rest) (hnodup : tabs.Nodup)
    (hcols : ∀ tab ∈ tabs, (planOf tab).cols env = .ok (header tab))
    (hscans : ∀ before tab after, tabs = before ++ tab :: after → before ≠ [] → joined rows cells conds before ≠ [] →
      Delivers env (planOf tab) (header tab) ((rows tab).map cells))
    (hcompares : ∀ before tab after, tabs = before ++ tab :: after → ∀ c ∈ joined rows cells conds before,
      ∀ row ∈ rows tab, ∀ cond, ComesTo (·.holdsOn ((c ++ [row]).flatMap cells)) (conds.filter (connects tab before)) cond →
        cond.ComparesOn ((c ++ [row]).flatMap cells)) :
    Delivers env (joinOn conds plan lefts (rest.map fun tab => (tab, planOf tab))) (tabs.flatMap header)
      ((joined rows cells conds tabs).map (·.flatMap cells)) := by
  induction rest generalizing plan lefts with
  | nil =>
    rw [List.append_nil] at hall
    rw [hall]
    exact hplan
  | cons tab rest ih =>
    have hnew : (lefts ++ [tab]).Nodup := by
      rw [hall, List.append_cons] at hnodup
      exact (List.nodup_append.mp hnodup).1
    have htab : tab ∉ lefts := fun h => (List.nodup_append.mp hnew).2.2 tab h tab List.mem_cons_self rfl
    have hjoin := hplan.join (conds.filter (connects tab lefts))
      (hcols tab (hall ▸ List.mem_append_right _ List.mem_cons_self))
      (fun hsome => hscans lefts tab rest hall hlefts fun hnil => hsome (by rw [hnil]; rfl)) (by
        intro t ht u hu cond hcond
        obtain ⟨c, hc, rfl⟩ := List.mem_map.mp ht
        obtain ⟨row, hrow, rfl⟩ := List.mem_map.mp hu
        have hcomp := hcompares lefts tab rest hall c hc row hrow cond
        rw [List.flatMap_append, List.flatMap_singleton] at hcomp
        exact hcomp hcond)
    rw [← joined_concat hcells hrows htab] at hjoin
    rw [List.map_cons, joinOn]
    refine ih ?_ (List.append_ne_nil_of_left_ne_nil hlefts _) (by rw [hall, List.append_cons])
    rw [List.flatMap_append, List.flatMap_singleton]
    exact hjoin

theorem joined_singleton {tab : String} :
    (joined rows cells conds [tab]).map (·.flatMap cells) = (rows tab).map cells := by
  have hall : joined rows cells conds [tab] = (rows tab).map fun row => [row] := by
    unfold joined
    rw [List.map_singleton, cross, cross, List.filter_eq_self.mpr]
    · exact List.map_eq_flatMap.symm
    · intro c _
      exact meetsAll_iff.mpr fun cond _ hbetween => by simp [between_singleton] at hbetween
  rw [hall, List.map_map]
  refine List.map_congr_left fun row _ => ?_
  simp

end

/-! ### The rows that the scans pass on -/

def Env.header (env : Env) (tab : String) : List TableCol :=
  match env.tabs tab with
  | some tabMeta => tabMeta.tableCols tab
  | none => []

/-- A column that the SELECT list or a join asks for is in its table. -/
theorem Env.HasCol.find {env : Env} {target : TabCol} (h : env.HasCol target) :
    ((env.header target.tabName).find? (TableCol.is target)).isSome := by
  obtain ⟨tabMeta, htab, col, hcol, hname⟩ := h
  unfold header
  rw [htab]
  dsimp only
  rw [List.find?_isSome]
  refine ⟨{ col with tabName := target.tabName }, List.mem_map_of_mem hcol, ?_⟩
  simp [TableCol.is, hname]

section
variable {env : Env} {query : Query} {tab : String} {plan : Plan} {header : List TableCol}
  {tuples : List Tuple} {row : Row} {col : TabCol} {tabMeta : TabMeta}

theorem Env.tuple_header (env : Env) (row : Row) : (env.tuple row).map (·.1) = env.header row.1 := by
  unfold tuple header
  cases env.tabs row.1 with
  | none => rfl
  | some tabMeta =>
    dsimp only
    rw [TabMeta.tuple, List.map_map]
    exact List.map_id _

namespace Query

/-- What a scan and its projection pass on of a row. -/
def pushed (query : Query) (tab : String) (tuple : Tuple) : Tuple :=
  if query.isSelectAll ∨ tableProjection query tab = [] then tuple else projectTuple (tableProjection query tab) tuple

def pushedCols (query : Query) (tab : String) (cols : List TableCol) : List TableCol :=
  if query.isSelectAll ∨ tableProjection query tab = [] then cols
  else (tableProjection query tab).filterMap fun target => cols.find? (TableCol.is target)

/-- The columns above the scans. -/
def Needs (query : Query) (col : TabCol) : Prop := col ∈ query.cols ∨ ∃ cond ∈ query.joinConds, col ∈ condCols cond

theorem mem_tableProjection_of_needs (h : query.Needs col)
    (hpushed : ¬(query.isSelectAll ∨ tableProjection query col.tabName = [])) :
    col ∈ tableProjection query col.tabName := by
  rw [not_or] at hpushed
  obtain ⟨hall, hsome⟩ := hpushed
  unfold tableProjection at hsome ⊢
  split at hsome
  · rename_i hjoin
    rw [if_pos hjoin, List.mem_dedup, List.mem_append]
    rw [Bool.and_eq_true] at hjoin
    rcases h with h | ⟨cond, hcond, hcol⟩
    · exact .inl (List.mem_filter.mpr ⟨h, by simp⟩)
    · rw [joinConds, if_pos hjoin.1] at hcond
      exact .inr (List.mem_filter.mpr ⟨List.mem_flatMap.mpr ⟨cond, hcond, hcol⟩, by simp⟩)
  · exact absurd rfl hsome

theorem of_mem_tableProjection (h : col ∈ tableProjection query tab) : col.tabName = tab ∧ query.isSelectAll = false ∧
    (col ∈ query.cols ∨ ∃ cond ∈ query.onConds, col ∈ condCols cond) := by
  unfold tableProjection at h
  split at h
  · rename_i hjoin
    rw [Bool.and_eq_true, Bool.not_eq_true'] at hjoin
    rw [List.mem_dedup, List.mem_append] at h
    rcases h with h | h
    · obtain ⟨hcol, htab⟩ := List.mem_filter.mp h
      exact ⟨of_decide_eq_true htab, hjoin.2, .inl hcol⟩
    · obtain ⟨hcol, htab⟩ := List.mem_filter.mp h
      exact ⟨of_decide_eq_true htab, hjoin.2, .inr (List.mem_flatMap.mp hcol)⟩
  · cases h

/-- The projection below a join keeps what is needed above. -/
theorem getCell_pushed (h : query.Needs col) :
    getCell (query.pushed row.1 (env.tuple row)) col = getCell (env.tuple row) col := by
  unfold pushed
  split
  · rfl
  · rename_i hpushed
    by_cases htab : row.1 = col.tabName
    · rw [htab] at hpushed ⊢
      exact getCell_projectTuple (mem_tableProjection_of_needs h hpushed)
    · have hproject := (ofTable_tuple env).projectTuple (tableProjection query)
      rw [(ofTable_tuple env).getCell_eq_none htab]
      exact hproject.getCell_eq_none htab

theorem ofTable_pushed (env : Env) (query : Query) : OfTable fun row => query.pushed row.1 (env.tuple row) := by
  intro row cell hcell
  change cell ∈ query.pushed row.1 (env.tuple row) at hcell
  unfold pushed at hcell
  split at hcell
  · exact ofTable_tuple env row cell hcell
  · exact (ofTable_tuple env).projectTuple (tableProjection query) row cell hcell

theorem find_pushedCols (h : query.Needs col) (hcol : env.HasCol col) :
    ((query.pushedCols col.tabName (env.header col.tabName)).find? (TableCol.is col)).isSome := by
  unfold pushedCols
  split
  · exact hcol.find
  · rename_i hpushed
    obtain ⟨found, hfound⟩ := Option.isSome_iff_exists.mp hcol.find
    rw [List.find?_isSome]
    refine ⟨found, List.mem_filterMap.mpr ⟨col, mem_tableProjection_of_needs h hpushed, hfound⟩, ?_⟩
    exact List.find?_some hfound

theorem project_cols (hcols : plan.cols env = .ok header)
    (hfound : ∀ target ∈ tableProjection query tab, (header.find? (TableCol.is target)).isSome) :
    (project query tab plan).cols env = .ok (query.pushedCols tab header) := by
  unfold project pushedCols
  split
  · exact hcols
  · rename_i hpushed
    exact Delivers.projection_cols hcols (fun hnil => hpushed (.inr hnil)) hfound

theorem project_run (query : Query) (tab : String) {rows : List (Option Tuple)} (hrun : plan.run env = .ok rows) :
    (project query tab plan).run env = .ok (rows.map (·.map (query.pushed tab))) := by
  unfold project
  split
  · rename_i hpushed
    have hid : query.pushed tab = id := by
      funext tuple
      exact if_pos hpushed
    rw [hrun, hid, Option.map_id_fun, List.map_id]
  · rename_i hpushed
    have hproject : query.pushed tab = projectTuple (tableProjection query tab) := by
      funext tuple
      exact if_neg hpushed
    rw [Plan.run, hrun, hproject]
    rfl

/-- The scan of a table among several, with its projection. -/
def scanPlan (env : Env) (query : Query) (tab : String) : Plan :=
  match env.tabs tab with
  | none => .scan tab none [] []
  | some tabMeta =>
    let indexColNames := getIndexCols tab tabMeta (query.handed tab)
    if query.hasJoin then project query tab (.scan tab indexColNames [] (query.handed tab))
    else project query tab
      (.scan tab indexColNames (query.handed tab) (if indexColNames = none then query.handed tab else []))

end Query

theorem Plan.scan_cols {indexColNames : Option (List String)} {conds filterConds : List Condition}
    (htab : env.tabs tab = some tabMeta) : (Plan.scan tab indexColNames conds filterConds).cols env = .ok (env.header tab) := by
  rw [Plan.cols, Analyze.getTable, htab, Env.header, htab]
  rfl

theorem Plan.scan_run {indexColNames : Option (List String)} {conds filterConds : List Condition}
    {rows : List (Option Bytes)} (htab : env.tabs tab = some tabMeta)
    (hrows : Plan.scanRows env tab indexColNames conds filterConds = .ok rows) :
    (Plan.scan tab indexColNames conds filterConds).run env =
      .ok (rows.map fun row => row.map fun rec_ => env.tuple (tab, rec_)) := by
  rw [Plan.run, Analyze.getTable, htab, hrows]
  change Except.ok _ = _
  simp only [Env.tuple_eq htab]

namespace Query

theorem scanPlan_cols (hmeta : env.tabs tab = some tabMeta)
    (hfound : ∀ target ∈ tableProjection query tab, env.HasCol target) :
    (scanPlan env query tab).cols env = .ok (query.pushedCols tab (env.header tab)) := by
  have hfind : ∀ target ∈ tableProjection query tab, ((env.header tab).find? (TableCol.is target)).isSome := by
    intro target htarget
    have hfound := (hfound target htarget).find
    rwa [(of_mem_tableProjection htarget).1] at hfound
  unfold scanPlan
  rw [hmeta]
  dsimp only
  split
  · exact project_cols (Plan.scan_cols hmeta) hfind
  · exact project_cols (Plan.scan_cols hmeta) hfind

/-- What comes out of a projection above a scan. -/
theorem pushed_header {rec_ : Bytes} : (query.pushed tab (env.tuple (tab, rec_))).map (·.1) =
    query.pushedCols tab (env.header tab) := by
  unfold pushed pushedCols
  split
  · exact env.tuple_header (tab, rec_)
  · exact projectTuple_header (env.tuple_header (tab, rec_))

/-- A scan that fits passes its rows on, or a null pointer. -/
theorem ScanFits.scanPlan (h : ScanFits env query tab tabMeta) (hacc : query.Accepted env) (htab : tab ∈ query.tables)
    (hmeta : env.tabs tab = some tabMeta) (hlen : query.tables.length ≠ 1)
    (hfound : ∀ target ∈ tableProjection query tab, env.HasCol target) :
    ∃ recs : List Bytes, (recs.map (tab, ·)).Perm (query.passed env tab) ∧
      (¬query.PassesNull env tab → Delivers env (Query.scanPlan env query tab) (query.pushedCols tab (env.header tab))
        (recs.map fun rec_ => query.pushed tab (env.tuple (tab, rec_)))) ∧
      (query.PassesNull env tab → (Query.scanPlan env query tab).run env = .ok [none]) := by
  have hdelivers : ∀ recs : List Bytes, (Query.scanPlan env query tab).run env =
      .ok (recs.map fun rec_ => some (query.pushed tab (env.tuple (tab, rec_)))) →
      Delivers env (Query.scanPlan env query tab) (query.pushedCols tab (env.header tab))
        (recs.map fun rec_ => query.pushed tab (env.tuple (tab, rec_))) := by
    intro recs hrun
    refine ⟨scanPlan_cols hmeta hfound, ?_, fun tuple htuple => ?_⟩
    · rw [hrun, List.map_map]
      rfl
    · obtain ⟨rec_, -, rfl⟩ := List.mem_map.mp htuple
      exact pushed_header
  cases hjoin : query.hasJoin with
  | true =>
    have hjoins : query.joins = true := by simp [joins, hjoin, hlen]
    obtain ⟨recs, hperm, hrows⟩ := h.scanRows_join hacc htab hmeta hjoins
    have hrun := project_run query tab (Plan.scan_run hmeta hrows)
    have hplan : Query.scanPlan env query tab = project query tab
        (.scan tab (getIndexCols tab tabMeta (query.handed tab)) [] (query.handed tab)) := by
      unfold Query.scanPlan
      rw [hmeta, hjoin]
      rfl
    rw [← hplan] at hrun
    refine ⟨recs, hperm, fun hsome => hdelivers recs ?_, fun hnull => ?_⟩
    · rw [hrun, if_neg fun hall => hsome ⟨hjoins, hall.1, hall.2.1, hall.2.2⟩, List.map_map, List.map_map]
      rfl
    · rw [hrun, if_pos ⟨hnull.handed, hnull.records, hnull.passed⟩]
      rfl
  | false =>
    have hjoins : query.joins = false := by simp [joins, hjoin]
    obtain ⟨recs, hperm, hrows⟩ := h.scanRows_from hacc htab hmeta hjoins
    have hrun := project_run query tab (Plan.scan_run hmeta hrows)
    have hplan : Query.scanPlan env query tab = project query tab
        (.scan tab (getIndexCols tab tabMeta (query.handed tab)) (query.handed tab)
          (if getIndexCols tab tabMeta (query.handed tab) = none then query.handed tab else [])) := by
      unfold Query.scanPlan
      rw [hmeta, hjoin]
      rfl
    rw [← hplan] at hrun
    refine ⟨recs, hperm, fun _ => hdelivers recs ?_, fun hnull => ?_⟩
    · rw [hrun, List.map_map, List.map_map]
      rfl
    · have hcontra := hnull.joins
      rw [hjoins] at hcontra
      cases hcontra

end Query
end

/-! ### The conditions of the query -/

namespace Query

section
variable {env : Env} {query : Query} {cells : Row → Tuple} {rows : String → List Row} {cond : Condition}
  {tabs before : List String} {tab : String} {c : List Row} {row : Row}

theorem hasCol_of_columnOf {col : TabCol} {colMeta : ColMeta} (h : Analyze.columnOf env.tabs col = .ok colMeta) :
    env.HasCol col := by
  cases htab : env.tabs col.tabName with
  | none =>
    rw [Analyze.columnOf, Analyze.getTable, htab] at h
    cases h
  | some tabMeta =>
    have hfind := find?_of_columnOf htab rfl h
    refine ⟨tabMeta, htab, colMeta, List.mem_of_find?_eq_some hfind, ?_⟩
    simpa using List.find?_some hfind

theorem hasCol_of_checkClause {tabNames : List String} {conds₀ conds : List Condition}
    (hcheck : Analyze.checkClause env.tabs tabNames conds₀ = .ok conds) (hcond : cond ∈ conds) {col : TabCol}
    (hcol : col ∈ condCols cond) : env.HasCol col := by
  obtain ⟨lhs, hchecked⟩ := checkClause_checked hcheck hcond
  unfold condCols at hcol
  cases hrhs : cond.rhs with
  | val val raw =>
    rw [hrhs, List.mem_singleton] at hcol
    rw [hcol]
    exact hasCol_of_columnOf hchecked.column
  | col rhsCol =>
    obtain ⟨rhs, hcolumn⟩ := hchecked.col rhsCol hrhs
    rw [hrhs, List.mem_cons, List.mem_singleton] at hcol
    rcases hcol with rfl | rfl
    · exact hasCol_of_columnOf hchecked.column
    · exact hasCol_of_columnOf hcolumn

theorem lhsCol_mem_condCols (cond : Condition) : cond.lhsCol ∈ condCols cond := by
  unfold condCols
  cases cond.rhs with
  | val val raw => exact List.mem_cons_self
  | col rhsCol => exact List.mem_cons_self

theorem tabName_of_crossTable (h : crossTable cond = false) {col : TabCol} (hcol : col ∈ condCols cond) :
    col.tabName = cond.lhsCol.tabName := by
  unfold crossTable at h
  unfold condCols at hcol
  cases hrhs : cond.rhs with
  | val val raw =>
    rw [hrhs, List.mem_singleton] at hcol
    rw [hcol]
  | col rhsCol =>
    rw [hrhs, decide_eq_false_iff_not, not_not] at h
    rw [hrhs, List.mem_cons, List.mem_singleton] at hcol
    rcases hcol with rfl | rfl
    · rfl
    · exact h.symm

/-- Cells of rows that the executors hand on, as far as anyone looks at them. -/
structure Faithful (env : Env) (query : Query) (cells : Row → Tuple) : Prop where
  ofTable : OfTable cells
  agrees : ∀ row col, query.Needs col → getCell (cells row) col = getCell (env.tuple row) col

theorem faithful_tuple (env : Env) (query : Query) : Faithful env query env.tuple :=
  ⟨ofTable_tuple env, fun _ _ _ => rfl⟩

theorem faithful_pushed (env : Env) (query : Query) :
    Faithful env query fun row => query.pushed row.1 (env.tuple row) :=
  ⟨ofTable_pushed env query, fun _ _ h => getCell_pushed h⟩

/-- A needed column is found in the row of its table, with the bytes of its type. -/
theorem Faithful.find (hcells : Faithful env query cells) (hacc : query.Accepted env) {col : TabCol} {type : ColType}
    (hneeds : query.Needs col) (htype : env.colType col = some type) (hmem : col.tabName ∈ query.tables)
    (hrows : ∀ tab, ∀ row ∈ rows tab, row.1 = tab)
    (hstores : ∀ row ∈ rows col.tabName, ∀ tabMeta, env.tabs col.tabName = some tabMeta → tabMeta.Stores row.2)
    (hnodup : tabs.Nodup) (htab : col.tabName ∈ tabs) (hc : c ∈ cross (tabs.map rows)) :
    ∃ cell, getCell (c.flatMap cells) col = some cell ∧ cell.1.type = type ∧ Sized cell := by
  have hkeys := map_fst_of_mem_cross hrows hc
  rw [← hkeys] at hnodup htab
  obtain ⟨row, hrow, hfst⟩ := List.mem_map.mp htab
  obtain ⟨l, hl, hin⟩ := mem_of_mem_cross hc hrow
  obtain ⟨tab, -, rfl⟩ := List.mem_map.mp hl
  obtain rfl : tab = col.tabName := (hrows tab row hin).symm.trans hfst
  obtain ⟨tabMeta, hmeta⟩ := hacc.known _ hmem
  unfold Env.colType at htype
  rw [hmeta, Option.bind_some, Option.map_eq_some_iff] at htype
  obtain ⟨colMeta, hfind, rfl⟩ := htype
  refine ⟨({ colMeta with tabName := col.tabName }, colMeta.field row.2), ?_, rfl,
    (hstores row hin tabMeta hmeta).sized _ (List.mem_of_find?_eq_some hfind)⟩
  have htuple : env.tuple row = tabMeta.tuple col.tabName row.2 := by
    rw [← Env.tuple_eq hmeta, ← hfst]
  rw [hcells.ofTable.getCell_flatMap hnodup hrow hfst, hcells.agrees _ col hneeds, htuple, TabMeta.getCell_tuple rfl, hfind]
  rfl

/-- A join compares columns of one type as the condition means it. -/
theorem comparesOn (hacc : query.Accepted env) (hcells : Faithful env query cells)
    (hrows : ∀ tab, ∀ row ∈ rows tab, row.1 = tab)
    (hstores : ∀ tab ∈ query.tables, ∀ row ∈ rows tab, ∀ tabMeta, env.tabs tab = some tabMeta → tabMeta.Stores row.2)
    (hcond : cond ∈ query.joinConds) (hnodup : tabs.Nodup) (hsub : tabs ⊆ query.tables)
    (hbetween : between tabs cond = true) (htype : SameType env cond) (hc : c ∈ cross (tabs.map rows)) :
    cond.ComparesOn (c.flatMap cells) := by
  obtain ⟨hcross, hin⟩ := between_iff.mp hbetween
  obtain ⟨rhsCol, hrhs, -⟩ := crossTable_eq_true.mp hcross
  have hcols : condCols cond = [cond.lhsCol, rhsCol] := by
    unfold condCols
    rw [hrhs]
  obtain ⟨type, hlhsType, hrhsType⟩ := htype rhsCol hrhs
  have hfind : ∀ col ∈ condCols cond, env.colType col = some type →
      ∃ cell, getCell (c.flatMap cells) col = some cell ∧ cell.1.type = type ∧ Sized cell := fun col hcol htype =>
    hcells.find hacc (.inr ⟨cond, hcond, hcol⟩) htype (hsub (hin col hcol)) hrows (hstores _ (hsub (hin col hcol)))
      hnodup (hin col hcol) hc
  obtain ⟨lhs, hlhs, hltype, hlsized⟩ := hfind cond.lhsCol (lhsCol_mem_condCols cond) hlhsType
  obtain ⟨rhs, hcell, hrtype, hrsized⟩ := hfind rhsCol (by rw [hcols]; exact List.mem_cons_of_mem _ List.mem_cons_self) hrhsType
  exact ⟨rhsCol, lhs, rhs, hrhs, hlhs, hcell, hltype.trans hrtype.symm, hlsized, hrsized⟩

/-! ### What the tables are handed -/

/-- The row meets what its table is handed. -/
def meetsHanded (env : Env) (query : Query) (row : Row) : Bool :=
  (query.handed row.1).all (·.holdsOn (env.tuple row))

theorem row_fst (env : Env) : ∀ tab, ∀ row ∈ env.rows tab, row.1 = tab := by
  intro tab row hrow
  obtain ⟨rec_, -, rfl⟩ := List.mem_map.mp hrow
  rfl

theorem passed_eq_filter : query.passed env tab = (env.rows tab).filter (query.meetsHanded env) := by
  refine List.filter_congr fun row hrow => ?_
  unfold meetsHanded
  rw [row_fst env tab row hrow]

/-- The combinations of the rows that pass. -/
theorem mem_cross_passed : c ∈ cross (tabs.map (query.passed env)) ↔
    c ∈ cross (tabs.map env.rows) ∧ ∀ row ∈ c, query.meetsHanded env row = true := by
  have hpassed : tabs.map (query.passed env) = (tabs.map env.rows).map (List.filter (query.meetsHanded env)) := by
    rw [List.map_map]
    exact List.map_congr_left fun tab _ => passed_eq_filter
  rw [hpassed, cross_filter, List.mem_filter, List.all_eq_true]

/-- The conditions that a scan comes to are about its table. -/
theorem ScanFits.within {tabMeta : TabMeta} (h : ScanFits env query tab tabMeta) {rec_ : Bytes}
    (hrec : rec_ ∈ env.records tab) (hcond : ComesTo (·.holdsOn (tabMeta.tuple tab rec_)) (query.handed tab) cond) :
    cond.within tab = true := by
  cases hjoins : query.joins with
  | true => exact (h.filter hjoins rec_ hrec cond hcond).1
  | false =>
    cases hindex : getIndexCols tab tabMeta (query.handed tab) with
    | none => exact (h.seqScan hjoins hindex rec_ hrec cond hcond).1
    | some names =>
      obtain ⟨index, ih, leaves, lower, upper, -, -, hfits⟩ := h.indexScan names hindex
      rw [hjoins, if_neg Bool.false_ne_true] at hfits
      obtain ⟨held, hheld, -⟩ := hfits.range
      exact IndexScanExecutor.within_of_heldConds hheld hcond.mem (mem_handed hcond.mem).2

/-- A condition about one table sees only the row of this table. -/
theorem holdsOn_flatMap (hnodup : (c.map (·.1)).Nodup) (hrow : row ∈ c) (hwithin : cond.within row.1 = true) :
    cond.holdsOn (c.flatMap env.tuple) = cond.holdsOn (env.tuple row) :=
  Condition.holdsOn_congr fun col hcol => (ofTable_tuple env).getCell_flatMap hnodup hrow
    (of_decide_eq_true (List.all_eq_true.mp hwithin col hcol)).symm

theorem within_of_crossTable (hcross : crossTable cond = false) : cond.within cond.lhsCol.tabName = true :=
  List.all_eq_true.mpr fun _ hcol => decide_eq_true (tabName_of_crossTable hcross hcol)

/-- A row of a combination that meets the conditions within tables meets what its table is handed, if the scan of the
first table comes to no condition about another one. -/
theorem meetsHanded_of_holdsOn (hacc : query.Accepted env) (hnodup : (c.map (·.1)).Nodup) (hrow : row ∈ c)
    (hmem : row ∈ env.rows row.1) (htab : row.1 ∈ query.tables)
    (hfits : query.tables.head? = some row.1 → ∀ tabMeta, env.tabs row.1 = some tabMeta → ScanFits env query row.1 tabMeta)
    (hmeets : ∀ cond ∈ query.conds, crossTable cond = false → cond.holdsOn (c.flatMap env.tuple) = true) :
    query.meetsHanded env row = true := by
  obtain ⟨tabMeta, hmeta⟩ := hacc.known row.1 htab
  obtain ⟨rec_, hrec, hpair⟩ := List.mem_map.mp hmem
  have htuple := Env.tuple_eq hmeta rec_
  rw [hpair] at htuple
  refine all_of_comesTo fun cond hcond => ?_
  obtain ⟨hconds, hcross⟩ := mem_handed hcond.mem
  have hwithin : cond.within row.1 = true := by
    have howned := (List.mem_filter.mp hcond.mem).2
    rw [Bool.and_eq_true] at howned
    cases hcol : isColCond cond with
    | true =>
      rw [hcol, if_pos rfl, decide_eq_true_eq] at howned
      rw [htuple] at hcond
      exact (hfits howned.2 tabMeta hmeta).within hrec hcond
    | false =>
      rw [hcol, if_neg Bool.false_ne_true, decide_eq_true_eq] at howned
      rw [← howned.2]
      exact within_of_crossTable hcross
  rw [← holdsOn_flatMap hnodup hrow hwithin]
  exact hmeets cond hconds hcross

/-- What the tables are handed is all there is within tables. -/
theorem holdsOn_of_meetsHanded (hnodup : (c.map (·.1)).Nodup) (htables : c.map (·.1) = query.tables)
    (hrows : ∀ row ∈ c, query.meetsHanded env row = true) (hcond : cond ∈ query.conds)
    (hwithin : ∀ col ∈ condCols cond, col.tabName ∈ query.tables) (hcross : crossTable cond = false) :
    cond.holdsOn (c.flatMap env.tuple) = true := by
  have hlhs := hwithin cond.lhsCol (lhsCol_mem_condCols cond)
  obtain ⟨row, hrow, hhanded⟩ : ∃ row ∈ c, cond ∈ query.handed row.1 := by
    cases hcol : isColCond cond with
    | true =>
      cases hc : c with
      | nil =>
        rw [← htables, hc] at hlhs
        cases hlhs
      | cons head rest =>
        refine ⟨head, List.mem_cons_self, List.mem_filter.mpr ⟨hcond, ?_⟩⟩
        rw [← htables, hc, hcross, hcol]
        simp
    | false =>
      rw [← htables] at hlhs
      obtain ⟨row, hrow, hfst⟩ := List.mem_map.mp hlhs
      refine ⟨row, hrow, List.mem_filter.mpr ⟨hcond, ?_⟩⟩
      rw [hcross, hcol]
      simp [hfst]
  have hholds := List.all_eq_true.mp (hrows row hrow) cond hhanded
  have hown : cond.lhsCol.tabName = row.1 := by
    cases hcell : getCell (env.tuple row) cond.lhsCol with
    | none =>
      unfold Condition.holdsOn at hholds
      rw [hcell] at hholds
      cases hholds
    | some cell =>
      obtain ⟨hin, htab⟩ := tabName_of_getCell hcell
      exact htab.symm.trans (ofTable_tuple env row cell hin)
  rw [holdsOn_flatMap hnodup hrow (hown ▸ within_of_crossTable hcross)]
  exact hholds

/-- The order of the tables does not matter to their conditions. -/
theorem meetsAll_perm {conds : List Condition} {tabs' : List String} (h : tabs.Perm tabs') :
    meetsAll cells conds tabs = meetsAll cells conds tabs' := by
  funext c
  rw [Bool.eq_iff_iff, meetsAll_iff, meetsAll_iff]
  simp only [between_iff, h.mem_iff]

theorem product_eq (hacc : query.Accepted env) :
    env.product query.tables = (cross (query.tables.map env.rows)).map (·.flatMap env.tuple) := by
  have htuples : query.tables.map env.tuples = (query.tables.map env.rows).map (List.map env.tuple) := by
    rw [List.map_map]
    refine List.map_congr_left fun tab htab => ?_
    obtain ⟨tabMeta, hmeta⟩ := hacc.known tab htab
    simp only [Env.tuples, hmeta, Function.comp_apply, Env.rows, List.map_map, Function.comp_def, Env.tuple_eq hmeta]
  unfold Env.product
  rw [htuples, cross_map, List.map_map]
  refine List.map_congr_left fun c _ => ?_
  rw [Function.comp_apply, List.flatMap_def]

theorem mem_joinConds : cond ∈ query.joinConds → cond ∈ query.conjuncts := by
  intro h
  unfold joinConds at h
  unfold conjuncts
  split at h
  · rename_i hjoin
    rw [if_pos hjoin]
    exact List.mem_append_right _ h
  · exact List.mem_append_left _ (List.mem_filter.mp h).1

theorem order_perm : (query.order env).Perm query.tables := by
  unfold order
  split
  · have hperm : (greedyOrder env.rowCount (query.tables.map fun tab => (tab, Plan.scan tab none [] []))).Perm _ :=
      greedyOrder_perm
    have hnames := hperm.map (·.1)
    rw [List.map_map] at hnames
    exact hnames.trans (.of_eq (List.map_id _))
  · exact .refl _

/-- What the scans and the joins check is what the query asks for. -/
theorem meets_eq (hacc : query.Accepted env) (hplanned : query.Planned env) (hcells : Faithful env query cells)
    (hhead : ∀ tab, query.tables.head? = some tab → ∀ tabMeta, env.tabs tab = some tabMeta → ScanFits env query tab tabMeta)
    (hc : c ∈ cross (query.tables.map env.rows)) :
    (c.all (query.meetsHanded env) && meetsAll cells query.joinConds query.tables c) =
      query.conjuncts.all (·.holdsOn (c.flatMap env.tuple)) := by
  have hkeys := map_fst_of_mem_cross (row_fst env) hc
  have hnodup : (c.map (·.1)).Nodup := by
    rw [hkeys]
    exact hplanned.nodup
  have hagrees : ∀ cond ∈ query.joinConds, cond.holdsOn (c.flatMap cells) = cond.holdsOn (c.flatMap env.tuple) :=
    fun cond hcond => Condition.holdsOn_congr fun col hcol =>
      getCell_flatMap_congr fun row _ => hcells.agrees row col (.inr ⟨cond, hcond, hcol⟩)
  rw [Bool.eq_iff_iff, Bool.and_eq_true, List.all_eq_true, meetsAll_iff, List.all_eq_true]
  constructor
  · rintro ⟨hrows, hjoins⟩
    have hproduct : c.flatMap env.tuple ∈ env.product query.tables := by
      rw [product_eq hacc]
      exact List.mem_map_of_mem hc
    refine hplanned.implied _ hproduct fun cond _ happlied => ?_
    unfold Applied at happlied
    cases hcross : crossTable cond with
    | true =>
      rw [if_pos hcross] at happlied
      have hcond : cond ∈ query.joinConds := by
        have hmem := happlied.1
        unfold joinConds
        cases hjoin : query.hasJoin with
        | true =>
          rw [hjoin] at hmem
          exact hmem
        | false =>
          rw [hjoin] at hmem
          exact List.mem_filter.mpr ⟨hmem, hcross⟩
      rw [← hagrees cond hcond]
      exact hjoins cond hcond (between_iff.mpr ⟨hcross, happlied.2⟩)
    | false =>
      rw [if_neg (by simp [hcross])] at happlied
      exact holdsOn_of_meetsHanded hnodup hkeys hrows happlied (hplanned.within cond happlied) hcross
  · intro h
    constructor
    · intro row hrow
      obtain ⟨l, hl, hin⟩ := mem_of_mem_cross hc hrow
      obtain ⟨tab, htab, rfl⟩ := List.mem_map.mp hl
      obtain rfl := row_fst env tab row hin
      exact meetsHanded_of_holdsOn hacc hnodup hrow hin htab (hhead row.1) fun cond hcond _ =>
        h cond (List.mem_append_left _ hcond)
    · intro cond hcond _
      rw [hagrees cond hcond]
      exact h cond (mem_joinConds hcond)

/-- If the tables in front leave nothing, the query asks for nothing. -/
theorem answer_eq_nil (hacc : query.Accepted env) (hplanned : query.Planned env) (hbefore : before.Nodup)
    (hsub : before ⊆ query.tables) (hhead : ∀ tab, query.tables.head? = some tab → tab ∉ before)
    (hnil : query.combined env before = []) : query.answer env = [] := by
  unfold answer
  rw [product_eq hacc, List.map_eq_nil_iff, List.filter_eq_nil_iff]
  intro tuple htuple hholds
  obtain ⟨c, hc, rfl⟩ := List.mem_map.mp htuple
  rw [List.all_eq_true] at hholds
  have hkeys := map_fst_of_mem_cross (row_fst env) hc
  have hnodup : (c.map (·.1)).Nodup := by
    rw [hkeys]
    exact hplanned.nodup
  obtain ⟨c', hc', hrows, hcell⟩ := exists_restrict (ofTable_tuple env) (row_fst env) hplanned.nodup hbefore hsub hc
  refine List.eq_nil_iff_forall_not_mem.mp hnil c' (mem_joined.mpr ⟨mem_cross_passed.mpr ⟨hc', fun row hrow => ?_⟩, ?_⟩)
  · obtain ⟨l, hl, hin⟩ := mem_of_mem_cross hc' hrow
    obtain ⟨tab, htab, rfl⟩ := List.mem_map.mp hl
    obtain rfl := row_fst env tab row hin
    exact meetsHanded_of_holdsOn hacc hnodup (hrows hrow) hin (hsub htab) (fun heq => absurd htab (hhead _ heq))
      fun cond hcond _ => hholds cond (List.mem_append_left _ hcond)
  · intro cond hcond hbetween
    obtain ⟨-, hin⟩ := between_iff.mp hbetween
    rw [Condition.holdsOn_congr fun col hcol => hcell col (hin col hcol)]
    exact hholds cond (mem_joinConds hcond)

/-- A filter and a map in one, which may change the order. -/
private theorem filter_map_perm {α β : Type*} {l l' : List α} {p : α → Bool} {f : α → β}
    (h : (l.map fun a => if p a then some (f a) else none).Perm (l'.map fun a => if p a then some (f a) else none)) :
    ((l.filter p).map f).Perm ((l'.filter p).map f) := by
  have hfilter : ∀ l : List α, (l.filter p).map f = (l.map fun a => if p a then some (f a) else none).filterMap id := by
    intro l
    induction l with
    | nil => rfl
    | cons a l ih =>
      rw [List.filter_cons, List.map_cons]
      cases p a with
      | true =>
        rw [if_pos rfl, if_pos rfl, List.map_cons, ih]
        rfl
      | false => rw [if_neg (by simp), if_neg (by simp), List.filterMap_cons_none rfl, ih]
  rw [hfilter, hfilter]
  exact h.filterMap id

/-- What is above the scans is a combination of rows that pass. -/
theorem mem_combined (hcells : Faithful env query cells)
    (hperm : ∀ tab ∈ query.tables, (rows tab).Perm (query.passed env tab)) (hsub : tabs ⊆ query.tables) :
    c ∈ joined rows cells query.joinConds tabs ↔ c ∈ query.combined env tabs :=
  mem_joined_congr (fun tab htab _ => (hperm tab (hsub htab)).mem_iff)
    fun cond hcond col hcol row => hcells.agrees row col (.inr ⟨cond, hcond, hcol⟩)

/-- The order of the tables does not matter. -/
theorem joined_perm {conds : List Condition} {cols : List TabCol} {tabs' : List String} (hcells : OfTable cells)
    (hrows : ∀ tab, ∀ row ∈ rows tab, row.1 = tab) (hnodup : tabs'.Nodup) (h : tabs.Perm tabs') :
    ((joined rows cells conds tabs).map fun c => projectTuple cols (c.flatMap cells)).Perm
      ((joined rows cells conds tabs').map fun c => projectTuple cols (c.flatMap cells)) := by
  let found (c : List Row) : Option Tuple :=
    if meetsAll cells conds tabs' c then some (projectTuple cols (c.flatMap cells)) else none
  have hentries := h.map fun tab => (tab, rows tab)
  have hkeys : ((tabs.map fun tab => (tab, rows tab)).map (·.1)).Nodup := by
    rw [List.map_map]
    exact (List.map_id tabs).symm ▸ h.nodup_iff.mpr hnodup
  have hkey : ∀ entry ∈ tabs.map fun tab => (tab, rows tab), ∀ row ∈ entry.2, row.1 = entry.1 := by
    intro entry hentry
    obtain ⟨tab, -, rfl⟩ := List.mem_map.mp hentry
    exact hrows tab
  have hreorder := cross_reorder hentries hkeys (·.1) hkey (f := found) fun s x y q hne => by
    have hcell : ∀ col, getCell ((s ++ x :: y :: q).flatMap cells) col =
        getCell ((s ++ y :: x :: q).flatMap cells) col := fun col => hcells.getCell_swap s q hne
    have hmeets : meetsAll cells conds tabs' (s ++ x :: y :: q) = meetsAll cells conds tabs' (s ++ y :: x :: q) := by
      unfold meetsAll
      simp only [Condition.holdsOn_congr fun col _ => hcell col]
    dsimp only [found]
    rw [hmeets, projectTuple_congr fun col _ => hcell col]
  rw [List.map_map, List.map_map] at hreorder
  unfold joined
  rw [meetsAll_perm h]
  exact filter_map_perm hreorder

/-- In whatever order the tables are joined, the rows are those of the query. -/
theorem answer_perm (hacc : query.Accepted env) (hplanned : query.Planned env) (hcells : Faithful env query cells)
    (hrows : ∀ tab, ∀ row ∈ rows tab, row.1 = tab)
    (hperm : ∀ tab ∈ query.tables, (rows tab).Perm (query.passed env tab)) :
    (((joined rows cells query.joinConds (query.order env)).map (·.flatMap cells)).map (projectTuple query.cols)).Perm
      (query.answer env) := by
  have horder : (query.order env).Perm query.tables := order_perm
  -- the scan of the first table in the list is started, or nothing is left for it
  by_cases hhead : ∀ tab, query.tables.head? = some tab → ∀ tabMeta, env.tabs tab = some tabMeta →
      ScanFits env query tab tabMeta
  · have hscans : (cross (query.tables.map rows)).Perm
        ((cross (query.tables.map env.rows)).filter fun c => c.all (query.meetsHanded env)) := by
      rw [← cross_filter, List.map_map]
      refine cross_perm ?_
      rw [List.forall₂_map_left_iff, List.forall₂_map_right_iff, List.forall₂_same]
      intro tab htab
      exact (hperm tab htab).trans (.of_eq passed_eq_filter)
    rw [List.map_map]
    refine (joined_perm hcells.ofTable hrows hplanned.nodup horder).trans ?_
    unfold joined answer
    rw [product_eq hacc, List.filter_map, List.map_map]
    refine ((hscans.filter _).map _).trans (.of_eq ?_)
    rw [List.filter_filter]
    have hkept : ((cross (query.tables.map env.rows)).filter fun c =>
        meetsAll cells query.joinConds query.tables c && c.all (query.meetsHanded env)) =
        (cross (query.tables.map env.rows)).filter fun c => query.conjuncts.all (·.holdsOn (c.flatMap env.tuple)) := by
      refine List.filter_congr fun c hc => ?_
      rw [Bool.and_comm]
      exact meets_eq hacc hplanned hcells hhead hc
    rw [hkept]
    refine List.map_congr_left fun c _ => ?_
    exact projectTuple_congr fun col hcol =>
      getCell_flatMap_congr fun row _ => hcells.agrees row col (.inl hcol)
  · rw [not_forall] at hhead
    obtain ⟨tab, hhead⟩ := hhead
    rw [Classical.not_imp] at hhead
    obtain ⟨htab, hfits⟩ := hhead
    obtain ⟨before, after, hsplit⟩ := List.append_of_mem (horder.mem_iff.mpr (List.mem_of_mem_head? htab))
    have hnodup := horder.nodup_iff.mpr hplanned.nodup
    rw [hsplit] at hnodup
    have hnil : query.combined env before = [] := by
      by_contra hsome
      exact hfits (hplanned.scans before tab after hsplit (.inr (.inl hsome)))
    have hbefore : before.Nodup := (List.nodup_append.mp hnodup).1
    have hsub : before ⊆ query.tables := fun t ht =>
      horder.subset (hsplit ▸ List.mem_append_left _ ht)
    have hjoined : joined rows cells query.joinConds before = [] := by
      rw [List.eq_nil_iff_forall_not_mem] at hnil ⊢
      exact fun c hc => hnil c ((mem_combined hcells hperm hsub).mp hc)
    rw [answer_eq_nil hacc hplanned hbefore hsub (fun tab' htab' => ?_) hnil,
      joined_eq_nil hcells.ofTable hrows (horder.nodup_iff.mpr hplanned.nodup) hbefore
        (fun t ht => hsplit ▸ List.mem_append_left _ ht) hjoined]
    · rfl
    · rw [htab] at htab'
      cases htab'
      exact fun hin => (List.nodup_append.mp hnodup).2.2 tab hin tab List.mem_cons_self rfl

end

/-! ### The plan of the query -/

section
variable {env : Env} {query : Query} {tab : String} {tabMeta : TabMeta}

/-- Several tables are joined one after another, with the conditions between them. -/
theorem physicalOptimization_eq (hacc : query.Accepted env) (hnodup : query.tables.Nodup)
    (hlen : query.tables.length ≠ 1)
    (hwithin : query.hasJoin = false → ∀ cond ∈ query.conds, ∀ col ∈ condCols cond, col.tabName ∈ query.tables) :
    ∃ tab rest, query.order env = tab :: rest ∧ physicalOptimization env.tabs env.rowCount query =
      .ok (joinOn query.joinConds (scanPlan env query tab) [tab] (rest.map fun tab => (tab, scanPlan env query tab))) := by
  have hrel : physicalOptimization env.tabs env.rowCount query = makeOneRel env.tabs env.rowCount query := by
    unfold physicalOptimization
    split
    · rename_i heq
      rw [heq] at hlen
      exact absurd rfl hlen
    · rfl
  have hmapM : ∀ f : String × List Condition → Except DbError (String × Plan),
      (∀ tab ∈ query.tables, f (tab, query.handed tab) = .ok (tab, scanPlan env query tab)) →
      (popConds query.tables query.conds).1.mapM f = .ok (query.tables.map fun tab => (tab, scanPlan env query tab)) := by
    intro f hf
    rw [popConds_fst hnodup, List.mapM_map]
    exact mapM_eq_map hf
  rw [hrel, makeOneRel]
  cases hjoin : query.hasJoin with
  | true =>
    rw [if_pos rfl, buildJoinPlan]
    dsimp only
    rw [hmapM _ fun tab htab => ?_]
    · dsimp only [bind, Except.bind]
      have horder : (if useGreedy env.rowCount query.tables query.onConds then
          greedyOrder env.rowCount (query.tables.map fun tab => (tab, scanPlan env query tab))
          else query.tables.map fun tab => (tab, scanPlan env query tab)) =
          (query.order env).map fun tab => (tab, scanPlan env query tab) := by
        unfold order
        rw [hjoin, Bool.true_and]
        split
        · have hmap : greedyOrder env.rowCount ((query.tables.map fun tab => (tab, Plan.scan tab none [] [])).map
              fun entry => (entry.1, scanPlan env query entry.1)) = _ := greedyOrder_map fun _ => rfl
          rw [List.map_map] at hmap
          rw [List.map_map]
          exact hmap
        · rfl
      rw [horder]
      cases hlist : query.order env with
      | nil => exact absurd (List.nil_perm.mp (hlist ▸ order_perm)) hacc.tables
      | cons tab rest =>
        refine ⟨tab, rest, rfl, ?_⟩
        rw [joinConds, if_pos hjoin]
        rfl
    · obtain ⟨tabMeta, hmeta⟩ := hacc.known tab htab
      unfold scanPlan
      rw [joinScan, Analyze.getTable, hmeta, hjoin]
      rfl
  | false =>
    have hwithin := hwithin hjoin
    rw [if_neg Bool.false_ne_true]
    dsimp only
    rw [hmapM _ fun tab htab => ?_]
    · have hrest : (popConds query.tables query.conds).2 = query.conds.filter crossTable :=
        popConds_snd fun cond hcond _ => .inr (hwithin cond hcond cond.lhsCol (lhsCol_mem_condCols cond))
      rw [hrest]
      dsimp only [bind, Except.bind]
      have horder : query.order env = query.tables := by
        unfold order
        rw [hjoin]
        rfl
      rw [horder]
      cases htables : query.tables with
      | nil => exact absurd htables hacc.tables
      | cons tab rest =>
        refine ⟨tab, rest, rfl, ?_⟩
        have hall : (query.conds.filter crossTable).filter (fun cond => !between [tab] cond) =
            query.conds.filter crossTable := List.filter_eq_self.mpr fun cond _ => by simp [between_singleton]
        have hkeys : [tab] ++ (rest.map fun tab => (tab, scanPlan env query tab)).map (·.1) = query.tables := by
          rw [List.map_map, htables]
          exact congrArg (tab :: ·) (List.map_id rest)
        have hjoins : joinFrom ((query.conds.filter crossTable).filter fun cond => !between [tab] cond)
            (scanPlan env query tab) [tab] (rest.map fun tab => (tab, scanPlan env query tab)) = _ := joinFrom_eq_joinOn (by
            rw [hkeys]
            exact hnodup) (by
            intro cond hcond
            obtain ⟨hcond, hcross⟩ := List.mem_filter.mp hcond
            rw [hkeys]
            exact between_iff.mpr ⟨hcross, hwithin cond hcond⟩)
        rw [hall] at hjoins
        rw [joinConds, hjoin, if_neg Bool.false_ne_true, ← hjoins]
        rfl
    · obtain ⟨tabMeta, hmeta⟩ := hacc.known tab htab
      unfold scanPlan
      rw [fromScan, Analyze.getTable, hmeta, hjoin]
      rfl

/-- What stands below the last projection: it has the columns of the SELECT list and returns the combinations that the
joins keep. -/
def Joins (env : Env) (query : Query) (plan : Plan) : Prop :=
  ∃ header, ∃ cells : Row → Tuple, ∃ rows : String → List Row,
    (∀ col ∈ query.cols, (header.find? (TableCol.is col)).isSome) ∧
    Delivers env plan header ((joined rows cells query.joinConds (query.order env)).map (·.flatMap cells)) ∧
    Faithful env query cells ∧ (∀ tab, ∀ row ∈ rows tab, row.1 = tab) ∧
    ∀ tab ∈ query.tables, (rows tab).Perm (query.passed env tab)

theorem joins_single (hacc : query.Accepted env) (hplanned : query.Planned env) (htables : query.tables = [tab]) :
    ∃ plan, physicalOptimization env.tabs env.rowCount query = .ok plan ∧ query.Joins env plan := by
  have htab : tab ∈ query.tables := by
    rw [htables]
    exact List.mem_cons_self
  obtain ⟨tabMeta, hmeta⟩ := hacc.known tab htab
  have hhanded : query.handed tab = query.conds := by
    refine List.filter_eq_self.mpr fun cond hcond => ?_
    have hin : ∀ col ∈ condCols cond, col.tabName = tab := fun col hcol =>
      List.mem_singleton.mp (htables ▸ hplanned.within cond hcond col hcol)
    have hcross : crossTable cond = false := by
      cases hcross : crossTable cond with
      | false => rfl
      | true =>
        have hbetween : between [tab] cond = true :=
          between_iff.mpr ⟨hcross, fun col hcol => List.mem_singleton.mpr (hin col hcol)⟩
        rw [between_singleton] at hbetween
        cases hbetween
    simp [hcross, htables, hin _ (lhsCol_mem_condCols cond)]
  have horder : query.order env = [tab] := List.perm_singleton.mp (htables ▸ order_perm)
  have hjoins : query.joins = false := by simp [joins, htables]
  obtain ⟨recs, hperm, hrecs⟩ :=
    (hplanned.scans [] tab [] horder (.inl rfl) tabMeta hmeta).scanRows_from hacc htab hmeta hjoins
  rw [hhanded] at hrecs
  have hplan : physicalOptimization env.tabs env.rowCount query =
      .ok (.scan tab (getIndexCols tab tabMeta query.conds) query.conds
        (if getIndexCols tab tabMeta query.conds = none then query.conds else [])) := by
    unfold physicalOptimization
    rw [htables]
    dsimp only
    rw [Analyze.getTable, hmeta]
    rfl
  let rows (tab' : String) : List Row := if tab' = tab then recs.map fun rec_ => (tab, rec_) else []
  have hrows : rows tab = recs.map fun rec_ => (tab, rec_) := if_pos rfl
  refine ⟨_, hplan, env.header tab, env.tuple, rows, ?_, ?_, faithful_tuple env query, ?_, ?_⟩
  · intro col hcol
    obtain ⟨hin, hhas⟩ := hplanned.selected col hcol
    rw [htables, List.mem_singleton] at hin
    exact hin ▸ hhas.find
  · rw [horder, joined_singleton, hrows, List.map_map]
    refine ⟨Plan.scan_cols hmeta, ?_, fun tuple htuple => ?_⟩
    · rw [Plan.scan_run hmeta hrecs, List.map_map, List.map_map]
      rfl
    · obtain ⟨rec_, -, rfl⟩ := List.mem_map.mp htuple
      exact env.tuple_header (tab, rec_)
  · intro tab' row hrow
    dsimp only [rows] at hrow
    split at hrow
    · rename_i heq
      obtain ⟨rec_, -, rfl⟩ := List.mem_map.mp hrow
      exact heq.symm
    · cases hrow
  · intro tab' htab'
    rw [htables, List.mem_singleton] at htab'
    rw [htab', hrows]
    exact hperm

/-- The columns that the projections above the scans take are there. -/
theorem hasCol_of_mem_tableProjection (hplanned : query.Planned env) (htab : tab ∈ query.tables) {col : TabCol}
    (hcol : col ∈ tableProjection query tab) : env.HasCol col := by
  obtain ⟨rfl, hall, hcol | ⟨cond, hcond, hcol⟩⟩ := of_mem_tableProjection hcol
  · exact (hplanned.selected col hcol).2
  · exact hplanned.projected hall cond hcond col hcol htab

/-- The cells of a row as the scan of its table passes them on. -/
def cells (env : Env) (query : Query) (row : Row) : Tuple := query.pushed row.1 (env.tuple row)

/-- The columns that the scan of a table passes on. -/
def header (env : Env) (query : Query) (tab : String) : List TableCol := query.pushedCols tab (env.header tab)

/-- The rows that the scans pass on, as far as they are started. -/
structure Scanned (env : Env) (query : Query) (rows : String → List Row) : Prop where
  fst : ∀ tab, ∀ row ∈ rows tab, row.1 = tab
  perm : ∀ tab ∈ query.tables, (rows tab).Perm (query.passed env tab)
  delivers : ∀ before tab after, query.order env = before ++ tab :: after → query.Starts env before →
    ¬query.PassesNull env tab → Delivers env (scanPlan env query tab) (query.header env tab)
      ((rows tab).map (query.cells env))
  null : ∀ before tab after, query.order env = before ++ tab :: after → query.Starts env before →
    query.PassesNull env tab → (scanPlan env query tab).run env = .ok [none]

theorem exists_scanned (hacc : query.Accepted env) (hplanned : query.Planned env) (hlen : query.tables.length ≠ 1) :
    ∃ rows, Scanned env query rows := by
  have hscan : ∀ tab ∈ query.tables, ∃ recs : List Bytes, (recs.map (tab, ·)).Perm (query.passed env tab) ∧
      ((∀ tabMeta, env.tabs tab = some tabMeta → ScanFits env query tab tabMeta) →
        (¬query.PassesNull env tab → Delivers env (scanPlan env query tab) (query.pushedCols tab (env.header tab))
          (recs.map fun rec_ => query.pushed tab (env.tuple (tab, rec_)))) ∧
        (query.PassesNull env tab → (scanPlan env query tab).run env = .ok [none])) := by
    intro tab htab
    obtain ⟨tabMeta, hmeta⟩ := hacc.known tab htab
    by_cases hfits : ScanFits env query tab tabMeta
    · obtain ⟨recs, hrecs, hdelivers⟩ := hfits.scanPlan hacc htab hmeta hlen fun _ htarget =>
        hasCol_of_mem_tableProjection hplanned htab htarget
      exact ⟨recs, hrecs, fun _ => hdelivers⟩
    · rw [passed_eq hmeta]
      exact ⟨_, .refl _, fun h => absurd (h tabMeta hmeta) hfits⟩
  choose! recs hrecs hdelivers using hscan
  have hmem : ∀ before tab after, query.order env = before ++ tab :: after → tab ∈ query.tables :=
    fun before tab after hsplit => order_perm.subset (hsplit ▸ List.mem_append_right before List.mem_cons_self)
  refine ⟨fun tab => (recs tab).map (tab, ·), fun tab row hrow => ?_, hrecs, ?_, ?_⟩
  · obtain ⟨rec_, -, rfl⟩ := List.mem_map.mp hrow
    rfl
  · intro before tab after hsplit hstarts hsome
    rw [List.map_map]
    exact (hdelivers tab (hmem before tab after hsplit) (hplanned.scans before tab after hsplit hstarts)).1 hsome
  · intro before tab after hsplit hstarts hnull
    exact (hdelivers tab (hmem before tab after hsplit) (hplanned.scans before tab after hsplit hstarts)).2 hnull

section
variable {rows : String → List Row} (hacc : query.Accepted env) (hplanned : query.Planned env)
  (hscanned : Scanned env query rows)
include hscanned

theorem Scanned.mem_joined {tabs : List String} (hsub : tabs ⊆ query.tables) (c : List Row) :
    c ∈ joined rows (query.cells env) query.joinConds tabs ↔ c ∈ query.combined env tabs :=
  mem_combined (faithful_pushed env query) hscanned.perm hsub

theorem Scanned.joined_eq_nil {tabs : List String} (hsub : tabs ⊆ query.tables) :
    joined rows (query.cells env) query.joinConds tabs = [] ↔ query.combined env tabs = [] := by
  simp only [List.eq_nil_iff_forall_not_mem, hscanned.mem_joined hsub]

include hacc hplanned

/-- Wherever a join comes to a condition, it compares columns of one type. -/
theorem Scanned.comparesOn {before after : List String} {c : List Row} {row : Row} {cond : Condition}
    (hsplit : query.order env = before ++ tab :: after) (hc : c ∈ joined rows (query.cells env) query.joinConds before)
    (hrow : row ∈ rows tab) (hcond : ComesTo (·.holdsOn ((c ++ [row]).flatMap (query.cells env)))
      (query.joinConds.filter (connects tab before)) cond) :
    cond.ComparesOn ((c ++ [row]).flatMap (query.cells env)) := by
  have hcells : Faithful env query (query.cells env) := faithful_pushed env query
  have hnodup : (query.order env).Nodup := order_perm.nodup_iff.mpr hplanned.nodup
  have hsub : before ++ [tab] ⊆ query.tables := by
    intro t ht
    refine order_perm.subset (hsplit ▸ ?_ : t ∈ query.order env)
    rw [List.append_cons before tab after]
    exact List.mem_append_left _ ht
  have hnew : (before ++ [tab]).Nodup := by
    rw [hsplit, List.append_cons before tab after] at hnodup
    exact (List.nodup_append.mp hnodup).1
  have htab : tab ∉ before := fun h => (List.nodup_append.mp hnew).2.2 tab h tab List.mem_cons_self rfl
  obtain ⟨hmem, hconnects⟩ := List.mem_filter.mp hcond.mem
  rw [connects_eq htab, Bool.and_eq_true] at hconnects
  have hcross : c ++ [row] ∈ cross ((before ++ [tab]).map rows) := by
    rw [List.map_append, List.map_singleton, cross_concat, List.mem_flatMap]
    exact ⟨c, (Rmdb.mem_joined.mp hc).1, List.mem_map_of_mem hrow⟩
  have hcomes : ComesTo (·.holdsOn ((c ++ [row]).flatMap env.tuple))
      (query.joinConds.filter (connects tab before)) cond := hcond.congr fun other hother =>
    Condition.holdsOn_congr fun col hcol => getCell_flatMap_congr fun row _ =>
      hcells.agrees row col (.inr ⟨other, (List.mem_filter.mp hother).1, hcol⟩)
  have hbefore : before ⊆ query.tables := fun t ht => hsub (List.mem_append_left _ ht)
  have hin : tab ∈ query.tables := hsub (List.mem_append_right _ List.mem_cons_self)
  have hstores : ∀ tab ∈ query.tables, ∀ row ∈ rows tab, ∀ tabMeta, env.tabs tab = some tabMeta →
      tabMeta.Stores row.2 := by
    intro tab htab row hrow tabMeta hmeta
    obtain ⟨rec_, hrec, rfl⟩ := List.mem_map.mp (List.mem_filter.mp ((hscanned.perm tab htab).subset hrow)).1
    exact hacc.stores htab hmeta hrec
  exact Query.comparesOn hacc hcells hscanned.fst hstores hmem hnew hsub hconnects.2
    (hplanned.compared before tab after hsplit c ((hscanned.mem_joined hbefore c).mp hc) row
      ((hscanned.perm tab hin).subset hrow) cond hcomes) hcross

/-- The joins of the tables after some are joined. -/
theorem Scanned.joinOn_delivers {plan : Plan} (lefts : List String) {rest : List String}
    (hsplit : query.order env = lefts ++ rest)
    (hlefts : lefts ≠ []) (hdone : Delivers env plan (lefts.flatMap (query.header env))
      ((joined rows (query.cells env) query.joinConds lefts).map (·.flatMap (query.cells env)))) :
    Delivers env (joinOn query.joinConds plan lefts (rest.map fun tab => (tab, scanPlan env query tab)))
      ((query.order env).flatMap (query.header env))
      ((joined rows (query.cells env) query.joinConds (query.order env)).map (·.flatMap (query.cells env))) := by
  refine Rmdb.joinOn_delivers (faithful_pushed env query).ofTable hscanned.fst hdone hlefts hsplit
    (order_perm.nodup_iff.mpr hplanned.nodup) (fun tab htab => ?_) ?_ fun before tab after hsplit c hc row hrow cond hcond =>
      hscanned.comparesOn hacc hplanned hsplit hc hrow hcond
  · have htab := order_perm.subset htab
    obtain ⟨tabMeta, hmeta⟩ := hacc.known tab htab
    exact scanPlan_cols hmeta fun _ htarget => hasCol_of_mem_tableProjection hplanned htab htarget
  · intro before tab after hsplit hbefore hleft
    have hsub : before ⊆ query.tables := fun t ht => order_perm.subset (hsplit ▸ List.mem_append_left _ ht)
    rw [ne_eq, hscanned.joined_eq_nil hsub] at hleft
    refine hscanned.delivers before tab after hsplit (.inr (.inl hleft)) fun hnull => ?_
    have hnil := hplanned.nulls before tab after hsplit hnull
    rw [if_neg hbefore] at hnil
    exact hleft hnil

/-- The null pointer of the first table meets no row of the second one. -/
theorem Scanned.joinOn_null {head : String} {rest : List String} (horder : query.order env = head :: rest)
    (hlen : query.tables.length ≠ 1) (hnull : query.PassesNull env head) :
    Delivers env
      (joinOn query.joinConds (scanPlan env query head) [head] (rest.map fun tab => (tab, scanPlan env query tab)))
      ((query.order env).flatMap (query.header env))
      ((joined rows (query.cells env) query.joinConds (query.order env)).map (·.flatMap (query.cells env))) := by
  cases rest with
  | nil =>
    have hlength : (query.order env).length = query.tables.length := order_perm.length_eq
    rw [horder] at hlength
    exact absurd hlength.symm hlen
  | cons next rest =>
    have hin : ∀ tab ∈ head :: next :: rest, tab ∈ query.tables := fun tab htab => order_perm.subset (horder ▸ htab)
    have hhead := hin head List.mem_cons_self
    have hnext := hin next (List.mem_cons_of_mem _ List.mem_cons_self)
    have hempty : env.records next = [] :=
      (if_pos rfl).mp (hplanned.nulls [] head (next :: rest) horder hnull) next rfl
    have hnextRows : rows next = [] := by
      have hperm := hscanned.perm next hnext
      unfold passed Env.rows at hperm
      rw [hempty] at hperm
      exact List.perm_nil.mp hperm
    have hheadRows : rows head = [] := by
      have hperm := hscanned.perm head hhead
      rw [hnull.passed] at hperm
      exact List.perm_nil.mp hperm
    have hright := hscanned.delivers [head] next rest horder (.inr (.inr ⟨head, rfl, hnull⟩)) fun h => h.records hempty
    rw [hnextRows] at hright
    obtain ⟨tabMeta, hmeta⟩ := hacc.known head hhead
    have hcols := scanPlan_cols hmeta fun _ htarget => hasCol_of_mem_tableProjection hplanned hhead htarget
    have hstart := Delivers.join_null (query.joinConds.filter (connects next [head])) hcols
      (hscanned.null [] head (next :: rest) horder (.inl rfl) hnull) hright
    rw [List.map_cons, joinOn]
    refine hscanned.joinOn_delivers hacc hplanned ([head] ++ [next]) horder (List.cons_ne_nil _ _) ?_
    have hnone : joined rows (query.cells env) query.joinConds ([head] ++ [next]) = [] := by
      refine List.eq_nil_iff_forall_not_mem.mpr fun c hc => ?_
      obtain ⟨hcross, -⟩ := Rmdb.mem_joined.mp hc
      rw [List.map_append, List.map_singleton, List.map_singleton, hheadRows] at hcross
      cases hcross
    rw [hnone, List.flatMap_append, List.flatMap_singleton, List.flatMap_singleton]
    exact hstart

end

theorem joins_several (hacc : query.Accepted env) (hplanned : query.Planned env) (hlen : query.tables.length ≠ 1) :
    ∃ plan, physicalOptimization env.tabs env.rowCount query = .ok plan ∧ query.Joins env plan := by
  obtain ⟨head, rest, horder, hplan⟩ := physicalOptimization_eq hacc hplanned.nodup hlen fun _ => hplanned.within
  obtain ⟨rows, hscanned⟩ := exists_scanned hacc hplanned hlen
  refine ⟨_, hplan, (query.order env).flatMap (query.header env), query.cells env, rows, fun col hcol => ?_, ?_,
    faithful_pushed env query, hscanned.fst, hscanned.perm⟩
  · obtain ⟨hin, hhas⟩ := hplanned.selected col hcol
    obtain ⟨found, hfound⟩ := Option.isSome_iff_exists.mp (find_pushedCols (.inl hcol) hhas)
    rw [List.find?_isSome]
    refine ⟨found, List.mem_flatMap.mpr ⟨col.tabName, order_perm.mem_iff.mpr hin, ?_⟩, List.find?_some hfound⟩
    exact List.mem_of_find?_eq_some hfound
  · by_cases hnull : query.PassesNull env head
    · exact hscanned.joinOn_null hacc hplanned horder hlen hnull
    · refine hscanned.joinOn_delivers hacc hplanned [head] horder (List.cons_ne_nil _ _) ?_
      rw [joined_singleton, List.flatMap_singleton]
      exact hscanned.delivers [] head rest horder (.inl rfl) hnull

/-- The last projection prints the rows that the plan below delivers. -/
theorem runSelect_eq (hacc : query.Accepted env) {plan : Plan} {header : List TableCol} {tuples : List Tuple}
    (hplan : physicalOptimization env.tabs env.rowCount query = .ok plan) (hdelivers : Delivers env plan header tuples)
    (hfound : ∀ col ∈ query.cols, (header.find? (TableCol.is col)).isSome) :
    runSelect env query = .ok (tuples.map (projectTuple query.cols)) := by
  have hproject := hdelivers.projection hacc.cols hfound
  unfold runSelect generateSelectPlan
  rw [hplan]
  dsimp only [bind, Except.bind, pure, Except.pure]
  rw [hproject.cols, hproject.run]
  dsimp only
  rw [List.reduceOption, List.filterMap_map]
  congr 1
  exact List.filterMap_some

/-- What the plan of a planned SELECT returns. -/
theorem runSelect_perm_answer (hacc : query.Accepted env) (hplanned : query.Planned env) :
    ∃ out, runSelect env query = .ok out ∧ out.Perm (query.answer env) := by
  obtain ⟨plan, hplan, header, cells, rows, hfound, hdelivers, hcells, hrows, hperm⟩ :
      ∃ plan, physicalOptimization env.tabs env.rowCount query = .ok plan ∧ query.Joins env plan := by
    by_cases hlen : query.tables.length = 1
    · obtain ⟨tab, htables⟩ := List.length_eq_one_iff.mp hlen
      exact joins_single hacc hplanned htables
    · exact joins_several hacc hplanned hlen
  exact ⟨_, runSelect_eq hacc hplan hdelivers hfound, answer_perm hacc hplanned hcells hrows hperm⟩

/-- A planned SELECT returns the rows that it asks for. -/
theorem preserved (hacc : query.Accepted env) (hplanned : query.Planned env) : query.Preserved env :=
  runSelect_perm_answer hacc hplanned

end

/-! ### Two tables with one row each -/

def pairTabs : String → Option TabMeta := fun tab =>
  if tab = "a" then some ⟨[⟨"x", .int, 4, 0⟩], [], List.cons_ne_nil _ _⟩
  else if tab = "b" then some ⟨[⟨"y", .int, 4, 0⟩], [], List.cons_ne_nil _ _⟩ else none

def pairEnv : Env := ⟨pairTabs, fun _ => none, fun _ => ⟨[⟨1, 0⟩], fun _ => some (wordBytes 1)⟩, fun _ => 1⟩

/-- `SELECT a.x FROM a JOIN b ON a.x = b.y` with a WHERE clause. -/
def pairQuery (conds : List Condition) : Query :=
  ⟨["a", "b"], conds, true, [⟨⟨"a", "x"⟩, .eq, .col ⟨"b", "y"⟩⟩], [⟨"a", "x"⟩], false⟩

/-- A SELECT over rows that hold the number 1 and nothing else. -/
theorem accepted_ones {env : Env} {query : Query} (htabs : env.tabs = pairTabs) (htables : query.tables = ["a", "b"])
    (hcols : query.cols ≠ []) (hslots : ∀ tab, (env.view tab).rids.Nodup)
    (hview : ∀ tab rid rec_, (env.view tab).getRecord rid = some rec_ → rec_ = wordBytes 1)
    (hcheck : ∃ conds₀, Analyze.checkClause pairTabs ["a", "b"] conds₀ = .ok query.conds)
    (hnumber : ∀ cond ∈ query.conds, ∀ f raw, cond.rhs ≠ .val (.float f) raw) : query.Accepted env := by
  have hknown : ∀ tab ∈ query.tables, ∃ tabMeta, env.tabs tab = some tabMeta ∧ tabMeta.Stores (wordBytes 1) := by
    intro tab htab
    rw [htabs]
    rw [htables] at htab
    rcases List.mem_cons.mp htab with rfl | htab
    · exact ⟨_, rfl, by decide⟩
    · rw [List.mem_singleton.mp htab]
      exact ⟨_, rfl, by decide⟩
  constructor
  · rw [htables]
    exact List.cons_ne_nil _ _
  · exact hcols
  · intro tab htab
    obtain ⟨tabMeta, hmeta, -⟩ := hknown tab htab
    exact ⟨tabMeta, hmeta⟩
  · rw [htables, htabs]
    exact hcheck
  · exact fun cond hcond f raw hrhs => absurd hrhs (hnumber cond hcond f raw)
  · exact fun tab _ => hslots tab
  · intro tab htab tabMeta hmeta rid rec_ hrec
    obtain ⟨tabMeta', hmeta', hstores⟩ := hknown tab htab
    rw [hmeta] at hmeta'
    cases hmeta'
    rw [hview tab rid rec_ hrec]
    exact hstores

private theorem pairQuery_accepted (conds₀ : List Condition) {conds : List Condition}
    (h : Analyze.checkClause pairTabs ["a", "b"] conds₀ = .ok conds)
    (hnumber : ∀ cond ∈ conds, ∀ f raw, cond.rhs ≠ .val (.float f) raw) : (pairQuery conds).Accepted pairEnv := by
  refine accepted_ones rfl rfl (List.cons_ne_nil _ _) (fun _ => List.nodup_singleton _) ?_ ⟨conds₀, h⟩ hnumber
  rintro tab rid _ ⟨⟩
  rfl

private theorem pair_hasCol {col : TabCol} (h : col = ⟨"a", "x"⟩ ∨ col = ⟨"b", "y"⟩) : pairEnv.HasCol col := by
  rcases h with rfl | rfl
  · exact ⟨_, rfl, _, List.mem_cons_self, rfl⟩
  · exact ⟨_, rfl, _, List.mem_cons_self, rfl⟩

/-- `WHERE a.x = 1`. -/
def literalCond : Condition := ⟨⟨"a", "x"⟩, .eq, .val (.int 1) (some (wordBytes 1))⟩

private theorem not_misread_literal (tabMeta : TabMeta) (hmeta : pairTabs "a" = some tabMeta) :
    ¬literalCond.MisreadTrimmed tabMeta (wordBytes 1) := by
  cases hmeta
  rintro ⟨lhs, hlhs, buf, hbuf, hsplits⟩
  cases hlhs
  cases hbuf
  exact hsplits.1 (by decide)

private theorem pairQuery_planned : (pairQuery [literalCond]).Planned pairEnv := by
  have horder : (pairQuery [literalCond]).order pairEnv = ["a", "b"] := by decide
  have hnotNull : ∀ tab ∈ ["a", "b"], ¬(pairQuery [literalCond]).PassesNull pairEnv tab := by
    intro tab htab hnull
    rcases List.mem_cons.mp htab with rfl | htab
    · cases hnull.passed
    · rw [List.mem_singleton.mp htab] at hnull
      exact hnull.handed rfl
  constructor
  · decide
  · intro col hcol
    rw [List.mem_singleton.mp hcol]
    exact ⟨List.mem_cons_self, pair_hasCol (.inl rfl)⟩
  · intro _ cond hcond col hcol _
    rw [List.mem_singleton.mp hcond] at hcol
    apply pair_hasCol
    simpa [condCols] using hcol
  · decide
  · intro before tab after hsplit _ tabMeta hmeta
    have htab : tab ∈ ["a", "b"] := by
      rw [← horder, hsplit]
      exact List.mem_append_right _ List.mem_cons_self
    have hnone : ∀ conds, getIndexCols tab tabMeta conds = none := by
      intro conds
      rcases List.mem_cons.mp htab with rfl | htab
      · cases hmeta
        rfl
      · rw [List.mem_singleton.mp htab] at hmeta ⊢
        cases hmeta
        rfl
    refine ⟨fun _ rec_ hrec cond hcond => ?_, fun hjoins => (nomatch hjoins), fun hjoins => (nomatch hjoins),
      fun names hnames => ?_⟩
    · obtain rfl : rec_ = wordBytes 1 := List.mem_singleton.mp hrec
      rcases List.mem_cons.mp htab with rfl | htab
      · obtain rfl : cond = literalCond := List.mem_singleton.mp hcond.mem
        exact ⟨rfl, nofun, not_misread_literal tabMeta hmeta⟩
      · rw [List.mem_singleton.mp htab] at hcond
        cases hcond.mem
    · rw [hnone] at hnames
      cases hnames
  · intro before tab after hsplit hnull
    refine absurd hnull (hnotNull tab ?_)
    rw [← horder, hsplit]
    exact List.mem_append_right _ List.mem_cons_self
  · intro before tab after _ c _ row _ cond hcond rhsCol hrhs
    rw [List.mem_singleton.mp (List.mem_filter.mp hcond.mem).1] at hrhs ⊢
    cases hrhs
    exact ⟨.int, rfl, rfl⟩
  · intro tuple htuple h cond hcond
    refine h cond hcond ?_
    rcases List.mem_cons.mp hcond with rfl | hcond
    · exact List.mem_cons_self
    · rw [List.mem_singleton.mp hcond]
      refine ⟨List.mem_cons_self, fun col hcol => ?_⟩
      rcases List.mem_cons.mp hcol with rfl | hcol
      · exact List.mem_cons_self
      · rw [List.mem_singleton.mp hcol]
        exact List.mem_cons_of_mem _ List.mem_cons_self

/-- `WHERE a.x = 1` goes to the filter of `a`, the ON clause to the join. -/
theorem preserved_literal : (pairQuery [literalCond]).Preserved pairEnv :=
  preserved (pairQuery_accepted [⟨⟨"", "x"⟩, .eq, .val (.int 1) none⟩] (by decide) (by
    intro cond hcond f raw
    rw [List.mem_singleton.mp hcond]
    nofun)) pairQuery_planned

/-- In `WHERE a.x < b.y` the condition is lost. -/
theorem not_preserved : ¬∀ (env : Env) (query : Query), query.Accepted env → query.Preserved env := by
  intro h
  have hacc : (pairQuery [⟨⟨"a", "x"⟩, .lt, .col ⟨"b", "y"⟩⟩]).Accepted pairEnv :=
    pairQuery_accepted [⟨⟨"a", "x"⟩, .lt, .col ⟨"b", "y"⟩⟩] (by decide) (by
      intro cond hcond f raw
      rw [List.mem_singleton.mp hcond]
      nofun)
  obtain ⟨out, hout, hperm⟩ := h _ _ hacc
  have hnil : (pairQuery [⟨⟨"a", "x"⟩, .lt, .col ⟨"b", "y"⟩⟩]).answer pairEnv = [] := by decide
  have hrow : ∃ row, runSelect pairEnv (pairQuery [⟨⟨"a", "x"⟩, .lt, .col ⟨"b", "y"⟩⟩]) = .ok [row] := ⟨_, rfl⟩
  obtain ⟨row, hrow⟩ := hrow
  rw [hrow] at hout
  cases hout
  rw [hnil] at hperm
  exact List.cons_ne_nil _ _ (List.perm_nil.mp hperm)

end Query
end Rmdb
