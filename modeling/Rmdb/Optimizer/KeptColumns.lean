import Rmdb.Execution.Limit
import Rmdb.Optimizer.JoinTree

/-! Which columns the nodes of a plan pass on, and which ones the nodes above them ask for. -/
namespace Rmdb

open Planner Program

/-! ### The columns of a plan -/

/-- The columns of a table under its name. -/
def Env.tableOutputs (env : Env) (tab : String) : List TabCol :=
  match env.tabs tab with
  | some tabMeta => tabMeta.cols.map fun col => ⟨tab, col.name⟩
  | none => []

theorem Env.mem_tableOutputs {env : Env} {tab : String} {col : TabCol} :
    col ∈ env.tableOutputs tab ↔ col.tabName = tab ∧ env.HasCol col := by
  unfold tableOutputs HasCol
  constructor
  · intro h
    cases htab : env.tabs tab with
    | none =>
      rw [htab] at h
      cases h
    | some tabMeta =>
      rw [htab] at h
      obtain ⟨c, hc, rfl⟩ := List.mem_map.mp h
      exact ⟨rfl, tabMeta, htab, c, hc, rfl⟩
  · rintro ⟨rfl, tabMeta, htab, c, hc, hname⟩
    rw [htab]
    exact List.mem_map.mpr ⟨c, hc, congrArg (TabCol.mk col.tabName) hname⟩

namespace Plan

variable (env : Env)

/-- What a node passes on. -/
def outputs : Plan → List TabCol
  | scan tab _ _ _ => env.tableOutputs tab
  | projection _ cols => cols
  | join left right _ => left.outputs ++ right.outputs

/-- Every node asks for columns that the nodes below it pass on, and a scan has conditions on its own
table. -/
def Feeds : Plan → Prop
  | scan tab _ conds filterConds => ∀ cond ∈ conds ++ filterConds, ∀ col ∈ condCols cond, col ∈ env.tableOutputs tab
  | projection sub cols => sub.Feeds ∧ ∀ col ∈ cols, col ∈ sub.outputs env
  | join left right conds => (left.Feeds ∧ right.Feeds) ∧
      ∀ cond ∈ conds, ∀ col ∈ condCols cond, col ∈ left.outputs env ++ right.outputs env

end Plan

/-- A column of GROUP BY, or an aggregate function, which is known by the name of its column alone. -/
def HavingSide.AsksFor (side : HavingSide) (K : TabCol → Prop) : Prop :=
  if side.col ≠ noCol then K side.col
  else side.isAgg = true → side.agg.col ≠ noCol → ∃ col, K col ∧ col.colName = side.agg.col.colName

/-- An aggregation asks for nothing but columns in `K`. -/
structure AggClause.AsksFor (clause : AggClause) (K : TabCol → Prop) : Prop where
  aggFuncs : ∀ f ∈ clause.aggFuncs, f.col ≠ noCol → K f.col
  groupBy : ∀ col ∈ clause.groupByCols, K col
  having : ∀ cond ∈ clause.havingConds, cond.lhs.AsksFor K ∧ cond.rhs.AsksFor K
  orderBy : ∀ o ∈ clause.orderByCols, o.isAgg = false → K o.col

/-- The columns of GROUP BY, and a column for each aggregate function. -/
def AggClause.outputs (clause : AggClause) : List TabCol :=
  clause.groupByCols ++
    clause.aggFuncs.zipIdx.map fun (f, i) => ⟨"", f.caption (clause.groupByCols.length + i)⟩

namespace SelectPlan

variable (env : Env)

def outputs : SelectPlan → List TabCol
  | sub plan => plan.outputs env
  | agg _ clause => clause.outputs
  | sort prev _ _ _ => prev.outputs
  | projection _ selCols _ => selCols

def Feeds : SelectPlan → Prop
  | sub plan => plan.Feeds env
  | agg prev clause => prev.Feeds ∧ clause.AsksFor (· ∈ prev.outputs env)
  | sort prev orderByCols _ _ => prev.Feeds ∧ ∀ col ∈ orderByCols, col ∈ prev.outputs env
  | projection prev selCols _ => prev.Feeds ∧ ∀ col ∈ selCols, col ∈ prev.outputs env

end SelectPlan

/-! ### The condition on the query -/

namespace Query

variable (env : Env) (query : Query)

/-- The scan of the table of the column, with the projection above it, passes the column on. -/
def ScanKeeps (col : TabCol) : Prop :=
  if tableProjection query col.tabName = [] then env.HasCol col else col ∈ tableProjection query col.tabName

/-- The column is passed on by what stands below a sort or an aggregation. With JOIN clauses, and unless
everything is selected, a table that the SELECT list or an ON condition mentions keeps the columns that
these mention. -/
def Kept (col : TabCol) : Prop :=
  col.tabName ∈ query.tables ∧ if query.tables.length = 1 then env.HasCol col else query.ScanKeeps env col

/-- A condition of the WHERE clause goes where it can be evaluated, or nowhere. -/
def Reads (cond : Condition) : Prop :=
  if query.tables.length = 1 then ∀ col ∈ condCols cond, col.tabName ∈ query.tables
  else if isColCond cond then
    if crossTable cond then query.hasJoin = true ∨ ∀ col ∈ condCols cond, col.tabName ∈ query.tables
    else query.tables.head? = some cond.lhsCol.tabName
  else True

/-- Two places of a list. -/
def AtTwoPlaces (tabs : List String) (a b : String) : Prop := a ∈ tabs ∧ b ∈ tabs.erase a

/-- An ON condition that some join takes. -/
def Joined (cond : Condition) : Prop :=
  ∃ rhsCol, cond.rhs = .col rhsCol ∧ AtTwoPlaces query.tables cond.lhsCol.tabName rhsCol.tabName

/-- Scans and joins are given conditions that they can evaluate, and columns that are there. -/
structure KeepsBelow : Prop where
  conds : ∀ cond ∈ query.conds, query.Reads cond
  projected : query.tables.length ≠ 1 → ∀ tab ∈ query.tables, ∀ col ∈ tableProjection query tab, env.HasCol col
  onConds : query.tables.length ≠ 1 → query.hasJoin = true → ∀ cond ∈ query.onConds, query.Joined cond →
    ∀ col ∈ condCols cond, env.HasCol col

end Query

namespace SelectQuery

variable (env : Env) (query : SelectQuery)

/-- What stands above the joins asks for nothing but columns in `K`. -/
def AsksFor (K : TabCol → Prop) : Prop :=
  if query.grouped then (aggClause query).AsksFor K
  else (query.sorts = true → ∀ o ∈ query.orderByCols, o.isAgg = false → K o.col) ∧ ∀ col ∈ query.cols, K col

/-- The parser and the semantic check have seen to that. -/
structure Accepted : Prop where
  tables : query.tables ≠ []
  known : ∀ tab ∈ query.tables, ∃ tabMeta, env.tabs tab = some tabMeta
  checked : ∃ conds, Analyze.checkClause env.tabs query.tables conds = .ok query.conds

/-- The query loses no column on its way. -/
structure KeepsColumns : Prop where
  below : query.KeepsBelow env
  above : query.AsksFor (query.Kept env)

end SelectQuery

/-! ### The joins -/

section
variable {env : Env} {K : TabCol → Prop} {onConds conds : List Condition} {plan : Plan} {lefts : List String}
  {rest : List (String × Plan)}

/-- A condition that some join of the rest takes. -/
def Planner.Connected : List String → List String → Condition → Prop
  | _, [], _ => False
  | lefts, tab :: rest, cond => connects tab lefts cond = true ∨ Connected (lefts ++ [tab]) rest cond

/-- What a plan over some tables passes on. -/
def Plan.PassesOn (env : Env) (K : TabCol → Prop) (plan : Plan) (tabs : List String) : Prop :=
  ∀ col, col ∈ plan.outputs env ↔ col.tabName ∈ tabs ∧ K col

theorem Plan.PassesOn.join {left right : Plan} {tab : String} (hleft : left.PassesOn env K lefts)
    (hright : right.PassesOn env K [tab]) (conds : List Condition) :
    (Plan.join left right conds).PassesOn env K (lefts ++ [tab]) := by
  intro col
  rw [Plan.outputs, List.mem_append, List.mem_append, hleft, hright, or_and_right]

theorem passesOn_joinOn (hplan : plan.PassesOn env K lefts) (hrest : ∀ e ∈ rest, e.2.PassesOn env K [e.1]) :
    (joinOn onConds plan lefts rest).PassesOn env K (lefts ++ rest.map (·.1)) := by
  induction rest generalizing plan lefts with
  | nil => simpa [joinOn] using hplan
  | cons e rest ih =>
    have hjoin := ih (hplan.join (hrest e List.mem_cons_self) (onConds.filter (connects e.1 lefts)))
      fun e' he' => hrest e' (List.mem_cons_of_mem e he')
    rw [List.append_assoc] at hjoin
    exact hjoin

theorem tabName_of_connects {tab : String} {cond : Condition} (h : connects tab lefts cond = true) {col : TabCol}
    (hcol : col ∈ condCols cond) : col.tabName ∈ lefts ++ [tab] := by
  unfold connects at h
  unfold condCols at hcol
  cases hrhs : cond.rhs with
  | val val raw =>
    rw [hrhs] at h
    cases h
  | col rhsCol =>
    rw [hrhs] at h hcol
    simp only [Bool.or_eq_true, Bool.and_eq_true, decide_eq_true_eq, List.contains_iff_mem] at h
    rw [List.mem_cons, List.mem_singleton] at hcol
    rw [List.mem_append, List.mem_singleton]
    obtain ⟨hnew, hold⟩ | ⟨hnew, hold⟩ := h
    · obtain rfl | rfl := hcol
      · exact .inr hnew
      · exact .inl hold
    · obtain rfl | rfl := hcol
      · exact .inl hold
      · exact .inr hnew

/-- A join takes conditions between the tables below it, so it is fed if their columns are passed on. -/
theorem feeds_join {scan : Plan} {tab : String} (conds : List Condition) (hplan : plan.PassesOn env K lefts)
    (hscan : scan.PassesOn env K [tab])
    (hconnects : ∀ cond ∈ conds, ∀ col ∈ condCols cond, K col → col.tabName ∈ lefts ++ [tab]) :
    (Plan.join plan scan conds).Feeds env ↔
      (plan.Feeds env ∧ scan.Feeds env) ∧ ∀ cond ∈ conds, ∀ col ∈ condCols cond, K col := by
  have hout := hplan.join hscan conds
  rw [Plan.Feeds]
  refine and_congr_right fun _ => ?_
  constructor
  · intro h cond hcond col hcol
    exact ((hout col).mp (h cond hcond col hcol)).2
  · intro h cond hcond col hcol
    have hK := h cond hcond col hcol
    exact (hout col).mpr ⟨hconnects cond hcond col hcol hK, hK⟩

/-- The joins of JOIN clauses are fed if the conditions that they take ask for columns that are passed on. -/
theorem feeds_joinOn (hplan : plan.PassesOn env K lefts) (hrest : ∀ e ∈ rest, e.2.PassesOn env K [e.1]) :
    (joinOn onConds plan lefts rest).Feeds env ↔ plan.Feeds env ∧ (∀ e ∈ rest, e.2.Feeds env) ∧
      ∀ cond ∈ onConds, Connected lefts (rest.map (·.1)) cond → ∀ col ∈ condCols cond, K col := by
  induction rest generalizing plan lefts with
  | nil => simp [joinOn, Connected]
  | cons e rest ih =>
    obtain ⟨tab, scan⟩ := e
    have hscan := hrest (tab, scan) List.mem_cons_self
    have hrest' := fun e' he' => hrest e' (List.mem_cons_of_mem (tab, scan) he')
    have hjoin := feeds_join (onConds.filter (connects tab lefts)) hplan hscan fun cond hcond col hcol _ =>
      tabName_of_connects (List.mem_filter.mp hcond).2 hcol
    rw [joinOn, ih (hplan.join hscan _) hrest', hjoin, List.forall_mem_cons]
    simp only [List.mem_filter, and_imp, List.map_cons, Connected, or_imp, forall_and]
    tauto

theorem passesOn_joinFrom (hplan : plan.PassesOn env K lefts) (hrest : ∀ e ∈ rest, e.2.PassesOn env K [e.1]) :
    (joinFrom conds plan lefts rest).PassesOn env K (lefts ++ rest.map (·.1)) := by
  induction rest generalizing conds plan lefts with
  | nil => simpa [joinFrom] using hplan
  | cons e rest ih =>
    obtain ⟨tab, scan⟩ := e
    have hscan := hrest (tab, scan) List.mem_cons_self
    cases rest with
    | nil => exact hplan.join hscan _
    | cons next rest =>
      have hjoin := @ih (conds.filter fun cond => !connects tab lefts cond) _ _
        (hplan.join hscan (conds.filter (connects tab lefts))) fun e' he' => hrest e' (List.mem_cons_of_mem _ he')
      rw [List.append_assoc] at hjoin
      exact hjoin

theorem isColCond_of_connects {tab : String} {cond : Condition} (h : connects tab lefts cond = true) :
    isColCond cond = true := by
  unfold connects at h
  unfold isColCond
  cases hrhs : cond.rhs with
  | val val raw =>
    rw [hrhs] at h
    cases h
  | col rhsCol => rfl

/-- A join takes the conditions that connect its tables, and the others are left. -/
private theorem connects_or_left (conds : List Condition) {tab : String} {P : Condition → Prop}
    (hP : ∀ cond, connects tab lefts cond = true → ((∀ col ∈ condCols cond, K col) ↔ P cond)) :
    ((∀ cond ∈ conds.filter (connects tab lefts), ∀ col ∈ condCols cond, K col) ∧
      ∀ cond ∈ conds.filter (fun cond => !connects tab lefts cond), isColCond cond = true → P cond) ↔
      ∀ cond ∈ conds, isColCond cond = true → P cond := by
  constructor
  · rintro ⟨htaken, hleft⟩ cond hcond hcol
    cases hconnects : connects tab lefts cond with
    | true => exact (hP cond hconnects).mp (htaken cond (List.mem_filter.mpr ⟨hcond, hconnects⟩))
    | false => exact hleft cond (List.mem_filter.mpr ⟨hcond, by rw [hconnects]; rfl⟩) hcol
  · intro h
    constructor
    · intro cond hcond
      obtain ⟨hcond, hconnects⟩ := List.mem_filter.mp hcond
      exact (hP cond hconnects).mpr (h cond hcond (isColCond_of_connects hconnects))
    · intro cond hcond
      exact h cond (List.mem_filter.mp hcond).1

/-- The joins of a FROM list take every condition between columns, the last one those that are left over. -/
theorem feeds_joinFrom (hplan : plan.PassesOn env K lefts) (hrest : ∀ e ∈ rest, e.2.PassesOn env K [e.1])
    (hne : rest ≠ []) :
    (joinFrom conds plan lefts rest).Feeds env ↔ plan.Feeds env ∧ (∀ e ∈ rest, e.2.Feeds env) ∧
      ∀ cond ∈ conds, isColCond cond = true →
        ∀ col ∈ condCols cond, col.tabName ∈ lefts ++ rest.map (·.1) ∧ K col := by
  induction rest generalizing conds plan lefts with
  | nil => exact absurd rfl hne
  | cons e rest ih =>
    obtain ⟨tab, scan⟩ := e
    have hscan := hrest (tab, scan) List.mem_cons_self
    cases rest with
    | nil =>
      have hmem : ∀ col, col ∈ plan.outputs env ++ scan.outputs env ↔ col.tabName ∈ lefts ++ [tab] ∧ K col :=
        hplan.join hscan conds
      have hall : ∀ cond, cond ∈ conds.filter (connects tab lefts) ++
          (conds.filter fun cond => !connects tab lefts cond).filter isColCond ↔
            cond ∈ conds ∧ isColCond cond = true := by
        intro cond
        have hcol : connects tab lefts cond = true → isColCond cond = true := isColCond_of_connects
        rw [List.mem_append, List.mem_filter, List.mem_filter, List.mem_filter]
        cases hconnects : connects tab lefts cond with
        | true => simp [hcol hconnects]
        | false => simp
      unfold joinFrom
      simp only [Plan.Feeds, hall, hmem, and_imp, List.forall_mem_singleton, and_assoc, List.map_cons, List.map_nil]
    | cons next rest =>
      have hrest' := fun e' he' => hrest e' (List.mem_cons_of_mem (tab, scan) he')
      have hjoin := feeds_join (conds.filter (connects tab lefts)) hplan hscan fun cond hcond col hcol _ =>
        tabName_of_connects (List.mem_filter.mp hcond).2 hcol
      have hleft := @ih (conds.filter fun cond => !connects tab lefts cond) _ _
        (hplan.join hscan (conds.filter (connects tab lefts))) hrest' (List.cons_ne_nil next rest)
      have htabs : lefts ++ ((tab, scan) :: next :: rest).map (·.1) =
          (lefts ++ [tab]) ++ (next :: rest).map (·.1) := by simp
      have hP : ∀ cond, connects tab lefts cond = true → ((∀ col ∈ condCols cond, K col) ↔
          ∀ col ∈ condCols cond, col.tabName ∈ (lefts ++ [tab]) ++ (next :: rest).map (·.1) ∧ K col) :=
        fun cond hconnects => forall₂_congr fun col hcol =>
          (and_iff_right (List.mem_append_left _ (tabName_of_connects hconnects hcol))).symm
      have hconds := connects_or_left conds hP
      rw [htabs, ← hconds, List.forall_mem_cons]
      unfold joinFrom
      rw [hleft, hjoin]
      tauto

end

/-! ### Two places of a list -/

namespace Query

theorem atTwoPlaces_cons {tab a b : String} {tabs : List String} :
    AtTwoPlaces (tab :: tabs) a b ↔ a = tab ∧ b ∈ tabs ∨ b = tab ∧ a ∈ tabs ∨ AtTwoPlaces tabs a b := by
  unfold AtTwoPlaces
  by_cases htab : tab = a
  · subst htab
    rw [List.erase_cons_head]
    have herase : b ∈ tabs.erase tab → b ∈ tabs := List.mem_of_mem_erase
    constructor
    · rintro ⟨-, hb⟩
      exact .inl ⟨rfl, hb⟩
    · rintro (⟨-, hb⟩ | ⟨rfl, hb⟩ | ⟨-, hb⟩)
      · exact ⟨List.mem_cons_self, hb⟩
      · exact ⟨List.mem_cons_self, hb⟩
      · exact ⟨List.mem_cons_self, herase hb⟩
  · have hne : a ≠ tab := fun h => htab h.symm
    rw [List.erase_cons_tail (by simpa using htab), List.mem_cons, List.mem_cons]
    tauto

theorem AtTwoPlaces.perm {tabs tabs' : List String} {a b : String} (h : AtTwoPlaces tabs a b)
    (hperm : tabs.Perm tabs') :
    AtTwoPlaces tabs' a b :=
  ⟨hperm.subset h.1, (hperm.erase a).subset h.2⟩

theorem connected_iff {cond : Condition} {rhsCol : TabCol} (hrhs : cond.rhs = .col rhsCol) {lefts rest : List String} :
    Connected lefts rest cond ↔ cond.lhsCol.tabName ∈ rest ∧ rhsCol.tabName ∈ lefts ∨
      rhsCol.tabName ∈ rest ∧ cond.lhsCol.tabName ∈ lefts ∨ AtTwoPlaces rest cond.lhsCol.tabName rhsCol.tabName := by
  induction rest generalizing lefts with
  | nil => simp [Connected, AtTwoPlaces]
  | cons tab rest ih =>
    rw [Connected, ih, atTwoPlaces_cons]
    unfold connects
    rw [hrhs]
    simp only [Bool.or_eq_true, Bool.and_eq_true, decide_eq_true_eq, List.contains_iff_mem, List.mem_cons,
      List.mem_append, List.not_mem_nil, or_false]
    tauto

/-- A condition is taken by one of the joins if its tables are listed, and twice if they are the same. -/
theorem connected_singleton {cond : Condition} {tab : String} {rest : List String} :
    Connected [tab] rest cond ↔
      ∃ rhsCol, cond.rhs = .col rhsCol ∧ AtTwoPlaces (tab :: rest) cond.lhsCol.tabName rhsCol.tabName := by
  cases hrhs : cond.rhs with
  | val val raw =>
    have hnot : ∀ lefts, ¬Connected lefts rest cond := by
      induction rest with
      | nil => exact fun _ => not_false
      | cons tab rest ih =>
        intro lefts hconnected
        obtain h | h := hconnected
        · have := isColCond_of_connects h
          rw [isColCond, hrhs] at this
          cases this
        · exact ih (lefts ++ [tab]) h
    exact iff_of_false (hnot [tab]) (fun ⟨_, h, _⟩ => nomatch h)
  | col rhsCol =>
    rw [connected_iff hrhs]
    simp only [Operand.col.injEq, exists_eq_left', atTwoPlaces_cons, List.mem_singleton]
    tauto

end Query

/-! ### The scans -/

section
variable {tab : String} {tabs : List String} {cond : Condition} {conds : List Condition}

theorem popped_of_isColCond (h : isColCond cond = true) : popped tab cond = !Query.crossTable cond := by
  unfold isColCond at h
  unfold popped Query.crossTable
  cases hrhs : cond.rhs with
  | val val raw =>
    rw [hrhs] at h
    cases h
  | col rhsCol => simp

theorem tabName_of_popped_val (h : isColCond cond = false) (hpopped : popped tab cond = true) :
    condCols cond = [cond.lhsCol] ∧ cond.lhsCol.tabName = tab := by
  unfold isColCond at h
  unfold popped at hpopped
  unfold condCols
  cases hrhs : cond.rhs with
  | val val raw =>
    rw [hrhs] at hpopped
    exact ⟨rfl, of_decide_eq_true hpopped⟩
  | col rhsCol =>
    rw [hrhs] at h
    cases h

theorem of_mem_popConds {leaf : String × List Condition} (hleaf : leaf ∈ (popConds tabs conds).1)
    (hcond : cond ∈ leaf.2) :
    cond ∈ conds ∧ popped leaf.1 cond = true := by
  induction tabs generalizing conds with
  | nil => cases hleaf
  | cons tab tabs ih =>
    rw [popConds] at hleaf
    obtain rfl | hleaf := List.mem_cons.mp hleaf
    · exact List.mem_filter.mp hcond
    · obtain ⟨hmem, hpopped⟩ := ih hleaf
      exact ⟨(List.mem_filter.mp hmem).1, hpopped⟩

theorem mem_popConds_rest : cond ∈ (popConds tabs conds).2 ↔ cond ∈ conds ∧ ∀ tab ∈ tabs, popped tab cond = false := by
  induction tabs generalizing conds with
  | nil => simp [popConds]
  | cons tab tabs ih =>
    rw [popConds]
    simp only [ih, List.mem_filter, Bool.not_eq_true', List.forall_mem_cons, and_assoc]

private theorem mem_tableOutputs_of_popped {env : Env} (hcols : ∀ col ∈ condCols cond, env.HasCol col)
    (hpopped : popped tab cond = true) (hfirst : isColCond cond = true → cond.lhsCol.tabName = tab) :
    ∀ col ∈ condCols cond, col ∈ env.tableOutputs tab := by
  intro col hcol
  refine Env.mem_tableOutputs.mpr ⟨?_, hcols col hcol⟩
  cases hcond : isColCond cond with
  | true =>
    rw [popped_of_isColCond hcond, Bool.not_eq_true'] at hpopped
    exact (Query.tabName_of_crossTable hpopped hcol).trans (hfirst hcond)
  | false =>
    obtain ⟨hsingle, htab⟩ := tabName_of_popped_val hcond hpopped
    rw [hsingle, List.mem_singleton] at hcol
    rw [hcol]
    exact htab

/-- The scans can evaluate what `pop_conds` hands them if conditions within one table are about the first. -/
theorem popConds_evaluable {env : Env} (hcols : ∀ cond ∈ conds, ∀ col ∈ condCols cond, env.HasCol col) :
    (∀ leaf ∈ (popConds (tab :: tabs) conds).1, ∀ cond ∈ leaf.2, ∀ col ∈ condCols cond, col ∈ env.tableOutputs leaf.1) ↔
      ∀ cond ∈ conds, isColCond cond = true → Query.crossTable cond = false → cond.lhsCol.tabName = tab := by
  rw [popConds]
  constructor
  · intro h cond hcond hcol hcross
    have hpopped : popped tab cond = true := by rw [popped_of_isColCond hcol, hcross, Bool.not_false]
    have hhead := h _ List.mem_cons_self cond (List.mem_filter.mpr ⟨hcond, hpopped⟩) cond.lhsCol
      (Query.lhsCol_mem_condCols cond)
    exact (Env.mem_tableOutputs.mp hhead).1
  · intro h leaf hleaf cond hcond
    obtain rfl | hleaf := List.mem_cons.mp hleaf
    · obtain ⟨hmem, hpopped⟩ := List.mem_filter.mp hcond
      refine mem_tableOutputs_of_popped (hcols cond hmem) hpopped fun hcol => h cond hmem hcol ?_
      rwa [popped_of_isColCond hcol, Bool.not_eq_true'] at hpopped
    · obtain ⟨hmem, hpopped⟩ := of_mem_popConds hleaf hcond
      obtain ⟨hmem, hleft⟩ := List.mem_filter.mp hmem
      refine mem_tableOutputs_of_popped (hcols cond hmem) hpopped fun hcol => ?_
      -- the first table has all of these
      rw [popped_of_isColCond hcol] at hpopped hleft
      rw [hpopped] at hleft
      cases hleft

end

namespace Query

section
variable {env : Env} {query : Query} {tab : String} {tabs : List String} {conds : List Condition}

theorem tabName_of_mem_tableProjection {col : TabCol} (h : col ∈ tableProjection query tab) : col.tabName = tab :=
  (of_mem_tableProjection h).1

theorem tableProjection_selectAll (h : query.isSelectAll = true) : tableProjection query tab = [] := by
  unfold tableProjection
  rw [h, Bool.not_true, Bool.and_false]
  rfl

theorem passesOn_project (names : Option (List String)) (conds filterConds : List Condition) :
    (project query tab (.scan tab names conds filterConds)).PassesOn env (query.ScanKeeps env) [tab] := by
  intro col
  unfold project ScanKeeps
  rw [List.mem_singleton]
  by_cases hprojection : tableProjection query tab = []
  · rw [if_pos (.inr hprojection), Plan.outputs, Env.mem_tableOutputs]
    refine and_congr_right fun htab => ?_
    rw [htab, if_pos hprojection]
  · have hall : query.isSelectAll ≠ true := fun hall => hprojection (tableProjection_selectAll hall)
    rw [if_neg (not_or.mpr ⟨hall, hprojection⟩), Plan.outputs]
    constructor
    · intro hcol
      have htab := tabName_of_mem_tableProjection hcol
      rw [htab, if_neg hprojection]
      exact ⟨rfl, hcol⟩
    · rintro ⟨rfl, hcol⟩
      rwa [if_neg hprojection] at hcol

theorem feeds_project (names : Option (List String)) (conds filterConds : List Condition) :
    (project query tab (.scan tab names conds filterConds)).Feeds env ↔
      (∀ cond ∈ conds ++ filterConds, ∀ col ∈ condCols cond, col ∈ env.tableOutputs tab) ∧
        ∀ col ∈ tableProjection query tab, env.HasCol col := by
  unfold project
  by_cases hprojection : tableProjection query tab = []
  · rw [if_pos (.inr hprojection), hprojection]
    simp [Plan.Feeds]
  · have hall : query.isSelectAll ≠ true := fun hall => hprojection (tableProjection_selectAll hall)
    rw [if_neg (not_or.mpr ⟨hall, hprojection⟩), Plan.Feeds, Plan.Feeds]
    refine and_congr_right fun _ => forall₂_congr fun col hcol => ?_
    rw [Plan.outputs, Env.mem_tableOutputs, and_iff_right (tabName_of_mem_tableProjection hcol)]

/-- A table and the scan that the planner makes for it. -/
def scanEntry (env : Env) (query : Query) (leaf : String × List Condition) : String × Plan :=
  let names := (env.tabs leaf.1).bind fun tabMeta => getIndexCols leaf.1 tabMeta leaf.2
  (leaf.1, project query leaf.1 (if query.hasJoin then .scan leaf.1 names [] leaf.2
    else .scan leaf.1 names leaf.2 (if names = none then leaf.2 else [])))

theorem passesOn_scanEntry (leaf : String × List Condition) :
    (scanEntry env query leaf).2.PassesOn env (query.ScanKeeps env) [leaf.1] := by
  unfold scanEntry
  dsimp only
  split <;> exact passesOn_project _ _ _

theorem feeds_scanEntry (leaf : String × List Condition) : (scanEntry env query leaf).2.Feeds env ↔
    (∀ cond ∈ leaf.2, ∀ col ∈ condCols cond, col ∈ env.tableOutputs leaf.1) ∧
      ∀ col ∈ tableProjection query leaf.1, env.HasCol col := by
  unfold scanEntry
  dsimp only
  split
  · rw [feeds_project, List.nil_append]
  · rw [feeds_project]
    refine and_congr_left fun _ => ?_
    split <;> simp

theorem joinScan_scanEntry (hjoin : query.hasJoin = true) {leaf : String × List Condition}
    (hknown : ∃ tabMeta, env.tabs leaf.1 = some tabMeta) :
    joinScan env.tabs query leaf.1 leaf.2 = .ok (scanEntry env query leaf) := by
  obtain ⟨tabMeta, htab⟩ := hknown
  unfold joinScan scanEntry Analyze.getTable
  rw [htab]
  dsimp only
  rw [if_pos hjoin]
  rfl

theorem fromScan_scanEntry (hjoin : query.hasJoin = false) {leaf : String × List Condition}
    (hknown : ∃ tabMeta, env.tabs leaf.1 = some tabMeta) :
    fromScan env.tabs query leaf.1 leaf.2 = .ok (scanEntry env query leaf) := by
  obtain ⟨tabMeta, htab⟩ := hknown
  unfold fromScan scanEntry Analyze.getTable
  rw [htab, hjoin]
  dsimp only
  rw [if_neg Bool.false_ne_true]
  rfl

/-- The scans of all tables are fed if their conditions and projections are about them. -/
theorem feeds_scans (htables : query.tables = tab :: tabs)
    (hcols : ∀ cond ∈ query.conds, ∀ col ∈ condCols cond, env.HasCol col) {entries : List (String × Plan)}
    (hperm : entries.Perm ((popConds query.tables query.conds).1.map (scanEntry env query))) :
    (∀ e ∈ entries, e.2.Feeds env) ↔
      (∀ cond ∈ query.conds, isColCond cond = true → crossTable cond = false → cond.lhsCol.tabName = tab) ∧
        ∀ tab ∈ query.tables, ∀ col ∈ tableProjection query tab, env.HasCol col := by
  have hleaves : (∀ e ∈ entries, e.2.Feeds env) ↔ ∀ leaf ∈ (popConds query.tables query.conds).1,
      (scanEntry env query leaf).2.Feeds env := by
    constructor
    · intro h leaf hleaf
      exact h _ (hperm.symm.subset (List.mem_map_of_mem hleaf))
    · intro h e he
      obtain ⟨leaf, hleaf, rfl⟩ := List.mem_map.mp (hperm.subset he)
      exact h leaf hleaf
  have hprojected :
      (∀ leaf ∈ (popConds query.tables query.conds).1, ∀ col ∈ tableProjection query leaf.1, env.HasCol col) ↔
      ∀ tab ∈ query.tables, ∀ col ∈ tableProjection query tab, env.HasCol col := by
    conv_rhs => rw [← map_fst_popConds query.tables query.conds]
    simp only [List.forall_mem_map]
  rw [hleaves, ← hprojected, htables, ← popConds_evaluable hcols]
  simp only [feeds_scanEntry]
  exact forall₂_and

theorem scanEntries_fst {entries : List (String × Plan)}
    (hperm : entries.Perm ((popConds query.tables query.conds).1.map (scanEntry env query))) :
    (entries.map (·.1)).Perm query.tables := by
  have hfst := hperm.map (·.1)
  rw [List.map_map] at hfst
  have hsame : (popConds query.tables query.conds).1.map ((·.1) ∘ scanEntry env query) = query.tables :=
    map_fst_popConds query.tables query.conds
  rwa [hsame] at hfst

theorem passesOn_scanEntries {entries : List (String × Plan)}
    (hperm : entries.Perm ((popConds query.tables query.conds).1.map (scanEntry env query))) :
    ∀ e ∈ entries, e.2.PassesOn env (query.ScanKeeps env) [e.1] := by
  intro e he
  obtain ⟨leaf, -, rfl⟩ := List.mem_map.mp (hperm.subset he)
  exact passesOn_scanEntry leaf

/-- What the scans and joins of the query pass on, and when they are fed. -/
structure PlansAs (env : Env) (query : Query) (plan : Plan) : Prop where
  outputs : ∀ col, col ∈ plan.outputs env ↔ query.Kept env col
  feeds : plan.Feeds env ↔ query.KeepsBelow env

theorem plansAs_single (htables : query.tables = [tab])
    (hcols : ∀ cond ∈ query.conds, ∀ col ∈ condCols cond, env.HasCol col) (names : Option (List String)) :
    PlansAs env query (.scan tab names query.conds (if names = none then query.conds else [])) := by
  have hlen : query.tables.length = 1 := by rw [htables]; rfl
  constructor
  · intro col
    rw [Plan.outputs, Env.mem_tableOutputs, Kept, if_pos hlen, htables, List.mem_singleton]
  · have hmem : ∀ cond, cond ∈ query.conds ++ (if names = none then query.conds else []) ↔ cond ∈ query.conds := by
      intro cond
      split <;> simp
    have hreads : (∀ cond ∈ query.conds, query.Reads cond) ↔
        ∀ cond ∈ query.conds, ∀ col ∈ condCols cond, col ∈ env.tableOutputs tab := by
      refine forall₂_congr fun cond hcond => ?_
      rw [Reads, if_pos hlen, htables]
      refine forall₂_congr fun col hcol => ?_
      rw [List.mem_singleton, Env.mem_tableOutputs, and_iff_left (hcols cond hcond col hcol)]
    rw [Plan.Feeds]
    simp only [hmem]
    rw [← hreads]
    exact ⟨fun h => ⟨h, fun hne => absurd hlen hne, fun hne => absurd hlen hne⟩, fun h => h.conds⟩

/-- In JOIN clauses an ON condition finds its columns if they are there. -/
theorem scanKeeps_iff (hjoin : query.hasJoin = true)
    (hprojected : ∀ tab ∈ query.tables, ∀ col ∈ tableProjection query tab, env.HasCol col) {cond : Condition}
    (hcond : cond ∈ query.onConds) {col : TabCol} (hcol : col ∈ condCols cond) (htab : col.tabName ∈ query.tables) :
    query.ScanKeeps env col ↔ env.HasCol col := by
  unfold ScanKeeps
  by_cases hprojection : tableProjection query col.tabName = []
  · rw [if_pos hprojection]
  · rw [if_neg hprojection]
    refine ⟨hprojected _ htab col, fun _ => ?_⟩
    have hall : ¬(query.isSelectAll ∨ tableProjection query col.tabName = []) :=
      not_or.mpr ⟨fun hall => hprojection (tableProjection_selectAll hall), hprojection⟩
    refine mem_tableProjection_of_needs (.inr ⟨cond, ?_, hcol⟩) hall
    rwa [joinConds, if_pos hjoin]

theorem reads_iff (htables : query.tables = tab :: tabs) (hlen : query.tables.length ≠ 1) {cond : Condition} :
    query.Reads cond ↔ (isColCond cond = true → crossTable cond = false → cond.lhsCol.tabName = tab) ∧
      (isColCond cond = true → crossTable cond = true →
        query.hasJoin = true ∨ ∀ col ∈ condCols cond, col.tabName ∈ query.tables) := by
  have hhead : query.tables.head? = some cond.lhsCol.tabName ↔ cond.lhsCol.tabName = tab := by
    rw [htables, List.head?_cons, Option.some.injEq, eq_comm]
  rw [Reads, if_neg hlen, hhead]
  cases isColCond cond <;> cases crossTable cond <;> simp

/-- The tables of a condition that a join takes are listed. -/
theorem Joined.tabName_mem {cond : Condition} (h : query.Joined cond) {col : TabCol} (hcol : col ∈ condCols cond) :
    col.tabName ∈ query.tables := by
  obtain ⟨rhsCol, hrhs, hleft, hright⟩ := h
  unfold condCols at hcol
  rw [hrhs, List.mem_cons, List.mem_singleton] at hcol
  obtain rfl | rfl := hcol
  · exact hleft
  · exact List.mem_of_mem_erase hright

theorem plansAs_joinOn (htables : query.tables = tab :: tabs) (hlen : query.tables.length ≠ 1)
    (hjoin : query.hasJoin = true) (hcols : ∀ cond ∈ query.conds, ∀ col ∈ condCols cond, env.HasCol col)
    {first : String × Plan} {rest : List (String × Plan)}
    (hperm : (first :: rest).Perm ((popConds query.tables query.conds).1.map (scanEntry env query))) :
    PlansAs env query (joinOn query.onConds first.2 [first.1] rest) := by
  have htabs := scanEntries_fst hperm
  have hpass := List.forall_mem_cons.mp (passesOn_scanEntries hperm)
  have hfed := feeds_scans htables hcols hperm
  rw [List.forall_mem_cons] at hfed
  have hjoined : ∀ cond, Connected [first.1] (rest.map (·.1)) cond ↔ query.Joined cond := by
    intro cond
    rw [connected_singleton]
    refine exists_congr fun rhsCol => and_congr_right fun _ => ?_
    exact ⟨fun h => h.perm htabs, fun h => h.perm htabs.symm⟩
  constructor
  · intro col
    rw [passesOn_joinOn hpass.1 hpass.2 col, Kept, if_neg hlen]
    exact and_congr_left fun _ => htabs.mem_iff
  · rw [feeds_joinOn hpass.1 hpass.2, ← and_assoc, hfed]
    simp only [hjoined]
    constructor
    · rintro ⟨⟨hconds, hprojected⟩, hon⟩
      refine ⟨fun cond hcond => (reads_iff htables hlen).mpr ⟨hconds cond hcond, fun _ _ => .inl hjoin⟩,
        fun _ => hprojected, fun _ _ cond hcond htaken col hcol => ?_⟩
      exact (scanKeeps_iff hjoin hprojected hcond hcol (htaken.tabName_mem hcol)).mp (hon cond hcond htaken col hcol)
    · rintro ⟨hconds, hprojected, hon⟩
      refine ⟨⟨fun cond hcond => ((reads_iff htables hlen).mp (hconds cond hcond)).1, hprojected hlen⟩,
        fun cond hcond htaken col hcol => ?_⟩
      exact (scanKeeps_iff hjoin (hprojected hlen) hcond hcol (htaken.tabName_mem hcol)).mpr
        (hon hlen hjoin cond hcond htaken col hcol)

theorem tableProjection_from (hjoin : query.hasJoin = false) (tab : String) : tableProjection query tab = [] := by
  unfold tableProjection
  rw [hjoin, Bool.false_and]
  rfl

theorem plansAs_joinFrom (htables : query.tables = tab :: tabs) (hlen : query.tables.length ≠ 1)
    (hjoin : query.hasJoin = false) (hcols : ∀ cond ∈ query.conds, ∀ col ∈ condCols cond, env.HasCol col)
    {first : String × Plan} {rest : List (String × Plan)}
    (hscans : first :: rest = (popConds query.tables query.conds).1.map (scanEntry env query)) :
    PlansAs env query (joinFrom (popConds query.tables query.conds).2 first.2 [first.1] rest) := by
  have hperm := List.Perm.of_eq hscans
  have htabs := scanEntries_fst hperm
  have hpass := List.forall_mem_cons.mp (passesOn_scanEntries hperm)
  have hfed := feeds_scans htables hcols hperm
  rw [List.forall_mem_cons] at hfed
  have hne : rest ≠ [] := by
    rintro rfl
    exact hlen htabs.length_eq.symm
  have hkeeps : ∀ col, query.ScanKeeps env col ↔ env.HasCol col := by
    intro col
    rw [ScanKeeps, if_pos (tableProjection_from hjoin _)]
  have hleft : ∀ cond, isColCond cond = true → (cond ∈ (popConds query.tables query.conds).2 ↔
      cond ∈ query.conds ∧ crossTable cond = true) := by
    intro cond hcol
    rw [mem_popConds_rest, htables]
    simp only [popped_of_isColCond hcol, Bool.not_eq_false']
    exact and_congr_right fun _ => ⟨fun h => h tab List.mem_cons_self, fun h _ _ => h⟩
  constructor
  · intro col
    rw [passesOn_joinFrom hpass.1 hpass.2 col, Kept, if_neg hlen]
    exact and_congr_left fun _ => htabs.mem_iff
  · rw [feeds_joinFrom hpass.1 hpass.2 hne, ← and_assoc, hfed]
    constructor
    · rintro ⟨⟨hconds, hprojected⟩, hon⟩
      refine ⟨fun cond hcond => (reads_iff htables hlen).mpr ⟨hconds cond hcond, fun hcol hcross => .inr ?_⟩,
        fun _ => hprojected, fun _ hjoin' => absurd hjoin' (by rw [hjoin]; exact Bool.false_ne_true)⟩
      intro col hmem
      exact htabs.mem_iff.mp (hon cond ((hleft cond hcol).mpr ⟨hcond, hcross⟩) hcol col hmem).1
    · rintro ⟨hconds, hprojected, -⟩
      refine ⟨⟨fun cond hcond => ((reads_iff htables hlen).mp (hconds cond hcond)).1, hprojected hlen⟩,
        fun cond hcond hcol col hmem => ?_⟩
      obtain ⟨hcond, hcross⟩ := (hleft cond hcol).mp hcond
      obtain hjoin' | hlisted := ((reads_iff htables hlen).mp (hconds cond hcond)).2 hcol hcross
      · rw [hjoin] at hjoin'
        cases hjoin'
      · exact ⟨htabs.mem_iff.mpr (hlisted col hmem), (hkeeps col).mpr (hcols cond hcond col hmem)⟩

theorem physicalOptimization_plansAs (htables : query.tables ≠ [])
    (hknown : ∀ tab ∈ query.tables, ∃ tabMeta, env.tabs tab = some tabMeta)
    (hcols : ∀ cond ∈ query.conds, ∀ col ∈ condCols cond, env.HasCol col) :
    ∃ plan, physicalOptimization env.tabs env.rowCount query = .ok plan ∧ PlansAs env query plan := by
  have hleaves : ∀ leaf ∈ (popConds query.tables query.conds).1, ∃ tabMeta, env.tabs leaf.1 = some tabMeta := by
    intro leaf hleaf
    apply hknown
    rw [← map_fst_popConds query.tables query.conds]
    exact List.mem_map_of_mem hleaf
  obtain ⟨tab, tabs, htabs⟩ := List.exists_cons_of_ne_nil htables
  cases tabs with
  | nil =>
    obtain ⟨tabMeta, htab⟩ := hknown tab (by rw [htabs]; exact List.mem_cons_self)
    refine ⟨_, ?_, plansAs_single htabs hcols (getIndexCols tab tabMeta query.conds)⟩
    unfold physicalOptimization Analyze.getTable
    rw [htabs]
    dsimp only
    rw [htab]
    rfl
  | cons next tabs =>
    have hlen : query.tables.length ≠ 1 := by
      rw [htabs]
      simp
    have hone : physicalOptimization env.tabs env.rowCount query = makeOneRel env.tabs env.rowCount query := by
      unfold physicalOptimization
      rw [htabs]
    let entries := (popConds query.tables query.conds).1.map (scanEntry env query)
    have hne : entries ≠ [] := by
      intro hnil
      have hlength := (scanEntries_fst (.refl entries)).length_eq
      rw [hnil, htabs] at hlength
      cases hlength
    rw [hone, makeOneRel]
    cases hjoin : query.hasJoin with
    | true =>
      have hmapM : (popConds query.tables query.conds).1.mapM (fun leaf => joinScan env.tabs query leaf.1 leaf.2) =
          .ok entries := mapM_eq_map fun leaf hleaf => joinScan_scanEntry hjoin (hleaves leaf hleaf)
      obtain ⟨order, horder, hperm⟩ : ∃ order, (if useGreedy env.rowCount query.tables query.onConds then
          greedyOrder env.rowCount entries else entries) = order ∧ order.Perm entries := by
        refine ⟨_, rfl, ?_⟩
        split
        · exact greedyOrder_perm
        · exact .refl _
      rw [if_pos rfl, buildJoinPlan]
      dsimp only
      rw [hmapM]
      dsimp only [bind, Except.bind]
      rw [horder]
      cases order with
      | nil => exact absurd hperm.nil_eq.symm hne
      | cons first rest => exact ⟨_, rfl, plansAs_joinOn htabs hlen hjoin hcols hperm⟩
    | false =>
      have hmapM : (popConds query.tables query.conds).1.mapM (fun leaf => fromScan env.tabs query leaf.1 leaf.2) =
          .ok entries := mapM_eq_map fun leaf hleaf => fromScan_scanEntry hjoin (hleaves leaf hleaf)
      rw [if_neg Bool.false_ne_true]
      dsimp only
      rw [hmapM]
      dsimp only [bind, Except.bind]
      cases hentries : entries with
      | nil => exact absurd hentries hne
      | cons first rest => exact ⟨_, rfl, plansAs_joinFrom htabs hlen hjoin hcols hentries.symm⟩

end
end Query

/-! ### The whole SELECT -/

namespace SelectQuery

variable {env : Env} {query : SelectQuery}

theorem physicalOptimization_outputs (hacc : query.Accepted env) :
    ∃ plan, physicalOptimization env.tabs env.rowCount query.toQuery = .ok plan ∧
      (· ∈ plan.outputs env) = query.Kept env ∧ (plan.Feeds env ↔ query.KeepsBelow env) := by
  obtain ⟨conds, hcheck⟩ := hacc.checked
  obtain ⟨plan, hplan, hout, hfeeds⟩ := Query.physicalOptimization_plansAs hacc.tables hacc.known
    fun cond hcond col hcol => Query.hasCol_of_checkClause hcheck hcond hcol
  exact ⟨plan, hplan, funext fun col => propext (hout col), hfeeds⟩

/-- An accepted SELECT has a plan, which is fed if the query loses no column. -/
theorem generateWholePlan_feeds (hacc : query.Accepted env) :
    ∃ plan, generateWholePlan env.tabs env.rowCount query = .ok plan ∧ (plan.Feeds env ↔ query.KeepsColumns env) := by
  obtain ⟨plan, hplan, hkept, hfeeds⟩ := physicalOptimization_outputs hacc
  have hiff : query.KeepsColumns env ↔ plan.Feeds env ∧ query.AsksFor (· ∈ plan.outputs env) := by
    rw [hkept, hfeeds]
    exact ⟨fun h => ⟨h.below, h.above⟩, fun h => ⟨h.1, h.2⟩⟩
  rw [hiff]
  unfold generateWholePlan AsksFor
  rw [hplan]
  dsimp only [bind, Except.bind, pure, Except.pure]
  cases hgrouped : query.grouped with
  | true =>
    rw [grouped] at hgrouped
    rw [if_pos hgrouped, if_pos rfl]
    refine ⟨_, rfl, ?_⟩
    exact and_iff_left fun col hcol => hcol
  | false =>
    rw [grouped] at hgrouped
    rw [hgrouped, if_neg Bool.false_ne_true, if_neg Bool.false_ne_true]
    refine ⟨_, rfl, ?_⟩
    unfold sorts generateSortPlan
    cases query.hasOrderBy with
    | false => simp [SelectPlan.Feeds, SelectPlan.outputs]
    | true =>
      by_cases hcols : query.orderByCols = []
      · simp [hcols, SelectPlan.Feeds, SelectPlan.outputs]
      · have hkeys : (∀ col ∈ (query.orderByCols.filter (!·.isAgg)).map (·.col), col ∈ plan.outputs env) ↔
            ∀ o ∈ query.orderByCols, o.isAgg = false → o.col ∈ plan.outputs env := by
          simp only [List.forall_mem_map, List.mem_filter, Bool.not_eq_true', and_imp]
        simp only [hcols, if_true, if_false, SelectPlan.Feeds, SelectPlan.outputs, hkeys, ne_eq, not_false_eq_true,
          decide_true, Bool.and_self, forall_const, and_assoc]

end SelectQuery
end Rmdb
