import Rmdb.Optimizer.JoinOrder
import Rmdb.Lib.Selection

/-! The loops that order the tables and build the left-deep tree, and the shape of that tree. -/
namespace Rmdb

namespace Plan

/-- `collect_left_tables`: the tables of the scans below a node. -/
def tables : Plan → List String
  | scan tab _ _ _ => [tab]
  | projection sub _ => sub.tables
  | join left right _ => left.tables ++ right.tables

/-- More conditions for a join that is the root. -/
def addConds : Plan → List Condition → Plan
  | join left right conds, more => join left right (conds ++ more)
  | plan, _ => plan

end Plan

namespace Planner

/-! ### The loops of the source -/

/-- The index of the first of the least counts that are not passed over. -/
def minNext (rowCounts : List ℤ) (used : ℕ → Bool) : Option ℕ :=
  (List.range rowCounts.length).foldl (fun least i =>
    if used i then least else Selection.better (rowCounts.getD · 0) least i) none

def greedyRest (rowCounts : List ℤ) : ℕ → (ℕ → Bool) → List ℕ
  | 0, _ => []
  | k + 1, used =>
    match minNext rowCounts used with
    | none => []
    | some least => least :: greedyRest rowCounts k (Function.update used least true)

/-- The two least tables first, then always the least of the others. -/
def greedyIndices (rowCounts : List ℤ) : List ℕ :=
  match minNext rowCounts fun _ => false with
  | none => []
  | some min₁ =>
    match minNext rowCounts fun i => i = min₁ with
    | none => []
    | some min₂ =>
      min₁ :: min₂ ::
        greedyRest rowCounts (rowCounts.length - 2)
          (Function.update (Function.update (fun _ => false) min₁ true) min₂ true)

/-- The joins of the JOIN clauses, each with the tables of the tree built so far. -/
def joinOnTree (onConds : List Condition) : Plan → List (String × Plan) → Plan
  | plan, [] => plan
  | plan, (newTable, scan) :: rest =>
    joinOnTree onConds (.join plan scan (onConds.filter (connects newTable plan.tables))) rest

/-- The joins of a FROM list, with the conditions that are left. -/
def joinFromLoop : List Condition → Plan → List (String × Plan) → Plan × List Condition
  | conds, plan, [] => (plan, conds)
  | conds, plan, (newTable, scan) :: rest =>
    joinFromLoop (conds.filter fun cond => !connects newTable plan.tables cond)
      (.join plan scan (conds.filter (connects newTable plan.tables))) rest

def joinFromTree (conds : List Condition) (plan : Plan) (entries : List (String × Plan)) : Plan :=
  let (plan, left) := joinFromLoop conds plan entries
  plan.addConds (left.filter isColCond)

section
variable (tabs : String → Option TabMeta) (rowCount : String → ℤ)

def buildJoinTree (query : Query) : Except DbError Plan := do
  let (leaves, _) := popConds query.tables query.conds
  match ← leaves.mapM fun (tab, conds) => joinScan tabs query tab conds with
  | [(_, scan)] => return scan
  | scans =>
    let order :=
      if useGreedy rowCount query.tables query.onConds then
        (greedyIndices (query.tables.map rowCount)).filterMap (scans[·]?)
      else scans
    match order with
    | [] => throw .crash
    | (_, scan) :: rest => return joinOnTree query.onConds scan rest

def makeJoinTree (query : Query) : Except DbError Plan := do
  if query.hasJoin then buildJoinTree tabs rowCount query
  else
    let (leaves, conds) := popConds query.tables query.conds
    match ← leaves.mapM fun (tab, conds) => fromScan tabs query tab conds with
    | [] => throw .crash
    | [(_, scan)] => return scan
    | (_, scan) :: rest => return joinFromTree conds scan rest

end

/-! ### The selection loop is the greedy order -/

open Selection

section
variable {rowCount : String → ℤ} {entry m : String × Plan} {entries rest pre post : List (String × Plan)} {n : ℕ}

theorem takeMin_eq (hsplit : entry :: rest = pre ++ m :: post)
    (hmin : FirstMin (fun entry => rowCount entry.1) m pre post) :
    takeMin rowCount entry rest = (m, pre ++ post) := by
  induction rest generalizing entry pre with
  | nil =>
    cases pre with
    | nil =>
      obtain ⟨rfl, rfl⟩ := List.cons.inj hsplit
      rfl
    | cons p pre => exact absurd (List.cons.inj hsplit).2 (by simp)
  | cons next rest ih =>
    rw [takeMin]
    dsimp only
    cases pre with
    | nil =>
      obtain ⟨rfl, rfl⟩ := List.cons.inj hsplit
      have hmem : (takeMin rowCount next rest).1 ∈ next :: rest := takeMin_perm.subset List.mem_cons_self
      rw [if_neg (not_lt.mpr (hmin.after _ hmem)), List.nil_append]
    | cons p pre =>
      obtain ⟨rfl, hrest⟩ := List.cons.inj hsplit
      have hlt := hmin.before entry List.mem_cons_self
      rw [ih hrest ⟨fun a ha => hmin.before a (List.mem_cons_of_mem entry ha), hmin.after⟩, if_pos hlt,
        List.cons_append]

theorem minNext_eq (rowCounts : List ℤ) (used : ℕ → Bool) :
    minNext rowCounts used = firstMin (rowCounts.getD · 0) ((List.range rowCounts.length).filter fun i => !used i) := by
  unfold minNext firstMin
  rw [List.foldl_filter]
  congr 1
  funext least i
  cases used i with
  | true => rfl
  | false => rfl

/-- The tables that are not used yet. -/
def unused (n : ℕ) (used : ℕ → Bool) : List ℕ := (List.range n).filter fun i => !used i

theorem unused_update {used : ℕ → Bool} {least : ℕ} {pre post : List ℕ} (h : unused n used = pre ++ least :: post) :
    unused n (Function.update used least true) = pre ++ post := by
  have hnodup : (pre ++ least :: post).Nodup := by
    rw [← h]
    exact List.nodup_range.filter _
  obtain ⟨hnot, -⟩ := List.nodup_cons.mp (List.nodup_middle.mp hnodup)
  have hupdate : unused n (Function.update used least true) = (unused n used).filter fun i => i ≠ least := by
    unfold unused
    rw [List.filter_filter]
    apply List.filter_congr
    intro i hi
    by_cases heq : i = least
    · subst heq
      simp
    · simp [heq]
  have hkeep : ∀ i ∈ pre ++ post, decide (i ≠ least) = true := by
    intro i hi
    apply decide_eq_true
    rintro rfl
    exact hnot hi
  rw [List.forall_mem_append] at hkeep
  rw [hupdate, h, List.filter_append, List.filter_cons_of_neg, List.filter_eq_self.mpr hkeep.1,
    List.filter_eq_self.mpr hkeep.2]
  simp

theorem minNext_of_unused (rowCounts : List ℤ) (used : ℕ → Bool) (h : unused rowCounts.length used ≠ []) :
    ∃ least pre post, minNext rowCounts used = some least ∧ unused rowCounts.length used = pre ++ least :: post ∧
      FirstMin (rowCounts.getD · 0) least pre post := by
  rw [minNext_eq]
  exact firstMin_spec h

theorem getElem?_of_mem_unused {used : ℕ → Bool} {i : ℕ} (h : i ∈ unused entries.length used) :
    ∃ entry, entries[i]? = some entry ∧ (entries.map fun entry => rowCount entry.1).getD i 0 = rowCount entry.1 := by
  have hi := List.mem_range.mp (List.mem_filter.mp h).1
  refine ⟨entries[i], List.getElem?_eq_getElem hi, ?_⟩
  rw [List.getD_eq_getElem?_getD, List.getElem?_map, List.getElem?_eq_getElem hi]
  rfl

theorem greedyRest_eq (k : ℕ) (used : ℕ → Bool) :
    (greedyRest (entries.map fun entry => rowCount entry.1) k used).filterMap (entries[·]?) =
      greedyFrom rowCount k ((unused entries.length used).filterMap (entries[·]?)) := by
  induction k generalizing used with
  | zero => rfl
  | succ k ih =>
    by_cases hnil : unused entries.length used = []
    · have hnone : minNext (entries.map fun entry => rowCount entry.1) used = none := by
        rw [minNext_eq, List.length_map]
        change firstMin _ (unused entries.length used) = none
        rw [hnil]
        rfl
      rw [greedyRest, hnone, hnil]
      rfl
    · have hlen : (entries.map fun entry => rowCount entry.1).length = entries.length := List.length_map _
      obtain ⟨least, pre, post, hnext, hsplit, hmin⟩ :=
        minNext_of_unused (entries.map fun entry => rowCount entry.1) used (by rwa [hlen])
      rw [hlen] at hsplit
      have hread : ∀ i ∈ pre ++ least :: post, ∃ entry, entries[i]? = some entry ∧
          (entries.map fun entry => rowCount entry.1).getD i 0 = rowCount entry.1 := by
        intro i hi
        rw [← hsplit] at hi
        exact getElem?_of_mem_unused hi
      obtain ⟨m, hm, hcount⟩ := hread least (List.mem_append_right pre List.mem_cons_self)
      have hentries : (unused entries.length used).filterMap (entries[·]?) =
          pre.filterMap (entries[·]?) ++ m :: post.filterMap (entries[·]?) := by
        rw [hsplit, List.filterMap_append, List.filterMap_cons_some hm]
      have hentrymin : FirstMin (fun entry : String × Plan => rowCount entry.1) m (pre.filterMap (entries[·]?))
          (post.filterMap (entries[·]?)) := by
        constructor
        · intro entry hentry
          obtain ⟨i, hi, hget⟩ := List.mem_filterMap.mp hentry
          obtain ⟨entry', hget', hcount'⟩ := hread i (List.mem_append_left _ hi)
          obtain rfl := Option.some.inj (hget.symm.trans hget')
          rw [← hcount, ← hcount']
          exact hmin.before i hi
        · intro entry hentry
          obtain ⟨i, hi, hget⟩ := List.mem_filterMap.mp hentry
          obtain ⟨entry', hget', hcount'⟩ := hread i (List.mem_append_right _ (List.mem_cons_of_mem least hi))
          obtain rfl := Option.some.inj (hget.symm.trans hget')
          rw [← hcount, ← hcount']
          exact hmin.after i hi
      rw [greedyRest, hnext]
      dsimp only
      rw [List.filterMap_cons_some hm, ih, unused_update hsplit, List.filterMap_append, hentries]
      cases hlist : pre.filterMap (entries[·]?) ++ m :: post.filterMap (entries[·]?) with
      | nil => exact absurd hlist (List.append_ne_nil_of_right_ne_nil _ (List.cons_ne_nil _ _))
      | cons entry rest => rw [greedyFrom, takeMin_eq hlist.symm hentrymin]

theorem filterMap_getElem? {α : Type} (l : List α) : (List.range l.length).filterMap (l[·]?) = l := by
  induction l with
  | nil => rfl
  | cons a l ih =>
    rw [List.length_cons, List.range_succ_eq_map, List.filterMap_cons_some List.getElem?_cons_zero, List.filterMap_map]
    congr 1

theorem unused_ne_nil {used : ℕ → Bool} {i : ℕ} (hi : i < n) (hused : used i = false) : unused n used ≠ [] := by
  apply List.ne_nil_of_mem (a := i)
  rw [unused, List.mem_filter, List.mem_range, hused]
  exact ⟨hi, rfl⟩

theorem greedyIndices_eq_greedyRest {rowCounts : List ℤ} (htwo : 2 ≤ rowCounts.length) :
    greedyIndices rowCounts = greedyRest rowCounts rowCounts.length fun _ => false := by
  obtain ⟨n, hn⟩ := Nat.exists_eq_add_of_le' htwo
  obtain ⟨min₁, -, -, hmin₁, -, -⟩ :=
    minNext_of_unused rowCounts (fun _ => false) (unused_ne_nil (i := 0) (by omega) rfl)
  have hguard : (fun i => decide (i = min₁)) = Function.update (fun _ => false) min₁ true := by
    funext i
    by_cases heq : i = min₁
    · subst heq
      simp
    · simp [heq]
  have hother : ∃ i < rowCounts.length, Function.update (fun _ : ℕ => false) min₁ true i = false := by
    by_cases hzero : min₁ = 0
    · exact ⟨1, by omega, by simp [hzero]⟩
    · exact ⟨0, by omega, by simp [Ne.symm hzero]⟩
  obtain ⟨i, hi, hused⟩ := hother
  obtain ⟨min₂, -, -, hmin₂, -, -⟩ := minNext_of_unused rowCounts _ (unused_ne_nil hi hused)
  unfold greedyIndices
  rw [hmin₁]
  dsimp only
  rw [hguard, hmin₂, hn, greedyRest, hmin₁]
  dsimp only
  rw [greedyRest, hmin₂]
  rfl

/-- The two least first and then the least of the others is the greedy order. -/
theorem greedyIndices_eq (htwo : 2 ≤ entries.length) :
    (greedyIndices (entries.map fun entry => rowCount entry.1)).filterMap (entries[·]?) =
      greedyOrder rowCount entries := by
  have hall : unused entries.length (fun _ => false) = List.range entries.length :=
    List.filter_eq_self.mpr fun _ _ => rfl
  rw [greedyIndices_eq_greedyRest (by rwa [List.length_map]), greedyRest_eq, hall, filterMap_getElem?, List.length_map]
  rfl

theorem mem_of_mem_greedyFrom (h : entry ∈ greedyFrom rowCount n entries) : entry ∈ entries := by
  induction n generalizing entries with
  | zero => exact absurd h List.not_mem_nil
  | succ n ih =>
    cases entries with
    | nil => exact absurd h List.not_mem_nil
    | cons first rest =>
      rw [greedyFrom] at h
      apply takeMin_perm.subset
      exact List.mem_cons.mpr ((List.mem_cons.mp h).imp_right ih)

theorem takeMin_le (entry : String × Plan) (rest : List (String × Plan)) :
    ∀ other ∈ (takeMin rowCount entry rest).2, rowCount (takeMin rowCount entry rest).1.1 ≤ rowCount other.1 := by
  obtain ⟨m, pre, post, -, hsplit, hmin⟩ := foldl_better (fun entry : String × Plan => rowCount entry.1) entry rest
  rw [takeMin_eq hsplit hmin]
  intro other hother
  apply hmin.le
  rw [List.mem_append, List.mem_cons]
  exact (List.mem_append.mp hother).imp_right Or.inr

theorem greedyFrom_sorted (rowCount : String → ℤ) (n : ℕ) (entries : List (String × Plan)) :
    ((greedyFrom rowCount n entries).map fun entry => rowCount entry.1).Pairwise (· ≤ ·) := by
  induction n generalizing entries with
  | zero => exact .nil
  | succ n ih =>
    cases entries with
    | nil => exact .nil
    | cons entry rest =>
      rw [greedyFrom, List.map_cons, List.pairwise_cons]
      refine ⟨?_, ih _⟩
      intro count hcount
      obtain ⟨other, hother, rfl⟩ := List.mem_map.mp hcount
      exact takeMin_le entry rest other (mem_of_mem_greedyFrom hother)

end

/-! ### The tree -/

end Planner

/-- A join with the tables on its two sides. -/
structure JoinNode where
  left : List String
  right : List String
  conds : List Condition

namespace Plan

def joinNodes : Plan → List JoinNode
  | scan _ _ _ _ => []
  | projection sub _ => sub.joinNodes
  | join left right conds => left.joinNodes ++ right.joinNodes ++ [⟨left.tables, right.tables, conds⟩]

/-- A scan, maybe under a projection. -/
def IsLeaf : Plan → Prop
  | scan _ _ _ _ => True
  | projection sub _ => sub.IsLeaf
  | join _ _ _ => False

def LeftDeep : Plan → Prop
  | join left right _ => left.LeftDeep ∧ right.IsLeaf
  | plan => plan.IsLeaf

theorem leftDeep_of_isLeaf {plan : Plan} (h : plan.IsLeaf) : plan.LeftDeep := by
  cases plan with
  | scan tab indexColNames conds filterConds => exact h
  | projection sub cols => exact h
  | join left right conds => exact h.elim

end Plan

namespace Planner

open Query (between crossTable)

/-- The node is the lowest one with both tables of the condition below it. -/
structure Lowest (node : JoinNode) (cond : Condition) : Prop where
  both : between (node.left ++ node.right) cond = true
  left : between node.left cond = false
  right : between node.right cond = false

/-- All occurrences of the condition are at its lowest node. -/
def CarriedOnce (nodes : List JoinNode) (conds : List Condition) (cond : Condition) : Prop :=
  ∃ before node after, nodes = before ++ node :: after ∧ Lowest node cond ∧ node.conds.count cond = conds.count cond ∧
    ∀ other ∈ before ++ after, cond ∉ other.conds

section
variable {tab : String} {lefts : List String} {cond : Condition} {conds : List Condition} {plan : Plan}
  {entries : List (String × Plan)}

/-- An entry of the join order: a scan of its table. -/
structure ScanOf (entry : String × Plan) : Prop where
  tables : entry.2.tables = [entry.1]
  isLeaf : entry.2.IsLeaf
  joinNodes : entry.2.joinNodes = []

theorem scanOf_project (query : Query) (tab : String) (indexColNames : Option (List String))
    (conds filterConds : List Condition) :
    ScanOf (tab, project query tab (.scan tab indexColNames conds filterConds)) := by
  unfold project
  split
  · exact ⟨rfl, trivial, rfl⟩
  · exact ⟨rfl, trivial, rfl⟩

theorem joinOnTree_eq (hscans : ∀ entry ∈ entries, ScanOf entry) :
    joinOnTree conds plan entries = joinOn conds plan plan.tables entries := by
  induction entries generalizing plan with
  | nil => rfl
  | cons entry rest ih =>
    obtain ⟨hentry, hrest⟩ := List.forall_mem_cons.mp hscans
    rw [joinOnTree, ih hrest, joinOn, Plan.tables, hentry.tables]

theorem joinFromTree_eq (conds : List Condition) (plan : Plan) (hscans : ∀ entry ∈ entries, ScanOf entry)
    (hne : entries ≠ []) :
    joinFromTree conds plan entries = joinFrom conds plan plan.tables entries := by
  induction entries generalizing conds plan with
  | nil => exact absurd rfl hne
  | cons entry rest ih =>
    obtain ⟨hentry, hrest⟩ := List.forall_mem_cons.mp hscans
    cases rest with
    | nil => rfl
    | cons next rest =>
      have hnext := ih (conds.filter fun cond => !connects entry.1 plan.tables cond)
        (.join plan entry.2 (conds.filter (connects entry.1 plan.tables))) hrest (List.cons_ne_nil next rest)
      rw [Plan.tables, hentry.tables] at hnext
      rw [joinFrom, ← hnext]
      rfl

/-- The joins `nodes` with the tables `tabs` have been put on top of a plan. -/
structure Extends (plan plan' : Plan) (tabs : List String) (nodes : List JoinNode) : Prop where
  tables : plan'.tables = plan.tables ++ tabs
  leftDeep : plan.LeftDeep → plan'.LeftDeep
  joinNodes : plan'.joinNodes = plan.joinNodes ++ nodes

theorem Extends.refl (plan : Plan) : Extends plan plan [] [] := ⟨(List.append_nil _).symm, id, (List.append_nil _).symm⟩

theorem Extends.join {plan' : Plan} {entry : String × Plan} {tabs : List String} {nodes : List JoinNode}
    (hentry : ScanOf entry) (h : Extends (.join plan entry.2 conds) plan' tabs nodes) :
    Extends plan plan' (entry.1 :: tabs) (⟨plan.tables, [entry.1], conds⟩ :: nodes) where
  tables := by
    rw [h.tables, Plan.tables, hentry.tables, List.append_assoc, List.singleton_append]
  leftDeep := fun hplan => h.leftDeep ⟨hplan, hentry.isLeaf⟩
  joinNodes := by
    rw [h.joinNodes, Plan.joinNodes, hentry.joinNodes, hentry.tables, List.append_nil, List.append_assoc,
      List.singleton_append]

def nodesOn (conds : List Condition) : List String → List String → List JoinNode
  | _, [] => []
  | lefts, tab :: rest => ⟨lefts, [tab], conds.filter (connects tab lefts)⟩ :: nodesOn conds (lefts ++ [tab]) rest

def nodesFrom : List Condition → List String → List String → List JoinNode
  | _, _, [] => []
  | conds, lefts, tab :: rest =>
    let left := conds.filter fun cond => !connects tab lefts cond
    match rest with
    | [] => [⟨lefts, [tab], conds.filter (connects tab lefts) ++ left.filter isColCond⟩]
    | next :: rest =>
      ⟨lefts, [tab], conds.filter (connects tab lefts)⟩ :: nodesFrom left (lefts ++ [tab]) (next :: rest)

theorem extends_joinOn (conds : List Condition) (plan : Plan) (hscans : ∀ entry ∈ entries, ScanOf entry) :
    Extends plan (joinOn conds plan plan.tables entries) (entries.map (·.1))
      (nodesOn conds plan.tables (entries.map (·.1))) := by
  induction entries generalizing plan with
  | nil => exact Extends.refl plan
  | cons entry rest ih =>
    obtain ⟨hentry, hrest⟩ := List.forall_mem_cons.mp hscans
    have hnext := ih (.join plan entry.2 (conds.filter (connects entry.1 plan.tables))) hrest
    rw [Plan.tables, hentry.tables] at hnext
    exact hnext.join hentry

theorem extends_joinFrom (conds : List Condition) (plan : Plan) (hscans : ∀ entry ∈ entries, ScanOf entry) :
    Extends plan (joinFrom conds plan plan.tables entries) (entries.map (·.1))
      (nodesFrom conds plan.tables (entries.map (·.1))) := by
  induction entries generalizing conds plan with
  | nil => exact Extends.refl plan
  | cons entry rest ih =>
    obtain ⟨hentry, hrest⟩ := List.forall_mem_cons.mp hscans
    cases rest with
    | nil => exact (Extends.refl _).join hentry
    | cons next rest =>
      have hnext := ih (conds.filter fun cond => !connects entry.1 plan.tables cond)
        (.join plan entry.2 (conds.filter (connects entry.1 plan.tables))) hrest
      rw [Plan.tables, hentry.tables] at hnext
      exact hnext.join hentry

theorem carriedOnce_here {node : JoinNode} {nodes : List JoinNode} (hlowest : Lowest node cond)
    (hcount : node.conds.count cond = conds.count cond) (hothers : ∀ other ∈ nodes, cond ∉ other.conds) :
    CarriedOnce (node :: nodes) conds cond :=
  ⟨[], node, nodes, rfl, hlowest, hcount, hothers⟩

theorem CarriedOnce.later {node : JoinNode} {nodes : List JoinNode} {conds' : List Condition}
    (hnode : cond ∉ node.conds) (h : CarriedOnce nodes conds' cond) (hcount : conds'.count cond = conds.count cond) :
    CarriedOnce (node :: nodes) conds cond := by
  obtain ⟨before, carrier, after, rfl, hlowest, hcarried, hothers⟩ := h
  refine ⟨node :: before, carrier, after, rfl, hlowest, hcarried.trans hcount, ?_⟩
  rw [List.cons_append, List.forall_mem_cons]
  exact ⟨hnode, hothers⟩

theorem lowest_of_connects (htab : tab ∉ lefts) (h : connects tab lefts cond = true) (conds : List Condition) :
    Lowest ⟨lefts, [tab], conds⟩ cond := by
  rw [connects_eq htab, Bool.and_eq_true, Bool.not_eq_true'] at h
  exact ⟨h.2, h.1, between_singleton⟩

theorem count_filter_of_connects (h : connects tab lefts cond = true) :
    (conds.filter (connects tab lefts)).count cond = conds.count cond := List.count_filter h

theorem not_mem_filter_connects (h : connects tab lefts cond = false) : cond ∉ conds.filter (connects tab lefts) := by
  intro hmem
  exact Bool.eq_false_iff.mp h (List.mem_filter.mp hmem).2

section
variable {tabs : List String}

theorem notMem_of_nodup (hnodup : (lefts ++ tab :: tabs).Nodup) : tab ∉ lefts := by
  intro htab
  exact (List.nodup_append.mp hnodup).2.2 tab htab tab List.mem_cons_self rfl

theorem not_carried_nodesOn (hnodup : (lefts ++ tabs).Nodup) (h : between lefts cond = true) :
    ∀ node ∈ nodesOn conds lefts tabs, cond ∉ node.conds := by
  induction tabs generalizing lefts with
  | nil => exact List.forall_mem_nil _
  | cons tab rest ih =>
    have hconnects : connects tab lefts cond = false := by
      rw [connects_eq (notMem_of_nodup hnodup), h]
      rfl
    rw [nodesOn, List.forall_mem_cons]
    rw [List.append_cons] at hnodup
    exact ⟨not_mem_filter_connects hconnects, ih hnodup (between_append h)⟩

theorem carriedOnce_nodesOn (hnodup : (lefts ++ tabs).Nodup) (hnot : between lefts cond = false)
    (hbetween : between (lefts ++ tabs) cond = true) : CarriedOnce (nodesOn conds lefts tabs) conds cond := by
  induction tabs generalizing lefts with
  | nil =>
    rw [List.append_nil, hnot] at hbetween
    cases hbetween
  | cons tab rest ih =>
    have htab := notMem_of_nodup hnodup
    rw [List.append_cons] at hnodup hbetween
    rw [nodesOn]
    cases hconnects : connects tab lefts cond with
    | true =>
      have hlowest := lowest_of_connects htab hconnects (conds.filter (connects tab lefts))
      exact carriedOnce_here hlowest (count_filter_of_connects hconnects) (not_carried_nodesOn hnodup hlowest.both)
    | false =>
      have hstill : between (lefts ++ [tab]) cond = false := by
        rw [connects_eq htab, hnot] at hconnects
        exact hconnects
      exact (ih hnodup hstill hbetween).later (not_mem_filter_connects hconnects) rfl

theorem not_carried_nodesFrom (h : cond ∉ conds) : ∀ node ∈ nodesFrom conds lefts tabs, cond ∉ node.conds := by
  have hfilter : ∀ p : Condition → Bool, cond ∉ conds.filter p := fun p hmem => h (List.mem_filter.mp hmem).1
  induction tabs generalizing conds lefts with
  | nil => exact List.forall_mem_nil _
  | cons tab rest ih =>
    cases rest with
    | nil =>
      rw [nodesFrom, List.forall_mem_singleton, List.mem_append, not_or]
      exact ⟨hfilter _, fun hmem => hfilter _ (List.mem_filter.mp hmem).1⟩
    | cons next rest =>
      rw [nodesFrom, List.forall_mem_cons]
      exact ⟨hfilter _, ih (hfilter _) fun p hmem => hfilter _ (List.mem_filter.mp hmem).1⟩

theorem carriedOnce_nodesFrom (hnodup : (lefts ++ tabs).Nodup) (hnot : between lefts cond = false)
    (hbetween : between (lefts ++ tabs) cond = true) : CarriedOnce (nodesFrom conds lefts tabs) conds cond := by
  induction tabs generalizing conds lefts with
  | nil =>
    rw [List.append_nil, hnot] at hbetween
    cases hbetween
  | cons tab rest ih =>
    have htab := notMem_of_nodup hnodup
    rw [List.append_cons] at hnodup hbetween
    cases hconnects : connects tab lefts cond with
    | true =>
      have hleft : cond ∉ conds.filter fun cond => !connects tab lefts cond := by
        intro hmem
        have hkept := (List.mem_filter.mp hmem).2
        rw [hconnects] at hkept
        cases hkept
      cases rest with
      | nil =>
        rw [nodesFrom]
        apply carriedOnce_here (lowest_of_connects htab hconnects _) _ (List.forall_mem_nil _)
        rw [List.count_append, count_filter_of_connects hconnects,
          List.count_eq_zero_of_not_mem fun hmem => hleft (List.mem_filter.mp hmem).1]
        rfl
      | cons next rest =>
        rw [nodesFrom]
        exact carriedOnce_here (lowest_of_connects htab hconnects _) (count_filter_of_connects hconnects)
          (not_carried_nodesFrom hleft)
    | false =>
      have hstill : between (lefts ++ [tab]) cond = false := by
        rw [connects_eq htab, hnot] at hconnects
        exact hconnects
      have hcount : (conds.filter fun cond => !connects tab lefts cond).count cond = conds.count cond := by
        apply List.count_filter
        rw [hconnects]
        rfl
      cases rest with
      | nil =>
        rw [List.append_nil, hstill] at hbetween
        cases hbetween
      | cons next rest =>
        rw [nodesFrom]
        exact (ih hnodup hstill hbetween).later (not_mem_filter_connects hconnects) hcount

end
end

/-! ### The tree of a query -/

open Query

theorem map_fst_popConds (tabs : List String) (conds : List Condition) : (popConds tabs conds).1.map (·.1) = tabs := by
  induction tabs generalizing conds with
  | nil => rfl
  | cons tab tabs ih =>
    rw [popConds]
    exact congrArg (tab :: ·) (ih _)

/-- A condition between two tables stays for the joins. -/
theorem count_popConds {cond : Condition} (h : crossTable cond = true) (tabs : List String) (conds : List Condition) :
    (popConds tabs conds).2.count cond = conds.count cond := by
  induction tabs generalizing conds with
  | nil => rfl
  | cons tab tabs ih =>
    have hkept : (conds.filter fun cond => !popped tab cond).count cond = conds.count cond := by
      apply List.count_filter
      rw [popped_eq, h]
      rfl
    rw [popConds]
    exact (ih _).trans hkept

/-- The conditions that the joins are made from. -/
def joinConds (query : Query) : List Condition := if query.hasJoin then query.onConds else query.conds

section
variable {tabs : String → Option TabMeta} {rowCount : String → ℤ} {query : Query}

theorem joinScan_eq {tab : String} (htab : ∃ tabMeta, tabs tab = some tabMeta) (conds : List Condition) :
    ∃ entry, joinScan tabs query tab conds = .ok entry ∧ entry.1 = tab ∧ ScanOf entry := by
  obtain ⟨tabMeta, htabMeta⟩ := htab
  unfold joinScan Analyze.getTable
  rw [htabMeta]
  exact ⟨_, rfl, rfl, scanOf_project query tab _ _ _⟩

theorem fromScan_eq {tab : String} (htab : ∃ tabMeta, tabs tab = some tabMeta) (conds : List Condition) :
    ∃ entry, fromScan tabs query tab conds = .ok entry ∧ entry.1 = tab ∧ ScanOf entry := by
  obtain ⟨tabMeta, htabMeta⟩ := htab
  unfold fromScan Analyze.getTable
  rw [htabMeta]
  exact ⟨_, rfl, rfl, scanOf_project query tab _ _ _⟩

theorem scans_eq {makeScan : String → List Condition → Except DbError (String × Plan)}
    {leaves : List (String × List Condition)}
    (h : ∀ tab ∈ leaves.map (·.1), ∀ conds, ∃ entry, makeScan tab conds = .ok entry ∧ entry.1 = tab ∧ ScanOf entry) :
    ∃ scans, leaves.mapM (fun (tab, conds) => makeScan tab conds) = .ok scans ∧ scans.map (·.1) = leaves.map (·.1) ∧
      ∀ entry ∈ scans, ScanOf entry := by
  induction leaves with
  | nil => exact ⟨[], rfl, rfl, List.forall_mem_nil _⟩
  | cons leaf leaves ih =>
    rw [List.map_cons, List.forall_mem_cons] at h
    obtain ⟨entry, hentry, hname, hscan⟩ := h.1 leaf.2
    obtain ⟨scans, hscans, hnames, hall⟩ := ih h.2
    refine ⟨entry :: scans, ?_, ?_, List.forall_mem_cons.mpr ⟨hscan, hall⟩⟩
    · rw [List.mapM_cons]
      dsimp only
      rw [hentry, hscans]
      rfl
    · rw [List.map_cons, List.map_cons, hname, hnames]

/-- What a left-deep tree of all tables is, and where it has the conditions. -/
structure JoinTreeOf (tables : List String) (conds : List Condition) (plan : Plan) : Prop where
  leftDeep : plan.LeftDeep
  leaves : plan.tables.Perm tables
  carries : ∀ cond ∈ conds, between tables cond = true → CarriedOnce plan.joinNodes conds cond

theorem between_perm {tables tables' : List String} (h : tables.Perm tables') (cond : Condition) :
    between tables cond = between tables' cond := by
  rw [Bool.eq_iff_iff, between_iff, between_iff]
  simp only [h.mem_iff]

section
variable {entry : String × Plan} {rest : List (String × Plan)}

theorem joinTreeOf_joinOn (conds : List Condition) (hscans : ∀ e ∈ entry :: rest, ScanOf e)
    (hnodup : ((entry :: rest).map (·.1)).Nodup) :
    JoinTreeOf ((entry :: rest).map (·.1)) conds (joinOnTree conds entry.2 rest) ∧
      (joinOnTree conds entry.2 rest).tables = (entry :: rest).map (·.1) := by
  obtain ⟨hentry, hrest⟩ := List.forall_mem_cons.mp hscans
  have h := extends_joinOn conds entry.2 hrest
  rw [← joinOnTree_eq hrest, hentry.tables] at h
  have htables := h.tables
  rw [hentry.tables] at htables
  refine ⟨⟨h.leftDeep (Plan.leftDeep_of_isLeaf hentry.isLeaf), ?_, ?_⟩, htables⟩
  · rw [htables]
    exact .refl _
  · intro cond _ hbetween
    rw [h.joinNodes, hentry.joinNodes]
    exact carriedOnce_nodesOn hnodup between_singleton hbetween

theorem joinTreeOf_joinFrom (conds : List Condition) (hscans : ∀ e ∈ entry :: rest, ScanOf e) (hne : rest ≠ [])
    (hnodup : ((entry :: rest).map (·.1)).Nodup) :
    JoinTreeOf ((entry :: rest).map (·.1)) conds (joinFromTree conds entry.2 rest) := by
  obtain ⟨hentry, hrest⟩ := List.forall_mem_cons.mp hscans
  have h := extends_joinFrom conds entry.2 hrest
  rw [← joinFromTree_eq conds entry.2 hrest hne, hentry.tables] at h
  refine ⟨h.leftDeep (Plan.leftDeep_of_isLeaf hentry.isLeaf), ?_, ?_⟩
  · rw [h.tables, hentry.tables]
    exact .refl _
  · intro cond _ hbetween
    rw [h.joinNodes, hentry.joinNodes]
    exact carriedOnce_nodesFrom hnodup between_singleton hbetween

end

theorem greedyOrder_filterMap (htwo : 2 ≤ query.tables.length) {scans : List (String × Plan)}
    (hnames : scans.map (·.1) = query.tables) :
    (greedyIndices (query.tables.map rowCount)).filterMap (scans[·]?) = greedyOrder rowCount scans := by
  rw [← hnames, List.length_map] at htwo
  rw [← hnames, List.map_map]
  exact greedyIndices_eq htwo

theorem exists_scans {makeScan : String → List Condition → Except DbError (String × Plan)}
    (h : ∀ tab ∈ query.tables, ∀ conds, ∃ entry, makeScan tab conds = .ok entry ∧ entry.1 = tab ∧ ScanOf entry)
    (htwo : 2 ≤ query.tables.length) :
    ∃ first second rest, (popConds query.tables query.conds).1.mapM (fun (tab, conds) => makeScan tab conds) =
        .ok (first :: second :: rest) ∧ (first :: second :: rest).map (·.1) = query.tables ∧
      ∀ entry ∈ first :: second :: rest, ScanOf entry := by
  have hleaves := map_fst_popConds query.tables query.conds
  rw [← hleaves] at h
  obtain ⟨scans, hscans, hnames, hall⟩ := scans_eq h
  rw [hleaves] at hnames
  have hlen := congrArg List.length hnames
  rw [List.length_map] at hlen
  match scans, hlen with
  | [], hlen => rw [← hlen] at htwo; cases htwo
  | [_], hlen => rw [← hlen] at htwo; exact absurd htwo (Nat.lt_irrefl 1)
  | first :: second :: rest, _ => exact ⟨first, second, rest, hscans, hnames, hall⟩

/-- The loops build the tree of `makeOneRel`. -/
theorem makeJoinTree_eq (htwo : 2 ≤ query.tables.length)
    (htabs : ∀ tab ∈ query.tables, ∃ tabMeta, tabs tab = some tabMeta) :
    makeJoinTree tabs rowCount query = makeOneRel tabs rowCount query := by
  unfold makeJoinTree makeOneRel
  cases hjoin : query.hasJoin with
  | true =>
    obtain ⟨first, second, rest, hscans, hnames, hall⟩ :=
      exists_scans (fun tab htab conds => joinScan_eq (htabs tab htab) conds) htwo
    rw [if_pos rfl, if_pos rfl]
    unfold buildJoinTree buildJoinPlan
    dsimp only
    rw [hscans]
    change (match (if useGreedy rowCount query.tables query.onConds then
        (greedyIndices (query.tables.map rowCount)).filterMap
          ((first :: second :: rest)[·]?) else first :: second :: rest) with
      | [] => throw .crash
      | (_, scan) :: rest => return joinOnTree query.onConds scan rest : Except DbError Plan) =
      match (if useGreedy rowCount query.tables query.onConds then greedyOrder rowCount (first :: second :: rest)
        else first :: second :: rest) with
      | [] => throw .crash
      | (tab, scan) :: rest => return joinOn query.onConds scan [tab] rest
    rw [greedyOrder_filterMap htwo hnames]
    have horder :
        ∀ entry ∈ if useGreedy rowCount query.tables query.onConds then greedyOrder rowCount (first :: second :: rest)
        else first :: second :: rest, ScanOf entry := by
      split
      · exact fun entry hentry => hall entry (greedyOrder_perm.subset hentry)
      · exact hall
    split
    · rfl
    · next heq =>
      rw [heq, List.forall_mem_cons] at horder
      rw [joinOnTree_eq horder.2, horder.1.tables]
  | false =>
    obtain ⟨first, second, rest, hscans, hnames, hall⟩ :=
      exists_scans (fun tab htab conds => fromScan_eq (htabs tab htab) conds) htwo
    rw [if_neg Bool.false_ne_true, if_neg Bool.false_ne_true]
    dsimp only
    rw [hscans]
    change Except.ok (joinFromTree _ first.2 (second :: rest)) =
      Except.ok (joinFrom _ first.2 [first.1] (second :: rest))
    obtain ⟨hfirst, hrest⟩ := List.forall_mem_cons.mp hall
    rw [joinFromTree_eq _ _ hrest (List.cons_ne_nil second rest), hfirst.tables]

theorem buildJoinTree_spec (rowCount : String → ℤ) (hnodup : query.tables.Nodup) (htwo : 2 ≤ query.tables.length)
    (htabs : ∀ tab ∈ query.tables, ∃ tabMeta, tabs tab = some tabMeta) :
    ∃ plan, buildJoinTree tabs rowCount query = .ok plan ∧ JoinTreeOf query.tables query.onConds plan ∧
      (useGreedy rowCount query.tables query.onConds = true → (plan.tables.map rowCount).Pairwise (· ≤ ·)) := by
  obtain ⟨first, second, rest, hscans, hnames, hall⟩ :=
    exists_scans (fun tab htab conds => joinScan_eq (htabs tab htab) conds) htwo
  let order := if useGreedy rowCount query.tables query.onConds then greedyOrder rowCount (first :: second :: rest)
    else first :: second :: rest
  have hbuild : buildJoinTree tabs rowCount query =
      match order with
      | [] => throw .crash
      | (_, scan) :: rest => return joinOnTree query.onConds scan rest := by
    unfold buildJoinTree
    dsimp only
    unfold order
    rw [hscans, ← greedyOrder_filterMap htwo hnames]
    rfl
  have hperm : order.Perm (first :: second :: rest) := by
    unfold order
    split
    · exact greedyOrder_perm
    · exact .refl _
  cases horder : order with
  | nil =>
    rw [horder] at hperm
    cases hperm.length_eq
  | cons entry others =>
    rw [horder] at hperm hbuild
    have hnamesPerm : ((entry :: others).map (·.1)).Perm query.tables := by
      rw [← hnames]
      exact hperm.map _
    obtain ⟨htree, htables⟩ := joinTreeOf_joinOn query.onConds
      (fun e he => hall e (hperm.subset he)) (hnamesPerm.nodup_iff.mpr hnodup)
    refine ⟨_, hbuild, ⟨htree.leftDeep, htree.leaves.trans hnamesPerm, ?_⟩, ?_⟩
    · intro cond hcond hbetween
      rw [← between_perm hnamesPerm] at hbetween
      exact htree.carries cond hcond hbetween
    · intro hgreedy
      have hsorted := greedyFrom_sorted rowCount (first :: second :: rest).length (first :: second :: rest)
      change ((greedyOrder rowCount (first :: second :: rest)).map _).Pairwise _ at hsorted
      unfold order at horder
      rw [if_pos hgreedy] at horder
      rw [horder] at hsorted
      rw [htables, List.map_map]
      exact hsorted

/-- All tables are leaves, by their sizes where the order is greedy, and each join has the conditions
that it is the lowest for. -/
theorem makeJoinTree_spec (tabs : String → Option TabMeta) (rowCount : String → ℤ) (query : Query)
    (hnodup : query.tables.Nodup) (htwo : 2 ≤ query.tables.length)
    (htabs : ∀ tab ∈ query.tables, ∃ tabMeta, tabs tab = some tabMeta) :
    ∃ plan, makeJoinTree tabs rowCount query = .ok plan ∧ plan.LeftDeep ∧ plan.tables.Perm query.tables ∧
      (query.hasJoin = true → useGreedy rowCount query.tables query.onConds = true →
        (plan.tables.map rowCount).Pairwise (· ≤ ·)) ∧
      ∀ cond ∈ joinConds query, between query.tables cond = true →
        CarriedOnce plan.joinNodes (joinConds query) cond := by
  unfold makeJoinTree joinConds
  cases hjoin : query.hasJoin with
  | true =>
    obtain ⟨plan, hplan, htree, hsorted⟩ := buildJoinTree_spec rowCount hnodup htwo htabs
    exact ⟨plan, hplan, htree.leftDeep, htree.leaves, fun _ => hsorted, htree.carries⟩
  | false =>
    obtain ⟨first, second, rest, hscans, hnames, hall⟩ :=
      exists_scans (fun tab htab conds => fromScan_eq (htabs tab htab) conds) htwo
    rw [← hnames] at hnodup
    have htree := joinTreeOf_joinFrom (popConds query.tables query.conds).2 hall (List.cons_ne_nil second rest) hnodup
    rw [hnames] at htree
    rw [if_neg Bool.false_ne_true]
    dsimp only
    rw [hscans]
    refine ⟨_, rfl, htree.leftDeep, htree.leaves, fun h => absurd h Bool.false_ne_true, ?_⟩
    intro cond hcond hbetween
    have hcount := count_popConds (between_iff.mp hbetween).1 query.tables query.conds
    have hmem : cond ∈ (popConds query.tables query.conds).2 := by
      rw [← List.count_pos_iff, hcount]
      exact List.count_pos_iff.mpr hcond
    obtain ⟨before, node, after, hnodes, hlowest, hcarried, hothers⟩ := htree.carries cond hmem hbetween
    exact ⟨before, node, after, hnodes, hlowest, hcarried.trans hcount, hothers⟩

end

/-- Three tables in the order of their sizes, with a condition at the join of the last one. -/
theorem makeJoinTree_spec_three :
    let cond : Condition := ⟨⟨"t", "a"⟩, .eq, .col ⟨"v", "a"⟩⟩
    let rowCount : String → ℤ := fun tab => if tab = "t" then 3 else if tab = "u" then 1 else 2
    let tabMeta : TabMeta := ⟨[⟨"a", .int, 4, 0⟩], [], by decide⟩
    ∃ plan, makeJoinTree (fun _ => some tabMeta) rowCount ⟨["t", "u", "v"], [], true, [cond], [], true⟩ = .ok plan ∧
      plan.LeftDeep ∧ plan.tables.Perm ["t", "u", "v"] ∧ (plan.tables.map rowCount).Pairwise (· ≤ ·) ∧
      CarriedOnce plan.joinNodes [cond] cond := by
  intro cond rowCount tabMeta
  obtain ⟨plan, hplan, hdeep, hleaves, hsorted, hcarries⟩ := makeJoinTree_spec (fun _ => some tabMeta) rowCount
    ⟨["t", "u", "v"], [], true, [cond], [], true⟩ (by decide) (by decide) (fun _ _ => ⟨_, rfl⟩)
  exact ⟨plan, hplan, hdeep, hleaves, hsorted rfl rfl, hcarries cond List.mem_cons_self rfl⟩

end Planner
end Rmdb
