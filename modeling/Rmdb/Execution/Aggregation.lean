import Mathlib.Data.List.ReduceOption
import Mathlib.Order.Defs.Unbundled
import Rmdb.Execution.RunPlan
import Rmdb.Lib.Program
import Rmdb.Lib.TextStream

/-! The executor of aggregate functions, GROUP BY and HAVING. -/
namespace Rmdb

open Program

/-! ### The library below -/

/-- What the library leaves open. `sort` is bound by a strict weak order only, a hash map may be gone through
in any order. `stof` throws where it has no value. -/
structure Stl where
  sort : {α : Type} → (α → α → Bool) → List α → List α
  sort_spec : ∀ {α : Type} (lt : α → α → Bool) (l : List α), IsStrictWeakOrder α (fun a b => lt a b = true) →
    (sort lt l).Perm l ∧ (sort lt l).Pairwise fun a b => lt b a = false
  iterate : {α : Type} → List (Bytes × α) → List (Bytes × α)
  iterate_perm : ∀ {α : Type} (l : List (Bytes × α)), (iterate l).Perm l
  showFloat : BitVec 32 → Bytes
  stof : Bytes → Option (BitVec 32)

/-- A stable sort, and hash maps in the order of insertion. -/
def Stl.stable (showFloat : BitVec 32 → Bytes) (stof : Bytes → Option (BitVec 32)) : Stl where
  sort lt l := l.mergeSort fun a b => !lt b a
  sort_spec lt l horder := by
    refine ⟨l.mergeSort_perm _, ?_⟩
    have hsorted : (l.mergeSort fun a b => !lt b a).Pairwise fun a b => (!lt b a) = true := by
      apply List.pairwise_mergeSort
      · intro a b c hab hbc
        rw [Bool.not_eq_true'] at hab hbc ⊢
        -- were `c` before `a`, then `b` would be level with both
        by_contra hca
        rw [Bool.not_eq_false] at hca
        have hba : ¬lt a b = true := by
          intro h
          have hcb : lt c b = true := horder.trans _ _ _ hca h
          rw [hbc] at hcb
          cases hcb
        have hcb : ¬lt b c = true := by
          intro h
          have hba : lt b a = true := horder.trans _ _ _ h hca
          rw [hab] at hba
          cases hba
        have hlevel := horder.incomp_trans a b c ⟨hba, by simp [hab]⟩ ⟨hcb, by simp [hbc]⟩
        exact hlevel.2 hca
      · intro a b
        rw [Bool.or_eq_true, Bool.not_eq_true', Bool.not_eq_true']
        by_contra h
        rw [not_or, Bool.not_eq_false, Bool.not_eq_false] at h
        exact horder.irrefl _ (horder.trans _ _ _ h.1 h.2)
    exact hsorted.imp fun h => by simpa using h
  iterate l := l
  iterate_perm l := .refl l
  showFloat := showFloat
  stof := stof

/-- The decimal text of a signed word. -/
def showWord (w : BitVec 32) : Bytes := (TextStream.showInt w.toInt).map fun c => .ofNat c.toNat

/-- Blanks, a sign and digits; what follows is left alone. -/
def stoi (text : Bytes) : Option (BitVec 32) :=
  ((TextStream.readInt 32).run (text.map fun b => Char.ofNat b.toNat)).map fun read => .ofInt 32 read.1

/-! ### The query's part -/

inductive AggFuncType where
  | count
  | max
  | min
  | sum
  | avg
deriving DecidableEq, Repr

/-- In `COUNT(*)` both names of the column are empty. -/
structure AggFunc where
  funcType : AggFuncType
  col : TabCol
  aliasName : String
deriving DecidableEq, Repr

def noCol : TabCol := ⟨"", ""⟩

def AggFunc.isCountStar (f : AggFunc) : Bool := f.funcType = .count ∧ f.col = noCol

/-- `MAX`, `MIN` or `SUM` of a column. -/
def AggFunc.readsType (f : AggFunc) : Bool := f.funcType ≠ .count ∧ f.funcType ≠ .avg ∧ f.col ≠ noCol

def AggFuncType.name : AggFuncType → String
  | .count => "count"
  | .max => "max"
  | .min => "min"
  | .sum => "sum"
  | .avg => "avg"

/-- The name of the result column, where `size` columns stand before it. -/
def AggFunc.caption (f : AggFunc) (size : ℕ) : String :=
  if f.aliasName ≠ "" then f.aliasName
  else if f.isCountStar then "count"
  else if f.col.colName ≠ "" then f.funcType.name ++ "(" ++ f.col.colName ++ ")"
  else "agg_" ++ toString size

/-- One side of a HAVING condition: a column, else an aggregate function, else a constant. -/
structure HavingSide where
  col : TabCol
  isAgg : Bool
  agg : AggFunc
  val : Value
deriving DecidableEq, Repr

structure HavingCond where
  lhs : HavingSide
  op : CompOp
  rhs : HavingSide
deriving DecidableEq, Repr

structure OrderByCol where
  col : TabCol
  isAgg : Bool
  agg : AggFunc
deriving DecidableEq, Repr

/-- A limit that is not positive is none. -/
def cut {α : Type*} (limitVal : ℤ) (l : List α) : List α :=
  if 0 < limitVal ∧ limitVal < l.length then l.take limitVal.toNat else l

theorem cut_pos {α : Type*} {n : ℕ} (hn : 0 < n) (l : List α) : cut n l = l.take n := by
  unfold cut
  by_cases hlen : n < l.length
  · rw [if_pos ⟨by exact_mod_cast hn, by exact_mod_cast hlen⟩]
    rfl
  · rw [if_neg fun h => hlen (by exact_mod_cast h.2), List.take_of_length_le (Nat.le_of_not_lt hlen)]

theorem cut_none {α : Type*} (l : List α) : cut (-1) l = l := if_neg fun h => absurd h.1 (by decide)

/-- The arguments of the executor, apart from its child. -/
structure AggClause where
  aggFuncs : List AggFunc
  groupByCols : List TabCol
  havingConds : List HavingCond
  orderByCols : List OrderByCol
  orderByDirections : List Bool
  limitVal : ℤ

/-- Each aggregate value comes with the accumulator beside it. -/
structure AggState where
  count : BitVec 32
  aggValues : List (Value × Float)

structure AggResult where
  groupKey : List Value
  aggValues : List Value
  count : BitVec 32

/-! ### The rows of a group -/

def toDouble (bits : BitVec 32) : Float := (Float32.ofBits ⟨bits⟩).toFloat

def ofDouble (x : Float) : BitVec 32 := x.toFloat32.toBits.toBitVec

/-- What the value of an aggregate function starts with. -/
def AggFunc.initValue (prevCols : List TableCol) (f : AggFunc) : Except DbError Value :=
  match f.funcType with
  | .count => return .int 0
  | .avg => return .float 0
  | _ => do
    if f.col = noCol then return .int 0
    match (← getCol prevCols f.col).type with
    | .int => return .int 0
    | .float => return .float 0
    | .string => return .str []

/-- The value of an aggregate function after another row. `count` is one in the first row of a group; a
string replaces the one before it. -/
def AggFunc.update (f : AggFunc) (count : BitVec 32) (val : Value) (cell : Value × Float) : Value × Float :=
  match f.funcType with
  | .count =>
    if val = .str [] then cell
    else match cell.1 with
      | .int n => (.int (n + 1), cell.2)
      | _ => (.int 1, cell.2)
  | .max =>
    match cell.1, val with
    | .int old, .int new => if count = 1 ∨ old.toInt < new.toInt then (val, cell.2) else cell
    | .float old, .float new => if count = 1 ∨ Float32.ofBits ⟨old⟩ < Float32.ofBits ⟨new⟩ then (val, cell.2) else cell
    | _, _ => (val, cell.2)
  | .min =>
    match cell.1, val with
    | .int old, .int new => if count = 1 ∨ new.toInt < old.toInt then (val, cell.2) else cell
    | .float old, .float new => if count = 1 ∨ Float32.ofBits ⟨new⟩ < Float32.ofBits ⟨old⟩ then (val, cell.2) else cell
    | _, _ => (val, cell.2)
  | .sum =>
    match cell.1, val with
    | .int old, .int new => (.int (old + new), cell.2)
    | .float _, .float new => (.float (ofDouble (cell.2 + toDouble new)), cell.2 + toDouble new)
    | _, .float new => (val, toDouble new)
    | _, _ => (val, cell.2)
  | .avg =>
    match val with
    | .int new => (cell.1, cell.2 + Float.ofInt new.toInt)
    | .float new => (cell.1, cell.2 + toDouble new)
    | .str _ => cell

namespace AggregationExecutor

def getColumnValue (tuple : Tuple) (col : TabCol) : Except DbError Value :=
  if col.colName = "" then return .int 0
  else match getCell tuple col with
    | none => throw (.rmdb .columnNotFound)
    | some cell => match cell.1.type with
      | .int => return .int (readWord cell.2)
      | .float => return .float (readWord cell.2)
      | .string => return .str (trimString cell.2)

section
variable (stl : Stl) (clause : AggClause) (prevCols : List TableCol)

/-- The text of a grouping value, with a bar behind it. -/
def keyPart (val : Value) : Bytes :=
  match val with
  | .int i => showWord i ++ [124]
  | .float f => stl.showFloat f ++ [124]
  | .str s => s ++ [124]

def globalKey : Bytes := "global".toList.map fun c => .ofNat c.toNat

def getGroupKey (tuple : Tuple) : Except DbError Bytes :=
  if clause.groupByCols = [] then return globalKey
  else do return (← clause.groupByCols.mapM fun col => do return keyPart stl (← getColumnValue tuple col)).flatten

def updateAggState (state : AggState) (tuple : Tuple) : Except DbError AggState := do
  let count := state.count + 1
  let inits ← (clause.aggFuncs.drop state.aggValues.length).mapM fun f => do return (← f.initValue prevCols, (0 : Float))
  let aggValues ← (clause.aggFuncs.zip (state.aggValues ++ inits)).mapM fun (f, cell) => do
    if f.isCountStar then return cell
    else return f.update count (← getColumnValue tuple f.col) cell
  return ⟨count, aggValues⟩

/-- The states of the groups in the order in which they came up. -/
def updateGroup (groups : List (Bytes × AggState)) (key : Bytes) (tuple : Tuple) :
    Except DbError (List (Bytes × AggState)) :=
  match groups with
  | [] => do return [(key, ← updateAggState clause prevCols ⟨0, []⟩ tuple)]
  | group :: groups =>
    if group.1 = key then do return (key, ← updateAggState clause prevCols group.2 tuple) :: groups
    else do return group :: (← updateGroup groups key tuple)

/-- Without rows there is one group, also if there is a GROUP BY. -/
def emptyState : AggState :=
  ⟨0, clause.aggFuncs.map fun f => (if f.funcType = .avg then .float 0 else .int 0, 0)⟩

def groupStates (records : List Tuple) : Except DbError (List (Bytes × AggState)) := do
  let groups ← records.foldlM (fun groups tuple => do
    updateGroup clause prevCols groups (← getGroupKey stl clause tuple) tuple) []
  return if groups = [] then [(globalKey, emptyState clause)] else groups

/-! ### HAVING and ORDER BY -/

/-- Aggregate functions are found by their kind and the name of their column, whatever its table. -/
def havingValue (result : AggResult) (side : HavingSide) : Value :=
  if side.col = noCol ∧ side.isAgg then
    if side.agg.isCountStar then .int result.count
    else match (clause.aggFuncs.zip result.aggValues).find? fun entry =>
        entry.1.funcType = side.agg.funcType ∧ entry.1.col.colName = side.agg.col.colName with
      | some entry => entry.2
      | none => if side.agg.funcType = .avg then .float 0 else .int 0
  else if side.col ≠ noCol then
    match (clause.groupByCols.zip result.groupKey).find? fun entry => entry.1 = side.col with
    | some entry => entry.2
    | none => .int 0
  else side.val

/-- Only equality allows for a difference. No float lies between `epsilon` and the double `1e-6`. -/
def havingFloat (op : CompOp) (lhs rhs : Float32) : Bool :=
  match op with
  | .eq => (lhs - rhs).abs ≤ epsilon
  | .ne => epsilon < (lhs - rhs).abs
  | .lt => lhs < rhs
  | .gt => rhs < lhs
  | .le => lhs ≤ rhs
  | .ge => rhs ≤ lhs

def havingHolds (op : CompOp) (lhs rhs : Value) : Bool :=
  match lhs, rhs with
  | .int a, .int b => op.holdsInt a b
  | .float a, .float b => havingFloat op (.ofBits ⟨a⟩) (.ofBits ⟨b⟩)
  | .int a, .float b => havingFloat op (.ofInt a.toInt) (.ofBits ⟨b⟩)
  | .float a, .int b => havingFloat op (.ofBits ⟨a⟩) (.ofInt b.toInt)
  | .str a, .str b => op.holds (compare a b)
  | _, _ => false

def evaluateHaving (result : AggResult) : Bool :=
  clause.havingConds.all fun cond =>
    havingHolds cond.op (havingValue clause result cond.lhs) (havingValue clause result cond.rhs)

/-- What a result is ordered by: an aggregate function with the same alias, or a grouping column. -/
def orderValue (orderCol : OrderByCol) (result : AggResult) : Option Value :=
  if orderCol.isAgg then
    ((clause.aggFuncs.zip result.aggValues).find? fun entry => entry.1.aliasName = orderCol.agg.aliasName).map (·.2)
  else ((clause.groupByCols.zip result.groupKey).find? fun entry => entry.1 = orderCol.col).map (·.2)

/-- Floats that are close do not differ, and values of two types never do. -/
def orderValues (a b : Value) : Ordering :=
  match a, b with
  | .int a, .int b => compare a.toInt b.toInt
  | .float a, .float b =>
    let a := Float32.ofBits ⟨a⟩
    let b := Float32.ofBits ⟨b⟩
    if epsilon < (a - b).abs then if a < b then .lt else .gt else .eq
  | .str a, .str b => compare a b
  | _, _ => .eq

/-- A true direction is taken for ascending. -/
def comesBefore : List (OrderByCol × Bool) → AggResult → AggResult → Bool
  | [], _, _ => false
  | (orderCol, isAsc) :: rest, a, b =>
    match orderValue clause orderCol a, orderValue clause orderCol b with
    | some x, some y =>
      match orderValues x y with
      | .eq => comesBefore rest a b
      | .lt => isAsc
      | .gt => !isAsc
    | _, _ => comesBefore rest a b

/-! ### The results -/

/-- The pieces between the bars; nothing behind the last bar is no piece. -/
def splitKey (key : Bytes) : List Bytes :=
  let parts := key.splitOn 124
  if parts.getLast? = some [] then parts.dropLast else parts

def parseKey (cols : List TableCol) (key : Bytes) : Except DbError (List Value) :=
  (cols.zip (splitKey key)).mapM fun (col, token) =>
    match col.type with
    | .int => match stoi token with
      | some i => return .int i
      | none => throw .crash
    | .float => match stl.stof token with
      | some f => return .float f
      | none => throw .crash
    | .string => return .str token

def finalValue (state : AggState) (f : AggFunc) (cell : Value × Float) : Value :=
  if f.isCountStar then .int state.count
  else if f.funcType = .avg ∧ 0 < state.count.toInt then .float (ofDouble (cell.2 / Float.ofInt state.count.toInt))
  else cell.1

def computeResult (groupCols : List TableCol) (group : Bytes × AggState) : Except DbError AggResult := do
  let groupKey ← if groupCols = [] then pure [] else parseKey stl groupCols group.1
  return ⟨groupKey, (clause.aggFuncs.zip group.2.aggValues).map fun (f, cell) => finalValue group.2 f cell, group.2.count⟩

/-- Without an ORDER BY the groups come by their keys. -/
def sortGroups (groups : List (Bytes × AggState)) : List (Bytes × AggState) :=
  if clause.orderByCols = [] then stl.sort (fun a b => compare a.1 b.1 = .lt) (stl.iterate groups)
  else stl.iterate groups

def sortResults (results : List AggResult) : List AggResult :=
  if clause.orderByCols = [] then results
  else stl.sort (comesBefore clause (clause.orderByCols.zip clause.orderByDirections)) results

/-- The results before the limit. -/
def results (groupCols : List TableCol) (records : List Tuple) : Except DbError (List AggResult) := do
  let groups ← groupStates stl clause prevCols records
  let results ← (sortGroups stl clause groups).mapM (computeResult stl clause groupCols)
  return sortResults stl clause (results.filter (evaluateHaving clause))

/-- The limit comes last. -/
def computeFinalResults (groupCols : List TableCol) (records : List Tuple) : Except DbError (List AggResult) := do
  return cut clause.limitVal (← results stl clause prevCols groupCols records)

/-! ### The executor -/

def layOut (offset : ℕ) : List TableCol → List TableCol
  | [] => []
  | col :: cols => { col with offset } :: layOut (offset + col.len) cols

def groupCol (col : TabCol) : Except DbError TableCol := do
  return { ← getCol prevCols col with tabName := col.tabName, name := col.colName }

/-- The columns before an aggregate function count for its name. -/
def aggCol (f : AggFunc) (size : ℕ) : Except DbError TableCol := do
  let (type, len) ← match f.funcType with
    | .count => pure (ColType.int, 4)
    | .avg => pure (ColType.float, 4)
    | _ => if f.col = noCol then pure (ColType.int, 4) else do
      let col ← getCol prevCols f.col
      pure (col.type, col.len)
  return ⟨⟨f.caption size, type, len, 0⟩, ""⟩

/-- The columns that the constructor makes, those of the GROUP BY first. -/
def cols : Except DbError (List TableCol × List TableCol) := do
  let groupCols ← clause.groupByCols.mapM (groupCol prevCols)
  let aggCols ← clause.aggFuncs.zipIdx.mapM fun (f, i) => aggCol prevCols f (groupCols.length + i)
  let all := layOut 0 (groupCols ++ aggCols)
  return (all.take groupCols.length, all.drop groupCols.length)

/-- A field of a result. Numbers share their four bytes. -/
def fieldBytes (col : TableCol) (val : Value) : Bytes :=
  match col.type with
  | .int => wordBytes val.word
  | .float => wordBytes val.word
  | .string =>
    let s : Bytes := match val with
      | .str s => s
      | _ => []
    s.take col.len ++ List.replicate (col.len - s.length) 0

/-- A grouping value that is missing is read from beyond the end. -/
def record (groupCols aggCols : List TableCol) (result : AggResult) : Except DbError Tuple := do
  if result.groupKey.length < groupCols.length then throw .crash
  return ((groupCols ++ aggCols).zip (result.groupKey ++ result.aggValues)).map fun (col, val) => (col, fieldBytes col val)

/-- The child is read up to its first null pointer. The first call of `Next` finds no results and returns
a null pointer. -/
def rows (prevRows : List (Option Tuple)) : Except DbError (List (Option Tuple)) := do
  let (groupCols, aggCols) ← cols clause prevCols
  let records := (prevRows.takeWhile (·.isSome)).reduceOption
  let results ← computeFinalResults stl clause prevCols groupCols records
  let tuples ← results.mapM (record groupCols aggCols)
  return none :: tuples.map some

end

/-! ### The limit -/

section
variable {stl : Stl} {n : ℕ}

theorem comesBefore_limit (clause : AggClause) (v : ℤ) :
    comesBefore { clause with limitVal := v } = comesBefore clause := by
  funext keys a b
  induction keys with
  | nil => rfl
  | cons key keys ih =>
    obtain ⟨orderCol, isAsc⟩ := key
    rw [comesBefore, comesBefore, ih]
    rfl

theorem updateGroup_limit (clause : AggClause) (v : ℤ) :
    updateGroup { clause with limitVal := v } = updateGroup clause := by
  funext prevCols groups key tuple
  induction groups with
  | nil => rfl
  | cons group groups ih =>
    rw [updateGroup, updateGroup, ih]
    rfl

theorem results_limit (clause : AggClause) (v : ℤ) :
    results stl { clause with limitVal := v } = results stl clause := by
  funext prevCols groupCols records
  unfold results groupStates sortResults
  rw [comesBefore_limit, updateGroup_limit]
  rfl

theorem rows_take (hn : 0 < n) {clause : AggClause} {prevCols : List TableCol} {prevRows out : List (Option Tuple)}
    (h : rows stl { clause with limitVal := -1 } prevCols prevRows = .ok out) :
    ∃ out', rows stl { clause with limitVal := n } prevCols prevRows = .ok out' ∧
      out'.reduceOption = out.reduceOption.take n := by
  unfold rows at h ⊢
  obtain ⟨⟨groupCols, aggCols⟩, hcols, h⟩ := bind_eq_ok.mp h
  obtain ⟨results, hresults, h⟩ := bind_eq_ok.mp h
  obtain ⟨tuples, htuples, h⟩ := bind_eq_ok.mp h
  cases h
  unfold computeFinalResults at hresults
  obtain ⟨all, hall, hcut⟩ := bind_eq_ok.mp hresults
  rw [results_limit] at hall
  have heq : cut (-1) all = results := Except.ok.inj hcut
  rw [cut_none] at heq
  subst heq
  refine ⟨none :: (tuples.take n).map some, ?_, ?_⟩
  · refine bind_eq_ok.mpr ⟨(groupCols, aggCols), hcols, bind_eq_ok.mpr ⟨all.take n, ?_, bind_eq_ok.mpr ⟨tuples.take n, ?_, rfl⟩⟩⟩
    · rw [computeFinalResults, results_limit]
      refine bind_eq_ok.mpr ⟨all, hall, ?_⟩
      exact congrArg Except.ok (cut_pos hn all)
    · exact mapM_take htuples n
  · have hsome : ∀ l : List Tuple, (none :: l.map some).reduceOption = l := fun l =>
      List.filterMap_map.trans List.filterMap_some
    rw [hsome, hsome]

end
end AggregationExecutor

end Rmdb
