import Rmdb.Execution.Executors

/-! The semantic check of a WHERE clause: columns get their tables, literals get a buffer. -/
namespace Rmdb

structure TabCol where
  tabName : String
  colName : String
deriving DecidableEq, Repr

inductive CompOp where
  | eq
  | ne
  | lt
  | gt
  | le
  | ge
deriving DecidableEq, Repr

/-- The right-hand side of a condition. A literal keeps the buffer that was made from it. -/
inductive Operand where
  | val (val : Value) (raw : Option Bytes)
  | col (col : TabCol)
deriving DecidableEq, Repr

/-- A condition without aggregate functions. -/
structure Condition where
  lhsCol : TabCol
  op : CompOp
  rhs : Operand
deriving DecidableEq, Repr

/-- A column with the name of its table. -/
structure TableCol extends ColMeta where
  tabName : String
deriving DecidableEq, Repr

def TabMeta.tableCols (tabMeta : TabMeta) (tab : String) : List TableCol :=
  tabMeta.cols.map fun col => { col with tabName := tab }

/-- `init_raw` alone: the buffer of a value for a column of the given length. -/
def Value.rawBytes (val : Value) (len : ℕ) : Except DbError Bytes :=
  match val with
  | .int i => if len = 4 then return wordBytes i else throw .crash
  | .float f => if len = 4 then return wordBytes f else throw .crash
  | .str s =>
    if len < s.length then throw (.rmdb .stringOverflow)
    else return s ++ List.replicate (len - s.length) 0

theorem Value.initRaw_eq (val : Value) (col : ColMeta) :
    val.initRaw col =
      if (val.cast col.type).type ≠ col.type then .error (.rmdb (.incompatibleType col.type (val.cast col.type).type))
      else (val.cast col.type).rawBytes col.len := by
  unfold initRaw rawBytes
  dsimp only
  split
  · rfl
  · rfl

theorem Value.length_rawBytes (val : Value) {len : ℕ} {raw : Bytes} (h : val.rawBytes len = .ok raw) : raw.length = len := by
  unfold rawBytes at h
  cases val with
  | int i =>
    dsimp only at h
    split at h
    · next hlen =>
      cases h
      exact hlen.symm
    · cases h
  | float f =>
    dsimp only at h
    split at h
    · next hlen =>
      cases h
      exact hlen.symm
    · cases h
  | str s =>
    dsimp only at h
    split at h
    · cases h
    · next hlen =>
      cases h
      rw [List.length_append, List.length_replicate]
      omega

namespace Analyze

variable (tabs : String → Option TabMeta)

def getTable (tab : String) : Except DbError TabMeta :=
  match tabs tab with
  | some tabMeta => return tabMeta
  | none => throw (.rmdb .tableNotFound)

def getAllCols (tabNames : List String) : Except DbError (List TableCol) :=
  tabNames.foldlM (fun allCols tab => do return allCols ++ (← getTable tabs tab).tableCols tab) []

/-- The table of an unqualified column. When no column has its name, `d_name` stands for the column
`name` of the table `d`. -/
def checkColumn (allCols : List TableCol) (target : TabCol) : Except DbError TabCol :=
  if target.tabName ≠ "" then return target
  else do
    let tabName ← allCols.foldlM (fun tabName col =>
      if col.name = target.colName then
        if tabName ≠ "" then throw (.rmdb (.ambiguousColumn target.colName)) else return col.tabName
      else return tabName) ""
    let found ←
      if tabName = "" then
        allCols.foldlM (fun found col =>
          if col.name ≠ "" ∧ found.colName = col.tabName ++ "_" ++ col.name then
            if found.tabName ≠ "" then throw (.rmdb (.ambiguousColumn found.colName))
            else return ⟨col.tabName, col.name⟩
          else return found) target
      else return { target with tabName }
    if found.tabName = "" then throw (.rmdb .columnNotFound) else return found

/-- `TabMeta::get_col` in the table that the column names. -/
def columnOf (col : TabCol) : Except DbError ColMeta := do
  match (← getTable tabs col.tabName).cols.find? (·.name = col.colName) with
  | some colMeta => return colMeta
  | none => throw (.rmdb .columnNotFound)

/-- Types that may meet in a condition. -/
def comparable (lhs rhs : ColType) : Bool :=
  lhs = rhs || lhs = .float && rhs = .int || lhs = .int && rhs = .float

/-- The buffer of a literal is made before the literal is converted to the type of the column. -/
def checkCondition (allCols : List TableCol) (cond : Condition) : Except DbError Condition := do
  let lhsCol ← checkColumn allCols cond.lhsCol
  match cond.rhs with
  | .val val _ =>
    let lhs ← columnOf tabs lhsCol
    let raw ← val.rawBytes lhs.len
    if comparable lhs.type val.type then
      return { cond with lhsCol, rhs := .val (val.cast lhs.type) (some raw) }
    else throw (.rmdb (.incompatibleType lhs.type val.type))
  | .col rhsCol =>
    let rhsCol ← checkColumn allCols rhsCol
    let lhs ← columnOf tabs lhsCol
    let rhs ← columnOf tabs rhsCol
    if comparable lhs.type rhs.type then return { cond with lhsCol, rhs := .col rhsCol }
    else throw (.rmdb (.incompatibleType lhs.type rhs.type))

def checkClause (tabNames : List String) (conds : List Condition) : Except DbError (List Condition) := do
  let allCols ← getAllCols tabs tabNames
  conds.mapM (checkCondition tabs allCols)

end Analyze
end Rmdb
