import Rmdb.Analyze.Analyze

/-! The four evaluators of a condition on a record: those of the sequential scan, the index scan,
the filter and the UPDATE. -/
namespace Rmdb

/-! ### Comparisons -/

/-- The operator on the result of a three-way comparison. -/
def CompOp.holds (op : CompOp) (res : Ordering) : Bool :=
  match op with
  | .eq => res = .eq
  | .ne => res ≠ .eq
  | .lt => res = .lt
  | .gt => res = .gt
  | .le => res ≠ .gt
  | .ge => res ≠ .lt

/-- The operator with its two sides exchanged. -/
def CompOp.swap : CompOp → CompOp
  | .eq => .eq
  | .ne => .ne
  | .lt => .gt
  | .gt => .lt
  | .le => .ge
  | .ge => .le

def CompOp.holdsInt (op : CompOp) (lhs rhs : BitVec 32) : Bool :=
  match op with
  | .eq => lhs.toInt = rhs.toInt
  | .ne => lhs.toInt ≠ rhs.toInt
  | .lt => lhs.toInt < rhs.toInt
  | .gt => rhs.toInt < lhs.toInt
  | .le => lhs.toInt ≤ rhs.toInt
  | .ge => rhs.toInt ≤ lhs.toInt

theorem CompOp.holds_compare (op : CompOp) (lhs rhs : BitVec 32) :
    op.holds (compare lhs.toInt rhs.toInt) = op.holdsInt lhs rhs := by
  cases op <;> simp only [holds, holdsInt, compare_eq_iff_eq, compare_lt_iff_lt, compare_gt_iff_gt, ne_eq,
    not_lt]

def epsilon : Float32 := 1e-6

/-- The operator on floats, where a difference of at most `epsilon` is none. -/
def CompOp.holdsFloat (op : CompOp) (lhs rhs : BitVec 32) : Bool :=
  let lhs := Float32.ofBits ⟨lhs⟩
  let rhs := Float32.ofBits ⟨rhs⟩
  match op with
  | .eq => (lhs - rhs).abs ≤ epsilon
  | .ne => epsilon < (lhs - rhs).abs
  | .lt => epsilon < rhs - lhs
  | .gt => epsilon < lhs - rhs
  | .le => lhs - rhs ≤ epsilon
  | .ge => rhs - lhs ≤ epsilon

/-- Unsigned bytes up to the first difference or `n` bytes. -/
def memcmp (a b : Bytes) : ℕ → Ordering
  | 0 => .eq
  | n + 1 => if a.headD 0 = b.headD 0 then memcmp a.tail b.tail n else compare (a.headD 0) (b.headD 0)

/-- The bytes in front of the first NUL. -/
def upToNul (s : Bytes) : Bytes := s.takeWhile (· ≠ 0)

/-- A string without the blanks at its end and without NULs. -/
def trimString (s : Bytes) : Bytes := (s.reverse.dropWhile (· = 32)).reverse.filter (· ≠ 0)

def trimmedCompare (a b : Bytes) (len : ℕ) : Ordering :=
  compare (trimString (a.take len)) (trimString (b.take len))

/-! ### The evaluators -/

/-- The four bytes that the numbers of a value share. -/
def Value.word : Value → BitVec 32
  | .int i => i
  | .float f => f
  | .str _ => 0

def getCol (cols : List TableCol) (target : TabCol) : Except DbError TableCol :=
  match cols.find? fun col => col.tabName = target.tabName ∧ col.name = target.colName with
  | some col => return col
  | none => throw (.rmdb .columnNotFound)

/-- The buffer of a literal; without one the server goes down. -/
def rawOf (raw : Option Bytes) : Except DbError Bytes :=
  match raw with
  | some raw => return raw
  | none => throw .crash

/-- `compare_values`, which differs between the scan and the filter in how strings compare. -/
def compareValues (compareString : Bytes → Bytes → ℕ → Ordering) (type : ColType) (lhs rhs : Bytes)
    (op : CompOp) (len : ℕ) : Bool :=
  match type with
  | .int => op.holdsInt (readWord lhs) (readWord rhs)
  | .float => op.holdsFloat (readWord lhs) (readWord rhs)
  | .string => op.holds (compareString lhs rhs len)

/-- The `eval_cond` that the sequential scan and the filter share: the buffer of a literal is used
unless the column is a float. -/
def evalCondWith (compareString : Bytes → Bytes → ℕ → Ordering) (cols : List TableCol) (rec_ : Bytes)
    (cond : Condition) : Except DbError Bool := do
  let lhs ← getCol cols cond.lhsCol
  let lhsValue := rec_.drop lhs.offset
  match cond.rhs with
  | .val val raw =>
    if lhs.type = .float then return cond.op.holdsFloat (readWord lhsValue) val.word
    else return compareValues compareString lhs.type lhsValue (← rawOf raw) cond.op lhs.len
  | .col rhsCol =>
    let rhs ← getCol cols rhsCol
    return compareValues compareString lhs.type lhsValue (rec_.drop rhs.offset) cond.op lhs.len

namespace SeqScanExecutor

def evalCond : List TableCol → Bytes → Condition → Except DbError Bool := evalCondWith memcmp

end SeqScanExecutor

namespace FilterExecutor

def evalCond : List TableCol → Bytes → Condition → Except DbError Bool := evalCondWith trimmedCompare

end FilterExecutor

namespace IndexScanExecutor

/-- What `beginTuple` does to a condition first: the literal is converted again, and gets a new
buffer. -/
def prepareCond (tab : String) (cols : List ColMeta) (cond : Condition) : Except DbError Condition :=
  match cond.rhs with
  | .col _ => return cond
  | .val val _ =>
    if cond.lhsCol.tabName ≠ tab then return cond
    else match cols.find? (·.name = cond.lhsCol.colName) with
      | none => return cond
      | some col => do
        let val := val.cast col.type
        return { cond with rhs := .val val (some (← val.rawBytes col.len)) }

def evalCond (cols : List TableCol) (rec_ : Bytes) (cond : Condition) : Except DbError Bool := do
  let lhs ← getCol cols cond.lhsCol
  let lhsValue := rec_.drop lhs.offset
  let rhsValue ← match cond.rhs with
    | .val _ raw => rawOf raw
    | .col rhsCol => (getCol cols rhsCol).map fun rhs => rec_.drop rhs.offset
  if lhs.type = .float then return cond.op.holdsFloat (readWord lhsValue) (readWord rhsValue)
  else return cond.op.holds (ixCompareCol lhs.type lhs.len lhsValue rhsValue)

end IndexScanExecutor

namespace UpdateExecutor

/-- Conditions between two columns never hold. -/
def evalCond (cols : List TableCol) (rec_ : Bytes) (cond : Condition) : Except DbError Bool :=
  match cols.find? fun col => col.tabName = cond.lhsCol.tabName ∧ col.name = cond.lhsCol.colName with
  | none => return false
  | some lhs =>
    match cond.rhs with
    | .val _ raw => do
      return cond.op.holds (ixCompareCol lhs.type lhs.len (rec_.drop lhs.offset) (← rawOf raw))
    | .col _ => return false

end UpdateExecutor
end Rmdb
