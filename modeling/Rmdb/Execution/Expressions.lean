import Rmdb.Execution.NumberCompare

/-! The expressions of a SET clause: their values on a record, and when integer arithmetic in them is exact. -/
namespace Rmdb

/-! ### Evaluation -/

inductive SvCompOp where
  | eq
  | ne
  | lt
  | gt
  | le
  | ge
  | add
  | sub
  | mul
  | div
deriving DecidableEq, Repr

/-- What the grammar lets through on the right of a SET clause; `other` stands for aggregates and subqueries. -/
inductive Expr where
  | value (val : Value)
  | boolLit (val : Bool)
  | col (col : TabCol)
  | binary (lhs : Expr) (op : SvCompOp) (rhs : Expr)
  | other

namespace Analyze

/-- A column without a table matches in any table. -/
def exprCol (cols : List TableCol) (target : TabCol) : Except RmdbErrorKind TableCol :=
  match cols.find? fun col => (target.tabName = "" ∨ col.tabName = target.tabName) ∧ col.name = target.colName with
  | some col => return col
  | none => throw .columnNotFound

/-- The value of a column; strings lose the blanks at their end and then all NULs. -/
def columnValue (col : TableCol) (record : Bytes) : Value :=
  match col.type with
  | .int => .int (readWord (record.drop col.offset))
  | .float => .float (readWord (record.drop col.offset))
  | .string => .str (trimString (col.field record))

/-- Two integers stay integers; a float makes both floats. -/
def arithmetic (onInt : BitVec 32 → BitVec 32 → BitVec 32) (onFloat : Float32 → Float32 → Float32) :
    Value → Value → Except RmdbErrorKind Value
  | .int i, .int j => return .int (onInt i j)
  | .str s, right => throw (.incompatibleType (Value.str s).type right.type)
  | left, .str t => throw (.incompatibleType left.type (Value.str t).type)
  | left, right => return .float (onFloat left.toFloat right.toFloat).toBits.toBitVec

def isZero : Value → Bool
  | .int i => i = 0
  | val => val.toFloat == 0

/-- The quotient is a float, also of two integers. -/
def divide : Value → Value → Except RmdbErrorKind Value
  | .str s, right => throw (.incompatibleType (Value.str s).type right.type)
  | left, .str t => throw (.incompatibleType left.type (Value.str t).type)
  | left, right =>
    if isZero right then throw .internalError
    else return .float (left.toFloat / right.toFloat).toBits.toBitVec

/-- The `int` operators of the program; where the result does not fit, the build wraps around. -/
def applyOp (left right : Value) : SvCompOp → Except RmdbErrorKind Value
  | .add => arithmetic (· + ·) (· + ·) left right
  | .sub => arithmetic (· - ·) (· - ·) left right
  | .mul => arithmetic (· * ·) (· * ·) left right
  | .div => divide left right
  | _ => throw .internalError

def evaluateExpr (cols : List TableCol) (record : Bytes) : Expr → Except RmdbErrorKind Value
  | .value val => return val
  | .boolLit _ => throw .internalError
  | .col target => do return columnValue (← exprCol cols target) record
  | .binary lhs op rhs => do
    let left ← evaluateExpr cols record lhs
    let right ← evaluateExpr cols record rhs
    applyOp left right op
  | .other => throw .internalError

end Analyze

/-! ### Exact arithmetic -/

open Analyze

/-- What an `int` can hold. -/
def InInt (z : ℤ) : Prop := -2147483648 ≤ z ∧ z ≤ 2147483647

instance (z : ℤ) : Decidable (InInt z) := inferInstanceAs (Decidable (_ ∧ _))

namespace Expr

/-- Integer arithmetic on integer columns and literals. -/
inductive Integral (cols : List TableCol) : Expr → Prop
  | value (i : BitVec 32) : Integral cols (.value (.int i))
  | col {target : TabCol} {col : TableCol} (hcol : exprCol cols target = .ok col) (htype : col.type = .int) :
    Integral cols (.col target)
  | binary {lhs rhs : Expr} {op : SvCompOp} (hop : op = .add ∨ op = .sub ∨ op = .mul) (hlhs : Integral cols lhs)
    (hrhs : Integral cols rhs) : Integral cols (.binary lhs op rhs)

def exactOp (left right : ℤ) : SvCompOp → ℤ
  | .add => left + right
  | .sub => left - right
  | .mul => left * right
  | _ => 0

/-- The value of an integral expression over the integers. -/
def exact (cols : List TableCol) (record : Bytes) : Expr → ℤ
  | .value (.int i) => i.toInt
  | .col target =>
    match exprCol cols target with
    | .ok found => (readWord (record.drop found.offset)).toInt
    | .error _ => 0
  | .binary lhs op rhs => exactOp (exact cols record lhs) (exact cols record rhs) op
  | _ => 0

/-- Somewhere in the evaluation an operator gets two `int`s whose result is none. -/
def Overflows (cols : List TableCol) (record : Bytes) : Expr → Prop
  | .binary lhs op rhs => Overflows cols record lhs ∨ Overflows cols record rhs ∨ ∃ i j,
      evaluateExpr cols record lhs = .ok (.int i) ∧ evaluateExpr cols record rhs = .ok (.int j) ∧
      ¬InInt (exactOp i.toInt j.toInt op)
  | _ => False

/-- The value comes out exactly if it is an `int`, and else there is an error; no operation overflows. -/
structure Exact (cols : List TableCol) (record : Bytes) (expr : Expr) : Prop where
  value : InInt (expr.exact cols record) →
    evaluateExpr cols record expr = .ok (.int (.ofInt 32 (expr.exact cols record)))
  error : ¬InInt (expr.exact cols record) → ∃ e, evaluateExpr cols record expr = .error e
  noOverflow : ¬expr.Overflows cols record

def subexprs : Expr → List Expr
  | .binary lhs op rhs => .binary lhs op rhs :: (subexprs lhs ++ subexprs rhs)
  | expr => [expr]

variable {cols : List TableCol} {record : Bytes} {expr : Expr}

theorem inInt_toInt (i : BitVec 32) : InInt i.toInt := by
  have hlow := BitVec.le_toInt i
  have hhigh := BitVec.toInt_lt (x := i)
  exact ⟨hlow, Int.lt_add_one_iff.mp hhigh⟩

theorem toInt_ofInt_of_inInt {z : ℤ} (h : InInt z) : (BitVec.ofInt 32 z).toInt = z := by
  obtain ⟨hlow, hhigh⟩ := h
  rw [BitVec.toInt_ofInt]
  apply Int.bmod_eq_of_le <;> omega

theorem mem_subexprs (expr : Expr) : expr ∈ expr.subexprs := by
  cases expr <;> exact List.mem_cons_self

theorem ofInt_sub (y z : ℤ) : BitVec.ofInt 32 (y - z) = BitVec.ofInt 32 y - BitVec.ofInt 32 z := by
  apply BitVec.eq_of_toInt_eq
  rw [BitVec.toInt_sub, BitVec.toInt_ofInt, BitVec.toInt_ofInt, BitVec.toInt_ofInt, Int.bmod_sub_bmod, Int.sub_bmod_bmod]

theorem subexprs_binary (lhs rhs : Expr) (op : SvCompOp) :
    (binary lhs op rhs).subexprs = .binary lhs op rhs :: (lhs.subexprs ++ rhs.subexprs) := rfl

theorem overflows_binary (lhs rhs : Expr) (op : SvCompOp) : (binary lhs op rhs).Overflows cols record ↔
    lhs.Overflows cols record ∨ rhs.Overflows cols record ∨ ∃ i j,
      evaluateExpr cols record lhs = .ok (.int i) ∧ evaluateExpr cols record rhs = .ok (.int j) ∧
      ¬InInt (exactOp i.toInt j.toInt op) := Iff.rfl

theorem applyOp_ofInt {op : SvCompOp} (hop : op = .add ∨ op = .sub ∨ op = .mul) (y z : ℤ) :
    applyOp (.int (.ofInt 32 y)) (.int (.ofInt 32 z)) op = .ok (.int (.ofInt 32 (exactOp y z op))) := by
  rcases hop with rfl | rfl | rfl
  · exact congrArg (fun w => Except.ok (Value.int w)) (BitVec.ofInt_add y z).symm
  · exact congrArg (fun w => Except.ok (Value.int w)) (ofInt_sub y z).symm
  · exact congrArg (fun w => Except.ok (Value.int w)) (BitVec.ofInt_mul y z).symm

/-- The program computes modulo `2^32` and never fails. -/
theorem evaluateExpr_integral (h : Integral cols expr) :
    evaluateExpr cols record expr = .ok (.int (.ofInt 32 (expr.exact cols record))) := by
  induction h with
  | value i =>
    unfold exact
    rw [BitVec.ofInt_toInt]
    rfl
  | col hcol htype =>
    unfold evaluateExpr exact
    rw [hcol]
    dsimp only
    rw [BitVec.ofInt_toInt]
    change Except.ok (columnValue _ record) = _
    unfold columnValue
    rw [htype]
  | binary hop _ _ ihl ihr =>
    unfold evaluateExpr exact
    rw [ihl, ihr]
    exact applyOp_ofInt hop _ _

/-- Nothing overflows as long as every partial result is an `int`. -/
theorem not_overflows_iff (h : Integral cols expr) :
    ¬expr.Overflows cols record ↔ ∀ sub ∈ expr.subexprs, InInt (sub.exact cols record) := by
  induction h with
  | value i => exact iff_of_true id (List.forall_mem_singleton.mpr (inInt_toInt i))
  | col hcol htype =>
    refine iff_of_true id (List.forall_mem_singleton.mpr ?_)
    unfold exact
    rw [hcol]
    exact inInt_toInt _
  | @binary lhs rhs op hop hlhs hrhs ihl ihr =>
    have hsubs : (∀ sub ∈ (binary lhs op rhs).subexprs, InInt (sub.exact cols record)) ↔
        InInt (exactOp (lhs.exact cols record) (rhs.exact cols record) op) ∧
          (∀ sub ∈ lhs.subexprs, InInt (sub.exact cols record)) ∧
          ∀ sub ∈ rhs.subexprs, InInt (sub.exact cols record) := by
      rw [subexprs_binary, List.forall_mem_cons, List.forall_mem_append]
      rfl
    rw [hsubs, ← ihl, ← ihr, overflows_binary, not_or, not_or]
    constructor
    · intro ⟨hl, hr, hop'⟩
      refine ⟨?_, hl, hr⟩
      have hleft := ihl.mp hl lhs (mem_subexprs lhs)
      have hright := ihr.mp hr rhs (mem_subexprs rhs)
      by_contra hnot
      refine hop' ⟨_, _, evaluateExpr_integral hlhs, evaluateExpr_integral hrhs, ?_⟩
      rwa [toInt_ofInt_of_inInt hleft, toInt_ofInt_of_inInt hright]
    · intro ⟨hfits, hl, hr⟩
      refine ⟨hl, hr, fun ⟨i, j, hi, hj, hnot⟩ => hnot ?_⟩
      have hleft := ihl.mp hl lhs (mem_subexprs lhs)
      have hright := ihr.mp hr rhs (mem_subexprs rhs)
      rw [evaluateExpr_integral hlhs] at hi
      rw [evaluateExpr_integral hrhs] at hj
      cases hi
      cases hj
      rwa [toInt_ofInt_of_inInt hleft, toInt_ofInt_of_inInt hright]

/-- Integer arithmetic is exact just where every partial result is an `int`. -/
theorem exact_iff (h : Integral cols expr) :
    expr.Exact cols record ↔ ∀ sub ∈ expr.subexprs, InInt (sub.exact cols record) := by
  constructor
  · intro hexact
    exact (not_overflows_iff h).mp hexact.noOverflow
  · intro hfits
    exact ⟨fun _ => evaluateExpr_integral h, fun hnot => absurd (hfits expr (mem_subexprs expr)) hnot,
      (not_overflows_iff h).mpr hfits⟩

theorem exact_sum : (binary (.value (.int 3)) .add (.value (.int 4))).Exact [] [] :=
  (exact_iff (.binary (.inl rfl) (.value 3) (.value 4))).mpr (by decide)

/-- The largest `int` and one. -/
theorem not_exact : ¬∀ (cols : List TableCol) (record : Bytes) (expr : Expr), Integral cols expr →
    expr.Exact cols record := by
  intro h
  have hexact := h [] [] (.binary (.value (.int 2147483647)) .add (.value (.int 1)))
    (.binary (.inl rfl) (.value 2147483647) (.value 1))
  obtain ⟨e, he⟩ := hexact.error (by decide)
  cases he

end Expr
end Rmdb
