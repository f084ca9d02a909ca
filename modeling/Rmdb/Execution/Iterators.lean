import Rmdb.Execution.RunPlan
import Rmdb.Lib.Cursor
import Rmdb.Lib.Program

/-! Executors with their calls: the filter and the nested-loop join on top of any children. -/
namespace Rmdb

open Program

/-- An executor with the columns and the length of its tuples. -/
structure AbstractExecutor (σ : Type) extends Cursor DbError σ Bytes where
  cols : List TableCol
  tupleLen : ℕ

namespace AbstractExecutor

variable {σ : Type}

/-- The tuples are as long as the executor says, and its columns lie in them. -/
structure Fits (ex : AbstractExecutor σ) (rows : List Bytes) : Prop where
  length : ∀ row ∈ rows, row.length = ex.tupleLen
  cols : ∀ col ∈ ex.cols, col.offset + col.len ≤ ex.tupleLen

def ofRows (cols : List TableCol) (tupleLen : ℕ) (rows : List Bytes) : AbstractExecutor (List Bytes) where
  toCursor := Cursor.ofList DbError rows
  cols := cols
  tupleLen := tupleLen

end AbstractExecutor

namespace NestedLoopJoinExecutor

structure State (σ τ : Type) where
  left : σ
  right : τ
  leftTuple : Option Bytes
  rightTuple : Option Bytes
  nextTuple : Option Bytes
  isEnd : Bool

def construct {σ τ : Type} (left : σ) (right : τ) : State σ τ := ⟨left, right, none, none, none, false⟩

/-- A column of the right child behind the tuple of the left one. -/
def shift (len : ℕ) (col : TableCol) : TableCol := { col with offset := col.offset + len }

/-- A column and the bytes of its tuple from there on. The tuple must be there. -/
def cellOf (tuple : Option Bytes) (col : TableCol) : Except DbError (TableCol × Bytes) :=
  match tuple with
  | some data => return (col, data.drop col.offset)
  | none => throw .crash

section
variable {σ τ : Type} (left : AbstractExecutor σ) (right : AbstractExecutor τ) (conds : List Condition)

def cols : List TableCol := left.cols ++ right.cols.map (shift left.tupleLen)

/-- A column in the left tuple or else in the right one. -/
def findOperand (leftTuple rightTuple : Option Bytes) (target : TabCol) : Except DbError (Option (TableCol × Bytes)) :=
  match left.cols.find? (TableCol.is target) with
  | some col => some <$> cellOf leftTuple col
  | none =>
    match right.cols.find? (TableCol.is target) with
    | some col => some <$> cellOf rightTuple col
    | none => return none

/-- A condition without one of its columns is passed over. -/
def satisfiesCondition (leftTuple rightTuple : Option Bytes) (cond : Condition) : Except DbError Bool := do
  let lhs ← findOperand left right leftTuple rightTuple cond.lhsCol
  let rhs ← match cond.rhs with
    | .val _ _ => pure none
    | .col rhsCol => findOperand left right leftTuple rightTuple rhsCol
  match lhs, rhs with
  | some lhs, some rhs => return compareCells cond.op lhs rhs
  | _, _ => return true

def satisfyConditions (leftTuple rightTuple : Option Bytes) : Except DbError Bool :=
  conds.allM (satisfiesCondition left right leftTuple rightTuple)

def concat (leftTuple rightTuple : Option Bytes) : Except DbError Bytes :=
  match leftTuple, rightTuple with
  | some l, some r => return l.take left.tupleLen ++ r.take right.tupleLen
  | _, _ => throw .crash

/-- The inner loop: the right child moves on before the pair is tested. -/
def matchRight : ℕ → State σ τ → Call DbError (Bool × State σ τ)
  | 0, _ => .unfinished
  | n + 1, s =>
    if right.isEnd s.right then return (false, s)
    else do
      let (rightTuple, r) ← right.get s.right
      let r ← right.advance r
      let s := { s with right := r, rightTuple }
      if ← Call.ofExcept (satisfyConditions left right conds s.leftTuple s.rightTuple) then
        let tuple ← Call.ofExcept (concat left right s.leftTuple s.rightTuple)
        return (true, { s with nextTuple := some tuple })
      else matchRight n s

def nextTuple : ℕ → State σ τ → Call DbError (State σ τ)
  | 0, _ => .unfinished
  | n + 1, s => do
    let (found, s) ← matchRight left right conds n s
    if found then return s
    else
      let l ← left.advance s.left
      if left.isEnd l then return { s with left := l, isEnd := true }
      else
        let (leftTuple, l) ← left.get l
        let r ← right.start s.right
        nextTuple n { s with left := l, leftTuple, right := r }

/-- `is_end` is never taken back. -/
def beginTuple (n : ℕ) (s : State σ τ) : Call DbError (State σ τ) := do
  let l ← left.start s.left
  if left.isEnd l then return { s with left := l, isEnd := true }
  else
    let (leftTuple, l) ← left.get l
    let r ← right.start s.right
    nextTuple left right conds n { s with left := l, leftTuple, right := r }

/-- The join, whose loops may go on for `n` rounds. -/
def executor (n : ℕ) : AbstractExecutor (State σ τ) where
  start := beginTuple left right conds n
  isEnd s := s.isEnd
  get s := pure (s.nextTuple, { s with nextTuple := none })
  advance := nextTuple left right conds n
  cols := cols left right
  tupleLen := left.tupleLen + right.tupleLen

end

/-! ### What a join is -/

section
variable (leftCols rightCols : List TableCol)

def typeOf (target : TabCol) : Option ColType :=
  ((leftCols ++ rightCols).find? (TableCol.is target)).map (·.type)

/-- The value of a column in a left and a right row. -/
def valueOf (l r : Bytes) (target : TabCol) : Option Value :=
  match leftCols.find? (TableCol.is target) with
  | some col => some (col.stored l)
  | none => (rightCols.find? (TableCol.is target)).map (·.stored r)

/-- The two columns of a condition are there, and their values meet it. -/
def holds (l r : Bytes) (cond : Condition) : Bool :=
  match cond.rhs with
  | .val _ _ => false
  | .col rhsCol =>
    match valueOf leftCols rightCols l r cond.lhsCol, valueOf leftCols rightCols l r rhsCol with
    | some lhs, some rhs => lhs.meets cond.op rhs
    | _, _ => false

/-- A condition between two columns, each of the one or of the other child. -/
def Provided (cond : Condition) : Prop :=
  (typeOf leftCols rightCols cond.lhsCol).isSome ∧
    ∃ rhsCol, cond.rhs = .col rhsCol ∧ (typeOf leftCols rightCols rhsCol).isSome

/-- The columns of a condition have one type. -/
def SameTypes (cond : Condition) : Prop :=
  ∀ rhsCol, cond.rhs = .col rhsCol → typeOf leftCols rightCols cond.lhsCol = typeOf leftCols rightCols rhsCol

end

/-- The concatenations of a left row with the right rows that go with it. -/
def matchesOf (test : Bytes → Bytes → Bool) (l : Bytes) (rights : List Bytes) : List Bytes :=
  (rights.filter (test l)).map (l ++ ·)

def joinRows (test : Bytes → Bytes → Bool) (lefts rights : List Bytes) : List Bytes :=
  lefts.flatMap fun l => matchesOf test l rights

/-- The concatenations of the rows that meet all conditions. -/
def join (leftCols rightCols : List TableCol) (conds : List Condition) (lefts rights : List Bytes) : List Bytes :=
  joinRows (fun l r => conds.all (holds leftCols rightCols l r)) lefts rights

/-! ### What the executor compares -/

/-- A column in a left and a right row with the bytes from there on. -/
def cellAt (leftCols rightCols : List TableCol) (l r : Bytes) (target : TabCol) : Option (TableCol × Bytes) :=
  match leftCols.find? (TableCol.is target) with
  | some col => some (col, l.drop col.offset)
  | none => (rightCols.find? (TableCol.is target)).map fun col => (col, r.drop col.offset)

/-- The verdict on a pair of rows. -/
def compared (leftCols rightCols : List TableCol) (conds : List Condition) (l r : Bytes) : Bool :=
  conds.all fun cond =>
    match cond.rhs with
    | .val _ _ => true
    | .col rhsCol =>
      match cellAt leftCols rightCols l r cond.lhsCol, cellAt leftCols rightCols l r rhsCol with
      | some lhs, some rhs => compareCells cond.op lhs rhs
      | _, _ => true

section
variable {leftCols rightCols : List TableCol} {conds : List Condition} {cond : Condition} {l r : Bytes}
  {lefts rights rs : List Bytes} {target : TabCol} {test test' : Bytes → Bytes → Bool}

theorem valueOf_eq : valueOf leftCols rightCols l r target = (cellAt leftCols rightCols l r target).map cellValue := by
  unfold valueOf cellAt
  cases leftCols.find? (TableCol.is target) with
  | some col => rfl
  | none => cases rightCols.find? (TableCol.is target) <;> rfl

theorem typeOf_eq : typeOf leftCols rightCols target = (cellAt leftCols rightCols l r target).map (·.1.type) := by
  unfold typeOf cellAt
  rw [List.find?_append]
  cases leftCols.find? (TableCol.is target) with
  | some col => rfl
  | none => cases rightCols.find? (TableCol.is target) <;> rfl

theorem exists_cellAt (h : (typeOf leftCols rightCols target).isSome) (l r : Bytes) :
    ∃ cell, cellAt leftCols rightCols l r target = some cell := by
  rw [typeOf_eq (l := l) (r := r), Option.isSome_map] at h
  exact Option.isSome_iff_exists.mp h

/-- Where a pair comes to conditions between columns of one type only, the verdict is right. -/
theorem compared_eq (hconds : ∀ cond ∈ conds, Provided leftCols rightCols cond)
    (htypes : ∀ cond, ComesTo (holds leftCols rightCols l r) conds cond → SameTypes leftCols rightCols cond) :
    compared leftCols rightCols conds l r = conds.all (holds leftCols rightCols l r) := by
  refine all_eq_all_of_comesTo fun cond hcomes => ?_
  obtain ⟨hlhs, rhsCol, hrhs, hcol⟩ := hconds cond hcomes.mem
  obtain ⟨lhs, hlcell⟩ := exists_cellAt hlhs l r
  obtain ⟨rhs, hrcell⟩ := exists_cellAt hcol l r
  have htype := htypes cond hcomes rhsCol hrhs
  rw [typeOf_eq (l := l) (r := r), typeOf_eq (l := l) (r := r), hlcell, hrcell, Option.map_some, Option.map_some,
    Option.some.injEq] at htype
  unfold holds
  rw [hrhs]
  dsimp only
  rw [valueOf_eq, valueOf_eq, hlcell, hrcell]
  exact compareCells_eq cond.op htype

theorem matchesOf_pos (rs : List Bytes) (h : test l r = true) :
    matchesOf test l (r :: rs) = (l ++ r) :: matchesOf test l rs := by
  unfold matchesOf
  rw [List.filter_cons_of_pos h]
  rfl

theorem matchesOf_neg (rs : List Bytes) (h : test l r = false) : matchesOf test l (r :: rs) = matchesOf test l rs := by
  unfold matchesOf
  rw [List.filter_cons_of_neg (Bool.eq_false_iff.mp h)]

theorem joinRows_congr (h : ∀ l ∈ lefts, ∀ r ∈ rights, test l r = test' l r) :
    joinRows test lefts rights = joinRows test' lefts rights := by
  refine List.flatMap_congr fun l hl => ?_
  unfold matchesOf
  rw [List.filter_congr (h l hl)]

end

variable {σ τ : Type} {left : AbstractExecutor σ} {right : AbstractExecutor τ} {conds : List Condition} {l r : Bytes}
  {target : TabCol}

/-- The executor finds a column in the row where it lies. -/
theorem findOperand_eq :
    findOperand left right (some l) (some r) target = .ok (cellAt left.cols right.cols l r target) := by
  unfold findOperand cellAt
  cases left.cols.find? (TableCol.is target) with
  | some col => rfl
  | none => cases right.cols.find? (TableCol.is target) <;> rfl

theorem satisfyConditions_eq :
    satisfyConditions left right conds (some l) (some r) = .ok (compared left.cols right.cols conds l r) := by
  apply allM_eq_all
  intro cond _
  unfold satisfiesCondition
  rw [findOperand_eq]
  cases cond.rhs with
  | val val raw =>
    change (match cellAt left.cols right.cols l r cond.lhsCol, none with
      | some lhs, some rhs => .ok (compareCells cond.op lhs rhs)
      | _, _ => .ok true) = Except.ok true
    cases cellAt left.cols right.cols l r cond.lhsCol <;> rfl
  | col rhsCol =>
    change (findOperand left right (some l) (some r) rhsCol >>= fun rhs => _) = _
    rw [findOperand_eq]
    dsimp only
    cases cellAt left.cols right.cols l r cond.lhsCol with
    | none => rfl
    | some lhs => cases cellAt left.cols right.cols l r rhsCol <;> rfl

/-! ### The loops -/

section
variable {lefts rights ls rs rows : List Bytes} {LeftReady : σ → Prop} {RightReady : τ → Prop}
  {LeftAt LeftTaken : List Bytes → σ → Prop} {RightAt RightTaken : List Bytes → τ → Prop} {s : State σ τ} {n : ℕ}

/-- What the two children and the conditions must be for the join. -/
structure Joins (left : AbstractExecutor σ) (right : AbstractExecutor τ) (conds : List Condition)
    (lefts rights : List Bytes)
    (LeftReady : σ → Prop) (LeftAt LeftTaken : List Bytes → σ → Prop) (RightReady : τ → Prop)
    (RightAt RightTaken : List Bytes → τ → Prop) : Prop where
  outer : left.Obeys lefts LeftReady LeftAt LeftTaken
  inner : right.Obeys rights RightReady RightAt RightTaken
  again : ∀ s, RightAt [] s → RightReady s
  fitsLeft : left.Fits lefts
  fitsRight : right.Fits rights
  provided : ∀ cond ∈ conds, Provided left.cols right.cols cond

/-- The join is at a left row; the right rows `rs` are still to be tried with it. -/
structure Midway (lefts rights : List Bytes) (LeftTaken : List Bytes → σ → Prop) (RightAt : List Bytes → τ → Prop)
    (l : Bytes) (ls rs : List Bytes) (s : State σ τ) : Prop where
  isEnd : s.isEnd = false
  left : LeftTaken (l :: ls) s.left
  right : RightAt rs s.right
  leftTuple : s.leftTuple = some l
  lefts : l :: ls <:+ lefts
  rights : rs <:+ rights

theorem Midway.withNext (hs : Midway lefts rights LeftTaken RightAt l ls rs s) (next : Option Bytes) :
    Midway lefts rights LeftTaken RightAt l ls rs { s with nextTuple := next } :=
  ⟨hs.isEnd, hs.left, hs.right, hs.leftTuple, hs.lefts, hs.rights⟩

/-- The rows that are left while the join is at a left row. -/
def remaining (left : AbstractExecutor σ) (right : AbstractExecutor τ) (conds : List Condition) (rights : List Bytes)
    (l : Bytes) (ls rs : List Bytes) : List Bytes :=
  matchesOf (compared left.cols right.cols conds) l rs ++ joinRows (compared left.cols right.cols conds) ls rights

def JoinTaken (left : AbstractExecutor σ) (right : AbstractExecutor τ) (conds : List Condition)
    (lefts rights : List Bytes)
    (LeftTaken : List Bytes → σ → Prop) (RightAt : List Bytes → τ → Prop) (rows : List Bytes) (s : State σ τ) : Prop :=
  ∃ l ls rs row, Midway lefts rights LeftTaken RightAt l ls rs s ∧
    rows = row :: remaining left right conds rights l ls rs

def JoinAt (left : AbstractExecutor σ) (right : AbstractExecutor τ) (conds : List Condition) (lefts rights : List Bytes)
    (LeftTaken : List Bytes → σ → Prop) (RightAt : List Bytes → τ → Prop) (rows : List Bytes) (s : State σ τ) : Prop :=
  s.isEnd = true ∧ rows = [] ∨ ∃ l ls rs row, Midway lefts rights LeftTaken RightAt l ls rs s ∧ s.nextTuple = some row ∧
    rows = row :: remaining left right conds rights l ls rs

section

variable (h : Joins left right conds lefts rights LeftReady LeftAt LeftTaken RightReady RightAt RightTaken)
include h

/-- The inner loop stops at the first match, or when the right child is at its end. -/
theorem matchRight_spec (hs : Midway lefts rights LeftTaken RightAt l ls rs s) (hn : rs.length < n) :
    (∃ s' row rest, matchRight left right conds n s = pure (true, s') ∧
      Midway lefts rights LeftTaken RightAt l ls rest s' ∧
        s'.nextTuple = some row ∧
        matchesOf (compared left.cols right.cols conds) l rs = row :: matchesOf (compared left.cols right.cols conds) l rest) ∨
      ∃ s', matchRight left right conds n s = pure (false, s') ∧ Midway lefts rights LeftTaken RightAt l ls [] s' ∧
        matchesOf (compared left.cols right.cols conds) l rs = [] := by
  induction rs generalizing s n with
  | nil =>
    right
    obtain ⟨n, rfl⟩ := Nat.exists_eq_succ_of_ne_zero (Nat.ne_of_gt hn)
    refine ⟨s, ?_, hs, rfl⟩
    unfold matchRight
    rw [if_pos (h.inner.isEnd_nil hs.right)]
  | cons r rs ih =>
    obtain ⟨n, rfl⟩ := Nat.exists_eq_succ_of_ne_zero (Nat.ne_of_gt (Nat.zero_lt_of_lt hn))
    obtain ⟨r₁, hget, hr₁⟩ := h.inner.get r rs s.right hs.right
    obtain ⟨r₂, hadvance, hr₂⟩ := h.inner.advance r rs r₁ hr₁
    have hrest : rs <:+ rights := (List.suffix_cons r rs).trans hs.rights
    have hl := h.fitsLeft.length l (hs.lefts.subset List.mem_cons_self)
    have hr := h.fitsRight.length r (hs.rights.subset List.mem_cons_self)
    unfold matchRight
    rw [if_neg (Bool.eq_false_iff.mp (h.inner.isEnd_cons hs.right)), Call.bind_of_eq hget]
    dsimp only
    rw [Call.bind_of_eq hadvance, hs.leftTuple, satisfyConditions_eq, Call.ofExcept_ok, pure_bind]
    cases hmeets : compared left.cols right.cols conds l r with
    | true =>
      left
      refine ⟨{ s with right := r₂, rightTuple := some r, nextTuple := some (l ++ r) }, l ++ r, rs, ?_,
        ⟨hs.isEnd, hs.left, hr₂, hs.leftTuple, hs.lefts, hrest⟩, rfl, matchesOf_pos rs hmeets⟩
      rw [if_pos rfl]
      change Call.ofExcept (.ok (l.take left.tupleLen ++ r.take right.tupleLen)) >>= _ = _
      rw [← hl, ← hr, List.take_length, List.take_length, Call.ofExcept_ok, pure_bind, hs.leftTuple]
    | false =>
      rw [if_neg Bool.false_ne_true, matchesOf_neg rs hmeets]
      exact ih ⟨hs.isEnd, hs.left, hr₂, rfl, hs.lefts, hrest⟩ (Nat.lt_of_succ_lt_succ hn)

/-- The next match: the row that it makes, and where the search for it stops in the two children. -/
inductive NextMatch (test : Bytes → Bytes → Bool) (rights : List Bytes) :
    Bytes → List Bytes → List Bytes → Bytes → Bytes → List Bytes → List Bytes → Prop
  | here {l row : Bytes} {ls rs rest : List Bytes}
    (h : matchesOf test l rs = row :: matchesOf test l rest) :
    NextMatch test rights l ls rs row l ls rest
  | later {l l' m row : Bytes} {ls ms rs rest : List Bytes} (h : matchesOf test l rs = [])
    (hnext : NextMatch test rights l' ls rights row m ms rest) :
    NextMatch test rights l (l' :: ls) rs row m ms rest

omit h in
theorem NextMatch.remaining {row m : Bytes} {ms rest : List Bytes}
    (h : NextMatch (compared left.cols right.cols conds) rights l ls rs row m ms rest) :
    remaining left right conds rights l ls rs = row :: remaining left right conds rights m ms rest := by
  induction h with
  | here h =>
    unfold NestedLoopJoinExecutor.remaining
    rw [h]
    rfl
  | later h _ ih =>
    rw [← ih]
    unfold NestedLoopJoinExecutor.remaining
    rw [h]
    rfl

theorem nextTuple_next (hs : Midway lefts rights LeftTaken RightAt l ls rs s) (hn : ls.length + rights.length + 1 < n) :
    ∃ s', nextTuple left right conds n s = pure s' ∧
      (s'.isEnd = true ∧ remaining left right conds rights l ls rs = [] ∨
        ∃ m ms rest row, Midway lefts rights LeftTaken RightAt m ms rest s' ∧ s'.nextTuple = some row ∧
          NextMatch (compared left.cols right.cols conds) rights l ls rs row m ms rest) := by
  induction ls generalizing l rs s n with
  | nil =>
    obtain ⟨n, rfl⟩ := Nat.exists_eq_succ_of_ne_zero (Nat.ne_of_gt (Nat.zero_lt_of_lt hn))
    have hrs := hs.rights.length_le
    unfold nextTuple
    cases matchRight_spec h hs (n := n) (by omega) with
    | inl hfound =>
      obtain ⟨s₁, row, rest, hmatch, hs₁, hrow, hrest⟩ := hfound
      rw [Call.bind_of_eq hmatch]
      exact ⟨s₁, rfl, Or.inr ⟨l, [], rest, row, hs₁, hrow, .here hrest⟩⟩
    | inr hnone =>
      obtain ⟨s₁, hmatch, hs₁, hempty⟩ := hnone
      obtain ⟨l₁, hadvance, hl₁⟩ := h.outer.advance l [] s₁.left hs₁.left
      rw [Call.bind_of_eq hmatch]
      dsimp only
      rw [if_neg Bool.false_ne_true, Call.bind_of_eq hadvance, if_pos (h.outer.isEnd_nil hl₁)]
      refine ⟨_, rfl, Or.inl ⟨rfl, ?_⟩⟩
      unfold remaining
      rw [hempty]
      rfl
  | cons l' ls ih =>
    obtain ⟨n, rfl⟩ := Nat.exists_eq_succ_of_ne_zero (Nat.ne_of_gt (Nat.zero_lt_of_lt hn))
    have hrs := hs.rights.length_le
    rw [List.length_cons] at hn
    unfold nextTuple
    cases matchRight_spec h hs (n := n) (by omega) with
    | inl hfound =>
      obtain ⟨s₁, row, rest, hmatch, hs₁, hrow, hrest⟩ := hfound
      rw [Call.bind_of_eq hmatch]
      exact ⟨s₁, rfl, Or.inr ⟨l, l' :: ls, rest, row, hs₁, hrow, .here hrest⟩⟩
    | inr hnone =>
      obtain ⟨s₁, hmatch, hs₁, hempty⟩ := hnone
      obtain ⟨l₁, hadvance, hl₁⟩ := h.outer.advance l (l' :: ls) s₁.left hs₁.left
      obtain ⟨l₂, hget, hl₂⟩ := h.outer.get l' ls l₁ hl₁
      obtain ⟨r₁, hstart, hr₁⟩ := h.inner.start s₁.right (h.again s₁.right hs₁.right)
      rw [Call.bind_of_eq hmatch]
      dsimp only
      rw [if_neg Bool.false_ne_true, Call.bind_of_eq hadvance,
        if_neg (Bool.eq_false_iff.mp (h.outer.isEnd_cons hl₁)), Call.bind_of_eq hget]
      dsimp only
      rw [Call.bind_of_eq hstart]
      have hs₂ : Midway lefts rights LeftTaken RightAt l' ls rights
          { s₁ with left := l₂, leftTuple := some l', right := r₁ } :=
        ⟨hs₁.isEnd, hl₂, hr₁, rfl, (List.suffix_cons l (l' :: ls)).trans hs.lefts, List.suffix_rfl⟩
      obtain ⟨s', hnext, hs'⟩ := ih hs₂ (n := n) (by omega)
      refine ⟨s', hnext, ?_⟩
      cases hs' with
      | inl hend =>
        left
        refine ⟨hend.1, ?_⟩
        rw [← hend.2]
        unfold remaining
        rw [hempty]
        rfl
      | inr hmore =>
        obtain ⟨m, ms, rest, row, hmid, hrow, hmatch⟩ := hmore
        exact Or.inr ⟨m, ms, rest, row, hmid, hrow, .later hempty hmatch⟩

theorem nextTuple_spec (hs : Midway lefts rights LeftTaken RightAt l ls rs s) (hn : ls.length + rights.length + 1 < n) :
    ∃ s', nextTuple left right conds n s = pure s' ∧
      JoinAt left right conds lefts rights LeftTaken RightAt (remaining left right conds rights l ls rs) s' := by
  obtain ⟨s', hnext, hs'⟩ := nextTuple_next h hs hn
  refine ⟨s', hnext, ?_⟩
  cases hs' with
  | inl hend => exact Or.inl hend
  | inr hmore =>
    obtain ⟨m, ms, rest, row, hmid, hrow, hmatch⟩ := hmore
    exact Or.inr ⟨m, ms, rest, row, hmid, hrow, hmatch.remaining⟩

omit h in
theorem beginTuple_nil
    (h : Joins left right conds [] rights LeftReady LeftAt LeftTaken RightReady RightAt RightTaken)
    (hl : LeftReady s.left) : ∃ s', beginTuple left right conds n s = pure s' ∧ s'.isEnd = true := by
  obtain ⟨l₁, hstart, hl₁⟩ := h.outer.start s.left hl
  unfold beginTuple
  rw [Call.bind_of_eq hstart, if_pos (h.outer.isEnd_nil hl₁)]
  exact ⟨_, rfl, rfl⟩

omit h in
/-- With a left row the search begins at that row and all right rows. -/
theorem beginTuple_cons
    (h : Joins left right conds (l :: ls) rights LeftReady LeftAt LeftTaken RightReady RightAt RightTaken)
    (hend : s.isEnd = false) (hl : LeftReady s.left) (hr : RightReady s.right) :
    ∃ s₁, beginTuple left right conds n s = nextTuple left right conds n s₁ ∧
      Midway (l :: ls) rights LeftTaken RightAt l ls rights s₁ := by
  obtain ⟨l₁, hstart, hl₁⟩ := h.outer.start s.left hl
  obtain ⟨l₂, hget, hl₂⟩ := h.outer.get l ls l₁ hl₁
  obtain ⟨r₁, hagain, hr₁⟩ := h.inner.start s.right hr
  unfold beginTuple
  rw [Call.bind_of_eq hstart, if_neg (Bool.eq_false_iff.mp (h.outer.isEnd_cons hl₁)), Call.bind_of_eq hget]
  dsimp only
  rw [Call.bind_of_eq hagain]
  exact ⟨_, rfl, hend, hl₂, hr₁, rfl, List.suffix_rfl, List.suffix_rfl⟩

theorem beginTuple_spec (hend : s.isEnd = false) (hl : LeftReady s.left) (hr : RightReady s.right)
    (hn : lefts.length + rights.length + 1 < n) :
    ∃ s', beginTuple left right conds n s = pure s' ∧
      JoinAt left right conds lefts rights LeftTaken RightAt
        (joinRows (compared left.cols right.cols conds) lefts rights) s' := by
  cases lefts with
  | nil =>
    obtain ⟨s', hbegin, hs'⟩ := beginTuple_nil (n := n) h hl
    exact ⟨s', hbegin, Or.inl ⟨hs', rfl⟩⟩
  | cons l ls =>
    obtain ⟨s₁, hbegin, hs₁⟩ := beginTuple_cons (n := n) h hend hl hr
    rw [List.length_cons] at hn
    rw [hbegin]
    exact nextTuple_spec h hs₁ (by omega)

/-- Children that obey the protocol make a join that does. -/
theorem obeys_executor (hn : lefts.length + rights.length + 1 < n) :
    (executor left right conds n).Obeys (joinRows (compared left.cols right.cols conds) lefts rights)
      (fun s => s.isEnd = false ∧ LeftReady s.left ∧ RightReady s.right)
      (JoinAt left right conds lefts rights LeftTaken RightAt)
        (JoinTaken left right conds lefts rights LeftTaken RightAt) where
  start s hs := beginTuple_spec h hs.1 hs.2.1 hs.2.2 hn
  isEnd rows s hs := by
    cases hs with
    | inl hend => exact iff_of_true hend.1 hend.2
    | inr hrow =>
      obtain ⟨l, ls, rs, row, hmid, -, rfl⟩ := hrow
      exact iff_of_false (Bool.eq_false_iff.mp hmid.isEnd) (List.cons_ne_nil _ _)
  get row rows s hs := by
    cases hs with
    | inl hend => exact absurd hend.2 (List.cons_ne_nil _ _)
    | inr hrow =>
      obtain ⟨l, ls, rs, first, hmid, hnext, hrows⟩ := hrow
      obtain ⟨rfl, rfl⟩ := List.cons.inj hrows
      refine ⟨{ s with nextTuple := none }, ?_, l, ls, rs, row, hmid.withNext none, rfl⟩
      change pure (s.nextTuple, _) = _
      rw [hnext]
  advance row rows s hs := by
    obtain ⟨l, ls, rs, first, hmid, hrows⟩ := hs
    obtain ⟨rfl, rfl⟩ := List.cons.inj hrows
    have hls := hmid.lefts.length_le
    rw [List.length_cons] at hls
    exact nextTuple_spec h hmid (by omega)

end

/-- A fresh join that is driven to its end gives each pair that it finds to match once, with the left rows in the outer
order. -/
theorem drive_compared
    (h : Joins left right conds lefts rights LeftReady LeftAt LeftTaken RightReady RightAt RightTaken)
    {l₀ : σ} {r₀ : τ} (hl : LeftReady l₀) (hr : RightReady r₀) {m : ℕ} (hn : lefts.length + rights.length + 1 < n)
    (hm : (joinRows (compared left.cols right.cols conds) lefts rights).length < m) :
    (executor left right conds n).drive m (construct l₀ r₀) =
      pure ((joinRows (compared left.cols right.cols conds) lefts rights).map some) :=
  (obeys_executor h hn).drive ⟨rfl, hl, hr⟩ hm

/-- If no pair comes to a condition between columns of different types, the rows are those of the join. -/
theorem drive_construct
    (h : Joins left right conds lefts rights LeftReady LeftAt LeftTaken RightReady RightAt RightTaken)
    (htypes : ∀ l ∈ lefts, ∀ r ∈ rights, ∀ cond, ComesTo (holds left.cols right.cols l r) conds cond →
      SameTypes left.cols right.cols cond)
    {l₀ : σ} {r₀ : τ} (hl : LeftReady l₀) (hr : RightReady r₀) {m : ℕ} (hn : lefts.length + rights.length + 1 < n)
    (hm : (join left.cols right.cols conds lefts rights).length < m) :
    (executor left right conds n).drive m (construct l₀ r₀) =
      pure ((join left.cols right.cols conds lefts rights).map some) := by
  have hjoin : joinRows (compared left.cols right.cols conds) lefts rights =
      join left.cols right.cols conds lefts rights :=
    joinRows_congr fun l hl r hr => compared_eq h.provided (htypes l hl r hr)
  rw [← hjoin] at hm ⊢
  exact drive_compared h hl hr hn hm

end

/-- Two tables with a number in each row, and the rows whose numbers are the same. -/
theorem drive_construct_two :
    let left := AbstractExecutor.ofRows [⟨⟨"a", .int, 4, 0⟩, "t"⟩] 4 [wordBytes 1, wordBytes 2]
    let right := AbstractExecutor.ofRows [⟨⟨"b", .int, 4, 0⟩, "u"⟩] 4 [wordBytes 2, wordBytes 3]
    (executor left right [⟨⟨"t", "a"⟩, .eq, .col ⟨"u", "b"⟩⟩] 6).drive 2 (construct [] []) =
      pure [some (wordBytes 2 ++ wordBytes 2)] := by
  intro left right
  have hprovided : Provided left.cols right.cols ⟨⟨"t", "a"⟩, .eq, .col ⟨"u", "b"⟩⟩ :=
    ⟨by decide, ⟨"u", "b"⟩, rfl, by decide⟩
  have hrows : join left.cols right.cols [⟨⟨"t", "a"⟩, .eq, .col ⟨"u", "b"⟩⟩] [wordBytes 1, wordBytes 2]
      [wordBytes 2, wordBytes 3] = [wordBytes 2 ++ wordBytes 2] := by decide
  have hjoins :
      Joins left right [⟨⟨"t", "a"⟩, .eq, .col ⟨"u", "b"⟩⟩] [wordBytes 1, wordBytes 2] [wordBytes 2, wordBytes 3]
      (fun _ => True) (fun l s => s = l) (fun l s => s = l) (fun _ => True) (fun l s => s = l) (fun l s => s = l) :=
    ⟨Cursor.obeys_ofList _ _, Cursor.obeys_ofList _ _, fun _ _ => trivial, ⟨by decide, by decide⟩,
      ⟨by decide, by decide⟩,
      List.forall_mem_singleton.mpr hprovided⟩
  have htypes : SameTypes left.cols right.cols ⟨⟨"t", "a"⟩, .eq, .col ⟨"u", "b"⟩⟩ := by
    rintro _ ⟨⟩
    rfl
  have h : (executor left right [⟨⟨"t", "a"⟩, .eq, .col ⟨"u", "b"⟩⟩] 6).drive 2 (construct [] []) = _ :=
    drive_construct hjoins (fun _ _ _ _ cond hcond => List.mem_singleton.mp hcond.mem ▸ htypes) trivial trivial
      (by decide) (by rw [hrows]; decide)
  rw [h, hrows]
  rfl

/-- The INT 1 and the FLOAT 1.0 are equal, and are not joined. -/
theorem not_drive_construct : ¬∀ (left right : AbstractExecutor (List Bytes)) (conds : List Condition)
    (lefts rights : List Bytes) (n m : ℕ),
    Joins left right conds lefts rights (fun _ => True) (fun l s => s = l) (fun l s => s = l) (fun _ => True)
      (fun l s => s = l) (fun l s => s = l) →
    lefts.length + rights.length + 1 < n → (join left.cols right.cols conds lefts rights).length < m →
    (executor left right conds n).drive m (construct [] []) =
      pure ((join left.cols right.cols conds lefts rights).map some) := by
  intro hclaim
  let left := AbstractExecutor.ofRows [⟨⟨"i", .int, 4, 0⟩, "t"⟩] 4 [wordBytes 1]
  let right := AbstractExecutor.ofRows [⟨⟨"f", .float, 4, 0⟩, "u"⟩] 4 [wordBytes 0x3F800000]
  let cond : Condition := ⟨⟨"t", "i"⟩, .eq, .col ⟨"u", "f"⟩⟩
  have hprovided : Provided left.cols right.cols cond := ⟨by decide, ⟨"u", "f"⟩, rfl, by decide⟩
  have hjoins : Joins left right [cond] [wordBytes 1] [wordBytes 0x3F800000] (fun _ => True) (fun l s => s = l)
      (fun l s => s = l) (fun _ => True) (fun l s => s = l) (fun l s => s = l) :=
    ⟨Cursor.obeys_ofList _ _, Cursor.obeys_ofList _ _, fun _ _ => trivial, ⟨by decide, by decide⟩,
      ⟨by decide, by decide⟩, List.forall_mem_singleton.mpr hprovided⟩
  have hjoin : join left.cols right.cols [cond] [wordBytes 1] [wordBytes 0x3F800000] =
      [wordBytes 1 ++ wordBytes 0x3F800000] := by decide +kernel
  have hempty : (executor left right [cond] 4).drive 2 (construct [] []) = pure [] := by rfl
  have hdrive := hclaim left right [cond] [wordBytes 1] [wordBytes 0x3F800000] 4 2 hjoins (by decide) (by
    rw [hjoin]
    decide)
  rw [hempty, hjoin] at hdrive
  cases hdrive

end NestedLoopJoinExecutor
end Rmdb
