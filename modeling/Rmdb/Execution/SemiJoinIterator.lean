import Rmdb.Execution.Iterators

/-! The semi join with its calls, beside the nested-loop join of the same children. -/
namespace Rmdb
namespace SemiJoinExecutor

open NestedLoopJoinExecutor (cellAt cellOf compared findOperand findOperand_eq matchesOf joinRows Provided)

structure State (σ τ : Type) where
  left : σ
  right : τ
  leftTuple : Option Bytes
  nextTuple : Option Bytes
  isEnd : Bool

def construct {σ τ : Type} (left : σ) (right : τ) : State σ τ := ⟨left, right, none, none, false⟩

/-- The string of a value, which is empty in a number. -/
def strVal : Value → Bytes
  | .str s => s
  | _ => []

/-- A cell beside a literal, which is read with the type of the column. -/
def compareValue (op : CompOp) (lhs : TableCol × Bytes) (val : Value) : Bool :=
  match lhs.1.type with
  | .int => op.holdsInt (readWord lhs.2) val.word
  | .float => NestedLoopJoinExecutor.holdsFloat op (readWord lhs.2) val.word
  | .string => op.holds (compare (upToNul (lhs.2.take lhs.1.len)) (strVal val))

section
variable {σ τ : Type} (left : AbstractExecutor σ) (right : AbstractExecutor τ) (conds : List Condition)

/-- A condition without one of its columns is passed over. -/
def satisfiesCondition (leftTuple rightTuple : Option Bytes) (cond : Condition) : Except DbError Bool := do
  match ← findOperand left right leftTuple rightTuple cond.lhsCol with
  | none => return true
  | some lhs =>
    match cond.rhs with
    | .val val _ => return compareValue cond.op lhs val
    | .col rhsCol =>
      match ← findOperand left right leftTuple rightTuple rhsCol with
      | none => return true
      | some rhs => return NestedLoopJoinExecutor.compareCells cond.op lhs rhs

def satisfyConditions (leftTuple rightTuple : Option Bytes) : Except DbError Bool :=
  conds.allM (satisfiesCondition left right leftTuple rightTuple)

/-- The copy of the left tuple. -/
def copyLeft (leftTuple : Option Bytes) : Except DbError Bytes :=
  match leftTuple with
  | some l => return l.take left.tupleLen
  | none => throw .crash

/-- The inner loop stops at the first right row that fits. -/
def matchRight : ℕ → State σ τ → Call DbError (Bool × State σ τ)
  | 0, _ => .unfinished
  | n + 1, s =>
    if right.isEnd s.right then return (false, s)
    else do
      let (rightTuple, r) ← right.get s.right
      let r ← right.advance r
      let s := { s with right := r }
      if ← Call.ofExcept (satisfyConditions left right conds s.leftTuple rightTuple) then return (true, s)
      else matchRight n s

/-- The loop of `nextTuple`. Each left row starts the right child again. -/
def search : ℕ → State σ τ → Call DbError (State σ τ)
  | 0, _ => .unfinished
  | n + 1, s => do
    let r ← right.start s.right
    let (found, s) ← matchRight left right conds n { s with right := r }
    if found then
      let tuple ← Call.ofExcept (copyLeft left s.leftTuple)
      return { s with nextTuple := some tuple }
    else
      let l ← left.advance s.left
      if left.isEnd l then return { s with left := l, isEnd := true }
      else
        let (leftTuple, l) ← left.get l
        search n { s with left := l, leftTuple }

def nextTuple (n : ℕ) (s : State σ τ) : Call DbError (State σ τ) :=
  if s.isEnd then return s else search left right conds n s

/-- `is_end` is never taken back. -/
def beginTuple (n : ℕ) (s : State σ τ) : Call DbError (State σ τ) := do
  let l ← left.start s.left
  if left.isEnd l then return { s with left := l, isEnd := true }
  else
    let (leftTuple, l) ← left.get l
    nextTuple left right conds n { s with left := l, leftTuple }

/-- `Next` looks for a row if there is none, and moves the left child on behind the row that it returns. -/
def next (n : ℕ) (s : State σ τ) : Call DbError (Option Bytes × State σ τ) := do
  let s ← if s.nextTuple = none ∧ s.isEnd = false then nextTuple left right conds n s else pure s
  let result := s.nextTuple
  let s := { s with nextTuple := none }
  if result = none then return (result, s)
  else
    let l ← left.advance s.left
    if left.isEnd l then return (result, { s with left := l, isEnd := true })
    else
      let (leftTuple, l) ← left.get l
      return (result, { s with left := l, leftTuple })

/-- The semi join, whose loops may go on for `n` rounds. -/
def executor (n : ℕ) : AbstractExecutor (State σ τ) where
  start := beginTuple left right conds n
  isEnd s := s.isEnd
  get := next left right conds n
  advance := nextTuple left right conds n
  cols := left.cols
  tupleLen := left.tupleLen

end

variable {σ τ : Type} {left : AbstractExecutor σ} {right : AbstractExecutor τ} {conds : List Condition} {l r : Bytes}

theorem findOperand_ne_none {target : TabCol} (leftTuple rightTuple : Option Bytes)
    (h : (NestedLoopJoinExecutor.typeOf left.cols right.cols target).isSome) :
    findOperand left right leftTuple rightTuple target ≠ .ok none := by
  have hcell (tuple : Option Bytes) (col : TableCol) : (some <$> cellOf tuple col) ≠ .ok none := by
    cases tuple with
    | none => nofun
    | some data => nofun
  unfold NestedLoopJoinExecutor.typeOf at h
  rw [Option.isSome_map, List.find?_append] at h
  unfold findOperand
  cases hleft : left.cols.find? (TableCol.is target) with
  | some col => exact hcell leftTuple col
  | none =>
    rw [hleft, Option.none_or] at h
    obtain ⟨col, hright⟩ := Option.isSome_iff_exists.mp h
    rw [hright]
    exact hcell rightTuple col

/-- On a condition between two columns the two copies of the evaluator agree. -/
theorem satisfiesCondition_eq_join {cond : Condition} (leftTuple rightTuple : Option Bytes)
    (hprovided : Provided left.cols right.cols cond) :
    satisfiesCondition left right leftTuple rightTuple cond =
      NestedLoopJoinExecutor.satisfiesCondition left right leftTuple rightTuple cond := by
  obtain ⟨hlhs, rhsCol, hrhs, -⟩ := hprovided
  have hfound := findOperand_ne_none leftTuple rightTuple hlhs
  unfold satisfiesCondition NestedLoopJoinExecutor.satisfiesCondition
  rw [hrhs]
  cases hcell : findOperand left right leftTuple rightTuple cond.lhsCol with
  | error e => rfl
  | ok cell =>
    cases cell with
    | none => exact absurd hcell hfound
    | some lhs =>
      change (findOperand left right leftTuple rightTuple rhsCol >>= _) =
        (findOperand left right leftTuple rightTuple rhsCol >>= _)
      cases findOperand left right leftTuple rightTuple rhsCol with
      | error e => rfl
      | ok cell => cases cell <;> rfl

theorem satisfyConditions_eq (hconds : ∀ cond ∈ conds, Provided left.cols right.cols cond) :
    satisfyConditions left right conds (some l) (some r) = .ok (compared left.cols right.cols conds l r) := by
  rw [← NestedLoopJoinExecutor.satisfyConditions_eq]
  unfold satisfyConditions NestedLoopJoinExecutor.satisfyConditions
  exact Program.allM_congr fun cond hcond => satisfiesCondition_eq_join _ _ (hconds cond hcond)

/-! ### The loops -/

/-- The left rows that some right row matches. -/
def semiRows (test : Bytes → Bytes → Bool) (lefts rights : List Bytes) : List Bytes :=
  lefts.filter fun l => !(matchesOf test l rights).isEmpty

section
variable {lefts rights ls rs rows : List Bytes} {LeftReady : σ → Prop} {RightReady : τ → Prop}
  {LeftAt LeftTaken : List Bytes → σ → Prop} {RightAt RightTaken : List Bytes → τ → Prop} {s : State σ τ} {n : ℕ}

/-- What a join needs, and a right child that starts again wherever it stands between two rows. -/
structure SemiJoins (left : AbstractExecutor σ) (right : AbstractExecutor τ) (conds : List Condition)
    (lefts rights : List Bytes)
    (LeftReady : σ → Prop) (LeftAt LeftTaken : List Bytes → σ → Prop) (RightReady : τ → Prop)
    (RightAt RightTaken : List Bytes → τ → Prop) : Prop
    extends NestedLoopJoinExecutor.Joins left right conds lefts rights LeftReady LeftAt LeftTaken RightReady RightAt
      RightTaken where
  restart : ∀ rs s, RightAt rs s → RightReady s

/-- The semi join holds a left row that it has not tried yet. -/
structure Holding (lefts : List Bytes) (LeftTaken : List Bytes → σ → Prop) (l : Bytes) (ls : List Bytes)
    (s : State σ τ) : Prop where
  isEnd : s.isEnd = false
  left : LeftTaken (l :: ls) s.left
  leftTuple : s.leftTuple = some l
  lefts : l :: ls <:+ lefts

/-- Rows left, the first of which has been found. -/
def SemiAt (left : AbstractExecutor σ) (right : AbstractExecutor τ) (conds : List Condition) (lefts rights : List Bytes)
    (LeftTaken : List Bytes → σ → Prop) (RightReady : τ → Prop) (rows : List Bytes) (s : State σ τ) : Prop :=
  s.isEnd = true ∧ rows = [] ∨ ∃ l ls, Holding lefts LeftTaken l ls s ∧ RightReady s.right ∧ s.nextTuple = some l ∧
    rows = l :: semiRows (compared left.cols right.cols conds) ls rights

/-- The first row has been returned, and the left child has moved on. -/
def SemiTaken (left : AbstractExecutor σ) (right : AbstractExecutor τ) (conds : List Condition)
    (lefts rights : List Bytes) (LeftTaken : List Bytes → σ → Prop) (RightReady : τ → Prop) (rows : List Bytes)
    (s : State σ τ) : Prop :=
  ∃ row, s.isEnd = true ∧ rows = [row] ∨ ∃ l ls, Holding lefts LeftTaken l ls s ∧ RightReady s.right ∧
    rows = row :: semiRows (compared left.cols right.cols conds) (l :: ls) rights

theorem semiRows_cons_pos {test : Bytes → Bytes → Bool} (h : matchesOf test l rights ≠ []) :
    semiRows test (l :: ls) rights = l :: semiRows test ls rights :=
  List.filter_cons_of_pos (by rwa [Bool.not_eq_true', List.isEmpty_eq_false_iff])

theorem semiRows_cons_neg {test : Bytes → Bytes → Bool} (h : matchesOf test l rights = []) :
    semiRows test (l :: ls) rights = semiRows test ls rights :=
  List.filter_cons_of_neg (by rw [h]; exact Bool.false_ne_true)

section

variable (h : SemiJoins left right conds lefts rights LeftReady LeftAt LeftTaken RightReady RightAt RightTaken)
include h

/-- The inner loop looks for one match and leaves the rest of the executor as it is. -/
theorem matchRight_spec (hs : Holding lefts LeftTaken l ls s) (hr : RightAt rs s.right) (hrs : rs <:+ rights)
    (hn : rs.length < n) :
    ∃ r rest, RightAt rest r ∧ matchRight left right conds n s =
      pure (!(matchesOf (compared left.cols right.cols conds) l rs).isEmpty, { s with right := r }) := by
  induction rs generalizing s n with
  | nil =>
    obtain ⟨n, rfl⟩ := Nat.exists_eq_succ_of_ne_zero (Nat.ne_of_gt hn)
    refine ⟨s.right, [], hr, ?_⟩
    unfold matchRight
    rw [if_pos (h.inner.isEnd_nil hr)]
    rfl
  | cons r rs ih =>
    obtain ⟨n, rfl⟩ := Nat.exists_eq_succ_of_ne_zero (Nat.ne_of_gt (Nat.zero_lt_of_lt hn))
    obtain ⟨r₁, hget, hr₁⟩ := h.inner.get r rs s.right hr
    obtain ⟨r₂, hadvance, hr₂⟩ := h.inner.advance r rs r₁ hr₁
    have hsatisfy := satisfyConditions_eq (l := l) (r := r) h.provided
    unfold matchRight
    rw [if_neg (Bool.eq_false_iff.mp (h.inner.isEnd_cons hr)), Call.bind_of_eq hget]
    dsimp only
    rw [Call.bind_of_eq hadvance, hs.leftTuple, hsatisfy, Call.ofExcept_ok, pure_bind]
    cases hmeets : compared left.cols right.cols conds l r with
    | true =>
      refine ⟨r₂, rs, hr₂, ?_⟩
      rw [if_pos rfl, NestedLoopJoinExecutor.matchesOf_pos rs hmeets, List.isEmpty_cons, Bool.not_false]
    | false =>
      have hrest : Holding lefts LeftTaken l ls { s with right := r₂ } := ⟨hs.isEnd, hs.left, hs.leftTuple, hs.lefts⟩
      rw [if_neg Bool.false_ne_true, NestedLoopJoinExecutor.matchesOf_neg rs hmeets]
      have hnext := ih hrest hr₂ ((List.suffix_cons r rs).trans hrs) (n := n) (Nat.lt_of_succ_lt_succ hn)
      rwa [hs.leftTuple] at hnext

theorem search_hit (hs : Holding lefts LeftTaken l ls s) (hr : RightReady s.right) (hn : rights.length < n)
    (hmatch : matchesOf (compared left.cols right.cols conds) l rights ≠ []) :
    ∃ s', search left right conds (n + 1) s = pure s' ∧ SemiAt left right conds lefts rights LeftTaken RightReady
      (semiRows (compared left.cols right.cols conds) (l :: ls) rights) s' := by
  obtain ⟨r₁, hstart, hr₁⟩ := h.inner.start s.right hr
  have hs₁ : Holding lefts LeftTaken l ls { s with right := r₁ } := ⟨hs.isEnd, hs.left, hs.leftTuple, hs.lefts⟩
  obtain ⟨r₂, rest, hr₂, hfound⟩ := matchRight_spec h hs₁ hr₁ List.suffix_rfl hn
  have hl := h.fitsLeft.length l (hs.lefts.subset List.mem_cons_self)
  have hcopy : copyLeft left s.leftTuple = .ok l := by
    rw [hs.leftTuple]
    change Except.ok (l.take left.tupleLen) = _
    rw [← hl, List.take_length]
  unfold search
  rw [Call.bind_of_eq hstart, Call.bind_of_eq hfound]
  dsimp only
  rw [if_pos (by rwa [Bool.not_eq_true', List.isEmpty_eq_false_iff]), hcopy, Call.ofExcept_ok, pure_bind,
    semiRows_cons_pos hmatch]
  exact ⟨_, rfl, Or.inr ⟨l, ls, ⟨hs.isEnd, hs.left, hs.leftTuple, hs.lefts⟩, h.restart rest r₂ hr₂, rfl, rfl⟩⟩

/-- A left row without a match is passed over. -/
theorem search_miss (hs : Holding lefts LeftTaken l ls s) (hr : RightReady s.right) (hn : rights.length < n)
    (hmatch : matchesOf (compared left.cols right.cols conds) l rights = []) :
    ∃ r, RightReady r ∧ search left right conds (n + 1) s = (do
      let l ← left.advance s.left
      if left.isEnd l then return { s with left := l, right := r, isEnd := true }
      else
        let (leftTuple, l) ← left.get l
        search left right conds n { s with left := l, right := r, leftTuple }) := by
  obtain ⟨r₁, hstart, hr₁⟩ := h.inner.start s.right hr
  have hs₁ : Holding lefts LeftTaken l ls { s with right := r₁ } := ⟨hs.isEnd, hs.left, hs.leftTuple, hs.lefts⟩
  obtain ⟨r₂, rest, hr₂, hfound⟩ := matchRight_spec h hs₁ hr₁ List.suffix_rfl hn
  refine ⟨r₂, h.restart rest r₂ hr₂, ?_⟩
  rw [hmatch] at hfound
  conv_lhs => unfold search
  rw [Call.bind_of_eq hstart, Call.bind_of_eq hfound]
  rfl

/-- The search ends at the next left row that has a match. -/
theorem search_spec (hs : Holding lefts LeftTaken l ls s) (hr : RightReady s.right)
    (hn : ls.length + rights.length + 1 < n) :
    ∃ s', search left right conds n s = pure s' ∧ SemiAt left right conds lefts rights LeftTaken RightReady
      (semiRows (compared left.cols right.cols conds) (l :: ls) rights) s' := by
  induction ls generalizing l s n with
  | nil =>
    obtain ⟨n, rfl⟩ := Nat.exists_eq_succ_of_ne_zero (Nat.ne_of_gt (Nat.zero_lt_of_lt hn))
    by_cases hmatch : matchesOf (compared left.cols right.cols conds) l rights = []
    · obtain ⟨r, hr, hmiss⟩ := search_miss h hs hr (n := n) (by omega) hmatch
      obtain ⟨l₁, hadvance, hl₁⟩ := h.outer.advance l [] s.left hs.left
      rw [hmiss, Call.bind_of_eq hadvance, if_pos (h.outer.isEnd_nil hl₁), semiRows_cons_neg hmatch]
      exact ⟨_, rfl, Or.inl ⟨rfl, rfl⟩⟩
    · exact search_hit h hs hr (by omega) hmatch
  | cons l' ls ih =>
    obtain ⟨n, rfl⟩ := Nat.exists_eq_succ_of_ne_zero (Nat.ne_of_gt (Nat.zero_lt_of_lt hn))
    rw [List.length_cons] at hn
    by_cases hmatch : matchesOf (compared left.cols right.cols conds) l rights = []
    · obtain ⟨r, hr, hmiss⟩ := search_miss h hs hr (n := n) (by omega) hmatch
      obtain ⟨l₁, hadvance, hl₁⟩ := h.outer.advance l (l' :: ls) s.left hs.left
      obtain ⟨l₂, hget, hl₂⟩ := h.outer.get l' ls l₁ hl₁
      rw [hmiss, Call.bind_of_eq hadvance, if_neg (Bool.eq_false_iff.mp (h.outer.isEnd_cons hl₁)),
        Call.bind_of_eq hget, semiRows_cons_neg hmatch]
      have hs₂ : Holding lefts LeftTaken l' ls { s with left := l₂, right := r, leftTuple := some l' } :=
        ⟨hs.isEnd, hl₂, rfl, (List.suffix_cons l (l' :: ls)).trans hs.lefts⟩
      exact ih hs₂ hr (by omega)
    · exact search_hit h hs hr (by omega) hmatch

theorem beginTuple_spec (hend : s.isEnd = false) (hl : LeftReady s.left) (hr : RightReady s.right)
    (hn : lefts.length + rights.length + 1 < n) :
    ∃ s', beginTuple left right conds n s = pure s' ∧ SemiAt left right conds lefts rights LeftTaken RightReady
      (semiRows (compared left.cols right.cols conds) lefts rights) s' := by
  obtain ⟨l₁, hstart, hl₁⟩ := h.outer.start s.left hl
  unfold beginTuple
  rw [Call.bind_of_eq hstart]
  cases lefts with
  | nil =>
    rw [if_pos (h.outer.isEnd_nil hl₁)]
    exact ⟨_, rfl, Or.inl ⟨rfl, rfl⟩⟩
  | cons l ls =>
    obtain ⟨l₂, hget, hl₂⟩ := h.outer.get l ls l₁ hl₁
    have hs₂ : Holding (l :: ls) LeftTaken l ls { s with left := l₂, leftTuple := some l } :=
      ⟨hend, hl₂, rfl, List.suffix_rfl⟩
    rw [List.length_cons] at hn
    rw [if_neg (Bool.eq_false_iff.mp (h.outer.isEnd_cons hl₁)), Call.bind_of_eq hget]
    dsimp only
    unfold nextTuple
    rw [if_neg (Bool.eq_false_iff.mp hend)]
    exact search_spec h hs₂ hr (by omega)

/-- `Next` returns the row that has been found, and moves the left child on. -/
theorem next_spec (hs : SemiAt left right conds lefts rights LeftTaken RightReady (l :: rows) s) :
    ∃ s', next left right conds n s = pure (some l, s') ∧
      SemiTaken left right conds lefts rights LeftTaken RightReady (l :: rows) s' := by
  cases hs with
  | inl hend => exact absurd hend.2 (List.cons_ne_nil _ _)
  | inr hfound =>
    obtain ⟨l', ls, hs, hr, hnext, hrows⟩ := hfound
    obtain ⟨rfl, rfl⟩ := List.cons.inj hrows
    have hpending : ¬(s.nextTuple = none ∧ s.isEnd = false) := by
      rw [hnext]
      exact fun hnone => nomatch hnone.1
    unfold next
    rw [if_neg hpending, pure_bind]
    dsimp only
    rw [hnext, if_neg (Option.some_ne_none l)]
    cases ls with
    | nil =>
      obtain ⟨l₁, hadvance, hl₁⟩ := h.outer.advance l [] s.left hs.left
      rw [Call.bind_of_eq hadvance, if_pos (h.outer.isEnd_nil hl₁)]
      exact ⟨_, rfl, l, Or.inl ⟨rfl, rfl⟩⟩
    | cons l' ls =>
      obtain ⟨l₁, hadvance, hl₁⟩ := h.outer.advance l (l' :: ls) s.left hs.left
      obtain ⟨l₂, hget, hl₂⟩ := h.outer.get l' ls l₁ hl₁
      rw [Call.bind_of_eq hadvance, if_neg (Bool.eq_false_iff.mp (h.outer.isEnd_cons hl₁)), Call.bind_of_eq hget]
      have hs₂ : Holding lefts LeftTaken l' ls
          { s with left := l₂, leftTuple := some l', nextTuple := none } :=
        ⟨hs.isEnd, hl₂, rfl, (List.suffix_cons l (l' :: ls)).trans hs.lefts⟩
      exact ⟨_, rfl, l, Or.inr ⟨l', ls, hs₂, hr, rfl⟩⟩

/-- Children that obey the protocol make a semi join that does. -/
theorem obeys_executor (hn : lefts.length + rights.length + 1 < n) :
    (executor left right conds n).Obeys (semiRows (compared left.cols right.cols conds) lefts rights)
      (fun s => s.isEnd = false ∧ LeftReady s.left ∧ RightReady s.right)
      (SemiAt left right conds lefts rights LeftTaken RightReady)
      (SemiTaken left right conds lefts rights LeftTaken RightReady) where
  start s hs := beginTuple_spec h hs.1 hs.2.1 hs.2.2 hn
  isEnd rows s hs := by
    cases hs with
    | inl hend => exact iff_of_true hend.1 hend.2
    | inr hfound =>
      obtain ⟨l, ls, hs, -, -, rfl⟩ := hfound
      exact iff_of_false (Bool.eq_false_iff.mp hs.isEnd) (List.cons_ne_nil _ _)
  get _ _ _ hs := next_spec h hs
  advance row rows s hs := by
    obtain ⟨first, hs⟩ := hs
    change ∃ s', nextTuple left right conds n s = pure s' ∧ _
    unfold nextTuple
    cases hs with
    | inl hend =>
      rw [if_pos hend.1]
      exact ⟨s, rfl, Or.inl ⟨hend.1, (List.cons.inj hend.2).2⟩⟩
    | inr hmore =>
      obtain ⟨l, ls, hs, hr, hrows⟩ := hmore
      have hls := hs.lefts.length_le
      rw [List.length_cons] at hls
      rw [if_neg (Bool.eq_false_iff.mp hs.isEnd), (List.cons.inj hrows).2]
      exact search_spec h hs hr (by omega)

end

end

/-! ### The join with the positions of its left rows -/

/-- The matches of the left rows `ls`, the last of `total`, with the position of the left row of each. -/
def positioned (test : Bytes → Bytes → Bool) (rights : List Bytes) (total : ℕ) :
    List Bytes → List (Bytes × ℕ)
  | [] => []
  | l :: ls => (matchesOf test l rights).map (·, total - (ls.length + 1)) ++
      positioned test rights total ls

/-- The matches that are left while the join is at a left row. -/
def positionedFrom (test : Bytes → Bytes → Bool) (rights : List Bytes) (total : ℕ) (l : Bytes)
    (ls rs : List Bytes) : List (Bytes × ℕ) :=
  (matchesOf test l rs).map (·, total - (ls.length + 1)) ++ positioned test rights total ls

section
variable {test : Bytes → Bytes → Bool} {lefts rights ls rs rest ms : List Bytes} {m row : Bytes} {total len : ℕ}

theorem positioned_fst (test : Bytes → Bytes → Bool) (rights : List Bytes) (total : ℕ)
    (ls : List Bytes) : (positioned test rights total ls).map Prod.fst = joinRows test ls rights := by
  induction ls with
  | nil => rfl
  | cons l ls ih =>
    unfold positioned
    rw [List.map_append, ih, List.map_map]
    exact congrArg (· ++ _) (List.map_id _)

theorem lt_of_mem_positioned {entry : Bytes × ℕ} (hls : ls.length < total)
    (h : entry ∈ positioned test rights total ls) : total - (ls.length + 1) < entry.2 := by
  induction ls with
  | nil => cases h
  | cons l ls ih =>
    rw [List.length_cons] at hls ⊢
    unfold positioned at h
    cases List.mem_append.mp h with
    | inl hhere =>
      obtain ⟨row, -, rfl⟩ := List.mem_map.mp hhere
      dsimp only
      omega
    | inr hlater =>
      have hlt := ih (by omega) hlater
      omega

/-- The first match of each left row begins with that row. -/
theorem positioned_destutter (test : Bytes → Bytes → Bool) (rights : List Bytes)
    (hls : ls.length ≤ total) (hlen : ∀ l ∈ ls, l.length = len) :
    ((positioned test rights total ls).destutter (·.2 ≠ ·.2)).map (fun entry => entry.1.take len) =
      semiRows test ls rights := by
  induction ls with
  | nil => rfl
  | cons l ls ih =>
    rw [List.length_cons] at hls
    have hrest := ih (by omega) fun l' hl' => hlen l' (List.mem_cons_of_mem l hl')
    unfold positioned
    cases hmatch : matchesOf test l rights with
    | nil =>
      rw [semiRows_cons_neg hmatch]
      exact hrest
    | cons row rows =>
      have hmem : row ∈ matchesOf test l rights := hmatch ▸ List.mem_cons_self
      obtain ⟨r, -, rfl⟩ := List.mem_map.mp hmem
      have hblock : ∀ entry ∈ rows.map (·, total - (ls.length + 1)), entry.2 = total - (ls.length + 1) := by
        intro entry hentry
        obtain ⟨row, -, rfl⟩ := List.mem_map.mp hentry
        rfl
      have hlater : ∀ entry ∈ positioned test rights total ls, entry.2 ≠ total - (ls.length + 1) :=
        fun entry hentry => Nat.ne_of_gt (lt_of_mem_positioned (by omega) hentry)
      have hcut := Cursor.destutter_block Prod.snd (a := (l ++ r, total - (ls.length + 1))) hblock hlater
      have hl := hlen l List.mem_cons_self
      rw [List.map_cons, List.cons_append, hcut, List.map_cons, hrest,
        semiRows_cons_pos (hmatch ▸ List.cons_ne_nil _ _)]
      dsimp only
      rw [List.take_left' hl]

theorem positionedFrom_next (h : NestedLoopJoinExecutor.NextMatch test rights l ls rs row m ms rest) :
    positionedFrom test rights total l ls rs =
      (row, total - (ms.length + 1)) :: positionedFrom test rights total m ms rest := by
  induction h with
  | here h =>
    unfold positionedFrom
    rw [h]
    rfl
  | later h _ ih =>
    rw [← ih]
    unfold positionedFrom
    rw [h]
    rfl

end

section
variable {lefts rights : List Bytes} {LeftReady : σ → Prop} {RightReady : τ → Prop}
  {LeftAt LeftTaken : List Bytes → σ → Prop} {RightAt RightTaken : List Bytes → τ → Prop} {n m : ℕ}

/-- The left child with the number of its row. -/
def counted (left : AbstractExecutor σ) : AbstractExecutor (σ × ℕ) where
  toCursor := left.toCursor.counted
  cols := left.cols
  tupleLen := left.tupleLen

/-- The left child has returned the first of its rows that are left, and has counted the others. -/
def CountedTaken (lefts : List Bytes) (LeftTaken : List Bytes → σ → Prop) (rows : List Bytes) (s : σ × ℕ) : Prop :=
  LeftTaken rows s.1 ∧ s.2 + rows.length = lefts.length

def PositionedTaken (test : Bytes → Bytes → Bool) (lefts rights : List Bytes)
    (LeftTaken : List Bytes → σ → Prop) (RightAt : List Bytes → τ → Prop) (rows : List (Bytes × ℕ))
    (s : NestedLoopJoinExecutor.State (σ × ℕ) τ) : Prop :=
  ∃ l ls rs row, NestedLoopJoinExecutor.Midway lefts rights (CountedTaken lefts LeftTaken) RightAt l ls rs s ∧
    rows = row :: positionedFrom test rights lefts.length l ls rs

def PositionedAt (test : Bytes → Bytes → Bool) (lefts rights : List Bytes)
    (LeftTaken : List Bytes → σ → Prop) (RightAt : List Bytes → τ → Prop) (rows : List (Bytes × ℕ))
    (s : NestedLoopJoinExecutor.State (σ × ℕ) τ) : Prop :=
  s.isEnd = true ∧ rows = [] ∨ ∃ l ls rs row,
    NestedLoopJoinExecutor.Midway lefts rights (CountedTaken lefts LeftTaken) RightAt l ls rs s ∧
      s.nextTuple = some row ∧
      rows = (row, lefts.length - (ls.length + 1)) :: positionedFrom test rights lefts.length l ls rs

theorem joins_counted
    (h : NestedLoopJoinExecutor.Joins left right conds lefts rights LeftReady LeftAt LeftTaken RightReady RightAt
      RightTaken) :
    NestedLoopJoinExecutor.Joins (counted left) right conds lefts rights (fun s => LeftReady s.1)
      (fun rows s => LeftAt rows s.1 ∧ s.2 + rows.length = lefts.length) (CountedTaken lefts LeftTaken) RightReady
      RightAt RightTaken :=
  ⟨h.outer.counted, h.inner, h.again, ⟨h.fitsLeft.length, h.fitsLeft.cols⟩, h.fitsRight, h.provided⟩

theorem nextTuple_positioned
    (h : NestedLoopJoinExecutor.Joins left right conds lefts rights LeftReady LeftAt LeftTaken RightReady RightAt
      RightTaken) {l : Bytes} {ls rs : List Bytes} {s : NestedLoopJoinExecutor.State (σ × ℕ) τ}
    (hs : NestedLoopJoinExecutor.Midway lefts rights (CountedTaken lefts LeftTaken) RightAt l ls rs s)
    (hn : ls.length + rights.length + 1 < n) :
    ∃ s', NestedLoopJoinExecutor.nextTuple (counted left) right conds n s = pure s' ∧
      PositionedAt (compared left.cols right.cols conds) lefts rights LeftTaken RightAt
        (positionedFrom (compared left.cols right.cols conds) rights lefts.length l ls rs) s' := by
  obtain ⟨s', hnext, hs'⟩ := NestedLoopJoinExecutor.nextTuple_next (joins_counted h) hs hn
  refine ⟨s', hnext, ?_⟩
  cases hs' with
  | inl hend =>
    left
    refine ⟨hend.1, ?_⟩
    have hnone : (positionedFrom (compared left.cols right.cols conds) rights lefts.length l ls rs).map
        Prod.fst = [] := by
      rw [← hend.2]
      unfold positionedFrom NestedLoopJoinExecutor.remaining
      rw [List.map_append, positioned_fst, List.map_map]
      exact congrArg (· ++ _) (List.map_id _)
    exact List.map_eq_nil_iff.mp hnone
  | inr hmore =>
    obtain ⟨m, ms, rest, row, hmid, hrow, hmatch⟩ := hmore
    exact Or.inr ⟨m, ms, rest, row, hmid, hrow, positionedFrom_next hmatch⟩

/-- The join shows the position of the left row of each of its rows. -/
theorem obeys_positioned
    (h : NestedLoopJoinExecutor.Joins left right conds lefts rights LeftReady LeftAt LeftTaken RightReady RightAt
      RightTaken) (hn : lefts.length + rights.length + 1 < n) :
    ((NestedLoopJoinExecutor.executor (counted left) right conds n).tagged fun s => s.left.2).Obeys
      (positioned (compared left.cols right.cols conds) rights lefts.length lefts)
      (fun s => s.isEnd = false ∧ LeftReady s.left.1 ∧ RightReady s.right)
      (PositionedAt (compared left.cols right.cols conds) lefts rights LeftTaken RightAt)
      (PositionedTaken (compared left.cols right.cols conds) lefts rights LeftTaken RightAt) where
  start s hs := by
    change ∃ s', NestedLoopJoinExecutor.beginTuple (counted left) right conds n s = pure s' ∧ _
    cases lefts with
    | nil =>
      obtain ⟨s', hbegin, hs'⟩ := NestedLoopJoinExecutor.beginTuple_nil (n := n) (joins_counted h) hs.2.1
      exact ⟨s', hbegin, Or.inl ⟨hs', rfl⟩⟩
    | cons l ls =>
      obtain ⟨s₁, hbegin, hs₁⟩ :=
        NestedLoopJoinExecutor.beginTuple_cons (n := n) (joins_counted h) hs.1 hs.2.1 hs.2.2
      rw [List.length_cons] at hn
      rw [hbegin]
      exact nextTuple_positioned h hs₁ (by omega)
  isEnd rows s hs := by
    cases hs with
    | inl hend => exact iff_of_true hend.1 hend.2
    | inr hrow =>
      obtain ⟨l, ls, rs, row, hmid, -, rfl⟩ := hrow
      exact iff_of_false (Bool.eq_false_iff.mp hmid.isEnd) (List.cons_ne_nil _ _)
  get entry rows s hs := by
    cases hs with
    | inl hend => exact absurd hend.2 (List.cons_ne_nil _ _)
    | inr hrow =>
      obtain ⟨l, ls, rs, row, hmid, hnext, hrows⟩ := hrow
      obtain ⟨rfl, rfl⟩ := List.cons.inj hrows
      refine ⟨{ s with nextTuple := none }, ?_, l, ls, rs, _, hmid.withNext none, rfl⟩
      have hcount := hmid.left.2
      rw [List.length_cons] at hcount
      have hposition : s.left.2 = lefts.length - (ls.length + 1) := by omega
      change (pure (s.nextTuple.map (·, s.left.2), { s with nextTuple := none }) : Call DbError _) = _
      rw [hnext, hposition]
      rfl
  advance entry rows s hs := by
    obtain ⟨l, ls, rs, first, hmid, hrows⟩ := hs
    obtain ⟨rfl, rfl⟩ := List.cons.inj hrows
    have hls := hmid.lefts.length_le
    rw [List.length_cons] at hls
    exact nextTuple_positioned h hmid (by omega)

/-- The semi join returns the left rows of the join, one for each position of the left child. -/
theorem drive_leftRows
    (h : SemiJoins left right conds lefts rights LeftReady LeftAt LeftTaken RightReady RightAt RightTaken)
    {l₀ : σ} {r₀ : τ} (hl : LeftReady l₀) (hr : RightReady r₀) (hn : lefts.length + rights.length + 1 < n)
    (hm : (joinRows (compared left.cols right.cols conds) lefts rights).length < m) :
    ∃ out : List (Bytes × ℕ),
      (NestedLoopJoinExecutor.executor left right conds n).drive m (NestedLoopJoinExecutor.construct l₀ r₀) =
        pure (out.map fun entry => some entry.1) ∧
      ((NestedLoopJoinExecutor.executor (counted left) right conds n).tagged fun s => s.left.2).drive m
        (NestedLoopJoinExecutor.construct (l₀, 0) r₀) = pure (out.map some) ∧
      (executor left right conds n).drive m (construct l₀ r₀) =
        pure ((out.destutter (·.2 ≠ ·.2)).map fun entry => some (entry.1.take left.tupleLen)) := by
  have hfst := positioned_fst (compared left.cols right.cols conds) rights lefts.length lefts
  have hlength : (positioned (compared left.cols right.cols conds) rights lefts.length lefts).length < m := by
    rwa [← hfst, List.length_map] at hm
  have hsemi := positioned_destutter (compared left.cols right.cols conds) rights le_rfl h.fitsLeft.length
  refine ⟨positioned (compared left.cols right.cols conds) rights lefts.length lefts, ?_, ?_, ?_⟩
  · rw [NestedLoopJoinExecutor.drive_compared h.toJoins hl hr hn hm, ← hfst, List.map_map]
    rfl
  · exact (obeys_positioned h.toJoins hn).drive ⟨rfl, hl, hr⟩ hlength
  · have hshort : (semiRows (compared left.cols right.cols conds) lefts rights).length < m := by
      rw [← hsemi, List.length_map]
      exact lt_of_le_of_lt (List.destutter_sublist _ _).length_le hlength
    rw [(obeys_executor h hn).drive ⟨rfl, hl, hr⟩ hshort, ← hsemi, List.map_map]
    rfl

end

/-- Two rows on the right that match the same row on the left, which comes once. -/
theorem drive_leftRows_two :
    let left := AbstractExecutor.ofRows [⟨⟨"a", .int, 4, 0⟩, "t"⟩] 4 [wordBytes 1, wordBytes 2]
    let right := AbstractExecutor.ofRows [⟨⟨"b", .int, 4, 0⟩, "u"⟩] 4 [wordBytes 2, wordBytes 2]
    let conds : List Condition := [⟨⟨"t", "a"⟩, .eq, .col ⟨"u", "b"⟩⟩]
    ∃ out : List (Bytes × ℕ),
      (NestedLoopJoinExecutor.executor left right conds 6).drive 3 (NestedLoopJoinExecutor.construct [] []) =
        pure (out.map fun entry => some entry.1) ∧
      ((NestedLoopJoinExecutor.executor (counted left) right conds 6).tagged fun s => s.left.2).drive 3
        (NestedLoopJoinExecutor.construct ([], 0) []) = pure (out.map some) ∧
      (executor left right conds 6).drive 3 (construct [] []) =
        pure ((out.destutter (·.2 ≠ ·.2)).map fun entry => some (entry.1.take left.tupleLen)) := by
  intro left right conds
  have hprovided : Provided left.cols right.cols ⟨⟨"t", "a"⟩, .eq, .col ⟨"u", "b"⟩⟩ :=
    ⟨by decide, ⟨"u", "b"⟩, rfl, by decide⟩
  have hjoins : SemiJoins left right conds [wordBytes 1, wordBytes 2] [wordBytes 2, wordBytes 2]
      (fun _ => True) (fun l s => s = l) (fun l s => s = l) (fun _ => True) (fun l s => s = l) (fun l s => s = l) :=
    ⟨⟨Cursor.obeys_ofList _ _, Cursor.obeys_ofList _ _, fun _ _ => trivial, ⟨by decide, by decide⟩,
      ⟨by decide, by decide⟩, List.forall_mem_singleton.mpr hprovided⟩, fun _ _ _ => trivial⟩
  exact drive_leftRows hjoins trivial trivial (by decide) (by decide)

end SemiJoinExecutor
end Rmdb
