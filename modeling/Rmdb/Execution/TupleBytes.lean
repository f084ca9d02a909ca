import Rmdb.Execution.JoinRows
import Rmdb.Execution.SortIterator

/-! A tuple as its cells and as its bytes. Plans are run on cells, where the executors read bytes at the offsets of
their columns; joins and sorts come to the same on both. -/
namespace Rmdb

open Program

/-! ### Where the cells lie -/

def TableCol.movedTo (col : TableCol) (offset : ℕ) : TableCol := { col with offset }

/-- The cells lie one behind the other from `offset` on. They keep the offsets that the columns have in their tables. -/
inductive Lies : ℕ → List TableCol → Tuple → Prop
  | nil (offset : ℕ) : Lies offset [] []
  | cons {offset : ℕ} {cell : TableCol × Bytes} {cols : List TableCol} {tuple : Tuple} (hlen : cell.2.length = cell.1.len)
    (hrest : Lies (offset + cell.1.len) cols tuple) : Lies offset (cell.1.movedTo offset :: cols) (cell :: tuple)

/-- Two columns have one type and length, and the same bytes from there on. -/
structure SameCell (a b : TableCol × Bytes) : Prop where
  type : a.1.type = b.1.type
  len : a.1.len = b.1.len
  bytes : a.2 = b.2

namespace Lies

variable {offset : ℕ} {cols cols' : List TableCol} {tuple tuple' : Tuple} {data : Bytes} {cell : TableCol × Bytes}
  {target : TabCol}

theorem shift (h : Lies offset cols tuple) (n : ℕ) : Lies (offset + n) (cols.map (NestedLoopJoinExecutor.shift n)) tuple := by
  induction h with
  | nil offset => exact .nil _
  | @cons offset cell cols tuple hlen hrest ih =>
    rw [Nat.add_right_comm] at ih
    exact .cons hlen ih

theorem append (h : Lies offset cols tuple) (h' : Lies (offset + (Tuple.bytes tuple).length) cols' tuple') :
    Lies offset (cols ++ cols') (tuple ++ tuple') := by
  induction h with
  | nil offset => exact h'
  | @cons offset cell cols tuple hlen hrest ih =>
    refine .cons hlen (ih ?_)
    unfold Tuple.bytes at h' ⊢
    rwa [List.flatMap_cons, List.length_append, hlen, ← Nat.add_assoc] at h'

/-- A column is found in the bytes where its cell is in the tuple. -/
theorem cellFrom (h : Lies offset cols tuple) (hdata : data.drop offset = Tuple.bytes tuple) (target : TabCol) :
    Option.Rel SameCell (cellFrom target tuple)
      ((cols.find? (TableCol.is target)).map fun col => (col, data.drop col.offset)) := by
  induction h with
  | nil offset => exact .none
  | @cons offset cell cols tuple hlen hrest ih =>
    have hsplit : data.drop offset = cell.2 ++ Tuple.bytes tuple := hdata
    have htail : data.drop (offset + cell.1.len) = Tuple.bytes tuple := by
      rw [← List.drop_drop, hsplit, ← hlen, List.drop_left]
    have his : TableCol.is target (cell.1.movedTo offset) = TableCol.is target cell.1 := rfl
    rw [Rmdb.cellFrom]
    split
    · rename_i hcell
      rw [List.find?_cons_of_pos (his.trans hcell)]
      exact .some ⟨rfl, rfl, hdata.symm⟩
    · rename_i hcell
      rw [List.find?_cons_of_neg (his ▸ hcell)]
      exact ih htail

theorem length_of_mem (h : Lies offset cols tuple) (hcell : cell ∈ tuple) : cell.2.length = cell.1.len := by
  induction h with
  | nil offset => cases hcell
  | cons hlen hrest ih =>
    cases List.mem_cons.mp hcell with
    | inl heq => rw [heq, hlen]
    | inr hmem => exact ih hmem

/-- The bytes of a cell that is found are at the offset of its column. -/
theorem getCell {col : TableCol} (h : Lies 0 cols tuple) (hcol : cols.find? (TableCol.is target) = some col) :
    ∃ cell rest, getCell tuple target = some cell ∧ cell.2.length = col.len ∧
      (Tuple.bytes tuple).drop col.offset = cell.2 ++ rest ∧ cell.1.type = col.type ∧ cell.1.len = col.len := by
  have hrel := h.cellFrom (show (Tuple.bytes tuple).drop 0 = Tuple.bytes tuple from rfl) target
  rw [hcol, Option.map_some] at hrel
  cases hget : Rmdb.getCell tuple target with
  | none =>
    rw [cellFrom_eq_none hget] at hrel
    cases hrel
  | some cell =>
    obtain ⟨rest, hrest⟩ := cellFrom_eq_some hget
    rw [hrest] at hrel
    cases hrel with
    | some hsame =>
      have hlen := h.length_of_mem (tabName_of_getCell hget).1
      exact ⟨cell, rest, rfl, hlen.trans hsame.len, hsame.bytes.symm, hsame.type, hsame.len⟩

end Lies

/-! ### Joins -/

namespace NestedLoopJoinExecutor

theorem compareCells_congr {lhs lhs' rhs rhs' : TableCol × Bytes} (op : CompOp) (hlhs : SameCell lhs lhs')
    (hrhs : SameCell rhs rhs') : compareCells op lhs rhs = compareCells op lhs' rhs' := by
  unfold compareCells
  rw [hlhs.type, hlhs.len, hlhs.bytes, hrhs.len, hrhs.bytes]

section
variable {σ τ : Type} {left : AbstractExecutor σ} {right : AbstractExecutor τ} {t u : Tuple} {conds : List Condition}

/-- The columns of a join lie in the tuple of the left row with the right one. -/
theorem lies_cols (ht : Lies 0 left.cols t) (hu : Lies 0 right.cols u) (hlen : (Tuple.bytes t).length = left.tupleLen) :
    Lies 0 (cols left right) (t ++ u) := by
  refine ht.append ?_
  rw [hlen]
  exact hu.shift left.tupleLen

theorem rel_cellAt (ht : Lies 0 left.cols t) (hu : Lies 0 right.cols u) (target : TabCol) :
    Option.Rel SameCell ((cellFrom target t).or (cellFrom target u))
      (cellAt left.cols right.cols (Tuple.bytes t) (Tuple.bytes u) target) := by
  have hl := ht.cellFrom (show (Tuple.bytes t).drop 0 = Tuple.bytes t from rfl) target
  have hr := hu.cellFrom (show (Tuple.bytes u).drop 0 = Tuple.bytes u from rfl) target
  unfold cellAt
  generalize cellFrom target t = lcell at hl
  cases hfind : left.cols.find? (TableCol.is target) with
  | some col =>
    rw [hfind] at hl
    cases hl with
    | some hsame => exact .some hsame
  | none =>
    rw [hfind] at hl
    cases hl
    exact hr

/-- A pair of tuples is joined just when the executor joins their bytes. -/
theorem joinPair_bytes (ht : Lies 0 left.cols t) (hu : Lies 0 right.cols u) :
    joinPair (t.map (·.1)) (u.map (·.1)) (some t) (some u) conds =
      .ok (if compared left.cols right.cols conds (Tuple.bytes t) (Tuple.bytes u) then some (t ++ u) else none) := by
  have hverdict : conds.allM (satisfies (t.map (·.1)) (u.map (·.1)) (some t) (some u)) =
      .ok (compared left.cols right.cols conds (Tuple.bytes t) (Tuple.bytes u)) := by
    refine allM_eq_all fun cond _ => ?_
    unfold satisfies
    rw [operand_eq rfl rfl]
    cases cond.rhs with
    | val val raw =>
      cases (cellFrom cond.lhsCol t).or (cellFrom cond.lhsCol u) <;> rfl
    | col rhsCol =>
      have hlhs := rel_cellAt ht hu cond.lhsCol
      have hrhs := rel_cellAt ht hu rhsCol
      change (operand _ _ _ _ rhsCol >>= fun rhs => _) = _
      rw [operand_eq rfl rfl]
      dsimp only [bind, Except.bind]
      generalize (cellFrom cond.lhsCol t).or (cellFrom cond.lhsCol u) = lcell at hlhs ⊢
      generalize (cellFrom rhsCol t).or (cellFrom rhsCol u) = rcell at hrhs ⊢
      generalize cellAt left.cols right.cols (Tuple.bytes t) (Tuple.bytes u) cond.lhsCol = lhs at hlhs ⊢
      generalize cellAt left.cols right.cols (Tuple.bytes t) (Tuple.bytes u) rhsCol = rhs at hrhs ⊢
      cases hlhs with
      | none => rfl
      | some hl =>
        cases hrhs with
        | none => rfl
        | some hr => exact congrArg Except.ok (compareCells_congr cond.op hl hr)
  unfold joinPair
  rw [hverdict]
  change (if _ then _ else _) = _
  split <;> rfl

end

section
variable {env : Env} {l r : Plan} {σ τ : Type} {left : AbstractExecutor σ} {right : AbstractExecutor τ}
  {conds : List Condition} {header header' : List TableCol} {lefts rights rows : List Tuple}

/-- A join of plans makes the rows of the executor on the bytes of its children. -/
theorem run_join (hl : Delivers env l header lefts) (hr : Delivers env r header' rights)
    (hlefts : ∀ t ∈ lefts, Lies 0 left.cols t) (hrights : ∀ u ∈ rights, Lies 0 right.cols u) :
    ∃ rows : List Tuple, (Plan.join l r conds).run env = .ok (rows.map some) ∧ rows.map Tuple.bytes =
      joinRows (compared left.cols right.cols conds) (lefts.map Tuple.bytes) (rights.map Tuple.bytes) := by
  let test (t u : Tuple) : Bool := compared left.cols right.cols conds (Tuple.bytes t) (Tuple.bytes u)
  have hpairs : ∀ t ∈ lefts, ∀ u ∈ rights, joinPair header header' (some t) (some u) conds =
      .ok (if test t u then some (t ++ u) else none) := by
    intro t ht u hu
    rw [← hl.headed t ht, ← hr.headed u hu]
    exact joinPair_bytes (hlefts t ht) (hrights u hu)
  refine ⟨_, hl.run_join hr.cols (fun _ => hr) hpairs, ?_⟩
  unfold joinRows matchesOf
  rw [List.map_flatMap, List.flatMap_map]
  refine List.flatMap_congr fun t _ => ?_
  rw [List.filter_map, List.map_map, List.map_map]
  exact List.map_congr_left fun u _ => List.flatMap_append

/-- What an executor returns that is driven to its end are the bytes of these rows. -/
theorem drive_eq_run {LeftReady : σ → Prop} {RightReady : τ → Prop} {LeftAt LeftTaken : List Bytes → σ → Prop}
    {RightAt RightTaken : List Bytes → τ → Prop}
    (h : Joins left right conds (lefts.map Tuple.bytes) (rights.map Tuple.bytes) LeftReady LeftAt LeftTaken RightReady
      RightAt RightTaken)
    (hl : Delivers env l header lefts) (hr : Delivers env r header' rights)
    (hlefts : ∀ t ∈ lefts, Lies 0 left.cols t) (hrights : ∀ u ∈ rights, Lies 0 right.cols u)
    (hrun : (Plan.join l r conds).run env = .ok (rows.map some)) {l₀ : σ} {r₀ : τ} (hl₀ : LeftReady l₀)
    (hr₀ : RightReady r₀) {n m : ℕ} (hn : lefts.length + rights.length + 1 < n) (hm : rows.length < m) :
    (executor left right conds n).drive m (construct l₀ r₀) = pure (rows.map fun row => some (Tuple.bytes row)) := by
  have hrows : rows.map Tuple.bytes =
      joinRows (compared left.cols right.cols conds) (lefts.map Tuple.bytes) (rights.map Tuple.bytes) := by
    obtain ⟨rows', hrun', hbytes⟩ := run_join hl hr hlefts hrights
    rw [hrun, Except.ok.injEq] at hrun'
    rw [List.map_injective_iff.mpr (Option.some_injective _) hrun', hbytes]
  have hn' : (lefts.map Tuple.bytes).length + (rights.map Tuple.bytes).length + 1 < n := by
    rwa [List.length_map, List.length_map]
  rw [drive_compared h hl₀ hr₀ hn' (by rwa [← hrows, List.length_map]), ← hrows, List.map_map]
  rfl

end
end NestedLoopJoinExecutor

/-! ### Sorts -/

namespace SortExecutor

variable {cols : List TableCol} {a b : Tuple} {keys : List (TabCol × Bool)} {sortKeys : List (TableCol × Bool)}

/-- What stands behind two cells does not change how they compare. -/
theorem compareFields_append {lhs rhs : TableCol × Bytes} {col : TableCol} (htype : lhs.1.type = col.type)
    (hlen : lhs.1.len = col.len) (hnumber : col.type ≠ .string → col.len = 4) (hlhs : lhs.2.length = col.len)
    (hrhs : rhs.2.length = col.len) (x y : Bytes) :
    compareFields (col, lhs.2 ++ x) (col, rhs.2 ++ y) = compareFields lhs rhs := by
  unfold compareFields
  rw [htype, hlen]
  cases hcol : col.type with
  | string =>
    dsimp only
    rw [memcmp_eq_compare (by simp [hlhs]) (by simp [hrhs]), memcmp_eq_compare hlhs.ge hrhs.ge, ← hlhs, List.take_left,
      List.take_length, hlhs, ← hrhs, List.take_left, List.take_length]
  | int | float =>
    have hfour := hnumber (hcol ▸ nofun)
    dsimp only
    rw [readWord_append _ (by omega), readWord_append _ (by omega)]

theorem compareRecords_eq (hkeys : List.Forall₂ (fun k s => cols.find? (TableCol.is k.1) = some s.1 ∧ k.2 = s.2) keys sortKeys)
    (hnumbers : ∀ col ∈ cols, col.type ≠ .string → col.len = 4) (ha : Lies 0 cols a) (hb : Lies 0 cols b) :
    compareRecords keys a b = compareBytes sortKeys (Tuple.bytes a) (Tuple.bytes b) := by
  induction hkeys with
  | nil => rfl
  | @cons k s keys sortKeys hk hkeys ih =>
    obtain ⟨target, isDesc⟩ := k
    obtain ⟨col, isDesc⟩ := s
    obtain ⟨hcol, rfl⟩ := hk
    obtain ⟨x, rest, hx, hxlen, hxbytes, htype, hlen⟩ := ha.getCell hcol
    obtain ⟨y, rest', hy, hylen, hybytes, -, -⟩ := hb.getCell hcol
    have hnumber := hnumbers col (List.mem_of_find?_eq_some hcol)
    unfold compareRecords compareBytes
    rw [hx, hy]
    dsimp only
    rw [hxbytes, hybytes, compareFields_append htype hlen hnumber hxlen hylen]
    cases compareFields x y with
    | eq => exact ih
    | lt => rfl
    | gt => rfl

private theorem forall₂_zip {α β γ : Type} {R : α → β → Prop} {l : List α} {l' : List β} (h : List.Forall₂ R l l')
    (m : List γ) : List.Forall₂ (fun x y => R x.1 y.1 ∧ x.2 = y.2) (l.zip m) (l'.zip m) := by
  induction h generalizing m with
  | nil => exact .nil
  | cons hR _ ih =>
    cases m with
    | nil => exact .nil
    | cons c m => exact .cons ⟨hR, rfl⟩ (ih m)

/-- The comparator on the tuples of the child is the one on its bytes, with the keys that the constructor finds. -/
theorem compareRecords_construct {σ : Type} {prev : AbstractExecutor σ} {s : σ} {orderBy : List TabCol} {isDesc : List Bool}
    {state : State σ} (h : construct prev s orderBy isDesc = .ok (sortKeys, state))
    (hnumbers : ∀ col ∈ prev.cols, col.type ≠ .string → col.len = 4) (ha : Lies 0 prev.cols a) (hb : Lies 0 prev.cols b) :
    compareRecords (orderBy.zip isDesc) a b = compareBytes sortKeys (Tuple.bytes a) (Tuple.bytes b) := by
  unfold construct at h
  split at h
  · cases h
  · obtain ⟨found, hfound, h⟩ := bind_eq_ok.mp h
    cases h
    have hkeys := (mapM_eq_ok_iff.mp hfound).imp fun target col hcol => find?_of_getCol hcol
    exact compareRecords_eq (forall₂_zip hkeys isDesc) hnumbers ha hb

end SortExecutor
end Rmdb
