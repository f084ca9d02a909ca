import Rmdb.Index.Compare
import Rmdb.Index.Node

/-! The two searches in a node, with a comparison that goes from column to column. Keys may come again in a node. -/
namespace Rmdb

/-! ### Column by column -/

/-- Where a column begins in a key. -/
def colOffset (cols : IxCols) (i : ℕ) : ℕ := ((cols.take i).map Prod.snd).sum

/-- The order of two keys in one column. -/
def compareColAt (cols : IxCols) (a b : Bytes) (i : ℕ) : Ordering :=
  match cols[i]? with
  | some (type, len) => ixCompareCol type len (a.drop (colOffset cols i)) (b.drop (colOffset cols i))
  | none => .eq

section
variable {type : ColType} {len : ℕ} {cols : IxCols} {a b : Bytes} {o : Ordering}

theorem compareColAt_zero : compareColAt ((type, len) :: cols) a b 0 = ixCompareCol type len a b := by
  simp [compareColAt, colOffset]

theorem compareColAt_succ (i : ℕ) :
    compareColAt ((type, len) :: cols) a b (i + 1) = compareColAt cols (a.drop len) (b.drop len) i := by
  simp [compareColAt, colOffset]

/-- The first column with a difference decides. -/
theorem ixCompare_eq_iff (ho : o ≠ .eq) : ixCompare cols a b = o ↔
    ∃ i < cols.length, (∀ j < i, compareColAt cols a b j = .eq) ∧ compareColAt cols a b i = o := by
  induction cols generalizing a b with
  | nil => simp [ixCompare, ho.symm]
  | cons col cols ih =>
    obtain ⟨type, len⟩ := col
    unfold ixCompare
    by_cases hfirst : ixCompareCol type len a b = .eq
    · rw [hfirst, Ordering.eq_then, ih]
      constructor
      · intro hfound
        obtain ⟨i, hi, hbefore, hdecides⟩ := hfound
        refine ⟨i + 1, by simpa using hi, fun j hj => ?_, by rw [compareColAt_succ, hdecides]⟩
        cases j with
        | zero => rw [compareColAt_zero, hfirst]
        | succ j => rw [compareColAt_succ, hbefore j (by omega)]
      · intro hfound
        obtain ⟨i, hi, hbefore, hdecides⟩ := hfound
        cases i with
        | zero =>
          rw [compareColAt_zero, hfirst] at hdecides
          exact absurd hdecides.symm ho
        | succ i =>
          refine ⟨i, by simpa using hi, fun j hj => ?_, by rw [← compareColAt_succ, hdecides]⟩
          rw [← compareColAt_succ, hbefore (j + 1) (by omega)]
    · have hthen : (ixCompareCol type len a b).then (ixCompare cols (a.drop len) (b.drop len)) =
          ixCompareCol type len a b := by
        cases hcol : ixCompareCol type len a b with
        | eq => exact absurd hcol hfirst
        | lt => rfl
        | gt => rfl
      rw [hthen]
      constructor
      · intro hdecides
        exact ⟨0, by simp, by simp, by rw [compareColAt_zero, hdecides]⟩
      · intro hfound
        obtain ⟨i, hi, hbefore, hdecides⟩ := hfound
        cases i with
        | zero => rwa [compareColAt_zero] at hdecides
        | succ i =>
          have hzero := hbefore 0 (by omega)
          rw [compareColAt_zero] at hzero
          exact absurd hzero hfirst

end

/-! ### The searches -/

namespace IxNodeHandle

variable {K : Type} {P : K → Prop} {cmp : K → K → Ordering} {node : IxNodeHandle K} {target : K}

/-- The live keys of a node, none of which is below one before it. -/
structure KeysAscend (P : K → Prop) (cmp : K → K → Ordering) (node : IxNodeHandle K) : Prop where
  keys : ∀ i < node.numKey, P (node.keys i)
  ascend : ∀ i j, i < j → j < node.numKey → (cmp (node.keys i) (node.keys j)).isLE

theorem KeysAscend.lowerBound (h : KeysAscend P cmp node) (hcmp : TransOn P cmp) (htarget : P target) :
    IsLeast {i | i = node.numKey ∨ i < node.numKey ∧ (cmp (node.keys i) target).isGE} (node.lowerBound cmp target) := by
  have hboundary : Bisect.Boundary (fun i => (cmp (node.keys i) target).isLT) node.numKey := by
    intro i j hij hj hbelow
    rw [Ordering.isLT_iff_eq_lt] at hbelow ⊢
    exact hcmp.lt_of_le_of_lt (h.keys i (by omega)) (h.keys j hj) htarget (h.ascend i j hij hj) hbelow
  have hnot : ∀ o : Ordering, o.isGE ↔ o.isLT = false := by decide
  simp only [hnot]
  exact Bisect.isLeast_search hboundary

theorem KeysAscend.upperBound (h : KeysAscend P cmp node) (hcmp : TransOn P cmp) (htarget : P target) :
    IsLeast {i | i = node.numKey ∨ i < node.numKey ∧ cmp (node.keys i) target = .gt} (node.upperBound cmp target) := by
  have hboundary : Bisect.Boundary (fun i => (cmp (node.keys i) target).isLE) node.numKey := by
    intro i j hij hj hbelow
    exact hcmp.trans _ _ _ (h.keys i (by omega)) (h.keys j hj) htarget (h.ascend i j hij hj) hbelow
  have hnot : ∀ o : Ordering, o = .gt ↔ o.isLE = false := by decide
  simp only [hnot]
  exact Bisect.isLeast_search hboundary

end IxNodeHandle

/-- The comparison of keys is a total preorder, decided by the first column with a difference, and the searches of a
node find the first key that is not below the target and the first one above it. -/
theorem node_searches (cols : IxCols) : TransOn (NaNFree cols) (ixCompare cols) ∧
    (∀ a b o, o ≠ .eq → (ixCompare cols a b = o ↔
      ∃ i < cols.length, (∀ j < i, compareColAt cols a b j = .eq) ∧ compareColAt cols a b i = o)) ∧
    ∀ (node : IxNodeHandle Bytes) (target : Bytes), node.KeysAscend (NaNFree cols) (ixCompare cols) →
      NaNFree cols target →
      IsLeast {i | i = node.numKey ∨ i < node.numKey ∧ (ixCompare cols (node.keys i) target).isGE}
          (node.lowerBound (ixCompare cols) target) ∧
        IsLeast {i | i = node.numKey ∨ i < node.numKey ∧ ixCompare cols (node.keys i) target = .gt}
          (node.upperBound (ixCompare cols) target) := by
  have hcmp := ixCompare_transOn cols
  refine ⟨hcmp, fun a b o ho => ixCompare_eq_iff ho, fun node target hnode htarget => ?_⟩
  exact ⟨hnode.lowerBound hcmp htarget, hnode.upperBound hcmp htarget⟩

/-- A leaf with the keys `(1, 2)`, `(1, 2)` and `(3, 0)`. -/
def twoColumnLeaf : IxNodeHandle Bytes where
  pageNo := ixInitRootPage
  parent := ixNoPage
  numKey := 3
  isLeaf := true
  prevLeaf := ixLeafHeaderPage
  nextLeaf := ixLeafHeaderPage
  keys i := if i < 2 then wordBytes 1 ++ wordBytes 2 else wordBytes 3 ++ wordBytes 0
  rids i := ⟨1, i⟩

theorem node_searches_twoColumnLeaf :
    let cols := [(.int, 4), (.int, 4)]
    let target := wordBytes 1 ++ wordBytes 2
    IsLeast {i | i = 3 ∨ i < 3 ∧ (ixCompare cols (twoColumnLeaf.keys i) target).isGE}
        (twoColumnLeaf.lowerBound (ixCompare cols) target) ∧
      IsLeast {i | i = 3 ∨ i < 3 ∧ ixCompare cols (twoColumnLeaf.keys i) target = .gt}
        (twoColumnLeaf.upperBound (ixCompare cols) target) := by
  have hascend : ∀ j < 3, ∀ i < j,
      (ixCompare [(.int, 4), (.int, 4)] (twoColumnLeaf.keys i) (twoColumnLeaf.keys j)).isLE := by decide
  exact (node_searches [(.int, 4), (.int, 4)]).2.2 twoColumnLeaf (wordBytes 1 ++ wordBytes 2)
    ⟨fun i _ => ⟨nofun, nofun, trivial⟩, fun i j hij hj => hascend j hj i hij⟩ ⟨nofun, nofun, trivial⟩

end Rmdb
