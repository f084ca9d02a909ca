import Rmdb.Execution.Iterators
import Rmdb.Execution.Limit
import Rmdb.Execution.NumberCompare
import Rmdb.Lib.Sorting

/-! The sort with its calls: the comparator on the records of any child, and the loop that prints the rows. -/
namespace Rmdb

open Binary32 Sorting

namespace SortExecutor

/-- A record that has been returned is no longer there. -/
structure State (σ : Type) where
  prev : σ
  sortedRecords : List (Option Bytes)
  currentIdx : ℕ
  isInitialized : Bool

section
variable {σ : Type}

/-- The keys are looked up among the columns of the child. -/
def construct (prev : AbstractExecutor σ) (s : σ) (orderBy : List TabCol) (isDesc : List Bool) :
    Except DbError (List (TableCol × Bool) × State σ) := do
  if orderBy.length ≠ isDesc.length then throw (.rmdb .internalError)
  let orderByCols ← orderBy.mapM (getCol prev.cols)
  return (orderByCols.zip isDesc, ⟨s, [], 0, false⟩)

/-- `compare_records` on the bytes of two records. -/
def compareBytes : List (TableCol × Bool) → Bytes → Bytes → Bool
  | [], _, _ => false
  | (col, isDesc) :: rest, a, b =>
    match compareFields (col, a.drop col.offset) (col, b.drop col.offset) with
    | .eq => compareBytes rest a b
    | .lt => !isDesc
    | .gt => isDesc

variable (sort : (Bytes → Bytes → Bool) → List Bytes → List Bytes) (prev : AbstractExecutor σ)
  (keys : List (TableCol × Bool)) (limitVal : ℤ)

/-- The records of the child from here to its end, without null pointers. -/
def gather : ℕ → σ → Call DbError (List Bytes × σ)
  | 0, _ => .unfinished
  | n + 1, p =>
    if prev.isEnd p then return ([], p)
    else do
      let (row, p) ← prev.get p
      let p ← prev.advance p
      let (rows, p) ← gather n p
      return (row.toList ++ rows, p)

/-- `perform_sort`: the child is begun again, read to its end and sorted. -/
def sortAll (n : ℕ) (s : State σ) : Call DbError (State σ) := do
  let p ← prev.start s.prev
  let (records, p) ← gather prev n p
  return { s with prev := p, sortedRecords := (cut limitVal (sort (compareBytes keys) records)).map some }

def beginTuple (s : State σ) : Call DbError (State σ) := do
  let p ← prev.start s.prev
  return { s with prev := p, currentIdx := 0, isInitialized := false }

/-- The first call sorts. -/
def ensureSorted (n : ℕ) (s : State σ) : Call DbError (State σ) :=
  if s.isInitialized then return s
  else do return { (← sortAll sort prev keys limitVal n s) with isInitialized := true }

/-- `Next` moves the record out and counts on. -/
def next (n : ℕ) (s : State σ) : Call DbError (Option Bytes × State σ) := do
  let s ← ensureSorted sort prev keys limitVal n s
  if s.sortedRecords.length ≤ s.currentIdx then return (none, s)
  else return ((s.sortedRecords[s.currentIdx]?).join,
    { s with sortedRecords := s.sortedRecords.set s.currentIdx none, currentIdx := s.currentIdx + 1 })

/-- The sort, whose child may go on for `n` rows. `nextTuple` does not move on. -/
def executor (n : ℕ) : AbstractExecutor (State σ) where
  start := beginTuple prev
  isEnd s := s.isInitialized && s.sortedRecords.length ≤ s.currentIdx
  get := next sort prev keys limitVal n
  advance := ensureSorted sort prev keys limitVal n
  cols := prev.cols
  tupleLen := prev.tupleLen

end
end SortExecutor

/-- The rows that `select_from` prints. -/
def selectFrom {σ : Type} (ex : AbstractExecutor σ) (m : ℕ) (s : σ) : Call DbError (List Bytes) := do
  return (← ex.drive m s).reduceOption

/-! ### The order of the keys -/

/-- Numbers by their size, and strings byte by byte. -/
def Value.compareKeys : Value → Value → Ordering
  | .int i, .int j => compare i.toInt j.toInt
  | .float f, .float g => (Option.map₂ compare (count (.ofBits ⟨f⟩)) (count (.ofBits ⟨g⟩))).getD .eq
  | .str s, .str t => compare s t
  | _, _ => .eq

def Value.IsNaN : Value → Prop
  | .float f => count (.ofBits ⟨f⟩) = none
  | _ => False

namespace SortExecutor

/-- The order of two records by one key in its direction. -/
def keyOrder (key : TableCol × Bool) (a b : Bytes) : Ordering :=
  let res := (key.1.stored a).compareKeys (key.1.stored b)
  if key.2 then res.swap else res

/-- The first key on which the records differ has `a` in front of `b`. -/
def Precedes (keys : List (TableCol × Bool)) (a b : Bytes) : Prop :=
  ∃ pre key post, keys = pre ++ key :: post ∧ (∀ k ∈ pre, keyOrder k a b = .eq) ∧ keyOrder key a b = .lt

/-- The records have the same keys. -/
def Level (keys : List (TableCol × Bool)) (a b : Bytes) : Prop := ∀ k ∈ keys, keyOrder k a b = .eq

/-- A record of full length in which no key is a NaN. -/
structure Keyed (tupleLen : ℕ) (keys : List (TableCol × Bool)) (row : Bytes) : Prop where
  length : row.length = tupleLen
  notNaN : ∀ k ∈ keys, ¬(k.1.stored row).IsNaN

/-- The records by all keys. -/
def recordOrder : List (TableCol × Bool) → Bytes → Bytes → Ordering
  | [], _, _ => .eq
  | key :: rest, a, b => (keyOrder key a b).then (recordOrder rest a b)

variable {a b : Bytes} {key : TableCol × Bool} {keys : List (TableCol × Bool)} {tupleLen : ℕ}

theorem recordOrder_eq_lexOrder : recordOrder keys a b = lexOrder (fun key => keyOrder key a b) keys := by
  induction keys with
  | nil => rfl
  | cons key keys ih => rw [recordOrder, lexOrder, ih]

theorem recordOrder_eq_iff : recordOrder keys a b = .eq ↔ Level keys a b := by
  rw [recordOrder_eq_lexOrder, lexOrder_eq_eq_iff]
  rfl

theorem recordOrder_lt_iff : recordOrder keys a b = .lt ↔ Precedes keys a b := by
  rw [recordOrder_eq_lexOrder, lexOrder_eq_iff (by decide)]
  rfl

theorem memcmp_eq_compare {x y : Bytes} {n : ℕ} (hx : n ≤ x.length) (hy : n ≤ y.length) :
    memcmp x y n = compare (x.take n) (y.take n) := by
  induction n generalizing x y with
  | zero => rfl
  | succ n ih =>
    cases x with
    | nil => cases hx
    | cons c x =>
      cases y with
      | nil => cases hy
      | cons d y =>
        have htail := ih (Nat.le_of_succ_le_succ hx) (Nat.le_of_succ_le_succ hy)
        have hcons : compare ((c :: x).take (n + 1)) ((d :: y).take (n + 1)) =
            (compare c d).then (compare (x.take n) (y.take n)) := List.compareLex_cons_cons
        rw [hcons, ← htail]
        change (if c = d then memcmp x y n else compare c d) = _
        by_cases hcd : c = d
        · have hself : compare d d = .eq := Std.ReflCmp.compare_self
          rw [if_pos hcd, hcd, hself, Ordering.eq_then]
        · rw [if_neg hcd]
          have hne : compare c d ≠ .eq := fun heq => hcd (Std.LawfulEqCmp.eq_of_compare heq)
          revert hne
          cases compare c d with
          | lt => exact fun _ => rfl
          | eq => exact fun hne => absurd rfl hne
          | gt => exact fun _ => rfl

theorem exists_count {f : BitVec 32} (h : ¬(Value.float f).IsNaN) : ∃ z, count (.ofBits ⟨f⟩) = some z :=
  Option.ne_none_iff_exists'.mp h

/-- A float that is smaller or larger is so in its exact value, and a NaN is neither. -/
theorem compare_floats (f g : BitVec 32) :
    (if Float32.ofBits ⟨f⟩ < Float32.ofBits ⟨g⟩ then Ordering.lt
      else if Float32.ofBits ⟨g⟩ < Float32.ofBits ⟨f⟩ then .gt else .eq) =
      (Value.float f).compareKeys (Value.float g) := by
  change _ = (Option.map₂ compare (count (.ofBits ⟨f⟩)) (count (.ofBits ⟨g⟩))).getD .eq
  cases hx : count (.ofBits ⟨f⟩) with
  | none =>
    rw [if_neg (nan_not_lt hx), if_neg (not_lt_of_nan hx)]
    rfl
  | some x =>
    cases hy : count (.ofBits ⟨g⟩) with
    | none =>
      rw [if_neg (not_lt_of_nan hy), if_neg (nan_not_lt hy)]
      rfl
    | some y =>
      change _ = compare x y
      have hlt := lt_iff hx hy
      have hgt := lt_iff hy hx
      by_cases hxy : x < y
      · rw [if_pos (hlt.mpr hxy), compare_lt_iff_lt.mpr hxy]
      · rw [if_neg (mt hlt.mp hxy)]
        by_cases hyx : y < x
        · rw [if_pos (hgt.mpr hyx), compare_gt_iff_gt.mpr hyx]
        · rw [if_neg (mt hgt.mp hyx), compare_eq_iff_eq.mpr (by omega)]

/-- The comparator compares a key by its values. -/
theorem compareFields_eq (hlen : key.1.offset + key.1.len ≤ tupleLen) (ha : a.length = tupleLen)
    (hb : b.length = tupleLen) : compareFields (key.1, a.drop key.1.offset) (key.1, b.drop key.1.offset) =
      (key.1.stored a).compareKeys (key.1.stored b) := by
  unfold compareFields ColMeta.stored
  cases htype : key.1.type with
  | int => rfl
  | float => exact compare_floats _ _
  | string =>
    have ha' : key.1.len ≤ (a.drop key.1.offset).length := by
      rw [List.length_drop]
      omega
    have hb' : key.1.len ≤ (b.drop key.1.offset).length := by
      rw [List.length_drop]
      omega
    exact memcmp_eq_compare ha' hb'

theorem compareBytes_eq (hlen : ∀ k ∈ keys, k.1.offset + k.1.len ≤ tupleLen) (ha : a.length = tupleLen)
    (hb : b.length = tupleLen) : compareBytes keys a b = (recordOrder keys a b = .lt : Bool) := by
  induction keys with
  | nil => rfl
  | cons key keys ih =>
    have hfields := compareFields_eq (hlen key List.mem_cons_self) ha hb
    have hrest := ih fun k hk => hlen k (List.mem_cons_of_mem key hk)
    obtain ⟨col, isDesc⟩ := key
    unfold compareBytes recordOrder keyOrder
    dsimp only at hfields ⊢
    rw [hfields]
    cases (col.stored a).compareKeys (col.stored b) with
    | lt => cases isDesc <;> rfl
    | eq =>
      have hsame : (if isDesc = true then Ordering.eq.swap else .eq) = .eq := by cases isDesc <;> rfl
      rw [hsame, Ordering.eq_then]
      exact hrest
    | gt => cases isDesc <;> rfl

/-- The string by which a string is sorted. -/
private def strKey : Value → Bytes
  | .str s => s
  | _ => []

theorem compareKeys_transOn (type : ColType) :
    TransOn (fun v : Value => v.type = type ∧ ¬v.IsNaN) Value.compareKeys := by
  cases type with
  | int =>
    refine (TransOn.of_compare fun v : Value => v.word.toInt).congr fun a b ha hb => ?_
    cases a with
    | int i =>
      cases b with
      | int j => rfl
      | float g => cases hb.1
      | str t => cases hb.1
    | float f => cases ha.1
    | str s => cases ha.1
  | float =>
    refine (TransOn.of_compare fun v : Value => (count (.ofBits ⟨v.word⟩)).getD 0).congr fun a b ha hb => ?_
    cases a with
    | int i => cases ha.1
    | float f =>
      cases b with
      | int j => cases hb.1
      | float g =>
        obtain ⟨x, hx⟩ := exists_count ha.2
        obtain ⟨y, hy⟩ := exists_count hb.2
        change (Option.map₂ compare (count (.ofBits ⟨f⟩)) (count (.ofBits ⟨g⟩))).getD .eq =
          compare ((count (.ofBits ⟨f⟩)).getD 0) ((count (.ofBits ⟨g⟩)).getD 0)
        rw [hx, hy]
        rfl
      | str t => cases hb.1
    | str s => cases ha.1
  | string =>
    refine (TransOn.of_compare strKey).congr fun a b ha hb => ?_
    cases a with
    | int i => cases ha.1
    | float f => cases ha.1
    | str s =>
      cases b with
      | int j => cases hb.1
      | float g => cases hb.1
      | str t => rfl

theorem keyOrder_transOn (key : TableCol × Bool) : TransOn (fun row => ¬(key.1.stored row).IsNaN) (keyOrder key) := by
  have hvalues := (compareKeys_transOn key.1.type).comap key.1.toColMeta.stored
  have hkey := hvalues.mono fun row (hrow : ¬(key.1.stored row).IsNaN) => ⟨key.1.type_stored row, hrow⟩
  unfold keyOrder
  cases key.2 with
  | false => exact hkey
  | true => exact hkey.swapped

theorem recordOrder_transOn (keys : List (TableCol × Bool)) :
    TransOn (fun row => ∀ k ∈ keys, ¬(k.1.stored row).IsNaN) (recordOrder keys) := by
  induction keys with
  | nil => exact ⟨fun _ _ _ _ => rfl, fun _ _ _ _ _ _ _ _ => rfl⟩
  | cons key keys ih => exact ((keyOrder_transOn key).then ih).mono fun row hrow => List.forall_mem_cons.mp hrow

/-- The comparator that the sort gets is a strict weak order on records without NaN keys. -/
theorem strictWeakOn_compareBytes (hlen : ∀ k ∈ keys, k.1.offset + k.1.len ≤ tupleLen) :
    StrictWeakOn (Keyed tupleLen keys) (compareBytes keys) := by
  have horder := (recordOrder_transOn keys).mono fun row (hrow : Keyed tupleLen keys row) => hrow.notNaN
  exact (StrictWeakOn.of_ordering horder.swap horder.trans).congr fun a b ha hb => compareBytes_eq hlen ha.length hb.length

/-- What the comparator does not put the other way round is in order. -/
theorem precedes_or_level (hlen : ∀ k ∈ keys, k.1.offset + k.1.len ≤ tupleLen) (ha : Keyed tupleLen keys a)
    (hb : Keyed tupleLen keys b) (hba : compareBytes keys b a = false) : Precedes keys a b ∨ Level keys a b := by
  rw [compareBytes_eq hlen hb.length ha.length, decide_eq_false_iff_not, (recordOrder_transOn keys).swap b a hb.notNaN ha.notNaN]
    at hba
  rw [← recordOrder_lt_iff, ← recordOrder_eq_iff]
  revert hba
  cases recordOrder keys a b <;> decide

/-! ### The loops -/

section
variable {σ : Type} {sort : (Bytes → Bytes → Bool) → List Bytes → List Bytes} {prev : AbstractExecutor σ}
  {limitVal : ℤ} {n m : ℕ}

theorem gather_of_collect {rows : List (Option Bytes)} {p : σ} (h : prev.collect n p = pure rows) :
    ∃ p', gather prev n p = pure (rows.reduceOption, p') := by
  induction n generalizing rows p with
  | zero => cases h
  | succ n ih =>
    unfold Cursor.collect at h
    unfold gather
    by_cases hend : prev.isEnd p = true
    · rw [if_pos hend] at h ⊢
      obtain rfl := Call.pure_inj h
      exact ⟨p, rfl⟩
    · rw [if_neg hend] at h ⊢
      obtain ⟨⟨row, p₁⟩, hget, h⟩ := Call.bind_eq_pure.mp h
      obtain ⟨p₂, hadvance, h⟩ := Call.bind_eq_pure.mp h
      obtain ⟨rest, hrest, h⟩ := Call.bind_eq_pure.mp h
      obtain rfl := Call.pure_inj h
      obtain ⟨p', hgather⟩ := ih hrest
      refine ⟨p', ?_⟩
      rw [Call.bind_of_eq hget]
      dsimp only
      rw [Call.bind_of_eq hadvance, Call.bind_of_eq hgather]
      cases row with
      | none => rfl
      | some row => rfl

/-- A sort that has sorted returns its records from where it stands. -/
theorem collect_sorted {s : State σ} {l : List Bytes} (hinit : s.isInitialized = true)
    (hl : s.sortedRecords.drop s.currentIdx = l.map some) (hm : l.length < m) :
    (executor sort prev keys limitVal n).collect m s = pure (l.map some) := by
  induction l generalizing s m with
  | nil =>
    obtain ⟨m, rfl⟩ := Nat.exists_eq_succ_of_ne_zero (Nat.ne_of_gt hm)
    have hend : (executor sort prev keys limitVal n).isEnd s = true := by
      change (s.isInitialized && decide (s.sortedRecords.length ≤ s.currentIdx)) = true
      rw [hinit, Bool.true_and, decide_eq_true_iff]
      exact List.drop_eq_nil_iff.mp hl
    unfold Cursor.collect
    rw [if_pos hend]
    rfl
  | cons row l ih =>
    obtain ⟨m, rfl⟩ := Nat.exists_eq_succ_of_ne_zero (Nat.ne_of_gt (Nat.zero_lt_of_lt hm))
    have hidx : s.currentIdx < s.sortedRecords.length := by
      have hlength := congrArg List.length hl
      rw [List.length_drop, List.length_map, List.length_cons] at hlength
      omega
    have hend : (executor sort prev keys limitVal n).isEnd s = false := by
      change (s.isInitialized && decide (s.sortedRecords.length ≤ s.currentIdx)) = false
      rw [hinit, Bool.true_and, decide_eq_false_iff_not]
      omega
    have hrow : s.sortedRecords[s.currentIdx]? = some (some row) := by
      rw [← List.head?_drop, hl]
      rfl
    have hget : (executor sort prev keys limitVal n).get s = pure (some row,
        { s with sortedRecords := s.sortedRecords.set s.currentIdx none, currentIdx := s.currentIdx + 1 }) := by
      change next sort prev keys limitVal n s = _
      unfold next ensureSorted
      rw [if_pos hinit, pure_bind, if_neg (by omega), hrow]
      rfl
    have hrest : (s.sortedRecords.set s.currentIdx none).drop (s.currentIdx + 1) = l.map some := by
      rw [List.drop_set_of_lt (Nat.lt_succ_self _), ← List.tail_drop, hl]
      rfl
    have hcollect := ih (s := { s with
      sortedRecords := s.sortedRecords.set s.currentIdx none, currentIdx := s.currentIdx + 1 }) hinit hrest
      (Nat.lt_of_succ_lt_succ hm)
    unfold Cursor.collect
    rw [if_neg (Bool.eq_false_iff.mp hend), Call.bind_of_eq hget]
    dsimp only
    change (ensureSorted sort prev keys limitVal n _ >>= _) = _
    unfold ensureSorted
    rw [if_pos hinit, pure_bind, hcollect]
    rfl

theorem ensureSorted_first (sort : (Bytes → Bytes → Bool) → List Bytes → List Bytes) (keys : List (TableCol × Bool))
    (limitVal : ℤ) {s₁ : σ} {rows : List (Option Bytes)} (hchild : prev.drive n s₁ = pure rows) :
    ∃ p', ensureSorted sort prev keys limitVal n ⟨s₁, [], 0, false⟩ =
      pure ⟨p', (cut limitVal (sort (compareBytes keys) rows.reduceOption)).map some, 0, true⟩ := by
  obtain ⟨s₂, hstart, hcollect⟩ := Call.bind_eq_pure.mp hchild
  obtain ⟨p', hgather⟩ := gather_of_collect hcollect
  refine ⟨p', ?_⟩
  unfold ensureSorted
  rw [if_neg Bool.false_ne_true]
  unfold sortAll
  rw [Call.bind_of_eq hstart, Call.bind_of_eq hgather]
  rfl

/-- `select_from` prints what the sort makes of the child's rows when it begins the child for the second time. -/
theorem selectFrom_eq {s₀ s₁ : σ} {rows : List (Option Bytes)} (hfirst : prev.start s₀ = pure s₁)
    (hchild : prev.drive n s₁ = pure rows)
    (hm : (cut limitVal (sort (compareBytes keys) rows.reduceOption)).length + 1 < m) :
    selectFrom (executor sort prev keys limitVal n) m ⟨s₀, [], 0, false⟩ =
      pure (cut limitVal (sort (compareBytes keys) rows.reduceOption)) := by
  obtain ⟨m, rfl⟩ := Nat.exists_eq_succ_of_ne_zero (Nat.ne_of_gt (Nat.zero_lt_of_lt hm))
  obtain ⟨p', hsorted⟩ := ensureSorted_first sort keys limitVal hchild
  have hstart : (executor sort prev keys limitVal n).start ⟨s₀, [], 0, false⟩ = pure ⟨s₁, [], 0, false⟩ := by
    change beginTuple prev ⟨s₀, [], 0, false⟩ = _
    unfold beginTuple
    rw [Call.bind_of_eq hfirst]
  unfold selectFrom Cursor.drive
  rw [Call.bind_of_eq hstart]
  generalize hout : cut limitVal (sort (compareBytes keys) rows.reduceOption) = out at hsorted hm
  have hcollect (k : ℕ) (hk : out.length < k) :
      (executor sort prev keys limitVal n).collect k ⟨p', out.map some, 0, true⟩ = pure (out.map some) :=
    collect_sorted rfl rfl hk
  have hnext : (executor sort prev keys limitVal n).get ⟨s₁, [], 0, false⟩ =
      (executor sort prev keys limitVal n).get ⟨p', out.map some, 0, true⟩ := by
    change next sort prev keys limitVal n _ = next sort prev keys limitVal n _
    unfold next
    rw [hsorted]
    rfl
  have hbegun : ¬(executor sort prev keys limitVal n).isEnd ⟨s₁, [], 0, false⟩ = true := Bool.false_ne_true
  cases out with
  | nil =>
    -- the null pointer
    have hget : (executor sort prev keys limitVal n).get ⟨p', [], 0, true⟩ = pure (none, ⟨p', [], 0, true⟩) := rfl
    have hadvance : (executor sort prev keys limitVal n).advance ⟨p', [], 0, true⟩ = pure ⟨p', [], 0, true⟩ := rfl
    rw [List.map_nil] at hnext hcollect
    unfold Cursor.collect
    rw [if_neg hbegun, hnext, hget, pure_bind]
    dsimp only
    rw [Call.bind_of_eq hadvance, hcollect m (Nat.lt_of_succ_lt_succ hm)]
    rfl
  | cons row out =>
    have hmore : ¬(executor sort prev keys limitVal n).isEnd ⟨p', (row :: out).map some, 0, true⟩ = true :=
      Bool.false_ne_true
    have hsame : (executor sort prev keys limitVal n).collect (m + 1) ⟨s₁, [], 0, false⟩ =
        (executor sort prev keys limitVal n).collect (m + 1) ⟨p', (row :: out).map some, 0, true⟩ := by
      unfold Cursor.collect
      rw [if_neg hbegun, if_neg hmore, hnext]
    rw [hsame, hcollect (m + 1) (Nat.lt_of_succ_lt hm), pure_bind]
    exact congrArg pure ((List.filterMap_map ..).trans List.filterMap_some)

/-- The rows that come out are the first of a sequence of the rows that went in, ordered by the keys. -/
def ReturnsFirst (keys : List (TableCol × Bool)) (rows out : List Bytes) (limit : Option ℕ) : Prop :=
  ∃ sorted : List Bytes, sorted.Perm rows ∧ sorted.Pairwise (fun a b => Precedes keys a b ∨ Level keys a b) ∧
    out = match limit with
      | some k => sorted.take k
      | none => sorted

/-- A limit that is not positive is none. -/
def limitOf (limitVal : ℤ) : Option ℕ := if 0 < limitVal then some limitVal.toNat else none

theorem cut_eq (limitVal : ℤ) (l : List Bytes) : cut limitVal l = match limitOf limitVal with
    | some k => l.take k
    | none => l := by
  unfold limitOf
  by_cases hpos : 0 < limitVal
  · obtain ⟨k, rfl⟩ := Int.eq_ofNat_of_zero_le hpos.le
    rw [if_pos hpos]
    exact cut_pos (Int.natCast_pos.mp hpos) l
  · rw [if_neg hpos]
    exact if_neg fun h => hpos h.1

theorem construct_ok {s₀ : σ} {orderBy : List TabCol} {isDesc : List Bool} {state : State σ}
    (h : construct prev s₀ orderBy isDesc = .ok (keys, state)) :
    state = ⟨s₀, [], 0, false⟩ ∧ ∀ k ∈ keys, k.1 ∈ prev.cols := by
  unfold construct at h
  by_cases hlength : orderBy.length ≠ isDesc.length
  · rw [if_pos hlength] at h
    cases h
  · rw [if_neg hlength] at h
    obtain ⟨cols, hcols, h⟩ := Program.bind_eq_ok.mp h
    cases h
    refine ⟨rfl, fun k hk => ?_⟩
    obtain ⟨target, -, htarget⟩ := Program.of_mem_mapM hcols (List.of_mem_zip hk).1
    unfold getCol at htarget
    split at htarget
    · rename_i col hfind
      cases htarget
      exact List.mem_of_find?_eq_some hfind
    · cases htarget

/-- A sort on top of any child returns the first of its rows in the order of the keys, with a strict weak order as
the comparator. -/
theorem selectFrom_sorted (hsort : Sorts sort) {s₀ s₁ : σ} {state : State σ} {orderBy : List TabCol}
    {isDesc : List Bool} {rows : List (Option Bytes)}
    (hconstruct : construct prev s₀ orderBy isDesc = .ok (keys, state)) (hfits : prev.Fits rows.reduceOption)
    (hnumbers : ∀ row ∈ rows.reduceOption, ∀ k ∈ keys, ¬(k.1.stored row).IsNaN)
    (hfirst : prev.start s₀ = pure s₁) (hchild : prev.drive n s₁ = pure rows) (hm : rows.length + 1 < m) :
    StrictWeakOn (Keyed prev.tupleLen keys) (compareBytes keys) ∧
    ∃ out, selectFrom (executor sort prev keys limitVal n) m state = pure out ∧
      ReturnsFirst keys rows.reduceOption out (limitOf limitVal) := by
  obtain ⟨rfl, hkeys⟩ := construct_ok hconstruct
  have hlen : ∀ k ∈ keys, k.1.offset + k.1.len ≤ prev.tupleLen := fun k hk => hfits.cols k.1 (hkeys k hk)
  have hkeyed : ∀ row ∈ rows.reduceOption, Keyed prev.tupleLen keys row :=
    fun row hrow => ⟨hfits.length row hrow, hnumbers row hrow⟩
  have horder := strictWeakOn_compareBytes hlen
  obtain ⟨hperm, hsorted⟩ := hsort (compareBytes keys) rows.reduceOption (horder.mono hkeyed)
  refine ⟨horder, cut limitVal (sort (compareBytes keys) rows.reduceOption), selectFrom_eq hfirst hchild ?_, ?_⟩
  · have hcut : (cut limitVal (sort (compareBytes keys) rows.reduceOption)).length ≤ rows.length := by
      refine le_trans ?_ (List.reduceOption_length_le rows)
      rw [← hperm.length_eq]
      unfold cut
      split
      · exact List.length_take_le' _ _
      · exact le_rfl
    omega
  · refine ⟨sort (compareBytes keys) rows.reduceOption, hperm, ?_, cut_eq limitVal _⟩
    refine hsorted.imp_of_mem fun {a b} ha hb hba => ?_
    exact precedes_or_level hlen (hkeyed a (hperm.mem_iff.mp ha)) (hkeyed b (hperm.mem_iff.mp hb)) hba

end

/-- Two rows with a number, the larger one first. -/
theorem selectFrom_sorted_two :
    let prev := AbstractExecutor.ofRows [⟨⟨"a", .int, 4, 0⟩, "t"⟩] 4 [wordBytes 1, wordBytes 2]
    let keys : List (TableCol × Bool) := [(⟨⟨"a", .int, 4, 0⟩, "t"⟩, true)]
    StrictWeakOn (Keyed 4 keys) (compareBytes keys) ∧
    ∃ out, selectFrom (executor (fun lt l => l.mergeSort fun a b => !lt b a) prev keys 1 3) 4 ⟨[], [], 0, false⟩ =
        pure out ∧ ReturnsFirst keys [wordBytes 1, wordBytes 2] out (limitOf 1) := by
  intro prev keys
  let rows : List (Option Bytes) := [some (wordBytes 1), some (wordBytes 2)]
  have hfits : prev.Fits rows.reduceOption := ⟨by decide, by decide⟩
  have hnumbers : ∀ row ∈ rows.reduceOption, ∀ k ∈ keys, ¬(k.1.stored row).IsNaN := by
    intro row _ k hk
    rw [List.mem_singleton.mp hk]
    exact id
  have hconstruct : construct prev [] [⟨"t", "a"⟩] [true] = .ok (keys, ⟨[], [], 0, false⟩) := rfl
  have hchild : prev.drive 3 [wordBytes 1, wordBytes 2] = pure rows := rfl
  exact selectFrom_sorted sorts_mergeSort hconstruct hfits hnumbers rfl hchild (by decide)

/-- With LIMIT 0 all rows come. -/
theorem not_selectFrom_limitZero : ¬∀ (sort : (Bytes → Bytes → Bool) → List Bytes → List Bytes)
    (prev : AbstractExecutor (List Bytes)) (s₀ s₁ : List Bytes) (orderBy : List TabCol) (isDesc : List Bool)
    (keys : List (TableCol × Bool)) (state : State (List Bytes)) (rows : List (Option Bytes)) (limit n m : ℕ),
    Sorts sort → construct prev s₀ orderBy isDesc = .ok (keys, state) → prev.Fits rows.reduceOption →
    (∀ row ∈ rows.reduceOption, ∀ k ∈ keys, ¬(k.1.stored row).IsNaN) → prev.start s₀ = pure s₁ →
    prev.drive n s₁ = pure rows → rows.length + 1 < m →
    ∃ out, selectFrom (executor sort prev keys limit n) m state = pure out ∧
      ReturnsFirst keys rows.reduceOption out (some limit) := by
  intro h
  let sort : (Bytes → Bytes → Bool) → List Bytes → List Bytes := fun lt l => l.mergeSort fun a b => !lt b a
  let prev := AbstractExecutor.ofRows [] 4 [wordBytes 1]
  have hchild : prev.drive 2 [wordBytes 1] = pure [some (wordBytes 1)] := rfl
  have hsorted : cut 0 (sort (compareBytes []) [some (wordBytes 1)].reduceOption) = [wordBytes 1] :=
    List.mergeSort_singleton _
  obtain ⟨out, hout, _, -, -, hfirst⟩ := h sort prev [] [wordBytes 1] [] [] [] ⟨[], [], 0, false⟩ [some (wordBytes 1)] 0
    2 3 sorts_mergeSort rfl ⟨by decide, by decide⟩ (fun _ _ => nofun) rfl hchild (by decide)
  have hall : selectFrom (executor sort prev [] 0 2) 3 ⟨[], [], 0, false⟩ = pure [wordBytes 1] :=
    (selectFrom_eq rfl hchild (by rw [hsorted]; decide)).trans (congrArg pure hsorted)
  obtain rfl := Call.pure_inj (hall.symm.trans hout)
  cases hfirst

end SortExecutor
end Rmdb
