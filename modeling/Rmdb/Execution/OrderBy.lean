import Rmdb.Execution.Aggregates

/-! ORDER BY in the aggregation and in the sort. -/
namespace Rmdb

open Binary32 Sorting

/-! ### Two values -/

theorem tolerantOrder_neg (d : ℤ) : tolerantOrder (-d) = (tolerantOrder d).swap := by
  unfold tolerantOrder
  rw [Int.natAbs_neg]
  split_ifs
  · rfl
  · obtain hlt | rfl | hgt := lt_trichotomy d 0
    · rw [compare_lt_iff_lt.mpr hlt, compare_gt_iff_gt.mpr (Int.neg_pos.mpr hlt)]
      rfl
    · rfl
    · rw [compare_gt_iff_gt.mpr hgt, compare_lt_iff_lt.mpr (Int.neg_neg_of_pos hgt)]
      rfl

theorem Value.compareKeys_swap (v w : Value) : w.compareKeys v = (v.compareKeys w).swap := by
  cases v with
  | int i =>
    cases w with
    | int j => exact (Std.OrientedCmp.eq_swap : compare j.toInt i.toInt = (compare i.toInt j.toInt).swap)
    | float g => rfl
    | str t => rfl
  | float f =>
    cases w with
    | int j => rfl
    | float g =>
      change (Option.map₂ compare (count (.ofBits ⟨g⟩)) (count (.ofBits ⟨f⟩))).getD .eq =
        ((Option.map₂ compare (count (.ofBits ⟨f⟩)) (count (.ofBits ⟨g⟩))).getD .eq).swap
      cases count (.ofBits ⟨f⟩) with
      | none =>
        rw [Option.map₂_none_right]
        rfl
      | some x =>
        cases count (.ofBits ⟨g⟩) with
        | none => rfl
        | some y => exact (Std.OrientedCmp.eq_swap : compare y x = (compare x y).swap)
    | str t => rfl
  | str s =>
    cases w with
    | int j => rfl
    | float g => rfl
    | str t => exact (Std.OrientedCmp.eq_swap : compare t s = (compare s t).swap)

/-- Zeros behind strings that have none do not count. -/
theorem compare_padded {s t : Bytes} {k m : ℕ} (hs : 0 ∉ s) (ht : 0 ∉ t) (hlength : s.length + k = t.length + m) :
    compare (s ++ List.replicate k 0) (t ++ List.replicate m 0) = compare s t := by
  have hzero : ∀ d : UInt8, d ≠ 0 → compare 0 d = .lt := fun d hd => if_pos (UInt8.pos_iff_ne_zero.mpr hd)
  induction s generalizing t with
  | nil =>
    cases t with
    | nil =>
      rw [List.length_nil, Nat.zero_add, Nat.zero_add] at hlength
      rw [hlength]
      exact Std.ReflCmp.compare_self
    | cons d t =>
      rw [List.length_nil, Nat.zero_add, List.length_cons] at hlength
      have hk : k = (t.length + m) + 1 := by omega
      have hd : d ≠ 0 := fun hd => ht (hd ▸ List.mem_cons_self)
      have hcons : compare ((0 : UInt8) :: List.replicate (t.length + m) 0) (d :: (t ++ List.replicate m 0)) =
          (compare 0 d).then (compare (List.replicate (t.length + m) 0) (t ++ List.replicate m 0)) :=
        List.compareLex_cons_cons
      rw [hk, List.replicate_succ, List.nil_append, List.cons_append, hcons, hzero d hd]
      rfl
  | cons c s ih =>
    cases t with
    | nil =>
      rw [List.length_nil, Nat.zero_add, List.length_cons] at hlength
      have hm : m = (s.length + k) + 1 := by omega
      have hc : c ≠ 0 := fun hc => hs (hc ▸ List.mem_cons_self)
      have hswap : compare c 0 = (compare 0 c).swap := Std.OrientedCmp.eq_swap
      have hcons : compare (c :: (s ++ List.replicate k 0)) ((0 : UInt8) :: List.replicate (s.length + k) 0) =
          (compare c 0).then (compare (s ++ List.replicate k 0) (List.replicate (s.length + k) 0)) :=
        List.compareLex_cons_cons
      rw [hm, List.replicate_succ, List.nil_append, List.cons_append, hcons, hswap, hzero c hc]
      rfl
    | cons d t =>
      rw [List.length_cons, List.length_cons] at hlength
      have hrest := ih (fun h => hs (List.mem_cons_of_mem _ h)) (fun h => ht (List.mem_cons_of_mem _ h)) (by omega)
      have hcons : compare (c :: s) (d :: t) = (compare c d).then (compare s t) := List.compareLex_cons_cons
      have hcons' : compare (c :: s ++ List.replicate k 0) (d :: t ++ List.replicate m 0) =
          (compare c d).then (compare (s ++ List.replicate k 0) (t ++ List.replicate m 0)) := List.compareLex_cons_cons
      rw [hcons, hcons', hrest]

/-- The column of the record has this value. A string is followed by zeros. -/
def Shows (col : TableCol) (row : Bytes) (v : Value) : Prop :=
  match v with
  | .str s => col.type = .string ∧ 0 ∉ s ∧ ∃ k, col.toColMeta.field row = s ++ List.replicate k 0
  | v => col.toColMeta.stored row = v

theorem Shows.type {col : TableCol} {row : Bytes} {v : Value} (h : Shows col row v) : v.type = col.type := by
  cases v with
  | int i => exact (congrArg Value.type h).symm.trans (col.type_stored row)
  | float f => exact (congrArg Value.type h).symm.trans (col.type_stored row)
  | str s => exact h.1.symm

theorem Shows.isNaN {col : TableCol} {row : Bytes} {v : Value} (h : Shows col row v)
    (hnan : (col.toColMeta.stored row).IsNaN) : v.IsNaN := by
  cases v with
  | int i =>
    have hstored : col.toColMeta.stored row = .int i := h
    rwa [hstored] at hnan
  | float f =>
    have hstored : col.toColMeta.stored row = .float f := h
    rwa [hstored] at hnan
  | str s =>
    unfold ColMeta.stored at hnan
    rw [h.1] at hnan
    exact hnan

theorem Shows.compareKeys {col : TableCol} {row row' : Bytes} {v w : Value} (hv : Shows col row v)
    (hw : Shows col row' w) (hlength : row.length = row'.length) :
    (col.toColMeta.stored row).compareKeys (col.toColMeta.stored row') = v.compareKeys w := by
  have htype := hv.type.trans hw.type.symm
  cases v with
  | int i =>
    cases w with
    | int j => exact congrArg₂ Value.compareKeys hv hw
    | float g => cases htype
    | str t => cases htype
  | float f =>
    cases w with
    | int j => cases htype
    | float g => exact congrArg₂ Value.compareKeys hv hw
    | str t => cases htype
  | str s =>
    cases w with
    | int j => cases htype
    | float g => cases htype
    | str t =>
      obtain ⟨hcol, hs, k, hfield⟩ := hv
      obtain ⟨-, ht, m, hfield'⟩ := hw
      have hlengths : s.length + k = t.length + m := by
        have hsame : (col.toColMeta.field row).length = (col.toColMeta.field row').length := by
          unfold ColMeta.field
          rw [List.length_take, List.length_take, List.length_drop, List.length_drop, hlength]
        rw [hfield, hfield'] at hsame
        simpa using hsame
      unfold ColMeta.stored
      rw [hcol]
      change compare (col.toColMeta.field row) (col.toColMeta.field row') = compare s t
      rw [hfield, hfield', compare_padded hs ht hlengths]

namespace AggregationExecutor

/-- Floats are told apart by their difference. -/
theorem orderValues_float (f g : BitVec 32) : orderValues (.float f) (.float g) =
    ((difference (.ofBits ⟨f⟩) (.ofBits ⟨g⟩)).map tolerantOrder).getD .eq := by
  change (if epsilon < (Float32.ofBits ⟨f⟩ - Float32.ofBits ⟨g⟩).abs then
    if Float32.ofBits ⟨f⟩ < Float32.ofBits ⟨g⟩ then Ordering.lt else .gt else .eq) = _
  cases hd : difference (.ofBits ⟨f⟩) (.ofBits ⟨g⟩) with
  | none =>
    have habs : count (Float32.ofBits ⟨f⟩ - Float32.ofBits ⟨g⟩).abs = none := by
      rw [count_abs, count_sub_none hd]
      rfl
    exact if_neg (not_lt_of_nan habs)
  | some d =>
    obtain ⟨x, y, hx, hy, -, rfl⟩ := difference_eq_some.mp hd
    have hpos : 0 < tolerance := by decide
    change _ = tolerantOrder (x - y)
    unfold tolerantOrder
    by_cases hnear : (x - y).natAbs < tolerance
    · rw [if_neg fun hfar => (epsilon_lt_abs_sub hd).mp hfar hnear, if_pos hnear]
    · rw [if_pos ((epsilon_lt_abs_sub hd).mpr hnear), if_neg hnear]
      by_cases hxy : x < y
      · rw [if_pos ((lt_iff hx hy).mpr hxy), compare_lt_iff_lt.mpr (by omega)]
      · rw [if_neg (mt (lt_iff hx hy).mp hxy), compare_gt_iff_gt.mpr (by omega)]

theorem orderValues_swap (v w : Value) : orderValues w v = (orderValues v w).swap := by
  cases v with
  | int i =>
    cases w with
    | int j => exact (Std.OrientedCmp.eq_swap : compare j.toInt i.toInt = (compare i.toInt j.toInt).swap)
    | float g => rfl
    | str t => rfl
  | float f =>
    cases w with
    | int j => rfl
    | float g =>
      rw [orderValues_float, orderValues_float, difference_swap]
      cases difference (.ofBits ⟨f⟩) (.ofBits ⟨g⟩) with
      | none => rfl
      | some d => exact tolerantOrder_neg d
    | str t => rfl
  | str s =>
    cases w with
    | int j => rfl
    | float g => rfl
    | str t => exact (Std.OrientedCmp.eq_swap : compare t s = (compare s t).swap)

/-- The aggregation orders two values as the sort does or not at all. -/
theorem orderValues_coarse (v w : Value) : orderValues v w = .eq ∨ orderValues v w = v.compareKeys w := by
  cases v with
  | int i => cases w <;> exact .inr rfl
  | str s => cases w <;> exact .inr rfl
  | float f =>
    cases w with
    | int j => exact .inr rfl
    | str t => exact .inr rfl
    | float g =>
      rw [orderValues_float]
      cases hd : difference (.ofBits ⟨f⟩) (.ofBits ⟨g⟩) with
      | none => exact .inl rfl
      | some d =>
        obtain ⟨x, y, hx, hy, -, rfl⟩ := difference_eq_some.mp hd
        change tolerantOrder (x - y) = .eq ∨ tolerantOrder (x - y) =
          (Option.map₂ compare (count (.ofBits ⟨f⟩)) (count (.ofBits ⟨g⟩))).getD .eq
        rw [hx, hy]
        change _ ∨ _ = compare x y
        unfold tolerantOrder
        split_ifs
        · exact .inl rfl
        · right
          obtain hlt | rfl | hgt := lt_trichotomy x y
          · rw [compare_lt_iff_lt.mpr hlt, compare_lt_iff_lt.mpr (sub_neg.mpr hlt)]
          · rw [sub_self, compare_eq_iff_eq.mpr rfl, compare_eq_iff_eq.mpr rfl]
          · rw [compare_gt_iff_gt.mpr hgt, compare_gt_iff_gt.mpr (sub_pos.mpr hgt)]

/-! ### All keys -/

/-- The order of two values in the direction that the analyzer means: true is descending. -/
def directed (cmp : Value → Value → Ordering) (key : Value × Value × Bool) : Ordering :=
  if key.2.2 then (cmp key.1 key.2.1).swap else cmp key.1 key.2.1

/-- The values that a result is ordered by, with the directions. -/
def keyValues (clause : AggClause) (keys : List (OrderByCol × Bool)) (r : AggResult) : List (Value × Bool) :=
  keys.filterMap fun key => (orderValue clause key.1 r).map (·, key.2)

/-- The values of two results side by side. -/
def keyPairs (clause : AggClause) (keys : List (OrderByCol × Bool)) (a b : AggResult) : List (Value × Value × Bool) :=
  List.zipWith (fun p q => (p.1, q.1, p.2)) (keyValues clause keys a) (keyValues clause keys b)

section
variable {clause : AggClause} {keys : List (OrderByCol × Bool)} {a b : AggResult} {v w : Value} {isDesc : Bool}

theorem directed_swap {cmp : Value → Value → Ordering} (hswap : ∀ v w, cmp w v = (cmp v w).swap) :
    directed cmp (w, v, isDesc) = (directed cmp (v, w, isDesc)).swap := by
  unfold directed
  dsimp only
  rw [hswap v w]
  cases isDesc <;> rfl

theorem directed_coarse (key : Value × Value × Bool) :
    directed orderValues key = .eq ∨ directed orderValues key = directed Value.compareKeys key := by
  unfold directed
  cases orderValues_coarse key.1 key.2.1 with
  | inl hlevel =>
    rw [hlevel]
    exact .inl (ite_self _)
  | inr hsame =>
    rw [hsame]
    exact .inr rfl

/-- The results have as many values as each other. -/
def SameShape (a b : AggResult) : Prop :=
  a.groupKey.length = b.groupKey.length ∧ a.aggValues.length = b.aggValues.length

theorem isSome_find?_zip {α β : Type*} {p : α → Bool} {as : List α} {bs cs : List β} (h : bs.length = cs.length) :
    ((as.zip bs).find? fun entry => p entry.1).isSome = ((as.zip cs).find? fun entry => p entry.1).isSome := by
  induction as generalizing bs cs with
  | nil => rfl
  | cons first as ih =>
    cases bs with
    | nil =>
      cases cs with
      | nil => rfl
      | cons c cs => cases h
    | cons b bs =>
      cases cs with
      | nil => cases h
      | cons c cs =>
        rw [List.zip_cons_cons, List.zip_cons_cons, List.find?_cons, List.find?_cons]
        cases p first with
        | true => rfl
        | false => exact ih (Nat.succ.inj h)

theorem isSome_orderValue (clause : AggClause) (h : SameShape a b) (orderCol : OrderByCol) :
    (orderValue clause orderCol a).isSome = (orderValue clause orderCol b).isSome := by
  unfold orderValue
  split_ifs
  · rw [Option.isSome_map, Option.isSome_map]
    exact isSome_find?_zip (p := fun f : AggFunc => f.aliasName = orderCol.agg.aliasName) h.2
  · rw [Option.isSome_map, Option.isSome_map]
    exact isSome_find?_zip (p := fun col => col = orderCol.col) h.1

/-- A true direction is taken for ascending: what comes before is what is greater in the order that is meant. -/
theorem comesBefore_eq (h : SameShape a b) :
    comesBefore clause keys a b = (lexOrder (directed orderValues) (keyPairs clause keys a b) = .gt : Bool) := by
  induction keys with
  | nil => rfl
  | cons key keys ih =>
    obtain ⟨orderCol, isAsc⟩ := key
    have hsome := isSome_orderValue clause h orderCol
    unfold keyPairs keyValues at ih ⊢
    rw [comesBefore, List.filterMap_cons, List.filterMap_cons]
    cases ha : orderValue clause orderCol a with
    | none =>
      cases hb : orderValue clause orderCol b with
      | none => exact ih
      | some w =>
        rw [ha, hb] at hsome
        cases hsome
    | some v =>
      cases hb : orderValue clause orderCol b with
      | none =>
        rw [ha, hb] at hsome
        cases hsome
      | some w =>
        change _ = decide ((directed orderValues (v, w, isAsc)).then _ = .gt)
        unfold directed
        dsimp only
        cases orderValues v w with
        | lt => cases isAsc <;> rfl
        | gt => cases isAsc <;> rfl
        | eq =>
          have hlevel : (if isAsc = true then Ordering.eq.swap else .eq) = .eq := ite_self _
          rw [hlevel, Ordering.eq_then]
          exact ih

theorem keyPairs_swap {cmp : Value → Value → Ordering} (hswap : ∀ v w, cmp w v = (cmp v w).swap) (h : SameShape a b) :
    lexOrder (directed cmp) (keyPairs clause keys b a) = (lexOrder (directed cmp) (keyPairs clause keys a b)).swap := by
  induction keys with
  | nil => rfl
  | cons key keys ih =>
    obtain ⟨orderCol, isDesc⟩ := key
    have hsome := isSome_orderValue clause h orderCol
    unfold keyPairs keyValues at ih ⊢
    rw [List.filterMap_cons, List.filterMap_cons]
    cases ha : orderValue clause orderCol a with
    | none =>
      cases hb : orderValue clause orderCol b with
      | none => exact ih
      | some w =>
        rw [ha, hb] at hsome
        cases hsome
    | some v =>
      cases hb : orderValue clause orderCol b with
      | none =>
        rw [ha, hb] at hsome
        cases hsome
      | some w =>
        change (directed cmp (w, v, isDesc)).then _ = ((directed cmp (v, w, isDesc)).then _).swap
        rw [directed_swap hswap, Ordering.swap_then]
        exact congrArg _ ih

/-- A record for the sort with the values that the result is ordered by, in its key columns and directions. -/
structure ShowsKeys (tupleLen : ℕ) (clause : AggClause) (keys : List (OrderByCol × Bool))
    (sortKeys : List (TableCol × Bool)) (r : AggResult) (row : Bytes) : Prop where
  length : row.length = tupleLen
  values : List.Forall₂ (fun value key => value.2 = key.2 ∧ Shows key.1 row value.1) (keyValues clause keys r) sortKeys

theorem recordOrder_shown {row row' : Bytes} (hlength : row.length = row'.length) {vs ws : List (Value × Bool)}
    {sortKeys : List (TableCol × Bool)}
    (hv : List.Forall₂ (fun value key => value.2 = key.2 ∧ Shows key.1 row value.1) vs sortKeys)
    (hw : List.Forall₂ (fun value key => value.2 = key.2 ∧ Shows key.1 row' value.1) ws sortKeys) :
    SortExecutor.recordOrder sortKeys row row' =
      lexOrder (directed Value.compareKeys) (List.zipWith (fun p q => (p.1, q.1, p.2)) vs ws) := by
  induction hv generalizing ws with
  | nil =>
    cases hw
    rfl
  | cons hfirst _ ih =>
    cases hw with
    | cons hfirst' hrest' =>
      obtain ⟨hdir, hv⟩ := hfirst
      obtain ⟨-, hw⟩ := hfirst'
      unfold SortExecutor.recordOrder SortExecutor.keyOrder
      rw [ih hrest', hv.compareKeys hw hlength, ← hdir]
      rfl

end

/-- The results of the groups have the same shape. -/
theorem sameShape_of_groups {stl : Stl} {clause : AggClause} {prevCols groupCols aggCols : List TableCol}
    {records : List Tuple} {groups : List (Bytes × AggState)}
    (hfed : Fed clause prevCols groupCols aggCols records)
    (hgroups : groupStates stl clause prevCols records = .ok groups) {g g' : Bytes × AggState} (hg : g ∈ groups)
    (hg' : g' ∈ groups) {a b : AggResult} (ha : computeResult stl clause groupCols g = .ok a)
    (hb : computeResult stl clause groupCols g' = .ok b) : SameShape a b := by
  have hlength : records ≠ [] → ∀ g ∈ groups, ∀ r, computeResult stl clause groupCols g = .ok r →
      r.groupKey.length = groupCols.length := by
    intro hne g hg r hr
    by_cases hcols : groupCols = []
    · unfold computeResult at hr
      rw [if_pos hcols] at hr
      cases hr
      rw [hcols]
      rfl
    · cases groupStates_ok hgroups with
      | inl hempty => exact absurd hempty.1 hne
      | inr hrows =>
        obtain ⟨t, ht, hkey⟩ := (hrows.2.mem_keys g.1).mp (List.mem_map_of_mem hg)
        obtain ⟨vs, hvs, htypes⟩ := hfed.groupValues ht
        have hgroupBy := mt (groupCols_eq_nil_iff hfed.built).mpr hcols
        have hparse := (computeResult_ok hr).1.resolve_left hcols
        rw [getGroupKey_eq hgroupBy hfed.named hvs, Except.ok.injEq] at hkey
        rw [← hkey] at hparse
        have hsame := congrArg List.length htypes
        rw [List.length_map, List.length_map] at hsame
        exact length_parseKey hsame hparse
  refine ⟨?_, (length_aggValues hfed hgroups hg ha).trans (length_aggValues hfed hgroups hg' hb).symm⟩
  by_cases hne : records = []
  · -- there is one group only
    cases groupStates_ok hgroups with
    | inl hempty =>
      rw [hempty.2] at hg hg'
      rw [List.mem_singleton.mp hg] at ha
      rw [List.mem_singleton.mp hg', ha] at hb
      cases hb
      rfl
    | inr hrows => exact absurd hne hrows.1
  · exact (hlength hne g hg a ha).trans (hlength hne g' hg' b hb).symm

/-! ### The two orders -/

variable {clause : AggClause} {keys : List (OrderByCol × Bool)} {sortKeys : List (TableCol × Bool)} {tupleLen : ℕ}
  {rs : List AggResult} {row : AggResult → Bytes}

/-- The comparator of the aggregation is that of the sort on these results, and it is a strict weak order. -/
structure OrderAgrees (clause : AggClause) (keys : List (OrderByCol × Bool)) (sortKeys : List (TableCol × Bool))
    (rs : List AggResult) (row : AggResult → Bytes) : Prop where
  same : ∀ a ∈ rs, ∀ b ∈ rs, comesBefore clause keys a b = SortExecutor.compareBytes sortKeys (row a) (row b)
  strictWeak : StrictWeakOn (· ∈ rs) (comesBefore clause keys)

/-- Any two results have the same keys, or their first difference is one of floats and less than the aggregation
heeds, and the next key that it heeds has them the other way round. -/
structure KeysAgree (clause : AggClause) (keys : List (OrderByCol × Bool)) (rs : List AggResult) : Prop where
  pairs : ∀ a ∈ rs, ∀ b ∈ rs, (∀ key ∈ keyPairs clause keys a b, directed Value.compareKeys key = .eq) ∨
    Turned (directed Value.compareKeys) (directed orderValues) (keyPairs clause keys a b)
  strictWeak : StrictWeakOn (· ∈ rs) fun a b => lexOrder (directed Value.compareKeys) (keyPairs clause keys a b) = .lt

/-- The comparator of the sort goes by the keys that the records show. -/
theorem compareBytes_shown (hlen : ∀ k ∈ sortKeys, k.1.offset + k.1.len ≤ tupleLen)
    (hshow : ∀ r ∈ rs, ShowsKeys tupleLen clause keys sortKeys r (row r)) {a b : AggResult} (ha : a ∈ rs) (hb : b ∈ rs) :
    SortExecutor.compareBytes sortKeys (row a) (row b) =
      (lexOrder (directed Value.compareKeys) (keyPairs clause keys a b) = .lt : Bool) := by
  have hlength := (hshow a ha).length.trans (hshow b hb).length.symm
  rw [SortExecutor.compareBytes_eq hlen (hshow a ha).length (hshow b hb).length,
    recordOrder_shown hlength (hshow a ha).values (hshow b hb).values]
  rfl

/-- ORDER BY means the same in both places exactly if the keys do not show that their directions are exchanged. -/
theorem orderAgrees_iff (hshape : ∀ a ∈ rs, ∀ b ∈ rs, SameShape a b)
    (hlen : ∀ k ∈ sortKeys, k.1.offset + k.1.len ≤ tupleLen)
    (hshow : ∀ r ∈ rs, ShowsKeys tupleLen clause keys sortKeys r (row r)) :
    OrderAgrees clause keys sortKeys rs row ↔ KeysAgree clause keys rs := by
  have hagg : ∀ a ∈ rs, ∀ b ∈ rs, comesBefore clause keys a b =
      (lexOrder (directed orderValues) (keyPairs clause keys a b) = .gt : Bool) :=
    fun a ha b hb => comesBefore_eq (hshape a ha b hb)
  have hsort : ∀ a ∈ rs, ∀ b ∈ rs, SortExecutor.compareBytes sortKeys (row a) (row b) =
      (lexOrder (directed Value.compareKeys) (keyPairs clause keys a b) = .lt : Bool) :=
    fun a ha b hb => compareBytes_shown hlen hshow ha hb
  -- both comparators on both orders of a pair
  have hpair : (∀ a ∈ rs, ∀ b ∈ rs, comesBefore clause keys a b = SortExecutor.compareBytes sortKeys (row a) (row b)) ↔
      ∀ a ∈ rs, ∀ b ∈ rs, lexOrder (directed orderValues) (keyPairs clause keys a b) =
        (lexOrder (directed Value.compareKeys) (keyPairs clause keys a b)).swap := by
    constructor
    · intro h a ha b hb
      have hab := h a ha b hb
      have hba := h b hb a ha
      rw [hagg a ha b hb, hsort a ha b hb, decide_eq_decide] at hab
      rw [hagg b hb a ha, hsort b hb a ha, decide_eq_decide, keyPairs_swap orderValues_swap (hshape a ha b hb),
        keyPairs_swap Value.compareKeys_swap (hshape a ha b hb)] at hba
      revert hab hba
      cases lexOrder (directed orderValues) (keyPairs clause keys a b) <;>
        cases lexOrder (directed Value.compareKeys) (keyPairs clause keys a b) <;> decide
    · intro h a ha b hb
      rw [hagg a ha b hb, hsort a ha b hb, h a ha b hb, decide_eq_decide]
      cases lexOrder (directed Value.compareKeys) (keyPairs clause keys a b) <;> decide
  have hturned : ∀ a b, lexOrder (directed orderValues) (keyPairs clause keys a b) =
      (lexOrder (directed Value.compareKeys) (keyPairs clause keys a b)).swap ↔ _ :=
    fun a b => lexOrder_eq_swap_iff fun key _ => directed_coarse key
  constructor
  · intro h
    have hswap := hpair.mp h.same
    refine ⟨fun a ha b hb => (hturned a b).mp (hswap a ha b hb), h.strictWeak.congr fun a b ha hb => ?_⟩
    rw [h.same a ha b hb, hsort a ha b hb]
  · intro h
    have hsame := hpair.mpr fun a ha b hb => (hturned a b).mpr (h.pairs a ha b hb)
    refine ⟨hsame, h.strictWeak.congr fun a b ha hb => ?_⟩
    rw [hsame a ha b hb, hsort a ha b hb]

/-- Without NaNs the keys always make a strict weak order. -/
theorem strictWeakOn_keys (hlen : ∀ k ∈ sortKeys, k.1.offset + k.1.len ≤ tupleLen)
    (hshow : ∀ r ∈ rs, ShowsKeys tupleLen clause keys sortKeys r (row r))
    (hnan : ∀ r ∈ rs, ∀ value ∈ keyValues clause keys r, ¬value.1.IsNaN) :
    StrictWeakOn (· ∈ rs) fun a b => lexOrder (directed Value.compareKeys) (keyPairs clause keys a b) = .lt := by
  have hkeyed : ∀ r ∈ rs, SortExecutor.Keyed tupleLen sortKeys (row r) := by
    intro r hr
    refine ⟨(hshow r hr).length, fun key hkey hstored => ?_⟩
    obtain ⟨i, hi, rfl⟩ := List.getElem_of_mem hkey
    have hvalues := List.forall₂_iff_get.mp (hshow r hr).values
    have hi' : i < (keyValues clause keys r).length := hvalues.1.symm ▸ hi
    exact hnan r hr _ (List.getElem_mem hi') ((hvalues.2 i hi' hi).2.isNaN hstored)
  have horder := ((SortExecutor.strictWeakOn_compareBytes hlen).comap row).mono hkeyed
  exact horder.congr fun a b ha hb => (compareBytes_shown hlen hshow ha hb).symm

/-- `GROUP BY a ORDER BY a ASC`, where `a` is `CHAR(2)`. -/
def ascendingA : AggClause := ⟨[], [⟨"t", "a"⟩], [], [⟨⟨"t", "a"⟩, false, ⟨.count, noCol, ""⟩⟩], [false], -1⟩

def ascendingKeys : List (OrderByCol × Bool) := ascendingA.orderByCols.zip ascendingA.orderByDirections

def sortKeysA : List (TableCol × Bool) := [(⟨⟨"a", .string, 2, 0⟩, "t"⟩, false)]

/-- The group of a letter. -/
def groupOf (letter : UInt8) : AggResult := ⟨[.str [letter]], [], 1⟩

def recordOf (r : AggResult) : Bytes :=
  match r.groupKey with
  | [.str s] => s ++ [0]
  | _ => []

theorem showsKeys_groupOf {letter : UInt8} (h : 0 ≠ letter) :
    ShowsKeys 2 ascendingA ascendingKeys sortKeysA (groupOf letter) (recordOf (groupOf letter)) where
  length := rfl
  values := .cons ⟨rfl, rfl, mt List.mem_singleton.mp h, 1, rfl⟩ .nil

/-- The group of `a` does not come before the group of `b`. -/
theorem not_orderAgrees_ascending : ¬∀ clause keys sortKeys tupleLen rs row, (∀ a ∈ rs, ∀ b ∈ rs, SameShape a b) →
    (∀ k ∈ sortKeys, k.1.offset + k.1.len ≤ tupleLen) →
    (∀ r ∈ rs, ShowsKeys tupleLen clause keys sortKeys r (row r)) → OrderAgrees clause keys sortKeys rs row := by
  intro h
  have hagrees := h ascendingA ascendingKeys sortKeysA 2 [groupOf 97, groupOf 98] recordOf
    (by simp [SameShape, groupOf]) (by decide)
    (List.forall_mem_cons.mpr ⟨showsKeys_groupOf (by decide), List.forall_mem_singleton.mpr (showsKeys_groupOf (by decide))⟩)
  have hab := hagrees.same (groupOf 97) List.mem_cons_self (groupOf 98) (List.mem_cons_of_mem _ List.mem_cons_self)
  have hagg : comesBefore ascendingA ascendingKeys (groupOf 97) (groupOf 98) = false := by decide
  have hsort : SortExecutor.compareBytes sortKeysA (recordOf (groupOf 97)) (recordOf (groupOf 98)) = true := by decide
  rw [hagg, hsort] at hab
  cases hab

theorem orderAgrees_iff_groupOf : OrderAgrees ascendingA ascendingKeys sortKeysA [groupOf 97] recordOf ↔
    KeysAgree ascendingA ascendingKeys [groupOf 97] :=
  orderAgrees_iff (by simp [SameShape]) (by decide) (List.forall_mem_singleton.mpr (showsKeys_groupOf (by decide)))

end AggregationExecutor
end Rmdb
