import Mathlib.Data.List.Find
import Rmdb.Execution.Aggregates
import Rmdb.Execution.Meaning

/-! HAVING against the true values of the aggregate functions of the groups. -/
namespace Rmdb

open Program Binary32

/-! ### The true values -/

/-- A number of any size, a float or a string. -/
inductive TrueValue where
  | int (z : ℤ)
  | float (f : BitVec 32)
  | str (s : Bytes)
deriving DecidableEq

def Value.exact : Value → TrueValue
  | .int i => .int i.toInt
  | .float f => .float f
  | .str s => .str s

/-- A number in multiples of `2^-149`. -/
def TrueValue.units : TrueValue → Option ℤ
  | .int z => some (z * 2 ^ 149)
  | .float f => count (.ofBits ⟨f⟩)
  | .str _ => none

/-- Numbers are ordered as such. A NaN is not, and no number with a string. -/
def TrueValue.order : TrueValue → TrueValue → Option Ordering
  | .str s, .str t => some (compare s t)
  | .int y, .int z => some (compare y z)
  | l, r => Option.map₂ compare l.units r.units

def TrueValue.meets (op : CompOp) (l r : TrueValue) : Bool := (l.order r).any op.holds

section
variable (op : CompOp)

@[simp] theorem TrueValue.meets_int (y z : ℤ) : meets op (.int y) (.int z) = op.holds (compare y z) := rfl

theorem TrueValue.meets_int_float (z : ℤ) (g : BitVec 32) : meets op (.int z) (.float g) =
    (Option.map₂ compare (TrueValue.int z).units (TrueValue.float g).units).any op.holds := rfl

theorem TrueValue.meets_float_int (f : BitVec 32) (z : ℤ) : meets op (.float f) (.int z) =
    (Option.map₂ compare (TrueValue.float f).units (TrueValue.int z).units).any op.holds := rfl

theorem TrueValue.meets_float (f g : BitVec 32) : meets op (.float f) (.float g) =
    (Option.map₂ compare (TrueValue.float f).units (TrueValue.float g).units).any op.holds := rfl

@[simp] theorem TrueValue.meets_int_str (z : ℤ) (t : Bytes) : meets op (.int z) (.str t) = false := rfl

@[simp] theorem TrueValue.meets_float_str (f : BitVec 32) (t : Bytes) : meets op (.float f) (.str t) = false := by
  have hnone : (TrueValue.float f).order (.str t) = none := Option.map₂_none_right _ _
  unfold meets
  rw [hnone]
  rfl

end

/-- The same number or string: the bits of a NaN do not count. -/
def TrueValue.Same : TrueValue → TrueValue → Prop
  | .float f, .float g => count (.ofBits ⟨f⟩) = count (.ofBits ⟨g⟩)
  | l, r => l = r

section
variable {l l' r r' : TrueValue}

theorem TrueValue.Same.refl (l : TrueValue) : l.Same l := by
  cases l with
  | int z => exact Eq.refl (TrueValue.int z)
  | float f => exact Eq.refl (count (.ofBits ⟨f⟩))
  | str s => exact Eq.refl (TrueValue.str s)

/-- Only floats can be the same without being equal. -/
theorem TrueValue.Same.eq_or (h : l.Same l') : l = l' ∨ ∃ f g, l = .float f ∧ l' = .float g ∧
    count (.ofBits ⟨f⟩) = count (.ofBits ⟨g⟩) := by
  cases l with
  | int y => exact .inl h
  | str s => exact .inl h
  | float f =>
    cases l' with
    | int z => cases h
    | str t => cases h
    | float g => exact .inr ⟨f, g, rfl, rfl, h⟩

theorem TrueValue.order_float_left (f : BitVec 32) (r : TrueValue) :
    order (.float f) r = Option.map₂ compare (count (.ofBits ⟨f⟩)) r.units := by
  cases r with
  | int z => rfl
  | float g => rfl
  | str t => rfl

theorem TrueValue.order_float_right (l : TrueValue) (g : BitVec 32) :
    order l (.float g) = Option.map₂ compare l.units (count (.ofBits ⟨g⟩)) := by
  cases l with
  | int z => rfl
  | float f => rfl
  | str s => rfl

theorem TrueValue.Same.order (hl : l.Same l') (hr : r.Same r') : l.order r = l'.order r' := by
  have hleft : l.order r = l'.order r := by
    rcases hl.eq_or with rfl | ⟨f, g, rfl, rfl, hcount⟩
    · rfl
    · rw [order_float_left, order_float_left, hcount]
  rw [hleft]
  rcases hr.eq_or with rfl | ⟨f, g, rfl, rfl, hcount⟩
  · rfl
  · rw [order_float_right, order_float_right, hcount]

theorem TrueValue.Same.meets (hl : l.Same l') (hr : r.Same r') (op : CompOp) :
    TrueValue.meets op l r = TrueValue.meets op l' r' := by
  unfold TrueValue.meets
  rw [hl.order hr]

end

instance : DecidableRel Value.AtMost := fun v w => inferInstanceAs (Decidable ((v.compareKeys w).isLE = true))

/-- The first value that none is beyond. -/
def firstOf (le : Value → Value → Prop) [DecidableRel le] (vals : List Value) : Option Value :=
  vals.find? fun v => ∀ w ∈ vals, le w v

def Value.double : Value → Float
  | .int i => Float.ofInt i.toInt
  | .float f => toDouble f
  | .str _ => 0

/-- Floats are added up as doubles, row by row. -/
def sumDouble (vals : List Value) : Float := vals.foldl (fun acc v => acc + v.double) 0

/-- A function of a column of this type with these values. The sum of no rows is zero, and there is no extreme and no
average of them. -/
def trueAggregate (funcType : AggFuncType) (type : ColType) (vals : List Value) : Option TrueValue :=
  match funcType, type with
  | .count, _ => some (.int vals.length)
  | .max, _ => (firstOf Value.AtMost vals).map Value.exact
  | .min, _ => (firstOf (fun w v => v.AtMost w) vals).map Value.exact
  | .sum, .int => some (.int (vals.map fun v => v.word.toInt).sum)
  | .sum, .float => some (if vals = [] then .int 0 else .float (ofDouble (sumDouble vals)))
  | .avg, .int | .avg, .float =>
    if vals = [] then none else some (.float (ofDouble (sumDouble vals / Float.ofInt vals.length)))
  | .sum, .string | .avg, .string => none

/-- The value comes out as it is: no overflow, no string extreme that is overwritten, no empty group. -/
def AggFunc.ComesOut (f : AggFunc) (type : ColType) (vals : List Value) : Prop :=
  match f.funcType, type with
  | .sum, .string | .avg, .string => False
  | .sum, .float => True
  | .max, .float | .min, .float => vals ≠ [] ∧ vals.length ≤ 2 ^ 32 ∧ ∀ v ∈ vals, ¬v.IsNaN
  | .avg, .int | .avg, .float => vals ≠ [] ∧ vals.length < 2 ^ 31
  | _, _ => f.Safe vals

/-! ### Extremes, sums and averages -/

section
variable {le : Value → Value → Prop} [DecidableRel le] {S : Value → Prop} {vals : List Value} {u v w : Value}

theorem firstOf_spec (h : firstOf le vals = some u) : Greatest le u vals := by
  have hall := List.find?_some (p := fun v => ∀ w ∈ vals, le w v) h
  exact ⟨List.mem_of_find?_eq_some h, of_decide_eq_true hall⟩

theorem firstOf_singleton (h : le w w) : firstOf le [w] = some w :=
  List.find?_cons_of_pos (decide_eq_true fun _ hv => List.mem_singleton.mp hv ▸ h)

/-- One more value takes the place of the first one if it is beyond it. -/
theorem firstOf_append (htotal : ∀ v w, S v → S w → le v w ∨ le w v)
    (htrans : ∀ u v w, S u → S v → S w → le u v → le v w → le u w) (hvals : ∀ v ∈ vals, S v) (hw : S w)
    (hu : firstOf le vals = some u) : firstOf le (vals ++ [w]) = some (if le w u then u else w) := by
  obtain ⟨hmem, hall⟩ := firstOf_spec hu
  have hself : le w w := (htotal w w hw hw).elim id id
  have hsplit : ∀ v, (∀ x ∈ vals ++ [w], le x v) ↔ (∀ x ∈ vals, le x v) ∧ le w v := by
    intro v
    rw [List.forall_mem_append, List.forall_mem_singleton]
  unfold firstOf at hu ⊢
  rw [List.find?_append]
  by_cases hle : le w u
  · have hsame : vals.find? (fun v => ∀ x ∈ vals ++ [w], le x v) = vals.find? fun v => ∀ x ∈ vals, le x v := by
      refine List.find?_congr fun v hv => decide_eq_decide.mpr ?_
      rw [hsplit]
      exact ⟨And.left, fun h => ⟨h, htrans w u v hw (hvals u hmem) (hvals v hv) hle (h u hmem)⟩⟩
    rw [if_pos hle, hsame, hu]
    rfl
  · have hbeyond : le u w := (htotal u w (hvals u hmem) hw).resolve_right hle
    have hnone : vals.find? (fun v => ∀ x ∈ vals ++ [w], le x v) = none := by
      refine List.find?_eq_none.mpr fun v hv h => hle ?_
      have hv' := (hsplit v).mp (of_decide_eq_true h)
      exact htrans w v u hw (hvals v hv) (hvals u hmem) hv'.2 (hall v hv)
    rw [if_neg hle, hnone]
    have hlast : ∀ x ∈ vals ++ [w], le x w :=
      (hsplit w).mpr ⟨fun x hx => htrans x u w (hvals x hx) (hvals u hmem) hw (hall x hx) hbeyond, hself⟩
    exact List.find?_cons_of_pos (p := fun v => ∀ x ∈ vals ++ [w], le x v) (decide_eq_true hlast)

/-- Where values are told apart, an extreme is the first one. -/
theorem firstOf_eq (hanti : ∀ v w, v ∈ vals → w ∈ vals → le v w → le w v → v = w) (h : Greatest le v vals) :
    firstOf le vals = some v := by
  cases hfirst : firstOf le vals with
  | none => exact absurd (decide_eq_true h.2) (List.find?_eq_none.mp hfirst v h.1)
  | some u =>
    obtain ⟨hmem, hall⟩ := firstOf_spec hfirst
    exact congrArg some (hanti u v hmem h.1 (h.2 u hmem) (hall v h.1))

end

section
variable {f : AggFunc} {vals : List Value}

theorem atMost_antisymm {type : ColType} (htype : type ≠ .float) {v w : Value} (hv : v.type = type) (hw : w.type = type)
    (hvw : v.AtMost w) (hwv : w.AtMost v) : v = w := by
  cases v with
  | int i =>
    cases w with
    | int j => exact congrArg Value.int (BitVec.toInt_inj.mp (le_antisymm (atMost_int_iff.mp hvw) (atMost_int_iff.mp hwv)))
    | float g => cases hw.trans hv.symm
    | str t => cases hw.trans hv.symm
  | float g => exact absurd hv.symm htype
  | str s =>
    cases w with
    | int j => cases hw.trans hv.symm
    | float g => cases hw.trans hv.symm
    | str t =>
      have hst : compare s t ≠ .gt := Ordering.isLE_iff_ne_gt.mp hvw
      have hts : compare t s ≠ .gt := Ordering.isLE_iff_ne_gt.mp hwv
      have heq : compare s t = .eq := by
        have hswap : compare t s = (compare s t).swap := Std.OrientedCmp.eq_swap
        rw [hswap] at hts
        revert hst hts
        cases compare s t <;> decide
      exact congrArg Value.str (Std.LawfulEqCmp.eq_of_compare heq)

/-- A float that is no NaN. -/
def Value.IsFloat (v : Value) : Prop := v.type = .float ∧ ¬v.IsNaN

theorem float_lt_iff {g h : BitVec 32} (hg : ¬(Value.float g).IsNaN) (hh : ¬(Value.float h).IsNaN) :
    Float32.ofBits ⟨g⟩ < Float32.ofBits ⟨h⟩ ↔ ¬(Value.float h).AtMost (.float g) := by
  obtain ⟨x, hx⟩ := SortExecutor.exists_count hg
  obtain ⟨y, hy⟩ := SortExecutor.exists_count hh
  have hkeys : (Value.float h).compareKeys (.float g) = compare y x := by
    change (Option.map₂ compare (Binary32.count (.ofBits ⟨h⟩)) (Binary32.count (.ofBits ⟨g⟩))).getD .eq = _
    rw [hx, hy]
    rfl
  rw [Binary32.lt_iff hx hy, Value.AtMost, hkeys, Ordering.isLE_iff_ne_gt, not_not, compare_gt_iff_gt]

/-- The function keeps the first of the floats that none is beyond. -/
structure AggFunc.KeepsFirst (f : AggFunc) (le : Value → Value → Prop) [DecidableRel le] : Prop where
  update : ∀ count acc old new, ¬(Value.float old).IsNaN → ¬(Value.float new).IsNaN →
    (f.update count (.float new) (.float old, acc)).1 =
      if count = 1 ∨ ¬le (.float new) (.float old) then .float new else .float old
  first : ∀ acc old new, (f.update 1 (.float new) (.float old, acc)).1 = .float new
  total : ∀ v w : Value, v.IsFloat → w.IsFloat → le v w ∨ le w v
  trans : ∀ u v w : Value, u.IsFloat → v.IsFloat → w.IsFloat → le u v → le v w → le u w

theorem atMost_total (v w : Value) (hv : v.IsFloat) (hw : w.IsFloat) : v.AtMost w ∨ w.AtMost v := by
  have hswap := (SortExecutor.compareKeys_transOn .float).swap v w hv hw
  unfold Value.AtMost
  rw [hswap]
  cases w.compareKeys v <;> decide

theorem keepsFirst_max (hkind : f.funcType = .max) : f.KeepsFirst Value.AtMost where
  update count acc old new hold hnew := by
    simp only [AggFunc.update, hkind, float_lt_iff hold hnew]
    split_ifs <;> rfl
  first acc old new := by simp [AggFunc.update, hkind]
  total := atMost_total
  trans u v w := (SortExecutor.compareKeys_transOn .float).trans u v w

theorem keepsFirst_min (hkind : f.funcType = .min) : f.KeepsFirst fun w v => v.AtMost w where
  update count acc old new hold hnew := by
    simp only [AggFunc.update, hkind, float_lt_iff hnew hold]
    split_ifs <;> rfl
  first acc old new := by simp [AggFunc.update, hkind]
  total v w hv hw := atMost_total w v hw hv
  trans u v w hu hv hw huv hvw := (SortExecutor.compareKeys_transOn .float).trans w v u hw hv hu hvw huv

theorem AggFunc.KeepsFirst.runCell {le : Value → Value → Prop} [DecidableRel le] (h : f.KeepsFirst le)
    (hvals : ∀ v ∈ vals, v.IsFloat) (hne : vals ≠ []) (hlength : vals.length ≤ 2 ^ 32) :
    firstOf le vals = some (f.runCell (.float 0) vals).1 := by
  induction vals using List.reverseRecOn with
  | nil => exact absurd rfl hne
  | append_singleton vals v ih =>
    have hbefore : ∀ w ∈ vals, w.IsFloat := fun w hw => hvals w (List.mem_append_left _ hw)
    have hv := hvals v (List.mem_append_right _ List.mem_cons_self)
    rw [List.length_append, List.length_singleton] at hlength
    cases v with
    | int i => cases hv.1
    | str s => cases hv.1
    | float new =>
      by_cases hnil : vals = []
      · subst hnil
        have hself := (h.total _ _ hv hv).elim id id
        rw [runCell_append, List.nil_append, firstOf_singleton hself]
        exact congrArg some (h.first _ _ _).symm
      · have hold := ih hbefore hnil (by omega)
        have holdMem := hbefore _ (firstOf_spec hold).1
        have hcount : BitVec.ofNat 32 (vals.length + 1) ≠ 1 := by
          have hpos := List.length_pos_iff.mpr hnil
          rw [ne_eq, ← BitVec.toNat_inj, BitVec.toNat_ofNat]
          change ¬(vals.length + 1) % 2 ^ 32 = 1
          omega
        rw [runCell_append, firstOf_append h.total h.trans hbefore hv hold]
        generalize f.runCell (.float 0) vals = cell at holdMem
        obtain ⟨value, acc⟩ := cell
        cases value with
        | int i => cases holdMem.1
        | str s => cases holdMem.1
        | float old =>
          rw [h.update _ acc old new holdMem.2 hv.2]
          by_cases hkeep : le (.float new) (.float old)
          · rw [if_pos hkeep, if_neg (not_or.mpr ⟨hcount, not_not_intro hkeep⟩)]
          · rw [if_neg hkeep, if_pos (.inr hkeep)]

theorem sumDouble_append (vals : List Value) (v : Value) : sumDouble (vals ++ [v]) = sumDouble vals + v.double := by
  unfold sumDouble
  rw [List.foldl_append]
  rfl

theorem runCell_floatSum (hkind : f.funcType = .sum) (hvals : ∀ v ∈ vals, v.type = .float) :
    f.runCell (.float 0) vals = (if vals = [] then .float 0 else .float (ofDouble (sumDouble vals)), sumDouble vals) := by
  induction vals using List.reverseRecOn with
  | nil => rfl
  | append_singleton vals v ih =>
    have hv := hvals v (List.mem_append_right _ List.mem_cons_self)
    have ih := ih fun w hw => hvals w (List.mem_append_left _ hw)
    rw [runCell_append, ih, if_neg (List.append_ne_nil_of_right_ne_nil _ (List.cons_ne_nil _ _)), sumDouble_append]
    cases v with
    | int i => cases hv
    | str s => cases hv
    | float g =>
      unfold AggFunc.update
      rw [hkind]
      split_ifs <;> rfl

/-- The average needs its accumulator only. -/
theorem runCell_avg (hkind : f.funcType = .avg) {init : Value} (hvals : ∀ v ∈ vals, v.type ≠ .string) :
    (f.runCell init vals).2 = sumDouble vals := by
  induction vals using List.reverseRecOn with
  | nil => rfl
  | append_singleton vals v ih =>
    have hv := hvals v (List.mem_append_right _ List.mem_cons_self)
    have ih := ih fun w hw => hvals w (List.mem_append_left _ hw)
    rw [runCell_append, sumDouble_append, ← ih]
    unfold AggFunc.update
    rw [hkind]
    cases v with
    | int i => rfl
    | float g => rfl
    | str s => exact absurd rfl hv

end

namespace AggregationExecutor

/-- A number as a FLOAT. -/
def single : TrueValue → Float32
  | .int z => .ofInt z
  | .float f => .ofBits ⟨f⟩
  | .str _ => 0

/-- The numbers `a` and `b` differ otherwise than the FLOATs that are compared in their place, and `op` tells: for equality
these may be apart by less than the tolerance. -/
def Blurs (op : CompOp) (a b : ℤ) (f g : Float32) : Prop :=
  match op with
  | .eq | .ne =>
    match difference f g with
    | none => op.holds (compare a b) = true
    | some d => ¬(a = b ↔ d.natAbs < tolerance)
  | _ =>
    match count f, count g with
    | some c, some d => op.Splits 0 (b - a) (d - c)
    | _, _ => op.holds (compare a b) = true

/-- Integers and strings are compared as they are, and all other pairs of numbers as FLOATs. -/
def Blurred (op : CompOp) : TrueValue → TrueValue → Prop
  | .int _, .int _ => False
  | l, r => ∃ a ∈ l.units, ∃ b ∈ r.units, Blurs op a b (single l) (single r)

theorem havingFloat_nan (op : CompOp) {f g : Float32} (h : count f = none ∨ count g = none) :
    havingFloat op f g = false := by
  have hdifference : difference f g = none := by
    unfold difference
    obtain h | h := h
    · rw [h]
    · rw [h]
      cases count f <;> rfl
  have habs : count (f - g).abs = none := by
    rw [count_abs, count_sub_none hdifference]
    rfl
  cases op with
  | eq => exact decide_eq_false (not_le_of_nan habs)
  | ne => exact decide_eq_false (not_lt_of_nan habs)
  | lt => exact decide_eq_false (h.elim nan_not_lt not_lt_of_nan)
  | gt => exact decide_eq_false (h.elim not_lt_of_nan nan_not_lt)
  | le => exact decide_eq_false (h.elim not_le_of_nan not_le_nan)
  | ge => exact decide_eq_false (h.elim not_le_nan not_le_of_nan)

/-- The operators that order compare the FLOATs as they are. -/
theorem havingFloat_order {op : CompOp} (hop : op ≠ .eq ∧ op ≠ .ne) {f g : Float32} {c d : ℤ} (hf : count f = some c)
    (hg : count g = some d) : havingFloat op f g = op.holds (compare c d) := by
  unfold havingFloat CompOp.holds
  cases op with
  | eq => exact absurd rfl hop.1
  | ne => exact absurd rfl hop.2
  | lt => exact decide_eq_decide.mpr ((lt_iff hf hg).trans compare_lt_iff_lt.symm)
  | gt => exact decide_eq_decide.mpr ((lt_iff hg hf).trans compare_gt_iff_gt.symm)
  | le => exact decide_eq_decide.mpr ((le_iff hf hg).trans compare_le_iff_le.symm)
  | ge => exact decide_eq_decide.mpr ((le_iff hg hf).trans compare_ge_iff_ge.symm)

theorem havingFloat_eq {f g : Float32} {d : ℤ} (h : difference f g = some d) :
    havingFloat .eq f g = decide (d.natAbs < tolerance) ∧ havingFloat .ne f g = decide ¬d.natAbs < tolerance :=
  ⟨decide_eq_decide.mpr (abs_sub_le_epsilon h), decide_eq_decide.mpr (epsilon_lt_abs_sub h)⟩

theorem havingFloat_apart {op : CompOp} (hop : op = .eq ∨ op = .ne) {f g : Float32} (h : difference f g = none) :
    havingFloat op f g = false := by
  have habs : count (f - g).abs = none := by
    rw [count_abs, count_sub_none h]
    rfl
  obtain rfl | rfl := hop
  · exact decide_eq_false (not_le_of_nan habs)
  · exact decide_eq_false (not_lt_of_nan habs)

theorem havingFloat_iff (op : CompOp) (a b : ℤ) (f g : Float32) :
    havingFloat op f g = op.holds (compare a b) ↔ ¬Blurs op a b f g := by
  have hequal : op = .eq ∨ op = .ne → (havingFloat op f g = op.holds (compare a b) ↔
      ¬match difference f g with
        | none => op.holds (compare a b) = true
        | some d => ¬(a = b ↔ d.natAbs < tolerance)) := by
    intro hop
    cases hd : difference f g with
    | none =>
      rw [havingFloat_apart hop hd, Bool.not_eq_true, eq_comm]
    | some d =>
      obtain ⟨heq, hne⟩ := havingFloat_eq hd
      dsimp only
      rw [not_not]
      obtain rfl | rfl := hop
      · rw [heq]
        unfold CompOp.holds
        rw [decide_eq_decide, compare_eq_iff_eq]
        exact iff_comm
      · rw [hne]
        unfold CompOp.holds
        rw [decide_eq_decide, ne_eq, compare_eq_iff_eq, not_iff_not]
        exact iff_comm
  have horder : op ≠ .eq ∧ op ≠ .ne → (havingFloat op f g = op.holds (compare a b) ↔
      ¬match count f, count g with
        | some c, some d => op.Splits 0 (b - a) (d - c)
        | _, _ => op.holds (compare a b) = true) := by
    intro hop
    have hshift : ∀ x y : ℤ, compare x y = compare 0 (y - x) := by
      intro x y
      obtain hlt | rfl | hgt := lt_trichotomy x y
      · rw [compare_lt_iff_lt.mpr hlt, compare_lt_iff_lt.mpr (sub_pos.mpr hlt)]
      · rw [sub_self, compare_eq_iff_eq.mpr rfl, compare_eq_iff_eq.mpr rfl]
      · rw [compare_gt_iff_gt.mpr hgt, compare_gt_iff_gt.mpr (sub_neg.mpr hgt)]
    cases hf : count f with
    | none =>
      rw [havingFloat_nan op (.inl hf), Bool.not_eq_true, eq_comm]
    | some c =>
      cases hg : count g with
      | none =>
        rw [havingFloat_nan op (.inr hg), Bool.not_eq_true, eq_comm]
      | some d =>
        rw [havingFloat_order hop hf hg, hshift c d, hshift a b, eq_comm]
        exact op.holds_compare_iff 0 (b - a) (d - c)
  unfold Blurs
  cases op with
  | eq => exact hequal (.inl rfl)
  | ne => exact hequal (.inr rfl)
  | lt => exact horder (by decide)
  | gt => exact horder (by decide)
  | le => exact horder (by decide)
  | ge => exact horder (by decide)

/-- The comparison is that of the true values unless it blurs them. -/
theorem havingHolds_iff (op : CompOp) (v w : Value) :
    havingHolds op v w = TrueValue.meets op v.exact w.exact ↔ ¬Blurred op v.exact w.exact := by
  have hfloat : ∀ l r : TrueValue, (l.units = none → count (single l) = none) →
      (r.units = none → count (single r) = none) →
      (havingFloat op (single l) (single r) = (Option.map₂ compare l.units r.units).any op.holds ↔
        ¬∃ a ∈ l.units, ∃ b ∈ r.units, Blurs op a b (single l) (single r)) := by
    intro l r hl hr
    cases hlu : l.units with
    | none =>
      rw [havingFloat_nan op (.inl (hl hlu))]
      exact iff_of_true rfl (by simp)
    | some a =>
      cases hru : r.units with
      | none =>
        rw [havingFloat_nan op (.inr (hr hru))]
        exact iff_of_true rfl (by simp)
      | some b =>
        rw [Option.map₂_some_some, Option.any_some, havingFloat_iff]
        simp
  have hint : ∀ z : ℤ, (TrueValue.int z).units = none → count (single (.int z)) = none :=
    fun _ h => absurd h (Option.some_ne_none _)
  have hbits : ∀ f : BitVec 32, (TrueValue.float f).units = none → count (single (.float f)) = none := fun _ h => h
  -- a string has no number
  have hapart : ∀ {l r : TrueValue}, l.units = none ∨ r.units = none →
      ¬∃ a ∈ l.units, ∃ b ∈ r.units, Blurs op a b (single l) (single r) := by
    rintro l r hnone ⟨a, ha, b, hb, -⟩
    rcases hnone with hnone | hnone
    · rw [hnone] at ha
      cases ha
    · rw [hnone] at hb
      cases hb
  cases v with
  | int i =>
    cases w with
    | int j =>
      refine iff_of_true ?_ not_false
      rw [Value.exact, Value.exact, TrueValue.meets_int]
      exact (op.holds_compare i j).symm
    | float g =>
      rw [Value.exact, Value.exact, TrueValue.meets_int_float]
      exact hfloat (.int i.toInt) (.float g) (hint i.toInt) (hbits g)
    | str t =>
      refine iff_of_true ?_ (hapart (.inr rfl))
      rw [Value.exact, Value.exact, TrueValue.meets_int_str]
      rfl
  | float f =>
    cases w with
    | int j =>
      rw [Value.exact, Value.exact, TrueValue.meets_float_int]
      exact hfloat (.float f) (.int j.toInt) (hbits f) (hint j.toInt)
    | float g =>
      rw [Value.exact, Value.exact, TrueValue.meets_float]
      exact hfloat (.float f) (.float g) (hbits f) (hbits g)
    | str t =>
      refine iff_of_true ?_ (hapart (.inr rfl))
      rw [Value.exact, Value.exact, TrueValue.meets_float_str]
      rfl
  | str s =>
    cases w with
    | int j => exact iff_of_true rfl (hapart (.inl rfl))
    | float g => exact iff_of_true rfl (hapart (.inl rfl))
    | str t => exact iff_of_true rfl (hapart (.inl rfl))

theorem blurs_congr {op : CompOp} {a b : ℤ} {f f' g g' : Float32} (hf : count f = count f') (hg : count g = count g') :
    Blurs op a b f g ↔ Blurs op a b f' g' := by
  unfold Blurs difference
  rw [hf, hg]

theorem blurred_congr {op : CompOp} {l l' r r' : TrueValue} (hl : l.Same l') (hr : r.Same r') :
    Blurred op l r ↔ Blurred op l' r' := by
  have hfloatLeft : ∀ f r, Blurred op (.float f) r ↔ ∃ a ∈ count (.ofBits ⟨f⟩), ∃ b ∈ r.units,
      Blurs op a b (.ofBits ⟨f⟩) (single r) := by
    intro f r
    cases r with
    | int z => exact Iff.rfl
    | float g => exact Iff.rfl
    | str t => exact Iff.rfl
  have hfloatRight : ∀ l g, Blurred op l (.float g) ↔ ∃ a ∈ l.units, ∃ b ∈ count (.ofBits ⟨g⟩),
      Blurs op a b (single l) (.ofBits ⟨g⟩) := by
    intro l g
    cases l with
    | int z => exact Iff.rfl
    | float f => exact Iff.rfl
    | str s => exact Iff.rfl
  have hleft : Blurred op l r ↔ Blurred op l' r := by
    rcases hl.eq_or with rfl | ⟨f, g, rfl, rfl, hcount⟩
    · exact Iff.rfl
    · rw [hfloatLeft, hfloatLeft, hcount]
      simp only [blurs_congr hcount rfl]
  rw [hleft]
  rcases hr.eq_or with rfl | ⟨f, g, rfl, rfl, hcount⟩
  · exact Iff.rfl
  · rw [hfloatRight, hfloatRight, hcount]
    simp only [blurs_congr rfl hcount]

/-- The column that a name with or without a table stands for; the table may be named by its alias. -/
def meant (tableOf : String → String) (prevCols : List TableCol) (written : TabCol) : Option TabCol :=
  match prevCols.filter fun col =>
    col.name = written.colName ∧ (written.tabName = "" ∨ col.tabName = tableOf written.tabName) with
  | [] => none
  | col :: cols => if cols.all (·.tabName = col.tabName) then some ⟨col.tabName, col.name⟩ else none

instance : DecidableRel Value.Agrees
  | .int i, .int j => inferInstanceAs (Decidable (i = j))
  | .float f, .float g => inferInstanceAs (Decidable (count (.ofBits ⟨f⟩) = count (.ofBits ⟨g⟩)))
  | .str s, .str t => inferInstanceAs (Decidable (unfilled s = unfilled t))
  | .int _, .float _ | .int _, .str _ | .float _, .int _ | .float _, .str _ | .str _, .int _ | .str _, .float _ =>
    .isFalse not_false

/-- A stored value, of a string what the NULs do not fill up. -/
def shown : Value → Value
  | .str s => .str (unfilled s)
  | v => v

def storedValues (rows : List Tuple) (col : TabCol) : Except DbError (List Value) := rows.mapM (storedValue · col)

section
variable (tableOf : String → String) (clause : AggClause) (prevCols : List TableCol) (rows : List Tuple)

/-- A side of a condition for a group with these rows. A column has the value that it has in all of them. -/
def trueSide (side : HavingSide) : Option TrueValue :=
  if side.col = noCol ∧ side.isAgg then
    if side.agg.isCountStar then some (.int rows.length)
    else do
      let col ← meant tableOf prevCols side.agg.col
      let colMeta ← (getCol prevCols col).toOption
      let vals ← (storedValues rows col).toOption
      trueAggregate side.agg.funcType colMeta.type (vals.map shown)
  else if side.col ≠ noCol then do
    let col ← meant tableOf prevCols side.col
    match ← (storedValues rows col).toOption with
    | [] => none
    | v :: vals => if ∀ w ∈ vals, w.Agrees v then some (shown v).exact else none
  else some side.val.exact

def satisfiesCond (cond : HavingCond) : Bool :=
  match trueSide tableOf prevCols rows cond.lhs, trueSide tableOf prevCols rows cond.rhs with
  | some l, some r => TrueValue.meets cond.op l r
  | _, _ => false

def satisfiesHaving : Bool := clause.havingConds.all (satisfiesCond tableOf prevCols rows)

end

/-- The function that an aggregate function of HAVING is taken for. -/
def findAgg (clause : AggClause) (agg : AggFunc) : Option AggFunc :=
  clause.aggFuncs.find? fun f => f.funcType = agg.funcType ∧ f.col.colName = agg.col.colName

/-- The side is a constant; or it is `COUNT(*)` of less than `2 ^ 31` rows; or it is an aggregate function that is in
the select list, first by its kind and name, with the same column, comes out as it is, and is that of the values as they
are stored; or it is a grouping column that is named with its table, its values come back from their text, and no bar
stands in front of them. -/
def Told (stl : Stl) (tableOf : String → String) (clause : AggClause) (prevCols : List TableCol) (rows : List Tuple)
    (side : HavingSide) : Prop :=
  if side.col = noCol ∧ side.isAgg then
    if side.agg.isCountStar then rows.length < 2 ^ 31
    else ∃ f type vals stored, findAgg clause side.agg = some f ∧ meant tableOf prevCols side.agg.col = some f.col ∧
      OverColumn prevCols f type ∧ columnValues rows f.col = .ok vals ∧ f.ComesOut type vals ∧
        storedValues rows f.col = .ok stored ∧
          trueAggregate f.funcType type vals = trueAggregate f.funcType type (stored.map shown)
  else if side.col ≠ noCol then
    side.col ∈ clause.groupByCols ∧ meant tableOf prevCols side.col = some side.col ∧ rows ≠ [] ∧
      ∀ t ∈ rows, ∀ vs, groupValues clause t = .ok vs →
        (∀ entry ∈ (clause.groupByCols.zip vs).takeWhile fun entry => entry.1 ≠ side.col, 124 ∉ keyText stl entry.2) ∧
          ∀ v, storedValue t side.col = .ok v → Survives stl v
  else True

/-- The values of both sides are told, and the comparison does not blur them. -/
def ReadsTrue (stl : Stl) (tableOf : String → String) (clause : AggClause) (prevCols : List TableCol) (rows : List Tuple)
    (cond : HavingCond) : Prop :=
  Told stl tableOf clause prevCols rows cond.lhs ∧ Told stl tableOf clause prevCols rows cond.rhs ∧
    ∀ l ∈ trueSide tableOf prevCols rows cond.lhs, ∀ r ∈ trueSide tableOf prevCols rows cond.rhs, ¬Blurred cond.op l r

variable {stl : Stl} {tableOf : String → String} {clause : AggClause} {prevCols groupCols aggCols : List TableCol}
  {records rows : List Tuple} {side : HavingSide}

/-! ### The values of the functions -/

section
variable {f : AggFunc} {type : ColType} {vals : List Value} {state : AggState} {cell : Value × Float}

theorem exact_count (hkind : f.funcType = .count) (hcount : state.count = .ofNat 32 vals.length)
    (hout : f.Safe vals) :
    some (finalValue state f (f.runCell (.int 0) vals)).exact = trueAggregate .count type vals := by
  have hright := (count_right_iff hkind state hcount _ (.inr rfl)).mpr hout
  unfold AggFunc.Right at hright
  rw [hkind] at hright
  obtain ⟨n, hn, hlength⟩ := hright
  rw [hn]
  exact congrArg (fun z => some (TrueValue.int z)) hlength

theorem exact_intSum (hkind : f.funcType = .sum) (hvals : ∀ v ∈ vals, v.type = .int) (hout : f.Safe vals) :
    some (f.runCell (.int 0) vals).1.exact = trueAggregate .sum .int vals := by
  have hright := (sum_right_iff hkind hvals).mpr hout
  unfold AggFunc.Right at hright
  rw [hkind] at hright
  obtain ⟨n, hn, hsum⟩ := hright
  rw [hn]
  exact congrArg (fun z => some (TrueValue.int z)) hsum

theorem exact_extreme (hkind : f.funcType = .max ∨ f.funcType = .min) (htype : type ≠ .float)
    (hvals : ∀ v ∈ vals, v.type = type) (hne : vals ≠ []) (hout : f.Safe vals) :
    some (f.runCell (startValue type) vals).1.exact = trueAggregate f.funcType type vals := by
  have htypes : type = .int ∨ type = .string := by
    cases type with
    | int => exact .inl rfl
    | float => exact absurd rfl htype
    | string => exact .inr rfl
  have hright := (extreme_right_iff hkind htypes hvals hne).mpr hout
  unfold AggFunc.Right at hright
  unfold trueAggregate
  cases hkind with
  | inl hmax =>
    rw [hmax] at hright ⊢
    have hfirst := firstOf_eq (fun v w hv hw => atMost_antisymm htype (hvals v hv) (hvals w hw)) hright
    exact congrArg (Option.map Value.exact) hfirst.symm
  | inr hmin =>
    rw [hmin] at hright ⊢
    have hfirst := firstOf_eq (fun v w hv hw hvw hwv => atMost_antisymm htype (hvals v hv) (hvals w hw) hwv hvw) hright
    exact congrArg (Option.map Value.exact) hfirst.symm

theorem exact_floatExtreme (hkind : f.funcType = .max ∨ f.funcType = .min) (hvals : ∀ v ∈ vals, v.IsFloat)
    (hne : vals ≠ []) (hlength : vals.length ≤ 2 ^ 32) :
    some (f.runCell (.float 0) vals).1.exact = trueAggregate f.funcType .float vals := by
  unfold trueAggregate
  cases hkind with
  | inl hmax =>
    rw [hmax]
    exact congrArg (Option.map Value.exact) ((keepsFirst_max hmax).runCell hvals hne hlength).symm
  | inr hmin =>
    rw [hmin]
    exact congrArg (Option.map Value.exact) ((keepsFirst_min hmin).runCell hvals hne hlength).symm

theorem exact_avg (hkind : f.funcType = .avg) {init : Value} (htype : type ≠ .string)
    (hvals : ∀ v ∈ vals, v.type = type) (hne : vals ≠ []) (hlength : vals.length < 2 ^ 31)
    (hcount : state.count = .ofNat 32 vals.length) :
    some (finalValue state f (f.runCell init vals)).exact = trueAggregate .avg type vals := by
  have hstar : ¬f.isCountStar := fun hstar => nomatch hkind.symm.trans (of_decide_eq_true hstar).1
  have htoInt : state.count.toInt = vals.length := by
    rw [hcount, toInt_ofNat_eq_iff le_rfl]
    exact ⟨hlength, rfl⟩
  have hpos : 0 < state.count.toInt := by
    rw [htoInt]
    exact_mod_cast List.length_pos_iff.mpr hne
  unfold finalValue trueAggregate
  rw [if_neg hstar, if_pos ⟨hkind, hpos⟩, htoInt, runCell_avg hkind fun v hv => (hvals v hv).symm ▸ htype]
  cases type with
  | int => exact (if_neg hne).symm
  | float => exact (if_neg hne).symm
  | string => exact absurd rfl htype

theorem not_isCountStar (hover : OverColumn prevCols f type) : ¬f.isCountStar := by
  intro hstar
  have hcol : f.col = noCol := (of_decide_eq_true hstar).2
  exact hover.1 (congrArg TabCol.colName hcol)

theorem comesOut_extreme (hkind : f.funcType = .max ∨ f.funcType = .min) (hout : f.ComesOut type vals) :
    vals ≠ [] ∧ if type = .float then vals.length ≤ 2 ^ 32 ∧ ∀ v ∈ vals, ¬v.IsNaN else f.Safe vals := by
  have hsafe : f.Safe vals → vals ≠ [] := by
    intro hsafe hnil
    subst hnil
    unfold AggFunc.Safe at hsafe
    obtain hkind | hkind := hkind <;>
    · rw [hkind] at hsafe
      obtain ⟨u, hu, -⟩ := hsafe
      exact List.not_mem_nil (mem_of_mem_standing hu)
  unfold AggFunc.ComesOut at hout
  obtain hkind | hkind := hkind <;>
  · rw [hkind] at hout
    cases type with
    | int => exact ⟨hsafe hout, hout⟩
    | float => exact hout
    | string => exact ⟨hsafe hout, hout⟩

/-- The value of a function that comes out as it is. -/
theorem Accumulated.exact (h : Accumulated clause prevCols rows state) (hne : rows ≠ [])
    (hshape : ∀ t ∈ rows, t.map Prod.fst = prevCols) {i : ℕ} (hf : clause.aggFuncs[i]? = some f)
    (hcell : state.aggValues[i]? = some cell) (hover : OverColumn prevCols f type)
    (hvals : columnValues rows f.col = .ok vals) (hout : f.ComesOut type vals) :
    some (finalValue state f cell).exact = trueAggregate f.funcType type vals := by
  have hstar := not_isCountStar hover
  obtain ⟨init, vals', hinit, hvals', rfl⟩ := (h.cellOf hne hf hcell).resolve_left hstar
  rw [hvals] at hvals'
  cases hvals'
  have hcount : state.count = .ofNat 32 vals.length := by
    rw [length_columnValues hvals]
    exact h.count
  have hvalsNe : vals ≠ [] := by
    rw [← List.length_pos_iff, length_columnValues hvals]
    exact List.length_pos_iff.mpr hne
  have htyped : ∀ v ∈ vals, v.type = type := by
    obtain ⟨vals', hvals', htypes⟩ := hover.columnValues hshape
    rw [hvals] at hvals'
    cases hvals'
    exact htypes
  have hextreme : f.funcType = .max ∨ f.funcType = .min →
      some (f.runCell init vals).1.exact = trueAggregate f.funcType type vals := by
    intro hkind
    have hcases := (comesOut_extreme hkind hout).2
    rw [hover.initValue hinit (hkind.imp_right .inl)]
    by_cases htype : type = .float
    · subst htype
      rw [if_pos rfl] at hcases
      exact exact_floatExtreme hkind (fun v hv => ⟨htyped v hv, hcases.2 v hv⟩) hvalsNe hcases.1
    · rw [if_neg htype] at hcases
      exact exact_extreme hkind htype htyped hvalsNe hcases
  unfold AggFunc.ComesOut at hout
  cases hkind : f.funcType with
  | count =>
    rw [initValue_count hkind, Except.ok.injEq] at hinit
    rw [hkind] at hout
    rw [← hinit]
    exact exact_count hkind hcount hout
  | max =>
    rw [finalValue_cell hstar (by simp [hkind]), ← hkind]
    exact hextreme (.inl hkind)
  | min =>
    rw [finalValue_cell hstar (by simp [hkind]), ← hkind]
    exact hextreme (.inr hkind)
  | sum =>
    rw [hkind] at hout
    rw [finalValue_cell hstar (by simp [hkind]), hover.initValue hinit (.inr (.inr hkind))]
    cases type with
    | int => exact exact_intSum hkind htyped hout
    | float =>
      unfold startValue trueAggregate
      rw [runCell_floatSum hkind htyped, if_neg hvalsNe, if_neg hvalsNe]
      rfl
    | string => exact hout.elim
  | avg =>
    rw [hkind] at hout
    cases type with
    | int => exact exact_avg hkind nofun htyped hvalsNe hout.2 hcount
    | float => exact exact_avg hkind nofun htyped hvalsNe hout.2 hcount
    | string => exact hout.elim

/-- The same of the group without rows. -/
theorem empty_exact (hover : OverColumn prevCols f type) (hout : f.ComesOut type []) :
    some (finalValue (emptyState clause) f (if f.funcType = .avg then .float 0 else .int 0, 0)).exact =
      trueAggregate f.funcType type [] := by
  have hstar := not_isCountStar hover
  have hextreme : ¬(f.funcType = .max ∨ f.funcType = .min) := fun hkind => (comesOut_extreme hkind hout).1 rfl
  unfold AggFunc.ComesOut at hout
  cases hkind : f.funcType with
  | count =>
    rw [finalValue_cell hstar (by simp [hkind])]
    rfl
  | max => exact absurd (.inl hkind) hextreme
  | min => exact absurd (.inr hkind) hextreme
  | sum =>
    rw [hkind] at hout
    rw [finalValue_cell hstar (by simp [hkind])]
    cases type with
    | int => rfl
    | float => rfl
    | string => exact hout.elim
  | avg =>
    rw [hkind] at hout
    cases type with
    | int => exact absurd rfl hout.1
    | float => exact absurd rfl hout.1
    | string => exact hout.elim

end

/-! ### A group and its result -/

section
variable {groups : List (Bytes × AggState)} {group : Bytes × AggState} {result : AggResult}

theorem result_count (hfed : Fed clause prevCols groupCols aggCols records)
    (hgroups : groupStates stl clause prevCols records = .ok groups) (hgroup : group ∈ groups)
    (hresult : computeResult stl clause groupCols group = .ok result) :
    result.count = .ofNat 32 (groupRows stl clause records group.1).length := by
  rw [(computeResult_ok hresult).2.2]
  cases groupStates_cases hfed hgroups hgroup with
  | inl hempty =>
    rw [hempty.2, hempty.1]
    rfl
  | inr hrows => exact hrows.1.count

theorem aggValue_exact (hfed : Fed clause prevCols groupCols aggCols records)
    (hgroups : groupStates stl clause prevCols records = .ok groups) (hgroup : group ∈ groups)
    (hresult : computeResult stl clause groupCols group = .ok result) {i : ℕ} {f : AggFunc} {v : Value} {type : ColType}
    {vals : List Value} (hf : clause.aggFuncs[i]? = some f) (hv : result.aggValues[i]? = some v)
    (hover : OverColumn prevCols f type)
    (hvals : columnValues (groupRows stl clause records group.1) f.col = .ok vals) (hout : f.ComesOut type vals) :
    some v.exact = trueAggregate f.funcType type vals := by
  obtain ⟨cell, hcell, rfl⟩ := computeResult_aggValues hresult hf hv
  cases groupStates_cases hfed hgroups hgroup with
  | inl hempty =>
    rw [hempty.2] at hvals
    cases hvals
    rw [hempty.1] at hcell ⊢
    rw [getElem?_emptyState hf] at hcell
    cases hcell
    exact empty_exact hover hout
  | inr hrows => exact hrows.1.exact hrows.2.1 hrows.2.2 hf hcell hover hvals hout

/-! ### The sides of a condition -/

theorem find?_zip {α β : Type*} {p : α → Bool} {as : List α} {bs : List β} {a : α} (hlength : as.length ≤ bs.length)
    (h : as.find? p = some a) :
    ∃ (i : ℕ) (b : β), as[i]? = some a ∧ bs[i]? = some b ∧ (as.zip bs).find? (fun entry => p entry.1) = some (a, b) := by
  induction as generalizing bs with
  | nil => cases h
  | cons first as ih =>
    cases bs with
    | nil => exact absurd hlength (by simp)
    | cons b bs =>
      cases hp : p first with
      | true =>
        rw [List.find?_cons_of_pos hp] at h
        cases h
        exact ⟨0, b, rfl, rfl, List.find?_cons_of_pos hp⟩
      | false =>
        rw [List.find?_cons_of_neg (by simp [hp])] at h
        obtain ⟨i, b', ha, hb, hfind⟩ := ih (Nat.le_of_succ_le_succ hlength) h
        refine ⟨i + 1, b', ha, hb, ?_⟩
        rw [List.zip_cons_cons, List.find?_cons_of_neg (by simp [hp])]
        exact hfind

theorem Told.agg_exact (htold : Told stl tableOf clause prevCols (groupRows stl clause records group.1) side)
    (hagg : side.col = noCol ∧ side.isAgg) (hfed : Fed clause prevCols groupCols aggCols records)
    (hgroups : groupStates stl clause prevCols records = .ok groups) (hgroup : group ∈ groups)
    (hresult : computeResult stl clause groupCols group = .ok result) :
    trueSide tableOf prevCols (groupRows stl clause records group.1) side =
      some (havingValue clause result side).exact := by
  unfold Told at htold
  unfold havingValue trueSide
  rw [if_pos hagg] at htold ⊢
  rw [if_pos hagg]
  by_cases hstar : side.agg.isCountStar
  · rw [if_pos hstar] at htold ⊢
    rw [if_pos hstar, result_count hfed hgroups hgroup hresult]
    exact congrArg (fun z => some (TrueValue.int z)) ((toInt_ofNat_eq_iff le_rfl).mpr ⟨htold, rfl⟩).symm
  · rw [if_neg hstar] at htold ⊢
    obtain ⟨f, type, vals, stored, hfind, hmeant, hover, hvals, hout, hstored, hsame⟩ := htold
    obtain ⟨i, v, hf, hv, hzip⟩ := find?_zip (length_aggValues hfed hgroups hgroup hresult).ge hfind
    have hkind : f.funcType = side.agg.funcType :=
      (of_decide_eq_true (List.find?_some (p := fun f : AggFunc =>
        f.funcType = side.agg.funcType ∧ f.col.colName = side.agg.col.colName) hfind)).1
    obtain ⟨col, hcol, htype⟩ := hover.2
    rw [hzip, if_neg hstar, hmeant]
    change ((getCol prevCols f.col).toOption >>= fun colMeta =>
      (storedValues (groupRows stl clause records group.1) f.col).toOption >>= fun vals =>
        trueAggregate side.agg.funcType colMeta.type (vals.map shown)) = _
    rw [hcol, hstored, ← hkind]
    change trueAggregate f.funcType col.type (stored.map shown) = _
    rw [htype, ← hsame]
    exact (aggValue_exact hfed hgroups hgroup hresult hf hv hover hvals hout).symm

/-- What is read back of a value that survives. -/
theorem parseToken_shown {v w : Value} (hv : Survives stl v) (hw : parseToken stl v.type (keyText stl v) = .ok w)
    (hstl : stl.PrintsFloats) : w.Agrees v ∧ w.exact.Same (shown v).exact := by
  obtain ⟨w', hw', hagrees⟩ := (parseToken_agrees_iff (bar_not_mem_keyText hstl hv)).mpr hv
  rw [hw] at hw'
  cases hw'
  refine ⟨hagrees, ?_⟩
  cases v with
  | int i =>
    cases w with
    | int j => exact congrArg (fun i : BitVec 32 => TrueValue.int i.toInt) hagrees
    | float g => exact hagrees.elim
    | str t => exact hagrees.elim
  | float f =>
    cases w with
    | int j => exact hagrees.elim
    | float g => exact hagrees
    | str t => exact hagrees.elim
  | str s =>
    cases hw
    exact congrArg TrueValue.str ((trimString_eq_iff s).mpr hv.2)

/-- The value of a grouping column is found among those read back, if nothing in front of it breaks the text up. -/
theorem find_parseKey (hstl : stl.PrintsFloats) {targets : List TabCol} {cols : List TableCol} {vs ws : List Value}
    {target : TabCol} {v : Value} (htypes : cols.map (·.type) = vs.map Value.type)
    (hfind : (targets.zip vs).find? (fun entry => entry.1 = target) = some (target, v))
    (hfront : ∀ entry ∈ (targets.zip vs).takeWhile fun entry => entry.1 ≠ target, 124 ∉ keyText stl entry.2)
    (hv : Survives stl v) (hparse : parseKey stl cols (rowKey stl vs) = .ok ws) :
    ∃ w, (targets.zip ws).find? (fun entry => entry.1 = target) = some (target, w) ∧
      parseToken stl v.type (keyText stl v) = .ok w := by
  induction vs generalizing targets cols ws with
  | nil =>
    rw [List.zip_nil_right] at hfind
    cases hfind
  | cons u vs ih =>
    cases targets with
    | nil => cases hfind
    | cons first targets =>
      cases cols with
      | nil => cases htypes
      | cons col cols =>
        obtain ⟨htype, htypes⟩ := List.cons.inj htypes
        have htype : col.type = u.type := htype
        rw [List.zip_cons_cons] at hfind hfront
        rw [rowKey_cons] at hparse
        by_cases hfirst : first = target
        · rw [List.find?_cons_of_pos (by simpa using hfirst)] at hfind
          cases hfind
          rw [parseKey_cons col cols (bar_not_mem_keyText hstl hv)] at hparse
          obtain ⟨w, hw, hparse⟩ := bind_eq_ok.mp hparse
          obtain ⟨ws', -, hend⟩ := bind_eq_ok.mp hparse
          cases hend
          rw [htype] at hw
          exact ⟨w, List.find?_cons_of_pos (by simp), hw⟩
        · rw [List.find?_cons_of_neg (by simpa using hfirst)] at hfind
          rw [List.takeWhile_cons_of_pos (by simpa using hfirst)] at hfront
          obtain ⟨hbar, hfront⟩ := List.forall_mem_cons.mp hfront
          rw [parseKey_cons col cols hbar] at hparse
          obtain ⟨w', -, hparse⟩ := bind_eq_ok.mp hparse
          obtain ⟨ws', hws', hend⟩ := bind_eq_ok.mp hparse
          cases hend
          obtain ⟨w, hw, htoken⟩ := ih htypes hfind hfront hws'
          refine ⟨w, ?_, htoken⟩
          rw [List.zip_cons_cons, List.find?_cons_of_neg (by simpa using hfirst)]
          exact hw

/-- The value shown for a group in a grouping column is that of each of its rows. -/
theorem Told.exists_value (hmem : side.col ∈ clause.groupByCols)
    (hreads : ∀ t ∈ groupRows stl clause records group.1, ∀ vs, groupValues clause t = .ok vs →
      (∀ entry ∈ (clause.groupByCols.zip vs).takeWhile fun entry => entry.1 ≠ side.col, 124 ∉ keyText stl entry.2) ∧
        ∀ v, storedValue t side.col = .ok v → Survives stl v)
    (hstl : stl.PrintsFloats) (hfed : Fed clause prevCols groupCols aggCols records)
    (hresult : computeResult stl clause groupCols group = .ok result) {t : Tuple}
    (ht : t ∈ groupRows stl clause records group.1) :
    ∃ v w, storedValue t side.col = .ok v ∧ w.Agrees v ∧ w.exact.Same (shown v).exact ∧
      (clause.groupByCols.zip result.groupKey).find? (fun entry => entry.1 = side.col) = some (side.col, w) := by
  obtain ⟨hrow, hkey⟩ := Grouping.mem_members.mp ht
  obtain ⟨vs, hvs, htypes⟩ := hfed.groupValues hrow
  have hgroupBy := List.ne_nil_of_mem hmem
  rw [getGroupKey_eq hgroupBy hfed.named hvs, Except.ok.injEq] at hkey
  have hcols := mt (groupCols_eq_nil_iff hfed.built).mp hgroupBy
  have hparse := (computeResult_ok hresult).1.resolve_left hcols
  rw [← hkey] at hparse
  have hfind : clause.groupByCols.find? (fun col => col = side.col) = some side.col := by
    cases hfound : clause.groupByCols.find? (fun col => col = side.col) with
    | none => exact absurd (decide_eq_true rfl) (List.find?_eq_none.mp hfound side.col hmem)
    | some col => exact congrArg some (of_decide_eq_true (List.find?_some (p := fun col => col = side.col) hfound))
  obtain ⟨i, v, hcolAt, hvalAt, hzip⟩ := find?_zip (mapM_eq_ok_iff.mp hvs).length_eq.le hfind
  have hstored : storedValue t side.col = .ok v := of_getElem?_mapM hvs hcolAt hvalAt
  obtain ⟨hfront, hsurvives⟩ := hreads t ht vs hvs
  obtain ⟨w, hw, htoken⟩ := find_parseKey hstl htypes hzip hfront (hsurvives v hstored) hparse
  obtain ⟨hagrees, hsame⟩ := parseToken_shown (hsurvives v hstored) htoken hstl
  exact ⟨v, w, hstored, hagrees, hsame, hw⟩

theorem Told.col_exact (htold : Told stl tableOf clause prevCols (groupRows stl clause records group.1) side)
    (hagg : ¬(side.col = noCol ∧ side.isAgg)) (hcol : side.col ≠ noCol) (hstl : stl.PrintsFloats)
    (hfed : Fed clause prevCols groupCols aggCols records)
    (hresult : computeResult stl clause groupCols group = .ok result) :
    ∃ m, trueSide tableOf prevCols (groupRows stl clause records group.1) side = some m ∧
      (havingValue clause result side).exact.Same m := by
  unfold Told at htold
  unfold havingValue trueSide
  rw [if_neg hagg, if_pos hcol] at htold ⊢
  rw [if_neg hagg, if_pos hcol]
  obtain ⟨hmem, hmeant, hne, hreads⟩ := htold
  have hvalue := fun t ht => Told.exists_value (t := t) hmem hreads hstl hfed hresult ht
  obtain ⟨first, hfirst⟩ := List.exists_mem_of_ne_nil _ hne
  obtain ⟨-, w, -, -, -, hw⟩ := hvalue first hfirst
  obtain ⟨vals, hvals⟩ : ∃ vals, storedValues (groupRows stl clause records group.1) side.col = .ok vals :=
    exists_mapM fun t ht => by
      obtain ⟨v, -, hv, -⟩ := hvalue t ht
      exact ⟨v, hv⟩
  have hall : ∀ v ∈ vals, w.Agrees v ∧ w.exact.Same (shown v).exact := by
    intro v hv
    obtain ⟨t, ht, hstored⟩ := of_mem_mapM hvals hv
    obtain ⟨v', w', hv', hagrees, hsame, hw'⟩ := hvalue t ht
    rw [hstored] at hv'
    rw [hw] at hw'
    cases hv'
    cases hw'
    exact ⟨hagrees, hsame⟩
  rw [hw, hmeant]
  change ∃ m, ((storedValues (groupRows stl clause records group.1) side.col).toOption >>= _) = some m ∧ _
  rw [hvals]
  cases vals with
  | nil =>
    have hlength := (mapM_eq_ok_iff.mp hvals).length_eq
    exact absurd (List.length_eq_zero_iff.mp hlength) hne
  | cons v vals =>
    obtain ⟨hv, hrest⟩ := List.forall_mem_cons.mp hall
    refine ⟨(shown v).exact, ?_, hv.2⟩
    change (if ∀ w ∈ vals, w.Agrees v then some (shown v).exact else none) = _
    exact if_pos fun u hu => (hrest u hu).1.symm.trans hv.1

section
variable (hstl : stl.PrintsFloats) (hfed : Fed clause prevCols groupCols aggCols records)
  (hgroups : groupStates stl clause prevCols records = .ok groups) (hgroup : group ∈ groups)
  (hresult : computeResult stl clause groupCols group = .ok result)
include hstl hfed hgroups hgroup hresult

theorem Told.exact (htold : Told stl tableOf clause prevCols (groupRows stl clause records group.1) side) :
    ∃ m, trueSide tableOf prevCols (groupRows stl clause records group.1) side = some m ∧
      (havingValue clause result side).exact.Same m := by
  by_cases hagg : side.col = noCol ∧ side.isAgg
  · exact ⟨_, htold.agg_exact hagg hfed hgroups hgroup hresult, .refl _⟩
  · by_cases hcol : side.col = noCol
    · unfold havingValue trueSide
      rw [if_neg hagg, if_neg (not_not_intro hcol), if_neg hagg, if_neg (not_not_intro hcol)]
      exact ⟨_, rfl, .refl _⟩
    · exact htold.col_exact hagg hcol hstl hfed hresult

/-- A condition that is read right is judged by the true values. -/
theorem ReadsTrue.holds {cond : HavingCond}
    (h : ReadsTrue stl tableOf clause prevCols (groupRows stl clause records group.1) cond) :
    havingHolds cond.op (havingValue clause result cond.lhs) (havingValue clause result cond.rhs) =
      satisfiesCond tableOf prevCols (groupRows stl clause records group.1) cond := by
  obtain ⟨hlhs, hrhs, hblurred⟩ := h
  obtain ⟨l, hl, hlsame⟩ := hlhs.exact hstl hfed hgroups hgroup hresult
  obtain ⟨r, hr, hrsame⟩ := hrhs.exact hstl hfed hgroups hgroup hresult
  unfold satisfiesCond
  rw [hl, hr]
  dsimp only
  rw [← hlsame.meets hrsame, havingHolds_iff, blurred_congr hlsame hrsame]
  exact hblurred l hl r hr

end

end

/-- Integers and strings are compared as they are. -/
theorem havingHolds_eq (op : CompOp) {v w : Value} (hv : v.type ≠ .float) (hw : w.type ≠ .float) :
    havingHolds op v w = TrueValue.meets op v.exact w.exact := by
  rw [havingHolds_iff]
  cases v with
  | float f => exact absurd rfl hv
  | int i =>
    cases w with
    | int j => exact not_false
    | float g => exact absurd rfl hw
    | str t =>
      rintro ⟨-, -, b, hb, -⟩
      cases hb
  | str s =>
    rintro ⟨a, ha, -⟩
    cases ha

/-- Beside values that are no floats, a value that is none either answers all comparisons as the true one does only if it
is that one. -/
theorem tells_iff {v : Value} {m : TrueValue} (hv : v.type ≠ .float) (hm : ∀ f, m ≠ .float f) :
    (∀ op w, w.type ≠ .float → havingHolds op v w = TrueValue.meets op m w.exact) ↔ v.exact = m := by
  constructor
  · intro h
    have hequal := (havingHolds_eq .eq hv hv).symm.trans (h .eq v hv)
    cases v with
    | float f => exact absurd rfl hv
    | int i =>
      have hself : CompOp.eq.holds (compare i.toInt i.toInt) = true := decide_eq_true Std.ReflCmp.compare_self
      rw [Value.exact, TrueValue.meets_int, hself] at hequal
      cases m with
      | int z =>
        rw [TrueValue.meets_int] at hequal
        exact congrArg TrueValue.int (compare_eq_iff_eq.mp (of_decide_eq_true hequal.symm)).symm
      | float f => exact absurd rfl (hm f)
      | str s => cases hequal
    | str s =>
      have hself : CompOp.eq.holds (compare s s) = true := decide_eq_true Std.ReflCmp.compare_self
      have hsame : TrueValue.meets .eq m (.str s) = true := hequal.symm.trans hself
      cases m with
      | int z => cases hsame
      | float f => exact absurd rfl (hm f)
      | str t => exact congrArg TrueValue.str (Std.LawfulEqCmp.eq_of_compare (of_decide_eq_true hsame)).symm
  · intro hexact op w hw
    rw [← hexact, havingHolds_eq op hv hw]

/-- `HAVING agg op v`. -/
def comparing (clause : AggClause) (agg : AggFunc) (op : CompOp) (v : Value) : AggClause :=
  { clause with havingConds := [⟨⟨noCol, true, agg, .int 0⟩, op, ⟨noCol, false, agg, v⟩⟩] }

/-- An aggregate function that is not in the select list counts as zero: all its comparisons with integers and strings come
out right only if it is zero. -/
theorem unfound_right_iff {agg : AggFunc} (hfind : findAgg clause agg = none) (hstar : ¬agg.isCountStar)
    (havg : agg.funcType ≠ .avg) {m : TrueValue} (htrue : trueSide tableOf prevCols rows ⟨noCol, true, agg, .int 0⟩ = some m)
    (hm : ∀ f, m ≠ .float f) (result : AggResult) :
    (∀ op v, v.type ≠ .float → evaluateHaving (comparing clause agg op v) result =
      satisfiesHaving tableOf (comparing clause agg op v) prevCols rows) ↔ m = .int 0 := by
  have hzero : havingValue clause result ⟨noCol, true, agg, .int 0⟩ = .int 0 := by
    have hzip : (clause.aggFuncs.zip result.aggValues).find? (fun entry =>
        entry.1.funcType = agg.funcType ∧ entry.1.col.colName = agg.col.colName) = none := by
      refine List.find?_eq_none.mpr fun entry hentry => ?_
      exact List.find?_eq_none.mp hfind entry.1 (List.of_mem_zip hentry).1
    unfold havingValue
    rw [if_pos ⟨rfl, rfl⟩, if_neg hstar, hzip, if_neg havg]
  have hverdict : ∀ op v, (evaluateHaving (comparing clause agg op v) result =
      satisfiesHaving tableOf (comparing clause agg op v) prevCols rows) ↔
        havingHolds op (.int 0) v = TrueValue.meets op m v.exact := by
    intro op v
    have hcode : evaluateHaving (comparing clause agg op v) result = havingHolds op (.int 0) v := by
      rw [← hzero]
      exact Bool.and_true _
    have htruth : satisfiesHaving tableOf (comparing clause agg op v) prevCols rows = TrueValue.meets op m v.exact := by
      change ((match trueSide tableOf prevCols rows ⟨noCol, true, agg, .int 0⟩, some v.exact with
        | some l, some r => TrueValue.meets op l r
        | _, _ => false) && true) = _
      rw [htrue]
      exact Bool.and_true _
    rw [hcode, htruth]
  rw [forall₂_congr fun op v => imp_congr_right fun _ => hverdict op v, tells_iff (by decide) hm, eq_comm]
  rfl

end AggregationExecutor
end Rmdb
