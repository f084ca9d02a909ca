import Mathlib.Data.Int.Notation
import Mathlib.Tactic.Common
import Rmdb.Common.Defs

/-! `ix_compare`: the order of index keys, column by column. Integers and floats are read
from the key's bytes; strings compare like `strncmp`. The order is total and transitive on
keys none of whose float columns is a NaN. -/
namespace Rmdb

/-- The bits of a `float` as a signed magnitude; both zeros give `0`. -/
def floatMagnitude (w : BitVec 32) : ℤ :=
  if w.msb then -((w.toNat : ℤ) - 2147483648) else w.toNat

def floatIsNaN (w : BitVec 32) : Bool := 2139095040 < w.toNat % 2147483648

/-- `(fa < fb) ? -1 : ((fa > fb) ? 1 : 0)`; a NaN is neither below nor above anything. -/
def floatCompare (a b : BitVec 32) : Ordering :=
  if floatIsNaN a || floatIsNaN b then .eq else compare (floatMagnitude a) (floatMagnitude b)

/-- Unsigned bytes up to the first difference, the first NUL or `n` bytes. -/
def strncmp (a b : Bytes) : ℕ → Ordering
  | 0 => .eq
  | n + 1 =>
    if a.headD 0 = b.headD 0 then
      if a.headD 0 = 0 then .eq else strncmp a.tail b.tail n
    else compare (a.headD 0) (b.headD 0)

theorem strncmp_append {a b : Bytes} (x y : Bytes) {n : ℕ} (ha : n ≤ a.length) (hb : n ≤ b.length) :
    strncmp (a ++ x) (b ++ y) n = strncmp a b n := by
  induction n generalizing a b with
  | zero => rfl
  | succ n ih =>
    cases a with
    | nil => simp at ha
    | cons c a =>
      cases b with
      | nil => simp at hb
      | cons d b =>
        simp only [List.length_cons, Nat.add_le_add_iff_right] at ha hb
        change (if c = d then if c = 0 then _ else strncmp (a ++ x) (b ++ y) n else _) = _
        rw [ih ha hb]
        rfl

def ixCompareCol (type : ColType) (colLen : ℕ) (a b : Bytes) : Ordering :=
  match type with
  | .int => compare (readWord a).toInt (readWord b).toInt
  | .float => floatCompare (readWord a) (readWord b)
  | .string => strncmp a b colLen

/-- A column is compared without what follows it. -/
theorem ixCompareCol_append {type : ColType} {colLen : ℕ} {a b : Bytes} (x y : Bytes) (ha : a.length = colLen)
    (hb : b.length = colLen) (hlen : type ≠ .string → colLen = 4) :
    ixCompareCol type colLen (a ++ x) (b ++ y) = ixCompareCol type colLen a b := by
  cases type with
  | int =>
    have hfour := hlen nofun
    simp only [ixCompareCol, readWord_append x (by omega : 4 ≤ a.length), readWord_append y (by omega : 4 ≤ b.length)]
  | float =>
    have hfour := hlen nofun
    simp only [ixCompareCol, readWord_append x (by omega : 4 ≤ a.length), readWord_append y (by omega : 4 ≤ b.length)]
  | string => exact strncmp_append x y (by omega) (by omega)

/-- The columns of an index with their types and lengths. -/
abbrev IxCols := List (ColType × ℕ)

def ixCompare : IxCols → Bytes → Bytes → Ordering
  | [], _, _ => .eq
  | (type, len) :: cols, a, b =>
    (ixCompareCol type len a b).then (ixCompare cols (a.drop len) (b.drop len))

/-- No float column of the key holds a NaN. -/
def NaNFree : IxCols → Bytes → Prop
  | [], _ => True
  | (type, len) :: cols, a =>
    (type = .float → floatIsNaN (readWord a) = false) ∧ NaNFree cols (a.drop len)

section transOn
variable {α : Type*} {P Q : α → Prop} {c d : α → α → Ordering}

/-- A comparison that is antisymmetric and transitive where `P` holds. -/
structure TransOn (P : α → Prop) (c : α → α → Ordering) : Prop where
  swap : ∀ a b, P a → P b → c a b = (c b a).swap
  trans : ∀ a b e, P a → P b → P e → (c a b).isLE → (c b e).isLE → (c a e).isLE

theorem TransOn.then (hc : TransOn P c) (hd : TransOn Q d) :
    TransOn (fun a => P a ∧ Q a) fun a b => (c a b).then (d a b) where
  swap a b ha hb := by rw [hc.swap a b ha.1 hb.1, hd.swap a b ha.2 hb.2, Ordering.swap_then]
  trans a b e ha hb he hab hbe := by
    have hae := hc.trans a b e ha.1 hb.1 he.1
    have hba := hc.trans b e a hb.1 he.1 ha.1
    have heb := hc.trans e a b he.1 ha.1 hb.1
    have hd' := hd.trans a b e ha.2 hb.2 he.2
    rw [hc.swap e a he.1 ha.1, hc.swap b a hb.1 ha.1] at hba
    rw [hc.swap e a he.1 ha.1, hc.swap e b he.1 hb.1] at heb
    revert hab hbe hae hba heb hd'
    cases c a b <;> cases c b e <;> cases c a e <;> simp +contextual

theorem TransOn.of_compare {β : Type*} [Ord β] [Std.TransOrd β] (f : α → β) :
    TransOn P fun a b => compare (f a) (f b) where
  swap _ _ _ _ := Std.OrientedCmp.eq_swap
  trans _ _ _ _ _ _ hab hbe := Std.TransCmp.isLE_trans hab hbe

theorem TransOn.congr (hc : TransOn P c) (h : ∀ a b, P a → P b → d a b = c a b) : TransOn P d where
  swap a b ha hb := by rw [h a b ha hb, h b a hb ha, hc.swap a b ha hb]
  trans a b e ha hb he := by
    rw [h a b ha hb, h b e hb he, h a e ha he]
    exact hc.trans a b e ha hb he

/-- The comparison with its two sides exchanged. -/
theorem TransOn.swapped (hc : TransOn P c) : TransOn P fun a b => (c a b).swap := by
  have hflip : TransOn P fun a b => c b a :=
    ⟨fun a b ha hb => hc.swap b a hb ha, fun a b e ha hb he hab hbe => hc.trans e b a he hb ha hbe hab⟩
  exact hflip.congr fun a b ha hb => (hc.swap b a hb ha).symm

theorem TransOn.mono (hc : TransOn P c) (h : ∀ a, Q a → P a) : TransOn Q c where
  swap a b ha hb := hc.swap a b (h a ha) (h b hb)
  trans a b e ha hb he := hc.trans a b e (h a ha) (h b hb) (h e he)

theorem TransOn.comap {β : Type*} {P : β → Prop} {c : β → β → Ordering} (h : TransOn P c) (f : α → β) :
    TransOn (fun a => P (f a)) fun a b => c (f a) (f b) :=
  ⟨fun a b => h.swap (f a) (f b), fun a b e => h.trans (f a) (f b) (f e)⟩

theorem TransOn.lt_of_le_of_lt (h : TransOn P c) {x y z : α} (hx : P x) (hy : P y) (hz : P z) (hxy : (c x y).isLE)
    (hyz : c y z = .lt) : c x z = .lt := by
  by_contra hxz
  have hle : (c z x).isLE := by
    rw [h.swap z x hz hx]
    cases hc : c x z with
    | lt => exact absurd hc hxz
    | eq => rfl
    | gt => rfl
  have hzy := h.trans z x y hz hx hy hle hxy
  rw [h.swap z y hz hy, hyz] at hzy
  cases hzy

/-- Restricted to the keys it is transitive on, the comparison is a total preorder. -/
theorem TransOn.transCmp (h : TransOn P c) : Std.TransCmp fun a b : Subtype P => c a b where
  eq_swap {a b} := h.swap a b a.2 b.2
  isLE_trans {a b e} hab hbe := h.trans a b e a.2 b.2 e.2 hab hbe

end transOn

private theorem strncmp_swap (a b : Bytes) (n : ℕ) : strncmp a b n = (strncmp b a n).swap := by
  induction n generalizing a b with
  | zero => rfl
  | succ n ih =>
    unfold strncmp
    by_cases h : a.headD 0 = b.headD 0
    · rw [if_pos h, if_pos h.symm, h]
      split
      · rfl
      · exact ih _ _
    · rw [if_neg h, if_neg (Ne.symm h)]
      exact Std.OrientedCmp.eq_swap

private theorem strncmp_trans (a b e : Bytes) (n : ℕ) (hab : (strncmp a b n).isLE)
    (hbe : (strncmp b e n).isLE) : (strncmp a e n).isLE := by
  induction n generalizing a b e with
  | zero => rfl
  | succ n ih =>
    unfold strncmp at hab hbe ⊢
    by_cases h₁ : a.headD 0 = b.headD 0 <;> by_cases h₂ : b.headD 0 = e.headD 0
    · rw [if_pos h₁] at hab
      rw [if_pos h₂, ← h₁] at hbe
      rw [if_pos (h₁.trans h₂)]
      by_cases h₀ : a.headD 0 = 0
      · rw [if_pos h₀]; rfl
      · rw [if_neg h₀] at hab hbe ⊢
        exact ih _ _ _ hab hbe
    · have h₃ : a.headD 0 ≠ e.headD 0 := h₁ ▸ h₂
      rw [if_neg h₂] at hbe
      rw [if_neg h₃, h₁]
      exact hbe
    · have h₃ : a.headD 0 ≠ e.headD 0 := h₂ ▸ h₁
      rw [if_neg h₁] at hab
      rw [if_neg h₃, ← h₂]
      exact hab
    · rw [if_neg h₁] at hab
      rw [if_neg h₂] at hbe
      have hle := Std.TransCmp.isLE_trans hab hbe
      split
      · split
        · rfl
        · rename_i h₃ _
          rw [← h₃] at hbe
          have := Std.OrientedCmp.isLE_antisymm hab hbe
          exact absurd (Std.LawfulEqCmp.eq_of_compare this) h₁
      · exact hle

theorem ixCompareCol_transOn (type : ColType) (len : ℕ) :
    TransOn (fun a => type = .float → floatIsNaN (readWord a) = false) (ixCompareCol type len) := by
  cases type with
  | int => exact .of_compare fun a => (readWord a).toInt
  | float =>
    have h := TransOn.of_compare (P := fun a => floatIsNaN (readWord a) = false)
      (fun a => floatMagnitude (readWord a))
    refine ⟨fun a b ha hb => ?_, fun a b e ha hb he => ?_⟩
    · simpa [ixCompareCol, floatCompare, ha, hb] using h.swap a b (ha rfl) (hb rfl)
    · simpa [ixCompareCol, floatCompare, ha, hb, he] using h.trans a b e (ha rfl) (hb rfl) (he rfl)
  | string => exact ⟨fun a b _ _ => strncmp_swap a b len, fun a b e _ _ _ => strncmp_trans a b e len⟩

theorem ixCompare_transOn (cols : IxCols) : TransOn (NaNFree cols) (ixCompare cols) := by
  induction cols with
  | nil => exact ⟨fun _ _ _ _ => rfl, fun _ _ _ _ _ _ _ _ => rfl⟩
  | cons col cols ih => exact (ixCompareCol_transOn col.1 col.2).then (ih.comap (List.drop col.2))

/-- Also on a NaN, with its sides exchanged the comparison is turned around. -/
theorem ixCompareCol_swap (type : ColType) (len : ℕ) (a b : Bytes) :
    ixCompareCol type len a b = (ixCompareCol type len b a).swap := by
  cases type with
  | int => exact (ixCompareCol_transOn .int len).swap a b nofun nofun
  | float =>
    simp only [ixCompareCol, floatCompare, Bool.or_comm (floatIsNaN (readWord b))]
    split
    · rfl
    · exact Std.OrientedCmp.eq_swap
  | string => exact strncmp_swap a b len

theorem ixCompare_swap (cols : IxCols) (a b : Bytes) : ixCompare cols a b = (ixCompare cols b a).swap := by
  induction cols generalizing a b with
  | nil => rfl
  | cons col cols ih =>
    rw [ixCompare, ixCompare, Ordering.swap_then, ← ixCompareCol_swap, ← ih]

theorem ixCompare_eq_symm {cols : IxCols} {a b : Bytes} (h : ixCompare cols a b = .eq) : ixCompare cols b a = .eq := by
  rw [ixCompare_swap, h, Ordering.swap_eq]

theorem naNFree_nil (cols : IxCols) : NaNFree cols [] := by
  induction cols with
  | nil => trivial
  | cons col cols ih => exact ⟨fun _ => rfl, by simpa using ih⟩

/-- A key of an index on `cols`. -/
def IxKey (cols : IxCols) : Type := {a : Bytes // NaNFree cols a}

instance (cols : IxCols) : Inhabited (IxKey cols) := ⟨⟨[], naNFree_nil cols⟩⟩

def IxKey.bytes {cols : IxCols} (a : IxKey cols) : Bytes := a.1

def IxKey.cmp {cols : IxCols} (a b : IxKey cols) : Ordering := ixCompare cols a.1 b.1

instance (cols : IxCols) : Std.TransCmp (@IxKey.cmp cols) :=
  (ixCompare_transOn cols).transCmp

end Rmdb
