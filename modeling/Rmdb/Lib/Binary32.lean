import Mathlib.Algebra.Order.Group.Int
import Mathlib.Data.Int.Notation
import Mathlib.Tactic.Common
import Mathlib.Tactic.Ring

/-! Lean's model of binary32 in integers. The numbers of the format are multiples of `2^-149`, and so is
an exact difference of two of them; `units` counts these. -/
namespace Binary32

open Float.Model Float.Model.UnpackedFloat

/-! ### Rounding -/

/-- `m / 2^n` to the nearest integer, the even one at a midpoint. -/
def shifted (m n : ℕ) : ℕ :=
  if 2 * (m % 2 ^ n) < 2 ^ n then m / 2 ^ n
  else if 2 * (m % 2 ^ n) = 2 ^ n then m / 2 ^ n + m / 2 ^ n % 2
  else m / 2 ^ n + 1

/-- To 24 significant bits. -/
def roundNat (n : ℕ) : ℕ := shifted n (n.log2 - 23) * 2 ^ (n.log2 - 23)

theorem shifted_zero (m : ℕ) : shifted m 0 = m := by
  simp [shifted, Nat.mod_one]

theorem shifted_mul (m n j : ℕ) : shifted (m * 2 ^ j) (n + j) = shifted m n := by
  have hpos : 0 < 2 ^ j := Nat.two_pow_pos j
  have hdiv : m * 2 ^ j / 2 ^ (n + j) = m / 2 ^ n := by
    rw [pow_add, Nat.mul_div_mul_right _ _ hpos]
  have hmod : m * 2 ^ j % 2 ^ (n + j) = m % 2 ^ n * 2 ^ j := by
    rw [pow_add, Nat.mul_mod_mul_right]
  have hlt : 2 * (m % 2 ^ n * 2 ^ j) < 2 ^ (n + j) ↔ 2 * (m % 2 ^ n) < 2 ^ n := by
    rw [pow_add, ← mul_assoc, Nat.mul_lt_mul_right hpos]
  have heq : 2 * (m % 2 ^ n * 2 ^ j) = 2 ^ (n + j) ↔ 2 * (m % 2 ^ n) = 2 ^ n := by
    rw [pow_add, ← mul_assoc, Nat.mul_left_inj hpos.ne']
  unfold shifted
  rw [hdiv, hmod]
  simp only [hlt, heq]

theorem shifted_bounds (m n : ℕ) : m / 2 ^ n ≤ shifted m n ∧ shifted m n ≤ m / 2 ^ n + 1 := by
  have := Nat.mod_lt (m / 2 ^ n) (by decide : 0 < 2)
  unfold shifted
  split_ifs <;> omega

theorem log2_mul {m : ℕ} (hm : m ≠ 0) (j : ℕ) : (m * 2 ^ j).log2 = m.log2 + j := by
  have hpos : 0 < 2 ^ j := Nat.two_pow_pos j
  have hlo := Nat.log2_self_le hm
  have hhi : m < 2 ^ (m.log2 + 1) := Nat.lt_log2_self
  rw [Nat.log2_eq_iff (Nat.mul_ne_zero hm hpos.ne')]
  constructor
  · rw [pow_add]
    exact Nat.mul_le_mul_right _ hlo
  · rw [add_right_comm, pow_add]
    exact (Nat.mul_lt_mul_right hpos).mpr hhi

/-- What has 24 significant bits stays. -/
theorem roundNat_mul {m : ℕ} (hm : m < 2 ^ 24) (j : ℕ) (hj : j = 0 ∨ 2 ^ 23 ≤ m) :
    roundNat (m * 2 ^ j) = m * 2 ^ j := by
  obtain rfl | hpos := Nat.eq_zero_or_pos m
  · simp [roundNat, shifted]
  have hlog := (Nat.log2_lt hpos.ne').mpr hm
  unfold roundNat
  rw [log2_mul hpos.ne']
  obtain rfl | hlo := hj
  · have hzero : m.log2 + 0 - 23 = 0 := by omega
    rw [hzero, shifted_zero, pow_zero, mul_one]
  · have hlog' := (Nat.le_log2 hpos.ne').mpr hlo
    have hshift : m.log2 + j - 23 = 0 + j := by omega
    rw [hshift, shifted_mul, shifted_zero, zero_add]

theorem roundNat_le {n k : ℕ} (h : n < 2 ^ k) : roundNat n ≤ 2 ^ k := by
  obtain rfl | hpos := Nat.eq_zero_or_pos n
  · simp [roundNat, shifted]
  have hlog := (Nat.log2_lt hpos.ne').mpr h
  unfold roundNat
  obtain hsmall | hbig := Nat.lt_or_ge n.log2 24
  · have hzero : n.log2 - 23 = 0 := by omega
    rw [hzero, shifted_zero, pow_zero, mul_one]
    exact h.le
  · have hlt : n < 2 ^ 24 * 2 ^ (n.log2 - 23) := by
      rw [← pow_add]
      exact Nat.lt_of_lt_of_le Nat.lt_log2_self (Nat.pow_le_pow_right (by decide) (by omega))
    have hdiv := Nat.div_lt_of_lt_mul (by rwa [mul_comm] at hlt)
    calc shifted n (n.log2 - 23) * 2 ^ (n.log2 - 23)
        ≤ 2 ^ 24 * 2 ^ (n.log2 - 23) := Nat.mul_le_mul_right _ ((shifted_bounds n _).2.trans hdiv)
      _ = 2 ^ (n.log2 + 1) := by rw [← pow_add]; congr 1; omega
      _ ≤ 2 ^ k := Nat.pow_le_pow_right (by decide) hlog

theorem le_roundNat {n k : ℕ} (h : 2 ^ k ≤ n) : 2 ^ k ≤ roundNat n := by
  have hpos : n ≠ 0 := (Nat.lt_of_lt_of_le (Nat.two_pow_pos k) h).ne'
  have hlog := (Nat.le_log2 hpos).mpr h
  unfold roundNat
  obtain hsmall | hbig := Nat.lt_or_ge n.log2 24
  · have hzero : n.log2 - 23 = 0 := by omega
    rw [hzero, shifted_zero, pow_zero, mul_one]
    exact h
  · have hdiv : 2 ^ 23 ≤ n / 2 ^ (n.log2 - 23) := by
      rw [Nat.le_div_iff_mul_le (Nat.two_pow_pos _), ← pow_add]
      exact (Nat.pow_le_pow_right (by decide) (by omega)).trans (Nat.log2_self_le hpos)
    calc 2 ^ k ≤ 2 ^ n.log2 := Nat.pow_le_pow_right (by decide) hlog
      _ = 2 ^ 23 * 2 ^ (n.log2 - 23) := by rw [← pow_add]; congr 1; omega
      _ ≤ shifted n (n.log2 - 23) * 2 ^ (n.log2 - 23) := Nat.mul_le_mul_right _ (hdiv.trans (shifted_bounds n _).1)

/-- An odd number of the format is passed by rounding from the midpoint behind it on. -/
theorem roundNat_le_iff {m k n : ℕ} (hm : 2 ^ 23 ≤ m) (hm' : m < 2 ^ 24) (hodd : m % 2 = 1) :
    roundNat n ≤ m * 2 ^ (k + 1) ↔ n < (2 * m + 1) * 2 ^ k := by
  have hhalf : 2 ^ (k + 1) = 2 * 2 ^ k := by rw [pow_succ, mul_comm]
  have hpos : 0 < 2 ^ k := Nat.two_pow_pos k
  have hlow : 2 ^ (k + 24) ≤ m * 2 ^ (k + 1) := by
    rw [show k + 24 = 23 + (k + 1) by omega, pow_add]
    exact Nat.mul_le_mul_right _ hm
  have hhigh : m * 2 ^ (k + 1) + 2 ^ (k + 1) ≤ 2 ^ (k + 25) := by
    rw [show k + 25 = 24 + (k + 1) by omega, pow_add 2 24, ← Nat.succ_mul]
    exact Nat.mul_le_mul_right _ hm'
  have hstep : 2 ^ (k + 1) ≤ 2 ^ (k + 24) := Nat.pow_le_pow_right (by decide) (by omega)
  have hbound : (2 * m + 1) * 2 ^ k = m * 2 ^ (k + 1) + 2 ^ k := by
    rw [hhalf]
    ring
  obtain hsmall | hn := Nat.lt_or_ge n (2 ^ (k + 24))
  · refine iff_of_true ((roundNat_le hsmall).trans hlow) ?_
    omega
  obtain hbig | hn' := Nat.lt_or_ge n (2 ^ (k + 25))
  · -- Here the last place is that of the bound.
    have hlog : n.log2 = k + 24 := (Nat.log2_eq_iff (by omega)).mpr ⟨hn, hbig⟩
    have hshift : n.log2 - 23 = k + 1 := by omega
    have hdiv := Nat.div_add_mod n (2 ^ (k + 1))
    have hmod := Nat.mod_lt n (Nat.two_pow_pos (k + 1))
    unfold roundNat shifted
    rw [hshift, Nat.mul_le_mul_right_iff (Nat.two_pow_pos _), hbound]
    obtain hlt | rfl | hgt := Nat.lt_trichotomy (n / 2 ^ (k + 1)) m
    · have hbelow : 2 ^ (k + 1) * (n / 2 ^ (k + 1)) + 2 ^ (k + 1) ≤ m * 2 ^ (k + 1) := by
        rw [← Nat.mul_succ, mul_comm]
        exact Nat.mul_le_mul_right _ hlt
      refine iff_of_true ?_ (by omega)
      have := Nat.mod_lt (n / 2 ^ (k + 1)) (by decide : 0 < 2)
      split_ifs <;> omega
    · rw [mul_comm] at hdiv
      split_ifs with hless hequal
      · exact iff_of_true le_rfl (by omega)
      · exact iff_of_false (by omega) (by omega)
      · exact iff_of_false (by omega) (by omega)
    · have habove : m * 2 ^ (k + 1) + 2 ^ (k + 1) ≤ 2 ^ (k + 1) * (n / 2 ^ (k + 1)) := by
        rw [← Nat.succ_mul, mul_comm]
        exact Nat.mul_le_mul_left _ hgt
      refine iff_of_false ?_ (by omega)
      split_ifs <;> omega
  · have := le_roundNat hn'
    exact iff_of_false (by omega) (by omega)

/-! ### Shifts with guard bits -/

/-- The mantissa is the quotient of `m` by `2^n`, and the guard bits tell the remainder. -/
structure Shifts (em : ExtendedMantissa) (m n : ℕ) : Prop where
  mantissa : em.mantissa = m / 2 ^ n
  roundBit : em.roundBit = true ↔ 2 ^ n ≤ 2 * (m % 2 ^ n)
  stickyBit : em.stickyBit = true ↔ m % 2 ^ n ≠ 0 ∧ 2 * (m % 2 ^ n) ≠ 2 ^ n

theorem shifts_exact (m : ℕ) : Shifts (ExtendedMantissa.ofMantissaAndAccuracy m .exact) m 0 := by
  constructor <;> simp [ExtendedMantissa.ofMantissaAndAccuracy, Nat.mod_one]

theorem Shifts.shiftRightOne {em : ExtendedMantissa} {m n : ℕ} (h : Shifts em m n) :
    Shifts em.shiftRightOne m (n + 1) := by
  have hmod : m % 2 ^ (n + 1) = m % 2 ^ n + 2 ^ n * (m / 2 ^ n % 2) := Nat.mod_pow_succ
  have hlt := Nat.mod_lt m (Nat.two_pow_pos n)
  have hpow : 2 ^ (n + 1) = 2 * 2 ^ n := by rw [pow_succ, mul_comm]
  rw [hpow] at hmod
  obtain hbit | hbit := Nat.mod_two_eq_zero_or_one (m / 2 ^ n)
  · rw [hbit, mul_zero, add_zero] at hmod
    refine ⟨?_, ?_, ?_⟩
    · rw [ExtendedMantissa.shiftRightOne, h.mantissa, Nat.div_div_eq_div_mul, pow_succ]
    · simp only [ExtendedMantissa.shiftRightOne, h.mantissa, hbit, hmod, hpow, bne_self_eq_false, Bool.false_eq_true,
        false_iff]
      omega
    · simp only [ExtendedMantissa.shiftRightOne, Bool.or_eq_true, h.roundBit, h.stickyBit, hmod, hpow]
      omega
  · rw [hbit, mul_one] at hmod
    refine ⟨?_, ?_, ?_⟩
    · rw [ExtendedMantissa.shiftRightOne, h.mantissa, Nat.div_div_eq_div_mul, pow_succ]
    · have hone : (1 != 0) = true := rfl
      simp only [ExtendedMantissa.shiftRightOne, h.mantissa, hbit, hmod, hpow, hone, true_iff]
      omega
    · simp only [ExtendedMantissa.shiftRightOne, Bool.or_eq_true, h.roundBit, h.stickyBit, hmod, hpow]
      omega

theorem Shifts.roundedMantissa {em : ExtendedMantissa} {m n : ℕ} (h : Shifts em m n) :
    em.roundedMantissa = shifted m n := by
  obtain ⟨hm, hr, hs⟩ := h
  obtain ⟨q, round, sticky⟩ := em
  dsimp only at hm hr hs
  subst hm
  unfold ExtendedMantissa.roundedMantissa shifted
  have hlt := Nat.mod_lt m (Nat.two_pow_pos n)
  cases round <;> cases sticky <;>
    simp only [Bool.false_eq_true, false_iff, true_iff, not_le, ExtendedMantissa.accuracy,
      Accuracy.roundToNearestEven] at hr hs ⊢
  · rw [if_pos hr]
  · rw [if_pos hr]
  · have heq : 2 * (m % 2 ^ n) = 2 ^ n := by omega
    rw [if_neg (by omega), if_pos heq]
  · rw [if_neg (by omega), if_neg hs.2]

theorem shifts_shiftRight (m n : ℕ) : Shifts ((ExtendedMantissa.ofMantissaAndAccuracy m .exact) >>> n) m n := by
  change Shifts (n.repeat ExtendedMantissa.shiftRightOne _) m n
  induction n with
  | zero => exact shifts_exact m
  | succ n ih => exact ih.shiftRightOne

/-! ### Rounding in the model -/

/-- The exponent of a number with the given mantissa and exponent in the format. -/
def target (m : ℕ) (e : ℤ) : ℤ := max (m.log2 + 1 + e - 24) (-149)

theorem targetExponent_eq (m : ℕ) (e : ℤ) : Format.binary32.targetExponent (totalExponent m e) = target m e := rfl

/-- The bits of a mantissa fit, and are used up unless the exponent is the least one. -/
structure Canonical (m : ℕ) (e : ℤ) : Prop where
  lt : m < 2 ^ 24
  least : -149 ≤ e
  normal : e = -149 ∨ 2 ^ 23 ≤ m

/-- In multiples of `2^-149`. -/
def mag (m : ℕ) (e : ℤ) : ℕ := m * 2 ^ (e + 149).toNat

private theorem finite_congr {s s' : Sign} {m m' : ℕ} {e e' : ℤ} {h : 0 < m} {h' : 0 < m'} (hs : s = s') (hm : m = m')
    (he : e = e') : UnpackedFloat.finite s m e h = .finite s' m' e' h' := by
  subst hs hm he
  rfl

theorem roundWithAccuracy_eq {s : Sign} {m : ℕ} {e : ℤ} {n n' q : ℕ} (hn : (target m e - e).toNat = n)
    (hq : shifted m n = q) (hn' : (target q (e + n) - (e + n)).toNat = n') (hpos : 0 < q / 2 ^ n') :
    roundWithAccuracy Format.binary32 s m e .exact = .finite s (q / 2 ^ n') (e + n + n') hpos := by
  have hfirst : shiftToTargetExponent Format.binary32 m e .exact =
      (ExtendedMantissa.ofMantissaAndAccuracy m .exact >>> n, e + n) := by
    rw [shiftToTargetExponent, targetExponent_eq, shiftToExponent, hn]
  have hsecond : shiftToTargetExponent Format.binary32 q (e + n) .exact =
      (ExtendedMantissa.ofMantissaAndAccuracy q .exact >>> n', e + n + n') := by
    rw [shiftToTargetExponent, targetExponent_eq, shiftToExponent, hn']
  have hrounded := (shifts_shiftRight m n).roundedMantissa
  have hmantissa := (shifts_shiftRight q n').mantissa
  unfold roundWithAccuracy
  rw [hfirst]
  dsimp only
  rw [hrounded, hq, hsecond]
  dsimp only
  rw [dif_neg (hmantissa ▸ hpos.ne')]
  exact finite_congr rfl hmantissa rfl

theorem target_eq (m : ℕ) (e : ℤ) : target m e = m.log2 + e - 23 ∧ -149 ≤ m.log2 + e - 23 ∨
    target m e = -149 ∧ m.log2 + e - 23 < -149 := by
  unfold target
  omega

/-- A mantissa that can be made to fit loses no bit. -/
theorem round_of_le {s : Sign} {m j : ℕ} {e : ℤ} (hm : 0 < m) (he : -149 ≤ e) (hj : e - target m e = j) :
    ∃ hm', UnpackedFloat.round Format.binary32 s m e = .finite s (m * 2 ^ j) (target m e) hm' ∧
      Canonical (m * 2 ^ j) (target m e) ∧ mag (m * 2 ^ j) (target m e) = roundNat (mag m e) := by
  have hlog : (m * 2 ^ j).log2 = m.log2 + j := log2_mul hm.ne' j
  have hpos : m * 2 ^ j ≠ 0 := Nat.mul_ne_zero hm.ne' (Nat.two_pow_pos j).ne'
  have htarget := target_eq m e
  have hsame : target (m * 2 ^ j) (target m e) = target m e := by
    have := target_eq (m * 2 ^ j) (target m e)
    rw [hlog] at this
    push_cast at this
    omega
  have hround : UnpackedFloat.round Format.binary32 s m e =
      roundWithAccuracy Format.binary32 s (m * 2 ^ j) (target m e) .exact := by
    have hshift : (e - target m e).toNat = j := by omega
    have hexp : e - j = target m e := by omega
    rw [UnpackedFloat.round, targetExponent_eq, decreaseExponent, Nat.shiftLeft_eq, hshift]
    simp only [hexp]
  have hfits : m * 2 ^ j < 2 ^ 24 := by
    rw [← Nat.log2_lt hpos, hlog]
    omega
  have hnormal : target m e = -149 ∨ 2 ^ 23 ≤ m * 2 ^ j := by
    rw [← Nat.le_log2 hpos, hlog]
    omega
  have hmag : mag m e = m * 2 ^ j * 2 ^ (target m e + 149).toNat := by
    have hsum : (e + 149).toNat = j + (target m e + 149).toNat := by omega
    rw [mag, hsum, pow_add, mul_assoc]
  have hzero : (target (m * 2 ^ j) (target m e) - target m e).toNat = 0 := by
    rw [hsame]
    omega
  refine ⟨Nat.pos_of_ne_zero hpos, ?_, ⟨hfits, by omega, hnormal⟩, ?_⟩
  · have hzero' : (target (m * 2 ^ j) (target m e + (0 : ℕ)) - (target m e + (0 : ℕ))).toNat = 0 := by
      rw [Nat.cast_zero, add_zero]
      exact hzero
    have h := roundWithAccuracy_eq hzero (shifted_zero _) hzero' (by simpa using Nat.pos_of_ne_zero hpos) (s := s)
    rw [hround, h]
    exact finite_congr rfl (by simp) (by simp)
  · rw [hmag, roundNat_mul hfits _ (by omega)]
    rfl

/-- A mantissa with too many bits is shifted, and once more when rounding makes it one bit longer. -/
theorem round_of_lt {s : Sign} {m : ℕ} {e : ℤ} (hm : 0 < m) (he : -149 ≤ e) (hlt : e < target m e) :
    ∃ m' e' hm', UnpackedFloat.round Format.binary32 s m e = .finite s m' e' hm' ∧ Canonical m' e' ∧
      mag m' e' = roundNat (mag m e) := by
  obtain ⟨k, hk⟩ := Int.eq_ofNat_of_zero_le (Int.sub_nonneg.mpr hlt.le)
  have htarget := target_eq m e
  have hlog : m.log2 = 23 + k := by omega
  obtain ⟨q, hq⟩ : ∃ q, shifted m k = q := ⟨_, rfl⟩
  have hlo : 2 ^ 23 ≤ q := by
    have hdiv : 2 ^ 23 ≤ m / 2 ^ k := by
      rw [Nat.le_div_iff_mul_le (Nat.two_pow_pos k), ← pow_add, ← hlog]
      exact Nat.log2_self_le hm.ne'
    exact hq ▸ hdiv.trans (shifted_bounds m k).1
  have hhi : q ≤ 2 ^ 24 := by
    have hdiv : m / 2 ^ k < 2 ^ 24 := by
      rw [Nat.div_lt_iff_lt_mul (Nat.two_pow_pos k), ← pow_add, show 24 + k = m.log2 + 1 by omega]
      exact Nat.lt_log2_self
    exact hq ▸ (shifted_bounds m k).2.trans hdiv
  have hround : UnpackedFloat.round Format.binary32 s m e = roundWithAccuracy Format.binary32 s m e .exact := by
    have hshift : (e - target m e).toNat = 0 := by omega
    rw [UnpackedFloat.round, targetExponent_eq, decreaseExponent, hshift]
    simp
  have hfirst : (target m e - e).toNat = k := by omega
  have hexp : (e + k + 149).toNat = k + (e + 149).toNat := by omega
  have hmag : roundNat (mag m e) = q * 2 ^ (e + k + 149).toNat := by
    have hshift : m.log2 + (e + 149).toNat - 23 = k + (e + 149).toNat := by omega
    rw [roundNat, mag, log2_mul hm.ne', hshift, shifted_mul, hq, hexp]
  rw [hround, hmag]
  obtain hfits | rfl := Nat.lt_or_eq_of_le hhi
  · have hlogq : q.log2 = 23 := (Nat.log2_eq_iff (by omega)).mpr ⟨hlo, hfits⟩
    have hsecond : (target q (e + k) - (e + k)).toNat = 0 := by
      have := target_eq q (e + k)
      omega
    refine ⟨q, e + k, by omega, ?_, ⟨hfits, by omega, .inr hlo⟩, rfl⟩
    rw [roundWithAccuracy_eq hfirst hq hsecond (by simp; omega)]
    exact finite_congr rfl (by simp) (by simp)
  · have hlogq : (2 ^ 24).log2 = 24 := Nat.log2_two_pow
    have hsecond : (target (2 ^ 24) (e + k) - (e + k)).toNat = 1 := by
      have := target_eq (2 ^ 24) (e + k)
      omega
    refine ⟨2 ^ 23, e + k + 1, by decide, ?_, ⟨by decide, by omega, .inr le_rfl⟩, ?_⟩
    · exact roundWithAccuracy_eq hfirst hq hsecond (by decide)
    · have hlast : (e + k + 1 + 149).toNat = (e + k + 149).toNat + 1 := by omega
      rw [mag, hlast, pow_succ]
      ring

theorem round_spec {s : Sign} {m : ℕ} {e : ℤ} (hm : 0 < m) (he : -149 ≤ e) :
    ∃ m' e' hm', UnpackedFloat.round Format.binary32 s m e = .finite s m' e' hm' ∧ Canonical m' e' ∧
      mag m' e' = roundNat (mag m e) := by
  obtain hle | hlt := le_or_gt (target m e) e
  · obtain ⟨j, hj⟩ := Int.eq_ofNat_of_zero_le (Int.sub_nonneg.mpr hle)
    obtain ⟨hm', hround⟩ := round_of_le (s := s) hm he hj
    exact ⟨_, _, hm', hround⟩
  · exact round_of_lt hm he hlt

/-! ### Bit patterns -/

/-- What a bit pattern can stand for. -/
def Proper : UnpackedFloat → Prop
  | .finite _ m e _ => Canonical m e ∧ e ≤ 104
  | _ => True

theorem toNat_implicit (v : BitVec 23) : (1#1 ++ v).toNat = 2 ^ 23 + v.toNat := by
  rw [BitVec.toNat_append, ← Nat.shiftLeft_add_eq_or_of_lt v.isLt]
  rfl

private theorem sign_unpack_packComponents (s : Sign) (e : BitVec 8) (m : BitVec 23) :
    Sign.ofBitVec (unpackSign (packComponents Format.binary32 s e m)) = s := by
  have hlast : (s.toBitVec ++ e ++ m).getLsbD 31 = s.toBitVec.getLsbD 0 := by
    rw [BitVec.getLsbD_append, BitVec.getLsbD_append]
    rfl
  have hbit : unpackSign (packComponents Format.binary32 s e m) = s.toBitVec := by
    ext i hi
    obtain rfl : i = 0 := by omega
    have hread : (unpackSign (packComponents Format.binary32 s e m))[0] = (s.toBitVec ++ e ++ m).getLsbD 31 := by
      have hcut : unpackSign (packComponents Format.binary32 s e m) = (s.toBitVec ++ e ++ m).extractLsb 31 31 := rfl
      rw [hcut]
      simp
    exact hread.trans hlast
  rw [hbit]
  cases s <;> rfl

theorem unpack_pack_infinity (s : Sign) : unpack Format.binary32 (packedInfinity Format.binary32 s) = .infinity s := by
  cases s <;> rfl

private theorem pack_finite (s : Sign) (m : ℕ) (e : ℤ) (hm : 0 < m) :
    pack Format.binary32 (.finite s m e hm) =
      if 256 ≤ (e + 127 + 23).toNat + 1 then packedInfinity Format.binary32 s
      else if m.log2 + 1 = 24 then
        packComponents Format.binary32 s (BitVec.ofNat 8 (e + 127 + 23).toNat) (BitVec.ofNat 23 m)
      else packComponents Format.binary32 s 0#8 (BitVec.ofNat 23 m) := rfl

theorem unpack_pack {f : UnpackedFloat} (h : Proper f) : unpack Format.binary32 (pack Format.binary32 f) = f := by
  cases f with
  | notANumber => rfl
  | infinity s => exact unpack_pack_infinity s
  | zero s => cases s <;> rfl
  | finite s m e hm =>
    obtain ⟨⟨hlt, hleast, hnormal⟩, hle⟩ := h
    obtain ⟨b, hb⟩ := Int.eq_ofNat_of_zero_le (show 0 ≤ e + 150 by omega)
    have hbiased : (e + 127 + 23).toNat = b := by omega
    have hsign := sign_unpack_packComponents s
    rw [pack_finite, hbiased, if_neg (by omega)]
    obtain hsub | hnorm := Nat.lt_or_ge m (2 ^ 23)
    · have hlog : ¬m.log2 + 1 = 24 := by
        have := (Nat.log2_lt hm.ne').mpr hsub
        omega
      have hmantissa : (BitVec.ofNat 23 m).toNat = m := by
        rw [BitVec.toNat_ofNat, Nat.mod_eq_of_lt hsub]
      have hne : BitVec.ofNat 23 m ≠ 0#23 := by
        intro heq
        have := congrArg BitVec.toNat heq
        rw [hmantissa] at this
        exact hm.ne' this
      rw [if_neg hlog]
      have hread := @unpackMantissa_packComponents Format.binary32 s 0#8 (BitVec.ofNat 23 m)
      have hreadExp := @unpackExponent_packComponents Format.binary32 s 0#8 (BitVec.ofNat 23 m)
      unfold UnpackedFloat.unpack
      dsimp only
      rw [if_neg (by rw [hreadExp]; decide), if_pos hreadExp, dif_neg (by rw [hread]; exact hne)]
      refine finite_congr (hsign _ _) (by rw [hread]; exact hmantissa) ?_
      rw [hreadExp]
      change (0 : ℤ) - (127 + 23) + 1 = e
      omega
    · have hlog : m.log2 + 1 = 24 := by
        rw [(Nat.log2_eq_iff hm.ne').mpr ⟨hnorm, hlt⟩]
      rw [if_pos hlog]
      have hexp : (BitVec.ofNat 8 b).toNat = b := by
        rw [BitVec.toNat_ofNat, Nat.mod_eq_of_lt (by omega)]
      have hne : BitVec.ofNat 8 b ≠ -1#8 := by
        intro heq
        have := congrArg BitVec.toNat heq
        rw [hexp] at this
        have hones : (-1#8).toNat = 255 := rfl
        omega
      have hne' : BitVec.ofNat 8 b ≠ 0#8 := by
        intro heq
        have := congrArg BitVec.toNat heq
        rw [hexp] at this
        have hzero : (0#8).toNat = 0 := rfl
        omega
      have hmantissa : (1#1 ++ BitVec.ofNat 23 m).toNat = m := by
        rw [toNat_implicit, BitVec.toNat_ofNat]
        omega
      have hread := @unpackMantissa_packComponents Format.binary32 s (BitVec.ofNat 8 b) (BitVec.ofNat 23 m)
      have hreadExp := @unpackExponent_packComponents Format.binary32 s (BitVec.ofNat 8 b) (BitVec.ofNat 23 m)
      unfold UnpackedFloat.unpack
      dsimp only
      rw [if_neg (by rw [hreadExp]; exact hne), if_neg (by rw [hreadExp]; exact hne')]
      refine finite_congr (hsign _ _) (by rw [hread]; exact hmantissa) ?_
      rw [hreadExp, hexp]
      change (b : ℤ) - (127 + 23) = e
      omega

theorem unpack_proper (b : BitVec 32) : Proper (unpack Format.binary32 b) := by
  have hlt : (@unpackMantissa Format.binary32 b).toNat < 2 ^ 23 := (@unpackMantissa Format.binary32 b).isLt
  have hexp : (@unpackExponent Format.binary32 b).toNat < 2 ^ 8 := (@unpackExponent Format.binary32 b).isLt
  unfold UnpackedFloat.unpack
  dsimp only
  by_cases hinf : @unpackExponent Format.binary32 b = -1#8
  · rw [if_pos hinf]
    split <;> trivial
  rw [if_neg hinf]
  by_cases hzero : @unpackExponent Format.binary32 b = 0#8
  · rw [if_pos hzero]
    by_cases hnone : @unpackMantissa Format.binary32 b = 0#23
    · rw [dif_pos hnone]
      trivial
    · rw [dif_neg hnone]
      refine ⟨⟨by omega, ?_, .inl ?_⟩, ?_⟩ <;> rw [hzero] <;> decide
  · rw [if_neg hzero]
    have hlast : (@unpackExponent Format.binary32 b).toNat ≠ 255 := fun h => hinf (BitVec.eq_of_toNat_eq h)
    have hfirst : (@unpackExponent Format.binary32 b).toNat ≠ 0 := fun h => hzero (BitVec.eq_of_toNat_eq h)
    have himplicit := toNat_implicit (@unpackMantissa Format.binary32 b)
    refine ⟨⟨?_, ?_, .inr ?_⟩, ?_⟩
    · change (1#1 ++ @unpackMantissa Format.binary32 b).toNat < 2 ^ 24
      omega
    · change (-149 : ℤ) ≤ (@unpackExponent Format.binary32 b).toNat - (127 + 23)
      omega
    · change 2 ^ 23 ≤ (1#1 ++ @unpackMantissa Format.binary32 b).toNat
      omega
    · change ((@unpackExponent Format.binary32 b).toNat : ℤ) - (127 + 23) ≤ 104
      omega

/-! ### Multiples of the least number -/

/-- Behind the last number of the format. -/
def top : ℕ := 2 ^ 24 * 2 ^ 253

theorem top_pos : 0 < top := by decide

/-- What a number stands for, an infinity for the first one that is out of range. -/
def units : UnpackedFloat → Option ℤ
  | .notANumber => none
  | .infinity s => some (s.apply top)
  | .zero _ => some 0
  | .finite s m e _ => some (s.apply (mag m e))

theorem mag_pos {m : ℕ} (hm : 0 < m) (e : ℤ) : 0 < mag m e := Nat.mul_pos hm (Nat.two_pow_pos _)

theorem mag_add_le {m : ℕ} {e : ℤ} (hm : m < 2 ^ 24) (he : e ≤ 104) : mag m e + 2 ^ 253 ≤ top := by
  have hpow : 2 ^ (e + 149).toNat ≤ 2 ^ 253 := Nat.pow_le_pow_right (by decide) (by omega)
  calc m * 2 ^ (e + 149).toNat + 2 ^ 253 ≤ m * 2 ^ 253 + 2 ^ 253 := Nat.add_le_add_right (Nat.mul_le_mul_left _ hpow) _
    _ = (m + 1) * 2 ^ 253 := (Nat.succ_mul m _).symm
    _ ≤ top := Nat.mul_le_mul_right _ hm

theorem mag_lt {m : ℕ} {e : ℤ} (hm : m < 2 ^ 24) (he : e ≤ 104) : mag m e < top :=
  Nat.lt_of_lt_of_le (Nat.lt_add_of_pos_right (Nat.two_pow_pos 253)) (mag_add_le hm he)

theorem top_le_mag {m : ℕ} {e : ℤ} (h : Canonical m e) (he : 105 ≤ e) : top ≤ mag m e := by
  have hm : 2 ^ 23 ≤ m := h.normal.resolve_left (by omega)
  calc top = 2 ^ 23 * 2 ^ 254 := rfl
    _ ≤ m * 2 ^ 254 := Nat.mul_le_mul_right _ hm
    _ ≤ m * 2 ^ (e + 149).toNat := Nat.mul_le_mul_left _ (Nat.pow_le_pow_right (by decide) (by omega))

theorem mag_lt_of_exponent {m m' : ℕ} {e e' : ℤ} (h : Canonical m e) (h' : Canonical m' e') (he : e < e') :
    mag m e < mag m' e' := by
  have hleast := h.least
  have hm' : 2 ^ 23 ≤ m' := h'.normal.resolve_left (by omega)
  calc m * 2 ^ (e + 149).toNat < 2 ^ 24 * 2 ^ (e + 149).toNat := (Nat.mul_lt_mul_right (Nat.two_pow_pos _)).mpr h.lt
    _ = 2 ^ 23 * 2 ^ ((e + 149).toNat + 1) := by rw [pow_succ _ (e + 149).toNat]; ring
    _ ≤ 2 ^ 23 * 2 ^ (e' + 149).toNat := Nat.mul_le_mul_left _ (Nat.pow_le_pow_right (by decide) (by omega))
    _ ≤ m' * 2 ^ (e' + 149).toNat := Nat.mul_le_mul_right _ hm'

theorem compare_mag {m m' : ℕ} {e e' : ℤ} (h : Canonical m e) (h' : Canonical m' e') :
    (compare e e').then (compare m m') = compare (mag m e) (mag m' e') := by
  obtain hlt | rfl | hgt := lt_trichotomy e e'
  · rw [compare_lt_iff_lt.mpr hlt, compare_lt_iff_lt.mpr (mag_lt_of_exponent h h' hlt), Ordering.lt_then]
  · rw [compare_eq_iff_eq.mpr rfl, Ordering.eq_then]
    unfold mag
    have hpos : 0 < 2 ^ (e + 149).toNat := Nat.two_pow_pos _
    obtain hm | rfl | hm := lt_trichotomy m m'
    · rw [compare_lt_iff_lt.mpr hm, compare_lt_iff_lt.mpr ((Nat.mul_lt_mul_right hpos).mpr hm)]
    · rw [compare_eq_iff_eq.mpr rfl, compare_eq_iff_eq.mpr rfl]
    · rw [compare_gt_iff_gt.mpr hm, compare_gt_iff_gt.mpr ((Nat.mul_lt_mul_right hpos).mpr hm)]
  · rw [compare_gt_iff_gt.mpr hgt, compare_gt_iff_gt.mpr (mag_lt_of_exponent h' h hgt), Ordering.gt_then]

theorem natAbs_apply (s : Sign) (n : ℕ) : (s.apply n).natAbs = n := by
  cases s
  · exact (Int.natAbs_neg _).trans (Int.natAbs_natCast n)
  · exact Int.natAbs_natCast n

private theorem compare_swap_neg (a b : ℤ) : compare (-a) (-b) = (compare a b).swap := by
  obtain h | rfl | h := lt_trichotomy a b
  · rw [compare_lt_iff_lt.mpr h, compare_gt_iff_gt.mpr (by omega), Ordering.swap_lt]
  · rw [compare_eq_iff_eq.mpr rfl, compare_eq_iff_eq.mpr rfl, Ordering.swap_eq]
  · rw [compare_gt_iff_gt.mpr h, compare_lt_iff_lt.mpr (by omega), Ordering.swap_gt]

private theorem compare_natCast (m n : ℕ) : compare (m : ℤ) (n : ℤ) = compare m n := by
  obtain h | rfl | h := lt_trichotomy m n
  · rw [compare_lt_iff_lt.mpr h, compare_lt_iff_lt.mpr (by omega)]
  · rw [compare_eq_iff_eq.mpr rfl, compare_eq_iff_eq.mpr rfl]
  · rw [compare_gt_iff_gt.mpr h, compare_gt_iff_gt.mpr (by omega)]

/-- Two numbers compare like the integers that they stand for. -/
theorem compare_eq {x y : UnpackedFloat} (hx : Proper x) (hy : Proper y) :
    x.compare y = Option.map₂ compare (units x) (units y) := by
  have htop := top_pos
  cases x with
  | notANumber => rfl
  | infinity s =>
    cases y with
    | notANumber => cases s <;> rfl
    | infinity s' =>
      cases s <;> cases s' <;> rfl
    | zero s' => cases s <;> rfl
    | finite s' m e hm =>
      have hlt := mag_lt hy.1.lt hy.2
      cases s <;> cases s' <;> refine congrArg some (Eq.symm ?_) <;> simp only [Sign.apply]
      · exact compare_lt_iff_lt.mpr (by omega)
      · exact compare_lt_iff_lt.mpr (by omega)
      · exact compare_gt_iff_gt.mpr (by omega)
      · exact compare_gt_iff_gt.mpr (by omega)
  | zero s =>
    cases y with
    | notANumber => rfl
    | infinity s' => cases s' <;> rfl
    | zero s' => rfl
    | finite s' m e hm =>
      have hpos := mag_pos hm e
      cases s' <;> refine congrArg some (Eq.symm ?_) <;> simp only [Sign.apply]
      · exact compare_gt_iff_gt.mpr (by omega)
      · exact compare_lt_iff_lt.mpr (by omega)
  | finite s m e hm =>
    have hpos := mag_pos hm e
    cases y with
    | notANumber => rfl
    | infinity s' =>
      have hlt := mag_lt hx.1.lt hx.2
      cases s' <;> cases s <;> refine congrArg some (Eq.symm ?_) <;> simp only [Sign.apply]
      · exact compare_gt_iff_gt.mpr (by omega)
      · exact compare_gt_iff_gt.mpr (by omega)
      · exact compare_lt_iff_lt.mpr (by omega)
      · exact compare_lt_iff_lt.mpr (by omega)
    | zero s' =>
      cases s <;> refine congrArg some (Eq.symm ?_) <;> simp only [Sign.apply]
      · exact compare_lt_iff_lt.mpr (by omega)
      · exact compare_gt_iff_gt.mpr (by omega)
    | finite s' m' e' hm' =>
      have hpos' := mag_pos hm' e'
      have hmag := compare_mag hx.1 hy.1
      cases s <;> cases s' <;> refine congrArg some (Eq.symm ?_) <;> simp only [Sign.apply]
      · rw [compare_swap_neg, compare_natCast, hmag]
      · exact compare_lt_iff_lt.mpr (by omega)
      · exact compare_gt_iff_gt.mpr (by omega)
      · rw [compare_natCast, hmag]

/-! ### Subtraction -/

/-- `d` rounded to the format is `r`. -/
def Rounded (d r : ℤ) : Prop :=
  ∃ (s : Sign) (k n : ℕ), d = s.apply k ∧ r = s.apply n ∧ (n = min (roundNat k) top ∨ n = top ∧ 2 ^ 253 ≤ k)

theorem roundNat_mag {m : ℕ} {e : ℤ} (h : Canonical m e) : roundNat (mag m e) = mag m e := by
  refine roundNat_mul h.lt _ ?_
  obtain rfl | hnormal := h.normal
  · exact .inl rfl
  · exact .inr hnormal

theorem rounded_zero : Rounded 0 0 := ⟨.positive, 0, 0, rfl, rfl, .inl (Nat.zero_min _).symm⟩

theorem rounded_finite {s : Sign} {m : ℕ} {e : ℤ} (h : Canonical m e) (he : e ≤ 104) :
    Rounded (s.apply (mag m e)) (s.apply (mag m e)) := by
  refine ⟨s, mag m e, mag m e, rfl, rfl, .inl ?_⟩
  rw [roundNat_mag h, min_eq_left (mag_lt h.lt he).le]

/-- A number that is out of range is packed as an infinity. -/
theorem units_unpack_pack {s : Sign} {m : ℕ} {e : ℤ} {hm : 0 < m} (h : Canonical m e) :
    units (unpack Format.binary32 (pack Format.binary32 (.finite s m e hm))) =
      some (s.apply (min (mag m e) top : ℕ)) := by
  obtain hle | hgt := le_or_gt e 104
  · have hproper : Proper (.finite s m e hm) := ⟨h, hle⟩
    rw [unpack_pack hproper, min_eq_left (mag_lt h.lt hle).le]
    rfl
  · have hpack : pack Format.binary32 (.finite s m e hm) = packedInfinity Format.binary32 s := by
      rw [pack_finite, if_pos]
      omega
    rw [hpack, unpack_pack_infinity, min_eq_right (top_le_mag h hgt)]
    rfl

theorem normalize_spec {i e : ℤ} (he : -149 ≤ e) :
    ∃ r, units (unpack Format.binary32
        (pack Format.binary32 (UnpackedFloat.normalize Format.binary32 i e .positive))) = some r ∧
      Rounded (i * 2 ^ (e + 149).toNat) r := by
  unfold UnpackedFloat.normalize
  obtain hneg | rfl | hpos := lt_trichotomy i 0
  · obtain ⟨m', e', hm', hround, hcanonical, hmag⟩ := round_spec (s := .negative) (m := (-i).toNat) (by omega) he
    rw [compare_lt_iff_lt.mpr hneg]
    dsimp only
    rw [hround, units_unpack_pack hcanonical, hmag]
    refine ⟨_, rfl, .negative, mag (-i).toNat e, _, ?_, rfl, .inl rfl⟩
    simp only [Sign.apply, mag]
    push_cast
    rw [Int.toNat_of_nonneg (by omega)]
    ring
  · rw [compare_eq_iff_eq.mpr rfl, zero_mul]
    exact ⟨0, congrArg units (unpack_pack (f := .zero .positive) trivial), rounded_zero⟩
  · obtain ⟨m', e', hm', hround, hcanonical, hmag⟩ := round_spec (s := .positive) (m := i.toNat) (by omega) he
    rw [compare_gt_iff_gt.mpr hpos]
    dsimp only
    rw [hround, units_unpack_pack hcanonical, hmag]
    refine ⟨_, rfl, .positive, mag i.toNat e, _, ?_, rfl, .inl rfl⟩
    simp only [Sign.apply, mag]
    push_cast
    rw [Int.toNat_of_nonneg (by omega)]

theorem apply_mag (s : Sign) {m : ℕ} {e t : ℤ} (ht : -149 ≤ t) (hle : t ≤ e) :
    s.apply (mag m e) = s.apply (decreaseExponent m e t).1 * 2 ^ (t + 149).toNat := by
  have hsum : (e + 149).toNat = (e - t).toNat + (t + 149).toNat := by omega
  have hmag : mag m e = (decreaseExponent m e t).1 * 2 ^ (t + 149).toNat := by
    rw [mag, decreaseExponent, Nat.shiftLeft_eq, hsum, pow_add, mul_assoc]
  rw [hmag]
  cases s
  · simp only [Sign.apply]
    push_cast
    ring
  · simp only [Sign.apply]
    push_cast
    rfl

@[simp] theorem apply_neg (s : Sign) (i : ℤ) : (-s).apply i = -s.apply i := by
  cases s
  · exact (neg_neg i).symm
  · rfl

/-- Nothing in the format reaches an infinity. -/
theorem Rounded.neg {d r : ℤ} (h : Rounded d r) : Rounded (-d) (-r) := by
  obtain ⟨s, k, n, rfl, rfl, hround⟩ := h
  exact ⟨-s, k, n, (apply_neg s k).symm, (apply_neg s n).symm, hround⟩

theorem rounded_infinity (s : Sign) {c : ℤ} (hc : c.natAbs + 2 ^ 253 ≤ top) :
    Rounded (s.apply top - c) (s.apply top) := by
  refine ⟨s, (s.apply top - c).natAbs, top, ?_, rfl, .inr ⟨rfl, ?_⟩⟩ <;> cases s <;> simp only [Sign.apply] <;> omega

private theorem units_sub_finite {s s' : Sign} {m m' : ℕ} {e e' : ℤ} {hm : 0 < m} {hm' : 0 < m'} (h : Canonical m e)
    (h' : Canonical m' e') :
    ∃ r, units (unpack Format.binary32 (pack Format.binary32
      (sub Format.binary32 (.finite s m e hm) (.finite s' m' e' hm')))) =
      some r ∧ Rounded (s.apply (mag m e) - s'.apply (mag m' e')) r := by
  have hleast := h.least
  have hleast' := h'.least
  rw [apply_mag s (le_min hleast hleast') (min_le_left e e'), apply_mag s' (le_min hleast hleast') (min_le_right e e'),
    ← sub_mul]
  exact normalize_spec (le_min hleast hleast')

/-- A difference is the exact one, rounded. -/
theorem units_sub {x y : UnpackedFloat} {a b : ℤ} (hx : Proper x) (hy : Proper y) (ha : units x = some a)
    (hb : units y = some b) (hne : ¬(a = b ∧ a.natAbs = top)) :
    ∃ r, units (unpack Format.binary32 (pack Format.binary32 (sub Format.binary32 x y))) = some r ∧
      Rounded (a - b) r := by
  have hsame : ∀ z : UnpackedFloat, Proper z →
      units (unpack Format.binary32 (pack Format.binary32 z)) = units z := fun z hz => congrArg units (unpack_pack hz)
  have htop : 2 ^ 253 ≤ top := Nat.le_mul_of_pos_left _ (by decide)
  cases x with
  | notANumber => cases ha
  | infinity s =>
    obtain rfl := Option.some.inj ha
    cases y with
    | notANumber => cases hb
    | infinity s' =>
      obtain rfl := Option.some.inj hb
      have hopposite : s = -s' := by
        cases s <;> cases s' <;> first | rfl | exact absurd ⟨rfl, natAbs_apply _ top⟩ hne
      have hsub : sub Format.binary32 (.infinity s) (.infinity s') = .infinity s := by
        rw [hopposite]
        cases s' <;> rfl
      rw [hsub, hsame (.infinity s) trivial]
      refine ⟨_, rfl, s, 2 * top, top, ?_, rfl, .inr ⟨rfl, by omega⟩⟩
      rw [hopposite]
      cases s' <;> simp only [Sign.apply] <;> omega
    | zero s' =>
      obtain rfl := Option.some.inj hb
      have hsub : sub Format.binary32 (.infinity s) (.zero s') = .infinity s := rfl
      rw [hsub, hsame (.infinity s) trivial]
      exact ⟨_, rfl, rounded_infinity s (by simpa using htop)⟩
    | finite s' m e hm =>
      obtain rfl := Option.some.inj hb
      have hsub : sub Format.binary32 (.infinity s) (.finite s' m e hm) = .infinity s := rfl
      rw [hsub, hsame (.infinity s) trivial]
      refine ⟨_, rfl, rounded_infinity s ?_⟩
      rw [natAbs_apply]
      exact mag_add_le hy.1.lt hy.2
  | zero s =>
    obtain rfl := Option.some.inj ha
    cases y with
    | notANumber => cases hb
    | infinity s' =>
      obtain rfl := Option.some.inj hb
      have hsub : sub Format.binary32 (.zero s) (.infinity s') = .infinity (-s') := rfl
      rw [hsub, hsame (.infinity (-s')) trivial]
      refine ⟨_, rfl, ?_⟩
      have hfar := rounded_infinity (-s') (c := 0) (by simpa using htop)
      rw [zero_sub, ← apply_neg]
      rwa [sub_zero] at hfar
    | zero s' =>
      obtain rfl := Option.some.inj hb
      have hsub : units (sub Format.binary32 (.zero s) (.zero s')) = some 0 ∧
          Proper (sub Format.binary32 (.zero s) (.zero s')) := by
        cases s <;> cases s' <;> exact ⟨rfl, trivial⟩
      rw [hsame _ hsub.2, hsub.1]
      exact ⟨0, rfl, rounded_zero⟩
    | finite s' m e hm =>
      obtain rfl := Option.some.inj hb
      have hsub : sub Format.binary32 (.zero s) (.finite s' m e hm) = .finite (-s') m e hm := rfl
      rw [hsub, hsame (.finite (-s') m e hm) hy, zero_sub, ← apply_neg]
      exact ⟨_, rfl, rounded_finite hy.1 hy.2⟩
  | finite s m e hm =>
    obtain rfl := Option.some.inj ha
    cases y with
    | notANumber => cases hb
    | infinity s' =>
      obtain rfl := Option.some.inj hb
      have hsub : sub Format.binary32 (.finite s m e hm) (.infinity s') = .infinity (-s') := rfl
      rw [hsub, hsame (.infinity (-s')) trivial]
      refine ⟨_, rfl, ?_⟩
      have hfar := rounded_infinity (-s') (c := -s.apply (mag m e)) (by
        rw [Int.natAbs_neg, natAbs_apply]
        exact mag_add_le hx.1.lt hx.2)
      rw [sub_eq_add_neg, add_comm, ← apply_neg s']
      rwa [sub_neg_eq_add] at hfar
    | zero s' =>
      obtain rfl := Option.some.inj hb
      have hsub : sub Format.binary32 (.finite s m e hm) (.zero s') = .finite s m e hm := rfl
      rw [hsub, hsame _ hx, sub_zero]
      exact ⟨_, rfl, rounded_finite hx.1 hx.2⟩
    | finite s' m' e' hm' =>
      obtain rfl := Option.some.inj hb
      exact units_sub_finite hx.1 hy.1

/-- There is no difference with what is not a number, nor of an infinity and itself. -/
theorem units_sub_none {x y : UnpackedFloat} (hx : Proper x) (hy : Proper y)
    (h : ∀ a b, units x = some a → units y = some b → a = b ∧ a.natAbs = top) :
    units (unpack Format.binary32 (pack Format.binary32 (sub Format.binary32 x y))) = none := by
  have hnan : units (unpack Format.binary32 (pack Format.binary32 .notANumber)) = none := rfl
  have hpos := top_pos
  cases x with
  | notANumber => exact hnan
  | zero s =>
    cases y with
    | notANumber => exact hnan
    | infinity s' => exact absurd (h _ _ rfl rfl).2 hpos.ne
    | zero s' => exact absurd (h _ _ rfl rfl).2 hpos.ne
    | finite s' m' e' hm' => exact absurd (h _ _ rfl rfl).2 hpos.ne
  | finite s m e hm =>
    have hlt := mag_lt hx.1.lt hx.2
    have hne : ∀ b, units y ≠ some b := by
      intro b hb
      have hmag := (h _ b rfl hb).2
      rw [natAbs_apply] at hmag
      omega
    cases y with
    | notANumber => exact hnan
    | infinity s' => exact absurd rfl (hne _)
    | zero s' => exact absurd rfl (hne _)
    | finite s' m' e' hm' => exact absurd rfl (hne _)
  | infinity s =>
    cases y with
    | notANumber => exact hnan
    | infinity s' =>
      obtain rfl : s = s' := by
        have := (h _ _ rfl rfl).1
        cases s <;> cases s' <;> simp only [Sign.apply] at this <;> first | rfl | omega
      cases s <;> exact hnan
    | zero s' =>
      have := (h _ _ rfl rfl).1
      cases s <;> simp only [Sign.apply] at this <;> omega
    | finite s' m' e' hm' =>
      have heq := congrArg Int.natAbs (h _ _ rfl rfl).1
      rw [natAbs_apply, natAbs_apply] at heq
      exact absurd heq (mag_lt hy.1.lt hy.2).ne'

/-- An odd number of the format bounds a rounded difference if the exact one is below the midpoint behind it. -/
private theorem rounded_le_iff {k n m j : ℕ} (h : n = min (roundNat k) top ∨ n = top ∧ 2 ^ 253 ≤ k) (hm : 2 ^ 23 ≤ m)
    (hm' : m < 2 ^ 24) (hodd : m % 2 = 1) (hj : j ≤ 228) : n ≤ m * 2 ^ (j + 1) ↔ k < (2 * m + 1) * 2 ^ j := by
  have hlow : m * 2 ^ (j + 1) < top := by
    calc m * 2 ^ (j + 1) < 2 ^ 24 * 2 ^ (j + 1) := (Nat.mul_lt_mul_right (Nat.two_pow_pos _)).mpr hm'
      _ ≤ top := Nat.mul_le_mul_left _ (Nat.pow_le_pow_right (by decide) (by omega))
  have hhigh : (2 * m + 1) * 2 ^ j ≤ 2 ^ 253 := by
    calc (2 * m + 1) * 2 ^ j ≤ 2 ^ 25 * 2 ^ 228 := Nat.mul_le_mul (by omega) (Nat.pow_le_pow_right (by decide) hj)
      _ = 2 ^ 253 := rfl
  obtain rfl | ⟨rfl, hk⟩ := h
  · rw [min_le_iff, or_iff_left (by omega), roundNat_le_iff hm hm' hodd]
  · exact iff_of_false (by omega) (by omega)

section
variable {d r : ℤ} {m j : ℕ} (h : Rounded d r) (hm : 2 ^ 23 ≤ m) (hm' : m < 2 ^ 24) (hodd : m % 2 = 1) (hj : j ≤ 228)

include h hm hm' hodd hj

theorem Rounded.natAbs_le_iff : r.natAbs ≤ m * 2 ^ (j + 1) ↔ d.natAbs < (2 * m + 1) * 2 ^ j := by
  obtain ⟨s, k, n, rfl, rfl, hround⟩ := h
  rw [natAbs_apply, natAbs_apply]
  exact rounded_le_iff hround hm hm' hodd hj

theorem Rounded.le_iff : r ≤ (m * 2 ^ (j + 1) : ℕ) ↔ d < ((2 * m + 1) * 2 ^ j : ℕ) := by
  obtain ⟨s, k, n, rfl, rfl, hround⟩ := h
  have hpos : 0 < (2 * m + 1) * 2 ^ j := Nat.mul_pos (Nat.succ_pos _) (Nat.two_pow_pos j)
  have hbound := rounded_le_iff hround hm hm' hodd hj
  cases s with
  | negative => exact iff_of_true (by simp only [Sign.apply]; omega) (by simp only [Sign.apply]; omega)
  | positive =>
    simp only [Sign.apply, Nat.cast_le, Nat.cast_lt]
    exact hbound

end

/-! ### The floats themselves -/

/-- A float in multiples of `2^-149`. -/
def count (f : Float32) : Option ℤ := units f.toModel.unpack

private theorem compare_count (f g : Float32) :
    f.toModel.unpack.compare g.toModel.unpack = Option.map₂ compare (count f) (count g) :=
  compare_eq (unpack_proper f.toModel.toBits.toBitVec) (unpack_proper g.toModel.toBits.toBitVec)

private theorem lt_iff_compare {f g : Float32} : f < g ↔ Option.map₂ compare (count f) (count g) = some .lt := by
  change decide (f.toModel < g.toModel) = true ↔ _
  rw [decide_eq_true_iff]
  change (f.toModel.unpack.compare g.toModel.unpack == some .lt) = true ↔ _
  rw [beq_iff_eq, compare_count]

private theorem le_iff_compare {f g : Float32} :
    f ≤ g ↔ (Option.map₂ compare (count f) (count g)).any (·.isLE) = true := by
  change decide (f.toModel ≤ g.toModel) = true ↔ _
  rw [decide_eq_true_iff]
  change (f.toModel.unpack.compare g.toModel.unpack).any (·.isLE) = true ↔ _
  rw [compare_count]

section
variable {f g : Float32} {a b : ℤ}

theorem lt_iff (hf : count f = some a) (hg : count g = some b) : f < g ↔ a < b := by
  rw [lt_iff_compare, hf, hg, Option.map₂_some_some, Option.some.injEq, compare_lt_iff_lt]

theorem le_iff (hf : count f = some a) (hg : count g = some b) : f ≤ g ↔ a ≤ b := by
  rw [le_iff_compare, hf, hg, Option.map₂_some_some, Option.any_some]
  exact Ordering.ne_gt_iff_isLE.symm.trans compare_le_iff_le

theorem not_le_of_nan (hf : count f = none) : ¬f ≤ g := by
  rw [le_iff_compare, hf]
  exact Bool.false_ne_true

theorem not_lt_of_nan (hg : count g = none) : ¬f < g := by
  rw [lt_iff_compare, hg, Option.map₂_none_right]
  exact nofun

theorem not_le_nan (hg : count g = none) : ¬f ≤ g := by
  rw [le_iff_compare, hg, Option.map₂_none_right]
  exact Bool.false_ne_true

theorem nan_not_lt (hf : count f = none) : ¬f < g := by
  rw [lt_iff_compare, hf, Option.map₂_none_left]
  exact nofun

end

theorem count_abs (f : Float32) : count f.abs = (count f).map fun a => (a.natAbs : ℤ) := by
  have hproper : Proper f.toModel.unpack := unpack_proper f.toModel.toBits.toBitVec
  have habs : count f.abs = units (unpack Format.binary32
    (pack Format.binary32 (UnpackedFloat.abs f.toModel.unpack))) := rfl
  rw [habs, count]
  cases hf : f.toModel.unpack with
  | notANumber => rfl
  | infinity s => cases s <;> rfl
  | zero s => cases s <;> rfl
  | finite s m e hm =>
    rw [hf] at hproper
    have hnat : ((s.apply (mag m e)).natAbs : ℤ) = Sign.positive.apply (mag m e) := congrArg Nat.cast (natAbs_apply s _)
    have hunits :
        Option.map (fun a : ℤ => (a.natAbs : ℤ)) (units (.finite s m e hm)) = units (.finite .positive m e hm) :=
      congrArg some hnat
    rw [hunits]
    exact congrArg units (unpack_pack (f := .finite .positive m e hm) hproper)

/-- The exact difference, which NaN does not have, nor an infinity and itself. -/
def difference (f g : Float32) : Option ℤ :=
  match count f, count g with
  | some a, some b => if a = b ∧ a.natAbs = top then none else some (a - b)
  | _, _ => none

theorem difference_eq_some {f g : Float32} {d : ℤ} :
    difference f g = some d ↔ ∃ a b, count f = some a ∧ count g = some b ∧ ¬(a = b ∧ a.natAbs = top) ∧ a - b = d := by
  unfold difference
  cases count f with
  | none => simp
  | some a =>
    cases count g with
    | none => simp
    | some b => simp

theorem difference_swap (f g : Float32) : difference g f = (difference f g).map Neg.neg := by
  unfold difference
  cases count f with
  | none => cases count g <;> rfl
  | some a =>
    cases count g with
    | none => rfl
    | some b =>
      dsimp only
      have hswap : (b = a ∧ b.natAbs = top) ↔ (a = b ∧ a.natAbs = top) := by
        constructor <;> rintro ⟨rfl, htop⟩ <;> exact ⟨rfl, htop⟩
      simp only [hswap]
      split_ifs
      · rfl
      · exact congrArg some (neg_sub a b).symm

/-- A subtraction rounds the exact difference. -/
theorem count_sub {f g : Float32} {d : ℤ} (h : difference f g = some d) :
    ∃ r, count (f - g) = some r ∧ Rounded d r := by
  obtain ⟨a, b, hf, hg, hne, rfl⟩ := difference_eq_some.mp h
  exact units_sub (unpack_proper f.toModel.toBits.toBitVec) (unpack_proper g.toModel.toBits.toBitVec) hf hg hne

theorem count_sub_none {f g : Float32} (h : difference f g = none) : count (f - g) = none := by
  refine units_sub_none (unpack_proper f.toModel.toBits.toBitVec) (unpack_proper g.toModel.toBits.toBitVec) ?_
  intro a b hf hg
  by_contra hne
  have := difference_eq_some.mpr ⟨a, b, hf, hg, hne, rfl⟩
  rw [h] at this
  cases this

/-! ### From the bits -/

/-- The multiple of `2^-149` that a bit pattern without its sign stands for. -/
def pattern (w : ℕ) : ℕ := if w < 2 ^ 23 then w else (2 ^ 23 + w % 2 ^ 23) * 2 ^ (w / 2 ^ 23 - 1)

theorem pattern_lt {v w : ℕ} (h : v < w) : pattern v < pattern w := by
  unfold pattern
  by_cases hw : w < 2 ^ 23
  · rwa [if_pos hw, if_pos (h.trans hw)]
  rw [if_neg hw]
  have hleast : 2 ^ 23 ≤ 2 ^ 23 + w % 2 ^ 23 := Nat.le_add_right _ _
  by_cases hv : v < 2 ^ 23
  · rw [if_pos hv]
    exact hv.trans_le (hleast.trans (Nat.le_mul_of_pos_right _ (Nat.two_pow_pos _)))
  rw [if_neg hv]
  rcases Nat.lt_or_ge (v / 2 ^ 23) (w / 2 ^ 23) with hexp | hexp
  · have hpow : 2 ^ (v / 2 ^ 23 - 1) * 2 ≤ 2 ^ (w / 2 ^ 23 - 1) := by
      rw [← Nat.pow_succ]
      exact Nat.pow_le_pow_right Nat.two_pos (by omega)
    calc (2 ^ 23 + v % 2 ^ 23) * 2 ^ (v / 2 ^ 23 - 1)
        < 2 ^ 24 * 2 ^ (v / 2 ^ 23 - 1) := Nat.mul_lt_mul_of_pos_right (by omega) (Nat.two_pow_pos _)
      _ = 2 ^ 23 * (2 ^ (v / 2 ^ 23 - 1) * 2) := by ring
      _ ≤ 2 ^ 23 * 2 ^ (w / 2 ^ 23 - 1) := Nat.mul_le_mul_left _ hpow
      _ ≤ (2 ^ 23 + w % 2 ^ 23) * 2 ^ (w / 2 ^ 23 - 1) := Nat.mul_le_mul_right _ hleast
  · have hsame : v / 2 ^ 23 = w / 2 ^ 23 := by omega
    rw [hsame]
    exact Nat.mul_lt_mul_of_pos_right (by omega) (Nat.two_pow_pos _)

/-- The sign of a bit pattern on a natural number. -/
def signed (b : BitVec 32) (n : ℕ) : ℤ := if b.msb then -n else n

theorem apply_sign (b : BitVec 32) (n : ℕ) :
    (Sign.ofBitVec (@unpackSign Format.binary32 b)).apply n = signed b n := by
  have hbit : @unpackSign Format.binary32 b = BitVec.ofBool b.msb := by
    ext i hi
    obtain rfl : i = 0 := by omega
    have hcut : @unpackSign Format.binary32 b = b.extractLsb 31 31 := rfl
    rw [hcut, BitVec.msb_eq_getLsbD_last]
    simp
  rw [hbit]
  unfold signed
  cases b.msb <;> rfl

theorem units_unpack (b : BitVec 32) : units (unpack Format.binary32 b) =
    if 255 * 2 ^ 23 < b.toNat % 2 ^ 31 then none else some (signed b (pattern (b.toNat % 2 ^ 31))) := by
  have hm : (@unpackMantissa Format.binary32 b).toNat = b.toNat % 2 ^ 23 := by
    unfold unpackMantissa
    rw [BitVec.toNat_cast, BitVec.extractLsb_toNat]
    rfl
  have he : (@unpackExponent Format.binary32 b).toNat = b.toNat / 2 ^ 23 % 2 ^ 8 := by
    unfold unpackExponent
    rw [BitVec.toNat_cast, BitVec.extractLsb_toNat, Nat.shiftRight_eq_div_pow]
    rfl
  have hsign := apply_sign b
  have himplicit := toNat_implicit (@unpackMantissa Format.binary32 b)
  have hzero : ∀ v : BitVec 23, v = 0#23 ↔ v.toNat = 0 := fun v => BitVec.toNat_eq
  have hnone : ∀ v : BitVec 8, v = 0#8 ↔ v.toNat = 0 := fun v => BitVec.toNat_eq
  have hlast : ∀ v : BitVec 8, v = -1#8 ↔ v.toNat = 255 := fun v => BitVec.toNat_eq
  unfold UnpackedFloat.unpack pattern
  dsimp only
  by_cases hinf : @unpackExponent Format.binary32 b = -1#8
  · have hexp := he.symm.trans ((hlast _).mp hinf)
    rw [if_pos hinf]
    by_cases hm0 : @unpackMantissa Format.binary32 b = 0#23
    · have hman := hm.symm.trans ((hzero _).mp hm0)
      have hw : b.toNat % 2 ^ 31 = 255 * 2 ^ 23 := by omega
      rw [if_pos hm0, if_neg (by omega), if_neg (by omega), hw]
      exact congrArg some (hsign top)
    · have hman : b.toNat % 2 ^ 23 ≠ 0 := fun h => hm0 ((hzero _).mpr (hm.trans h))
      rw [if_neg hm0, if_pos (by omega)]
      rfl
  · have hexp : b.toNat / 2 ^ 23 % 2 ^ 8 ≠ 255 := fun h => hinf ((hlast _).mpr (he.trans h))
    have hnan : ¬255 * 2 ^ 23 < b.toNat % 2 ^ 31 := by omega
    rw [if_neg hinf, if_neg hnan]
    by_cases he0 : @unpackExponent Format.binary32 b = 0#8
    · have hsub := he.symm.trans ((hnone _).mp he0)
      rw [if_pos he0, if_pos (by omega)]
      by_cases hm0 : @unpackMantissa Format.binary32 b = 0#23
      · have hman := hm.symm.trans ((hzero _).mp hm0)
        have hw : b.toNat % 2 ^ 31 = 0 := by omega
        rw [dif_pos hm0, hw]
        exact congrArg some ((show (0 : ℤ) = _ from by unfold signed; split <;> rfl))
      · have hw : b.toNat % 2 ^ 31 = b.toNat % 2 ^ 23 := by omega
        rw [dif_neg hm0, hw, ← hsign, ← hm]
        have hmag : mag (@unpackMantissa Format.binary32 b).toNat
            (((@unpackExponent Format.binary32 b).toNat : ℤ) - (127 + 23) + 1) =
              (@unpackMantissa Format.binary32 b).toNat := by
          rw [(hnone _).mp he0]
          exact Nat.mul_one _
        exact congrArg (fun n : ℕ => some ((Sign.ofBitVec (@unpackSign Format.binary32 b)).apply n)) hmag
    · have hnorm : b.toNat / 2 ^ 23 % 2 ^ 8 ≠ 0 := fun h => he0 ((hnone _).mpr (he.trans h))
      rw [if_neg he0, if_neg (by omega), ← hsign]
      have hmag : mag (1#1 ++ @unpackMantissa Format.binary32 b).toNat
          (((@unpackExponent Format.binary32 b).toNat : ℤ) - (127 + 23)) =
            (2 ^ 23 + b.toNat % 2 ^ 31 % 2 ^ 23) * 2 ^ (b.toNat % 2 ^ 31 / 2 ^ 23 - 1) := by
        unfold mag
        rw [himplicit, hm, he]
        congr 2
        · omega
        · omega
      exact congrArg (fun n : ℕ => some ((Sign.ofBitVec (@unpackSign Format.binary32 b)).apply n)) hmag

theorem count_ofBits (b : BitVec 32) : count (.ofBits ⟨b⟩) =
    if 255 * 2 ^ 23 < b.toNat % 2 ^ 31 then none else some (signed b (pattern (b.toNat % 2 ^ 31))) := by
  rw [← units_unpack]
  exact congrArg units (unpack_pack (unpack_proper b))

theorem pattern_zero : pattern 0 = 0 := rfl

/-- The pattern of a signed magnitude. -/
def signedPattern (i : ℤ) : ℤ := i.sign * pattern i.natAbs

theorem signed_pattern (b : BitVec 32) (n : ℕ) : signed b (pattern n) = signedPattern (signed b n) := by
  unfold signed signedPattern
  rcases Nat.eq_zero_or_pos n with rfl | hn
  · rw [pattern_zero]
    split <;> rfl
  · have hsign : (n : ℤ).sign = 1 := Int.sign_eq_one_of_pos (by omega)
    split
    · rw [Int.sign_neg, hsign, Int.natAbs_neg, Int.natAbs_natCast, neg_one_mul]
    · rw [hsign, Int.natAbs_natCast, one_mul]

theorem signedPattern_lt {i j : ℤ} (h : i < j) : signedPattern i < signedPattern j := by
  have hpos : ∀ n : ℕ, 0 < n → 0 < pattern n := fun n hn => pattern_lt hn
  unfold signedPattern
  obtain hi | rfl | hi := lt_trichotomy i 0
  · have hi' := hpos i.natAbs (by omega)
    rw [Int.sign_eq_neg_one_of_neg hi]
    obtain hj | rfl | hj := lt_trichotomy j 0
    · have hlt := pattern_lt (show j.natAbs < i.natAbs by omega)
      rw [Int.sign_eq_neg_one_of_neg hj]
      omega
    · rw [Int.sign_zero]
      omega
    · rw [Int.sign_eq_one_of_pos hj]
      omega
  · have hj' := hpos j.natAbs (by omega)
    rw [Int.sign_eq_one_of_pos h, Int.sign_zero]
    omega
  · have hlt := pattern_lt (show i.natAbs < j.natAbs by omega)
    rw [Int.sign_eq_one_of_pos hi, Int.sign_eq_one_of_pos (hi.trans h)]
    omega

theorem compare_signedPattern (i j : ℤ) : compare (signedPattern i) (signedPattern j) = compare i j := by
  obtain h | rfl | h := lt_trichotomy i j
  · rw [compare_lt_iff_lt.mpr h, compare_lt_iff_lt.mpr (signedPattern_lt h)]
  · rw [compare_eq_iff_eq.mpr rfl, compare_eq_iff_eq.mpr rfl]
  · rw [compare_gt_iff_gt.mpr h, compare_gt_iff_gt.mpr (signedPattern_lt h)]

end Binary32
