import Mathlib.Data.List.GetD
import Mathlib.Data.Nat.Digits.Lemmas
import Mathlib.Tactic.Common

/-! Tables of integers packed into one number, where an entry is found by a division. -/
namespace PackedTable

/-- The entries of a table are the digits of a number, each greater by `shift` than the entry. -/
def pack (base : ℕ) (shift : ℤ) (table : List ℤ) : ℕ := Nat.ofDigits base (table.map fun x => (x + shift).toNat)

def digit (base code i : ℕ) : ℕ := code / base ^ i % base

/-- The entries that can be packed. -/
def Packs (base : ℕ) (shift : ℤ) (table : List ℤ) : Prop := 0 < base ∧ ∀ x ∈ table, 0 ≤ x + shift ∧ x + shift < base

instance (base : ℕ) (shift : ℤ) (table : List ℤ) : Decidable (Packs base shift table) :=
  inferInstanceAs (Decidable (_ ∧ ∀ x ∈ table, _))

variable {base : ℕ} {shift : ℤ} {table : List ℤ}

theorem digit_ofDigits {digits : List ℕ} (hpos : 0 < base) (hless : ∀ x ∈ digits, x < base) (i : ℕ) :
    digit base (Nat.ofDigits base digits) i = digits.getD i 0 := by
  rw [digit, Nat.ofDigits_div_pow_eq_ofDigits_drop i hpos digits hless]
  cases hdrop : digits.drop i with
  | nil =>
    rw [List.drop_eq_nil_iff] at hdrop
    rw [List.getD_eq_default _ _ hdrop, Nat.ofDigits_nil, Nat.zero_mod]
  | cons x rest =>
    have hx : digits.getD i 0 = x := by
      rw [List.getD_eq_getElem?_getD, ← List.head?_drop, hdrop]
      rfl
    have hmem : x ∈ digits := List.mem_of_mem_drop (hdrop ▸ List.mem_cons_self)
    rw [hx, Nat.ofDigits_cons, Nat.add_mul_mod_self_left]
    exact Nat.mod_eq_of_lt (hless x hmem)

/-- The digit of an entry; behind the table are digits 0. -/
theorem digit_pack (h : Packs base shift table) (i : ℕ) :
    (digit base (pack base shift table) i : ℤ) = table.getD i (-shift) + shift := by
  obtain ⟨hpos, hentries⟩ := h
  rw [pack, digit_ofDigits hpos]
  · rw [List.getD_eq_getElem?_getD, List.getElem?_map, List.getD_eq_getElem?_getD]
    cases hi : table[i]? with
    | none => simp
    | some x =>
      have hx := hentries x (List.mem_of_getElem? hi)
      simp only [Option.map_some, Option.getD_some]
      omega
  · intro x hx
    obtain ⟨y, hy, rfl⟩ := List.mem_map.mp hx
    have := hentries y hy
    omega

end PackedTable
