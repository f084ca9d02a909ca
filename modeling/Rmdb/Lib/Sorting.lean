import Mathlib.Data.List.Basic
import Mathlib.Order.Defs.Unbundled
import Mathlib.Tactic.Common

/-! Sorting by an order that need only be strict and weak on the elements that are sorted. -/
namespace Sorting

variable {α β : Type}

/-- A strict weak order on the elements that meet `P`. -/
structure StrictWeakOn (P : α → Prop) (lt : α → α → Bool) : Prop where
  irrefl : ∀ a, P a → lt a a = false
  trans : ∀ a b c, P a → P b → P c → lt a b = true → lt b c = true → lt a c = true
  level : ∀ a b c, P a → P b → P c → lt a b = false → lt b a = false → lt b c = false → lt c b = false →
    lt a c = false ∧ lt c a = false

/-- What a sorting function promises for a list whose elements the order is strict and weak on. -/
def Sorts (sort : (α → α → Bool) → List α → List α) : Prop :=
  ∀ lt l, StrictWeakOn (· ∈ l) lt → (sort lt l).Perm l ∧ (sort lt l).Pairwise fun a b => lt b a = false

section
variable {P Q : α → Prop} {lt : α → α → Bool}

theorem StrictWeakOn.mono (h : StrictWeakOn P lt) (hQ : ∀ a, Q a → P a) : StrictWeakOn Q lt where
  irrefl a ha := h.irrefl a (hQ a ha)
  trans a b c ha hb hc := h.trans a b c (hQ a ha) (hQ b hb) (hQ c hc)
  level a b c ha hb hc := h.level a b c (hQ a ha) (hQ b hb) (hQ c hc)

theorem StrictWeakOn.congr {lt' : α → α → Bool} (h : StrictWeakOn P lt) (heq : ∀ a b, P a → P b → lt' a b = lt a b) :
    StrictWeakOn P lt' where
  irrefl a ha := by rw [heq a a ha ha, h.irrefl a ha]
  trans a b c ha hb hc := by
    rw [heq a b ha hb, heq b c hb hc, heq a c ha hc]
    exact h.trans a b c ha hb hc
  level a b c ha hb hc := by
    rw [heq a b ha hb, heq b a hb ha, heq b c hb hc, heq c b hc hb, heq a c ha hc, heq c a hc ha]
    exact h.level a b c ha hb hc

theorem StrictWeakOn.comap (h : StrictWeakOn P lt) (f : β → α) :
    StrictWeakOn (fun b => P (f b)) fun b c => lt (f b) (f c) :=
  ⟨fun a => h.irrefl (f a), fun a b c => h.trans (f a) (f b) (f c), fun a b c => h.level (f a) (f b) (f c)⟩

theorem StrictWeakOn.isStrictWeakOrder (h : StrictWeakOn (fun _ : α => True) lt) :
    IsStrictWeakOrder α fun a b => lt a b = true where
  irrefl a := Bool.eq_false_iff.mp (h.irrefl a trivial)
  trans a b c := h.trans a b c trivial trivial trivial
  incomp_trans a b c hab hbc := by
    simp only [Bool.not_eq_true] at hab hbc ⊢
    exact h.level a b c trivial trivial trivial hab.1 hab.2 hbc.1 hbc.2

theorem StrictWeakOn.asymm (h : StrictWeakOn P lt) {a b : α} (ha : P a) (hb : P b) (hab : lt a b = true) :
    lt b a = false := by
  by_contra hba
  have haa := h.trans a b a ha hb ha hab (Bool.of_not_eq_false hba)
  rw [h.irrefl a ha] at haa
  cases haa

/-- What does not come after `b` does not come after what does not come before `b`. -/
theorem StrictWeakOn.negTrans (h : StrictWeakOn P lt) {a b c : α} (ha : P a) (hb : P b) (hc : P c)
    (hba : lt b a = false) (hcb : lt c b = false) : lt c a = false := by
  by_contra hca
  rw [Bool.not_eq_false] at hca
  cases hab : lt a b with
  | true => exact absurd (h.trans c a b hc ha hb hca hab) (Bool.eq_false_iff.mp hcb)
  | false =>
    cases hbc : lt b c with
    | true => exact absurd (h.trans b c a hb hc ha hbc hca) (Bool.eq_false_iff.mp hba)
    | false => exact absurd hca (Bool.eq_false_iff.mp (h.level a b c ha hb hc hab hba hbc hcb).2)

section
variable {c : α → α → Ordering} (hswap : ∀ a b, P a → P b → c a b = (c b a).swap)

include hswap

private theorem eq_of_not_lt {a b : α} (ha : P a) (hb : P b) (hab : c a b ≠ .lt) (hba : c b a ≠ .lt) : c a b = .eq := by
  rw [hswap b a hb ha] at hba
  revert hab hba
  cases c a b <;> decide

private theorem eq_of_isLE {a b : α} (ha : P a) (hb : P b) (hab : (c a b).isLE) (hba : (c b a).isLE) : c a b = .eq := by
  rw [hswap b a hb ha] at hba
  revert hab hba
  cases c a b <;> decide

/-- A comparison that is antisymmetric and transitive makes a strict weak order. -/
theorem StrictWeakOn.of_ordering
    (htrans : ∀ a b e, P a → P b → P e → (c a b).isLE → (c b e).isLE → (c a e).isLE) :
    StrictWeakOn P fun a b => c a b = .lt where
  irrefl a ha := by
    rw [decide_eq_false_iff_not]
    intro hlt
    have h := hswap a a ha ha
    rw [hlt] at h
    cases h
  trans a b e ha hb he hab hbe := by
    rw [decide_eq_true_iff] at hab hbe ⊢
    by_contra hne
    have hae := htrans a b e ha hb he (hab ▸ rfl) (hbe ▸ rfl)
    -- level with `a`, the last would be no later than the middle
    have hea : c e a ≠ .gt := fun hgt => hne (by rw [hswap a e ha he, hgt]; rfl)
    have heb := htrans e a b he ha hb (Ordering.ne_gt_iff_isLE.mp hea) (hab ▸ rfl)
    rw [hswap e b he hb, hbe] at heb
    cases heb
  level a b e ha hb he hab hba hbe heb := by
    rw [decide_eq_false_iff_not] at hab hba hbe heb
    have habEq := eq_of_not_lt hswap ha hb hab hba
    have hbeEq := eq_of_not_lt hswap hb he hbe heb
    have hae := htrans a b e ha hb he (habEq ▸ rfl) (hbeEq ▸ rfl)
    have hea := htrans e b a he hb ha (by rw [hswap e b he hb, hbeEq]; rfl) (by rw [hswap b a hb ha, habEq]; rfl)
    have haeEq := eq_of_isLE hswap ha he hae hea
    have heaEq := eq_of_isLE hswap he ha hea hae
    rw [haeEq, heaEq]
    exact ⟨rfl, rfl⟩

end

/-- The merge sort sorts. -/
theorem sorts_mergeSort : Sorts fun (lt : α → α → Bool) l => l.mergeSort fun a b => !lt b a := by
  intro lt l h
  refine ⟨List.mergeSort_perm l _, ?_⟩
  -- on the elements of the list the order is total
  have hmap : (l.attach.mergeSort fun a b => !lt b.1 a.1).map Subtype.val = l.mergeSort fun a b => !lt b a := by
    rw [List.map_mergeSort (s := fun a b => !lt b a) fun _ _ _ _ => rfl, List.attach_map_subtype_val]
  have hsorted : (l.attach.mergeSort fun a b => !lt b.1 a.1).Pairwise fun a b => (!lt b.1 a.1) = true := by
    apply List.pairwise_mergeSort
    · intro a b e hab hbe
      rw [Bool.not_eq_true'] at hab hbe ⊢
      exact h.negTrans a.2 b.2 e.2 hab hbe
    · intro a b
      cases hab : lt a.1 b.1 with
      | true =>
        rw [h.asymm a.2 b.2 hab]
        rfl
      | false => exact Bool.or_true _
  change (l.mergeSort fun a b => !lt b a).Pairwise _
  rw [← hmap, List.pairwise_map]
  exact hsorted.imp fun hab => (Bool.not_eq_true' _).mp hab

end
/-! One key after another. -/

section
variable {κ : Type} {f g : κ → Ordering} {keys : List κ} {o : Ordering}

/-- The first key that tells decides. -/
def lexOrder (f : κ → Ordering) : List κ → Ordering
  | [] => .eq
  | key :: keys => (f key).then (lexOrder f keys)

theorem lexOrder_eq_eq_iff : lexOrder f keys = .eq ↔ ∀ key ∈ keys, f key = .eq := by
  induction keys with
  | nil => exact iff_of_true rfl (List.forall_mem_nil _)
  | cons key keys ih => rw [lexOrder, Ordering.then_eq_eq, ih, List.forall_mem_cons]

theorem lexOrder_eq_iff (ho : o ≠ .eq) : lexOrder f keys = o ↔
    ∃ pre key post, keys = pre ++ key :: post ∧ (∀ k ∈ pre, f k = .eq) ∧ f key = o := by
  induction keys with
  | nil =>
    refine iff_of_false (Ne.symm ho) fun ⟨pre, key, post, hkeys, _⟩ => ?_
    exact List.append_ne_nil_of_right_ne_nil pre (List.cons_ne_nil key post) hkeys.symm
  | cons first keys ih =>
    have hcons : (∃ pre key post, first :: keys = pre ++ key :: post ∧ (∀ k ∈ pre, f k = .eq) ∧ f key = o) ↔
        f first = o ∨ f first = .eq ∧ lexOrder f keys = o := by
      rw [ih]
      constructor
      · intro ⟨pre, key, post, hkeys, hpre, hkey⟩
        cases pre with
        | nil =>
          obtain ⟨rfl, rfl⟩ := List.cons.inj hkeys
          exact .inl hkey
        | cons head pre =>
          obtain ⟨rfl, rfl⟩ := List.cons.inj hkeys
          rw [List.forall_mem_cons] at hpre
          exact .inr ⟨hpre.1, pre, key, post, rfl, hpre.2, hkey⟩
      · intro h
        cases h with
        | inl hfirst => exact ⟨[], first, keys, rfl, List.forall_mem_nil _, hfirst⟩
        | inr hlater =>
          obtain ⟨heq, pre, key, post, rfl, hpre, hkey⟩ := hlater
          exact ⟨first :: pre, key, post, rfl, List.forall_mem_cons.mpr ⟨heq, hpre⟩, hkey⟩
    rw [hcons, lexOrder]
    cases hfirst : f first with
    | eq => exact ⟨fun h => .inr ⟨rfl, h⟩, fun h => h.elim (fun heq => absurd heq.symm ho) And.right⟩
    | lt => exact ⟨.inl, fun h => h.elim id fun hlater => nomatch hlater.1⟩
    | gt => exact ⟨.inl, fun h => h.elim id fun hlater => nomatch hlater.1⟩

/-- The first key that differs is level in the coarse order, and there a later key decides the other way round. -/
def Turned (f g : κ → Ordering) (keys : List κ) : Prop :=
  ∃ pre key rest, keys = pre ++ key :: rest ∧ (∀ k ∈ pre, f k = .eq) ∧ f key ≠ .eq ∧ g key = .eq ∧
    ∃ mid later post, rest = mid ++ later :: post ∧ (∀ k ∈ mid, g k = .eq) ∧ g later = (f key).swap

/-- A coarser order of the same keys is the reverse one where all keys are the same or it is turned. -/
theorem lexOrder_eq_swap_iff (hcoarse : ∀ key ∈ keys, g key = .eq ∨ g key = f key) :
    lexOrder g keys = (lexOrder f keys).swap ↔ (∀ key ∈ keys, f key = .eq) ∨ Turned f g keys := by
  induction keys with
  | nil => exact iff_of_true rfl (.inl (List.forall_mem_nil _))
  | cons first keys ih =>
    rw [List.forall_mem_cons] at hcoarse
    obtain ⟨hfirst, hrest⟩ := hcoarse
    by_cases heq : f first = .eq
    · have hg : g first = .eq := hfirst.elim id (·.trans heq)
      have hturned : Turned f g (first :: keys) ↔ Turned f g keys := by
        constructor
        · intro ⟨pre, key, rest, hkeys, hpre, hkey, hlater⟩
          cases pre with
          | nil =>
            obtain ⟨rfl, rfl⟩ := List.cons.inj hkeys
            exact absurd heq hkey
          | cons head pre =>
            obtain ⟨rfl, rfl⟩ := List.cons.inj hkeys
            exact ⟨pre, key, rest, rfl, (List.forall_mem_cons.mp hpre).2, hkey, hlater⟩
        · intro ⟨pre, key, rest, hkeys, hpre, hkey, hlater⟩
          exact ⟨first :: pre, key, rest, congrArg _ hkeys, List.forall_mem_cons.mpr ⟨heq, hpre⟩, hkey, hlater⟩
      rw [lexOrder, lexOrder, heq, hg, Ordering.eq_then, Ordering.eq_then, ih hrest, List.forall_mem_cons,
        and_iff_right heq, hturned]
    · have hswap : (f first).swap ≠ .eq := by
        revert heq
        cases f first <;> decide
      have hfine : ∀ o, (f first).then o = f first := by
        intro o
        revert heq
        cases f first with
        | eq => exact fun heq => absurd rfl heq
        | lt => exact fun _ => rfl
        | gt => exact fun _ => rfl
      have hturned : Turned f g (first :: keys) ↔ g first = .eq ∧ lexOrder g keys = (f first).swap := by
        rw [lexOrder_eq_iff hswap]
        constructor
        · intro ⟨pre, key, rest, hkeys, hpre, hkey, hlevel, hlater⟩
          cases pre with
          | nil =>
            obtain ⟨rfl, rfl⟩ := List.cons.inj hkeys
            exact ⟨hlevel, hlater⟩
          | cons head pre =>
            obtain ⟨rfl, rfl⟩ := List.cons.inj hkeys
            exact absurd (List.forall_mem_cons.mp hpre).1 heq
        · exact fun ⟨hlevel, hlater⟩ => ⟨[], first, keys, rfl, List.forall_mem_nil _, heq, hlevel, hlater⟩
      rw [lexOrder, lexOrder, hfine, hturned, List.forall_mem_cons, or_iff_right fun h => heq h.1]
      cases hfirst with
      | inl hlevel =>
        rw [hlevel, Ordering.eq_then]
        exact (and_iff_right rfl).symm
      | inr hsame =>
        have hne : f first ≠ (f first).swap := by
          revert heq
          cases f first <;> decide
        rw [hsame, hfine]
        exact iff_of_false hne fun h => heq h.1

end

end Sorting
