import Mathlib.Data.List.Basic
import Mathlib.Data.List.Perm.Basic
import Mathlib.Tactic.Common
import Rmdb.Lib.Bisect

/-! Arrays of slots of which the first `n` are live, kept sorted by a three-way comparison,
and the association lists they stand for. Slots at or after `n` keep whatever was last
written there. -/
namespace SlotArray

variable {α K V : Type*}

/-- Open a gap at `pos` by moving the live slots from `pos` on one to the right. -/
def insertAt (f : ℕ → α) (n pos : ℕ) (x : α) : ℕ → α := fun i =>
  if i < pos ∨ n < i then f i else if i = pos then x else f (i - 1)

/-- Open a gap of `m` slots at `pos` and fill it from `new`. -/
def insertMany (f : ℕ → α) (n pos : ℕ) (new : ℕ → α) (m : ℕ) : ℕ → α := fun i =>
  if i < pos ∨ n + m ≤ i then f i else if i < pos + m then new (i - pos) else f (i - m)

/-- Close the gap at `pos`; the last live slot keeps its contents. -/
def eraseAt (f : ℕ → α) (n pos : ℕ) : ℕ → α := fun i =>
  if pos ≤ i ∧ i + 1 < n then f (i + 1) else f i

def toList (f : ℕ → α) (n : ℕ) : List α := (List.range n).map f

@[simp] theorem length_toList (f : ℕ → α) (n : ℕ) : (toList f n).length = n := by
  simp [toList]

@[simp] theorem getElem_toList (f : ℕ → α) (n i : ℕ) (h : i < (toList f n).length) :
    (toList f n)[i] = f i := by
  simp [toList]

theorem mem_toList {f : ℕ → α} {n : ℕ} {x : α} : x ∈ toList f n ↔ ∃ i < n, f i = x := by
  simp [toList]

theorem insertMany_one (f : ℕ → α) (n pos : ℕ) (new : ℕ → α) :
    insertMany f n pos new 1 = insertAt f n pos (new 0) := by
  funext i
  simp only [insertMany, insertAt]
  split_ifs <;> first | rfl | omega | skip
  rw [show i - pos = 0 by omega]

/-! What holds of all slots, still holds after a change. -/

theorem forall_insertMany {P : α → Prop} {f new : ℕ → α} (n pos m : ℕ) (hf : ∀ i, P (f i)) (hnew : ∀ i < m, P (new i)) (i : ℕ) :
    P (insertMany f n pos new m i) := by
  unfold insertMany
  split_ifs
  · exact hf i
  · exact hnew _ (by omega)
  · exact hf _

theorem forall_insertAt {P : α → Prop} {f : ℕ → α} {x : α} (n pos : ℕ) (hf : ∀ i, P (f i)) (hx : P x) (i : ℕ) :
    P (insertAt f n pos x i) := by
  unfold insertAt
  split_ifs
  · exact hf i
  · exact hx
  · exact hf _

theorem forall_eraseAt {P : α → Prop} {f : ℕ → α} (n pos : ℕ) (hf : ∀ i, P (f i)) (i : ℕ) : P (eraseAt f n pos i) := by
  unfold eraseAt
  split_ifs
  · exact hf _
  · exact hf i

theorem toList_insertAt (f : ℕ → α) {n pos : ℕ} (x : α) (hpos : pos ≤ n) :
    toList (insertAt f n pos x) (n + 1) = (toList f n).insertIdx pos x := by
  apply List.ext_getElem
  · simp [List.length_insertIdx_of_le_length, hpos]
  · intro i h _
    simp only [length_toList] at h
    rw [getElem_toList, List.getElem_insertIdx]
    simp only [insertAt, getElem_toList]
    split_ifs <;> first | rfl | omega

/-- The new slot stands between the two parts of the live slots. -/
theorem toList_insertAt_append {f : ℕ → α} {n : ℕ} {l₁ l₂ : List α} (x : α) (h : toList f n = l₁ ++ l₂) :
    toList (insertAt f n l₁.length x) (n + 1) = l₁ ++ x :: l₂ := by
  have hlen : l₁.length ≤ n := by
    have := congrArg List.length h
    simp only [length_toList, List.length_append] at this
    omega
  rw [toList_insertAt f x hlen, h]
  clear h hlen
  induction l₁ with
  | nil => rfl
  | cons a l₁ ih => rw [List.cons_append, List.length_cons, List.insertIdx_succ_cons, ih, List.cons_append]

theorem toList_eraseAt (f : ℕ → α) {n pos : ℕ} (hpos : pos < n) :
    toList (eraseAt f n pos) (n - 1) = (toList f n).eraseIdx pos := by
  apply List.ext_getElem
  · simp [List.length_eraseIdx_of_lt, hpos]
  · intro i h _
    simp only [length_toList] at h
    rw [getElem_toList, List.getElem_eraseIdx]
    simp only [eraseAt, getElem_toList]
    split_ifs <;> first | rfl | omega

theorem toList_insertAt_perm (f : ℕ → α) {n pos : ℕ} (x : α) (hpos : pos ≤ n) :
    (toList (insertAt f n pos x) (n + 1)).Perm (x :: toList f n) := by
  rw [toList_insertAt f x hpos]
  exact List.perm_insertIdx x _ (by simpa using hpos)

theorem toList_eraseAt_perm (f : ℕ → α) {n pos : ℕ} (hpos : pos < n) :
    (f pos :: toList (eraseAt f n pos) (n - 1)).Perm (toList f n) := by
  rw [toList_eraseAt f hpos]
  simpa using List.getElem_cons_eraseIdx_perm (show pos < (toList f n).length by simpa using hpos)

/-! Two arrays side by side. -/

theorem toList_insertAt_pairs (f : ℕ → K) (g : ℕ → V) {n pos : ℕ} (k : K) (v : V) (hpos : pos ≤ n) :
    (toList (fun i => (insertAt f n pos k i, insertAt g n pos v i)) (n + 1)).Perm
      ((k, v) :: toList (fun i => (f i, g i)) n) := by
  have : (fun i => (insertAt f n pos k i, insertAt g n pos v i)) =
      insertAt (fun i => (f i, g i)) n pos (k, v) := by
    funext i
    simp only [insertAt]
    split_ifs <;> rfl
  rw [this]
  exact toList_insertAt_perm _ _ hpos

theorem eraseAt_prod (f : ℕ → K) (g : ℕ → V) (n pos : ℕ) :
    (fun i => (eraseAt f n pos i, eraseAt g n pos i)) = eraseAt (fun i => (f i, g i)) n pos := by
  funext i
  simp only [eraseAt]
  split_ifs <;> rfl

theorem toList_eraseAt_prod (f : ℕ → K) (g : ℕ → V) {n pos : ℕ} (hpos : pos < n) :
    toList (fun i => (eraseAt f n pos i, eraseAt g n pos i)) (n - 1) = (toList (fun i => (f i, g i)) n).eraseIdx pos := by
  rw [eraseAt_prod]
  exact toList_eraseAt _ hpos

theorem toList_eraseAt_pairs (f : ℕ → K) (g : ℕ → V) {n pos : ℕ} (hpos : pos < n) :
    ((f pos, g pos) :: toList (fun i => (eraseAt f n pos i, eraseAt g n pos i))
      (n - 1)).Perm (toList (fun i => (f i, g i)) n) := by
  rw [eraseAt_prod]
  exact toList_eraseAt_perm (fun i => (f i, g i)) hpos

/-! ### Association lists under a comparison -/

section assoc

variable (cmp : K → K → Ordering)

/-- No two entries have keys that the comparison identifies. -/
def Distinct (l : List (K × V)) : Prop := l.Pairwise fun a b => cmp a.1 b.1 ≠ .eq

def lookup (l : List (K × V)) (k : K) : Option V :=
  (l.find? fun e => (cmp e.1 k).isEq).map (·.2)

def erase (l : List (K × V)) (k : K) : List (K × V) :=
  l.filter fun e => !(cmp e.1 k).isEq

variable {cmp} {l l' : List (K × V)} {k : K} {v : V}

theorem lookup_eq_none : lookup cmp l k = none ↔ ∀ e ∈ l, cmp e.1 k ≠ .eq := by
  simp [lookup, Ordering.isEq_iff_eq_eq]

theorem erase_perm (h : l.Perm l') (k : K) : (erase cmp l k).Perm (erase cmp l' k) := h.filter _

theorem erase_of_lookup_none (h : lookup cmp l k = none) : erase cmp l k = l := by
  rw [lookup_eq_none] at h
  rw [SlotArray.erase, List.filter_eq_self]
  intro e he
  simpa [Ordering.isEq_iff_eq_eq] using h e he

variable [Std.TransCmp cmp]

theorem Distinct.lookup_eq_some (hl : Distinct cmp l) :
    lookup cmp l k = some v ↔ ∃ e ∈ l, cmp e.1 k = .eq ∧ e.2 = v := by
  induction l with
  | nil => simp [lookup]
  | cons a l ih =>
    obtain ⟨ha, hl⟩ := List.pairwise_cons.mp hl
    by_cases hak : cmp a.1 k = .eq
    · have hrest : ∀ e ∈ l, cmp e.1 k ≠ .eq := fun e he hek =>
        ha e he (Std.TransCmp.eq_trans hak (Std.OrientedCmp.eq_symm hek))
      simp only [lookup, List.find?_cons, hak, Ordering.isEq_eq, Option.map_some, Option.some.injEq,
        List.mem_cons, exists_eq_or_imp, true_and]
      exact ⟨.inl, fun h => h.elim id fun ⟨e, he, hek, _⟩ => absurd hek (hrest e he)⟩
    · have hak' : (cmp a.1 k).isEq = false := by simpa [Ordering.isEq_iff_eq_eq] using hak
      have : lookup cmp (a :: l) k = lookup cmp l k := by simp [lookup, hak']
      simp only [this, ih hl, List.mem_cons, exists_eq_or_imp, hak, false_and, false_or]

theorem Distinct.perm (hl : Distinct cmp l) (h : l.Perm l') : Distinct cmp l' :=
  h.pairwise hl fun hab hba => hab (Std.OrientedCmp.eq_symm hba)

/-- A lookup does not see the order of the entries. -/
theorem Distinct.lookup_perm (hl : Distinct cmp l) (h : l.Perm l') (k : K) :
    lookup cmp l k = lookup cmp l' k := by
  cases hk : lookup cmp l' k with
  | none =>
    rw [lookup_eq_none] at hk ⊢
    exact fun e he => hk e (h.mem_iff.mp he)
  | some v =>
    rw [(hl.perm h).lookup_eq_some] at hk
    obtain ⟨e, he, hek⟩ := hk
    exact hl.lookup_eq_some.mpr ⟨e, h.mem_iff.mpr he, hek⟩

theorem distinct_cons {e : K × V} :
    Distinct cmp (e :: l) ↔ lookup cmp l e.1 = none ∧ Distinct cmp l := by
  rw [lookup_eq_none, Distinct, List.pairwise_cons]
  refine and_congr ⟨fun h a ha hae => h a ha (Std.OrientedCmp.eq_symm hae), ?_⟩ Iff.rfl
  exact fun h a ha hea => h a ha (Std.OrientedCmp.eq_symm hea)

theorem erase_cons_self {e : K × V} (hd : Distinct cmp (e :: l)) (he : cmp e.1 k = .eq) :
    erase cmp (e :: l) k = l := by
  have hrest : lookup cmp l k = none := by
    rw [lookup_eq_none]
    intro a ha hak
    exact (List.pairwise_cons.mp hd).1 a ha (Std.TransCmp.eq_trans he (Std.OrientedCmp.eq_symm hak))
  have := erase_of_lookup_none hrest
  simpa [SlotArray.erase, he] using this

end assoc

/-! ### Sorted slots -/

section sorted

variable (cmp : K → K → Ordering)

def Sorted (f : ℕ → K) (n : ℕ) : Prop := ∀ i j, i < j → j < n → cmp (f i) (f j) = .lt

/-- The first live slot whose key is not below `k`. -/
def lowerBound (f : ℕ → K) (n : ℕ) (k : K) : ℕ :=
  Bisect.search (fun i => (cmp (f i) k).isLT) n 0 n

/-- The first live slot whose key is above `k`. -/
def upperBound (f : ℕ → K) (n : ℕ) (k : K) : ℕ :=
  Bisect.search (fun i => (cmp (f i) k).isLE) n 0 n

variable {cmp} {f : ℕ → K} {g : ℕ → V} {n : ℕ} {k : K}

theorem Sorted.distinct (hs : Sorted cmp f n) :
    Distinct cmp (toList (fun i => (f i, g i)) n) := by
  rw [Distinct, List.pairwise_iff_getElem]
  intro i j _ hj hij
  simp only [length_toList] at hj
  simp [hs i j hij hj]

theorem Sorted.eraseAt (hs : Sorted cmp f n) (pos : ℕ) :
    Sorted cmp (eraseAt f n pos) (n - 1) := by
  intro i j hij hj
  simp only [SlotArray.eraseAt]
  split_ifs <;> exact hs _ _ (by omega) (by omega)

theorem Sorted.mono (hs : Sorted cmp f n) {m : ℕ} (hm : m ≤ n) : Sorted cmp f m :=
  fun i j hij hj => hs i j hij (by omega)

variable [Std.TransCmp cmp]

theorem Sorted.boundary (hs : Sorted cmp f n) (k : K) :
    Bisect.Boundary (fun i => (cmp (f i) k).isLT) n := by
  intro i j hij hj hjk
  rw [Ordering.isLT_iff_eq_lt] at hjk ⊢
  exact Std.TransCmp.lt_trans (hs i j hij hj) hjk

theorem Sorted.lowerBound_le (hs : Sorted cmp f n) (k : K) : lowerBound cmp f n k ≤ n :=
  Bisect.search_le (hs.boundary k)

theorem Sorted.lt_of_lt_lowerBound (hs : Sorted cmp f n) {i : ℕ}
    (hi : i < lowerBound cmp f n k) : cmp (f i) k = .lt :=
  Ordering.isLT_iff_eq_lt.mp (Bisect.of_lt_search (hs.boundary k) hi)

theorem Sorted.not_lt_of_lowerBound_le (hs : Sorted cmp f n) {i : ℕ}
    (hi : lowerBound cmp f n k ≤ i) (hn : i < n) : cmp (f i) k ≠ .lt := by
  have := Bisect.of_search_le (hs.boundary k) hi hn
  intro h
  simp [h] at this

theorem Sorted.lowerBound_eq (hs : Sorted cmp f n) {b : ℕ} (hb : b ≤ n)
    (hlo : ∀ i < b, cmp (f i) k = .lt) (hhi : ∀ i, b ≤ i → i < n → cmp (f i) k ≠ .lt) :
    lowerBound cmp f n k = b := by
  refine Bisect.search_eq (hs.boundary k) hb (fun i hi => by simp [hlo i hi]) fun i hi hn => ?_
  have := hhi i hi hn
  rw [← Bool.not_eq_true, Ordering.isLT_iff_eq_lt]
  exact this

/-- A key equal to `k` can only stand at the lower bound of `k`. -/
theorem Sorted.eq_lowerBound (hs : Sorted cmp f n) {i : ℕ} (hi : i < n)
    (hik : cmp (f i) k = .eq) : i = lowerBound cmp f n k := by
  refine (hs.lowerBound_eq (Nat.le_of_lt hi) (fun j hj => ?_) fun j hj hn => ?_).symm
  · exact Std.TransCmp.lt_of_lt_of_eq (hs j i hj hi) hik
  · rcases Nat.lt_or_eq_of_le hj with hij | rfl
    · have := Std.TransCmp.lt_of_eq_of_lt (Std.OrientedCmp.eq_symm hik) (hs i j hij hn)
      rw [Std.OrientedCmp.gt_of_lt this]
      simp
    · simp [hik]

/-- Looking a key up in sorted slots: go to its lower bound and compare once. -/
theorem Sorted.lookup_toList (hs : Sorted cmp f n) (k : K) :
    lookup cmp (toList (fun i => (f i, g i)) n) k =
      if lowerBound cmp f n k < n ∧ cmp (f (lowerBound cmp f n k)) k = .eq
      then some (g (lowerBound cmp f n k)) else none := by
  split
  · rename_i h
    rw [hs.distinct.lookup_eq_some]
    exact ⟨_, mem_toList.mpr ⟨_, h.1, rfl⟩, h.2, rfl⟩
  · rename_i h
    rw [lookup_eq_none]
    intro e he hek
    obtain ⟨i, hi, rfl⟩ := mem_toList.mp he
    have := hs.eq_lowerBound hi hek
    exact h (this ▸ ⟨hi, hek⟩)

theorem Sorted.insertAt (hs : Sorted cmp f n)
    (hk : ∀ i < n, cmp (f i) k ≠ .eq) :
    Sorted cmp (insertAt f n (lowerBound cmp f n k) k) (n + 1) := by
  have hle := hs.lowerBound_le k
  have hlo : ∀ i, i < lowerBound cmp f n k → cmp (f i) k = .lt := fun i hi =>
    hs.lt_of_lt_lowerBound hi
  have hhi : ∀ i, lowerBound cmp f n k ≤ i → i < n → cmp k (f i) = .lt := by
    intro i hi hn
    have hne := hk i hn
    have hnl := hs.not_lt_of_lowerBound_le hi hn
    cases hc : cmp (f i) k with
    | lt => exact absurd hc hnl
    | eq => exact absurd hc hne
    | gt => exact Std.OrientedCmp.lt_of_gt hc
  intro i j hij hj
  simp only [SlotArray.insertAt]
  split_ifs <;> first
    | exact hs _ _ (by omega) (by omega)
    | exact hlo _ (by omega)
    | exact hhi _ (by omega) (by omega)
    | omega

end sorted
end SlotArray
