import Mathlib.Data.Finset.Card
import Mathlib.Data.Int.Interval
import Rmdb.Index.Compare
import Rmdb.Index.Leaf
import Rmdb.Index.Scan

/-! Scans of a well-formed tree, whose leaves hang together in the order of their keys. -/
namespace Rmdb

namespace IxIndexHandle

variable {K : Type}

/-- The leaves of a tree from the first to the last. A search ends in a leaf behind all smaller keys
and before all others. -/
structure LeafChain (P : K → Prop) (cmp : K → K → Ordering) (ih : IxIndexHandle K)
    (leaves : List (IxNodeHandle K)) : Prop where
  fetch : ∀ leaf ∈ leaves, ih.fetchNode leaf.pageNo = .ok leaf
  isLeaf : ∀ leaf ∈ leaves, leaf.isLeaf = true
  pageNo : ∀ leaf ∈ leaves, ixLeafHeaderPage < leaf.pageNo ∧ leaf.pageNo < ih.fd2pageno
  nodup : (leaves.map (·.pageNo)).Nodup
  header : ∃ header, ih.fetchNode ixLeafHeaderPage = .ok header ∧ header.numKey = 0
  root : ih.fileHdr.rootPage ≠ ixNoPage
  firstLeaf : leaves.head?.map (·.pageNo) = some ih.fileHdr.firstLeaf
  lastLeaf : leaves.getLast?.map (·.pageNo) = some ih.fileHdr.lastLeaf
  nextLeaf : ∀ pre leaf post, leaves = pre ++ leaf :: post →
    leaf.nextLeaf = (post.head?.map (·.pageNo)).getD ixLeafHeaderPage
  numKey : ∀ leaf ∈ leaves, leaf.numKey ≤ ih.fileHdr.maxSize ∧ (1 < leaves.length → 0 < leaf.numKey)
  keys : ∀ e ∈ leaves.flatMap (·.entries), P e.1
  sorted : (leaves.flatMap (·.entries)).Pairwise fun a b => cmp a.1 b.1 ≠ .gt
  routed : ∀ key, P key → ∃ pre leaf post, leaves = pre ++ leaf :: post ∧
    ih.findLeafPage cmp key = .ok leaf ∧ (∀ e ∈ pre.flatMap (·.entries), cmp e.1 key = .lt) ∧
    ∀ e ∈ post.flatMap (·.entries), cmp e.1 key ≠ .lt

/-- The scan between two keys, as the index scan makes it. -/
def scanBetween (cmp : K → K → Ordering) (ih : IxIndexHandle K) (lower upper : Option K) :
    Except IxError (List Rid) := do
  let (start, stop) ← ih.scanBounds cmp lower upper
  ih.scanRids stop ih.scanFuel start

/-- There is an entry to start from, or the scan is over before it starts. -/
def StartsInside (cmp : K → K → Ordering) (entries : List (K × Rid)) (lower upper : Option K) : Prop :=
  match lower, upper with
  | none, none => True
  | none, some _ => entries ≠ []
  | some lower, _ => ∃ e ∈ entries, cmp e.1 lower ≠ .lt

/-- The entry is not above the upper key and not behind the leaf where the search for that key ends.
A search that ends behind that leaf lets one more entry through. -/
def NotAbove (cmp : K → K → Ordering) (ih : IxIndexHandle K) (leaves : List (IxNodeHandle K)) (upper : K)
    (e : K × Rid) : Prop :=
  ∃ pre leaf post, leaves = pre ++ leaf :: post ∧ ih.findLeafPage cmp upper = .ok leaf ∧
    ((e ∈ pre.flatMap (·.entries) ∨ e ∈ leaf.entries) ∧ cmp e.1 upper ≠ .gt ∨
      (∀ e ∈ leaf.entries, cmp e.1 upper ≠ .gt) ∧ e ∈ (post.head?.map (·.entries.take 1)).getD [])

/-- The entries between the two keys. -/
def Reached (cmp : K → K → Ordering) (ih : IxIndexHandle K) (leaves : List (IxNodeHandle K))
    (lower upper : Option K) (e : K × Rid) : Prop :=
  e ∈ leaves.flatMap (·.entries) ∧ (∀ key ∈ lower, cmp e.1 key ≠ .lt) ∧
    ∀ key ∈ upper, ih.NotAbove cmp leaves key e

/-- The entries of a chain up to a position. -/
def cut (stop : Iid) : List (IxNodeHandle K) → List (K × Rid)
  | [] => []
  | leaf :: post =>
    if leaf.pageNo = stop.pageNo then leaf.entries.take stop.slotNo else leaf.entries ++ cut stop post

variable {P : K → Prop} {cmp : K → K → Ordering} {ih : IxIndexHandle K}
  {leaves pre post : List (IxNodeHandle K)} {leaf : IxNodeHandle K} {start stop : Iid}

@[simp] theorem length_entries : leaf.entries.length = leaf.numKey := SlotArray.length_toList ..

theorem getElem_entries {i : ℕ} (hi : i < leaf.entries.length) :
    leaf.entries[i] = (leaf.keys i, leaf.rids i) := SlotArray.getElem_toList ..

theorem cut_append (stop : Iid) (post : List (IxNodeHandle K)) (h : ∀ leaf ∈ pre, leaf.pageNo ≠ stop.pageNo) :
    cut stop (pre ++ post) = pre.flatMap (·.entries) ++ cut stop post := by
  induction pre with
  | nil => rfl
  | cons leaf pre ih =>
    rw [List.cons_append, cut, if_neg (h leaf List.mem_cons_self),
      ih fun leaf hleaf => h leaf (List.mem_cons_of_mem _ hleaf), List.flatMap_cons, List.append_assoc]

theorem cut_eq (h : ∀ leaf ∈ leaves, leaf.pageNo ≠ stop.pageNo) :
    cut stop leaves = leaves.flatMap (·.entries) := by
  have := cut_append stop [] h
  rwa [List.append_nil, cut, List.append_nil] at this

theorem cut_cons_self {n : ℕ} : cut ⟨leaf.pageNo, n⟩ (leaf :: post) = leaf.entries.take n := if_pos rfl

theorem cut_front (stop : Iid) (leaves : List (IxNodeHandle K)) : cut stop leaves <+: leaves.flatMap (·.entries) := by
  induction leaves with
  | nil => exact List.prefix_refl _
  | cons leaf post hrec =>
    rw [List.flatMap_cons]
    unfold cut
    split
    · exact (List.take_prefix _ _).trans (List.prefix_append _ _)
    · exact (List.prefix_append_right_inj _).mpr hrec

theorem scanBounds_eq (lower upper : Option K)
    (hstart : (match lower with | none => ih.leafBegin | some key => ih.lowerBound cmp key) = .ok start)
    (hstop : (match upper with | none => ih.leafEnd | some key => ih.upperBound cmp key) = .ok stop) :
    ih.scanBounds cmp lower upper = .ok (start, stop) := by
  unfold scanBounds
  cases lower <;> cases upper <;> dsimp only at hstart hstop ⊢ <;> rw [hstart, hstop] <;> rfl

namespace LeafChain

section
variable (h : LeafChain P cmp ih leaves)
include h

theorem next_cons {next : IxNodeHandle K} (hsplit : leaves = pre ++ leaf :: next :: post) : leaf.nextLeaf = next.pageNo :=
  h.nextLeaf pre leaf (next :: post) hsplit

theorem next_nil (hsplit : leaves = pre ++ [leaf]) : leaf.nextLeaf = ixLeafHeaderPage :=
  h.nextLeaf pre leaf [] hsplit

theorem nextLeaf_ne_noPage (hsplit : leaves = pre ++ leaf :: post) : leaf.nextLeaf ≠ ixNoPage := by
  cases post with
  | nil =>
    rw [h.next_nil hsplit]
    decide
  | cons next post =>
    rw [h.next_cons hsplit]
    have := (h.pageNo next (by simp [hsplit])).1
    unfold ixLeafHeaderPage at this
    unfold ixNoPage
    omega

theorem ne_of_mem_pre (hsplit : leaves = pre ++ leaf :: post) {other : IxNodeHandle K} (hother : other ∈ pre) :
      other.pageNo ≠ leaf.pageNo := by
  have hnodup := h.nodup
  rw [hsplit, List.map_append, List.nodup_append] at hnodup
  exact hnodup.2.2 _ (List.mem_map_of_mem hother) _ (by simp)

theorem ne_of_mem_post (hsplit : leaves = pre ++ leaf :: post) {other : IxNodeHandle K} (hother : other ∈ post) :
      leaf.pageNo ≠ other.pageNo := by
  have hnodup := h.nodup
  rw [hsplit, List.map_append, List.nodup_append, List.map_cons, List.nodup_cons] at hnodup
  intro heq
  exact hnodup.2.1.1 (heq ▸ List.mem_map_of_mem hother)

/-- No page holds more keys than the scan has steps left for. -/
theorem length_lt_scanFuel : (leaves.flatMap (·.entries)).length < ih.scanFuel := by
  have hpages : leaves.length ≤ ih.fd2pageno.toNat := by
    have hsub : (leaves.map (·.pageNo)).toFinset ⊆ Finset.Ico 0 ih.fd2pageno := by
      intro p hp
      obtain ⟨leaf, hleaf, rfl⟩ := List.mem_map.mp (List.mem_toFinset.mp hp)
      have := h.pageNo leaf hleaf
      unfold ixLeafHeaderPage at this
      exact Finset.mem_Ico.mpr ⟨by omega, this.2⟩
    have hcard := Finset.card_le_card hsub
    rw [List.toFinset_card_of_nodup h.nodup, Int.card_Ico, List.length_map] at hcard
    simpa using hcard
  have hsum : ∀ chain : List (IxNodeHandle K), (∀ leaf ∈ chain, leaf.numKey ≤ ih.fileHdr.maxSize) →
      (chain.flatMap (·.entries)).length ≤ chain.length * ih.fileHdr.maxSize := by
    intro chain hchain
    induction chain with
    | nil => simp
    | cons leaf chain hrec =>
      have hleaf := hchain leaf List.mem_cons_self
      have hrest := hrec fun leaf hmem => hchain leaf (List.mem_cons_of_mem _ hmem)
      rw [List.flatMap_cons, List.length_append, length_entries, List.length_cons, Nat.succ_mul]
      omega
  have hlen := hsum leaves fun leaf hleaf => (h.numKey leaf hleaf).1
  have hmul := Nat.mul_le_mul_right ih.fileHdr.maxSize hpages
  rw [scanFuel, Nat.succ_mul, Nat.mul_succ]
  omega

/-! ### The walk from a start to a stop -/

theorem getRid_eq (hleaf : leaf ∈ leaves) {i : ℕ} (hi : i < leaf.numKey) : ih.getRid ⟨leaf.pageNo, i⟩ = .ok (leaf.rids i) := by
  unfold getRid
  rw [h.fetch leaf hleaf]
  change (if leaf.numKey ≤ i then _ else _) = _
  rw [if_neg (by omega)]
  rfl

theorem scanNext_eq (hsplit : leaves = pre ++ leaf :: post) {i : ℕ} (hstop : (⟨leaf.pageNo, i⟩ : Iid) ≠ stop) :
    ih.scanNext ⟨leaf.pageNo, i⟩ stop = .ok (
      if (⟨leaf.pageNo, i + 1⟩ : Iid) = stop then stop
      else if i + 1 = leaf.numKey then (post.head?.map fun next => ⟨next.pageNo, 0⟩).getD stop
      else ⟨leaf.pageNo, i + 1⟩) := by
  have hleaf : leaf ∈ leaves := by simp [hsplit]
  unfold scanNext
  rw [if_neg hstop, h.fetch leaf hleaf]
  change (assertThat _ >>= fun _ => _) = _
  rw [assertThat_of (h.isLeaf leaf hleaf)]
  change (if (⟨leaf.pageNo, i + 1⟩ : Iid) = stop then _ else _) = _
  split
  · rename_i hnext
    rw [hnext]
    rfl
  · by_cases hend : i + 1 = leaf.numKey
    · rw [if_pos hend, if_pos hend]
      cases post with
      | nil =>
        rw [h.next_nil hsplit, if_neg (fun hne => hne.2 rfl)]
        rfl
      | cons next post =>
        have hpage := (h.pageNo next (by simp [hsplit])).1
        rw [h.next_cons hsplit, if_pos ⟨by unfold ixLeafHeaderPage at hpage; unfold ixNoPage; omega, by omega⟩]
        rfl
    · rw [if_neg hend, if_neg hend]
      rfl

/-- The walk goes through the entries from its start to its stop, or to the end of the chain. -/
theorem scanRids_eq {fuel i : ℕ} (hsplit : leaves = pre ++ leaf :: post)
    (hstart : (⟨leaf.pageNo, i⟩ : Iid) ≠ stop → i < leaf.numKey) (hpost : ∀ next ∈ post, 0 < next.numKey)
    (hle : leaf.pageNo = stop.pageNo → i ≤ stop.slotNo)
    (hstop : ∀ node ∈ leaf :: post, node.pageNo = stop.pageNo → stop.slotNo ≤ node.numKey)
    (hfuel : ((cut stop (leaf :: post)).drop i).length < fuel) :
    ih.scanRids stop fuel ⟨leaf.pageNo, i⟩ = .ok (((cut stop (leaf :: post)).drop i).map (·.2)) := by
  induction fuel generalizing pre leaf post i with
  | zero => omega
  | succ fuel hrec =>
    unfold scanRids
    by_cases heq : (⟨leaf.pageNo, i⟩ : Iid) = stop
    · rw [if_pos heq, ← heq, cut_cons_self, List.drop_take, Nat.sub_self]
      rfl
    · have hi := hstart heq
      have hleaf : leaf ∈ leaves := by simp [hsplit]
      have hlong : i < (cut stop (leaf :: post)).length := by
        unfold cut
        split
        · rename_i hpage
          have := hle hpage
          have := hstop leaf List.mem_cons_self hpage
          have : i ≠ stop.slotNo := by
            rintro rfl
            exact heq (by rw [hpage])
          simp
          omega
        · simp
          omega
      have hget : (cut stop (leaf :: post))[i].2 = leaf.rids i := by
        unfold cut
        split
        · rw [List.getElem_take, getElem_entries]
        · rw [List.getElem_append_left (by simpa using hi), getElem_entries]
      rw [List.drop_eq_getElem_cons hlong] at hfuel ⊢
      rw [if_neg heq, h.getRid_eq hleaf hi, h.scanNext_eq hsplit heq, List.map_cons, hget]
      have hrest : ih.scanRids stop fuel (if (⟨leaf.pageNo, i + 1⟩ : Iid) = stop then stop
          else if i + 1 = leaf.numKey then (post.head?.map fun next => ⟨next.pageNo, 0⟩).getD stop
          else ⟨leaf.pageNo, i + 1⟩) = .ok (((cut stop (leaf :: post)).drop (i + 1)).map (·.2)) := by
        have hfuel' : ((cut stop (leaf :: post)).drop (i + 1)).length < fuel := by
          simp only [List.length_cons] at hfuel
          omega
        have hhere : ih.scanRids stop fuel stop = .ok [] := by
          cases fuel with
          | zero => omega
          | succ fuel => exact if_pos rfl
        split
        · rename_i hnext
          have hdrop : (cut stop (leaf :: post)).drop (i + 1) = [] := by
            rw [← hnext, cut_cons_self, List.drop_take, Nat.sub_self]
            rfl
          rw [hhere, hdrop]
          rfl
        · rename_i hnext
          split
          · rename_i hend
            have hpage : leaf.pageNo ≠ stop.pageNo := by
              intro hpage
              have hle' := hle hpage
              have hn := hstop leaf List.mem_cons_self hpage
              have : i ≠ stop.slotNo := by
                rintro rfl
                exact heq (by rw [hpage])
              exact hnext (by rw [hpage, show i + 1 = stop.slotNo by omega])
            have hcut : (cut stop (leaf :: post)).drop (i + 1) = cut stop post := by
              have hlen : leaf.numKey = leaf.entries.length := length_entries.symm
              rw [cut, if_neg hpage, hend, hlen, List.drop_left]
            rw [hcut] at hfuel' ⊢
            cases post with
            | nil => exact hhere
            | cons next post =>
              have hsplit' : leaves = (pre ++ [leaf]) ++ next :: post := by simp [hsplit]
              have := hrec (i := 0) hsplit'
                (fun _ => hpost next List.mem_cons_self)
                (fun node hnode => hpost node (List.mem_cons_of_mem _ hnode)) (fun _ => Nat.zero_le _)
                (fun node hnode => hstop node (List.mem_cons_of_mem _ hnode)) (by rwa [List.drop_zero])
              rwa [List.drop_zero] at this
          · rename_i hend
            refine hrec hsplit (fun _ => by omega) hpost (fun hpage => ?_) hstop hfuel'
            have hle' := hle hpage
            have : i ≠ stop.slotNo := by
              rintro rfl
              exact heq (by rw [hpage])
            omega
      change (ih.scanRids stop fuel _ >>= fun rest => pure (leaf.rids i :: rest)) = _
      rw [hrest]
      rfl

/-! ### The two ends -/

theorem keys_leaf (hleaf : leaf ∈ leaves) {i : ℕ} (hi : i < leaf.numKey) : P (leaf.keys i) :=
  h.keys (leaf.keys i, leaf.rids i)
    (List.mem_flatMap.mpr ⟨leaf, hleaf, SlotArray.mem_toList.mpr ⟨i, hi, rfl⟩⟩)

private theorem sorted_leaf (hleaf : leaf ∈ leaves) {i j : ℕ} (hij : i < j) (hj : j < leaf.numKey) :
      cmp (leaf.keys i) (leaf.keys j) ≠ .gt := by
  have hpair := (List.pairwise_flatMap.mp h.sorted).1 leaf hleaf
  have := List.pairwise_iff_getElem.mp hpair i j (by simp; omega) (by simpa using hj) hij
  rwa [getElem_entries, getElem_entries] at this

omit h in
theorem mem_entries {e : K × Rid} : e ∈ leaf.entries ↔ ∃ i < leaf.numKey, (leaf.keys i, leaf.rids i) = e :=
  SlotArray.mem_toList

theorem iidFrom_eq (hsplit : leaves = pre ++ leaf :: post) (slotNo nextSlotNo : ℕ) : iidFrom leaf slotNo nextSlotNo =
      if leaf.numKey ≤ slotNo then ⟨leaf.nextLeaf, nextSlotNo⟩ else ⟨leaf.pageNo, slotNo⟩ := by
  unfold iidFrom
  simp only [h.nextLeaf_ne_noPage hsplit, ne_eq, not_false_eq_true, and_true]

end

section
variable (hcmp : TransOn P cmp) (h : LeafChain P cmp ih leaves) {lower upper key : K}
include hcmp h

omit h in
theorem lt_of_lt (a b e : K) (ha : P a) (hb : P b) (he : P e) (hab : cmp a b ≠ .gt)
    (hbe : cmp b e = .lt) : cmp a e = .lt := by
  have hle := hcmp.trans a b e ha hb he (by cases hc : cmp a b <;> simp_all) (by simp [hbe])
  cases hae : cmp a e with
  | lt => rfl
  | gt => simp [hae] at hle
  | eq =>
    have hea : cmp e a = .eq := by rw [hcmp.swap e a he ha, hae]; rfl
    have heb := hcmp.trans e a b he ha hb (by simp [hea]) (by cases hc : cmp a b <;> simp_all)
    rw [hcmp.swap e b he hb, hbe] at heb
    cases heb

omit h in
theorem le_of_le (a b e : K) (ha : P a) (hb : P b) (he : P e) (hab : cmp a b ≠ .gt)
    (hbe : cmp b e ≠ .gt) : cmp a e ≠ .gt := by
  have hle := hcmp.trans a b e ha hb he (by cases hc : cmp a b <;> simp_all)
    (by cases hc : cmp b e <;> simp_all)
  intro hgt
  simp [hgt] at hle

private theorem boundary_lower (hleaf : leaf ∈ leaves) (hkey : P key) :
    Bisect.Boundary (fun i => (cmp (leaf.keys i) key).isLT) leaf.numKey := by
  intro i j hij hj hlt
  rw [Ordering.isLT_iff_eq_lt] at hlt ⊢
  exact lt_of_lt hcmp _ _ _ (keys_leaf h hleaf (by omega)) (keys_leaf h hleaf hj) hkey
    (sorted_leaf h hleaf hij hj) hlt

theorem boundary_upper (hleaf : leaf ∈ leaves) (hkey : P key) :
    Bisect.Boundary (fun i => (cmp (leaf.keys i) key).isLE) leaf.numKey := by
  intro i j hij hj hle
  have hle' : cmp (leaf.keys j) key ≠ .gt := by
    intro hgt
    simp [hgt] at hle
  have := le_of_le hcmp _ _ _ (keys_leaf h hleaf (by omega)) (keys_leaf h hleaf hj) hkey
    (sorted_leaf h hleaf hij hj) hle'
  cases hc : cmp (leaf.keys i) key <;> simp_all

/-- The slot `i` of `leaf` holds the first entry that is not below `lower`. -/
structure FirstFrom (cmp : K → K → Ordering) (lower : K) (pre : List (IxNodeHandle K)) (leaf : IxNodeHandle K)
    (i : ℕ) : Prop where
  slot : i < leaf.numKey
  pre : ∀ e ∈ pre.flatMap (·.entries), cmp e.1 lower = .lt
  below : ∀ j < i, cmp (leaf.keys j) lower = .lt
  found : cmp (leaf.keys i) lower ≠ .lt

omit hcmp in
theorem lowerBound_eq (hsplit : leaves = pre ++ leaf :: post) (hfind : ih.findLeafPage cmp lower = .ok leaf) :
    ih.lowerBound cmp lower = .ok (if leaf.numKey ≤ leaf.lowerBound cmp lower then ⟨leaf.nextLeaf, 0⟩
      else ⟨leaf.pageNo, leaf.lowerBound cmp lower⟩) := by
  unfold lowerBound
  rw [hfind]
  change Except.ok (iidFrom leaf _ 0) = _
  rw [h.iidFrom_eq hsplit]

omit hcmp in
theorem upperBound_eq (hsplit : leaves = pre ++ leaf :: post) (hfind : ih.findLeafPage cmp upper = .ok leaf) :
    ih.upperBound cmp upper = .ok (if leaf.numKey ≤ leaf.upperBound cmp upper then ⟨leaf.nextLeaf, 1⟩
      else ⟨leaf.pageNo, leaf.upperBound cmp upper⟩) := by
  unfold upperBound
  rw [hfind]
  change Except.ok (iidFrom leaf _ 1) = _
  rw [h.iidFrom_eq hsplit]

/-- Without an entry to start from, the lower bound is a slot of the leaf header. -/
theorem lowerBound_past (hlower : P lower) (hpast : ∀ e ∈ leaves.flatMap (·.entries), cmp e.1 lower = .lt) :
    ih.lowerBound cmp lower = .ok ⟨ixLeafHeaderPage, 0⟩ := by
  obtain ⟨pre, leaf, post, hsplit, hfind, -, hpost⟩ := h.routed lower hlower
  have hleaf : leaf ∈ leaves := by simp [hsplit]
  have hfull : leaf.numKey ≤ leaf.lowerBound cmp lower := by
    by_contra hlt
    have hfalse := Bisect.of_search_le (boundary_lower hcmp h hleaf hlower) (Nat.le_refl _) (Nat.lt_of_not_le hlt)
    have hin := hpast (leaf.keys (leaf.lowerBound cmp lower), leaf.rids (leaf.lowerBound cmp lower))
      (List.mem_flatMap.mpr ⟨leaf, hleaf, mem_entries.mpr ⟨_, by omega, rfl⟩⟩)
    change (cmp (leaf.keys (leaf.lowerBound cmp lower)) lower).isLT = false at hfalse
    simp [hin] at hfalse
  rw [h.lowerBound_eq hsplit hfind, if_pos hfull]
  cases post with
  | nil => rw [h.next_nil hsplit]
  | cons next post =>
    have hnext : next ∈ leaves := by simp [hsplit]
    have hpos := (h.numKey next hnext).2 (by simp [hsplit]; omega)
    have hmem : (next.keys 0, next.rids 0) ∈ next.entries := mem_entries.mpr ⟨0, hpos, rfl⟩
    exact absurd (hpast _ (List.mem_flatMap.mpr ⟨next, hnext, hmem⟩))
      (hpost _ (List.mem_flatMap.mpr ⟨next, List.mem_cons_self, hmem⟩))

theorem lowerBound_inside (hlower : P lower) (hin : ∃ e ∈ leaves.flatMap (·.entries), cmp e.1 lower ≠ .lt) :
    ∃ pre leaf post i, leaves = pre ++ leaf :: post ∧ FirstFrom cmp lower pre leaf i ∧
      ih.lowerBound cmp lower = .ok ⟨leaf.pageNo, i⟩ := by
  obtain ⟨pre, leaf, post, hsplit, hfind, hpre, hpost⟩ := h.routed lower hlower
  have hleaf : leaf ∈ leaves := by simp [hsplit]
  have hboundary := boundary_lower hcmp h hleaf hlower
  have hbelow : ∀ j < leaf.lowerBound cmp lower, cmp (leaf.keys j) lower = .lt := fun j hj =>
    Ordering.isLT_iff_eq_lt.mp (Bisect.of_lt_search hboundary hj)
  rw [h.lowerBound_eq hsplit hfind]
  by_cases hfull : leaf.numKey ≤ leaf.lowerBound cmp lower
  · have hleafLt : ∀ e ∈ leaf.entries, cmp e.1 lower = .lt := by
      intro e he
      obtain ⟨j, hj, rfl⟩ := mem_entries.mp he
      exact hbelow j (by omega)
    rw [if_pos hfull]
    cases post with
    | nil =>
      obtain ⟨e, he, hge⟩ := hin
      rw [hsplit, List.flatMap_append, List.mem_append] at he
      refine absurd ?_ hge
      cases he with
      | inl he => exact hpre e he
      | inr he => exact hleafLt e (by simpa using he)
    | cons next post =>
      have hnext : next ∈ leaves := by simp [hsplit]
      have hpos := (h.numKey next hnext).2 (by simp [hsplit]; omega)
      have hmem : (next.keys 0, next.rids 0) ∈ next.entries := mem_entries.mpr ⟨0, hpos, rfl⟩
      refine ⟨pre ++ [leaf], next, post, 0, by simp [hsplit], ⟨hpos, ?_, fun j hj => absurd hj (Nat.not_lt_zero j),
        hpost _ (List.mem_flatMap.mpr ⟨next, List.mem_cons_self, hmem⟩)⟩, by rw [h.next_cons hsplit]⟩
      intro e he
      rw [List.flatMap_append, List.mem_append] at he
      cases he with
      | inl he => exact hpre e he
      | inr he => exact hleafLt e (by simpa using he)
  · rw [if_neg hfull]
    have hfalse := Bisect.of_search_le hboundary (Nat.le_refl _) (Nat.lt_of_not_le hfull)
    refine ⟨pre, leaf, post, _, hsplit, ⟨Nat.lt_of_not_le hfull, hpre, hbelow, ?_⟩, rfl⟩
    intro hlt
    change (cmp (leaf.keys (leaf.lowerBound cmp lower)) lower).isLT = false at hfalse
    simp [hlt] at hfalse

/-- The position that `upperBound` returns when the search ends in `leaf`. -/
private def stopOf (cmp : K → K → Ordering) (leaf : IxNodeHandle K) (upper : K) : Iid :=
  if leaf.numKey ≤ leaf.upperBound cmp upper then ⟨leaf.nextLeaf, 1⟩
  else ⟨leaf.pageNo, leaf.upperBound cmp upper⟩

omit hcmp in
private theorem cut_stopOf (hsplit : leaves = pre ++ leaf :: post) :
    cut (stopOf cmp leaf upper) leaves = pre.flatMap (·.entries) ++
      if leaf.numKey ≤ leaf.upperBound cmp upper then
        leaf.entries ++ (post.head?.map (·.entries.take 1)).getD []
      else leaf.entries.take (leaf.upperBound cmp upper) := by
  unfold stopOf
  split
  · cases post with
    | nil =>
      rw [h.next_nil hsplit, cut_eq fun node hnode => (h.pageNo node hnode).1.ne', hsplit]
      simp
    | cons next post =>
      have hsplit' : leaves = (pre ++ [leaf]) ++ next :: post := by simp [hsplit]
      rw [h.next_cons hsplit, hsplit',
        cut_append ⟨next.pageNo, 1⟩ _ fun node hnode => h.ne_of_mem_pre hsplit' hnode, cut_cons_self]
      simp
  · rw [hsplit,
      cut_append ⟨leaf.pageNo, _⟩ _ fun node hnode => h.ne_of_mem_pre hsplit hnode, cut_cons_self]

omit hcmp in
theorem split_unique (hsplit : leaves = pre ++ leaf :: post) {pre' post' : List (IxNodeHandle K)}
    (hsplit' : leaves = pre' ++ leaf :: post') : pre' = pre ∧ post' = post := by
  have hnotMem : ∀ {pre post : List (IxNodeHandle K)}, leaves = pre ++ leaf :: post →
      leaf ∉ pre ∧ leaf ∉ post := fun hsplit =>
    ⟨fun hmem => h.ne_of_mem_pre hsplit hmem rfl, fun hmem => h.ne_of_mem_post hsplit hmem rfl⟩
  obtain ⟨hpre, -, hpost⟩ := (List.append_cons_inj_of_notMem (hnotMem hsplit').1 (hnotMem hsplit').2).mp
    (hsplit'.symm.trans hsplit)
  exact ⟨hpre, hpost⟩

private theorem mem_cut_stopOf (hupper : P upper) (hsplit : leaves = pre ++ leaf :: post)
    (hfind : ih.findLeafPage cmp upper = .ok leaf) (hpre : ∀ e ∈ pre.flatMap (·.entries), cmp e.1 upper = .lt)
    {e : K × Rid} :
    e ∈ cut (stopOf cmp leaf upper) leaves ↔ ih.NotAbove cmp leaves upper e := by
  have hleaf : leaf ∈ leaves := by simp [hsplit]
  have hboundary := boundary_upper hcmp h hleaf hupper
  have hlow : ∀ i < leaf.upperBound cmp upper, cmp (leaf.keys i) upper ≠ .gt := by
    intro i hi hgt
    have := Bisect.of_lt_search hboundary hi
    simp [hgt] at this
  have hhigh : ∀ i, leaf.upperBound cmp upper ≤ i → i < leaf.numKey → cmp (leaf.keys i) upper = .gt := by
    intro i hi hn
    have := Bisect.of_search_le hboundary hi hn
    cases hc : cmp (leaf.keys i) upper <;> simp_all
  rw [h.cut_stopOf hsplit, List.mem_append]
  constructor
  · intro he
    refine ⟨pre, leaf, post, hsplit, hfind, ?_⟩
    cases he with
    | inl he => exact .inl ⟨.inl he, by simp [hpre e he]⟩
    | inr he =>
      split at he
      · rename_i hfull
        have hall : ∀ e ∈ leaf.entries, cmp e.1 upper ≠ .gt := by
          intro e he
          obtain ⟨i, hi, rfl⟩ := mem_entries.mp he
          exact hlow i (by omega)
        cases List.mem_append.mp he with
        | inl he => exact .inl ⟨.inr he, hall e he⟩
        | inr he => exact .inr ⟨hall, he⟩
      · obtain ⟨i, hi, rfl⟩ := List.mem_take_iff_getElem.mp he
        rw [getElem_entries] at he ⊢
        simp only [length_entries] at hi
        exact .inl ⟨.inr (mem_entries.mpr ⟨i, by omega, rfl⟩), hlow i (by omega)⟩
  · rintro ⟨pre', leaf', post', hsplit', hfind', hcases⟩
    obtain rfl : leaf = leaf' := by
      rw [hfind] at hfind'
      exact Except.ok.inj hfind'
    obtain ⟨rfl, rfl⟩ := h.split_unique hsplit hsplit'
    rcases hcases with ⟨he | he, hle⟩ | ⟨hall, he⟩
    · exact .inl he
    · refine .inr ?_
      split
      · exact List.mem_append_left _ he
      · obtain ⟨i, hi, rfl⟩ := mem_entries.mp he
        have hlt : i < leaf.upperBound cmp upper := by
          by_contra hge
          exact hle (hhigh i (by omega) hi)
        exact List.mem_take_iff_getElem.mpr ⟨i, by simp; omega, getElem_entries _⟩
    · refine .inr ?_
      rw [if_pos]
      · exact List.mem_append_right _ he
      · by_contra hlt
        exact hall _ (mem_entries.mpr ⟨_, Nat.lt_of_not_le hlt, rfl⟩) (hhigh _ (Nat.le_refl _) (by omega))

omit hcmp in
private theorem stopOf_slotNo (hsplit : leaves = pre ++ leaf :: post) {node : IxNodeHandle K} (hnode : node ∈ leaves)
    (hpage : node.pageNo = (stopOf cmp leaf upper).pageNo) : (stopOf cmp leaf upper).slotNo ≤ node.numKey := by
  have hinj : ∀ other ∈ leaves, node.pageNo = other.pageNo → node = other := fun other hother heq =>
    List.inj_on_of_nodup_map h.nodup hnode hother heq
  unfold stopOf at hpage ⊢
  split at hpage
  · rename_i hfull
    rw [if_pos hfull]
    cases post with
    | nil =>
      rw [h.next_nil hsplit] at hpage
      exact absurd hpage (h.pageNo node hnode).1.ne'
    | cons next post =>
      rw [h.next_cons hsplit] at hpage
      obtain rfl := hinj next (by simp [hsplit]) hpage
      exact (h.numKey node hnode).2 (by simp [hsplit]; omega)
  · rename_i hfull
    rw [if_neg hfull]
    obtain rfl := hinj leaf (by simp [hsplit]) hpage
    exact Nat.le_of_not_le hfull

/-- The start of a scan does not stand behind its stop. -/
private theorem firstFrom_stopOf (hlower : P lower) (hupper : P upper) (hle : cmp lower upper ≠ .gt)
    (hsplit : leaves = pre ++ leaf :: post) (hpost : ∀ e ∈ post.flatMap (·.entries), cmp e.1 upper ≠ .lt)
    {pre' post' : List (IxNodeHandle K)} {start : IxNodeHandle K} {i : ℕ} (hstart : leaves = pre' ++ start :: post')
    (hfirst : FirstFrom cmp lower pre' start i) :
    (∀ node ∈ pre', node.pageNo ≠ (stopOf cmp leaf upper).pageNo) ∧
      (start.pageNo = (stopOf cmp leaf upper).pageNo → i ≤ (stopOf cmp leaf upper).slotNo) := by
  have hinj : ∀ node ∈ leaves, ∀ other ∈ leaves, node.pageNo = other.pageNo → node = other :=
    fun node hnode other hother heq => List.inj_on_of_nodup_map h.nodup hnode hother heq
  have hpre' : ∀ node ∈ pre', node ∈ leaves := fun node hnode => by simp [hstart, hnode]
  -- an entry that is not below `upper` is not below `lower`
  have habove : ∀ node ∈ leaves, ∀ j < node.numKey, cmp (node.keys j) upper ≠ .lt →
      cmp (node.keys j) lower ≠ .lt := by
    intro node hnode j hj hge hlt
    have hkey := keys_leaf h hnode hj
    refine hge ?_
    have hlu := hcmp.trans (node.keys j) lower upper hkey hlower hupper (by simp [hlt])
      (by cases hc : cmp lower upper <;> simp_all)
    cases hc : cmp (node.keys j) upper with
    | lt => rfl
    | gt => simp [hc] at hlu
    | eq =>
      have hback := hcmp.trans lower upper (node.keys j) hlower hupper hkey
        (by cases hc : cmp lower upper <;> simp_all)
        (by rw [hcmp.swap upper _ hupper hkey, hc]; rfl)
      rw [hcmp.swap lower _ hlower hkey, hlt] at hback
      cases hback
  have hnotPre : ∀ node ∈ pre', ∀ j < node.numKey, cmp (node.keys j) lower = .lt := fun node hnode j hj =>
    hfirst.pre (node.keys j, node.rids j) (List.mem_flatMap.mpr ⟨node, hnode, mem_entries.mpr ⟨j, hj, rfl⟩⟩)
  have hnotBelow : ∀ j < start.numKey, cmp (start.keys j) lower ≠ .lt → i ≤ j := by
    intro j _ hge
    by_contra hlt
    exact hge (hfirst.below j (by omega))
  unfold stopOf
  split
  · cases post with
    | nil =>
      rw [h.next_nil hsplit]
      constructor
      · intro node hnode
        exact (h.pageNo node (hpre' node hnode)).1.ne'
      · intro hpage
        exact absurd hpage (h.pageNo start (by simp [hstart])).1.ne'
    | cons next post =>
      rw [h.next_cons hsplit]
      have hnext : next ∈ leaves := by simp [hsplit]
      have hpos := (h.numKey next hnext).2 (by simp [hsplit]; omega)
      have hge := habove next hnext 0 hpos (hpost (next.keys 0, next.rids 0)
        (List.mem_flatMap.mpr ⟨next, List.mem_cons_self, mem_entries.mpr ⟨0, hpos, rfl⟩⟩))
      constructor
      · intro node hnode hpage
        obtain rfl := hinj node (hpre' node hnode) next hnext hpage
        exact hge (hnotPre node hnode 0 hpos)
      · intro hpage
        obtain rfl := hinj start (by simp [hstart]) next hnext hpage
        exact Nat.le_trans (hnotBelow 0 hpos hge) (Nat.zero_le _)
  · rename_i hfull
    have hleaf : leaf ∈ leaves := by simp [hsplit]
    have hlt : leaf.upperBound cmp upper < leaf.numKey := Nat.lt_of_not_le hfull
    have hgt := Bisect.of_search_le (boundary_upper hcmp h hleaf hupper) (Nat.le_refl _) hlt
    have hge := habove leaf hleaf _ hlt (by
      intro hlt
      change (cmp (leaf.keys (leaf.upperBound cmp upper)) upper).isLE = false at hgt
      simp [hlt] at hgt)
    constructor
    · intro node hnode hpage
      obtain rfl := hinj node (hpre' node hnode) leaf hleaf hpage
      exact hge (hnotPre node hnode _ hlt)
    · intro hpage
      obtain rfl := hinj start (by simp [hstart]) leaf hleaf hpage
      exact hnotBelow _ hlt hge

/-! ### The scan between two keys -/

/-- What a scan needs to know of its stop. -/
structure StopAt (cmp : K → K → Ordering) (ih : IxIndexHandle K) (leaves : List (IxNodeHandle K))
    (lower upper : Option K) (stop : Iid) : Prop where
  ne_header : stop ≠ ⟨ixLeafHeaderPage, 0⟩
  slotNo : ∀ node ∈ leaves, node.pageNo = stop.pageNo → stop.slotNo ≤ node.numKey
  mem_cut : ∀ e ∈ leaves.flatMap (·.entries), e ∈ cut stop leaves ↔ ∀ key ∈ upper, ih.NotAbove cmp leaves key e
  firstFrom : ∀ key ∈ lower, ∀ pre start post i, leaves = pre ++ start :: post → FirstFrom cmp key pre start i →
    (∀ node ∈ pre, node.pageNo ≠ stop.pageNo) ∧ (start.pageNo = stop.pageNo → i ≤ stop.slotNo)

omit hcmp in
theorem exists_cons : ∃ first post, leaves = first :: post := by
  cases hleaves : leaves with
  | nil =>
    have := h.firstLeaf
    rw [hleaves] at this
    cases this
  | cons first post => exact ⟨first, post, rfl⟩

omit hcmp in
theorem leafBegin_eq {first : IxNodeHandle K} (hsplit : leaves = first :: post) : ih.leafBegin = .ok ⟨first.pageNo, 0⟩ := by
  have hfirst : ih.fileHdr.firstLeaf = first.pageNo := by
    have := h.firstLeaf
    rw [hsplit] at this
    simpa using this.symm
  have hpage := (h.pageNo first (by simp [hsplit])).1
  unfold leafBegin
  rw [hfirst, if_neg]
  · rfl
  · rintro (hroot | hnone)
    · exact h.root hroot
    · unfold ixLeafHeaderPage at hpage
      unfold ixNoPage at hnone
      omega

omit hcmp in
theorem leafEnd_eq (pre : List (IxNodeHandle K)) {last : IxNodeHandle K} (hsplit : leaves = pre ++ [last]) :
      ih.leafEnd = .ok ⟨last.pageNo, last.numKey⟩ := by
  have hlast : ih.fileHdr.lastLeaf = last.pageNo := by
    have := h.lastLeaf
    rw [hsplit] at this
    simpa using this.symm
  have hmem : last ∈ leaves := by simp [hsplit]
  have hpage := (h.pageNo last hmem).1
  unfold leafEnd
  rw [hlast, if_neg]
  · rw [h.fetch last hmem]
    rfl
  · rintro (hroot | hnone)
    · exact h.root hroot
    · unfold ixLeafHeaderPage at hpage
      unfold ixNoPage at hnone
      omega

private theorem exists_stopAt {lower upper : Option K} (hlower : ∀ key ∈ lower, P key) (hupper : ∀ key ∈ upper, P key)
    (hle : ∀ low ∈ lower, ∀ up ∈ upper, cmp low up ≠ .gt) :
    ∃ stop, (match upper with | none => ih.leafEnd | some key => ih.upperBound cmp key) = .ok stop ∧
      StopAt cmp ih leaves lower upper stop := by
  cases upper with
  | none =>
    obtain ⟨pre, last, hsplit⟩ : ∃ pre last, leaves = pre ++ [last] := by
      cases List.eq_nil_or_concat' leaves with
      | inl hnil =>
        have := h.lastLeaf
        rw [hnil] at this
        cases this
      | inr hconcat => exact hconcat
    have hlast : last ∈ leaves := by simp [hsplit]
    refine ⟨_, h.leafEnd_eq _ hsplit, ?_, ?_, ?_, ?_⟩
    · intro heq
      exact (h.pageNo last hlast).1.ne' (congrArg Iid.pageNo heq)
    · intro node hnode hpage
      obtain rfl := List.inj_on_of_nodup_map h.nodup hnode hlast hpage
      exact Nat.le_refl _
    · intro e he
      have hcut : cut ⟨last.pageNo, last.numKey⟩ leaves = leaves.flatMap (·.entries) := by
        rw [hsplit, cut_append ⟨last.pageNo, _⟩ _ fun node hnode => h.ne_of_mem_pre hsplit hnode,
          cut_cons_self, ← length_entries, List.take_length]
        simp
      rw [hcut]
      exact iff_of_true he nofun
    · intro key _ pre' start post' i hstart hfirst
      constructor
      · intro node hnode hpage
        obtain rfl := List.inj_on_of_nodup_map h.nodup (by simp [hstart, hnode]) hlast hpage
        obtain ⟨hpre, -⟩ | ⟨rest, hpre, -⟩ :
            (pre' = pre ∧ start :: post' = [node]) ∨ ∃ rest, pre = pre' ++ start :: rest ∧ post' = rest ++ [node] := by
          rcases List.eq_nil_or_concat' post' with rfl | ⟨rest, last', rfl⟩
          · obtain ⟨rfl, heq⟩ := List.append_inj' (hstart.symm.trans hsplit) rfl
            exact .inl ⟨rfl, heq⟩
          · rw [hsplit, ← List.cons_append, ← List.append_assoc] at hstart
            obtain ⟨rfl, heq⟩ := List.append_inj' hstart rfl
            exact .inr ⟨rest, rfl, by rw [heq]⟩
        · exact h.ne_of_mem_pre hsplit (hpre ▸ hnode) rfl
        · exact h.ne_of_mem_pre hsplit (hpre ▸ List.mem_append_left _ hnode) rfl
      · intro hpage
        obtain rfl := List.inj_on_of_nodup_map h.nodup (by simp [hstart]) hlast hpage
        exact Nat.le_of_lt hfirst.slot
  | some upper =>
    have hkey := hupper upper rfl
    obtain ⟨pre, leaf, post, hsplit, hfind, hpre, hpost⟩ := h.routed upper hkey
    refine ⟨stopOf cmp leaf upper, h.upperBound_eq hsplit hfind, ?_, ?_, ?_, ?_⟩
    · intro heq
      unfold stopOf at heq
      split at heq
      · exact absurd (congrArg Iid.slotNo heq) Nat.one_ne_zero
      · exact (h.pageNo leaf (by simp [hsplit])).1.ne' (congrArg Iid.pageNo heq)
    · intro node hnode hpage
      exact h.stopOf_slotNo hsplit hnode hpage
    · intro e _
      rw [mem_cut_stopOf hcmp h hkey hsplit hfind hpre]
      simp
    · intro key hlow pre' start post' i hstart hfirst
      exact firstFrom_stopOf hcmp h (hlower key hlow) hkey (hle key hlow upper rfl) hsplit hpost hstart hfirst

/-- Behind the first entry that is not below `lower` no entry is. -/
private theorem mem_drop_cut (hlower : P lower) (hsplit : leaves = pre ++ leaf :: post) {i : ℕ}
    (hfirst : FirstFrom cmp lower pre leaf i) (hpre : ∀ node ∈ pre, node.pageNo ≠ stop.pageNo) {e : K × Rid} :
    e ∈ (cut stop (leaf :: post)).drop i ↔ e ∈ cut stop leaves ∧ cmp e.1 lower ≠ .lt := by
  have hget : ∀ j (hj : j < (cut stop (leaf :: post)).length), j < leaf.numKey →
      (cut stop (leaf :: post))[j] = (leaf.keys j, leaf.rids j) := by
    intro j hj hnum
    unfold cut
    split
    · rw [List.getElem_take, getElem_entries]
    · rw [List.getElem_append_left (by simpa using hnum), getElem_entries]
  have hfront := cut_front stop (leaf :: post)
  have hsorted : (cut stop (leaf :: post)).Pairwise fun a b => cmp a.1 b.1 ≠ .gt := by
    have := h.sorted
    rw [hsplit, List.flatMap_append, List.pairwise_append] at this
    exact this.2.1.sublist hfront.sublist
  have hkeys : ∀ e ∈ cut stop (leaf :: post), P e.1 := by
    intro e he
    refine h.keys e ?_
    rw [hsplit, List.flatMap_append]
    exact List.mem_append_right _ (hfront.subset he)
  rw [hsplit, cut_append stop _ hpre]
  constructor
  · intro he
    refine ⟨List.mem_append_right _ (List.mem_of_mem_drop he), ?_⟩
    obtain ⟨j, hj, rfl⟩ := List.mem_drop_iff_getElem.mp he
    have hi : i < (cut stop (leaf :: post)).length := by omega
    have hfound : cmp (cut stop (leaf :: post))[i].1 lower ≠ .lt := by
      rw [hget i hi hfirst.slot]
      exact hfirst.found
    cases j with
    | zero => exact hfound
    | succ j =>
      intro hlt
      exact hfound (lt_of_lt hcmp _ _ _ (hkeys _ (List.getElem_mem hi)) (hkeys _ (List.getElem_mem _)) hlower
        (List.pairwise_iff_getElem.mp hsorted i (i + (j + 1)) hi (by omega) (by omega)) hlt)
  · rintro ⟨he, hge⟩
    cases List.mem_append.mp he with
    | inl he => exact absurd (hfirst.pre e he) hge
    | inr he =>
      obtain ⟨j, hj, rfl⟩ := List.getElem_of_mem he
      have hij : i ≤ j := by
        by_contra hlt
        have hslot := hfirst.slot
        refine hge ?_
        rw [hget j hj (by omega)]
        exact hfirst.below j (by omega)
      refine List.mem_drop_iff_getElem.mpr ⟨j - i, by omega, ?_⟩
      congr 1
      omega

/-- A scan that finds a place to start goes through exactly the entries between its keys, each once. -/
theorem scanBetween_eq {lower upper : Option K} (hlower : ∀ key ∈ lower, P key) (hupper : ∀ key ∈ upper, P key)
    (hle : ∀ low ∈ lower, ∀ up ∈ upper, cmp low up ≠ .gt)
    (hin : StartsInside cmp (leaves.flatMap (·.entries)) lower upper) :
    ∃ scanned : List (K × Rid), ih.scanBetween cmp lower upper = .ok (scanned.map (·.2)) ∧
      scanned.Sublist (leaves.flatMap (·.entries)) ∧ ∀ e, e ∈ scanned ↔ ih.Reached cmp leaves lower upper e := by
  obtain ⟨stop, hstop, hat⟩ := exists_stopAt hcmp h hlower hupper hle
  have hpos : ∀ {pre leaf post}, leaves = pre ++ leaf :: post → ∀ node ∈ post, 0 < node.numKey :=
    fun hsplit node hnode => (h.numKey node (by simp [hsplit, hnode])).2 (by
      have := List.length_pos_of_mem hnode
      simp [hsplit]
      omega)
  have hscan : ∀ pre {leaf post i}, leaves = pre ++ leaf :: post → i ≤ leaf.numKey →
      ((⟨leaf.pageNo, i⟩ : Iid) ≠ stop → i < leaf.numKey) →
      (∀ node ∈ pre, node.pageNo ≠ stop.pageNo) → (leaf.pageNo = stop.pageNo → i ≤ stop.slotNo) →
      ih.scanRids stop ih.scanFuel ⟨leaf.pageNo, i⟩ = .ok (((cut stop (leaf :: post)).drop i).map (·.2)) := by
    intro pre leaf post i hsplit _ hi hpre hle
    refine h.scanRids_eq hsplit hi (hpos hsplit) hle (fun node hnode => hat.slotNo node (by
      rw [hsplit]
      exact List.mem_append_right _ hnode)) ?_
    have hlen := h.length_lt_scanFuel
    have hsub := (cut_front stop (leaf :: post)).length_le
    rw [hsplit, List.flatMap_append, List.length_append] at hlen
    rw [List.length_drop]
    omega
  unfold scanBetween
  cases lower with
  | none =>
    obtain ⟨first, post, hsplit⟩ := h.exists_cons
    have hbegin := h.leafBegin_eq hsplit
    have hslot : (⟨first.pageNo, 0⟩ : Iid) ≠ stop → 0 < first.numKey := by
      intro hne
      by_contra hzero
      have hlen : ¬1 < leaves.length := fun hlen => hzero ((h.numKey first (by simp [hsplit])).2 hlen)
      obtain rfl : post = [] := by
        rw [hsplit, List.length_cons] at hlen
        exact List.length_eq_zero_iff.mp (by omega)
      cases upper with
      | none =>
        rw [h.leafEnd_eq [] hsplit] at hstop
        refine hne ?_
        rw [← Except.ok.inj hstop, Nat.eq_zero_of_not_pos hzero]
      | some upper =>
        have hempty : first.entries = [] := List.length_eq_zero_iff.mp (by rw [length_entries]; omega)
        exact hin (by simp [hsplit, hempty])
    refine ⟨cut stop leaves, ?_, (cut_front stop leaves).sublist, fun e => ?_⟩
    · rw [scanBounds_eq none upper hbegin hstop]
      change ih.scanRids stop ih.scanFuel ⟨first.pageNo, 0⟩ = _
      rw [hscan [] hsplit (Nat.zero_le _) hslot nofun fun _ => Nat.zero_le _, List.drop_zero, hsplit]
    · constructor
      · intro he
        exact ⟨(cut_front stop leaves).subset he, nofun, (hat.mem_cut _ ((cut_front stop leaves).subset he)).mp he⟩
      · rintro ⟨he, -, hup⟩
        exact (hat.mem_cut _ he).mpr hup
  | some lower =>
    obtain ⟨pre, leaf, post, i, hsplit, hfirst, hbegin⟩ := lowerBound_inside hcmp h (hlower lower rfl) hin
    obtain ⟨hpre, hi⟩ := hat.firstFrom lower rfl pre leaf post i hsplit hfirst
    refine ⟨(cut stop (leaf :: post)).drop i, ?_, ?_, fun e => ?_⟩
    · rw [scanBounds_eq (some lower) upper hbegin hstop]
      exact hscan pre hsplit (Nat.le_of_lt hfirst.slot) (fun _ => hfirst.slot) hpre hi
    · refine (List.drop_sublist _ _).trans ((cut_front stop (leaf :: post)).sublist.trans ?_)
      rw [hsplit, List.flatMap_append]
      exact List.sublist_append_right _ _
    · rw [mem_drop_cut hcmp h (hlower lower rfl) hsplit hfirst hpre]
      constructor
      · rintro ⟨he, hge⟩
        refine ⟨(cut_front stop leaves).subset he, ?_, (hat.mem_cut _ ((cut_front stop leaves).subset he)).mp he⟩
        rintro _ ⟨⟩
        exact hge
      · rintro ⟨he, hlow, hup⟩
        exact ⟨(hat.mem_cut _ he).mpr hup, hlow lower rfl⟩

/-- A scan without a place to start asks for an entry that does not exist. -/
theorem scanBetween_error {lower upper : Option K} (hlower : ∀ key ∈ lower, P key) (hupper : ∀ key ∈ upper, P key)
    (hle : ∀ low ∈ lower, ∀ up ∈ upper, cmp low up ≠ .gt)
    (hin : ¬StartsInside cmp (leaves.flatMap (·.entries)) lower upper) :
    ih.scanBetween cmp lower upper = .error .indexEntryNotFound := by
  obtain ⟨stop, hstop, hat⟩ := exists_stopAt hcmp h hlower hupper hle
  have herror : ∀ {start node}, start ≠ stop → ih.fetchNode start.pageNo = .ok node →
      node.numKey ≤ start.slotNo → ih.scanRids stop ih.scanFuel start = .error .indexEntryNotFound := by
    intro start node hne hfetch hslot
    obtain ⟨fuel, hfuel⟩ := Nat.exists_eq_succ_of_ne_zero (Nat.ne_of_gt (Nat.zero_lt_of_lt h.length_lt_scanFuel))
    rw [hfuel]
    unfold scanRids getRid
    rw [if_neg hne, hfetch]
    change (((if node.numKey ≤ start.slotNo then _ else _) : Except IxError Rid) >>= _) = _
    rw [if_pos hslot]
    rfl
  unfold scanBetween
  cases lower with
  | none =>
    cases upper with
    | none => exact absurd trivial hin
    | some upper =>
      have hempty : leaves.flatMap (·.entries) = [] := not_not.mp hin
      obtain ⟨first, post, hsplit⟩ := h.exists_cons
      have hzero : first.numKey = 0 := by
        rw [hsplit, List.flatMap_cons, List.append_eq_nil_iff] at hempty
        rw [← length_entries, hempty.1]
        rfl
      have hfull : first.numKey ≤ first.upperBound cmp upper := by omega
      have hleaves : leaves = [first] := by
        have hlen : ¬1 < leaves.length := fun hlen => by
          have := (h.numKey first (by simp [hsplit])).2 hlen
          omega
        rw [hsplit, List.length_cons] at hlen
        rw [hsplit, List.length_eq_zero_iff.mp (show post.length = 0 by omega)]
      have hne : (⟨first.pageNo, 0⟩ : Iid) ≠ stop := by
        rintro rfl
        obtain ⟨pre, leaf, post', hsplit', hfind, -⟩ := h.routed upper (hupper upper rfl)
        have hmem : leaf ∈ leaves := by simp [hsplit']
        rw [hleaves] at hmem
        obtain rfl := List.mem_singleton.mp hmem
        have hbound : ih.upperBound cmp upper = .ok ⟨leaf.pageNo, 0⟩ := hstop
        rw [h.upperBound_eq hsplit' hfind, if_pos hfull] at hbound
        exact Nat.one_ne_zero (congrArg Iid.slotNo (Except.ok.inj hbound))
      rw [scanBounds_eq none (some upper) (h.leafBegin_eq hsplit) hstop]
      exact herror hne (h.fetch first (by simp [hsplit])) (by dsimp only; omega)
  | some lower =>
    obtain ⟨header, hfetch, hzero⟩ := h.header
    have hpast := lowerBound_past hcmp h (hlower lower rfl) fun e he => by
      by_contra hge
      exact hin ⟨e, he, hge⟩
    rw [scanBounds_eq (some lower) upper hpast hstop]
    exact herror hat.ne_header.symm hfetch (by dsimp only; omega)

end

end LeafChain

/-- An index whose entries all fit in the root leaf. -/
theorem leafChain_leafIndex [Inhabited K] {btreeOrder colTotLen n : ℕ} {unique : Bool} {keys : ℕ → K}
    {rids : ℕ → Rid} (hn : n ≤ btreeOrder + 1) (hkeys : ∀ i < n, P (keys i))
    (hsorted : ∀ i j, i < j → j < n → cmp (keys i) (keys j) ≠ .gt) :
    LeafChain P cmp (leafIndex btreeOrder colTotLen unique n keys rids) [rootLeaf n keys rids] where
  fetch leaf hleaf := by
    rw [List.mem_singleton] at hleaf
    subst hleaf
    simp [fetchNode, leafIndex, rootLeaf]
  isLeaf leaf hleaf := by
    rw [List.mem_singleton] at hleaf
    rw [hleaf]
    rfl
  pageNo leaf hleaf := by
    rw [List.mem_singleton] at hleaf
    rw [hleaf]
    change (1 : ℤ) < 2 ∧ (2 : ℤ) < 3
    omega
  nodup := List.nodup_singleton _
  header := ⟨_, by
    unfold fetchNode leafIndex
    dsimp only
    rw [Function.update_of_ne (by decide)]
    rfl, rfl⟩
  root := by
    change (2 : ℤ) ≠ -1
    omega
  firstLeaf := rfl
  lastLeaf := rfl
  nextLeaf pre leaf post hsplit := by
    obtain ⟨rfl, rfl, rfl⟩ : pre = [] ∧ leaf = rootLeaf n keys rids ∧ post = [] := by
      cases pre with
      | nil =>
        rw [List.nil_append, List.cons.injEq] at hsplit
        exact ⟨rfl, hsplit.1.symm, hsplit.2.symm⟩
      | cons node pre => simp at hsplit
    rfl
  numKey leaf hleaf := by
    rw [List.mem_singleton] at hleaf
    rw [hleaf]
    exact ⟨hn, fun hlen => absurd hlen (Nat.lt_irrefl 1)⟩
  keys e he := by
    rw [List.flatMap_cons, List.flatMap_nil, List.append_nil] at he
    obtain ⟨i, hi, rfl⟩ := SlotArray.mem_toList.mp he
    exact hkeys i hi
  sorted := by
    rw [List.flatMap_cons, List.flatMap_nil, List.append_nil, List.pairwise_iff_getElem]
    intro i j hi hj hij
    rw [length_entries] at hj
    rw [getElem_entries, getElem_entries]
    exact hsorted i j hij hj
  routed key _ := ⟨[], _, [], rfl, leafIndex_findLeafPage, nofun, nofun⟩

end IxIndexHandle
end Rmdb
