import Rmdb.Index.TreeSearch

/-! Scans between two bounds of a B+tree, as `create_scan` makes them. -/
namespace Rmdb
namespace IxIndexHandle

open Program SlotArray

variable {K : Type} {cmp : K → K → Ordering} {ih : IxIndexHandle K}

/-! ### Walks along the chain -/

variable {leaves pre post : List (IxNodeHandle K)} {leaf : IxNodeHandle K} {start stop : Iid} {a b : ℕ}

/-- The slot of the entry with so many others in front of it. -/
def At (leaves : List (IxNodeHandle K)) (iid : Iid) (n : ℕ) : Prop :=
  ∃ pre leaf post i, leaves = pre ++ leaf :: post ∧ i < leaf.numKey ∧ iid = ⟨leaf.pageNo, i⟩ ∧
    n = (pre.flatMap (·.entries)).length + i

/-- A walk that ends here goes through so many entries from the front. -/
structure StopsBehind (leaves : List (IxNodeHandle K)) (stop : Iid) (n : ℕ) : Prop where
  cut : cut stop leaves = (leaves.flatMap (·.entries)).take n
  le : n ≤ (leaves.flatMap (·.entries)).length
  slotNo : ∀ node ∈ leaves, node.pageNo = stop.pageNo → stop.slotNo ≤ node.numKey

theorem length_cut (h : LeafChain (fun _ => True) cmp ih leaves) (hsplit : leaves = pre ++ leaf :: post) {slotNo : ℕ}
    (hslot : slotNo ≤ leaf.numKey) :
    (IxIndexHandle.cut ⟨leaf.pageNo, slotNo⟩ leaves).length = (pre.flatMap (·.entries)).length + slotNo := by
  rw [hsplit, cut_append ⟨leaf.pageNo, slotNo⟩ _ fun node hnode => h.ne_of_mem_pre hsplit hnode, cut_cons_self,
    List.length_append, List.length_take, length_entries, Nat.min_eq_left hslot]

theorem StopsBehind.length (hstop : StopsBehind leaves stop b) : (IxIndexHandle.cut stop leaves).length = b := by
  rw [hstop.cut, List.length_take_of_le hstop.le]

/-- A stop on a page of the chain has the entries of the pages before it in front, and its slot. -/
theorem StopsBehind.eq (h : LeafChain (fun _ => True) cmp ih leaves) (hstop : StopsBehind leaves stop b)
    (hsplit : leaves = pre ++ leaf :: post) (hpage : leaf.pageNo = stop.pageNo) :
    b = (pre.flatMap (·.entries)).length + stop.slotNo := by
  have hslot := hstop.slotNo leaf (by simp [hsplit]) hpage
  rw [← hstop.length, ← length_cut h hsplit hslot, hpage]

/-- The walk from an entry to a stop behind it. -/
theorem scan_upto (h : LeafChain (fun _ => True) cmp ih leaves) (hstart : At leaves start a)
    (hstop : StopsBehind leaves stop b) (hlt : a < b) :
    ih.scanRids stop ih.scanFuel start = .ok ((((leaves.flatMap (·.entries)).take b).drop a).map (·.2)) := by
  obtain ⟨pre, leaf, post, i, hsplit, hi, rfl, rfl⟩ := hstart
  have hpre : ∀ node ∈ pre, node.pageNo ≠ stop.pageNo := by
    intro node hnode hpage
    obtain ⟨pre₁, pre₂, rfl⟩ := List.append_of_mem hnode
    have hb := hstop.eq h (by rw [hsplit, List.append_assoc, List.cons_append]) hpage
    have hslot := hstop.slotNo node (by simp [hsplit]) hpage
    rw [List.flatMap_append, List.flatMap_cons, List.length_append, List.length_append, length_entries] at hlt
    omega
  have hle : leaf.pageNo = stop.pageNo → i ≤ stop.slotNo := by
    intro hpage
    have hb := hstop.eq h hsplit hpage
    omega
  have hpost : ∀ next ∈ post, 0 < next.numKey := by
    intro next hnext
    apply (h.numKey next (by simp [hsplit, hnext])).2
    have hlen := List.length_pos_of_mem hnext
    rw [hsplit, List.length_append, List.length_cons]
    omega
  have hcut : cut stop leaves = pre.flatMap (·.entries) ++ cut stop (leaf :: post) := by
    rw [hsplit, cut_append stop _ hpre]
  have hlength := h.length_lt_scanFuel
  have hfuel : ((cut stop (leaf :: post)).drop i).length < ih.scanFuel := by
    have hb := hstop.length
    have hle := hstop.le
    rw [hcut, List.length_append] at hb
    rw [List.length_drop]
    omega
  rw [h.scanRids_eq hsplit (fun _ => hi) hpost hle (fun node hnode => hstop.slotNo node (by
    rw [hsplit]
    exact List.mem_append_right _ hnode)) hfuel, ← hstop.cut, hcut, ← List.drop_drop, List.drop_left' rfl]

section

variable (h : LeafChain (fun _ => True) cmp ih leaves)
include h

/-- A walk from behind its stop goes on to the end of the chain. -/
theorem scanRids_past {fuel i : ℕ} (hsplit : leaves = pre ++ leaf :: post) (hi : i < leaf.numKey)
    (hpost : ∀ next ∈ post, 0 < next.numKey) (hleaf : leaf.pageNo = stop.pageNo → stop.slotNo < i)
    (hpages : ∀ next ∈ post, next.pageNo ≠ stop.pageNo)
    (hfuel : (leaf.entries.drop i ++ post.flatMap (·.entries)).length < fuel) :
    ih.scanRids stop fuel ⟨leaf.pageNo, i⟩ = .ok ((leaf.entries.drop i ++ post.flatMap (·.entries)).map (·.2)) := by
  induction fuel generalizing pre leaf post i with
  | zero => exact absurd hfuel (Nat.not_lt_zero _)
  | succ fuel hrec =>
    have hne : ∀ j, i ≤ j → (⟨leaf.pageNo, j⟩ : Iid) ≠ stop := by
      intro j hj heq
      have hlt := hleaf (congrArg Iid.pageNo heq)
      have hslot : j = stop.slotNo := congrArg Iid.slotNo heq
      omega
    have hlong : i < leaf.entries.length := by rwa [length_entries]
    have hhead : leaf.entries.drop i = (leaf.keys i, leaf.rids i) :: leaf.entries.drop (i + 1) := by
      rw [List.drop_eq_getElem_cons hlong, getElem_entries]
    rw [hhead, List.cons_append, List.length_cons] at hfuel
    rw [hhead, List.cons_append, List.map_cons]
    unfold scanRids
    rw [if_neg (hne i (Nat.le_refl i)), h.getRid_eq (by simp [hsplit]) hi, h.scanNext_eq hsplit (hne i (Nat.le_refl i)),
      if_neg (hne (i + 1) (Nat.le_succ i))]
    have hrest : ih.scanRids stop fuel (if i + 1 = leaf.numKey then (post.head?.map fun next => ⟨next.pageNo, 0⟩).getD stop
        else ⟨leaf.pageNo, i + 1⟩) = .ok ((leaf.entries.drop (i + 1) ++ post.flatMap (·.entries)).map (·.2)) := by
      split
      · rename_i hend
        have hdrop : leaf.entries.drop (i + 1) = [] := by
          rw [hend, ← length_entries, List.drop_length]
        rw [hdrop] at hfuel ⊢
        cases post with
        | nil =>
          cases fuel with
          | zero => exact absurd hfuel (Nat.lt_irrefl _)
          | succ fuel => exact if_pos rfl
        | cons next post =>
          have hsplit' : leaves = (pre ++ [leaf]) ++ next :: post := by simp [hsplit]
          have hnext := hrec hsplit' (hpost next List.mem_cons_self)
            (fun node hnode => hpost node (List.mem_cons_of_mem _ hnode))
            (fun hpage => absurd hpage (hpages next List.mem_cons_self))
            (fun node hnode => hpages node (List.mem_cons_of_mem _ hnode))
            (by rw [List.drop_zero]; exact Nat.lt_of_succ_lt_succ hfuel)
          rwa [List.drop_zero] at hnext
      · rename_i hend
        exact hrec hsplit (by omega) hpost (fun hpage => Nat.lt_succ_of_lt (hleaf hpage)) hpages
          (Nat.lt_of_succ_lt_succ hfuel)
    change (ih.scanRids stop fuel _ >>= fun rest => pure (leaf.rids i :: rest)) = _
    rw [hrest]
    rfl

theorem scan_past (hstart : At leaves start a) (hstop : StopsBehind leaves stop b) (hle : b ≤ a) (hne : start ≠ stop) :
    ih.scanRids stop ih.scanFuel start = .ok (((leaves.flatMap (·.entries)).drop a).map (·.2)) := by
  obtain ⟨pre, leaf, post, i, hsplit, hi, rfl, rfl⟩ := hstart
  have hpost : ∀ next ∈ post, 0 < next.numKey := by
    intro next hnext
    apply (h.numKey next (by simp [hsplit, hnext])).2
    have hlen := List.length_pos_of_mem hnext
    rw [hsplit, List.length_append, List.length_cons]
    omega
  have hleaf : leaf.pageNo = stop.pageNo → stop.slotNo < i := by
    intro hpage
    have hb := hstop.eq h hsplit hpage
    have hslot : stop.slotNo ≠ i := by
      rintro rfl
      exact hne (by rw [hpage])
    omega
  have hpages : ∀ next ∈ post, next.pageNo ≠ stop.pageNo := by
    intro next hnext hpage
    obtain ⟨post₁, post₂, rfl⟩ := List.append_of_mem hnext
    have hb := hstop.eq h (show leaves = (pre ++ leaf :: post₁) ++ next :: post₂ by simp [hsplit]) hpage
    rw [List.flatMap_append, List.flatMap_cons, List.length_append, List.length_append, length_entries] at hb
    omega
  have hdrop : (leaves.flatMap (·.entries)).drop ((pre.flatMap (·.entries)).length + i) =
      leaf.entries.drop i ++ post.flatMap (·.entries) := by
    rw [hsplit, List.flatMap_append, List.flatMap_cons, ← List.drop_drop, List.drop_left' rfl,
      List.drop_append_of_le_length]
    rw [length_entries]
    exact Nat.le_of_lt hi
  have hfuel : (leaf.entries.drop i ++ post.flatMap (·.entries)).length < ih.scanFuel := by
    have hlength := h.length_lt_scanFuel
    rw [← hdrop, List.length_drop]
    omega
  rw [scanRids_past h hsplit hi hpost hleaf hpages hfuel, hdrop]

theorem scan_empty (stop : Iid) : ih.scanRids stop ih.scanFuel stop = .ok [] := by
  obtain ⟨fuel, hfuel⟩ := Nat.exists_eq_succ_of_ne_zero (Nat.ne_of_gt (Nat.zero_lt_of_lt h.length_lt_scanFuel))
  rw [hfuel]
  exact if_pos rfl

/-- There is no entry at a slot that a page does not use. -/
theorem scan_outside {node : IxNodeHandle K} (hne : start ≠ stop) (hfetch : ih.fetchNode start.pageNo = .ok node)
    (hslot : node.numKey ≤ start.slotNo) : ih.scanRids stop ih.scanFuel start = .error .indexEntryNotFound := by
  obtain ⟨fuel, hfuel⟩ := Nat.exists_eq_succ_of_ne_zero (Nat.ne_of_gt (Nat.zero_lt_of_lt h.length_lt_scanFuel))
  rw [hfuel]
  unfold scanRids getRid
  rw [if_neg hne, hfetch]
  change (if node.numKey ≤ start.slotNo then Except.error IxError.indexEntryNotFound else _) >>= _ = _
  rw [if_pos hslot]
  rfl

end

/-! ### Bounds and their places -/

/-- An end of a scan: an end of the chain, or in front of or behind the entries with a key. -/
inductive Edge (K : Type) where
  | first
  | last
  | notBelow (key : K)
  | above (key : K)

/-- The bounds of a scan; a missing key is no bound. -/
structure ScanRange (K : Type) where
  lower : Option K
  upper : Option K
  lowerInclusive : Bool
  upperInclusive : Bool

namespace ScanRange

variable (bounds : ScanRange K)

/-- The key of the entry lies between the bounds. -/
def Inside (cmp : K → K → Ordering) (e : K × Rid) : Prop :=
  (∀ key ∈ bounds.lower, cmp e.1 key = .gt ∨ bounds.lowerInclusive = true ∧ cmp e.1 key = .eq) ∧
    ∀ key ∈ bounds.upper, cmp e.1 key = .lt ∨ bounds.upperInclusive = true ∧ cmp e.1 key = .eq

instance (cmp : K → K → Ordering) : DecidablePred (bounds.Inside cmp) := fun _ => inferInstanceAs (Decidable (_ ∧ _))

def lowerEdge : Edge K :=
  match bounds.lower with
  | none => .first
  | some key => if bounds.lowerInclusive then .notBelow key else .above key

def upperEdge : Edge K :=
  match bounds.upper with
  | none => .last
  | some key => if bounds.upperInclusive then .above key else .notBelow key

end ScanRange

/-- The record identifiers that the scan between two bounds goes through. -/
def rangeRids (cmp : K → K → Ordering) (ih : IxIndexHandle K) (bounds : ScanRange K) : Except IxError (List Rid) := do
  let (start, stop) ← ih.createScan cmp bounds.lower bounds.upper bounds.lowerInclusive bounds.upperInclusive
  ih.scanRids stop ih.scanFuel start

/-- The scan goes through the entries between its bounds, in the order of their keys and once each. -/
def ScansInside (cmp : K → K → Ordering) (ih : IxIndexHandle K) (entries : List (K × Rid)) (bounds : ScanRange K) : Prop :=
  ∃ inside : List (K × Rid), inside.Perm (entries.filter (bounds.Inside cmp ·)) ∧ inside.Pairwise (fun a b => cmp a.1 b.1 = .lt) ∧
    ih.rangeRids cmp bounds = .ok (inside.map (·.2))

/-- A place between the entries of a chain, as a scan tells it from others. -/
inductive Place where
  | front (n : ℕ)
  | behind (pageNo : ℤ)
  | past (slotNo : ℕ)

namespace Edge

/-- The entry stands in front of the edge. -/
def Front (cmp : K → K → Ordering) : Edge K → K × Rid → Prop
  | first, _ => False
  | last, _ => True
  | notBelow key, e => cmp e.1 key = .lt
  | above key, e => cmp e.1 key ≠ .gt

def iid (cmp : K → K → Ordering) (ih : IxIndexHandle K) : Edge K → Except IxError Iid
  | first => ih.leafBegin
  | last => ih.leafEnd
  | notBelow key => ih.lowerBound cmp key
  | above key => ih.upperBound cmp key

/-- Where an edge lies. Behind a key that no key is above in the leaf where its search ends, it lies behind the first
entry of the next leaf. -/
inductive Lies (cmp : K → K → Ordering) (ih : IxIndexHandle K) (leaves : List (IxNodeHandle K)) : Edge K → Place → Prop where
  | first (h : leaves.flatMap (·.entries) ≠ []) : Lies cmp ih leaves .first (.front 0)
  | firstEmpty (h : leaves.flatMap (·.entries) = []) : Lies cmp ih leaves .first (.behind ih.fileHdr.lastLeaf)
  | last : Lies cmp ih leaves .last (.behind ih.fileHdr.lastLeaf)
  | notBelow {key : K} {e : K × Rid} {before rest : List (K × Rid)} (hentries : leaves.flatMap (·.entries) = before ++ e :: rest)
      (hbefore : ∀ e ∈ before, cmp e.1 key = .lt) (he : cmp e.1 key ≠ .lt) :
      Lies cmp ih leaves (.notBelow key) (.front before.length)
  | notBelowPast {key : K} (h : ∀ e ∈ leaves.flatMap (·.entries), cmp e.1 key = .lt) :
      Lies cmp ih leaves (.notBelow key) (.past 0)
  | above {key : K} {leaf : IxNodeHandle K} {e : K × Rid} {before rest : List (K × Rid)}
      (hfind : ih.findLeafPage cmp key = .ok leaf) (hleaf : ∃ e ∈ leaf.entries, cmp e.1 key = .gt)
      (hentries : leaves.flatMap (·.entries) = before ++ e :: rest) (hbefore : ∀ e ∈ before, cmp e.1 key ≠ .gt)
      (he : cmp e.1 key = .gt) : Lies cmp ih leaves (.above key) (.front before.length)
  | aboveNext {key : K} {leaf next : IxNodeHandle K} {pre post : List (IxNodeHandle K)}
      (hsplit : leaves = pre ++ leaf :: next :: post) (hfind : ih.findLeafPage cmp key = .ok leaf)
      (hleaf : ∀ e ∈ leaf.entries, cmp e.1 key ≠ .gt) (hnext : 1 < next.numKey) :
      Lies cmp ih leaves (.above key) (.front ((pre.flatMap (·.entries)).length + leaf.numKey + 1))
  | aboveOnly {key : K} {leaf next : IxNodeHandle K} {pre post : List (IxNodeHandle K)}
      (hsplit : leaves = pre ++ leaf :: next :: post) (hfind : ih.findLeafPage cmp key = .ok leaf)
      (hleaf : ∀ e ∈ leaf.entries, cmp e.1 key ≠ .gt) (hnext : next.numKey = 1) :
      Lies cmp ih leaves (.above key) (.behind next.pageNo)
  | abovePast {key : K} {leaf : IxNodeHandle K} {pre : List (IxNodeHandle K)} (hsplit : leaves = pre ++ [leaf])
      (hfind : ih.findLeafPage cmp key = .ok leaf) (hleaf : ∀ e ∈ leaf.entries, cmp e.1 key ≠ .gt) :
      Lies cmp ih leaves (.above key) (.past 1)

end Edge

/-- The position that stands for a place. -/
def Place.Is (leaves : List (IxNodeHandle K)) : Place → Iid → Prop
  | front n, iid => At leaves iid n
  | behind pageNo, iid => ∃ leaf ∈ leaves, leaf.pageNo = pageNo ∧ iid = ⟨pageNo, leaf.numKey⟩
  | past slotNo, iid => iid = ⟨ixLeafHeaderPage, slotNo⟩

theorem At.unique (h : LeafChain (fun _ => True) cmp ih leaves) {iid : Iid} {n n' : ℕ} (hn : At leaves iid n)
    (hn' : At leaves iid n') : n = n' := by
  obtain ⟨pre, leaf, post, i, hsplit, hi, rfl, rfl⟩ := hn
  obtain ⟨pre', leaf', post', i', hsplit', hi', heq, rfl⟩ := hn'
  obtain ⟨hpage, rfl⟩ := Iid.mk.inj heq
  obtain rfl : leaf = leaf' := List.inj_on_of_nodup_map h.nodup (by simp [hsplit]) (by simp [hsplit']) hpage
  obtain ⟨rfl, -⟩ := h.split_unique hsplit hsplit'
  rfl

theorem length_le_of_at {pre' post' : List (IxNodeHandle K)} {leaf' : IxNodeHandle K} {i i' : ℕ}
    (hsplit : leaves = pre ++ leaf :: post) (hi : i < leaf.numKey) (hsplit' : leaves = pre' ++ leaf' :: post')
    (heq : (pre.flatMap (·.entries)).length + i = (pre'.flatMap (·.entries)).length + i') : pre'.length ≤ pre.length := by
  by_contra hlt
  have hfront : pre ++ [leaf] <+: leaves := ⟨post, by simp [hsplit]⟩
  have hfront' : pre' <+: leaves := ⟨leaf' :: post', hsplit'.symm⟩
  have hlength : (pre ++ [leaf]).length ≤ pre'.length := by
    rw [List.length_append, List.length_singleton]
    omega
  obtain ⟨mid, rfl⟩ := List.prefix_of_prefix_length_le hfront hfront' hlength
  rw [List.flatMap_append, List.flatMap_append, List.flatMap_singleton, List.length_append, List.length_append,
    length_entries] at heq
  omega

theorem At.iid_unique {iid iid' : Iid} {n : ℕ} (hn : At leaves iid n) (hn' : At leaves iid' n) : iid = iid' := by
  obtain ⟨pre, leaf, post, i, hsplit, hi, rfl, rfl⟩ := hn
  obtain ⟨pre', leaf', post', i', hsplit', hi', rfl, heq⟩ := hn'
  have hlength := Nat.le_antisymm (length_le_of_at hsplit' hi' hsplit heq.symm) (length_le_of_at hsplit hi hsplit' heq)
  obtain ⟨rfl, hrest⟩ := List.append_inj (hsplit.symm.trans hsplit') hlength
  obtain ⟨rfl, -⟩ := List.cons.inj hrest
  rw [Nat.add_left_cancel heq]

theorem At.pageNo {iid : Iid} {n : ℕ} (hn : At leaves iid n) : ∃ leaf ∈ leaves, iid.pageNo = leaf.pageNo ∧
    iid.slotNo < leaf.numKey := by
  obtain ⟨pre, leaf, post, i, hsplit, hi, rfl, -⟩ := hn
  exact ⟨leaf, by simp [hsplit], rfl, hi⟩

/-- Positions tell the places apart. -/
theorem Place.Is.eq_iff (h : LeafChain (fun _ => True) cmp ih leaves) {place place' : Place} {iid iid' : Iid}
    (his : place.Is leaves iid) (his' : place'.Is leaves iid') : place = place' ↔ iid = iid' := by
  have hleaf : ∀ {leaf leaf' : IxNodeHandle K}, leaf ∈ leaves → leaf' ∈ leaves → leaf.pageNo = leaf'.pageNo → leaf = leaf' :=
    fun hmem hmem' heq => List.inj_on_of_nodup_map h.nodup hmem hmem' heq
  constructor
  · rintro rfl
    cases place with
    | front n => exact his.iid_unique his'
    | behind pageNo =>
      obtain ⟨leaf, hmem, rfl, rfl⟩ := his
      obtain ⟨leaf', hmem', hpage, rfl⟩ := his'
      rw [hleaf hmem' hmem hpage]
    | past slotNo => exact Eq.trans his (Eq.symm his')
  · rintro rfl
    have hfront : ∀ {n}, At leaves iid n → (∀ pageNo, ¬(Place.behind pageNo).Is leaves iid) ∧
        ∀ slotNo, ¬(Place.past slotNo).Is leaves iid := by
      intro n hn
      obtain ⟨leaf, hmem, hpage, hslot⟩ := hn.pageNo
      constructor
      · intro pageNo ⟨leaf', hmem', hpage', heq⟩
        rw [heq] at hpage hslot
        obtain rfl := hleaf hmem' hmem (hpage'.trans hpage)
        exact Nat.lt_irrefl _ hslot
      · intro slotNo heq
        rw [show iid = _ from heq] at hpage
        exact (h.pageNo leaf hmem).1.ne hpage
    have hbehind : ∀ {pageNo}, (Place.behind pageNo).Is leaves iid → ∀ slotNo, ¬(Place.past slotNo).Is leaves iid := by
      intro pageNo ⟨leaf, hmem, hpage, heq⟩ slotNo heq'
      have hheader : pageNo = ixLeafHeaderPage := congrArg Iid.pageNo (heq.symm.trans heq')
      exact (h.pageNo leaf hmem).1.ne' (hpage.trans hheader)
    cases place with
    | front n =>
      cases place' with
      | front n' => rw [his.unique h his']
      | behind pageNo' => exact absurd his' ((hfront his).1 pageNo')
      | past slotNo' => exact absurd his' ((hfront his).2 slotNo')
    | behind pageNo =>
      cases place' with
      | front n' => exact absurd his ((hfront his').1 pageNo)
      | behind pageNo' =>
        obtain ⟨leaf, -, -, heq⟩ := his
        obtain ⟨leaf', -, -, heq'⟩ := his'
        exact congrArg (fun iid => Place.behind (Iid.pageNo iid)) (heq.symm.trans heq')
      | past slotNo' => exact absurd his' (hbehind his slotNo')
    | past slotNo =>
      cases place' with
      | front n' => exact absurd his ((hfront his').2 slotNo)
      | behind pageNo' => exact absurd his (hbehind his' slotNo)
      | past slotNo' => exact congrArg (fun iid => Place.past (Iid.slotNo iid)) ((Eq.symm his).trans his')

theorem stopsBehind_slot (h : LeafChain (fun _ => True) cmp ih leaves) (hsplit : leaves = pre ++ leaf :: post) {slotNo : ℕ}
    (hslot : slotNo ≤ leaf.numKey) : StopsBehind leaves ⟨leaf.pageNo, slotNo⟩ ((pre.flatMap (·.entries)).length + slotNo) where
  cut := by
    rw [hsplit, cut_append ⟨leaf.pageNo, slotNo⟩ _ fun node hnode => h.ne_of_mem_pre hsplit hnode, cut_cons_self,
      List.flatMap_append, List.flatMap_cons, List.take_length_add_append, List.take_append_of_le_length]
    rwa [length_entries]
  le := by
    rw [hsplit, List.flatMap_append, List.flatMap_cons, List.length_append, List.length_append, length_entries]
    omega
  slotNo node hnode hpage := by
    obtain rfl : node = leaf := List.inj_on_of_nodup_map h.nodup hnode (by simp [hsplit]) hpage
    exact hslot

theorem stopsBehind_past (h : LeafChain (fun _ => True) cmp ih leaves) (slotNo : ℕ) :
    StopsBehind leaves ⟨ixLeafHeaderPage, slotNo⟩ (leaves.flatMap (·.entries)).length where
  cut := by
    rw [List.take_length]
    exact cut_eq fun node hnode => (h.pageNo node hnode).1.ne'
  le := Nat.le_refl _
  slotNo node hnode hpage := absurd hpage (h.pageNo node hnode).1.ne'

namespace Edge

/-- So many entries stand in front of the edge. -/
structure Cuts (cmp : K → K → Ordering) (leaves : List (IxNodeHandle K)) (edge : Edge K) (n : ℕ) : Prop where
  le : n ≤ (leaves.flatMap (·.entries)).length
  front : ∀ e ∈ (leaves.flatMap (·.entries)).take n, edge.Front cmp e
  behind : ∀ e ∈ (leaves.flatMap (·.entries)).drop n, ¬edge.Front cmp e

/-- Where the search for the key of the edge ends in a leaf without a key above it, the next leaf has at least so many
entries, one of them with the key. -/
def Meets (cmp : K → K → Ordering) (ih : IxIndexHandle K) (leaves : List (IxNodeHandle K)) (m : ℕ) : Edge K → Prop
  | above key => ∀ pre leaf next post, leaves = pre ++ leaf :: next :: post → ih.findLeafPage cmp key = .ok leaf →
    (∀ e ∈ leaf.entries, cmp e.1 key ≠ .gt) → m ≤ next.numKey ∧ ∃ e ∈ next.entries, cmp e.1 key = .eq
  | _ => True

/-- The position of an edge, with `b` entries in front of it where `c` of them should be. -/
structure Ends (cmp : K → K → Ordering) (ih : IxIndexHandle K) (leaves : List (IxNodeHandle K)) (edge : Edge K) (place : Place)
    (position : Iid) (b c : ℕ) : Prop where
  iid : edge.iid cmp ih = .ok position
  place : place.Is leaves position
  stops : StopsBehind leaves position b
  cuts : edge.Cuts cmp leaves c
  le : c ≤ b
  stop : b = c ↔ edge.Meets cmp ih leaves 1
  start : c < (leaves.flatMap (·.entries)).length → (At leaves position b ∧ b = c ↔ edge.Meets cmp ih leaves 2)

variable {edge : Edge K} {place : Place}

theorem Cuts.unique {n n' : ℕ} (hn : edge.Cuts cmp leaves n) (hn' : edge.Cuts cmp leaves n') : n = n' := by
  have hle : ∀ {n n' : ℕ}, edge.Cuts cmp leaves n → edge.Cuts cmp leaves n' → n ≤ n' := by
    intro n n' hn hn'
    by_contra hlt
    have hlength := hn.le
    have hinside : n' < (leaves.flatMap (·.entries)).length := by omega
    have htake : n' < ((leaves.flatMap (·.entries)).take n).length := by
      rw [List.length_take_of_le hn.le]
      omega
    have hfront := hn.front _ (List.getElem_mem htake)
    rw [List.getElem_take] at hfront
    refine hn'.behind _ ?_ hfront
    rw [List.mem_drop_iff_getElem]
    exact ⟨0, by omega, rfl⟩
  exact Nat.le_antisymm (hle hn hn') (hle hn' hn)

theorem cuts_of_split [Std.TransCmp cmp] {before rest : List (K × Rid)}
    (hentries : leaves.flatMap (·.entries) = before ++ rest) (hbefore : ∀ e ∈ before, edge.Front cmp e)
    (hrest : ∀ e ∈ rest, ¬edge.Front cmp e) : edge.Cuts cmp leaves before.length where
  le := by
    rw [hentries, List.length_append]
    exact Nat.le_add_right _ _
  front := by
    rw [hentries, List.take_left' rfl]
    exact hbefore
  behind := by
    rw [hentries, List.drop_left' rfl]
    exact hrest

/-- Behind an entry that does not stand in front of an edge, none does. -/
theorem not_front_of_lt [Std.TransCmp cmp] {e e' : K × Rid} (hlt : cmp e.1 e'.1 = .lt) (he : ¬edge.Front cmp e) :
    ¬edge.Front cmp e' := by
  cases edge with
  | first => exact he
  | last => exact absurd trivial he
  | notBelow key =>
    intro hfront
    exact he (Std.TransCmp.lt_trans hlt hfront)
  | above key =>
    intro hfront
    have hle := Std.TransCmp.lt_of_lt_of_isLE hlt (Ordering.isLE_iff_ne_gt.mpr hfront)
    exact he fun hgt => absurd (hle.symm.trans hgt) nofun

theorem cuts_of_first [Std.TransCmp cmp] {before rest : List (K × Rid)} {e : K × Rid}
    (hstrict : (leaves.flatMap (·.entries)).Pairwise fun a b => cmp a.1 b.1 = .lt)
    (hentries : leaves.flatMap (·.entries) = before ++ e :: rest) (hbefore : ∀ e ∈ before, edge.Front cmp e)
    (he : ¬edge.Front cmp e) : edge.Cuts cmp leaves before.length := by
  rw [hentries, List.pairwise_append, List.pairwise_cons] at hstrict
  apply cuts_of_split hentries hbefore
  intro e' he'
  rcases List.mem_cons.mp he' with rfl | he'
  · exact he
  · exact not_front_of_lt (hstrict.2.1.1 e' he') he

theorem cuts_at [Std.TransCmp cmp] (hstrict : (leaves.flatMap (·.entries)).Pairwise fun a b => cmp a.1 b.1 = .lt)
    (hsplit : leaves = pre ++ leaf :: post) {i : ℕ} (hi : i < leaf.numKey)
    (hpre : ∀ e ∈ pre.flatMap (·.entries), edge.Front cmp e) (hbelow : ∀ j < i, edge.Front cmp (leaf.keys j, leaf.rids j))
    (hat : ¬edge.Front cmp (leaf.keys i, leaf.rids i)) :
    edge.Cuts cmp leaves ((pre.flatMap (·.entries)).length + i) := by
  have hlong : i < leaf.entries.length := by rwa [length_entries]
  have hentries : leaves.flatMap (·.entries) = (pre.flatMap (·.entries) ++ leaf.entries.take i) ++
      (leaf.keys i, leaf.rids i) :: (leaf.entries.drop (i + 1) ++ post.flatMap (·.entries)) := by
    rw [hsplit, List.flatMap_append, List.flatMap_cons, ← getElem_entries hlong, List.append_assoc, ← List.cons_append,
      ← List.drop_eq_getElem_cons hlong, ← List.append_assoc (leaf.entries.take i), List.take_append_drop]
  have hbefore : ∀ e ∈ pre.flatMap (·.entries) ++ leaf.entries.take i, edge.Front cmp e := by
    intro e he
    rcases List.mem_append.mp he with he | he
    · exact hpre e he
    · obtain ⟨j, hj, rfl⟩ := List.mem_take_iff_getElem.mp he
      rw [getElem_entries]
      exact hbelow j (by omega)
  have hcuts := cuts_of_first hstrict hentries hbefore hat
  rwa [List.length_append, List.length_take_of_le (Nat.le_of_lt hlong)] at hcuts

variable {b c : ℕ} {position : Iid}

/-- An edge without a key, or with one that it is known to stand right before. -/
theorem ends_front (h : LeafChain (fun _ => True) cmp ih leaves) (hiid : edge.iid cmp ih = .ok position)
    (hat : At leaves position b) (hcuts : edge.Cuts cmp leaves b) (hmeets : ∀ m, edge.Meets cmp ih leaves m) :
    edge.Ends cmp ih leaves (.front b) position b b where
  iid := hiid
  place := hat
  stops := by
    obtain ⟨pre, leaf, post, i, hsplit, hi, rfl, rfl⟩ := hat
    exact stopsBehind_slot h hsplit (Nat.le_of_lt hi)
  cuts := hcuts
  le := Nat.le_refl b
  stop := iff_of_true rfl (hmeets 1)
  start _ := iff_of_true ⟨hat, rfl⟩ (hmeets 2)

theorem ends_all (hiid : edge.iid cmp ih = .ok position) (hplace : place.Is leaves position)
    (hstops : StopsBehind leaves position (leaves.flatMap (·.entries)).length)
    (hall : ∀ e ∈ leaves.flatMap (·.entries), edge.Front cmp e) (hmeets : ∀ m, edge.Meets cmp ih leaves m) :
    edge.Ends cmp ih leaves place position (leaves.flatMap (·.entries)).length (leaves.flatMap (·.entries)).length where
  iid := hiid
  place := hplace
  stops := hstops
  cuts := by
    refine ⟨Nat.le_refl _, fun e he => hall e (List.mem_of_mem_take he), ?_⟩
    rw [List.drop_length]
    exact nofun
  le := Nat.le_refl _
  stop := iff_of_true rfl (hmeets 1)
  start hlt := absurd hlt (Nat.lt_irrefl _)

theorem transOn [Std.TransCmp cmp] : TransOn (fun _ => True) cmp :=
  ⟨fun _ _ _ _ => Std.OrientedCmp.eq_swap, fun _ _ _ _ _ _ hab hbe => Std.TransCmp.isLE_trans hab hbe⟩

variable (h : LeafChain (fun _ => True) cmp ih leaves)
include h

theorem exists_last : ∃ pre last, leaves = pre ++ [last] ∧
    last.pageNo = ih.fileHdr.lastLeaf ∧ ih.leafEnd = .ok ⟨ih.fileHdr.lastLeaf, last.numKey⟩ := by
  have hlast := h.lastLeaf
  rcases List.eq_nil_or_concat' leaves with rfl | ⟨pre, last, rfl⟩
  · cases hlast
  · rw [List.getLast?_concat, Option.map_some, Option.some.injEq] at hlast
    refine ⟨pre, last, rfl, hlast, ?_⟩
    rw [h.leafEnd_eq pre rfl, hlast]

theorem stopsBehind_last {pre : List (IxNodeHandle K)} {last : IxNodeHandle K} (hsplit : leaves = pre ++ [last]) :
      StopsBehind leaves ⟨last.pageNo, last.numKey⟩ (leaves.flatMap (·.entries)).length := by
  have hlength : (leaves.flatMap (·.entries)).length = (pre.flatMap (·.entries)).length + last.numKey := by
    rw [hsplit, List.flatMap_append, List.flatMap_singleton, List.length_append, length_entries]
  rw [hlength]
  exact stopsBehind_slot h hsplit (Nat.le_refl _)

variable (hstrict : (leaves.flatMap (·.entries)).Pairwise fun a b => cmp a.1 b.1 = .lt)
include hstrict

/-- Where the search for a key ends, and what the position behind its entries is. -/
theorem exists_upperBound [Std.TransCmp cmp] (key : K) :
    ∃ pre leaf post, leaves = pre ++ leaf :: post ∧ ih.findLeafPage cmp key = .ok leaf ∧
      (∀ e ∈ post.flatMap (·.entries), cmp e.1 key ≠ .lt) ∧
      ((∃ e ∈ leaf.entries, cmp e.1 key = .gt) ∧ (∃ i < leaf.numKey, ih.upperBound cmp key = .ok ⟨leaf.pageNo, i⟩ ∧
          (Edge.above key).Cuts cmp leaves ((pre.flatMap (·.entries)).length + i)) ∨
        (∀ e ∈ leaf.entries, cmp e.1 key ≠ .gt) ∧ ih.upperBound cmp key = .ok ⟨leaf.nextLeaf, 1⟩ ∧
          ∀ e ∈ (pre ++ [leaf]).flatMap (·.entries), cmp e.1 key ≠ .gt) := by
  obtain ⟨pre, leaf, post, hsplit, hfind, hpre, hpost⟩ := h.routed key trivial
  have hleaf : leaf ∈ leaves := by simp [hsplit]
  have hboundary : Bisect.Boundary (fun i => (cmp (leaf.keys i) key).isLE) leaf.numKey :=
    LeafChain.boundary_upper transOn h hleaf trivial
  have hbelow : ∀ i < leaf.upperBound cmp key, cmp (leaf.keys i) key ≠ .gt := by
    intro i hi
    exact Ordering.isLE_iff_ne_gt.mp (Bisect.of_lt_search hboundary hi)
  refine ⟨pre, leaf, post, hsplit, hfind, hpost, ?_⟩
  rw [h.upperBound_eq hsplit hfind]
  by_cases hfull : leaf.numKey ≤ leaf.upperBound cmp key
  · right
    have hall : ∀ e ∈ leaf.entries, cmp e.1 key ≠ .gt := by
      intro e he
      obtain ⟨i, hi, rfl⟩ := LeafChain.mem_entries.mp he
      exact hbelow i (Nat.lt_of_lt_of_le hi hfull)
    rw [if_pos hfull]
    refine ⟨hall, rfl, fun e he => ?_⟩
    rw [List.flatMap_append, List.flatMap_singleton] at he
    rcases List.mem_append.mp he with he | he
    · rw [hpre e he]
      decide
    · exact hall e he
  · left
    have hlt : leaf.upperBound cmp key < leaf.numKey := Nat.lt_of_not_le hfull
    have habove : cmp (leaf.keys (leaf.upperBound cmp key)) key = .gt := by
      have hnot : (cmp (leaf.keys (leaf.upperBound cmp key)) key).isLE = false :=
        Bisect.of_search_le hboundary (Nat.le_refl _) hlt
      rwa [Ordering.isLE_eq_false] at hnot
    rw [if_neg hfull]
    refine ⟨⟨_, LeafChain.mem_entries.mpr ⟨_, hlt, rfl⟩, habove⟩, _, hlt, rfl, ?_⟩
    exact cuts_at hstrict hsplit hlt (fun e he hgt => absurd ((hpre e he).symm.trans hgt) nofun) hbelow fun hfront =>
      hfront habove

/-- Behind a leaf without a key above it, the position is the second slot of the next one. -/
theorem ends_next [Std.TransCmp cmp] {key : K} {next : IxNodeHandle K}
    (hsplit : leaves = pre ++ leaf :: next :: post) (hfind : ih.findLeafPage cmp key = .ok leaf)
    (hleaf : ∀ e ∈ leaf.entries, cmp e.1 key ≠ .gt) (hplace : place.Is leaves ⟨next.pageNo, 1⟩) :
    ∃ position b c, (Edge.above key).Ends cmp ih leaves place position b c := by
  obtain ⟨pre', leaf', post', hsplit', hfind', hpost, hcase⟩ := exists_upperBound h hstrict key
  obtain rfl := Except.ok.inj (hfind'.symm.trans hfind)
  obtain ⟨rfl, rfl⟩ := h.split_unique hsplit hsplit'
  rcases hcase with ⟨⟨e, he, hgt⟩, -⟩ | ⟨-, hiid, hfront⟩
  · exact absurd hgt (hleaf e he)
  have hnext : leaves = (pre' ++ [leaf']) ++ next :: post := by simp [hsplit]
  have hmem : next ∈ leaves := by simp [hsplit]
  have hpos : 0 < next.numKey := (h.numKey next hmem).2 (by simp [hsplit]; omega)
  have hlong : 0 < next.entries.length := by rwa [length_entries]
  have hhead : next.entries = (next.keys 0, next.rids 0) :: next.entries.drop 1 := by
    rw [← getElem_entries hlong, ← List.drop_eq_getElem_cons hlong, List.drop_zero]
  have hentries : leaves.flatMap (·.entries) = (pre' ++ [leaf']).flatMap (·.entries) ++
      (next.keys 0, next.rids 0) :: (next.entries.drop 1 ++ post.flatMap (·.entries)) := by
    rw [hnext, List.flatMap_append, List.flatMap_cons, hhead, List.cons_append]
    rfl
  have hmeets : ∀ m, (Edge.above key).Meets cmp ih leaves m ↔ m ≤ next.numKey ∧ ∃ e ∈ next.entries, cmp e.1 key = .eq := by
    intro m
    constructor
    · intro hmeets
      exact hmeets pre' leaf' next post hsplit hfind hleaf
    · intro hm pre₁ leaf₁ next₁ post₁ hsplit₁ hfind₁ _
      obtain rfl := Except.ok.inj (hfind₁.symm.trans hfind)
      obtain ⟨-, heq⟩ := h.split_unique hsplit hsplit₁
      obtain ⟨rfl, -⟩ := List.cons.inj heq
      exact hm
  have hat : At leaves ⟨next.pageNo, 1⟩ (((pre' ++ [leaf']).flatMap (·.entries)).length + 1) ↔ 2 ≤ next.numKey := by
    constructor
    · intro hat
      obtain ⟨node, hnode, hpage, hslot⟩ := hat.pageNo
      obtain rfl : next = node := List.inj_on_of_nodup_map h.nodup hmem hnode hpage
      exact hslot
    · intro hslot
      exact ⟨_, next, post, 1, hnext, hslot, rfl, rfl⟩
  have hstops := stopsBehind_slot h hnext (Nat.succ_le_of_lt hpos)
  rw [h.next_cons hsplit] at hiid
  have hnot : cmp (next.keys 0) key ≠ .lt :=
    hpost (next.keys 0, next.rids 0) (List.mem_flatMap.mpr ⟨next, List.mem_cons_self, LeafChain.mem_entries.mpr ⟨0, hpos, rfl⟩⟩)
  have hfirst : (next.keys 0, next.rids 0) ∈ next.entries := LeafChain.mem_entries.mpr ⟨0, hpos, rfl⟩
  have hbehind : ∀ e ∈ next.entries.drop 1 ++ post.flatMap (·.entries), cmp (next.keys 0) e.1 = .lt := by
    rw [hentries, List.pairwise_append, List.pairwise_cons] at hstrict
    exact hstrict.2.1.1
  cases hkey : cmp (next.keys 0) key with
  | lt => exact absurd hkey hnot
  | eq =>
    have hhas : ∃ e ∈ next.entries, cmp e.1 key = .eq := ⟨_, hfirst, hkey⟩
    have hcuts : (Edge.above key).Cuts cmp leaves (((pre' ++ [leaf']).flatMap (·.entries)).length + 1) := by
      have hentries' : leaves.flatMap (·.entries) = ((pre' ++ [leaf']).flatMap (·.entries) ++ [(next.keys 0, next.rids 0)]) ++
          (next.entries.drop 1 ++ post.flatMap (·.entries)) := by
        rw [hentries, List.append_assoc]
        rfl
      have hcuts : (Edge.above key).Cuts cmp leaves _ := cuts_of_split hentries' (fun e he => ?_) fun e he hfront => ?_
      · rwa [List.length_append, List.length_singleton] at hcuts
      · rcases List.mem_append.mp he with he | he
        · exact hfront e he
        · rw [List.mem_singleton.mp he]
          exact fun hgt => absurd (hkey.symm.trans hgt) nofun
      · have hlt := Std.TransCmp.lt_of_lt_of_isLE (hbehind e he) (Ordering.isLE_iff_ne_gt.mpr hfront)
        exact absurd (hkey.symm.trans hlt) nofun
    exact ⟨_, _, _, hiid, hplace, hstops, hcuts, Nat.le_refl _, iff_of_true rfl ((hmeets 1).mpr ⟨hpos, hhas⟩), fun _ => by
      rw [hat, hmeets]
      simp [hhas]⟩
  | gt =>
    have hnone : ¬∃ e ∈ next.entries, cmp e.1 key = .eq := by
      rintro ⟨e, he, heq⟩
      rw [hhead] at he
      rcases List.mem_cons.mp he with rfl | he
      · exact absurd (hkey.symm.trans heq) nofun
      · have hlt := Std.TransCmp.lt_of_lt_of_isLE (hbehind e (List.mem_append_left _ he)) (Ordering.isLE_iff_ne_gt.mpr
          (by rw [heq]; exact nofun))
        exact absurd (hkey.symm.trans hlt) nofun
    have hcuts : (Edge.above key).Cuts cmp leaves _ := cuts_of_first hstrict hentries hfront fun hfront => hfront hkey
    refine ⟨_, _, _, hiid, hplace, hstops, hcuts, Nat.le_succ _, ?_, fun _ => ?_⟩
    · exact iff_of_false (Nat.succ_ne_self _) fun hm => hnone ((hmeets 1).mp hm).2
    · exact iff_of_false (fun hm => Nat.succ_ne_self _ hm.2) fun hm => hnone ((hmeets 2).mp hm).2

omit hstrict in
theorem first_pos (hsplit : leaves = leaf :: post) : 0 < leaf.numKey ↔ leaves.flatMap (·.entries) ≠ [] := by
  constructor
  · intro hpos hnil
    rw [hsplit, List.flatMap_cons, List.append_eq_nil_iff] at hnil
    have hlength := congrArg List.length hnil.1
    rw [length_entries, List.length_nil] at hlength
    omega
  · intro hne
    by_contra hzero
    cases post with
    | nil =>
      apply hne
      rw [hsplit, List.flatMap_singleton]
      exact List.length_eq_zero_iff.mp (by rw [length_entries]; omega)
    | cons next post => exact hzero ((h.numKey leaf (by simp [hsplit])).2 (by simp [hsplit]))

/-- Every place of an edge comes with its position and what that does. -/
theorem Lies.ends [Std.TransCmp cmp] (hlies : edge.Lies cmp ih leaves place) :
    ∃ position b c, edge.Ends cmp ih leaves place position b c := by
  cases hlies with
  | first hne =>
    obtain ⟨first, post, hsplit⟩ := h.exists_cons
    have hat : At leaves ⟨first.pageNo, 0⟩ 0 := ⟨[], first, post, 0, hsplit, (first_pos h hsplit).mpr hne, rfl, rfl⟩
    exact ⟨_, 0, 0, ends_front h (h.leafBegin_eq hsplit) hat ⟨Nat.zero_le _, nofun, fun _ _ hfront => hfront⟩ fun _ => trivial⟩
  | firstEmpty hnil =>
    obtain ⟨first, post, hsplit⟩ := h.exists_cons
    obtain ⟨pre, last, hlast, hpage, -⟩ := exists_last h
    have hzero : first.numKey = 0 := Nat.eq_zero_of_not_pos fun hpos => (first_pos h hsplit).mp hpos hnil
    obtain rfl : post = [] := by
      cases post with
      | nil => rfl
      | cons next post => exact absurd hzero (Nat.ne_of_gt ((h.numKey first (by simp [hsplit])).2 (by simp [hsplit])))
    have hsingle : [] ++ [first] = pre ++ [last] := hsplit.symm.trans hlast
    obtain ⟨rfl, heq⟩ := List.append_inj' hsingle rfl
    obtain rfl := List.singleton_inj.mp heq
    have hstops := stopsBehind_last h hlast
    rw [hzero] at hstops
    refine ⟨_, _, _, ends_all (h.leafBegin_eq hsplit) ⟨first, by simp [hsplit], hpage, by rw [hzero, hpage]⟩ hstops ?_
      fun _ => trivial⟩
    rw [hnil]
    exact nofun
  | last =>
    obtain ⟨pre, last, hsplit, hpage, hend⟩ := exists_last h
    refine ⟨_, _, _, ends_all hend ⟨last, by simp [hsplit], hpage, rfl⟩ ?_ (fun _ _ => trivial) fun _ => trivial⟩
    rw [← hpage]
    exact stopsBehind_last h hsplit
  | @notBelow key e before rest hentries hbefore he =>
    obtain ⟨pre, leaf, post, i, hsplit, hfirst, hiid⟩ := LeafChain.lowerBound_inside transOn h trivial
      ⟨e, by simp [hentries], he⟩
    have hcuts : (Edge.notBelow key).Cuts cmp leaves _ :=
      cuts_at hstrict hsplit hfirst.slot hfirst.pre hfirst.below hfirst.found
    have heq := hcuts.unique (cuts_of_first hstrict hentries hbefore he)
    rw [← heq]
    exact ⟨_, _, _, ends_front h hiid ⟨pre, leaf, post, i, hsplit, hfirst.slot, rfl, rfl⟩ hcuts fun _ => trivial⟩
  | notBelowPast hall =>
    exact ⟨_, _, _, ends_all (LeafChain.lowerBound_past transOn h trivial hall) rfl (stopsBehind_past h 0) hall fun _ => trivial⟩
  | @above key leaf e before rest hfind hleaf hentries hbefore he =>
    obtain ⟨pre, leaf', post, hsplit, hfind', -, hcase⟩ := exists_upperBound h hstrict key
    obtain rfl := Except.ok.inj (hfind'.symm.trans hfind)
    obtain ⟨e', he', hgt⟩ := hleaf
    rcases hcase with ⟨-, i, hi, hiid, hcuts⟩ | ⟨hall, -⟩
    · have heq := hcuts.unique (cuts_of_first hstrict hentries hbefore fun hfront => hfront he)
      rw [← heq]
      refine ⟨_, _, _, ends_front h hiid ⟨pre, leaf', post, i, hsplit, hi, rfl, rfl⟩ hcuts ?_⟩
      intro m pre₁ leaf₁ next post₁ _ hfind₁ hall
      obtain rfl := Except.ok.inj (hfind₁.symm.trans hfind)
      exact absurd hgt (hall e' he')
    · exact absurd hgt (hall e' he')
  | @aboveNext key leaf next pre post hsplit hfind hleaf hnext =>
    have hsplit' : leaves = (pre ++ [leaf]) ++ next :: post := by simp [hsplit]
    refine ends_next h hstrict hsplit hfind hleaf ⟨_, next, post, 1, hsplit', hnext, rfl, ?_⟩
    rw [List.flatMap_append, List.flatMap_singleton, List.length_append, length_entries]
  | @aboveOnly key leaf next pre post hsplit hfind hleaf hnext =>
    exact ends_next h hstrict hsplit hfind hleaf ⟨next, by simp [hsplit], rfl, by rw [hnext]⟩
  | @abovePast key leaf pre hsplit hfind hleaf =>
    obtain ⟨pre', leaf', post, hsplit', hfind', -, hcase⟩ := exists_upperBound h hstrict key
    obtain rfl := Except.ok.inj (hfind'.symm.trans hfind)
    obtain ⟨rfl, rfl⟩ := h.split_unique hsplit hsplit'
    rcases hcase with ⟨⟨e, he, hgt⟩, -⟩ | ⟨-, hiid, hfront⟩
    · exact absurd hgt (hleaf e he)
    rw [h.next_nil hsplit] at hiid
    refine ⟨_, _, _, ends_all hiid rfl (stopsBehind_past h 1) (by rwa [hsplit]) ?_⟩
    intro m pre₁ leaf₁ next post₁ hsplit₁ hfind₁ _
    obtain rfl := Except.ok.inj (hfind₁.symm.trans hfind)
    exact absurd (h.split_unique hsplit hsplit₁).2 (List.cons_ne_nil _ _)

theorem exists_lies [Std.TransCmp cmp] (edge : Edge K) : ∃ place, edge.Lies cmp ih leaves place := by
  cases edge with
  | first =>
    by_cases hnil : leaves.flatMap (·.entries) = []
    · exact ⟨_, .firstEmpty hnil⟩
    · exact ⟨_, .first hnil⟩
  | last => exact ⟨_, .last⟩
  | notBelow key =>
    cases hfind : (leaves.flatMap (·.entries)).find? fun e => cmp e.1 key ≠ .lt with
    | none =>
      refine ⟨_, .notBelowPast fun e he => ?_⟩
      simpa using List.find?_eq_none.mp hfind e he
    | some e =>
      obtain ⟨he, before, rest, hentries, hbefore⟩ := List.find?_eq_some_iff_append.mp hfind
      exact ⟨_, .notBelow hentries (fun e he => by simpa using hbefore e he) (by simpa using he)⟩
  | above key =>
    obtain ⟨pre, leaf, post, hsplit, hleaf, -, hcase⟩ := exists_upperBound h hstrict key
    rcases hcase with ⟨⟨e, he, hgt⟩, -⟩ | ⟨hall, -⟩
    · cases hfind : (leaves.flatMap (·.entries)).find? fun e => cmp e.1 key = .gt with
      | none =>
        have hmem : e ∈ leaves.flatMap (·.entries) := List.mem_flatMap.mpr ⟨leaf, by simp [hsplit], he⟩
        exact absurd (by simpa using hgt) (List.find?_eq_none.mp hfind e hmem)
      | some e' =>
        obtain ⟨he', before, rest, hentries, hbefore⟩ := List.find?_eq_some_iff_append.mp hfind
        exact ⟨_, .above hleaf ⟨e, he, hgt⟩ hentries (fun e he => by simpa using hbefore e he) (by simpa using he')⟩
    · cases post with
      | nil => exact ⟨_, .abovePast hsplit hleaf hall⟩
      | cons next post =>
        have hpos : 0 < next.numKey := (h.numKey next (by simp [hsplit])).2 (by simp [hsplit]; omega)
        rcases Nat.eq_or_lt_of_le (Nat.succ_le_of_lt hpos) with hone | hmany
        · exact ⟨_, .aboveOnly hsplit hleaf hall hone.symm⟩
        · exact ⟨_, .aboveNext hsplit hleaf hall hmany⟩

end Edge

/-! ### The scan between two edges -/

theorem StopsBehind.eq_of_at (h : LeafChain (fun _ => True) cmp ih leaves) (hstop : StopsBehind leaves stop b)
    (hat : At leaves stop a) : a = b := by
  obtain ⟨pre, leaf, post, i, hsplit, hi, rfl, rfl⟩ := hat
  exact (hstop.eq h hsplit rfl).symm

theorem At.lt_length {iid : Iid} {n : ℕ} (hn : At leaves iid n) : n < (leaves.flatMap (·.entries)).length := by
  obtain ⟨pre, leaf, post, i, hsplit, hi, rfl, rfl⟩ := hn
  rw [hsplit, List.flatMap_append, List.flatMap_cons, List.length_append, List.length_append, length_entries]
  omega

/-- A position is one of an entry, or the page that it names does not use its slot. -/
theorem Place.Is.at_or_outside (h : LeafChain (fun _ => True) cmp ih leaves) {place : Place} {iid : Iid}
    (his : place.Is leaves iid) : (∃ n, At leaves iid n) ∨
      ∃ node, ih.fetchNode iid.pageNo = .ok node ∧ node.numKey ≤ iid.slotNo := by
  cases place with
  | front n => exact .inl ⟨n, his⟩
  | behind pageNo =>
    obtain ⟨leaf, hmem, rfl, rfl⟩ := his
    exact .inr ⟨leaf, h.fetch leaf hmem, Nat.le_refl _⟩
  | past slotNo =>
    obtain ⟨header, hfetch, hzero⟩ := h.header
    rw [show iid = _ from his]
    exact .inr ⟨header, hfetch, by rw [hzero]; exact Nat.zero_le _⟩

theorem createScan_eq (bounds : ScanRange K) :
    ih.createScan cmp bounds.lower bounds.upper bounds.lowerInclusive bounds.upperInclusive =
      do return (← bounds.lowerEdge.iid cmp ih, ← bounds.upperEdge.iid cmp ih) := by
  obtain ⟨lower, upper, lowerInclusive, upperInclusive⟩ := bounds
  cases lower <;> cases upper <;> cases lowerInclusive <;> cases upperInclusive <;> rfl

theorem ScanRange.inside_iff (bounds : ScanRange K) (e : K × Rid) :
    bounds.Inside cmp e ↔ ¬bounds.lowerEdge.Front cmp e ∧ bounds.upperEdge.Front cmp e := by
  apply and_congr
  · unfold lowerEdge
    cases bounds.lower with
    | none => simp [Edge.Front]
    | some key => cases bounds.lowerInclusive <;> cases hkey : cmp e.1 key <;> simp [Edge.Front, hkey]
  · unfold upperEdge
    cases bounds.upper with
    | none => simp [Edge.Front]
    | some key => cases bounds.upperInclusive <;> cases hkey : cmp e.1 key <;> simp [Edge.Front, hkey]

/-- The entries between two edges. -/
theorem filter_inside {bounds : ScanRange K} {lo hi : ℕ} (hlower : bounds.lowerEdge.Cuts cmp leaves lo)
    (hupper : bounds.upperEdge.Cuts cmp leaves hi) :
    (leaves.flatMap (·.entries)).filter (bounds.Inside cmp ·) = ((leaves.flatMap (·.entries)).take hi).drop lo := by
  have hbehind : ((leaves.flatMap (·.entries)).drop hi).filter (bounds.Inside cmp ·) = [] := by
    rw [List.filter_eq_nil_iff]
    intro e he hin
    exact hupper.behind e he ((bounds.inside_iff e).mp (by simpa using hin)).2
  have hfront : (((leaves.flatMap (·.entries)).take hi).take lo).filter (bounds.Inside cmp ·) = [] := by
    rw [List.filter_eq_nil_iff, List.take_take, Nat.min_comm, ← List.take_take]
    intro e he hin
    exact ((bounds.inside_iff e).mp (by simpa using hin)).1 (hlower.front e (List.mem_of_mem_take he))
  have hbetween : (((leaves.flatMap (·.entries)).take hi).drop lo).filter (bounds.Inside cmp ·) =
      ((leaves.flatMap (·.entries)).take hi).drop lo := by
    rw [List.filter_eq_self]
    intro e he
    have hupto := hupper.front e (List.mem_of_mem_drop he)
    rw [List.drop_take] at he
    have hfrom := hlower.behind e (List.mem_of_mem_take he)
    simpa using (bounds.inside_iff e).mpr ⟨hfrom, hupto⟩
  calc (leaves.flatMap (·.entries)).filter (bounds.Inside cmp ·)
      = ((((leaves.flatMap (·.entries)).take hi).take lo ++ ((leaves.flatMap (·.entries)).take hi).drop lo) ++
          (leaves.flatMap (·.entries)).drop hi).filter (bounds.Inside cmp ·) := by
        rw [List.take_append_drop, List.take_append_drop]
    _ = ((leaves.flatMap (·.entries)).take hi).drop lo := by
        rw [List.filter_append, List.filter_append, hbehind, hfront, hbetween, List.append_nil, List.nil_append]

/-- A slice of a list without duplicates tells where it was cut out. -/
theorem slice_unique {α : Type} {l : List α} (hnodup : l.Nodup) {a n a' n' : ℕ} (ha : a < n) (hn : n ≤ l.length)
    (hn' : n' ≤ l.length) (heq : (l.take n).drop a = (l.take n').drop a') : a = a' ∧ n = n' := by
  have hlength := congrArg List.length heq
  rw [List.length_drop, List.length_drop, List.length_take_of_le hn, List.length_take_of_le hn'] at hlength
  have hcut : a < (l.take n).length := by rwa [List.length_take_of_le hn]
  have hcut' : a' < (l.take n').length := by
    rw [List.length_take_of_le hn']
    omega
  rw [List.drop_eq_getElem_cons hcut, List.drop_eq_getElem_cons hcut', List.getElem_take, List.getElem_take] at heq
  have hhead := (List.Nodup.getElem_inj_iff hnodup).mp (List.cons.inj heq).1
  omega

section

variable (h : LeafChain (fun _ => True) cmp ih leaves)
include h

/-- What a walk from one position to another does. -/
theorem scan_cases {place : Place} (hplace : place.Is leaves start) (hstart : StopsBehind leaves start a)
    (hstop : StopsBehind leaves stop b) :
    start = stop ∧ ih.scanRids stop ih.scanFuel start = .ok [] ∨
      start ≠ stop ∧ (ih.scanRids stop ih.scanFuel start = .error .indexEntryNotFound ∨
        ∃ n ≤ (leaves.flatMap (·.entries)).length, a < n ∧ At leaves start a ∧ (a < b → n = b) ∧
          ih.scanRids stop ih.scanFuel start = .ok ((((leaves.flatMap (·.entries)).take n).drop a).map (·.2))) := by
  by_cases heq : start = stop
  · left
    rw [heq]
    exact ⟨rfl, scan_empty h stop⟩
  · right
    refine ⟨heq, ?_⟩
    rcases hplace.at_or_outside h with ⟨n, hat⟩ | ⟨node, hfetch, hslot⟩
    · right
      obtain rfl := hstart.eq_of_at h hat
      by_cases hlt : n < b
      · exact ⟨b, hstop.le, hlt, hat, fun _ => rfl, scan_upto h hat hstop hlt⟩
      · refine ⟨_, Nat.le_refl _, hat.lt_length, hat, fun hlt' => absurd hlt' hlt, ?_⟩
        rw [List.take_length]
        exact scan_past h hat hstop (Nat.le_of_not_lt hlt) heq
    · left
      exact scan_outside h heq hfetch hslot

variable {lower upper : Edge K} {place place' : Place} {c d : ℕ}

/-- The walk from an edge to another that it does not stand in front of goes through nothing only where the edges are at
one place. -/
theorem scan_none_iff (hlower : lower.Ends cmp ih leaves place start a c)
    (hupper : upper.Ends cmp ih leaves place' stop b d) : ih.scanRids stop ih.scanFuel start = .ok [] ↔ place = place' := by
  rw [hlower.place.eq_iff h hupper.place]
  rcases scan_cases h hlower.place hlower.stops hupper.stops with ⟨heq, hscan⟩ | ⟨hne, hscan | ⟨n, hle, hlt, -, -, hscan⟩⟩
  · exact iff_of_true hscan heq
  · refine iff_of_false (fun hnone => ?_) hne
    rw [hscan] at hnone
    cases hnone
  · refine iff_of_false (fun hnone => ?_) hne
    have hlength := congrArg List.length (Except.ok.inj (hscan.symm.trans hnone))
    rw [List.length_map, List.length_drop, List.length_take_of_le hle, List.length_nil] at hlength
    omega

theorem scan_of_meets (hlower : lower.Ends cmp ih leaves place start a c)
    (hupper : upper.Ends cmp ih leaves place' stop b d) (hlt : c < d) (hstart : lower.Meets cmp ih leaves 2)
    (hstop : upper.Meets cmp ih leaves 1) :
    ih.scanRids stop ih.scanFuel start = .ok ((((leaves.flatMap (·.entries)).take d).drop c).map (·.2)) := by
  obtain ⟨hat, rfl⟩ := (hlower.start (Nat.lt_of_lt_of_le hlt hupper.cuts.le)).mpr hstart
  obtain rfl := hupper.stop.mpr hstop
  exact scan_upto h hat hupper.stops hlt

theorem meets_of_scan (hrids : ((leaves.flatMap (·.entries)).map (·.2)).Nodup)
    (hlower : lower.Ends cmp ih leaves place start a c) (hupper : upper.Ends cmp ih leaves place' stop b d)
    (hlt : c < d)
    (hscan : ih.scanRids stop ih.scanFuel start = .ok ((((leaves.flatMap (·.entries)).take d).drop c).map (·.2))) :
    lower.Meets cmp ih leaves 2 ∧ upper.Meets cmp ih leaves 1 := by
  have hd := hupper.cuts.le
  rcases scan_cases h hlower.place hlower.stops hupper.stops with ⟨-, hnone⟩ | ⟨-, herror | ⟨n, hle, hlt', hat, hn, hfound⟩⟩
  · have hlength := congrArg List.length (Except.ok.inj (hscan.symm.trans hnone))
    rw [List.length_map, List.length_drop, List.length_take_of_le hd, List.length_nil] at hlength
    omega
  · rw [hscan] at herror
    cases herror
  · have heq := Except.ok.inj (hfound.symm.trans hscan)
    rw [List.map_drop, List.map_take, List.map_drop, List.map_take] at heq
    obtain ⟨rfl, rfl⟩ := slice_unique hrids hlt' (by rwa [List.length_map]) (by rwa [List.length_map]) heq
    have hb := hn (Nat.lt_of_lt_of_le hlt' hupper.le)
    exact ⟨(hlower.start (Nat.lt_of_lt_of_le hlt hd)).mp ⟨hat, rfl⟩, hupper.stop.mp hb.symm⟩

end

theorem rangeRids_eq {bounds : ScanRange K} (hlower : bounds.lowerEdge.iid cmp ih = .ok start)
    (hupper : bounds.upperEdge.iid cmp ih = .ok stop) : ih.rangeRids cmp bounds = ih.scanRids stop ih.scanFuel start := by
  unfold rangeRids
  rw [createScan_eq, hlower, hupper]
  rfl

/-- The entries between the bounds are those between the two edges. -/
theorem scansInside_iff_rids [Std.TransCmp cmp]
    (hstrict : (leaves.flatMap (·.entries)).Pairwise fun a b => cmp a.1 b.1 = .lt) {entries : List (K × Rid)}
    (hperm : (leaves.flatMap (·.entries)).Perm entries) {bounds : ScanRange K} (hlower : bounds.lowerEdge.Cuts cmp leaves c)
    (hupper : bounds.upperEdge.Cuts cmp leaves d) : ScansInside cmp ih entries bounds ↔
      ih.rangeRids cmp bounds = .ok ((((leaves.flatMap (·.entries)).take d).drop c).map (·.2)) := by
  have hfilter : (((leaves.flatMap (·.entries)).take d).drop c).Perm (entries.filter (bounds.Inside cmp ·)) := by
    rw [← filter_inside hlower hupper]
    exact hperm.filter _
  have hsorted : (((leaves.flatMap (·.entries)).take d).drop c).Pairwise fun a b => cmp a.1 b.1 = .lt :=
    hstrict.sublist ((List.drop_sublist _ _).trans (List.take_sublist _ _))
  constructor
  · rintro ⟨inside, hinside, hpairwise, hrids⟩
    have heq : inside = ((leaves.flatMap (·.entries)).take d).drop c := by
      refine List.Perm.eq_of_pairwise ?_ hpairwise hsorted (hinside.trans hfilter.symm)
      intro a b _ _ hab hba
      exact absurd ((Std.OrientedCmp.gt_of_lt hba).symm.trans hab) nofun
    rw [hrids, heq]
  · intro hrids
    exact ⟨_, hfilter, hsorted, hrids⟩

theorem exists_inside_iff {entries : List (K × Rid)} (hperm : (leaves.flatMap (·.entries)).Perm entries) {bounds : ScanRange K}
    (hlower : bounds.lowerEdge.Cuts cmp leaves c) (hupper : bounds.upperEdge.Cuts cmp leaves d) :
    (∃ e ∈ entries, bounds.Inside cmp e) ↔ c < d := by
  have hnil : ((leaves.flatMap (·.entries)).take d).drop c = [] ↔ d ≤ c := by
    rw [List.drop_eq_nil_iff, List.length_take_of_le hupper.le]
  rw [← not_le, ← hnil, ← filter_inside hlower hupper, List.filter_eq_nil_iff]
  constructor
  · rintro ⟨e, he, hin⟩ hnone
    exact hnone e (hperm.mem_iff.mpr he) (by simpa using hin)
  · intro hsome
    by_contra hnone
    exact hsome fun e he hin => hnone ⟨e, hperm.mem_iff.mp he, by simpa using hin⟩

variable [Inhabited K] {depth : ℕ} {entries : List (K × Rid)}

/-! ### The leaves of a tree -/

omit [Inhabited K] in
/-- Each page of the chain leads to the next one. -/
theorem of_leafPagesFrom {fuel : ℕ} {p : ℤ} {pages : List ℤ} (h : ih.leafPagesFrom fuel p = .ok pages) :
    pages.head? = some p ∧ pages.getLast? = some ih.fileHdr.lastLeaf ∧
      pages.IsChain fun p q => ∃ node, ih.fetchNode p = .ok node ∧ node.nextLeaf = q := by
  induction fuel generalizing p pages with
  | zero => cases h
  | succ fuel hrec =>
    unfold leafPagesFrom at h
    split at h
    · rename_i hlast
      obtain rfl := Except.ok.inj h
      exact ⟨rfl, congrArg some hlast, List.isChain_singleton _⟩
    · obtain ⟨node, hnode, hbind⟩ := bind_eq_ok.mp h
      obtain ⟨rest, hrest, heq⟩ := bind_eq_ok.mp hbind
      obtain rfl := Except.ok.inj heq
      obtain ⟨hhead, hlast, hchain⟩ := hrec hrest
      cases rest with
      | nil => cases hhead
      | cons q rest =>
        obtain rfl := Option.some.inj hhead
        rw [List.getLast?_cons_cons]
        exact ⟨rfl, hlast, List.isChain_cons_cons.mpr ⟨⟨node, hnode, rfl⟩, hchain⟩⟩

theorem BPlusTree.leafChain [Std.TransCmp cmp] (h : BPlusTree cmp ih depth entries) :
    LeafChain (fun _ => True) cmp ih ((ih.level depth).map ih.nodeAt) := by
  obtain ⟨hhead, hlast, hchain⟩ := of_leafPagesFrom h.chain
  have hleaf : ∀ leaf ∈ (ih.level depth).map ih.nodeAt, ∃ p ∈ ih.level depth, ih.nodeAt p = leaf ∧ leaf.pageNo = p := by
    intro leaf hleaf
    obtain ⟨p, hp, rfl⟩ := List.mem_map.mp hleaf
    exact ⟨p, hp, rfl, (h.fetch depth (Nat.le_refl _) p hp).2⟩
  have hpages : ((ih.level depth).map ih.nodeAt).map (·.pageNo) = ih.level depth := by
    rw [List.map_map]
    exact (List.map_congr_left fun p hp => (h.fetch depth (Nat.le_refl _) p hp).2).trans (List.map_id _)
  have hentries : ((ih.level depth).map ih.nodeAt).flatMap (·.entries) = ih.entriesIn (ih.level depth) := List.flatMap_map ..
  have hroot : ih.fileHdr.rootPage ∈ ih.level 0 := List.mem_singleton_self _
  constructor
  case fetch =>
    intro leaf hmem
    obtain ⟨p, hp, rfl, hpage⟩ := hleaf leaf hmem
    rw [hpage]
    exact (h.fetch depth (Nat.le_refl _) p hp).1
  case isLeaf =>
    intro leaf hmem
    obtain ⟨p, hp, rfl, -⟩ := hleaf leaf hmem
    exact h.leaf p hp
  case pageNo =>
    intro leaf hmem
    obtain ⟨p, hp, rfl, hpage⟩ := hleaf leaf hmem
    rw [hpage]
    exact h.range depth (Nat.le_refl _) p hp
  case nodup =>
    rw [hpages]
    exact (List.nodup_flatMap.mp h.nodup).1 depth (List.mem_range.mpr (Nat.lt_succ_self _))
  case header => exact ⟨_, h.header⟩
  case root =>
    intro hnone
    have hrange := (h.range 0 (Nat.zero_le _) _ hroot).1
    rw [hnone] at hrange
    exact absurd hrange (by decide)
  case firstLeaf =>
    rw [← List.head?_map, hpages, hhead]
  case lastLeaf =>
    rw [← List.getLast?_map, hpages, hlast]
  case nextLeaf =>
    intro pre leaf post hsplit
    obtain ⟨pre', rest, hlevel, rfl, hrest⟩ := List.map_eq_append_iff.mp hsplit
    obtain ⟨p, post', rfl, rfl, rfl⟩ := List.map_eq_cons_iff.mp hrest
    cases post' with
    | nil =>
      rw [hlevel, List.getLast?_concat] at hlast
      rw [Option.some.inj hlast]
      exact h.lastLeaf
    | cons q post' =>
      rw [hlevel, List.isChain_append_cons_cons] at hchain
      obtain ⟨node, hnode, hnext⟩ := hchain.2.1
      have hp : p ∈ ih.level depth := by simp [hlevel]
      have hq : q ∈ ih.level depth := by simp [hlevel]
      obtain rfl := Except.ok.inj (hnode.symm.trans (h.fetch depth (Nat.le_refl _) p hp).1)
      rw [hnext]
      exact (h.fetch depth (Nat.le_refl _) q hq).2.symm
  case numKey =>
    intro leaf hmem
    obtain ⟨p, hp, rfl, -⟩ := hleaf leaf hmem
    rw [List.length_map]
    exact h.numKey p hp
  case keys => exact fun _ _ => trivial
  case sorted =>
    rw [hentries]
    exact h.sorted.imp fun hlt => by simp [hlt]
  case routed =>
    intro key _
    obtain ⟨pre, x, post, hsplit, -, hfind, hpre, hpost⟩ := h.search key
    refine ⟨pre.map fun x => ih.nodeAt x.2, ih.nodeAt x.2, post.map fun x => ih.nodeAt x.2, ?_, hfind, ?_, ?_⟩
    · rw [← map_separated, hsplit, List.map_map, List.map_append, List.map_cons]
      rfl
    · rw [List.flatMap_map]
      exact hpre
    · rw [List.flatMap_map]
      exact hpost

/-! ### The scan of a tree -/

/-- The leaves of a tree of the given depth, from the left to the right. -/
def leavesAt (ih : IxIndexHandle K) (depth : ℕ) : List (IxNodeHandle K) := (ih.level depth).map ih.nodeAt

/-- With an entry between the bounds, an exclusive lower and an inclusive upper one whose search ends in a leaf without a key
above them are keys of the next leaf; without one, both edges are at one place. -/
def EdgesFit (cmp : K → K → Ordering) (ih : IxIndexHandle K) (leaves : List (IxNodeHandle K)) (entries : List (K × Rid))
    (bounds : ScanRange K) : Prop :=
  ((∃ e ∈ entries, bounds.Inside cmp e) →
      bounds.lowerEdge.Meets cmp ih leaves 2 ∧ bounds.upperEdge.Meets cmp ih leaves 1) ∧
    ((∀ e ∈ entries, ¬bounds.Inside cmp e) →
      ∃ place, bounds.lowerEdge.Lies cmp ih leaves place ∧ bounds.upperEdge.Lies cmp ih leaves place)

/-- The scan of a B+tree goes through the entries between its bounds if its edges fit, and only then unless the tree has two
entries for one record. -/
theorem scansInside_iff [Std.TransCmp cmp] (h : BPlusTree cmp ih depth entries) (bounds : ScanRange K) :
    (EdgesFit cmp ih (ih.leavesAt depth) entries bounds → ScansInside cmp ih entries bounds) ∧
      ((entries.map (·.2)).Nodup → ScansInside cmp ih entries bounds → EdgesFit cmp ih (ih.leavesAt depth) entries bounds) := by
  have hchain : LeafChain (fun _ => True) cmp ih (ih.leavesAt depth) := h.leafChain
  have hentries : (ih.leavesAt depth).flatMap (·.entries) = ih.entriesIn (ih.level depth) := List.flatMap_map ..
  have hstrict : ((ih.leavesAt depth).flatMap (·.entries)).Pairwise fun a b => cmp a.1 b.1 = .lt := by
    rw [hentries]
    exact h.sorted
  have hperm : ((ih.leavesAt depth).flatMap (·.entries)).Perm entries := by
    rw [hentries]
    exact h.perm
  obtain ⟨place, hlies⟩ := bounds.lowerEdge.exists_lies hchain hstrict
  obtain ⟨start, a, c, hlower⟩ := hlies.ends hchain hstrict
  obtain ⟨place', hlies'⟩ := bounds.upperEdge.exists_lies hchain hstrict
  obtain ⟨stop, b, d, hupper⟩ := hlies'.ends hchain hstrict
  have hinside := exists_inside_iff hperm hlower.cuts hupper.cuts
  rw [scansInside_iff_rids hstrict hperm hlower.cuts hupper.cuts, rangeRids_eq hlower.iid hupper.iid]
  by_cases hlt : c < d
  · have hsome := hinside.mpr hlt
    constructor
    · intro hfit
      obtain ⟨hstart, hstop⟩ := hfit.1 hsome
      exact scan_of_meets hchain hlower hupper hlt hstart hstop
    · intro hrids hscan
      have hmeets := meets_of_scan hchain ((hperm.map _).nodup_iff.mpr hrids) hlower hupper hlt hscan
      exact ⟨fun _ => hmeets, fun hnone => absurd hsome (by simpa using hnone)⟩
  · have hnone : ∀ e ∈ entries, ¬bounds.Inside cmp e := fun e he hin => hlt (hinside.mp ⟨e, he, hin⟩)
    have hnil : (((ih.leavesAt depth).flatMap (·.entries)).take d).drop c = [] := by
      rw [List.drop_eq_nil_iff, List.length_take_of_le hupper.cuts.le]
      exact Nat.le_of_not_lt hlt
    rw [hnil, List.map_nil, scan_none_iff hchain hlower hupper]
    constructor
    · intro hfit
      obtain ⟨common, hcommon, hcommon'⟩ := hfit.2 hnone
      obtain ⟨start₁, a₁, c₁, hlower₁⟩ := hcommon.ends hchain hstrict
      obtain ⟨stop₁, b₁, d₁, hupper₁⟩ := hcommon'.ends hchain hstrict
      obtain rfl := Except.ok.inj (hlower₁.iid.symm.trans hlower.iid)
      obtain rfl := Except.ok.inj (hupper₁.iid.symm.trans hupper.iid)
      have hsame := (hlower₁.place.eq_iff hchain hupper₁.place).mp rfl
      exact (hlower.place.eq_iff hchain hupper.place).mpr hsame
    · rintro - rfl
      exact ⟨fun ⟨e, he, hin⟩ => absurd hin (hnone e he), fun _ => ⟨place, hlies, hlies'⟩⟩

/-- The scan of the keys from 2 on, on an index of order 7 with eight entries in two leaves. -/
theorem scansInside_eight : ∃ (ih : IxIndexHandle (IxKey charCols)) (depth : ℕ),
    (freshIndex 7 496 true).insertEntries IxKey.cmp charEntries = .ok ih ∧ BPlusTree IxKey.cmp ih depth charEntries ∧
      ScansInside IxKey.cmp ih charEntries ⟨some (charKey 2), none, true, true⟩ := by
  obtain ⟨ih, hrun⟩ : ∃ ih, (freshIndex 7 496 true).insertEntries IxKey.cmp charEntries = .ok ih := ⟨_, rfl⟩
  obtain ⟨depth, htree⟩ := bPlusTree_of_insertEntries (by unfold Distinct; decide) hrun
  refine ⟨ih, depth, hrun, htree, (scansInside_iff htree _).1 ⟨fun _ => ⟨trivial, trivial⟩, fun hnone => ?_⟩⟩
  have hmem : (charKey 2, ⟨1, 2⟩) ∈ charEntries := List.mem_map.mpr ⟨2, by decide, rfl⟩
  exact absurd (by decide) (hnone _ hmem)

/-- The scan of the keys up to 4 returns the entry with the key 5 as well. -/
theorem not_scansInside_charIndex : ∃ (ih : IxIndexHandle (IxKey charCols)) (depth : ℕ),
    (freshIndex 7 496 true).insertEntries IxKey.cmp charEntries = .ok ih ∧ BPlusTree IxKey.cmp ih depth charEntries ∧
      ih.rangeRids IxKey.cmp ⟨none, some (charKey 4), true, true⟩ = .ok [⟨1, 1⟩, ⟨1, 2⟩, ⟨1, 3⟩, ⟨1, 4⟩, ⟨1, 5⟩] ∧
      ¬ScansInside IxKey.cmp ih charEntries ⟨none, some (charKey 4), true, true⟩ := by
  obtain ⟨ih, hrun, hrids⟩ : ∃ ih : IxIndexHandle (IxKey charCols),
      (freshIndex 7 496 true).insertEntries IxKey.cmp charEntries = .ok ih ∧
        ih.rangeRids IxKey.cmp ⟨none, some (charKey 4), true, true⟩ = .ok [⟨1, 1⟩, ⟨1, 2⟩, ⟨1, 3⟩, ⟨1, 4⟩, ⟨1, 5⟩] :=
    ⟨_, rfl, rfl⟩
  obtain ⟨depth, htree⟩ := bPlusTree_of_insertEntries (by unfold Distinct; decide) hrun
  refine ⟨ih, depth, hrun, htree, hrids, ?_⟩
  rintro ⟨inside, hperm, -, hscan⟩
  have hlength := congrArg List.length (Except.ok.inj (hscan.symm.trans hrids))
  rw [List.length_map, hperm.length_eq] at hlength
  exact absurd hlength (by decide)

end IxIndexHandle
end Rmdb
