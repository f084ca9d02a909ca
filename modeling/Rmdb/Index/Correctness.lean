import Rmdb.Index.Leaf

/-! Runs of calls on a fresh index. An internal node sends a key equal to a separator to the
left child while the split leaves that key in the right one, and an emptied root is thrown
away, so lookups are right exactly as long as neither happens. -/
namespace Rmdb
namespace IxIndexHandle

open SlotArray

variable {K : Type} [Inhabited K] (cmp : K → K → Ordering)

def insertEntries (ih : IxIndexHandle K) (entries : List (K × Rid)) :
    Except IxError (IxIndexHandle K) :=
  entries.foldlM (fun ih e => (·.2) <$> ih.insertEntry cmp e.1 e.2) ih

/-- `get_value` returns exactly the entries of `live`. -/
def Answers (ih : IxIndexHandle K) (live : List (K × Rid)) : Prop :=
  ∀ k, ih.getValue cmp k = .ok (lookup cmp live k)

variable {cmp} {btreeOrder colTotLen : ℕ} {unique : Bool} {ih : IxIndexHandle K}
  {l : List (K × Rid)}

private theorem insertEntries_append (ih : IxIndexHandle K) (a b : List (K × Rid)) :
    ih.insertEntries cmp (a ++ b) = ih.insertEntries cmp a >>= fun ih => ih.insertEntries cmp b := by
  simp [insertEntries, List.foldlM_append]

theorem Represents.perm {l' : List (K × Rid)}
    (h : Represents cmp btreeOrder colTotLen unique ih l) (hp : l.Perm l') :
    Represents cmp btreeOrder colTotLen unique ih l' := by
  obtain ⟨n, keys, rids, rfl, hs, hp'⟩ := h
  exact ⟨n, keys, rids, rfl, hs, hp'.trans hp⟩

variable [Std.TransCmp cmp]

theorem Represents.answers (h : Represents cmp btreeOrder colTotLen unique ih l) :
    Answers cmp ih l := h.getValue

/-- While there is room in the root leaf a run of insertions completes. -/
theorem Represents.insertEntries (h : Represents cmp btreeOrder colTotLen unique ih l)
    (entries : List (K × Rid)) (hd : Distinct cmp (entries ++ l))
    (hlen : (entries ++ l).length ≤ btreeOrder) :
    ∃ ih', ih.insertEntries cmp entries = .ok ih' ∧
      Represents cmp btreeOrder colTotLen unique ih' (entries ++ l) := by
  induction entries generalizing ih l with
  | nil => exact ⟨ih, rfl, h⟩
  | cons e entries ih' =>
    have hperm : (e :: entries ++ l).Perm (entries ++ e :: l) := List.perm_middle.symm
    have hd' := hd.perm hperm
    have hk : lookup cmp l e.1 = none :=
      (distinct_cons.mp (List.pairwise_append.mp hd').2.1).1
    simp only [List.cons_append, List.length_cons, List.length_append] at hlen
    obtain ⟨ih₁, hins, h₁⟩ := h.insertEntry (v := e.2) hk (by omega)
    obtain ⟨ih₂, hrun, h₂⟩ := ih' h₁ hd' (by simp; omega)
    refine ⟨ih₂, ?_, h₂.perm hperm.symm⟩
    simp only [IxIndexHandle.insertEntries, List.foldlM_cons, hins]
    exact hrun

/-- Lookups are right after every call of a completed run of insertions with distinct keys
exactly if the entries all fit in the root leaf. -/
theorem insertEntries_answers_iff (hord : 2 < btreeOrder) {entries : List (K × Rid)}
    (hd : Distinct cmp entries)
    (hrun : (freshIndex btreeOrder colTotLen unique).insertEntries cmp entries = .ok ih) :
    (∀ done todo ih', done ++ todo = entries →
        (freshIndex btreeOrder colTotLen unique).insertEntries cmp done = .ok ih' →
        Answers cmp ih' done) ↔
      entries.length ≤ btreeOrder := by
  constructor
  · intro hall
    by_contra hlt
    obtain ⟨done, e, todo, rfl, hlen⟩ :
        ∃ done e todo, entries = done ++ e :: todo ∧ done.length = btreeOrder := by
      refine ⟨entries.take btreeOrder, entries[btreeOrder], entries.drop (btreeOrder + 1), ?_, ?_⟩
      · rw [← List.drop_eq_getElem_cons, List.take_append_drop]
      · simp; omega
    have hperm : (done ++ [e]).Perm (e :: done) := List.perm_append_singleton e done
    have hd' : Distinct cmp (e :: done) := by
      rw [List.append_cons, Distinct, List.pairwise_append] at hd
      exact Distinct.perm hd.1 hperm
    obtain ⟨hk, hdone⟩ := distinct_cons.mp hd'
    obtain ⟨ih₁, hrun₁, h₁⟩ := (represents_fresh cmp btreeOrder colTotLen unique).insertEntries done
      (by simpa using hdone) (by simp [hlen])
    rw [List.append_nil] at h₁
    obtain ⟨p, ih₂, lost, hins, hmem, hget⟩ := h₁.insertEntry_full (v := e.2) hord hk hlen
    have hans := hall (done ++ [e]) todo ih₂ (by simp) (by
      rw [insertEntries_append, hrun₁]
      simp [insertEntries, hins, bind, Except.bind, pure, Except.pure, Functor.map, Except.map])
    have hfound := (hd'.perm hperm.symm).lookup_eq_some.mpr
      ⟨lost, hperm.mem_iff.mpr hmem, Std.ReflCmp.compare_self, rfl⟩
    simp [hans lost.1, hfound] at hget
  · intro hlen done todo ih' hsplit hdone
    subst hsplit
    simp only [List.length_append] at hlen
    obtain ⟨ih₁, hrun₁, h₁⟩ := (represents_fresh cmp btreeOrder colTotLen unique).insertEntries done
      (by rw [List.append_nil]; exact (List.pairwise_append.mp hd).1) (by simp; omega)
    rw [hdone, Except.ok.injEq] at hrun₁
    rw [List.append_nil] at h₁
    exact hrun₁ ▸ h₁.answers

/-! ### An index on a `CHAR(496)` column, whose order is 7 -/

def charCols : IxCols := [(.string, 496)]

/-- The key `c` padded with zero bytes. -/
def charKey (c : UInt8) : IxKey charCols := ⟨c :: List.replicate 495 0, nofun, trivial⟩

def charEntries : List (IxKey charCols × Rid) :=
  [1, 2, 3, 4, 5, 6, 7, 8].map fun c => (charKey c, ⟨1, c.toNat⟩)

/-- Eight keys in ascending order on an index of order 7: the fifth one is stored and not
found. -/
theorem insertEntries_charIndex : ∃ index ih : IxIndexHandle (IxKey charCols),
    createIndex 496 false = .ok index ∧ index.fileHdr.btreeOrder = 7 ∧
      Distinct IxKey.cmp charEntries ∧ index.insertEntries IxKey.cmp charEntries = .ok ih ∧
      lookup IxKey.cmp charEntries (charKey 5) = some ⟨1, 5⟩ ∧
      ih.getValue IxKey.cmp (charKey 5) = .ok none :=
  ⟨_, _, rfl, rfl, by unfold Distinct; decide, rfl, rfl, rfl⟩

theorem insertEntries_answers_two :
    (∀ done todo ih', done ++ todo = charEntries.take 2 →
        (freshIndex 7 496 true).insertEntries IxKey.cmp done = .ok ih' →
        Answers IxKey.cmp ih' done) ↔
      (charEntries.take 2).length ≤ 7 :=
  insertEntries_answers_iff (by decide) (by unfold Distinct; decide) rfl

/-! ### Insertions and deletions -/

inductive IxOp (K : Type) where
  | insert (key : K) (value : Rid)
  | delete (transaction : Bool) (key : K)

/-- Every call completes, a deletion reports whether its key was stored, and after each call
the lookups are those of the entries that should be there. -/
def Correct (cmp : K → K → Ordering) :
    IxIndexHandle K → List (K × Rid) → List (IxOp K) → Prop
  | _, _, [] => True
  | ih, live, .insert k v :: ops =>
    ∃ p ih', ih.insertEntry cmp k v = .ok (p, ih') ∧ Answers cmp ih' ((k, v) :: live) ∧
      Correct cmp ih' ((k, v) :: live) ops
  | ih, live, .delete transaction k :: ops =>
    ∃ ih', ih.deleteEntry cmp transaction k = .ok ((lookup cmp live k).isSome, ih') ∧
      Answers cmp ih' (erase cmp live k) ∧ Correct cmp ih' (erase cmp live k) ops

/-- Inserted keys are not stored already. -/
def DistinctLive (cmp : K → K → Ordering) : List (K × Rid) → List (IxOp K) → Prop
  | _, [] => True
  | live, .insert k v :: ops => lookup cmp live k = none ∧ DistinctLive cmp ((k, v) :: live) ops
  | live, .delete _ k :: ops => DistinctLive cmp (erase cmp live k) ops

/-- The entries never outgrow the root leaf and no deletion takes the last one. -/
def StaysInRoot (cmp : K → K → Ordering) (btreeOrder : ℕ) :
    List (K × Rid) → List (IxOp K) → Prop
  | _, [] => True
  | live, .insert k v :: ops =>
    live.length < btreeOrder ∧ StaysInRoot cmp btreeOrder ((k, v) :: live) ops
  | live, .delete _ k :: ops =>
    ((lookup cmp live k).isSome → 1 < live.length) ∧
      StaysInRoot cmp btreeOrder (erase cmp live k) ops

private theorem Represents.correct_iff (hord : 2 < btreeOrder) (ops : List (IxOp K))
    (h : Represents cmp btreeOrder colTotLen unique ih l) (hl : l.length ≤ btreeOrder)
    (hops : DistinctLive cmp l ops) : Correct cmp ih l ops ↔ StaysInRoot cmp btreeOrder l ops := by
  induction ops generalizing ih l with
  | nil => exact Iff.rfl
  | cons op ops hind =>
    cases op with
    | insert k v =>
      obtain ⟨hk, hops⟩ := hops
      rcases Nat.lt_or_eq_of_le hl with hlt | hfull
      · obtain ⟨ih₁, hins, h₁⟩ := h.insertEntry (v := v) hk hlt
        have hrec := hind h₁ hlt hops
        simp only [Correct, StaysInRoot, hins, hlt, true_and, ← hrec, Except.ok.injEq, Prod.mk.injEq]
        constructor
        · rintro ⟨_, _, ⟨rfl, rfl⟩, -, hc⟩
          exact hc
        · exact fun hc => ⟨_, _, ⟨rfl, rfl⟩, h₁.answers, hc⟩
      · -- The split loses an entry that is now stored.
        obtain ⟨p, ih₁, lost, hins, hmem, hget⟩ := h.insertEntry_full (v := v) hord hk hfull
        have hd : Distinct cmp ((k, v) :: l) := distinct_cons.mpr ⟨hk, h.distinct⟩
        have hfound := hd.lookup_eq_some.mpr ⟨lost, hmem, Std.ReflCmp.compare_self, rfl⟩
        refine iff_of_false ?_ fun hs => by simp [StaysInRoot, hfull] at hs
        rintro ⟨_, _, hins', hans, -⟩
        simp only [hins, Except.ok.injEq, Prod.mk.injEq] at hins'
        obtain ⟨rfl, rfl⟩ := hins'
        simp [hans lost.1, hfound] at hget
    | delete transaction k =>
      cases hk : lookup cmp l k with
      | none =>
        have hrec := hind h hl (by rwa [DistinctLive, erase_of_lookup_none hk] at hops)
        simp [Correct, StaysInRoot, h.deleteEntry_absent transaction hk, hk, erase_of_lookup_none hk, hrec,
          h.answers]
      | some v =>
        have hlen : l.length ≠ 0 := by
          rintro h₀
          rw [List.length_eq_zero_iff.mp h₀] at hk
          cases hk
        rcases Nat.lt_or_ge 1 l.length with hlt | hle
        · obtain ⟨ih₁, hdel, h₁⟩ := h.deleteEntry transaction hk hl hlt
          have hrec := hind h₁ (Nat.le_trans (List.length_filter_le _ _) hl) hops
          simp only [Correct, StaysInRoot, hdel, hk, hlt, ← hrec, Except.ok.injEq, Prod.mk.injEq,
            Option.isSome_some, true_and, implies_true]
          constructor
          · rintro ⟨_, rfl, -, hc⟩
            exact hc
          · exact fun hc => ⟨_, rfl, h₁.answers, hc⟩
        · obtain ⟨ih₁, hdel, hget⟩ := h.deleteEntry_last transaction hk
            (by omega) hord
          refine iff_of_false ?_ fun hs => by simp [StaysInRoot, hk] at hs; omega
          rintro ⟨_, hdel', hans, -⟩
          simp only [hdel, Except.ok.injEq, Prod.mk.injEq] at hdel'
          obtain ⟨-, rfl⟩ := hdel'
          have := hans k
          rw [hget] at this
          cases this

/-- A run of insertions and deletions on a fresh index is correct throughout exactly if it
stays in the root leaf and never empties it. -/
theorem correct_iff_staysInRoot (hord : 2 < btreeOrder) {ops : List (IxOp K)}
    (hops : DistinctLive cmp [] ops) :
    Correct cmp (freshIndex btreeOrder colTotLen unique) [] ops ↔ StaysInRoot cmp btreeOrder [] ops :=
  (represents_fresh cmp btreeOrder colTotLen unique).correct_iff hord ops (Nat.zero_le _) hops

/-- After the same eight insertions the fifth key cannot be deleted. -/
theorem deleteEntry_charIndex : ∃ index ih ih' : IxIndexHandle (IxKey charCols),
    createIndex 496 false = .ok index ∧
      DistinctLive IxKey.cmp [] (charEntries.map fun e => .insert e.1 e.2) ∧
      index.insertEntries IxKey.cmp charEntries = .ok ih ∧
      lookup IxKey.cmp charEntries (charKey 5) = some ⟨1, 5⟩ ∧
      ih.deleteEntry IxKey.cmp true (charKey 5) = .ok (false, ih') :=
  ⟨_, _, _, rfl, ⟨rfl, rfl, rfl, rfl, rfl, rfl, rfl, rfl, trivial⟩, rfl, rfl, rfl⟩

theorem correct_iff_staysInRoot_three :
    let ops := [.insert (charKey 1) ⟨1, 0⟩, .insert (charKey 2) ⟨1, 1⟩, .delete true (charKey 1)]
    Correct IxKey.cmp (freshIndex 7 496 true) [] ops ↔ StaysInRoot IxKey.cmp 7 [] ops :=
  correct_iff_staysInRoot (by decide) ⟨rfl, rfl, trivial⟩

end IxIndexHandle
end Rmdb
