import Mathlib.Data.List.Nodup
import Mathlib.Data.Nat.Find
import Mathlib.Tactic.Common

/-! Stays in a history of events. Some events begin the stay of a key, unless it stays already, and some
end it. -/
namespace Stays

variable {κ ε : Type*} (begins ends : κ → ε → Prop)

/-- The event begins the stay or finds the key there, and none after it ends the stay. -/
structure StaysFrom (history : List ε) (k : κ) (i : ℕ) : Prop where
  begun : ∃ e, history[i]? = some e ∧ begins k e
  unended : ∀ j e, i < j → history[j]? = some e → ¬ends k e

/-- The event at which the current stay of the key began. -/
structure Began (history : List ε) (k : κ) (i : ℕ) : Prop where
  stays : StaysFrom begins ends history k i
  first : ∀ j < i, ¬StaysFrom begins ends history k j

def Present (history : List ε) (k : κ) : Prop := ∃ i, StaysFrom begins ends history k i

/-- The keys that are present, the ones whose stay began last in front. -/
structure ByAge (history : List ε) (keys : List κ) : Prop where
  nodup : keys.Nodup
  mem_iff : ∀ k, k ∈ keys ↔ Present begins ends history k
  ordered : keys.Pairwise fun newer older =>
    ∀ i j, Began begins ends history newer i → Began begins ends history older j → j < i

variable {begins ends} {history : List ε} {keys : List κ} {e : ε} {k : κ} {i : ℕ}

theorem StaysFrom.lt (h : StaysFrom begins ends history k i) : i < history.length := by
  obtain ⟨e, he, _⟩ := h.begun
  exact (List.getElem?_eq_some_iff.mp he).1

theorem staysFrom_concat : StaysFrom begins ends (history ++ [e]) k i ↔
    (StaysFrom begins ends history k i ∧ ¬ends k e) ∨ (i = history.length ∧ begins k e) := by
  constructor
  · intro h
    have hlt := h.lt
    rw [List.length_append, List.length_singleton] at hlt
    obtain ⟨e', he', hbegins⟩ := h.begun
    by_cases hlast : i = history.length
    · rw [hlast, List.getElem?_concat_length] at he'
      exact .inr ⟨hlast, Option.some.inj he' ▸ hbegins⟩
    · rw [List.getElem?_append_left (by omega)] at he'
      refine .inl ⟨⟨⟨e', he', hbegins⟩, fun j e'' hj hget => ?_⟩, ?_⟩
      · have hin := (List.getElem?_eq_some_iff.mp hget).1
        exact h.unended j e'' hj (by rwa [List.getElem?_append_left hin])
      · exact h.unended history.length e (by omega) List.getElem?_concat_length
  · rintro (⟨h, hends⟩ | ⟨rfl, hbegins⟩)
    · obtain ⟨e', he', hbegins⟩ := h.begun
      refine ⟨⟨e', by rwa [List.getElem?_append_left h.lt], hbegins⟩, fun j e'' hj hget => ?_⟩
      by_cases hin : j < history.length
      · rw [List.getElem?_append_left hin] at hget
        exact h.unended j e'' hj hget
      · have hlt := (List.getElem?_eq_some_iff.mp hget).1
        rw [List.length_append, List.length_singleton] at hlt
        obtain rfl : j = history.length := by omega
        rw [List.getElem?_concat_length] at hget
        exact Option.some.inj hget ▸ hends
    · refine ⟨⟨e, List.getElem?_concat_length, hbegins⟩, fun j e'' hj hget => ?_⟩
      have hlt := (List.getElem?_eq_some_iff.mp hget).1
      rw [List.length_append, List.length_singleton] at hlt
      omega

theorem Present.exists_began (h : Present begins ends history k) : ∃ i, Began begins ends history k i := by
  classical
  exact ⟨Nat.find h, Nat.find_spec h, fun j hj => Nat.find_min h hj⟩

theorem Began.unique {j : ℕ} (hi : Began begins ends history k i) (hj : Began begins ends history k j) : i = j := by
  rcases Nat.lt_trichotomy i j with hlt | heq | hlt
  · exact absurd hi.stays (hj.first i hlt)
  · exact heq
  · exact absurd hj.stays (hi.first j hlt)

theorem not_present_nil : ¬Present begins ends [] k := fun ⟨_, h⟩ => absurd h.lt (Nat.not_lt_zero _)

theorem present_concat : Present begins ends (history ++ [e]) k ↔
    (Present begins ends history k ∧ ¬ends k e) ∨ begins k e := by
  constructor
  · intro ⟨i, h⟩
    rcases staysFrom_concat.mp h with ⟨hstays, hends⟩ | ⟨_, hbegins⟩
    · exact .inl ⟨⟨i, hstays⟩, hends⟩
    · exact .inr hbegins
  · rintro (⟨⟨i, hstays⟩, hends⟩ | hbegins)
    · exact ⟨i, staysFrom_concat.mpr (.inl ⟨hstays, hends⟩)⟩
    · exact ⟨history.length, staysFrom_concat.mpr (.inr ⟨rfl, hbegins⟩)⟩

/-- A stay goes on as it began, also where an event could begin it again. -/
theorem Began.concat (h : Began begins ends history k i) (hends : ¬ends k e) :
    Began begins ends (history ++ [e]) k i := by
  refine ⟨staysFrom_concat.mpr (.inl ⟨h.stays, hends⟩), fun j hj hstays => ?_⟩
  rcases staysFrom_concat.mp hstays with ⟨hearlier, _⟩ | ⟨rfl, _⟩
  · exact h.first j hj hearlier
  · exact absurd h.stays.lt (by omega)

theorem began_concat (hpresent : Present begins ends history k) (hends : ¬ends k e) :
    Began begins ends (history ++ [e]) k i ↔ Began begins ends history k i := by
  obtain ⟨j, hj⟩ := hpresent.exists_began
  constructor
  · intro h
    rw [h.unique (hj.concat hends)]
    exact hj
  · exact fun h => h.concat hends

theorem began_concat_new (habsent : ¬Present begins ends history k) (h : Began begins ends (history ++ [e]) k i) :
    i = history.length := by
  rcases staysFrom_concat.mp h.stays with ⟨hstays, _⟩ | ⟨heq, _⟩
  · exact absurd ⟨i, hstays⟩ habsent
  · exact heq

namespace ByAge

theorem nil : ByAge begins ends [] [] :=
  ⟨List.nodup_nil, fun _ => iff_of_false List.not_mem_nil not_present_nil, List.Pairwise.nil⟩

/-- The order of keys whose stays go on is as before. -/
theorem ordered_concat (h : ByAge begins ends history keys) {rest : List κ} (hrest : rest.Sublist keys)
    (hends : ∀ k ∈ rest, ¬ends k e) : rest.Pairwise fun newer older =>
      ∀ i j, Began begins ends (history ++ [e]) newer i → Began begins ends (history ++ [e]) older j → j < i := by
  refine (h.ordered.sublist hrest).imp_of_mem fun {newer older} hnewer holder hlt i j hi hj => ?_
  have hpresent : ∀ k ∈ rest, Present begins ends history k := fun k hk => (h.mem_iff k).mp (hrest.subset hk)
  rw [began_concat (hpresent newer hnewer) (hends newer hnewer)] at hi
  rw [began_concat (hpresent older holder) (hends older holder)] at hj
  exact hlt i j hi hj

/-- An event that ends no stay and begins no new one. -/
theorem skip (h : ByAge begins ends history keys) (hends : ∀ k, ¬ends k e)
    (hbegins : ∀ k, begins k e → k ∈ keys) : ByAge begins ends (history ++ [e]) keys := by
  refine ⟨h.nodup, fun k => ?_, h.ordered_concat (List.Sublist.refl keys) fun k _ => hends k⟩
  rw [present_concat, ← h.mem_iff]
  constructor
  · exact fun hk => .inl ⟨hk, hends k⟩
  · rintro (⟨hk, _⟩ | hk)
    · exact hk
    · exact hbegins k hk

theorem push (h : ByAge begins ends history keys) (hends : ∀ k, ¬ends k e) (hnew : k ∉ keys)
    (hbegins : ∀ k', begins k' e ↔ k' = k) : ByAge begins ends (history ++ [e]) (k :: keys) := by
  refine ⟨List.nodup_cons.mpr ⟨hnew, h.nodup⟩, fun k' => ?_, List.pairwise_cons.mpr ⟨?_, ?_⟩⟩
  · rw [present_concat, List.mem_cons, h.mem_iff, hbegins, or_comm, and_iff_left (hends k')]
  · intro older holder i j hi hj
    have hpresent := (h.mem_iff older).mp holder
    rw [began_concat_new (fun hpresent => hnew ((h.mem_iff k).mpr hpresent)) hi]
    exact ((began_concat hpresent (hends older)).mp hj).stays.lt
  · exact h.ordered_concat (List.Sublist.refl keys) fun k' _ => hends k'

/-- An event that ends the stay of one key, if there is one. -/
theorem remove (h : ByAge begins ends history keys) {rest : List κ} (hrest : rest.Sublist keys)
    (hmem : ∀ k', k' ∈ rest ↔ k' ≠ k ∧ k' ∈ keys) (hends : ∀ k', ends k' e ↔ k' = k)
    (hbegins : ∀ k', ¬begins k' e) : ByAge begins ends (history ++ [e]) rest := by
  refine ⟨h.nodup.sublist hrest, fun k' => ?_, h.ordered_concat hrest fun k' hk' => ?_⟩
  · rw [present_concat, hmem, h.mem_iff, hends, or_iff_left (hbegins k'), and_comm]
  · rw [hends]
    exact ((hmem k').mp hk').1

/-- The last of the keys is the one whose stay began first. -/
theorem last_oldest (h : ByAge begins ends history keys) {front : List κ} (hkeys : keys = front ++ [k])
    (hi : Began begins ends history k i) {k' : κ} {j : ℕ} (hj : Began begins ends history k' j) : i ≤ j := by
  have hmem : k' ∈ front ++ [k] := hkeys ▸ (h.mem_iff k').mpr ⟨j, hj.stays⟩
  rcases List.mem_append.mp hmem with hfront | hlast
  · have hordered := h.ordered
    rw [hkeys, List.pairwise_append] at hordered
    exact Nat.le_of_lt (hordered.2.2 k' hfront k (List.mem_singleton.mpr rfl) j i hj hi)
  · obtain rfl := List.mem_singleton.mp hlast
    exact Nat.le_of_eq (hi.unique hj)

end ByAge
end Stays
