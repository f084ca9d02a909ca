import Mathlib.Data.List.Induction
import Rmdb.Lib.Program

/-! Grouping by a key: a list of states, each folded over the elements of one key. -/
namespace Grouping

open Program

variable {α κ σ ε : Type} [DecidableEq κ] {step : σ → α → Except ε σ} {init : σ} {key : α → Except ε κ}
  {l : List α} {gs gs' : List (κ × σ)} {k : κ} {a : α}

/-- The state of the key takes the element; a key that is new starts from `init`. -/
def upsert (step : σ → α → Except ε σ) (init : σ) : List (κ × σ) → κ → α → Except ε (List (κ × σ))
  | [], k, a => do return [(k, ← step init a)]
  | g :: gs, k, a =>
    if g.1 = k then do return (k, ← step g.2 a) :: gs
    else do return g :: (← upsert step init gs k a)

/-- The groups in the order in which their keys came up. -/
def gather (step : σ → α → Except ε σ) (init : σ) (key : α → Except ε κ) (l : List α) : Except ε (List (κ × σ)) :=
  l.foldlM (fun gs a => do upsert step init gs (← key a) a) []

def members (key : α → Except ε κ) (k : κ) (l : List α) : List α := l.filter fun a => (key a).toOption = some k

theorem toOption_eq_some {x : Except ε α} : x.toOption = some a ↔ x = .ok a := by
  cases x with
  | error e => exact iff_of_false nofun nofun
  | ok b => exact ⟨fun h => congrArg Except.ok (Option.some.inj h), fun h => congrArg some (Except.ok.inj h)⟩

@[simp] theorem mem_members : a ∈ members key k l ↔ a ∈ l ∧ key a = .ok k := by
  rw [members, List.mem_filter, decide_eq_true_iff, toOption_eq_some]

theorem members_append (l' : List α) : members key k (l ++ l') = members key k l ++ members key k l' :=
  List.filter_append ..

theorem members_self (h : key a = .ok k) : members key k [a] = [a] :=
  List.filter_eq_self.mpr fun _ hb => by simp [List.mem_singleton.mp hb, h, Except.toOption]

theorem members_other {k' : κ} (h : key a = .ok k') (hne : k' ≠ k) : members key k [a] = [] :=
  List.filter_eq_nil_iff.mpr fun _ hb => by simp [List.mem_singleton.mp hb, h, Except.toOption, hne]

/-! One element. -/

/-- No key is lost, and none comes but that of the element. -/
theorem mem_keys_upsert (h : upsert step init gs k a = .ok gs') {k' : κ} :
    k' ∈ gs'.map Prod.fst ↔ k' = k ∨ k' ∈ gs.map Prod.fst := by
  induction gs generalizing gs' with
  | nil =>
    obtain ⟨s, -, hgs⟩ := bind_eq_ok.mp h
    cases hgs
    simp
  | cons g gs ih =>
    rw [upsert] at h
    split_ifs at h with hkey
    · obtain ⟨s, -, hgs⟩ := bind_eq_ok.mp h
      cases hgs
      simp [← hkey]
    · obtain ⟨rest, hrest, hgs⟩ := bind_eq_ok.mp h
      cases hgs
      rw [List.map_cons, List.mem_cons, ih hrest, List.map_cons, List.mem_cons]
      exact or_left_comm

theorem nodup_upsert (h : upsert step init gs k a = .ok gs') (hnodup : (gs.map Prod.fst).Nodup) :
    (gs'.map Prod.fst).Nodup := by
  induction gs generalizing gs' with
  | nil =>
    obtain ⟨s, -, hgs⟩ := bind_eq_ok.mp h
    cases hgs
    exact List.nodup_cons.mpr ⟨List.not_mem_nil, List.nodup_nil⟩
  | cons g gs ih =>
    rw [upsert] at h
    rw [List.map_cons, List.nodup_cons] at hnodup
    split_ifs at h with hkey
    · obtain ⟨s, -, hgs⟩ := bind_eq_ok.mp h
      cases hgs
      exact List.nodup_cons.mpr ⟨hkey ▸ hnodup.1, hnodup.2⟩
    · obtain ⟨rest, hrest, hgs⟩ := bind_eq_ok.mp h
      cases hgs
      rw [List.map_cons, List.nodup_cons, mem_keys_upsert hrest]
      exact ⟨not_or.mpr ⟨hkey, hnodup.1⟩, ih hrest hnodup.2⟩

/-- The state of the element's key makes a step, all others stay. -/
theorem mem_upsert (h : upsert step init gs k a = .ok gs') (hnodup : (gs.map Prod.fst).Nodup) {g : κ × σ}
    (hg : g ∈ gs') : g.1 ≠ k ∧ g ∈ gs ∨
      g.1 = k ∧ ∃ s, ((k, s) ∈ gs ∨ k ∉ gs.map Prod.fst ∧ s = init) ∧ step s a = .ok g.2 := by
  induction gs generalizing gs' with
  | nil =>
    obtain ⟨s, hstep, hgs⟩ := bind_eq_ok.mp h
    cases hgs
    obtain rfl := List.mem_singleton.mp hg
    exact .inr ⟨rfl, init, .inr ⟨List.not_mem_nil, rfl⟩, hstep⟩
  | cons first gs ih =>
    rw [upsert] at h
    rw [List.map_cons, List.nodup_cons] at hnodup
    split_ifs at h with hkey
    · obtain ⟨s, hstep, hgs⟩ := bind_eq_ok.mp h
      cases hgs
      cases List.mem_cons.mp hg with
      | inl heq =>
        subst heq
        exact .inr ⟨rfl, first.2, .inl (hkey ▸ List.mem_cons_self), hstep⟩
      | inr hmem =>
        refine .inl ⟨fun heq => hnodup.1 ?_, List.mem_cons_of_mem _ hmem⟩
        rw [hkey, ← heq]
        exact List.mem_map_of_mem hmem
    · obtain ⟨rest, hrest, hgs⟩ := bind_eq_ok.mp h
      cases hgs
      cases List.mem_cons.mp hg with
      | inl heq =>
        subst heq
        exact .inl ⟨hkey, List.mem_cons_self⟩
      | inr hmem =>
        refine (ih hrest hnodup.2 hmem).imp (fun hother => ⟨hother.1, List.mem_cons_of_mem _ hother.2⟩) ?_
        intro ⟨heq, s, hs, hstep⟩
        refine ⟨heq, s, hs.imp (List.mem_cons_of_mem _) fun hnew => ⟨?_, hnew.2⟩, hstep⟩
        rw [List.map_cons, List.mem_cons]
        exact not_or.mpr ⟨Ne.symm hkey, hnew.1⟩

theorem exists_upsert (gs : List (κ × σ)) (k : κ) (h : ∀ s, ∃ s', step s a = .ok s') :
    ∃ gs', upsert step init gs k a = .ok gs' := by
  induction gs with
  | nil =>
    obtain ⟨s, hs⟩ := h init
    exact ⟨_, bind_eq_ok.mpr ⟨s, hs, rfl⟩⟩
  | cons g gs ih =>
    rw [upsert]
    split_ifs with hkey
    · obtain ⟨s, hs⟩ := h g.2
      exact ⟨_, bind_eq_ok.mpr ⟨s, hs, rfl⟩⟩
    · obtain ⟨rest, hrest⟩ := ih
      exact ⟨_, bind_eq_ok.mpr ⟨rest, hrest, rfl⟩⟩

/-! All elements. -/

/-- The groups of a list: one for each key, with the state that its own elements make. -/
structure Gathered (step : σ → α → Except ε σ) (init : σ) (key : α → Except ε κ) (l : List α)
    (gs : List (κ × σ)) : Prop where
  keyed : ∀ a ∈ l, ∃ k, key a = .ok k
  nodup : (gs.map Prod.fst).Nodup
  mem_keys : ∀ k, k ∈ gs.map Prod.fst ↔ ∃ a ∈ l, key a = .ok k
  state : ∀ g ∈ gs, (members key g.1 l).foldlM step init = .ok g.2

theorem Gathered.nil : Gathered step init key [] [] where
  keyed := nofun
  nodup := List.nodup_nil
  mem_keys _ := iff_of_false List.not_mem_nil fun ⟨_, hmem, _⟩ => List.not_mem_nil hmem
  state := nofun

theorem Gathered.upsert (hgs : Gathered step init key l gs) (hkey : key a = .ok k)
    (h : upsert step init gs k a = .ok gs') : Gathered step init key (l ++ [a]) gs' where
  keyed b hb := by
    cases List.mem_append.mp hb with
    | inl hmem => exact hgs.keyed b hmem
    | inr hlast => exact ⟨k, List.mem_singleton.mp hlast ▸ hkey⟩
  nodup := nodup_upsert h hgs.nodup
  mem_keys k' := by
    rw [mem_keys_upsert h, hgs.mem_keys]
    constructor
    · intro hmem
      cases hmem with
      | inl heq => exact ⟨a, List.mem_append_right _ List.mem_cons_self, heq ▸ hkey⟩
      | inr hold =>
        obtain ⟨b, hb, hbk⟩ := hold
        exact ⟨b, List.mem_append_left _ hb, hbk⟩
    · intro ⟨b, hb, hbk⟩
      cases List.mem_append.mp hb with
      | inl hmem => exact .inr ⟨b, hmem, hbk⟩
      | inr hlast =>
        rw [List.mem_singleton.mp hlast, hkey] at hbk
        exact .inl (Except.ok.inj hbk).symm
  state g hg := by
    rw [members_append, List.foldlM_append]
    cases mem_upsert h hgs.nodup hg with
    | inl hother =>
      rw [members_other hkey hother.1.symm, hgs.state g hother.2]
      rfl
    | inr hown =>
      obtain ⟨hg, s, hs, hstep⟩ := hown
      rw [hg, members_self hkey]
      have hbefore : (members key k l).foldlM step init = .ok s := by
        cases hs with
        | inl hmem => exact hgs.state _ hmem
        | inr hnew =>
          have hnone : members key k l = [] := by
            rw [List.eq_nil_iff_forall_not_mem]
            intro b hb
            exact hnew.1 ((hgs.mem_keys k).mpr ⟨b, mem_members.mp hb⟩)
          rw [hnone, hnew.2]
          rfl
      rw [hbefore]
      exact bind_eq_ok.mpr ⟨s, rfl, bind_eq_ok.mpr ⟨g.2, hstep, rfl⟩⟩

theorem gathered (h : gather step init key l = .ok gs) : Gathered step init key l gs := by
  induction l using List.reverseRecOn generalizing gs with
  | nil =>
    cases h
    exact .nil
  | append_singleton l a ih =>
    rw [gather, List.foldlM_append] at h
    obtain ⟨before, hbefore, hlast⟩ := bind_eq_ok.mp h
    obtain ⟨after, hafter, hend⟩ := bind_eq_ok.mp hlast
    cases hend
    obtain ⟨k, hkey, hupsert⟩ := bind_eq_ok.mp hafter
    exact (ih hbefore).upsert hkey hupsert

/-- Where every element has a key and no step fails there are groups. -/
theorem exists_gather (hkey : ∀ a ∈ l, ∃ k, key a = .ok k) (hstep : ∀ a ∈ l, ∀ s, ∃ s', step s a = .ok s') :
    ∃ gs, gather step init key l = .ok gs := by
  induction l using List.reverseRecOn with
  | nil => exact ⟨[], rfl⟩
  | append_singleton l a ih =>
    obtain ⟨before, hbefore⟩ := ih (fun b hb => hkey b (List.mem_append_left _ hb))
      fun b hb => hstep b (List.mem_append_left _ hb)
    have ha : a ∈ l ++ [a] := List.mem_append_right _ List.mem_cons_self
    obtain ⟨k, hk⟩ := hkey a ha
    obtain ⟨after, hafter⟩ := exists_upsert before k (hstep a ha)
    refine ⟨after, ?_⟩
    rw [gather, List.foldlM_append]
    refine bind_eq_ok.mpr ⟨before, hbefore, bind_eq_ok.mpr ⟨after, ?_, rfl⟩⟩
    exact bind_eq_ok.mpr ⟨k, hk, hafter⟩

end Grouping
