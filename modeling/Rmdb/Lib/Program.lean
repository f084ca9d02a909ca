import Mathlib.Data.List.Forall2
import Mathlib.Tactic.Common

/-! Programs with exceptions over a state that survives them: how a run is taken apart, and
what holds between the first and the last state of a run, also of one that throws. -/
namespace Program

variable {σ ε α β : Type} {s : σ} {R : σ → σ → Prop}

def runFrom (x : ExceptT ε (StateM σ) α) (s : σ) : Except ε α × σ := StateT.run (ExceptT.run x) s

@[simp] theorem runFrom_pure (a : α) : runFrom (ε := ε) (pure a) s = (.ok a, s) := rfl

@[simp] theorem runFrom_throw (e : ε) : runFrom (α := α) (throw e) s = (.error e, s) := rfl

@[simp] theorem runFrom_get : runFrom (ε := ε) get s = (.ok s, s) := rfl

@[simp] theorem runFrom_modify (f : σ → σ) : runFrom (ε := ε) (modify f) s = (.ok ⟨⟩, f s) := rfl

theorem runFrom_bind (x : ExceptT ε (StateM σ) α) (f : α → ExceptT ε (StateM σ) β) :
    runFrom (x >>= f) s =
      match runFrom x s with
      | (.ok a, s') => runFrom (f a) s'
      | (.error e, s') => (.error e, s') := by
  simp only [runFrom, ExceptT.run_bind, StateT.run_bind]
  rcases StateT.run (ExceptT.run x) s with ⟨_ | _, _⟩ <;> rfl

/-- A run that returns is a run that returns and then another one. -/
theorem runFrom_bind_eq_ok {x : ExceptT ε (StateM σ) α} {f : α → ExceptT ε (StateM σ) β} {b : β} {s'' : σ} :
    runFrom (x >>= f) s = (.ok b, s'') ↔
      ∃ a s', runFrom x s = (.ok a, s') ∧ runFrom (f a) s' = (.ok b, s'') := by
  rw [runFrom_bind]
  constructor
  · intro h
    split at h
    · next a s' hx => exact ⟨a, s', hx, h⟩
    · exact absurd (congrArg Prod.fst h) nofun
  · rintro ⟨a, s', hx, h⟩
    rw [hx]
    exact h

theorem runFrom_forM_cons (g : α → ExceptT ε (StateM σ) PUnit) (a : α) (l : List α) :
    runFrom ((a :: l).forM g) s =
      match runFrom (g a) s with
      | (.ok _, s') => runFrom (l.forM g) s'
      | (.error e, s') => (.error e, s') := by
  change runFrom (g a >>= fun _ => l.forM g) s = _
  rw [runFrom_bind]
  rcases runFrom (g a) s with ⟨_ | _, _⟩ <;> rfl

theorem runFrom_tryCatch (x : ExceptT ε (StateM σ) α) (f : ε → ExceptT ε (StateM σ) α) :
    runFrom (tryCatch x f) s =
      match runFrom x s with
      | (.ok a, s') => (.ok a, s')
      | (.error e, s') => runFrom (f e) s' := by
  rcases h : runFrom x s with ⟨r, s'⟩
  have hx : StateT.run x s = (r, s') := h
  change StateT.run (ExceptT.tryCatch x f) s = _
  simp only [ExceptT.tryCatch, ExceptT.mk, StateT.run_bind, hx]
  cases r <;> rfl

theorem runFrom_ofExcept (x : Except ε α) :
    runFrom (σ := σ) (MonadExcept.ofExcept x) s = (x, s) := by
  cases x <;> rfl

theorem bind_eq_ok {x : Except ε α} {f : α → Except ε β} {b : β} :
    x >>= f = .ok b ↔ ∃ a, x = .ok a ∧ f a = .ok b := by
  constructor
  · intro h
    cases x with
    | error e => cases h
    | ok a => exact ⟨a, rfl, h⟩
  · rintro ⟨a, rfl, h⟩
    exact h

theorem of_mem_mapM {f : α → Except ε β} {l : List α} {l' : List β} (h : l.mapM f = .ok l') {b : β}
    (hb : b ∈ l') : ∃ a ∈ l, f a = .ok b := by
  induction l generalizing l' with
  | nil =>
    cases h
    cases hb
  | cons a l ih =>
    rw [List.mapM_cons] at h
    obtain ⟨b', hb', h⟩ := bind_eq_ok.mp h
    obtain ⟨rest, hrest, h⟩ := bind_eq_ok.mp h
    cases h
    rcases List.mem_cons.mp hb with rfl | hb
    · exact ⟨a, List.mem_cons_self, hb'⟩
    · obtain ⟨a', ha', hf⟩ := ih hrest hb
      exact ⟨a', List.mem_cons_of_mem a ha', hf⟩

theorem of_mem_forM {f : α → Except ε Unit} {l : List α} (h : l.forM f = .ok ()) : ∀ a ∈ l, f a = .ok () := by
  induction l with
  | nil => exact List.forall_mem_nil _
  | cons a l ih =>
    obtain ⟨⟨⟩, ha, hrest⟩ := bind_eq_ok.mp h
    exact List.forall_mem_cons.mpr ⟨ha, ih hrest⟩

theorem exists_of_mem_mapM {f : α → Except ε β} {l : List α} {l' : List β} (h : l.mapM f = .ok l') {a : α}
    (ha : a ∈ l) : ∃ b ∈ l', f a = .ok b := by
  induction l generalizing l' with
  | nil => cases ha
  | cons first l ih =>
    rw [List.mapM_cons] at h
    obtain ⟨b, hb, h⟩ := bind_eq_ok.mp h
    obtain ⟨rest, hrest, h⟩ := bind_eq_ok.mp h
    cases h
    cases List.mem_cons.mp ha with
    | inl heq =>
      rw [heq]
      exact ⟨b, List.mem_cons_self, hb⟩
    | inr hmem =>
      obtain ⟨b', hb', hf⟩ := ih hrest hmem
      exact ⟨b', List.mem_cons_of_mem b hb', hf⟩

theorem of_getElem?_mapM {f : α → Except ε β} {l : List α} {l' : List β} (h : l.mapM f = .ok l') {i : ℕ} {a : α}
    {b : β} (ha : l[i]? = some a) (hb : l'[i]? = some b) : f a = .ok b := by
  induction l generalizing l' i with
  | nil => cases ha
  | cons first l ih =>
    rw [List.mapM_cons] at h
    obtain ⟨b', hb', h⟩ := bind_eq_ok.mp h
    obtain ⟨rest, hrest, h⟩ := bind_eq_ok.mp h
    cases h
    cases i with
    | zero =>
      cases ha
      cases hb
      exact hb'
    | succ i => exact ih hrest ha hb

/-- The first element that throws decides. -/
theorem mapM_eq_error_iff {f : α → Except ε β} {l : List α} {e : ε} :
    l.mapM f = .error e ↔ ∃ pre a post, l = pre ++ a :: post ∧ (∀ x ∈ pre, ∃ b, f x = .ok b) ∧ f a = .error e := by
  induction l with
  | nil =>
    constructor
    · intro h
      cases h
    · rintro ⟨pre, a, post, h, -⟩
      exact absurd h.symm (List.append_ne_nil_of_right_ne_nil _ (List.cons_ne_nil _ _))
  | cons first l ih =>
    rw [List.mapM_cons]
    constructor
    · intro h
      cases hfirst : f first with
      | error e' =>
        rw [hfirst] at h
        cases h
        exact ⟨[], first, l, rfl, List.forall_mem_nil _, hfirst⟩
      | ok b =>
        rw [hfirst] at h
        cases hrest : l.mapM f with
        | ok bs =>
          rw [hrest] at h
          cases h
        | error e' =>
          rw [hrest] at h
          cases h
          obtain ⟨pre, a, post, rfl, hpre, ha⟩ := ih.mp hrest
          exact ⟨first :: pre, a, post, rfl, List.forall_mem_cons.mpr ⟨⟨b, hfirst⟩, hpre⟩, ha⟩
    · rintro ⟨pre, a, post, hsplit, hpre, ha⟩
      cases pre with
      | nil =>
        obtain ⟨rfl, rfl⟩ := List.cons.inj hsplit
        rw [ha]
        rfl
      | cons p pre =>
        obtain ⟨rfl, rfl⟩ := List.cons.inj hsplit
        obtain ⟨⟨b, hb⟩, hpre⟩ := List.forall_mem_cons.mp hpre
        have hrest := ih.mpr ⟨pre, a, post, rfl, hpre, ha⟩
        rw [hb, hrest]
        rfl

theorem mapM_eq_map {f : α → Except ε β} {g : α → β} {l : List α} (h : ∀ a ∈ l, f a = .ok (g a)) :
    l.mapM f = .ok (l.map g) := by
  induction l with
  | nil => rfl
  | cons a l ih =>
    have htail := ih fun a ha => h a (List.mem_cons_of_mem _ ha)
    rw [List.mapM_cons, h a List.mem_cons_self, htail]
    rfl

theorem mapM_eq_ok_iff {f : α → Except ε β} {l : List α} {l' : List β} :
    l.mapM f = .ok l' ↔ List.Forall₂ (fun a b => f a = .ok b) l l' := by
  induction l generalizing l' with
  | nil =>
    rw [List.forall₂_nil_left_iff, List.mapM_nil]
    exact ⟨fun h => (Except.ok.inj h).symm, fun h => congrArg Except.ok h.symm⟩
  | cons a l ih =>
    rw [List.mapM_cons, List.forall₂_cons_left_iff]
    constructor
    · intro h
      obtain ⟨b, hb, hrest⟩ := bind_eq_ok.mp h
      obtain ⟨bs, hbs, hend⟩ := bind_eq_ok.mp hrest
      cases hend
      exact ⟨b, bs, hb, ih.mp hbs, rfl⟩
    · intro ⟨b, bs, hb, hbs, hl'⟩
      subst hl'
      exact bind_eq_ok.mpr ⟨b, hb, bind_eq_ok.mpr ⟨bs, ih.mpr hbs, rfl⟩⟩

theorem exists_mapM {f : α → Except ε β} {l : List α} (h : ∀ a ∈ l, ∃ b, f a = .ok b) : ∃ l', l.mapM f = .ok l' := by
  induction l with
  | nil => exact ⟨[], rfl⟩
  | cons a l ih =>
    obtain ⟨⟨b, hb⟩, hrest⟩ := List.forall_mem_cons.mp h
    obtain ⟨bs, hbs⟩ := ih hrest
    rw [List.mapM_cons]
    exact ⟨b :: bs, bind_eq_ok.mpr ⟨b, hb, bind_eq_ok.mpr ⟨bs, hbs, rfl⟩⟩⟩

/-- Calls that all return may be made in any order. -/
theorem mapM_perm {f : α → Except ε β} {l l' : List α} (hperm : l.Perm l') {m : List β} (h : l.mapM f = .ok m) :
    ∃ m', l'.mapM f = .ok m' ∧ m.Perm m' := by
  induction hperm generalizing m with
  | nil => exact ⟨m, h, .refl m⟩
  | cons a _ ih =>
    rw [List.mapM_cons] at h ⊢
    obtain ⟨b, hb, h⟩ := bind_eq_ok.mp h
    obtain ⟨bs, hbs, h⟩ := bind_eq_ok.mp h
    cases h
    obtain ⟨bs', hbs', hrest⟩ := ih hbs
    rw [hb, hbs']
    exact ⟨b :: bs', rfl, hrest.cons b⟩
  | swap a c l =>
    rw [List.mapM_cons, List.mapM_cons] at h ⊢
    obtain ⟨d, hd, h⟩ := bind_eq_ok.mp h
    obtain ⟨bs', hbs', h⟩ := bind_eq_ok.mp h
    obtain ⟨b, hb, hbs'⟩ := bind_eq_ok.mp hbs'
    obtain ⟨bs, hbs, hbs'⟩ := bind_eq_ok.mp hbs'
    cases hbs'
    cases h
    rw [hb, hd, hbs]
    exact ⟨b :: d :: bs, rfl, .swap b d bs⟩
  | trans _ _ ih ih' =>
    obtain ⟨m₁, hm₁, hperm₁⟩ := ih h
    obtain ⟨m₂, hm₂, hperm₂⟩ := ih' hm₁
    exact ⟨m₂, hm₂, hperm₁.trans hperm₂⟩

/-- The calls on a prefix of the list are a prefix of the calls. -/
theorem mapM_take {f : α → Except ε β} {l : List α} {l' : List β} (h : l.mapM f = .ok l') (n : ℕ) :
    (l.take n).mapM f = .ok (l'.take n) := by
  induction l generalizing l' n with
  | nil =>
    cases h
    cases n <;> rfl
  | cons a l ih =>
    rw [List.mapM_cons] at h
    obtain ⟨b, hb, h⟩ := bind_eq_ok.mp h
    obtain ⟨bs, hbs, h⟩ := bind_eq_ok.mp h
    cases h
    cases n with
    | zero => rfl
    | succ n =>
      rw [List.take_succ_cons, List.take_succ_cons, List.mapM_cons, hb, ih hbs n]
      rfl

theorem allM_eq_all {f : α → Except ε Bool} {p : α → Bool} {l : List α} (h : ∀ a ∈ l, f a = .ok (p a)) :
    l.allM f = .ok (l.all p) := by
  induction l with
  | nil => rfl
  | cons a l ih =>
    have htail := ih fun a ha => h a (List.mem_cons_of_mem _ ha)
    rw [List.allM, h a List.mem_cons_self, htail, List.all_cons]
    cases p a with
    | false => rfl
    | true => rfl

/-- A loop that stops where `p` fails comes to this element. -/
def ComesTo (p : α → Bool) (l : List α) (a : α) : Prop := ∃ pre post, l = pre ++ a :: post ∧ ∀ b ∈ pre, p b = true

theorem ComesTo.mem {p : α → Bool} {l : List α} {a : α} (h : ComesTo p l a) : a ∈ l := by
  obtain ⟨pre, post, rfl, -⟩ := h
  exact List.mem_append_right _ List.mem_cons_self

theorem comesTo_head (p : α → Bool) (a : α) (l : List α) : ComesTo p (a :: l) a := ⟨[], l, rfl, List.forall_mem_nil _⟩

theorem ComesTo.cons {p : α → Bool} {l : List α} {a b : α} (h : ComesTo p l a) (hb : p b = true) :
    ComesTo p (b :: l) a := by
  obtain ⟨pre, post, rfl, hpre⟩ := h
  exact ⟨b :: pre, post, rfl, List.forall_mem_cons.mpr ⟨hb, hpre⟩⟩

theorem ComesTo.congr {p q : α → Bool} {l : List α} {a : α} (h : ComesTo p l a) (hpq : ∀ b ∈ l, p b = q b) :
    ComesTo q l a := by
  obtain ⟨pre, post, rfl, hpre⟩ := h
  exact ⟨pre, post, rfl, fun b hb => (hpq b (List.mem_append_left _ hb)).symm.trans (hpre b hb)⟩

/-- What a loop does not come to does not matter. -/
theorem allM_eq_all_of_comesTo {f : α → Except ε Bool} {p : α → Bool} {l : List α}
    (h : ∀ a, ComesTo p l a → f a = .ok (p a)) : l.allM f = .ok (l.all p) := by
  induction l with
  | nil => rfl
  | cons a l ih =>
    rw [List.allM, h a (comesTo_head p a l), List.all_cons]
    cases hp : p a with
    | false => rfl
    | true => exact ih fun b hb => h b (hb.cons hp)

theorem all_eq_all_of_comesTo {p q : α → Bool} {l : List α} (h : ∀ a, ComesTo p l a → q a = p a) : l.all q = l.all p := by
  induction l with
  | nil => rfl
  | cons a l ih =>
    rw [List.all_cons, List.all_cons, h a (comesTo_head p a l)]
    cases hp : p a with
    | false => rfl
    | true => exact ih fun b hb => h b (hb.cons hp)

/-- A loop that rejects nothing it comes to comes to the end. -/
theorem all_of_comesTo {p : α → Bool} {l : List α} (h : ∀ a, ComesTo p l a → p a = true) : l.all p = true := by
  rw [← all_eq_all_of_comesTo (q := fun _ => true) fun a ha => (h a ha).symm]
  exact List.all_eq_true.mpr fun _ _ => rfl

/-- A loop whose check throws outside of `own` accepts if all elements are inside and pass, and it rejects if a check in
front of the first element outside does. -/
theorem allM_eq_ok_iff {f : α → Except ε Bool} {own p : α → Bool} {l : List α} {b : Bool}
    (hown : ∀ a ∈ l, own a = true → f a = .ok (p a)) (hother : ∀ a ∈ l, own a = false → ∀ b, f a ≠ .ok b) :
    l.allM f = .ok b ↔
      if b then ∀ a ∈ l, own a = true ∧ p a = true else ∃ a ∈ l.takeWhile own, p a = false := by
  induction l with
  | nil => cases b <;> simp [List.allM, pure, Except.pure]
  | cons a l ih =>
    have htail := ih (fun a ha => hown a (List.mem_cons_of_mem _ ha)) fun a ha => hother a (List.mem_cons_of_mem _ ha)
    rw [List.allM]
    cases hin : own a with
    | false =>
      rw [List.takeWhile_cons_of_neg (by simpa using hin)]
      refine iff_of_false (fun h => ?_) ?_
      · obtain ⟨here, hhere, -⟩ := bind_eq_ok.mp h
        exact hother a List.mem_cons_self hin here hhere
      · cases b <;> simp [hin]
    | true =>
      rw [List.takeWhile_cons_of_pos hin, hown a List.mem_cons_self hin]
      cases hp : p a with
      | false =>
        change Except.ok false = Except.ok b ↔ _
        cases b <;> simp [hp]
      | true =>
        change l.allM f = .ok b ↔ _
        rw [htail]
        cases b <;> simp [hin, hp]

theorem allM_of_mapM {f : β → Except ε Bool} {g : α → Except ε β} {l : List α} {l' : List β} (h : l.mapM g = .ok l') :
    l'.allM f = l.allM fun a => g a >>= f := by
  induction l generalizing l' with
  | nil =>
    cases h
    rfl
  | cons a l ih =>
    rw [List.mapM_cons] at h
    obtain ⟨b, hb, h⟩ := bind_eq_ok.mp h
    obtain ⟨bs, hbs, h⟩ := bind_eq_ok.mp h
    cases h
    rw [List.allM, List.allM, ih hbs, hb]
    rfl

theorem allM_congr {f g : α → Except ε Bool} {l : List α} (h : ∀ a ∈ l, f a = g a) : l.allM f = l.allM g := by
  induction l with
  | nil => rfl
  | cons a l ih => rw [List.allM, List.allM, h a List.mem_cons_self, ih fun b hb => h b (List.mem_cons_of_mem a hb)]

/-- A filter with exceptions returns if no element throws, and then it is a filter. -/
theorem filterM_eq_ok {p : α → Except ε Bool} {l l' : List α} :
    l.filterM p = .ok l' ↔
      (∀ a ∈ l, ∃ b, p a = .ok b) ∧ l.filter (fun a => (p a).toOption.getD false) = l' := by
  have haux : ∀ (l acc out : List α), l.filterAuxM p acc = .ok out ↔
      (∀ a ∈ l, ∃ b, p a = .ok b) ∧ (l.filter fun a => (p a).toOption.getD false).reverse ++ acc = out := by
    intro l
    induction l with
    | nil =>
      intro acc out
      change Except.ok acc = _ ↔ _
      simp
    | cons a l ih =>
      intro acc out
      rw [List.filterAuxM]
      cases ha : p a with
      | error e =>
        refine iff_of_false nofun fun h => ?_
        obtain ⟨b, hb⟩ := h.1 a List.mem_cons_self
        rw [ha] at hb
        cases hb
      | ok keep =>
        refine (ih _ out).trans ?_
        cases keep with
        | false => simp [ha, Except.toOption]
        | true => simp [ha, Except.toOption]
  rw [List.filterM, bind_eq_ok]
  constructor
  · rintro ⟨out, hout, h⟩
    obtain ⟨hall, rfl⟩ := (haux l [] out).mp hout
    cases h
    exact ⟨hall, by simp⟩
  · rintro ⟨hall, rfl⟩
    exact ⟨_, (haux l [] _).mpr ⟨hall, rfl⟩, by simp; rfl⟩

theorem filterM_eq_filter {f : α → Except ε Bool} {p : α → Bool} {l : List α} (h : ∀ a ∈ l, f a = .ok (p a)) :
    l.filterM f = .ok (l.filter p) := by
  refine filterM_eq_ok.mpr ⟨fun a ha => ⟨_, h a ha⟩, List.filter_congr fun a ha => ?_⟩
  rw [h a ha]
  rfl

/-- What a filter with exceptions keeps has passed it. -/
theorem of_mem_filterM {p : α → Except ε Bool} {l l' : List α} (h : l.filterM p = .ok l') {a : α}
    (ha : a ∈ l') : a ∈ l ∧ p a = .ok true := by
  obtain ⟨hall, rfl⟩ := filterM_eq_ok.mp h
  obtain ⟨hmem, hkeep⟩ := List.mem_filter.mp ha
  obtain ⟨b, hb⟩ := hall a hmem
  rw [hb] at hkeep ⊢
  obtain rfl : b = true := hkeep
  exact ⟨hmem, rfl⟩

/-- What every step of a loop keeps, holds of what the loop returns. -/
theorem of_foldlM {I : β → Prop} {g : β → α → Except ε β} {l : List α} {b b' : β} (hrun : l.foldlM g b = .ok b')
    (hb : I b) (hstep : ∀ b, I b → ∀ a ∈ l, ∀ b', g b a = .ok b' → I b') : I b' := by
  induction l generalizing b with
  | nil =>
    cases hrun
    exact hb
  | cons a l ih =>
    rw [List.foldlM_cons] at hrun
    obtain ⟨b₁, hfirst, hrun⟩ := bind_eq_ok.mp hrun
    exact ih hrun (hstep b hb a List.mem_cons_self b₁ hfirst) fun b hb a ha => hstep b hb a (List.mem_cons_of_mem _ ha)

/-- The call stops with an allowed error, or returns a value that satisfies `Q`. -/
def Ends (allowed : ε → Prop) (Q : α → Prop) : Except ε α → Prop
  | .ok a => Q a
  | .error e => allowed e

namespace Ends

variable {allowed : ε → Prop} {Q Q' : α → Prop} {S : β → Prop} {x : Except ε α} {f : α → Except ε β}

theorem of_eq {a : α} (h : x = .ok a) (ha : Q a) : Ends allowed Q x := h ▸ ha

theorem mono (hx : Ends allowed Q x) (h : ∀ a, Q a → Q' a) : Ends allowed Q' x := by
  cases x with
  | error e => exact hx
  | ok a => exact h a hx

theorem weaken {allowed' : ε → Prop} (hx : Ends allowed Q x) (h : ∀ e, allowed e → allowed' e) : Ends allowed' Q x := by
  cases x with
  | error e => exact h e hx
  | ok a => exact hx

theorem map {g : α → β} (hx : Ends allowed Q x) (hg : ∀ a, Q a → S (g a)) : Ends allowed S (g <$> x) := by
  cases x with
  | error e => exact hx
  | ok a => exact hg a hx

theorem bind (hx : Ends allowed Q x) (hf : ∀ a, Q a → Ends allowed S (f a)) : Ends allowed S (x >>= f) := by
  cases x with
  | error e => exact hx
  | ok a => exact hf a hx

/-- What every step of a loop keeps, holds after the loop. -/
theorem foldlM {I : β → Prop} {g : β → α → Except ε β} {l : List α} {b : β}
    (hstep : ∀ b, I b → ∀ a ∈ l, Ends allowed I (g b a)) (hb : I b) : Ends allowed I (l.foldlM g b) := by
  induction l generalizing b with
  | nil => exact hb
  | cons a l ih =>
    rw [List.foldlM_cons]
    exact (hstep b hb a List.mem_cons_self).bind fun b' hb' =>
      ih (fun b hb a ha => hstep b hb a (List.mem_cons_of_mem _ ha)) hb'

/-- What each call makes of its element, the calls make of the list. -/
theorem mapM {R : α → β → Prop} {l : List α} (h : ∀ a ∈ l, Ends allowed (R a) (f a)) :
    Ends allowed (List.Forall₂ R l) (l.mapM f) := by
  induction l with
  | nil => exact List.Forall₂.nil
  | cons a l ih =>
    rw [List.mapM_cons]
    exact (h a List.mem_cons_self).bind fun b hb =>
      (ih fun a ha => h a (List.mem_cons_of_mem _ ha)).bind fun bs hbs => List.Forall₂.cons hb hbs

theorem mapM_all {l : List α} (h : ∀ a ∈ l, Ends allowed S (f a)) :
    Ends allowed (fun bs => ∀ b ∈ bs, S b) (l.mapM f) :=
  (Ends.mapM (R := fun _ b => S b) h).mono fun bs hbs => by
    induction hbs with
    | nil => exact List.forall_mem_nil _
    | cons hb _ ih => exact List.forall_mem_cons.mpr ⟨hb, ih fun a ha => h a (List.mem_cons_of_mem _ ha)⟩

/-- What can be told of the values from the elements. -/
theorem mapM_map {γ : Type*} {key : β → γ} {g : α → γ} {l : List α}
    (h : ∀ a ∈ l, Ends allowed (fun b => key b = g a) (f a)) :
    Ends allowed (fun bs => bs.map key = l.map g) (l.mapM f) :=
  (Ends.mapM h).mono fun bs hbs => by
    clear h
    induction hbs with
    | nil => rfl
    | cons hkey _ ih => exact congrArg₂ List.cons hkey ih

section
variable {p : α → Except ε Bool} {l : List α}

theorem allM (h : ∀ a ∈ l, Ends allowed (fun _ => True) (p a)) : Ends allowed (fun _ => True) (l.allM p) := by
  induction l with
  | nil => exact True.intro
  | cons a l ih =>
    refine (h a List.mem_cons_self).bind fun b _ => ?_
    cases b with
    | false => exact True.intro
    | true => exact ih fun a ha => h a (List.mem_cons_of_mem _ ha)

theorem filterM (h : ∀ a ∈ l, Ends allowed (fun _ => True) (p a)) : Ends allowed (fun _ => True) (l.filterM p) := by
  have haux : ∀ acc, Ends allowed (fun _ => True) (l.filterAuxM p acc) := by
    induction l with
    | nil => exact fun _ => True.intro
    | cons a l ih =>
      intro acc
      exact (h a List.mem_cons_self).bind fun b _ => ih (fun a ha => h a (List.mem_cons_of_mem _ ha)) _
  exact (haux []).bind fun _ _ => True.intro

end
end Ends

/-- Whether `x` returns or throws, the last state is related to the first one. -/
def Moves (R : σ → σ → Prop) (x : ExceptT ε (StateM σ) α) : Prop := ∀ s, R s (runFrom x s).2

namespace Moves

variable {x : ExceptT ε (StateM σ) α} {f : α → ExceptT ε (StateM σ) β}

theorem pure (hrefl : ∀ s, R s s) (a : α) : Moves R (Pure.pure a : ExceptT ε (StateM σ) α) := hrefl

theorem throw (hrefl : ∀ s, R s s) (e : ε) :
    Moves R (MonadExcept.throw e : ExceptT ε (StateM σ) α) := hrefl

theorem ofExcept (hrefl : ∀ s, R s s) (x : Except ε α) :
    Moves R (MonadExcept.ofExcept x : ExceptT ε (StateM σ) α) := by
  intro s
  rw [runFrom_ofExcept]
  exact hrefl s

theorem get (hrefl : ∀ s, R s s) : Moves R (MonadState.get : ExceptT ε (StateM σ) σ) := hrefl

theorem bind (htrans : ∀ s t u, R s t → R t u → R s u) (hx : Moves R x) (hf : ∀ a, Moves R (f a)) :
    Moves R (x >>= f) := by
  intro s
  have h := hx s
  rw [runFrom_bind]
  split
  · rename_i a s' heq
    rw [heq] at h
    exact htrans _ _ _ h (hf a s')
  · rename_i e s' heq
    rwa [heq] at h

theorem tryCatch (htrans : ∀ s t u, R s t → R t u → R s u) {g : ε → ExceptT ε (StateM σ) α}
    (hx : Moves R x) (hg : ∀ e, Moves R (g e)) : Moves R (MonadExcept.tryCatch x g) := by
  intro s
  have h := hx s
  rw [runFrom_tryCatch]
  split
  · rename_i a s' heq
    rwa [heq] at h
  · rename_i e s' heq
    rw [heq] at h
    exact htrans _ _ _ h (hg e s')

theorem forM (hrefl : ∀ s, R s s) (htrans : ∀ s t u, R s t → R t u → R s u) {g : α → ExceptT ε (StateM σ) PUnit}
    {l : List α} (hg : ∀ a ∈ l, Moves R (g a)) : Moves R (l.forM g) := by
  induction l with
  | nil => exact Moves.pure hrefl _
  | cons a l ih =>
    change Moves R (g a >>= fun _ => l.forM g)
    exact Moves.bind htrans (hg a List.mem_cons_self) fun _ =>
      ih fun b hb => hg b (List.mem_cons_of_mem a hb)

end Moves

/-- `x` leaves the state as it is, and `view` of the state decides its result. -/
def Observes {τ : Type*} (view : σ → τ) (x : ExceptT ε (StateM σ) α) : Prop :=
  ∃ q : τ → Except ε α, ∀ s, runFrom x s = (q (view s), s)

namespace Observes

variable {τ : Type*} {view : σ → τ} {x : ExceptT ε (StateM σ) α} {f : α → ExceptT ε (StateM σ) β}

theorem pure (a : α) : Observes view (Pure.pure a : ExceptT ε (StateM σ) α) := ⟨fun _ => .ok a, fun _ => rfl⟩

theorem throw (e : ε) : Observes view (MonadExcept.throw e : ExceptT ε (StateM σ) α) :=
  ⟨fun _ => .error e, fun _ => rfl⟩

theorem ofExcept (x : Except ε α) :
    Observes view (MonadExcept.ofExcept x : ExceptT ε (StateM σ) α) :=
  ⟨fun _ => x, fun _ => runFrom_ofExcept x⟩

theorem bind (hx : Observes view x) (hf : ∀ a, Observes view (f a)) : Observes view (x >>= f) := by
  obtain ⟨q, hq⟩ := hx
  choose r hr using hf
  refine ⟨fun t => q t >>= fun a => r a t, fun s => ?_⟩
  simp only [runFrom_bind, hq]
  cases q (view s) with
  | error e => rfl
  | ok a => simp only [hr, Bind.bind, Except.bind]

theorem forM {g : α → ExceptT ε (StateM σ) PUnit} {l : List α} (hg : ∀ a ∈ l, Observes view (g a)) :
    Observes view (l.forM g) := by
  induction l with
  | nil => exact Observes.pure _
  | cons a l ih =>
    change Observes view (g a >>= fun _ => l.forM g)
    exact Observes.bind (hg a List.mem_cons_self) fun _ => ih fun b hb => hg b (List.mem_cons_of_mem a hb)

theorem unchanged (hx : Observes view x) (s : σ) : (runFrom x s).2 = s := by
  obtain ⟨q, hq⟩ := hx
  rw [hq]

theorem congr (hx : Observes view x) {s t : σ} (h : view s = view t) :
    (runFrom x s).1 = (runFrom x t).1 := by
  obtain ⟨q, hq⟩ := hx
  rw [hq, hq, h]

end Observes

/-- Whatever `x` throws satisfies `P`. -/
def Throws (P : ε → Prop) (x : ExceptT ε (StateM σ) α) : Prop :=
  ∀ s e, (runFrom x s).1 = .error e → P e

namespace Throws

variable {P : ε → Prop} {x : ExceptT ε (StateM σ) α} {f : α → ExceptT ε (StateM σ) β}

theorem pure (a : α) : Throws P (Pure.pure a : ExceptT ε (StateM σ) α) := nofun

theorem throw {e : ε} (h : P e) : Throws P (MonadExcept.throw e : ExceptT ε (StateM σ) α) := by
  rintro s e' ⟨⟩
  exact h

theorem get : Throws P (MonadState.get : ExceptT ε (StateM σ) σ) := nofun

theorem modify (g : σ → σ) :
    Throws P (modifyThe σ g : ExceptT ε (StateM σ) PUnit) := nofun

theorem ofExcept {x : Except ε α} (h : ∀ e, x = .error e → P e) :
    Throws P (MonadExcept.ofExcept x : ExceptT ε (StateM σ) α) := by
  intro s e he
  rw [runFrom_ofExcept] at he
  exact h e he

theorem bind (hx : Throws P x) (hf : ∀ a, Throws P (f a)) : Throws P (x >>= f) := by
  intro s e he
  rw [runFrom_bind] at he
  split at he
  · exact hf _ _ e he
  · rename_i e' s' heq
    cases he
    exact hx s e (by rw [heq])

theorem forM {g : α → ExceptT ε (StateM σ) PUnit} {l : List α} (hg : ∀ a ∈ l, Throws P (g a)) :
    Throws P (l.forM g) := by
  induction l with
  | nil => exact Throws.pure _
  | cons a l ih =>
    change Throws P (g a >>= fun _ => l.forM g)
    exact Throws.bind (hg a List.mem_cons_self) fun _ => ih fun b hb => hg b (List.mem_cons_of_mem a hb)

end Throws

/-- Seen through `view`, `x` runs as `y` does. -/
def Refines {τ : Type} (view : σ → τ) (x : ExceptT ε (StateM σ) α) (y : ExceptT ε (StateM τ) α) : Prop :=
  ∀ s, runFrom y (view s) = ((runFrom x s).1, view (runFrom x s).2)

namespace Refines

variable {τ : Type} {view : σ → τ} {x : ExceptT ε (StateM σ) α} {y : ExceptT ε (StateM τ) α}
  {f : α → ExceptT ε (StateM σ) β} {g : α → ExceptT ε (StateM τ) β}

theorem throw (e : ε) : Refines view (MonadExcept.throw e : ExceptT ε (StateM σ) α) (MonadExcept.throw e) :=
  fun _ => rfl

theorem ofExcept (x : Except ε α) :
    Refines view (MonadExcept.ofExcept x : ExceptT ε (StateM σ) α) (MonadExcept.ofExcept x) := by
  intro s
  rw [runFrom_ofExcept, runFrom_ofExcept]

theorem bind (hx : Refines view x y) (hf : ∀ a, Refines view (f a) (g a)) : Refines view (x >>= f) (y >>= g) := by
  intro s
  rw [runFrom_bind, runFrom_bind, hx s]
  rcases runFrom x s with ⟨_ | a, s'⟩
  · rfl
  · exact hf a s'

/-- A step that `view` does not see. -/
theorem hidden_bind (hx : ∀ s, ∃ a, (runFrom x s).1 = .ok a ∧ view (runFrom x s).2 = view s)
    {y : ExceptT ε (StateM τ) β} (hf : ∀ a, Refines view (f a) y) : Refines view (x >>= f) y := by
  intro s
  obtain ⟨a, hok, hview⟩ := hx s
  rw [runFrom_bind]
  generalize runFrom x s = r at hok hview
  obtain ⟨_, s'⟩ := r
  subst hok
  rw [← hview]
  exact hf a s'

end Refines
end Program
