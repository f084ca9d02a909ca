import Rmdb.Lib.LrParser

/-! Which words a parser accepts: those of a grammar that its tables follow. The grammar may tell apart what the tables have
one symbol for, such as the levels of an expression, and may leave out rules that the tables never take. -/
namespace LrParser

variable {V : Type}

/-- A rule of the grammar stands for a rule of the parser, or for none where it says that one symbol may be another. -/
structure LayeredRule (V : Type) extends Rule V where
  number : Option ℕ

/-- The grammar with what is said about it: `looks s X` are the kinds of the tokens behind a word of `X` that begins in the
state `s`, and `first X` those of the tokens that such a word may begin with. -/
structure Layers (V : Type) where
  rules : List (LayeredRule V)
  under : ℕ → ℕ
  start : ℕ
  terminals : ℕ
  looks : ℕ → ℕ → List ℕ
  first : ℕ → List ℕ
  nullable : ℕ → Bool

namespace Layers

variable (g : Layers V)

def grammar : List (Rule V) := g.rules.map LayeredRule.toRule

/-- The kinds that a word of the symbols may begin with, where one of `after` is behind it. -/
def firsts (after : List ℕ) : List ℕ → List ℕ
  | [] => after
  | X :: symbols =>
    if X < g.terminals then [X]
    else if g.nullable X then g.first X ++ firsts after symbols
    else g.first X

def canVanish (symbols : List ℕ) : Bool := symbols.all fun X => decide (g.terminals ≤ X) && g.nullable X

variable {g} {after : List ℕ} {symbols : List ℕ} {k : ℕ}

theorem mem_firsts_of_mem (h : k ∈ g.firsts [] symbols) : k ∈ g.firsts after symbols := by
  induction symbols with
  | nil => cases h
  | cons X symbols ih =>
    unfold firsts at h ⊢
    split_ifs at h ⊢ with hterminal hnullable
    · exact h
    · rcases List.mem_append.mp h with h | h
      · exact List.mem_append_left _ h
      · exact List.mem_append_right _ (ih h)
    · exact h

theorem mem_firsts_of_canVanish (h : g.canVanish symbols = true) (hk : k ∈ after) : k ∈ g.firsts after symbols := by
  induction symbols with
  | nil => exact hk
  | cons X symbols ih =>
    simp only [canVanish, List.all_cons, Bool.and_eq_true, decide_eq_true_eq] at h
    rw [firsts, if_neg (by omega), if_pos h.1.2]
    exact List.mem_append_right _ (ih h.2)

end Layers

namespace Parser

variable (p : Parser V) (g : Layers V)

/-- The state that a symbol leads to. -/
def next (s X : ℕ) : ℕ :=
  if X < g.terminals then
    match p.action s X with
    | .shift q => q
    | _ => 0
  else p.goto s (g.under X)

/-- From the state on, the tables take the symbols where one of the kinds is behind them. -/
def Fits (after : List ℕ) : List ℕ → ℕ → Prop
  | [], _ => True
  | X :: symbols, s =>
    p.next g s X ≠ p.finalState ∧
      (if X < g.terminals then p.action s X = .shift (p.next g s X)
        else X ≠ g.start ∧ ∀ k ∈ g.firsts after symbols, k ∈ g.looks s X) ∧
      Fits after symbols (p.next g s X)

instance decidableFits (after : List ℕ) : ∀ symbols s, Decidable (p.Fits g after symbols s)
  | [], _ => isTrue trivial
  | X :: symbols, s =>
    have := decidableFits after symbols (p.next g s X)
    by dsimp only [Fits]; infer_instance

/-- At the end of its right-hand side a rule is taken, whichever token of `after` follows. -/
def TakesRule (rule : LayeredRule V) (after : List ℕ) (s : ℕ) : Option ℕ → Prop
  | none => rule.rhs.length = 1 ∧ rule.rhs.foldl (p.next g) s = p.goto s (g.under rule.lhs)
  | some r => ∀ k ∈ after, p.action (rule.rhs.foldl (p.next g) s) k = .reduce r

instance decidableTakesRule (rule : LayeredRule V) (after : List ℕ) (s : ℕ) :
    ∀ number, Decidable (p.TakesRule g rule after s number)
  | none => by dsimp only [TakesRule]; infer_instance
  | some _ => by dsimp only [TakesRule]; infer_instance

/-- What a rule of the grammar has in common with the rule of the parser that it stands for. -/
def StandsFor (rule : LayeredRule V) : Option ℕ → Prop
  | none => rule.final = false ∧ ∀ v, rule.act [v] = some v
  | some r => ∃ base, p.rules[r]? = some base ∧ base.lhs = g.under rule.lhs ∧ base.rhs.length = rule.rhs.length ∧
      base.act = rule.act ∧ base.final = rule.final

/-- The conditions on the tables and what is said about the grammar. -/
structure Follows : Prop where
  endToken : p.endToken.kind < g.terminals
  start : g.terminals ≤ g.start ∧ ∀ k < g.terminals, k ∈ g.looks 0 g.start
  rules : ∀ rule ∈ g.rules, g.terminals ≤ rule.lhs ∧ (rule.final = true ↔ rule.lhs = g.start) ∧ p.StandsFor g rule rule.number
  first : ∀ rule ∈ g.rules, (∀ k ∈ g.firsts [] rule.rhs, k ∈ g.first rule.lhs) ∧
    (g.canVanish rule.rhs = true → g.nullable rule.lhs = true)
  covers : ∀ s X, g.looks s X ≠ [] → ∀ rule ∈ g.rules, rule.lhs = X →
    p.Fits g (g.looks s X) rule.rhs s ∧ p.TakesRule g rule (g.looks s X) s rule.number

/-- The symbols with their values on top of the stack. -/
def pushAll : List ℕ → List V → List (Frame V) → List (Frame V)
  | X :: symbols, v :: vals, stack => pushAll symbols vals (⟨p.next g (top stack) X, v⟩ :: stack)
  | _, _, stack => stack

variable {p g} {symbols : List ℕ} {vals : List V} {stack : List (Frame V)}

theorem pushAll_eq (hlength : vals.length = symbols.length) :
    ∃ frames, p.pushAll g symbols vals stack = frames ++ stack ∧ frames.length = symbols.length ∧ values frames = vals ∧
      top (frames ++ stack) = symbols.foldl (p.next g) (top stack) := by
  induction symbols generalizing vals stack with
  | nil =>
    obtain rfl := List.eq_nil_of_length_eq_zero hlength
    exact ⟨[], rfl, rfl, rfl, rfl⟩
  | cons X symbols ih =>
    cases vals with
    | nil => cases hlength
    | cons v vals =>
      obtain ⟨frames, heq, hframes, hvals, htop⟩ := @ih vals (⟨p.next g (top stack) X, v⟩ :: stack) (Nat.succ.inj hlength)
      refine ⟨frames ++ [⟨p.next g (top stack) X, v⟩], ?_, ?_, ?_, ?_⟩
      · rw [pushAll, heq, List.append_assoc]
        rfl
      · rw [List.length_append, hframes]
        rfl
      · rw [values, List.map_append, List.reverse_append]
        exact congrArg (v :: ·) hvals
      · rw [List.append_assoc]
        exact htop

/-- A rule at whose end the parser takes it. -/
theorem reduce_pushAll {rule : LayeredRule V} {base : Rule V} {v : V} {input : List (Token V)}
    (hlength : vals.length = rule.rhs.length) (hrhs : base.rhs.length = rule.rhs.length) (hbase : base.act = rule.act)
    (hact : rule.act vals = some v) :
    p.reduce base ⟨p.pushAll g rule.rhs vals stack, input⟩ =
      if base.final then .done (.accepted v input) else p.push ⟨p.goto (top stack) base.lhs, v⟩ stack input := by
  obtain ⟨frames, heq, hframes, hvals, -⟩ := @pushAll_eq V p g rule.rhs vals stack hlength
  have hargs : args base.rhs.length (p.pushAll g rule.rhs vals stack) = vals := by
    rw [heq, hrhs, ← hframes, args, List.take_left]
    exact hvals
  unfold reduce
  dsimp only
  rw [hargs, hbase, hact]
  dsimp only
  rw [heq, hrhs, ← hframes, List.drop_left]

theorem top_pushAll (hlength : vals.length = symbols.length) :
    top (p.pushAll g symbols vals stack) = symbols.foldl (p.next g) (top stack) := by
  obtain ⟨frames, heq, -, -, htop⟩ := @pushAll_eq V p g symbols vals stack hlength
  rw [heq, htop]

variable {word rest : List (Token V)} {after : List ℕ} {n : ℕ}

/-- A token that follows a word, or that it begins with. -/
theorem mem_firsts (hfollows : p.Follows g) (h : Derives g.grammar n symbols word vals)
    (hword : ∀ t ∈ word, t.kind < g.terminals) :
    (word = [] → g.canVanish symbols = true) ∧ ∀ t word', word = t :: word' → t.kind ∈ g.firsts [] symbols := by
  induction h with
  | nil =>
    refine ⟨fun _ => rfl, fun t word' h => ?_⟩
    cases h
  | token t _ ih =>
    constructor
    · intro h
      cases h
    intro t' word' h
    obtain ⟨rfl, rfl⟩ := List.cons.inj h
    rw [Layers.firsts, if_pos (hword t (by simp))]
    exact List.mem_singleton_self _
  | @rule n symbols word word' vals vals' v rule hrule hrhs hact hrest ihrhs ihrest =>
    obtain ⟨layered, hlayered, rfl⟩ := List.mem_map.mp hrule
    obtain ⟨hnil, hcons⟩ := ihrhs fun t ht => hword t (List.mem_append_left _ ht)
    obtain ⟨hnil', hcons'⟩ := ihrest fun t ht => hword t (List.mem_append_right _ ht)
    obtain ⟨hlhs, -, -⟩ := hfollows.rules layered hlayered
    obtain ⟨hfirst, hnullable⟩ := hfollows.first layered hlayered
    constructor
    · intro h
      obtain ⟨hword', hwordrest⟩ := List.append_eq_nil_iff.mp h
      have hrestnull := hnil' hwordrest
      unfold Layers.canVanish at hrestnull ⊢
      rw [List.all_cons, hrestnull, hnullable (hnil hword'), decide_eq_true hlhs]
      rfl
    · intro t wordrest h
      rw [Layers.firsts, if_neg (by omega)]
      cases word' with
      | nil =>
        rw [if_pos (hnullable (hnil rfl))]
        exact List.mem_append_right _ (hcons' t wordrest h)
      | cons t' word' =>
        obtain ⟨rfl, -⟩ := List.cons.inj h
        have hmem := hfirst _ (hcons t' word' rfl)
        split_ifs
        · exact List.mem_append_left _ hmem
        · exact hmem

theorem peek_mem_firsts (hfollows : p.Follows g) (h : Derives g.grammar n symbols word vals)
    (hword : ∀ t ∈ word, t.kind < g.terminals) (hrest : (p.peek rest).kind ∈ after) :
    (p.peek (word ++ rest)).kind ∈ g.firsts after symbols := by
  obtain ⟨hnil, hcons⟩ := mem_firsts hfollows h hword
  cases word with
  | nil => exact Layers.mem_firsts_of_canVanish (hnil rfl) hrest
  | cons t word => exact Layers.mem_firsts_of_mem (hcons t word rfl)

/-- A word of the symbols is read where the tables take them, and leaves them on the stack. -/
theorem moves_of_derives (hfollows : p.Follows g) (h : Derives g.grammar n symbols word vals)
    (hword : ∀ t ∈ word, t.kind < g.terminals) (hfits : p.Fits g after symbols (top stack))
    (hrest : (p.peek rest).kind ∈ after) (hroom : stack.length + n ≤ p.room) :
    p.Moves ⟨stack, word ++ rest⟩ ⟨p.pushAll g symbols vals stack, rest⟩ := by
  induction h generalizing stack rest after with
  | nil => exact .refl
  | @token n symbols word vals t hderives ih =>
    have hterminal := hword t (by simp)
    rw [Fits, if_pos hterminal] at hfits
    obtain ⟨hfinal, haction, hfits⟩ := hfits
    have hstep : p.step ⟨stack, t :: word ++ rest⟩ = .next ⟨⟨p.next g (top stack) t.kind, t.val⟩ :: stack, word ++ rest⟩ := by
      unfold step
      rw [List.cons_append, peek_cons, haction]
      exact push_of_fits (show stack.length + 1 ≤ p.room by omega) hfinal
    exact .head hstep (ih (fun t' ht' => hword t' (by simp [ht'])) hfits hrest (by rw [List.length_cons]; omega))
  | @rule n symbols word word' vals vals' v rule hrule hrhs hact hderives ihrhs ihrest =>
    obtain ⟨layered, hlayered, rfl⟩ := List.mem_map.mp hrule
    have hword₁ : ∀ t ∈ word', t.kind < g.terminals := fun t ht => hword t (List.mem_append_left _ ht)
    have hword₂ : ∀ t ∈ word, t.kind < g.terminals := fun t ht => hword t (List.mem_append_right _ ht)
    obtain ⟨hlhs, hfinalrule, hstands⟩ := hfollows.rules layered hlayered
    rw [Fits, if_neg (by omega)] at hfits
    obtain ⟨hfinal, ⟨hstart, hlooks⟩, hfits⟩ := hfits
    have hlook := hlooks _ (peek_mem_firsts hfollows hderives hword₂ hrest)
    obtain ⟨hfitsrhs, htakes⟩ := hfollows.covers (top stack) layered.lhs (List.ne_nil_of_mem hlook) layered hlayered rfl
    have hmoves := ihrhs hword₁ hfitsrhs hlook hroom
    have hlength := hrhs.length_vals
    have hnext : p.next g (top stack) layered.lhs = p.goto (top stack) (g.under layered.lhs) := if_neg (by omega)
    -- the rule is taken, or one symbol is another
    have hreduced :
        p.Moves ⟨stack, word' ++ (word ++ rest)⟩ ⟨⟨p.next g (top stack) layered.lhs, v⟩ :: stack, word ++ rest⟩ := by
      cases hnumber : layered.number with
      | none =>
        rw [hnumber] at htakes hstands
        obtain ⟨hone, hend⟩ := htakes
        obtain ⟨X, hX⟩ := List.length_eq_one_iff.mp hone
        rw [hX] at hlength
        obtain ⟨w, rfl⟩ := List.length_eq_one_iff.mp hlength
        obtain rfl := Option.some.inj ((hstands.2 w).symm.trans hact)
        rw [hX] at hmoves hend
        rwa [hnext, ← hend]
      | some r =>
        rw [hnumber] at htakes hstands
        obtain ⟨base, hbase, hbaselhs, hbaserhs, hbaseact, hbasefinal⟩ := hstands
        refine hmoves.tail ?_
        unfold step
        dsimp only
        rw [top_pushAll hlength, htakes _ hlook]
        dsimp only
        rw [hbase]
        dsimp only
        have hnotfinal : ¬base.final = true := by
          rw [hbasefinal, hfinalrule]
          exact hstart
        rw [reduce_pushAll hlength hbaserhs hbaseact hact, if_neg hnotfinal, hbaselhs, ← hnext]
        exact push_of_fits (by omega) hfinal
    rw [List.append_assoc]
    exact hreduced.trans (ihrest hword₂ hfits hrest (by rw [List.length_cons]; omega))

/-- A word of the grammar that the stack has room for is accepted with its value, whatever follows it. -/
theorem accepts_of_derives {v : V} (hfollows : p.Follows g) (h : Derives g.grammar p.room [g.start] word [v])
    (hword : ∀ t ∈ word, t.kind < g.terminals) (hrest : (p.peek rest).kind < g.terminals) :
    ∃ c, p.Moves ⟨[], word ++ rest⟩ c ∧ p.step c = .done (.accepted v rest) := by
  obtain ⟨hstart, hlooks⟩ := hfollows.start
  generalize hsymbols : [g.start] = symbols at h
  generalize hvals : [v] = vals at h
  generalize hroom : p.room = room at h
  cases h with
  | nil => cases hsymbols
  | token t _ =>
    obtain ⟨hkind, -⟩ := List.cons.inj hsymbols
    have hterminal := hword t (by simp)
    omega
  | @rule n symbols word word' vals vals' v' rule hrule hrhs hact hderives =>
    obtain ⟨layered, hlayered, rfl⟩ := List.mem_map.mp hrule
    obtain ⟨hlhs, rfl⟩ := List.cons.inj hsymbols
    obtain ⟨rfl, rfl⟩ := List.cons.inj hvals
    cases hderives
    rw [List.append_nil] at hword ⊢
    have hlook := hlooks _ hrest
    rw [hlhs] at hlook
    obtain ⟨-, hfinalrule, hstands⟩ := hfollows.rules layered hlayered
    obtain ⟨hfits, htakes⟩ := hfollows.covers 0 layered.lhs (List.ne_nil_of_mem hlook) layered hlayered rfl
    have hmoves : p.Moves ⟨[], word' ++ rest⟩ _ := moves_of_derives hfollows hrhs hword hfits hlook (by simp [hroom])
    refine ⟨_, hmoves, ?_⟩
    cases hnumber : layered.number with
    | none =>
      rw [hnumber] at hstands
      have hfinal := hfinalrule.mpr hlhs.symm
      rw [hstands.1] at hfinal
      cases hfinal
    | some r =>
      rw [hnumber] at htakes hstands
      obtain ⟨base, hbase, -, hbaserhs, hbaseact, hbasefinal⟩ := hstands
      unfold step
      dsimp only
      rw [top_pushAll hrhs.length_vals, top_nil, htakes _ hlook]
      dsimp only
      rw [hbase]
      dsimp only
      rw [reduce_pushAll hrhs.length_vals hbaserhs hbaseact hact, if_pos (by rw [hbasefinal, hfinalrule]; exact hlhs.symm)]

end Parser
end LrParser
