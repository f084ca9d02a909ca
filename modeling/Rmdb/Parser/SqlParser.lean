import Rmdb.Parser.TreeShape
import Rmdb.Parser.Levels

/-! What the parser of SQL statements accepts. It comes to an end on every text, and what it accepts is a sentence of the
grammar with a well-formed tree. Every sentence of the grammar without ambiguities is accepted that the stack has room for. -/
namespace Rmdb.Ast

open LrParser

/-! ### The kinds of the values -/

theorem Terminal.num_injective {t t' : Terminal} (h : t.num = t'.num) : t = t' := by
  rw [← Terminal.ofNat_ctorIdx t, ← Terminal.ofNat_ctorIdx t']
  exact congrArg Terminal.ofNat h

theorem Nonterminal.num_injective {A A' : Nonterminal} (h : A.num = A'.num) : A = A' := by
  rw [← Nonterminal.ofNat_ctorIdx A, ← Nonterminal.ofNat_ctorIdx A']
  exact congrArg Nonterminal.ofNat (Nat.add_left_cancel h)

theorem Terminal.num_lt (t : Terminal) : t.num < 69 := by
  cases t <;> decide

/-- What the values of a symbol number are. -/
def kinds (k : ℕ) (val : SemValue) : Prop :=
  (∀ t : Terminal, t.num = k → t.Holds val) ∧ ∀ A : Nonterminal, A.num = k → A.Holds val

theorem kinds_num (symbol : Symbol) (val : SemValue) : kinds symbol.num val ↔ symbol.Holds val := by
  cases symbol with
  | t terminal =>
    refine ⟨fun h => h.1 _ rfl, fun h => ⟨fun t ht => ?_, fun A hA => ?_⟩⟩
    · rw [Terminal.num_injective ht]
      exact h
    · have hlt := terminal.num_lt
      change Nonterminal.num A = terminal.num at hA
      unfold Nonterminal.num at hA
      omega
  | n nonterminal =>
    refine ⟨fun h => h.2 _ rfl, fun h => ⟨fun t ht => ?_, fun A hA => ?_⟩⟩
    · have hlt := t.num_lt
      change t.num = Nonterminal.num nonterminal at ht
      unfold Nonterminal.num at ht
      omega
    · rw [Nonterminal.num_injective hA]
      exact h

theorem unusedRules_typed : ∀ production ∈ unusedRules, production.Typed := by
  intro production hproduction
  rw [List.eq_of_mem_replicate hproduction]
  exact Production.typed_of_forValues (by simp)

theorem productions_typed : ∀ production ∈ productions, production.Typed := by
  simp only [productions, List.forall_mem_append]
  exact ⟨⟨⟨⟨⟨⟨⟨⟨⟨⟨⟨⟨⟨⟨⟨⟨⟨unusedRules_typed, startRules_typed⟩, stmtRules_typed⟩, dbStmtRules_typed⟩, ddlRules_typed⟩,
    dmlRules_typed⟩, fieldRules_typed⟩, valueRules_typed⟩, conditionRules_typed⟩, colRules_typed⟩, exprRules_typed⟩,
    setClauseRules_typed⟩, tableRefRules_typed⟩, orderRules_typed⟩, aggFuncRules_typed⟩, clauseRules_typed⟩,
    selectorRules_typed⟩, nameRules_typed⟩

theorem sqlParser_typed : sqlParser.Typed kinds where
  endToken := (kinds_num (.t .T_EOF) .none).mpr trivial
  rules := by
    intro rule hrule vals hvals
    obtain ⟨production, hproduction, rfl⟩ := List.mem_map.mp hrule
    have hsymbols := (List.forall₂_map_left_iff.mp hvals).imp fun symbol val => (kinds_num symbol val).mp
    obtain ⟨val, hact, hval⟩ := productions_typed production hproduction vals hsymbols
    exact ⟨val, hact, (kinds_num (.n production.lhs) val).mpr hval⟩

/-! ### The conditions on the tables -/

theorem length_predsTable : predsTable.length = 257 := by decide +kernel

theorem lt_of_live {s : ℕ} (h : cert.Live s) : s < 257 := by
  by_contra hge
  rcases h with rfl | hpreds
  · omega
  · exact hpreds (List.getD_eq_default _ _ (by rw [length_predsTable]; omega))
theorem entryOk_of_action {s t : ℕ} {action : Action} (hlive : cert.Live s) (ht : t < 69)
    (haction : packedAction s t = action) : EntryOk s t action := by
  rw [← haction]
  exact entries_ok s (lt_of_live hlive) hlive t ht

theorem ruleOk_of_mem {s r : ℕ} (hlive : cert.Live s) (hr : r ∈ reductionTable.getD s []) : RuleOk s rules[r]? :=
  rules_ok s (lt_of_live hlive) hlive r hr

theorem sqlParser_safe : sqlParser.Safe cert where
  start := rfl
  room := by decide
  ends := by decide
  shift := by
    intro s t q hlive ht haction
    rw [sqlParser_eq] at haction
    obtain ⟨hpred, hsymbol, hfinal, hpot, -⟩ := entryOk_of_action hlive ht haction
    exact ⟨hpred, hsymbol, hfinal, hpot⟩
  shiftEnd := by
    intro s q hlive haction
    rw [sqlParser_eq] at haction
    obtain ⟨-, -, -, -, hend⟩ := entryOk_of_action hlive (by decide) haction
    exact hend rfl
  reduce := by
    intro s t r hlive ht haction
    rw [sqlParser_eq] at haction ⊢
    have hrule := ruleOk_of_mem hlive (entryOk_of_action hlive ht haction)
    change ∃ rule, rules[r]? = some rule ∧ _
    cases hget : rules[r]? with
    | none =>
      rw [hget] at hrule
      exact hrule.elim
    | some rule =>
      rw [hget] at hrule
      exact ⟨rule, rfl, hrule⟩

theorem level_mem {rule : LayeredRule SemValue} (h : rule ∈ layers.rules) : ∃ level ∈ levelTable, level.toRule = rule := by
  rw [← levels_eq]
  exact List.mem_map.mp h

theorem standsFor_of_levelOk {level : Level} (h : LevelOk level) : sqlParser.StandsFor layers level.toRule level.number := by
  obtain ⟨-, hnumber⟩ := h
  cases hcase : level.number with
  | none =>
    rw [hcase] at hnumber
    refine ⟨decide_eq_false hnumber, fun val => ?_⟩
    rw [Level.toRule, hcase]
    rfl
  | some r =>
    rw [hcase] at hnumber
    obtain ⟨base, hbase, hsame⟩ := Option.map_eq_some_iff.mp hnumber
    obtain ⟨hlhs, hrest⟩ := Prod.mk.inj hsame
    obtain ⟨hrhs, hfinal⟩ := Prod.mk.inj hrest
    refine ⟨base, hbase, hlhs, ?_, ?_, hfinal⟩
    · rw [hrhs, List.length_map]
      rfl
    · rw [Level.toRule, hcase]
      change base.act = ruleAction r
      rw [ruleAction, hbase]
      rfl

theorem exists_cover {s X : ℕ} (h : looks s X ≠ []) :
    ∃ entry ∈ coverTable, entry.1 = s ∧ ∃ look ∈ entry.2, look.1 = X ∧ looks s X = lookTable.getD look.2 [] := by
  unfold looks at h ⊢
  cases hX : ((coverTable.lookup s).getD []).lookup X with
  | none =>
    rw [hX] at h
    exact absurd rfl h
  | some k =>
    cases hs : coverTable.lookup s with
    | none =>
      rw [hs] at hX
      cases hX
    | some list =>
      rw [hs] at hX
      obtain ⟨before, after, heq, -⟩ := List.lookup_eq_some_iff.mp hs
      obtain ⟨before', after', heq', -⟩ := List.lookup_eq_some_iff.mp hX
      refine ⟨(s, list), ?_, rfl, (X, k), ?_, rfl, rfl⟩
      · rw [heq]
        simp
      · change (X, k) ∈ (some list).getD []
        rw [heq']
        simp

theorem sqlParser_follows : sqlParser.Follows layers where
  endToken := by decide
  start := by decide +kernel
  rules := by
    intro rule hrule
    obtain ⟨level, hlevel, rfl⟩ := level_mem hrule
    have hok := levels_ok level hlevel
    exact ⟨hok.1, decide_eq_true_iff, standsFor_of_levelOk hok⟩
  first := by
    intro rule hrule
    obtain ⟨level, hlevel, rfl⟩ := level_mem hrule
    exact first_ok level hlevel
  covers := by
    intro s X hlooks rule hrule hlhs
    obtain ⟨level, hlevel, rfl⟩ := level_mem hrule
    obtain ⟨entry, hentry, rfl, look, hlook, rfl, heq⟩ := exists_cover hlooks
    change sqlParser.Fits layers (looks entry.1 look.1) _ _ ∧ sqlParser.TakesRule layers _ (looks entry.1 look.1) _ _
    rw [heq, sqlParser_eq]
    exact covers_ok entry hentry look hlook level hlevel hlhs

/-! ### The grammar without ambiguities -/

theorem level_mem_grammar {level : Level} (hlevel : level ∈ levels) : level.toRule.toRule ∈ layers.grammar :=
  List.mem_map_of_mem (List.mem_map_of_mem hlevel)

theorem toRule_sameLevel {r : ℕ} {production : Production} (hrule : rules[r]? = some production.toRule) :
    (Level.toRule ⟨production.lhs.num, production.rhs.map Symbol.num, some r⟩).toRule = production.toRule := by
  have hact : ruleAction r = production.act := by
    rw [ruleAction, hrule]
    rfl
  have hfinal : decide (production.lhs.num = Nonterminal.start.num) = decide (production.lhs = .start) :=
    decide_eq_decide.mpr ⟨Nonterminal.num_injective, congrArg Nonterminal.num⟩
  unfold Level.toRule Production.toRule
  dsimp only [Option.elim]
  rw [hact, hfinal]

/-- A rule that stays as it is in the grammar without ambiguities. -/
theorem rule_mem_grammar {r : ℕ} {production : Production} (hr : r ∈ unchangedRules)
    (hget : productions[r]? = some production) : production.toRule ∈ layers.grammar := by
  have hrule : rules[r]? = some production.toRule := by rw [rules, List.getElem?_map, hget, Option.map_some]
  have hlevel : (⟨production.lhs.num, production.rhs.map Symbol.num, some r⟩ : Level) ∈ levels := by
    refine List.mem_append_left _ (List.mem_filterMap.mpr ⟨r, hr, ?_⟩)
    rw [sameLevel, hrule]
    rfl
  rw [← toRule_sameLevel hrule]
  exact level_mem_grammar hlevel

/-! ### Parsing -/

/-- The value of a token is the one that the scanner gives to tokens of its kind. -/
def Lexeme.Valid (lexeme : Lexeme) : Prop := ∀ t : Terminal, t.num = yytranslateCode lexeme.code → t.Holds lexeme.val

theorem yytranslate_lt : ∀ k ∈ yytranslate, k < 69 := by decide +kernel

theorem yytranslateCode_lt (code : ℕ) : yytranslateCode code < 69 := by
  rw [yytranslateCode, List.getD_eq_getElem?_getD]
  cases h : yytranslate[code]? with
  | none => decide
  | some k => exact yytranslate_lt k (List.mem_of_getElem? h)

theorem kinds_of_lt {k : ℕ} {val : SemValue} (hk : k < 69) (h : ∀ t : Terminal, t.num = k → t.Holds val) : kinds k val :=
  ⟨h, fun A hA => by unfold Nonterminal.num at hA; omega⟩

theorem valid_of_terminal (t : Terminal) {lexeme : Lexeme} (hcode : yytranslateCode lexeme.code = t.num)
    (h : t.Holds lexeme.val) : lexeme.Valid := by
  intro t' ht'
  rwa [Terminal.num_injective (ht'.trans hcode)]

theorem scanned_of_valid {lexemes : List Lexeme} (h : ∀ lexeme ∈ lexemes, lexeme.Valid) :
    Parser.Scanned cert kinds (lexemes.map Lexeme.token) := by
  intro t ht
  obtain ⟨lexeme, hmem, rfl⟩ := List.mem_map.mp ht
  have hlt := yytranslateCode_lt lexeme.code
  exact ⟨hlt, kinds_of_lt hlt (h lexeme hmem)⟩

/-- The parser comes to an end on every text, without reading a value that is not there: with a syntax error, with a full stack
or with a tree that its rules derive from the tokens. -/
theorem yyparse_ends {lexemes : List Lexeme} (hvalid : ∀ lexeme ∈ lexemes, lexeme.Valid) :
    ∃ outcome, yyparse lexemes = some outcome ∧ sqlParser.Ended (lexemes.map Lexeme.token) outcome := by
  have hmeasure : Parser.measure cert ⟨[], lexemes.map Lexeme.token⟩ < 16 * lexemes.length + 3 := by
    rw [Parser.measure, List.length_map]
    change 0 + 2 + 16 * lexemes.length < _
    omega
  exact (Parser.built_start _).run sqlParser_safe sqlParser_typed (scanned_of_valid hvalid) hmeasure

/-- A sentence of the grammar without ambiguities is accepted with its value, whatever follows it. -/
theorem yyparse_of_derives {lexemes rest : List Lexeme} {val : SemValue} (hvalid : ∀ lexeme ∈ lexemes ++ rest, lexeme.Valid)
    (h : Derives layers.grammar sqlParser.room [Nonterminal.start.num] (lexemes.map Lexeme.token) [val]) :
    yyparse (lexemes ++ rest) = some (.accepted val (rest.map Lexeme.token)) := by
  obtain ⟨outcome, hrun, -⟩ := yyparse_ends hvalid
  have hpeek : (sqlParser.peek (rest.map Lexeme.token)).kind < 69 := by
    cases rest with
    | nil => decide
    | cons lexeme rest => exact yytranslateCode_lt lexeme.code
  have hword : ∀ t ∈ lexemes.map Lexeme.token, t.kind < 69 := by
    intro t ht
    obtain ⟨lexeme, -, rfl⟩ := List.mem_map.mp ht
    exact yytranslateCode_lt lexeme.code
  obtain ⟨c, hmoves, hdone⟩ := Parser.accepts_of_derives sqlParser_follows h hword hpeek
  rw [← List.map_append] at hmoves
  rw [hrun, Parser.run_of_done hmoves hdone hrun]

/-- A tree that the parser has accepted is well formed. -/
theorem wellFormed_of_yyparse {lexemes : List Lexeme} {val : SemValue} {rest : List (Token SemValue)}
    (hvalid : ∀ lexeme ∈ lexemes, lexeme.Valid) (h : yyparse lexemes = some (.accepted val rest)) :
    ∃ tree : Option ParseTree, val = .tree tree ∧ ∀ t ∈ tree, t.WellFormed := by
  obtain ⟨outcome, hrun, hended⟩ := yyparse_ends hvalid
  obtain rfl := Option.some.inj (h.symm.trans hrun)
  cases hended with
  | accepted haccepts =>
    obtain ⟨rule, hrule, hfinal, hkind⟩ := haccepts.kinds sqlParser_safe sqlParser_typed (scanned_of_valid hvalid)
    obtain ⟨production, -, rfl⟩ := List.mem_map.mp hrule
    have hstart : production.lhs = .start := of_decide_eq_true hfinal
    obtain ⟨tree, htree, heq⟩ : Nonterminal.Holds .start val := hstart ▸ (kinds_num (.n production.lhs) val).mp hkind
    exact ⟨tree, heq.symm, htree⟩

/-- The parser comes to an end on every text, and what it accepts is the well-formed tree of a sentence. -/
theorem yyparse_total {lexemes : List Lexeme} (hvalid : ∀ lexeme ∈ lexemes, lexeme.Valid) :
    ∃ outcome, yyparse lexemes = some outcome ∧ sqlParser.Ended (lexemes.map Lexeme.token) outcome ∧
      ∀ val rest, outcome = .accepted val rest → ∃ tree : Option ParseTree, val = .tree tree ∧ ∀ t ∈ tree, t.WellFormed := by
  obtain ⟨outcome, hrun, hended⟩ := yyparse_ends hvalid
  refine ⟨outcome, hrun, hended, fun val rest haccepted => ?_⟩
  rw [haccepted] at hrun
  exact wellFormed_of_yyparse hvalid hrun

theorem yyparse_total_help :
    ∃ outcome, yyparse [⟨282, .none⟩] = some outcome ∧ sqlParser.Ended [⟨27, .none⟩] outcome ∧
      ∀ val rest, outcome = .accepted val rest → ∃ tree : Option ParseTree, val = .tree tree ∧ ∀ t ∈ tree, t.WellFormed :=
  yyparse_total (List.forall_mem_singleton.mpr (valid_of_terminal .HELP rfl trivial))

/-- `HELP` is a sentence of the grammar. -/
theorem derives_help : Derives layers.grammar sqlParser.room [Nonterminal.start.num] [⟨27, .none⟩]
    [.tree (some ⟨.help, false⟩)] :=
  have hhelp : Derives layers.grammar 198 [Terminal.HELP.num] [⟨27, .none⟩] [SemValue.none] := .token ⟨27, SemValue.none⟩ .nil
  .rule (rule_mem_grammar (by decide : 4 ∈ unchangedRules) rfl) hhelp rfl .nil

/-- A sentence of the grammar without ambiguities has one value, and the parser finds it whatever follows the sentence. -/
theorem yyparse_sentence {lexemes rest : List Lexeme} {val : SemValue} (hvalid : ∀ lexeme ∈ lexemes ++ rest, lexeme.Valid)
    (h : Derives layers.grammar sqlParser.room [Nonterminal.start.num] (lexemes.map Lexeme.token) [val]) :
    yyparse (lexemes ++ rest) = some (.accepted val (rest.map Lexeme.token)) ∧
      ∀ val', Derives layers.grammar sqlParser.room [Nonterminal.start.num] (lexemes.map Lexeme.token) [val'] →
        val' = val := by
  have hrun := yyparse_of_derives hvalid h
  refine ⟨hrun, fun val' h' => ?_⟩
  have hrun' := yyparse_of_derives hvalid h'
  rw [hrun] at hrun'
  exact (Outcome.accepted.inj (Option.some.inj hrun')).1.symm

theorem yyparse_sentence_help :
    yyparse [⟨282, .none⟩] = some (.accepted (.tree (some ⟨.help, false⟩)) []) ∧
      ∀ val', Derives layers.grammar sqlParser.room [Nonterminal.start.num] [⟨27, .none⟩] [val'] →
        val' = .tree (some ⟨.help, false⟩) :=
  @yyparse_sentence [⟨282, .none⟩] [] _ (List.forall_mem_singleton.mpr (valid_of_terminal .HELP rfl trivial)) derives_help

end Rmdb.Ast
