import Rmdb.Lib.LrPhrases
import Rmdb.Parser.SqlParser

/-! Statements that are written for trees. Only the operands get parentheses that need them, and every tree that the parser can
make comes back from the statement that is written for it. -/
namespace Rmdb.Ast

open LrParser

/-- A token without a value. -/
def sym (t : Terminal) : Phrase SemValue := .token ⟨t.num, .none⟩

def ident (name : String) : Phrase SemValue := .token ⟨Terminal.IDENTIFIER.num, .str name⟩

def intToken (val : BitVec 32) : Phrase SemValue := .token ⟨Terminal.VALUE_INT.num, .int val⟩

/-- No name, and no alias, is an empty string. -/
def aliasPhrases (aliasName : String) : List (Phrase SemValue) := if aliasName = "" then [] else [sym .AS, ident aliasName]

def colPhrase (col : Col) : Phrase SemValue :=
  .node ((if col.tabName = "" then [] else [ident col.tabName, sym .dot]) ++ [ident col.colName] ++ aliasPhrases col.aliasName)

def tableRefPhrase (ref : TableRef) : Phrase SemValue := .node (ident ref.tabName :: aliasPhrases ref.aliasName)

def aggTerminal : AggFuncType → Terminal
  | .count => .COUNT
  | .max => .MAX
  | .min => .MIN
  | .sum => .SUM
  | .avg => .AVG

def aggFuncPhrase (agg : AggFunc) : Phrase SemValue :=
  .node ([sym (aggTerminal agg.funcType), sym .lparen, (agg.col.map colPhrase).getD (sym .star), sym .rparen] ++
    aliasPhrases agg.aliasName)

def valuePhrase : Value → Phrase SemValue
  | .intLit val => intToken val
  | .floatLit bits => .token ⟨Terminal.VALUE_FLOAT.num, .float bits⟩
  | .stringLit val => .token ⟨Terminal.VALUE_STRING.num, .str val⟩
  | .boolLit val => .token ⟨Terminal.VALUE_BOOL.num, .bool val⟩

def opTerminal : SvCompOp → Terminal
  | .eq => .eq
  | .ne => .NEQ
  | .lt => .lt
  | .gt => .gt
  | .le => .LEQ
  | .ge => .GEQ
  | .add => .plus
  | .sub => .minus
  | .mul => .star
  | .div => .slash

/-- The level of an operator: sums are 0 and products 1. Factors are 2. -/
def opLevel : SvCompOp → ℕ
  | .mul | .div => 1
  | _ => 0

/-- Whether an expression has to stand in parentheses where one of the level is expected; a subquery always does. -/
def needsParens (level : ℕ) : TreeNode → Bool
  | .value _ | .col _ | .aggFunc _ => false
  | .binary expr => decide (opLevel expr.op < level)
  | _ => true

def parens (f : Phrase SemValue) : Phrase SemValue := .node [sym .lparen, f, sym .rparen]

def operand (level : ℕ) (node : TreeNode) (f : Phrase SemValue) : Phrase SemValue :=
  if needsParens level node then parens f else f

def typePhrase (typeLen : TypeLen) : Phrase SemValue :=
  match typeLen.type with
  | .int => sym .INT
  | .float => sym .FLOAT
  | _ => .node [sym .CHAR, sym .lparen, intToken typeLen.len, sym .rparen]

def fieldPhrase (field : ColDef) : Phrase SemValue := .node [ident field.colName, typePhrase field.typeLen]

def commaList (items : List (Phrase SemValue)) : Phrase SemValue := .list [sym .comma] items

/-- All columns are a star. -/
def selectorPhrase (cols : List Col) (aggs : List AggFunc) : Phrase SemValue :=
  match cols.map colPhrase ++ aggs.map aggFuncPhrase with
  | [] => sym .star
  | items => commaList items

def dirPhrase : OrderByDir → Phrase SemValue
  | .default => .node []
  | .asc => sym .ASC
  | .desc => sym .DESC

def orderPhrase : Option OrderBy → Phrase SemValue
  | none => .node []
  | some order =>
    .node [sym .ORDER, sym .BY, commaList ((order.cols.zip order.orderbyDirs).map fun item =>
      .node [colPhrase item.1, dirPhrase item.2])]

def groupPhrase : Option (List Col) → Phrase SemValue
  | none => .node []
  | some cols => .node [sym .GROUP, sym .BY, commaList (cols.map colPhrase)]

def limitPhrase : Option (BitVec 32) → Phrase SemValue
  | none => .node []
  | some val => .node [sym .LIMIT, intToken val]

/-- A keyword in front of conditions. -/
def condsPhrase (keyword : Terminal) : List (Phrase SemValue) → Phrase SemValue
  | [] => .node []
  | conds => .node [sym keyword, .list [sym .AND] conds]

def joinTerminals : JoinType → List (Phrase SemValue)
  | .semi => [sym .SEMI, sym .JOIN]
  | _ => [sym .JOIN]

mutual

/-- A statement, or an expression without parentheses of its own. -/
def nodePhrase : TreeNode → Phrase SemValue
  | .help => sym .HELP
  | .showTables => .node [sym .SHOW, sym .TABLES]
  | .txnBegin => sym .TXN_BEGIN
  | .txnCommit => sym .TXN_COMMIT
  | .txnAbort => sym .TXN_ABORT
  | .txnRollback => sym .TXN_ROLLBACK
  | .createTable tabName fields =>
    .node [sym .CREATE, sym .TABLE, ident tabName, sym .lparen, commaList (fields.map fieldPhrase), sym .rparen]
  | .dropTable tabName => .node [sym .DROP, sym .TABLE, ident tabName]
  | .descTable tabName => .node [sym .DESC, ident tabName]
  | .createIndex tabName colNames =>
    .node [sym .CREATE, sym .INDEX, ident tabName, sym .lparen, commaList (colNames.map ident), sym .rparen]
  -- the name of an index is not kept
  | .dropIndex tabName [] => .node [sym .DROP, sym .INDEX, ident tabName, sym .ON, ident tabName]
  | .dropIndex tabName colNames =>
    .node [sym .DROP, sym .INDEX, ident tabName, sym .lparen, commaList (colNames.map ident), sym .rparen]
  | .showIndex tabName => .node [sym .SHOW, sym .INDEX, ident tabName]
  | .setStmt type val =>
    .node [sym .SET, sym (match type with | .enableNestLoop => .ENABLE_NESTLOOP | .enableSortMerge => .ENABLE_SORTMERGE),
      sym .eq, .token ⟨Terminal.VALUE_BOOL.num, .bool val⟩]
  | .insertStmt tabName vals =>
    .node [sym .INSERT, sym .INTO, ident tabName, sym .VALUES, sym .lparen, commaList (vals.map valuePhrase), sym .rparen]
  | .deleteStmt tabName conds => .node [sym .DELETE, sym .FROM, ident tabName, condsPhrase .WHERE (exprPhrases conds)]
  | .updateStmt tabName setClauses conds =>
    .node [sym .UPDATE, ident tabName, sym .SET, commaList (setClausePhrases setClauses),
      condsPhrase .WHERE (exprPhrases conds)]
  | .selectStmt cols aggs refs conds joins order groupBy having limit =>
    .node [sym .SELECT, selectorPhrase cols aggs, sym .FROM, commaList (refs.map tableRefPhrase),
      .chain [] (.node []) (joinPhrases joins), condsPhrase .WHERE (exprPhrases conds), groupPhrase groupBy,
      havingPhrase having, orderPhrase order, limitPhrase limit]
  | .value val => valuePhrase val
  | .col col => colPhrase col
  | .aggFunc agg => aggFuncPhrase agg
  | .binary expr => exprPhrase expr

/-- A comparison has nothing that needs parentheses on its left. -/
def exprPhrase : BinaryExpr → Phrase SemValue
  | ⟨lhs, op, rhs⟩ =>
    if op.isComparison then .node [nodePhrase lhs, sym (opTerminal op), operand 0 rhs (nodePhrase rhs)]
    else
      .node [operand (opLevel op) lhs (nodePhrase lhs), sym (opTerminal op),
        operand (opLevel op + 1) rhs (nodePhrase rhs)]

def exprPhrases : List BinaryExpr → List (Phrase SemValue)
  | [] => []
  | expr :: exprs => exprPhrase expr :: exprPhrases exprs

def setClausePhrase : SetClause → Phrase SemValue
  | ⟨colName, val⟩ => .node [ident colName, sym .eq, operand 0 val (nodePhrase val)]

def setClausePhrases : List SetClause → List (Phrase SemValue)
  | [] => []
  | clause :: clauses => setClausePhrase clause :: setClausePhrases clauses

def joinPhrase : JoinExpr → Phrase SemValue
  | ⟨right, rightAlias, conds, type⟩ =>
    .node (joinTerminals type ++ [tableRefPhrase ⟨right, rightAlias⟩, sym .ON, .list [sym .AND] (exprPhrases conds)])

def joinPhrases : List JoinExpr → List (Phrase SemValue)
  | [] => []
  | join :: joins => joinPhrase join :: joinPhrases joins

def havingPhrase : Option (List BinaryExpr) → Phrase SemValue
  | none => .node []
  | some conds => condsPhrase .HAVING (exprPhrases conds)

end

/-- What is written for a tree; the end of the session has none. -/
def treePhrase : Option ParseTree → Phrase SemValue
  | none => sym .EXIT
  | some ⟨.help, _⟩ => sym .HELP
  | some ⟨node, false⟩ => .node [nodePhrase node, sym .semi]
  | some ⟨node, true⟩ => .node [sym .EXPLAIN, nodePhrase node, sym .semi]

/-! ### What is written for the parts of a tree -/

/-- The phrase is one of the symbol, in the grammar without ambiguities. -/
def Writes (X : ℕ) (val : SemValue) (f : Phrase SemValue) : Prop := f.Of layers.grammar X val

section
variable {r : ℕ} {production : Production} {vals : List SemValue} {val val' : SemValue} {f : Phrase SemValue}
  {phrases : List (Phrase SemValue)} {X : ℕ}

theorem writes_of_rule (r : ℕ) (hget : productions[r]? = some production) (hr : r ∈ unchangedRules)
    (h : Phrases layers.grammar (production.rhs.map Symbol.num) vals phrases) (hact : production.act vals = some val) :
    Writes production.lhs.num val (.node phrases) :=
  h.node (rule_mem_grammar hr hget) hact

theorem writes_of_unit (r : ℕ) (hget : productions[r]? = some production) (hr : r ∈ unchangedRules)
    (hrhs : production.rhs.map Symbol.num = [X]) (h : Writes X val f) (hact : production.act [val] = some val') :
    Writes production.lhs.num val' f :=
  h.unit (rule_mem_grammar hr hget) hrhs hact

theorem writes_of_level {level : Level} (hlevel : level ∈ splitLevels) (h : Phrases layers.grammar level.rhs vals phrases)
    (hact : level.toRule.act vals = some val) : Writes level.lhs val (.node phrases) :=
  h.node (level_mem_grammar (List.mem_append_right _ hlevel)) hact

theorem writes_of_unit_level {level : Level} (hlevel : level ∈ splitLevels) (hrhs : level.rhs = [X]) (h : Writes X val f)
    (hact : level.toRule.act [val] = some val') : Writes level.lhs val' f :=
  h.unit (level_mem_grammar (List.mem_append_right _ hlevel)) hrhs hact

end

theorem writes_sym (t : Terminal) : Writes t.num .none (sym t) := Phrase.of_token _

theorem writes_ident (name : String) : Writes Terminal.IDENTIFIER.num (.str name) (ident name) := Phrase.of_token _

theorem writes_intToken (val : BitVec 32) : Writes Terminal.VALUE_INT.num (.int val) (intToken val) := Phrase.of_token _

theorem writes_tbName (name : String) : Writes Nonterminal.tbName.num (.str name) (ident name) :=
  writes_of_unit 126 rfl (by decide) rfl (writes_ident name) rfl

theorem writes_colName (name : String) : Writes Nonterminal.colName.num (.str name) (ident name) :=
  writes_of_unit 127 rfl (by decide) rfl (writes_ident name) rfl

theorem writes_col (col : Col) : Writes Nonterminal.col.num (.col col) (colPhrase col) := by
  obtain ⟨tabName, colName, aliasName⟩ := col
  have hcol := writes_colName colName
  have htab := writes_tbName tabName
  have hdot := writes_sym .dot
  have has := writes_sym .AS
  have halias := writes_ident aliasName
  unfold colPhrase aliasPhrases
  dsimp only
  split_ifs with htabName haliasName haliasName
  · subst htabName haliasName
    exact writes_of_rule 57 rfl (by decide) (.cons hcol .nil) rfl
  · subst htabName
    exact writes_of_rule 59 rfl (by decide) (.cons hcol (.cons has (.cons halias .nil))) rfl
  · subst haliasName
    exact writes_of_rule 56 rfl (by decide) (.cons htab (.cons hdot (.cons hcol .nil))) rfl
  · exact writes_of_rule 58 rfl (by decide) (.cons htab (.cons hdot (.cons hcol (.cons has (.cons halias .nil))))) rfl

theorem writes_tableRef (ref : TableRef) : Writes Nonterminal.tableRef.num (.tableRef ref) (tableRefPhrase ref) := by
  obtain ⟨tabName, aliasName⟩ := ref
  have htab := writes_ident tabName
  unfold tableRefPhrase aliasPhrases
  dsimp only
  split_ifs with haliasName
  · subst haliasName
    exact writes_of_rule 129 rfl (by decide) (.cons htab .nil) rfl
  · exact writes_of_rule 131 rfl (by decide) (.cons htab (.cons (writes_sym .AS) (.cons (writes_ident aliasName) .nil))) rfl

theorem writes_aggFuncType {type : AggFuncType} (h : type ≠ .count) :
    Writes Nonterminal.aggFuncType.num (.aggFuncType type) (sym (aggTerminal type)) := by
  cases type with
  | count => exact absurd rfl h
  | max => exact writes_of_unit 110 rfl (by decide) rfl (writes_sym .MAX) rfl
  | min => exact writes_of_unit 111 rfl (by decide) rfl (writes_sym .MIN) rfl
  | sum => exact writes_of_unit 112 rfl (by decide) rfl (writes_sym .SUM) rfl
  | avg => exact writes_of_unit 113 rfl (by decide) rfl (writes_sym .AVG) rfl

theorem writes_aggFunc {agg : AggFunc} (hagg : agg.WellFormed) :
    Writes Nonterminal.aggFunc.num (.aggFunc agg) (aggFuncPhrase agg) := by
  obtain ⟨type, col, aliasName⟩ := agg
  have hcount := writes_sym .COUNT
  have hopen := writes_sym .lparen
  have hclose := writes_sym .rparen
  have has := writes_sym .AS
  have halias := writes_ident aliasName
  unfold aggFuncPhrase aliasPhrases
  dsimp only
  cases col with
  | none =>
    obtain rfl : type = .count := hagg.count rfl
    have hstar := writes_sym .star
    split_ifs with haliasName
    · subst haliasName
      exact writes_of_rule 104 rfl (by decide) (.cons hcount (.cons hopen (.cons hstar (.cons hclose .nil)))) rfl
    · exact writes_of_rule 105 rfl (by decide)
        (.cons hcount (.cons hopen (.cons hstar (.cons hclose (.cons has (.cons halias .nil)))))) rfl
  | some col =>
    have hcol := writes_col col
    by_cases htype : type = .count
    · subst htype
      split_ifs with haliasName
      · subst haliasName
        exact writes_of_rule 106 rfl (by decide) (.cons hcount (.cons hopen (.cons hcol (.cons hclose .nil)))) rfl
      · exact writes_of_rule 107 rfl (by decide)
          (.cons hcount (.cons hopen (.cons hcol (.cons hclose (.cons has (.cons halias .nil)))))) rfl
    · have htok := writes_aggFuncType htype
      split_ifs with haliasName
      · subst haliasName
        exact writes_of_rule 108 rfl (by decide) (.cons htok (.cons hopen (.cons hcol (.cons hclose .nil)))) rfl
      · exact writes_of_rule 109 rfl (by decide)
          (.cons htok (.cons hopen (.cons hcol (.cons hclose (.cons has (.cons halias .nil)))))) rfl

theorem writes_value (val : Value) : Writes Nonterminal.value.num (.val val) (valuePhrase val) := by
  cases val with
  | intLit val => exact writes_of_unit 46 rfl (by decide) rfl (writes_intToken val) rfl
  | floatLit bits => exact writes_of_unit 47 rfl (by decide) rfl (Phrase.of_token _) rfl
  | stringLit val => exact writes_of_unit 48 rfl (by decide) rfl (Phrase.of_token _) rfl
  | boolLit val => exact writes_of_unit 49 rfl (by decide) rfl (Phrase.of_token _) rfl

theorem writes_type {typeLen : TypeLen} (h : typeLen.WellFormed) :
    Writes Nonterminal.type.num (.typeLen typeLen) (typePhrase typeLen) := by
  obtain ⟨type, len⟩ := typeLen
  rcases h with rfl | ⟨rfl | rfl, rfl⟩
  · exact writes_of_rule 42 rfl (by decide) (.cons (writes_sym .CHAR) (.cons (writes_sym .lparen)
      (.cons (writes_intToken len) (.cons (writes_sym .rparen) .nil)))) rfl
  · exact writes_of_unit 41 rfl (by decide) rfl (writes_sym .INT) rfl
  · exact writes_of_unit 43 rfl (by decide) rfl (writes_sym .FLOAT) rfl

theorem writes_field {field : ColDef} (h : field.WellFormed) :
    Writes Nonterminal.field.num (.field field) (fieldPhrase field) :=
  writes_of_rule 40 rfl (by decide) (.cons (writes_colName field.colName) (.cons (writes_type h.typeLen) .nil)) rfl

theorem writes_op {op : SvCompOp} (h : op.isComparison = true) :
    Writes Nonterminal.op.num (.compOp op) (sym (opTerminal op)) := by
  cases op with
  | eq => exact writes_of_unit 62 rfl (by decide) rfl (writes_sym .eq) rfl
  | lt => exact writes_of_unit 63 rfl (by decide) rfl (writes_sym .lt) rfl
  | gt => exact writes_of_unit 64 rfl (by decide) rfl (writes_sym .gt) rfl
  | ne => exact writes_of_unit 65 rfl (by decide) rfl (writes_sym .NEQ) rfl
  | le => exact writes_of_unit 66 rfl (by decide) rfl (writes_sym .LEQ) rfl
  | ge => exact writes_of_unit 67 rfl (by decide) rfl (writes_sym .GEQ) rfl
  | add | sub | mul | div => cases h

/-! ### Lists -/

theorem forall₂_map_right {α β : Type} {R : α → β → Prop} {f : α → β} {xs : List α} (h : ∀ x ∈ xs, R x (f x)) :
    List.Forall₂ R xs (xs.map f) :=
  List.forall₂_map_right_iff.mpr (List.forall₂_same.mpr h)

/-- A list with a token between the items, by the rule for one item and the rule for one more. -/
theorem writes_list {α : Type} {A item : Nonterminal} {sep : Terminal} {act₁ act₂ : List SemValue → Option SemValue}
    (r₁ r₂ : ℕ) (hget₁ : productions[r₁]? = some ⟨A, [.n item], act₁⟩)
    (hget₂ : productions[r₂]? = some ⟨A, [.n A, .t sep, .n item], act₂⟩) (hr₁ : r₁ ∈ unchangedRules)
    (hr₂ : r₂ ∈ unchangedRules) {wrap : List α → SemValue} {val : α → SemValue} (hact₁ : ∀ x, act₁ [val x] = some (wrap [x]))
    (hact₂ : ∀ xs x, act₂ [wrap xs, .none, val x] = some (wrap (xs ++ [x]))) {f : α → Phrase SemValue} {xs : List α}
    (hne : xs ≠ []) (hitems : ∀ x ∈ xs, Writes item.num (val x) (f x)) :
    Writes A.num (wrap xs) (.list [sym sep] (xs.map f)) := by
  have hone : ∀ x g, Writes item.num (val x) g → Writes A.num (wrap [x]) g :=
    fun x _ hx => writes_of_unit r₁ hget₁ hr₁ rfl hx (hact₁ x)
  have hstep : ∀ xs x g h, Writes A.num (wrap xs) g → Writes item.num (val x) h →
      Writes A.num (wrap (xs ++ [x])) (.node (g :: ([sym sep] ++ [h]))) :=
    fun xs x _ _ hxs hx => writes_of_rule r₂ hget₂ hr₂ (.cons hxs (.cons (writes_sym sep) (.cons hx .nil))) (hact₂ xs x)
  exact Phrase.of_list hone hstep hne (forall₂_map_right hitems)

theorem writes_fieldList {fields : List ColDef} (h : SomeOf ColDef.WellFormed fields) :
    Writes Nonterminal.fieldList.num (.fields fields) (commaList (fields.map fieldPhrase)) :=
  writes_list 36 37 rfl rfl (by decide) (by decide) (fun _ => rfl) (fun _ _ => rfl) h.1 fun field hmem =>
    writes_field (h.2 field hmem)

theorem writes_colNameList {names : List String} (h : names ≠ []) :
    Writes Nonterminal.colNameList.num (.strs names) (commaList (names.map ident)) :=
  writes_list 38 39 rfl rfl (by decide) (by decide) (fun _ => rfl) (fun _ _ => rfl) h fun name _ => writes_colName name

theorem writes_valueList {vals : List Value} (h : vals ≠ []) :
    Writes Nonterminal.valueList.num (.vals vals) (commaList (vals.map valuePhrase)) :=
  writes_list 44 45 rfl rfl (by decide) (by decide) (fun _ => rfl) (fun _ _ => rfl) h fun val _ => writes_value val

theorem writes_colList {cols : List Col} (h : cols ≠ []) :
    Writes Nonterminal.colList.num (.cols cols) (commaList (cols.map colPhrase)) :=
  writes_list 60 61 rfl rfl (by decide) (by decide) (fun _ => rfl) (fun _ _ => rfl) h fun col _ => writes_col col

theorem writes_tableRefList {refs : List TableRef} (h : refs ≠ []) :
    Writes Nonterminal.tableRefList.num (.tableRefs refs) (commaList (refs.map tableRefPhrase)) :=
  writes_list 83 84 rfl rfl (by decide) (by decide) (fun _ => rfl) (fun _ _ => rfl) h fun ref _ => writes_tableRef ref

theorem exprPhrases_eq (exprs : List BinaryExpr) : exprPhrases exprs = exprs.map exprPhrase := by
  induction exprs with
  | nil => rfl
  | cons expr exprs ih => rw [exprPhrases, ih, List.map_cons]

theorem setClausePhrases_eq (clauses : List SetClause) : setClausePhrases clauses = clauses.map setClausePhrase := by
  induction clauses with
  | nil => rfl
  | cons clause clauses ih => rw [setClausePhrases, ih, List.map_cons]

theorem joinPhrases_eq (joins : List JoinExpr) : joinPhrases joins = joins.map joinPhrase := by
  induction joins with
  | nil => rfl
  | cons join joins ih => rw [joinPhrases, ih, List.map_cons]

theorem writes_whereClause {conds : List BinaryExpr} (hne : conds ≠ [])
    (h : ∀ cond ∈ conds, Writes Nonterminal.condition.num (.cond cond) (exprPhrase cond)) :
    Writes Nonterminal.whereClause.num (.conds conds) (.list [sym .AND] (exprPhrases conds)) := by
  rw [exprPhrases_eq]
  exact writes_list 54 55 rfl rfl (by decide) (by decide) (fun _ => rfl) (fun _ _ => rfl) hne h

theorem condsPhrase_of_ne_nil (keyword : Terminal) {conds : List BinaryExpr} (hne : conds ≠ []) :
    condsPhrase keyword (exprPhrases conds) = .node [sym keyword, .list [sym .AND] (exprPhrases conds)] := by
  cases conds with
  | nil => exact absurd rfl hne
  | cons cond conds => rfl

theorem writes_optWhereClause {conds : List BinaryExpr}
    (h : ∀ cond ∈ conds, Writes Nonterminal.condition.num (.cond cond) (exprPhrase cond)) :
    Writes Nonterminal.optWhereClause.num (.conds conds) (condsPhrase .WHERE (exprPhrases conds)) := by
  by_cases hne : conds = []
  · subst hne
    exact writes_of_rule 52 rfl (by decide) .nil rfl
  · rw [condsPhrase_of_ne_nil .WHERE hne]
    exact writes_of_rule 53 rfl (by decide) (.cons (writes_sym .WHERE) (.cons (writes_whereClause hne h) .nil)) rfl

theorem writes_optHavingClause {having : Option (List BinaryExpr)} (hne : ∀ conds ∈ having, conds ≠ [])
    (h : ∀ conds ∈ having, ∀ cond ∈ conds, Writes Nonterminal.condition.num (.cond cond) (exprPhrase cond)) :
    Writes Nonterminal.optHavingClause.num (.having having) (havingPhrase having) := by
  cases having with
  | none => exact writes_of_rule 116 rfl (by decide) .nil rfl
  | some conds =>
    rw [havingPhrase, condsPhrase_of_ne_nil .HAVING (hne conds rfl)]
    exact writes_of_rule 117 rfl (by decide)
      (.cons (writes_sym .HAVING) (.cons (writes_whereClause (hne conds rfl) (h conds rfl)) .nil)) rfl

theorem writes_setClauses {clauses : List SetClause} (hne : clauses ≠ [])
    (h : ∀ clause ∈ clauses, Writes Nonterminal.expr.num (.node clause.val) (operand 0 clause.val (nodePhrase clause.val))) :
    Writes Nonterminal.setClauses.num (.setClauses clauses) (commaList (setClausePhrases clauses)) := by
  rw [setClausePhrases_eq]
  refine @writes_list _ _ _ _ _ _ 78 79 rfl rfl (by decide) (by decide) SemValue.setClauses SemValue.setClause (fun _ => rfl)
    (fun _ _ => rfl) _ _ hne fun clause hmem => ?_
  have hval := h clause hmem
  obtain ⟨colName, val⟩ := clause
  exact writes_of_rule 80 rfl (by decide) (.cons (writes_colName colName) (.cons (writes_sym .eq) (.cons hval .nil))) rfl

theorem writes_joinExprList {joins : List JoinExpr}
    (h : ∀ join ∈ joins, Writes Nonterminal.joinClause.num (.joinexpr join) (joinPhrase join)) :
    Writes Nonterminal.joinExprList.num (.joinexprs joins) (.chain [] (.node []) (joinPhrases joins)) := by
  have hnil : Writes Nonterminal.joinExprList.num (.joinexprs []) (.node []) := writes_of_rule 85 rfl (by decide) .nil rfl
  have hstep : ∀ xs x g h, Writes Nonterminal.joinExprList.num (.joinexprs xs) g →
      Writes Nonterminal.joinClause.num (.joinexpr x) h →
      Writes Nonterminal.joinExprList.num (.joinexprs (xs ++ [x])) (.node [g, h]) :=
    fun xs x _ _ hxs hx => writes_of_rule 86 rfl (by decide) (.cons hxs (.cons hx .nil)) rfl
  rw [joinPhrases_eq]
  exact Phrase.of_chain hstep hnil (forall₂_map_right h)

theorem writes_optGroupByClause {groupby : Option (List Col)} (h : ∀ cols ∈ groupby, SomeOf Col.WellFormed cols) :
    Writes Nonterminal.optGroupByClause.num (.groupby groupby) (groupPhrase groupby) := by
  cases groupby with
  | none => exact writes_of_rule 114 rfl (by decide) .nil rfl
  | some cols =>
    exact writes_of_rule 115 rfl (by decide)
      (.cons (writes_sym .GROUP) (.cons (writes_sym .BY) (.cons (writes_colList (h cols rfl).1) .nil))) rfl

theorem writes_optLimitClause (limit : Option (BitVec 32)) :
    Writes Nonterminal.optLimitClause.num (.limit limit) (limitPhrase limit) := by
  cases limit with
  | none => exact writes_of_rule 118 rfl (by decide) .nil rfl
  | some val => exact writes_of_rule 119 rfl (by decide) (.cons (writes_sym .LIMIT) (.cons (writes_intToken val) .nil)) rfl

theorem writes_optAscDesc (dir : OrderByDir) : Writes Nonterminal.optAscDesc.num (.orderbyDir dir) (dirPhrase dir) := by
  cases dir with
  | default => exact writes_of_rule 99 rfl (by decide) .nil rfl
  | asc => exact writes_of_unit 97 rfl (by decide) rfl (writes_sym .ASC) rfl
  | desc => exact writes_of_unit 98 rfl (by decide) rfl (writes_sym .DESC) rfl

theorem writes_orderColList {list : List (Col × OrderByDir)} (hne : list ≠ []) :
    Writes Nonterminal.orderColList.num (.orderColList list)
      (commaList (list.map fun item => .node [colPhrase item.1, dirPhrase item.2])) :=
  @writes_list _ _ _ _ _ _ 94 95 rfl rfl (by decide) (by decide) SemValue.orderColList
    (fun item : Col × OrderByDir => .orderColWithDir item.1 item.2) (fun _ => rfl) (fun _ _ => rfl) _ _ hne fun item _ =>
    writes_of_rule 96 rfl (by decide) (.cons (writes_col item.1) (.cons (writes_optAscDesc item.2) .nil)) rfl

theorem writes_optOrderClause {orderby : Option OrderBy} (h : ∀ order ∈ orderby, order.WellFormed) :
    Writes Nonterminal.optOrderClause.num (.orderby orderby) (orderPhrase orderby) := by
  cases orderby with
  | none => exact writes_of_rule 92 rfl (by decide) .nil rfl
  | some order =>
    obtain ⟨hcols, hdirs⟩ := h order rfl
    have hne : order.cols.zip order.orderbyDirs ≠ [] := by
      intro hzip
      have hlength := congrArg List.length hzip
      rw [List.length_zip, hdirs, Nat.min_self, List.length_nil, List.length_eq_zero_iff] at hlength
      exact hcols.1 hlength
    have hclause := writes_of_unit 93 rfl (by decide) rfl (writes_orderColList hne) rfl
    rw [List.map_fst_zip hdirs.ge, List.map_snd_zip hdirs.le] at hclause
    exact writes_of_rule 91 rfl (by decide) (.cons (writes_sym .ORDER) (.cons (writes_sym .BY) (.cons hclause .nil))) rfl

/-! ### Columns and aggregate functions -/

/-- What stands in front of FROM, with its values: columns, aggregate functions, or both. -/
inductive Selects : List Col → List AggFunc → Nonterminal → SemValue → Prop
  | cols (cols : List Col) : Selects cols [] .selector (.cols cols)
  | aggs (aggs : List AggFunc) : Selects [] aggs .aggFuncList (.aggFuncs aggs)
  | mixed (cols : List Col) (aggs : List AggFunc) : Selects cols aggs .mixedSelector (.mixedSelector cols aggs)

/-- An item of a mixed selector. -/
def WritesItem : Col ⊕ AggFunc → Phrase SemValue → Prop
  | .inl col, f => Writes Nonterminal.col.num (.col col) f
  | .inr agg, f => Writes Nonterminal.aggFunc.num (.aggFunc agg) f

def mixedValue (items : List (Col ⊕ AggFunc)) : SemValue :=
  .mixedSelector (items.filterMap Sum.getLeft?) (items.filterMap Sum.getRight?)

theorem writes_mixedSelector_pair {x y : Col ⊕ AggFunc} {f g : Phrase SemValue} (hx : WritesItem x f) (hy : WritesItem y g) :
    Writes Nonterminal.mixedSelector.num (mixedValue [x, y]) (.node [f, sym .comma, g]) := by
  have hcomma := writes_sym .comma
  cases x with
  | inl col =>
    cases y with
    | inl col' => exact writes_of_rule 122 rfl (by decide) (.cons hx (.cons hcomma (.cons hy .nil))) rfl
    | inr agg => exact writes_of_rule 120 rfl (by decide) (.cons hx (.cons hcomma (.cons hy .nil))) rfl
  | inr agg =>
    cases y with
    | inl col => exact writes_of_rule 121 rfl (by decide) (.cons hx (.cons hcomma (.cons hy .nil))) rfl
    | inr agg' => exact writes_of_rule 123 rfl (by decide) (.cons hx (.cons hcomma (.cons hy .nil))) rfl

theorem writes_mixedSelector_snoc {xs : List (Col ⊕ AggFunc)} {x : Col ⊕ AggFunc} {f g : Phrase SemValue}
    (hxs : Writes Nonterminal.mixedSelector.num (mixedValue xs) f) (hx : WritesItem x g) :
    Writes Nonterminal.mixedSelector.num (mixedValue (xs ++ [x])) (.node (f :: ([sym .comma] ++ [g]))) := by
  have hcomma := writes_sym .comma
  unfold mixedValue at hxs ⊢
  rw [List.filterMap_append, List.filterMap_append]
  cases x with
  | inl col =>
    have hcol := writes_of_rule 124 rfl (by decide) (.cons hxs (.cons hcomma (.cons hx .nil))) rfl
    rwa [← List.append_nil (List.filterMap Sum.getRight? xs)] at hcol
  | inr agg =>
    have hagg := writes_of_rule 125 rfl (by decide) (.cons hxs (.cons hcomma (.cons hx .nil))) rfl
    rwa [← List.append_nil (List.filterMap Sum.getLeft? xs)] at hagg

theorem writes_mixedSelector {x y : Col ⊕ AggFunc} {items : List (Col ⊕ AggFunc)} {f : Col ⊕ AggFunc → Phrase SemValue}
    (h : ∀ item ∈ x :: y :: items, WritesItem item (f item)) :
    Writes Nonterminal.mixedSelector.num (mixedValue (x :: y :: items)) (commaList ((x :: y :: items).map f)) :=
  @Phrase.of_chain _ _ _ Nonterminal.mixedSelector.num [sym .comma] mixedValue WritesItem
    (fun _ _ _ _ => writes_mixedSelector_snoc) [x, y] items _ (items.map f)
    (writes_mixedSelector_pair (h x (by simp)) (h y (by simp)))
    (forall₂_map_right fun item hmem => h item (List.mem_cons_of_mem _ (List.mem_cons_of_mem _ hmem)))

theorem writes_mixed {cols : List Col} {aggs : List AggFunc} (hlength : 2 ≤ cols.length + aggs.length)
    (haggs : ∀ agg ∈ aggs, agg.WellFormed) :
    Writes Nonterminal.mixedSelector.num (.mixedSelector cols aggs)
      (commaList (cols.map colPhrase ++ aggs.map aggFuncPhrase)) := by
  have hitems : ∀ item ∈ cols.map Sum.inl ++ aggs.map Sum.inr, WritesItem item (Sum.elim colPhrase aggFuncPhrase item) := by
    intro item hmem
    rcases List.mem_append.mp hmem with hmem | hmem
    · obtain ⟨col, -, rfl⟩ := List.mem_map.mp hmem
      exact writes_col col
    · obtain ⟨agg, hagg, rfl⟩ := List.mem_map.mp hmem
      exact writes_aggFunc (haggs agg hagg)
  have hvalue : mixedValue (cols.map Sum.inl ++ aggs.map Sum.inr) = .mixedSelector cols aggs := by
    simp [mixedValue, List.filterMap_append, List.filterMap_map, Function.comp_def]
  have hphrases : (cols.map Sum.inl ++ aggs.map Sum.inr).map (Sum.elim colPhrase aggFuncPhrase) =
      cols.map colPhrase ++ aggs.map aggFuncPhrase := by
    simp [Function.comp_def]
  have hitemsLength : 2 ≤ (cols.map Sum.inl ++ aggs.map (Sum.inr : AggFunc → Col ⊕ AggFunc)).length := by simpa using hlength
  rw [← hvalue, ← hphrases]
  generalize cols.map Sum.inl ++ aggs.map Sum.inr = items at hitems hitemsLength
  cases items with
  | nil => simp at hitemsLength
  | cons x items =>
    cases items with
    | nil => simp at hitemsLength
    | cons y items => exact writes_mixedSelector hitems

/-- A single column goes through the list of columns, a single aggregate function through the list of aggregate functions, and
everything else is mixed. -/
theorem exists_selects {cols : List Col} {aggs : List AggFunc} (haggs : ∀ agg ∈ aggs, agg.WellFormed) :
    ∃ A val, Selects cols aggs A val ∧ Writes A.num val (selectorPhrase cols aggs) := by
  cases cols with
  | nil =>
    cases aggs with
    | nil => exact ⟨_, _, .cols [], writes_of_unit 81 rfl (by decide) rfl (writes_sym .star) rfl⟩
    | cons agg aggs =>
      cases aggs with
      | nil => exact ⟨_, _, .aggs [agg], writes_of_unit 102 rfl (by decide) rfl (writes_aggFunc (haggs agg (by simp))) rfl⟩
      | cons agg' aggs => exact ⟨_, _, .mixed [] (agg :: agg' :: aggs), writes_mixed (by simp) haggs⟩
  | cons col cols =>
    by_cases hlength : 2 ≤ (col :: cols).length + aggs.length
    · exact ⟨_, _, .mixed (col :: cols) aggs, writes_mixed hlength haggs⟩
    · obtain rfl : cols = [] := by
        rw [← List.length_eq_zero_iff]
        rw [List.length_cons] at hlength
        omega
      obtain rfl : aggs = [] := by
        rw [← List.length_eq_zero_iff]
        rw [List.length_singleton] at hlength
        omega
      have hone : Writes singleColNum (.cols [col]) (colPhrase col) :=
        @writes_of_unit_level _ _ _ _ ⟨singleColNum, [Nonterminal.col.num], some 60⟩ (by decide) rfl (writes_col col) rfl
      have hselector : Writes Nonterminal.selector.num (.cols [col]) (colPhrase col) :=
        @writes_of_unit_level _ _ _ _ ⟨Nonterminal.selector.num, [singleColNum], some 82⟩ (by decide) rfl hone rfl
      exact ⟨_, _, .cols [col], hselector⟩

/-! ### Expressions and statements -/

def levelNum : ℕ → ℕ
  | 0 => Nonterminal.expr.num
  | 1 => termNum
  | _ => factorNum

/-- A factor is a term, and a term is an expression. -/
theorem Writes.lower {a b : ℕ} {node : TreeNode} {f : Phrase SemValue} (hle : b ≤ a) (ha : a ≤ 2)
    (h : Writes (levelNum a) (.node node) f) : Writes (levelNum b) (.node node) f := by
  have hterm : Writes factorNum (.node node) f → Writes termNum (.node node) f := fun h =>
    @writes_of_unit_level _ _ _ _ ⟨termNum, [factorNum], none⟩ (by decide) rfl h rfl
  have hexpr : Writes termNum (.node node) f → Writes Nonterminal.expr.num (.node node) f := fun h =>
    @writes_of_unit_level _ _ _ _ ⟨Nonterminal.expr.num, [termNum], none⟩ (by decide) rfl h rfl
  interval_cases a <;> interval_cases b
  · exact h
  · exact hexpr h
  · exact h
  · exact hexpr (hterm h)
  · exact hterm h
  · exact h

/-- An operand can be read at its level, whether it gets parentheses or not. -/
def WritesOperand (node : TreeNode) : Prop :=
  ∀ level ≤ 2, Writes (levelNum level) (.node node) (operand level node (nodePhrase node))

theorem writesOperand_of_factor {node : TreeNode} (hparens : ∀ level, needsParens level node = false)
    (h : Writes factorNum (.node node) (nodePhrase node)) : WritesOperand node := by
  intro level hlevel
  rw [operand, hparens]
  exact @Writes.lower 2 level _ _ hlevel le_rfl h

theorem writesOperand_dml {node : TreeNode} (hparens : ∀ level, needsParens level node = true)
    (h : Writes Nonterminal.dml.num (.node node) (nodePhrase node)) : WritesOperand node := by
  intro level hlevel
  rw [operand, hparens]
  have hfactor : Writes factorNum (.node node) (parens (nodePhrase node)) :=
    @writes_of_level _ _ _ ⟨factorNum, [Terminal.lparen.num, Nonterminal.dml.num, Terminal.rparen.num], some 71⟩ (by decide)
      (.cons (writes_sym .lparen) (.cons h (.cons (writes_sym .rparen) .nil))) rfl
  exact @Writes.lower 2 level _ _ hlevel le_rfl hfactor

theorem writes_exprPhrase {lhs rhs : TreeNode} {op : SvCompOp} (hop : op.isComparison = false) (hlhs : WritesOperand lhs)
    (hrhs : WritesOperand rhs) :
    Writes (levelNum (opLevel op)) (.node (.binary ⟨lhs, op, rhs⟩)) (exprPhrase ⟨lhs, op, rhs⟩) := by
  have hrule : ∀ r, operatorLevel (levelNum (opLevel op)) (opTerminal op) (levelNum (opLevel op + 1)) r ∈ splitLevels →
      (∀ a b, ruleAction r [.node a, .none, .node b] = some (.node (.binary ⟨a, op, b⟩))) →
      Writes (levelNum (opLevel op)) (.node (.binary ⟨lhs, op, rhs⟩)) (exprPhrase ⟨lhs, op, rhs⟩) := by
    intro r hlevel hact
    rw [exprPhrase, hop]
    have hle : opLevel op + 1 ≤ 2 := by cases op <;> decide
    exact writes_of_level hlevel
      (.cons (hlhs _ (Nat.le_of_succ_le hle)) (.cons (writes_sym _) (.cons (hrhs _ hle) .nil))) (hact lhs rhs)
  cases op with
  | add => exact hrule 72 (by decide) fun _ _ => rfl
  | sub => exact hrule 73 (by decide) fun _ _ => rfl
  | mul => exact hrule 74 (by decide) fun _ _ => rfl
  | div => exact hrule 75 (by decide) fun _ _ => rfl
  | eq | ne | lt | gt | le | ge => cases hop

theorem writesOperand_binary {lhs rhs : TreeNode} {op : SvCompOp} (hop : op.isComparison = false) (hlhs : WritesOperand lhs)
    (hrhs : WritesOperand rhs) : WritesOperand (.binary ⟨lhs, op, rhs⟩) := by
  have hexpr := writes_exprPhrase hop hlhs hrhs
  have hle : opLevel op ≤ 2 := by cases op <;> decide
  intro level hlevel
  rw [operand, needsParens, nodePhrase]
  by_cases hlt : opLevel op < level
  · rw [if_pos (decide_eq_true hlt)]
    have hfactor : Writes factorNum (.node (.binary ⟨lhs, op, rhs⟩)) (parens (exprPhrase ⟨lhs, op, rhs⟩)) :=
      @writes_of_level _ _ _ ⟨factorNum, [Terminal.lparen.num, Nonterminal.expr.num, Terminal.rparen.num], some 77⟩ (by decide)
        (.cons (writes_sym .lparen) (.cons (hexpr.lower (Nat.zero_le _) hle) (.cons (writes_sym .rparen) .nil))) rfl
    exact @Writes.lower 2 level _ _ hlevel le_rfl hfactor
  · rw [if_neg (by rwa [decide_eq_true_iff])]
    exact hexpr.lower (not_lt.mp hlt) hle

theorem writes_condition {lhs rhs : TreeNode} {op : SvCompOp} (hop : op.isComparison = true) (hrhs : WritesOperand rhs)
    (hlhs : (∃ col, lhs = .col col) ∨ ∃ agg : AggFunc, agg.WellFormed ∧ lhs = .aggFunc agg) :
    Writes Nonterminal.condition.num (.cond ⟨lhs, op, rhs⟩) (exprPhrase ⟨lhs, op, rhs⟩) := by
  have hexpr := hrhs 0 (Nat.zero_le 2)
  rw [exprPhrase, hop]
  rcases hlhs with ⟨col, rfl⟩ | ⟨agg, hagg, rfl⟩
  · exact writes_of_rule 50 rfl (by decide) (.cons (writes_col col) (.cons (writes_op hop) (.cons hexpr .nil))) rfl
  · exact writes_of_rule 51 rfl (by decide) (.cons (writes_aggFunc hagg) (.cons (writes_op hop) (.cons hexpr .nil))) rfl

theorem writes_insertStmt (tabName : String) {vals : List Value} (hvals : vals ≠ []) :
    Writes Nonterminal.dml.num (.node (.insertStmt tabName vals)) (nodePhrase (.insertStmt tabName vals)) :=
  writes_of_rule 30 rfl (by decide) (.cons (writes_sym .INSERT) (.cons (writes_sym .INTO) (.cons (writes_tbName tabName)
    (.cons (writes_sym .VALUES) (.cons (writes_sym .lparen) (.cons (writes_valueList hvals)
    (.cons (writes_sym .rparen) .nil))))))) rfl

theorem writes_deleteStmt (tabName : String) {conds : List BinaryExpr}
    (hconds : ∀ cond ∈ conds, Writes Nonterminal.condition.num (.cond cond) (exprPhrase cond)) :
    Writes Nonterminal.dml.num (.node (.deleteStmt tabName conds)) (nodePhrase (.deleteStmt tabName conds)) :=
  writes_of_rule 31 rfl (by decide) (.cons (writes_sym .DELETE) (.cons (writes_sym .FROM) (.cons (writes_tbName tabName)
    (.cons (writes_optWhereClause hconds) .nil)))) rfl

theorem writes_updateStmt (tabName : String) {clauses : List SetClause} (hne : clauses ≠ [])
    (hvals : ∀ clause ∈ clauses, WritesOperand clause.val) {conds : List BinaryExpr}
    (hconds : ∀ cond ∈ conds, Writes Nonterminal.condition.num (.cond cond) (exprPhrase cond)) :
    Writes Nonterminal.dml.num (.node (.updateStmt tabName clauses conds)) (nodePhrase (.updateStmt tabName clauses conds)) :=
  writes_of_rule 32 rfl (by decide) (.cons (writes_sym .UPDATE) (.cons (writes_tbName tabName) (.cons (writes_sym .SET)
    (.cons (writes_setClauses hne fun clause hmem => hvals clause hmem 0 (Nat.zero_le 2))
      (.cons (writes_optWhereClause hconds) .nil))))) rfl

theorem writes_joinClause {right rightAlias : String} {type : JoinType} (htype : type = .inner ∨ type = .semi)
    {conds : List BinaryExpr} (hne : conds ≠ [])
    (hconds : ∀ cond ∈ conds, Writes Nonterminal.condition.num (.cond cond) (exprPhrase cond)) :
    Writes Nonterminal.joinClause.num (.joinexpr ⟨right, rightAlias, conds, type⟩)
      (joinPhrase ⟨right, rightAlias, conds, type⟩) := by
  have hjoin := writes_sym .JOIN
  have href := writes_tableRef ⟨right, rightAlias⟩
  have hon := writes_sym .ON
  have hwhere := writes_whereClause hne hconds
  rcases htype with rfl | rfl
  · exact writes_of_rule 87 rfl (by decide) (.cons hjoin (.cons href (.cons hon (.cons hwhere .nil)))) rfl
  · exact writes_of_rule 89 rfl (by decide)
      (.cons (writes_sym .SEMI) (.cons hjoin (.cons href (.cons hon (.cons hwhere .nil))))) rfl

theorem writes_selectStmt {cols : List Col} {aggs : List AggFunc} {refs : List TableRef} {joins : List JoinExpr}
    {orderby : Option OrderBy} {groupby : Option (List Col)} {having : Option (List BinaryExpr)} (limit : Option (BitVec 32))
    {conds : List BinaryExpr} (haggs : ∀ agg ∈ aggs, agg.WellFormed) (hrefs : refs ≠ [])
    (hconds : ∀ cond ∈ conds, Writes Nonterminal.condition.num (.cond cond) (exprPhrase cond))
    (hjoins : ∀ join ∈ joins, Writes Nonterminal.joinClause.num (.joinexpr join) (joinPhrase join))
    (horderby : ∀ order ∈ orderby, order.WellFormed) (hgroupby : ∀ cols ∈ groupby, SomeOf Col.WellFormed cols)
    (hhaving : ∀ conds ∈ having, conds ≠ [])
    (hhavingConds : ∀ conds ∈ having, ∀ cond ∈ conds, Writes Nonterminal.condition.num (.cond cond) (exprPhrase cond)) :
    Writes Nonterminal.dml.num (.node (.selectStmt cols aggs refs conds joins orderby groupby having limit))
      (nodePhrase (.selectStmt cols aggs refs conds joins orderby groupby having limit)) := by
  have htail := Phrases.cons (writes_sym .FROM) (.cons (writes_tableRefList hrefs) (.cons (writes_joinExprList hjoins)
    (.cons (writes_optWhereClause hconds) (.cons (writes_optGroupByClause hgroupby)
    (.cons (writes_optHavingClause hhaving hhavingConds) (.cons (writes_optOrderClause horderby)
    (.cons (writes_optLimitClause limit) .nil)))))))
  obtain ⟨A, val, hselects, hselector⟩ := @exists_selects cols aggs haggs
  cases hselects with
  | cols => exact writes_of_rule 33 rfl (by decide) (.cons (writes_sym .SELECT) (.cons hselector htail)) rfl
  | aggs => exact writes_of_rule 34 rfl (by decide) (.cons (writes_sym .SELECT) (.cons hselector htail)) rfl
  | mixed => exact writes_of_rule 35 rfl (by decide) (.cons (writes_sym .SELECT) (.cons hselector htail)) rfl

/-- By induction on the shape of the tree: an expression can be an operand, and a statement can be a subquery. -/
theorem writes_dml {node : TreeNode} (h : IsDml node) :
    (∀ level, needsParens level node = true) ∧ Writes Nonterminal.dml.num (.node node) (nodePhrase node) := by
  refine @IsDml.rec (fun node _ => WritesOperand node)
    (fun cond _ => Writes Nonterminal.condition.num (.cond cond) (exprPhrase cond))
    (fun node _ => (∀ level, needsParens level node = true) ∧ Writes Nonterminal.dml.num (.node node) (nodePhrase node))
    (fun join _ => Writes Nonterminal.joinClause.num (.joinexpr join) (joinPhrase join))
    ?value ?col ?aggFunc ?binary ?dml ?condCol ?condAggFunc ?insert ?delete ?update ?select ?join node h
  case value =>
    intro val
    exact writesOperand_of_factor (fun _ => rfl)
      (@writes_of_unit_level _ _ _ _ ⟨factorNum, [Nonterminal.value.num], some 68⟩ (by decide) rfl (writes_value val) rfl)
  case col =>
    intro col _
    exact writesOperand_of_factor (fun _ => rfl)
      (@writes_of_unit_level _ _ _ _ ⟨factorNum, [Nonterminal.col.num], some 69⟩ (by decide) rfl (writes_col col) rfl)
  case aggFunc =>
    intro agg hagg
    exact writesOperand_of_factor (fun _ => rfl)
      (@writes_of_unit_level _ _ _ _ ⟨factorNum, [Nonterminal.aggFunc.num], some 70⟩ (by decide) rfl (writes_aggFunc hagg) rfl)
  case binary =>
    intro op hop lhs _ rhs _ hlhs hrhs
    exact writesOperand_binary hop hlhs hrhs
  case dml =>
    intro node _ hnode
    exact writesOperand_dml hnode.1 hnode.2
  case condCol =>
    intro col _ op hop rhs _ hrhs
    exact writes_condition hop hrhs (.inl ⟨col, rfl⟩)
  case condAggFunc =>
    intro agg hagg op hop rhs _ hrhs
    exact writes_condition hop hrhs (.inr ⟨agg, hagg, rfl⟩)
  case insert =>
    intro tabName _ vals hvals
    exact ⟨fun _ => rfl, writes_insertStmt tabName hvals⟩
  case delete =>
    intro tabName _ conds _ hconds
    exact ⟨fun _ => rfl, writes_deleteStmt tabName hconds⟩
  case update =>
    intro tabName _ clauses hne _ _ conds _ hvals hconds
    exact ⟨fun _ => rfl, writes_updateStmt tabName hne hvals hconds⟩
  case select =>
    intro cols aggs refs conds joins orderby groupby having limit _ haggs hrefs _ _ horderby hgroupby hhaving _ hconds hjoins
      hhavingConds
    exact ⟨fun _ => rfl, writes_selectStmt limit haggs hrefs.1 hconds hjoins horderby hgroupby hhaving hhavingConds⟩
  case join =>
    intro right _ rightAlias conds type htype hne _ hconds
    exact writes_joinClause htype hne hconds

theorem writes_stmt {node : TreeNode} (h : IsStmt node) : Writes Nonterminal.stmt.num (.node node) (nodePhrase node) := by
  have hopen := writes_sym .lparen
  have hclose := writes_sym .rparen
  have hcreate := writes_sym .CREATE
  have hdrop := writes_sym .DROP
  have hshow := writes_sym .SHOW
  have htable := writes_sym .TABLE
  have hindex := writes_sym .INDEX
  -- a statement goes through the rule of its group
  have hdb : ∀ {f}, Writes Nonterminal.dbStmt.num (.node node) f → Writes Nonterminal.stmt.num (.node node) f := fun h =>
    writes_of_unit 7 rfl (by decide) rfl h rfl
  have hddl : ∀ {f}, Writes Nonterminal.ddl.num (.node node) f → Writes Nonterminal.stmt.num (.node node) f := fun h =>
    writes_of_unit 8 rfl (by decide) rfl h rfl
  have htxn : ∀ {f}, Writes Nonterminal.txnStmt.num (.node node) f → Writes Nonterminal.stmt.num (.node node) f := fun h =>
    writes_of_unit 10 rfl (by decide) rfl h rfl
  cases h with
  | showTables => exact hdb (writes_of_rule 16 rfl (by decide) (.cons hshow (.cons (writes_sym .TABLES) .nil)) rfl)
  | txnBegin => exact htxn (writes_of_unit 12 rfl (by decide) rfl (writes_sym .TXN_BEGIN) rfl)
  | txnCommit => exact htxn (writes_of_unit 13 rfl (by decide) rfl (writes_sym .TXN_COMMIT) rfl)
  | txnAbort => exact htxn (writes_of_unit 14 rfl (by decide) rfl (writes_sym .TXN_ABORT) rfl)
  | txnRollback => exact htxn (writes_of_unit 15 rfl (by decide) rfl (writes_sym .TXN_ROLLBACK) rfl)
  | @createTable tabName htab fields hfields =>
    exact hdb (writes_of_rule 17 rfl (by decide) (.cons hcreate (.cons htable (.cons (writes_tbName tabName)
      (.cons hopen (.cons (writes_fieldList hfields) (.cons hclose .nil)))))) rfl)
  | @dropTable tabName htab =>
    exact hdb (writes_of_rule 18 rfl (by decide) (.cons hdrop (.cons htable (.cons (writes_tbName tabName) .nil))) rfl)
  | @descTable tabName htab =>
    exact hdb (writes_of_rule 19 rfl (by decide) (.cons (writes_sym .DESC) (.cons (writes_tbName tabName) .nil)) rfl)
  | @createIndex tabName htab colNames hnames =>
    exact hddl (writes_of_rule 27 rfl (by decide) (.cons hcreate (.cons hindex (.cons (writes_tbName tabName)
      (.cons hopen (.cons (writes_colNameList hnames.1) (.cons hclose .nil)))))) rfl)
  | @dropIndex tabName htab colNames hnames =>
    cases colNames with
    | nil =>
      have hname : Writes Nonterminal.indexName.num (.str tabName) (ident tabName) :=
        writes_of_unit 128 rfl (by decide) rfl (writes_ident tabName) rfl
      exact hdb (writes_of_rule 21 rfl (by decide) (.cons hdrop (.cons hindex (.cons hname (.cons (writes_sym .ON)
        (.cons (writes_tbName tabName) .nil))))) rfl)
    | cons colName colNames =>
      exact hddl (writes_of_rule 28 rfl (by decide) (.cons hdrop (.cons hindex (.cons (writes_tbName tabName)
        (.cons hopen (.cons (writes_colNameList (List.cons_ne_nil _ _)) (.cons hclose .nil)))))) rfl)
  | @showIndex tabName htab =>
    exact hdb (writes_of_rule 22 rfl (by decide) (.cons hshow (.cons hindex (.cons (writes_tbName tabName) .nil))) rfl)
  | setStmt type val =>
    have hval : Writes Terminal.VALUE_BOOL.num (.bool val) (.token ⟨Terminal.VALUE_BOOL.num, .bool val⟩) := Phrase.of_token _
    have hset : ∀ {f}, Writes Nonterminal.setKnobType.num (.setKnobType type) f →
        Writes Nonterminal.stmt.num (.node (.setStmt type val))
          (.node [sym .SET, f, sym .eq, .token ⟨Terminal.VALUE_BOOL.num, .bool val⟩]) := fun h =>
      writes_of_unit 11 rfl (by decide) rfl (writes_of_rule 23 rfl (by decide)
        (.cons (writes_sym .SET) (.cons h (.cons (writes_sym .eq) (.cons hval .nil)))) rfl) rfl
    cases type with
    | enableNestLoop => exact hset (writes_of_unit 100 rfl (by decide) rfl (writes_sym .ENABLE_NESTLOOP) rfl)
    | enableSortMerge => exact hset (writes_of_unit 101 rfl (by decide) rfl (writes_sym .ENABLE_SORTMERGE) rfl)
  | dml hnode => exact writes_of_unit 9 rfl (by decide) rfl (writes_dml hnode).2 rfl

theorem ne_help_of_isStmt {node : TreeNode} (h : IsStmt node) : node ≠ .help := by
  rintro rfl
  cases h with
  | dml hnode => cases hnode

theorem treePhrase_stmt {node : TreeNode} (h : node ≠ .help) (isExplain : Bool) :
    treePhrase (some ⟨node, isExplain⟩) =
      .node ((if isExplain then [sym .EXPLAIN] else []) ++ [nodePhrase node, sym .semi]) := by
  cases isExplain <;> cases node <;> first | rfl | exact absurd rfl h

/-- What is written for a tree is a statement with this tree. -/
theorem writes_tree {tree : Option ParseTree} (h : ∀ t ∈ tree, t.WellFormed) :
    Writes Nonterminal.start.num (.tree tree) (treePhrase tree) := by
  cases tree with
  | none => exact writes_of_unit 5 rfl (by decide) rfl (writes_sym .EXIT) rfl
  | some tree =>
    cases h tree rfl with
    | help => exact writes_of_unit 4 rfl (by decide) rfl (writes_sym .HELP) rfl
    | stmt hnode isExplain =>
      have hstmt := writes_stmt hnode
      have hsemi := writes_sym .semi
      rw [treePhrase_stmt (ne_help_of_isStmt hnode)]
      cases isExplain with
      | false => exact writes_of_rule 2 rfl (by decide) (.cons hstmt (.cons hsemi .nil)) rfl
      | true => exact writes_of_rule 3 rfl (by decide) (.cons (writes_sym .EXPLAIN) (.cons hstmt (.cons hsemi .nil))) rfl

/-- Every well-formed tree comes back from what is written for it, if the stack of the parser is large enough. -/
theorem yyparse_treePhrase {tree : Option ParseTree} (h : ∀ t ∈ tree, t.WellFormed) (hroom : (treePhrase tree).room ≤ 198)
    {lexemes rest : List Lexeme} (hvalid : ∀ lexeme ∈ lexemes ++ rest, lexeme.Valid)
    (hlexemes : lexemes.map Lexeme.token = (treePhrase tree).word) :
    yyparse (lexemes ++ rest) = some (.accepted (.tree tree) (rest.map Lexeme.token)) := by
  refine yyparse_of_derives hvalid ?_
  rw [hlexemes]
  exact (writes_tree h).mono hroom

/-- `DROP TABLE t;` -/
theorem yyparse_treePhrase_dropTable :
    yyparse [⟨262, .none⟩, ⟨261, .none⟩, ⟨306, .str "t"⟩, ⟨59, .none⟩] =
      some (.accepted (.tree (some ⟨.dropTable "t", false⟩)) []) := by
  have htree : ∀ t ∈ some (⟨.dropTable "t", false⟩ : ParseTree), t.WellFormed := by
    rintro _ ⟨⟩
    exact .stmt (.dropTable (by decide)) false
  have hvalid : ∀ lexeme ∈ [⟨262, .none⟩, ⟨261, .none⟩, (⟨306, .str "t"⟩ : Lexeme), ⟨59, .none⟩], lexeme.Valid := by
    simp only [List.forall_mem_cons]
    exact ⟨valid_of_terminal .DROP rfl trivial, valid_of_terminal .TABLE rfl trivial,
      valid_of_terminal .IDENTIFIER rfl ⟨"t", by decide, rfl⟩, valid_of_terminal .semi rfl trivial, List.forall_mem_nil _⟩
  exact @yyparse_treePhrase (some ⟨.dropTable "t", false⟩) htree (by decide)
    [⟨262, .none⟩, ⟨261, .none⟩, ⟨306, .str "t"⟩, ⟨59, .none⟩] [] hvalid rfl

end Rmdb.Ast
