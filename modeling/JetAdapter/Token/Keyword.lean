import JetAdapter.Text.Basic

/-!
# Keywords

The words of SQL that are not names.  Only those are listed that some part of the grammar here looks at.
-/

namespace JetAdapter

/-- A keyword of SQL, by its spelling. -/
inductive Keyword
  | SELECT | DISTINCT | ALL | TOP | FROM | WHERE | GROUP | HAVING | ORDER | BY | ASC | DESC
  | UNION | JOIN | INNER | LEFT | RIGHT | FULL | OUTER | CROSS | ON | AS | CASE | WHEN | THEN
  | ELSE | END | CAST | AND | OR | NOT | IN | IS | NULL | EXISTS | BETWEEN | LIKE | COUNT | SUM
  | AVG | MIN | MAX | INSERT | INTO | VALUES | UPDATE | SET | DELETE
deriving DecidableEq, Repr

namespace Keyword

/-- Every keyword, each once. -/
def all : List Keyword :=
  [.SELECT, .DISTINCT, .ALL, .TOP, .FROM, .WHERE, .GROUP, .HAVING, .ORDER, .BY, .ASC, .DESC,
   .UNION, .JOIN, .INNER, .LEFT, .RIGHT, .FULL, .OUTER, .CROSS, .ON, .AS, .CASE, .WHEN, .THEN,
   .ELSE, .END, .CAST, .AND, .OR, .NOT, .IN, .IS, .NULL, .EXISTS, .BETWEEN, .LIKE, .COUNT,
   .SUM, .AVG, .MIN, .MAX, .INSERT, .INTO, .VALUES, .UPDATE, .SET, .DELETE]

/-- The spelling in capital letters. -/
def spelling : Keyword → SqlText
  | .SELECT => "SELECT".toList
  | .DISTINCT => "DISTINCT".toList
  | .ALL => "ALL".toList
  | .TOP => "TOP".toList
  | .FROM => "FROM".toList
  | .WHERE => "WHERE".toList
  | .GROUP => "GROUP".toList
  | .HAVING => "HAVING".toList
  | .ORDER => "ORDER".toList
  | .BY => "BY".toList
  | .ASC => "ASC".toList
  | .DESC => "DESC".toList
  | .UNION => "UNION".toList
  | .JOIN => "JOIN".toList
  | .INNER => "INNER".toList
  | .LEFT => "LEFT".toList
  | .RIGHT => "RIGHT".toList
  | .FULL => "FULL".toList
  | .OUTER => "OUTER".toList
  | .CROSS => "CROSS".toList
  | .ON => "ON".toList
  | .AS => "AS".toList
  | .CASE => "CASE".toList
  | .WHEN => "WHEN".toList
  | .THEN => "THEN".toList
  | .ELSE => "ELSE".toList
  | .END => "END".toList
  | .CAST => "CAST".toList
  | .AND => "AND".toList
  | .OR => "OR".toList
  | .NOT => "NOT".toList
  | .IN => "IN".toList
  | .IS => "IS".toList
  | .NULL => "NULL".toList
  | .EXISTS => "EXISTS".toList
  | .BETWEEN => "BETWEEN".toList
  | .LIKE => "LIKE".toList
  | .COUNT => "COUNT".toList
  | .SUM => "SUM".toList
  | .AVG => "AVG".toList
  | .MIN => "MIN".toList
  | .MAX => "MAX".toList
  | .INSERT => "INSERT".toList
  | .INTO => "INTO".toList
  | .VALUES => "VALUES".toList
  | .UPDATE => "UPDATE".toList
  | .SET => "SET".toList
  | .DELETE => "DELETE".toList

/-- The keyword that a word is in any case of letters. -/
def ofWord? (word : SqlText) : Option Keyword :=
  all.find? fun k => Text.sameWord k.spelling word

/-- Whether the keyword names an aggregate function. -/
def isAggregate : Keyword → Bool
  | .COUNT | .SUM | .AVG | .MIN | .MAX => true
  | _ => false

/-- A keyword is found by its own spelling. -/
theorem ofWord?_spelling (k : Keyword) : ofWord? k.spelling = some k := by
  cases k <;> decide

end Keyword

end JetAdapter
