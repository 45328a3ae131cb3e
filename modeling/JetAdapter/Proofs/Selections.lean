import JetAdapter.Proofs.Groups
import JetAdapter.Query.Scope

/-!
# Selections inside each other

A text is made of tokens, of groups in parentheses and of selections in parentheses, each of them with the others
inside (`Phrase`).  `Phrase.taken` takes all aggregates over distinct values at once in the ways that Jet knows: `MIN`
and `MAX` lose their `DISTINCT`, and a selection of nothing but another aggregate is made over a table of the distinct
values, after all that is inside it has been treated likewise.

One of these changes alone, wherever it is made, leaves the outcome of all of them (`Phrase.Agrees`): the new
selection holds the parts of the old one, and what decides about a selection can be seen as well when its parts are
rewritten (`Phrase.emulated?_taken`).
-/

namespace JetAdapter

namespace Leaf

/-- Whether the token is this keyword. -/
def isKeyword (l : Leaf) (k : Keyword) : Bool :=
  l.kind.isKeyword k

/-- Whether the token names an aggregate that needs no `DISTINCT`. -/
def isExtreme (l : Leaf) : Bool :=
  l.isKeyword .MIN || l.isKeyword .MAX

/-- Whether the token names one of the other aggregates. -/
def isCounting (l : Leaf) : Bool :=
  l.isKeyword .COUNT || l.isKeyword .SUM || l.isKeyword .AVG

/-- Whether the token stands between a `SELECT` and what is selected. -/
def isQuantifier (l : Leaf) : Bool :=
  l.isKeyword .DISTINCT || l.isKeyword .ALL

/-- Whether the token is a number. -/
def isNumber (l : Leaf) : Bool :=
  match l.kind with
  | .integer _ | .float _ => true
  | _ => false

/-- Whether the token may stand anywhere: it starts no selection, modifies none and ends none. -/
def isFree (l : Leaf) : Bool :=
  !(l.isKeyword .SELECT || l.isKeyword .TOP || l.isKeyword .UNION || l.isSymbol .semicolon)

variable {l : Leaf} {k : Keyword}

theorem isKeyword_iff : l.isKeyword k = true ↔ l.kind = .keyword k :=
  Kind.isKeyword_iff

theorem isExtreme_of_isCounting (h : l.isCounting = true) : l.isExtreme = false := by
  simp only [isCounting, Bool.or_eq_true, isKeyword_iff] at h
  rcases h with (h | h) | h <;> simp [isExtreme, isKeyword, Kind.isKeyword, h]

/-- Whether the token is no aggregate and no dot, and may stand anywhere. -/
structure IsPlain (l : Leaf) : Prop where
  extreme : l.isExtreme = false
  counting : l.isCounting = false
  dot : l.isSymbol .dot = false
  free : l.isFree = true

theorem isPlain_of_identifier {name : SqlText} (h : l.kind = .identifier name) : l.IsPlain := by
  constructor <;> simp [isExtreme, isCounting, isFree, isKeyword, isSymbol, Kind.isKeyword, Kind.isSymbol, h]

theorem isPlain_of_keyword (h : l.kind = .keyword k) (hk : k ∈ [.AS, .FROM]) : l.IsPlain := by
  simp only [List.mem_cons, List.not_mem_nil, or_false] at hk
  rcases hk with rfl | rfl <;> constructor <;>
    simp [isExtreme, isCounting, isFree, isKeyword, isSymbol, Kind.isKeyword, Kind.isSymbol, h]

/-! The words that a selection over a table is written with. -/

theorem kind_as : (word "AS".toList).kind = .keyword .AS := by decide

theorem kind_from : (word "FROM".toList).kind = .keyword .FROM := by decide

theorem kind_value : (word "distinct_value".toList).kind = .identifier "distinct_value".toList := by decide

theorem kind_rows : (word "distinct_rows".toList).kind = .identifier "distinct_rows".toList := by decide

theorem isKeyword_value (k : Keyword) : (word "distinct_value".toList).isKeyword k = false := by
  rw [isKeyword, kind_value]
  rfl

theorem isPlain_as : IsPlain (word "AS".toList) :=
  isPlain_of_keyword kind_as (by simp)

theorem isPlain_from : IsPlain (word "FROM".toList) :=
  isPlain_of_keyword kind_from (by simp)

theorem isPlain_value : IsPlain (word "distinct_value".toList) :=
  isPlain_of_identifier kind_value

theorem isPlain_rows : IsPlain (word "distinct_rows".toList) :=
  isPlain_of_identifier kind_rows

end Leaf

namespace Distinct

/-! ### Phrases -/

/-- Tokens, groups in parentheses, and selections in parentheses: the `SELECT`, what modifies it, and the rest of it. -/
inductive Phrase
  | nil
  | leaf (token : Leaf) (rest : Phrase)
  | comma (rest : Phrase)
  | group (inside rest : Phrase)
  | select (word : SqlText) (modifiers : List Leaf) (body rest : Phrase)
deriving DecidableEq

/-- The cells of a selection. -/
def selectionCells (word : SqlText) (modifiers : List Leaf) (body : List Cell) : List Cell :=
  .token (.keyword .SELECT) word :: (modifiers.map Leaf.cell ++ body)

/-- The words that may stand between a `SELECT` and what is selected. -/
def areModifiers : List Leaf → Bool
  | [] => true
  | [quantifier] => quantifier.isQuantifier
  | [top, count] => top.isKeyword .TOP && count.isNumber
  | [quantifier, top, count] => quantifier.isQuantifier && (top.isKeyword .TOP && count.isNumber)
  | _ => false

/-- The clauses of a selection in their order. -/
def clauseOrder : List ClauseKind :=
  [.tables, .filter, .groups, .groupFilter, .ordering]

namespace Phrase

/-- The cells of the tokens. -/
def cells : Phrase → List Cell
  | nil => []
  | leaf l rest => l.cell :: rest.cells
  | comma rest => Cell.sign ',' :: rest.cells
  | group inside rest => Cell.sign '(' :: (inside.cells ++ Cell.sign ')' :: rest.cells)
  | select word modifiers body rest =>
      Cell.sign '(' :: (selectionCells word modifiers body.cells ++ Cell.sign ')' :: rest.cells)

/-- One phrase behind another. -/
def append : Phrase → Phrase → Phrase
  | nil, p => p
  | leaf l rest, p => leaf l (rest.append p)
  | comma rest, p => comma (rest.append p)
  | group inside rest, p => group inside (rest.append p)
  | select word modifiers body rest, p => select word modifiers body (rest.append p)

/-- Whether the phrase starts with this keyword. -/
def startsWith (k : Keyword) : Phrase → Bool
  | leaf l _ => l.isKeyword k
  | _ => false

/-- Whether the phrase starts with a call that cannot do without its `DISTINCT`. -/
def startsCall : Phrase → Bool
  | leaf l (group inside _) => l.isCounting && inside.startsWith .DISTINCT
  | _ => false

/-- Whether a comma stands outside of all parentheses. -/
def hasComma : Phrase → Bool
  | nil => false
  | leaf _ rest | group _ rest | select _ _ _ rest => rest.hasComma
  | comma _ => true

/-- The kind of the clause that a token opens before a phrase. -/
def opened? (l : Leaf) (rest : Phrase) : Option ClauseKind :=
  match l.kind.keyword? with
  | some .FROM => some .tables
  | some .WHERE => some .filter
  | some .HAVING => some .groupFilter
  | some .GROUP => if rest.startsWith .BY then some .groups else none
  | some .ORDER => if rest.startsWith .BY then some .ordering else none
  | _ => none

/-- Cuts the body of a selection into what is before the first clause, and the clauses with the words that open them. -/
def cut : Phrase → Phrase × List (ClauseKind × Phrase)
  | nil => (nil, [])
  | leaf l rest =>
    match opened? l rest with
    | none => (leaf l rest.cut.1, rest.cut.2)
    | some kind => (nil, (kind, leaf l rest.cut.1) :: rest.cut.2)
  | comma rest => (comma rest.cut.1, rest.cut.2)
  | group inside rest => (group inside rest.cut.1, rest.cut.2)
  | select word modifiers body rest => (select word modifiers body rest.cut.1, rest.cut.2)

/-- The kinds of the clauses. -/
def kinds (p : Phrase) : List ClauseKind :=
  p.cut.2.map Prod.fst

/-! ### The translation -/

/-- Whether the phrase is nothing or an alias, with or without `AS`. -/
def isAlias : Phrase → Bool
  | nil => true
  | leaf name nil => name.kind.isIdentifier
  | leaf word (leaf _ nil) => word.isKeyword .AS
  | _ => false

/-- Whether the phrase is exactly one expression. -/
def isOneExpression : Phrase → Bool
  | nil => false
  | leaf first rest => !first.isSymbol .star && !rest.hasComma
  | p => !p.hasComma

/-- The filter and the ordering, where there are no other clauses. -/
def parted? : List (ClauseKind × Phrase) → Option (Phrase × Phrase)
  | [] => some (nil, nil)
  | [(.filter, filter)] => some (filter, nil)
  | [(.ordering, ordering)] => some (nil, ordering)
  | [(.filter, filter), (.ordering, ordering)] => some (filter, ordering)
  | _ => none

/-- The alias behind a call, the tables with the filter, and the ordering, where the call can be taken over a table of
the values of its argument: nothing else is selected, the argument is one expression, there are tables, and no groups.
-/
def supported? (argument behind : Phrase) : Option (Phrase × Phrase × Phrase) :=
  match behind.cut with
  | (named, (.tables, leaf _ tables) :: clauses) =>
    if named.isAlias && argument.isOneExpression then
      (parted? clauses).map fun (filter, ordering) => (named, tables.append filter, ordering)
    else none
  | _ => none

/-- The body of the selection of all distinct values. -/
def valuesBody (argument rows : Phrase) : Phrase :=
  argument.append (leaf (.word "AS".toList) (leaf (.word "distinct_value".toList) (leaf (.word "FROM".toList) rows)))

/-- The table of the distinct values, and the ordering behind it. -/
def valuesTable (argument rows ordering : Phrase) : Phrase :=
  select "SELECT".toList [.word "DISTINCT".toList] (valuesBody argument rows)
    (leaf (.word "AS".toList) (leaf (.word "distinct_rows".toList) ordering))

/-- The body of a selection of an aggregate over a table of the distinct values. -/
def overValues (aggregate : Leaf) (argument named rows ordering : Phrase) : Phrase :=
  leaf aggregate (group (leaf (.word "distinct_value".toList) nil)
    (named.append (leaf (.word "FROM".toList) (valuesTable argument rows ordering))))

/-- The body of a selection with the aggregate taken over a table, where this can be done. -/
def emulated? : Phrase → Option Phrase
  | leaf aggregate (group (leaf word argument) behind) =>
    if aggregate.isCounting && word.isKeyword .DISTINCT then
      (supported? argument behind).map fun (named, rows, ordering) => overValues aggregate argument named rows ordering
    else none
  | _ => none

/-- The phrase without a `DISTINCT` at its start. -/
def withoutDistinct : Phrase → Phrase
  | leaf l rest => if l.isKeyword .DISTINCT then rest.withoutDistinct else leaf l rest
  | p => p

/-- A phrase with all aggregates over distinct values taken in the ways that Jet knows; a name behind a dot makes no
call. -/
def taken : Bool → Phrase → Phrase
  | _, nil => nil
  | afterDot, leaf l (group inside rest) =>
    leaf l (group (if l.isExtreme && !afterDot then (taken false inside).withoutDistinct else taken false inside)
      (taken false rest))
  | _, leaf l rest => leaf l (taken (l.isSymbol .dot) rest)
  | _, comma rest => comma (taken false rest)
  | _, group inside rest => group (taken false inside) (taken false rest)
  | _, select word modifiers body rest =>
    select word modifiers ((emulated? (taken false body)).getD (taken false body)) (taken false rest)

/-- Whether some aggregate over distinct values cannot be taken over a table.  A call is excused behind a dot, and
where it starts the body of a selection that can be made over a table. -/
def isRefused : Bool → Phrase → Bool
  | _, nil => false
  | excused, leaf l (group inside rest) => (l.isCounting && inside.startsWith .DISTINCT && !excused) ||
      (isRefused false inside || isRefused false rest)
  | _, leaf l rest => isRefused (l.isSymbol .dot) rest
  | _, comma rest => isRefused false rest
  | _, group inside rest => isRefused false inside || isRefused false rest
  | _, select _ _ body rest => isRefused (emulated? body).isSome body || isRefused false rest

/-- Whether a body that starts with a call which cannot do without its `DISTINCT` has its clauses in their order, each
at most once, and the argument of the call does not start with another such call. -/
def isOrdered : Phrase → Bool
  | leaf aggregate (group (leaf word argument) behind) =>
    !(aggregate.isCounting && word.isKeyword .DISTINCT) ||
      (!argument.startsCall && behind.kinds.isSublist clauseOrder)
  | _ => true

/-- Whether all tokens are where they belong: what modifies a `SELECT` stands behind it and nowhere else. -/
def isProper : Phrase → Bool
  | nil => true
  | leaf l rest => l.isFree && rest.isProper
  | comma rest => rest.isProper
  | group inside rest => inside.isProper && rest.isProper
  | select _ modifiers body rest => areModifiers modifiers &&
      (!modifiers.isEmpty || !(body.startsWith .DISTINCT || body.startsWith .ALL)) && body.isOrdered &&
      body.isProper && rest.isProper

variable {p p' r inside inside' rest rest' body body' argument behind named rows ordering : Phrase} {l : Leaf}
  {f : Bool} {modifiers : List Leaf} {word : SqlText} {k : Keyword}

/-! ### Part by part -/

@[simp] theorem cells_leaf (l : Leaf) (rest : Phrase) : (leaf l rest).cells = l.cell :: rest.cells := rfl

@[simp] theorem cells_comma (rest : Phrase) : (comma rest).cells = Cell.sign ',' :: rest.cells := rfl

@[simp] theorem cells_group (inside rest : Phrase) :
    (group inside rest).cells = Cell.sign '(' :: (inside.cells ++ Cell.sign ')' :: rest.cells) := rfl

@[simp] theorem cells_select (word : SqlText) (modifiers : List Leaf) (body rest : Phrase) :
    (select word modifiers body rest).cells =
      Cell.sign '(' :: (selectionCells word modifiers body.cells ++ Cell.sign ')' :: rest.cells) := rfl

theorem nil_append (r : Phrase) : nil.append r = r := rfl

theorem append_leaf (l : Leaf) (rest r : Phrase) : (leaf l rest).append r = leaf l (rest.append r) := rfl

theorem append_comma (rest r : Phrase) : (comma rest).append r = comma (rest.append r) := rfl

theorem append_group (inside rest r : Phrase) : (group inside rest).append r = group inside (rest.append r) := rfl

theorem append_select (word : SqlText) (modifiers : List Leaf) (body rest r : Phrase) :
    (select word modifiers body rest).append r = select word modifiers body (rest.append r) := rfl

theorem startsWith_leaf (k : Keyword) (l : Leaf) (p : Phrase) : (leaf l p).startsWith k = l.isKeyword k := rfl

theorem startsCall_leaf_group (l : Leaf) (inside rest : Phrase) :
    (leaf l (group inside rest)).startsCall = (l.isCounting && inside.startsWith .DISTINCT) := rfl

theorem cut_leaf (l : Leaf) (rest : Phrase) : (leaf l rest).cut =
    match opened? l rest with
    | none => (leaf l rest.cut.1, rest.cut.2)
    | some kind => (nil, (kind, leaf l rest.cut.1) :: rest.cut.2) := rfl

theorem cut_comma (rest : Phrase) : (comma rest).cut = (comma rest.cut.1, rest.cut.2) := rfl

theorem cut_group (inside rest : Phrase) : (group inside rest).cut = (group inside rest.cut.1, rest.cut.2) := rfl

theorem cut_select (word : SqlText) (modifiers : List Leaf) (body rest : Phrase) :
    (select word modifiers body rest).cut = (select word modifiers body rest.cut.1, rest.cut.2) := rfl

theorem withoutDistinct_leaf (l : Leaf) (p : Phrase) :
    (leaf l p).withoutDistinct = if l.isKeyword .DISTINCT then p.withoutDistinct else leaf l p := rfl

theorem taken_leaf_group (f : Bool) (l : Leaf) (inside rest : Phrase) : taken f (leaf l (group inside rest)) =
    leaf l (group (if l.isExtreme && !f then (taken false inside).withoutDistinct else taken false inside)
      (taken false rest)) := rfl

theorem taken_comma (f : Bool) (rest : Phrase) : taken f (comma rest) = comma (taken false rest) := rfl

theorem taken_group (f : Bool) (inside rest : Phrase) :
    taken f (group inside rest) = group (taken false inside) (taken false rest) := rfl

theorem taken_select (f : Bool) (word : SqlText) (modifiers : List Leaf) (body rest : Phrase) :
    taken f (select word modifiers body rest) =
      select word modifiers ((emulated? (taken false body)).getD (taken false body)) (taken false rest) := rfl

theorem isRefused_nil (f : Bool) : isRefused f nil = false := rfl

theorem isRefused_leaf_group (f : Bool) (l : Leaf) (inside rest : Phrase) : isRefused f (leaf l (group inside rest)) =
    ((l.isCounting && inside.startsWith .DISTINCT && !f) || (isRefused false inside || isRefused false rest)) := rfl

theorem isRefused_comma (f : Bool) (rest : Phrase) : isRefused f (comma rest) = isRefused false rest := rfl

theorem isRefused_group (f : Bool) (inside rest : Phrase) :
    isRefused f (group inside rest) = (isRefused false inside || isRefused false rest) := rfl

theorem isRefused_select (f : Bool) (word : SqlText) (modifiers : List Leaf) (body rest : Phrase) :
    isRefused f (select word modifiers body rest)
      = (isRefused (emulated? body).isSome body || isRefused false rest) := rfl

theorem isProper_nil : nil.isProper = true := rfl

theorem isProper_leaf (l : Leaf) (rest : Phrase) : (leaf l rest).isProper = (l.isFree && rest.isProper) := rfl

theorem isProper_comma (rest : Phrase) : (comma rest).isProper = rest.isProper := rfl

theorem isProper_group (inside rest : Phrase) :
    (group inside rest).isProper = (inside.isProper && rest.isProper) := rfl

theorem isProper_select (word : SqlText) (modifiers : List Leaf) (body rest : Phrase) :
    (select word modifiers body rest).isProper = (areModifiers modifiers &&
      (!modifiers.isEmpty || !(body.startsWith .DISTINCT || body.startsWith .ALL)) && body.isOrdered &&
      body.isProper && rest.isProper) := rfl

/-! ### Cells -/

theorem cells_append (p r : Phrase) : (p.append r).cells = p.cells ++ r.cells := by
  induction p with
  | nil => rfl
  | leaf l rest ih => rw [append_leaf, cells_leaf, ih, cells_leaf, List.cons_append]
  | comma rest ih => rw [append_comma, cells_comma, ih, cells_comma, List.cons_append]
  | group inside rest _ ih => simp [append_group, cells_group, ih]
  | select word modifiers body rest _ ih => simp [append_select, cells_select, ih]

@[simp] theorem append_nil (p : Phrase) : p.append nil = p := by
  induction p with
  | nil => rfl
  | leaf l rest ih => rw [append_leaf, ih]
  | comma rest ih => rw [append_comma, ih]
  | group inside rest _ ih => rw [append_group, ih]
  | select word modifiers body rest _ ih => rw [append_select, ih]

theorem append_assoc (p r s : Phrase) : (p.append r).append s = p.append (r.append s) := by
  induction p with
  | nil => rfl
  | leaf l rest ih => rw [append_leaf, append_leaf, append_leaf, ih]
  | comma rest ih => rw [append_comma, append_comma, append_comma, ih]
  | group inside rest _ ih => rw [append_group, append_group, append_group, ih]
  | select word modifiers body rest _ ih => rw [append_select, append_select, append_select, ih]

theorem balanced_selectionCells {cs : List Cell} (modifiers : List Leaf) (word : SqlText)
    (h : Balanced (Cell.kinds cs)) : Balanced (Cell.kinds (selectionCells word modifiers cs)) := by
  refine .plain nofun nofun ?_
  induction modifiers with
  | nil => exact h
  | cons m ms ih => exact .plain m.left m.right ih

theorem balanced (p : Phrase) : Balanced (Cell.kinds p.cells) := by
  have hgroup : ∀ {cs ds : List Cell}, Balanced (Cell.kinds cs) → Balanced (Cell.kinds ds) →
      Balanced (Cell.kinds (Cell.sign '(' :: (cs ++ Cell.sign ')' :: ds))) := by
    intro cs ds hcs hds
    rw [← List.singleton_append, Cell.kinds_append, Cell.kinds_append]
    exact .group hcs hds
  induction p with
  | nil => exact .nil
  | leaf l rest ih => exact .plain l.left l.right ih
  | comma rest ih => exact .plain nofun nofun ih
  | group inside rest ihInside ih => exact hgroup ihInside ih
  | select word modifiers body rest ihBody ih => exact hgroup (balanced_selectionCells modifiers word ihBody) ih

theorem eq_group_or (p : Phrase) : (∃ inside rest, p = group inside rest) ∨ ∀ inside rest, p ≠ group inside rest := by
  cases p with
  | group inside rest => exact .inl ⟨inside, rest, rfl⟩
  | nil | leaf | comma | select => exact .inr nofun

/-! ### Phrases that are translated -/

theorem taken_leaf_of_ne (h : ∀ inside rest, p ≠ group inside rest) (f : Bool) (l : Leaf) :
    taken f (leaf l p) = leaf l (taken (l.isSymbol .dot) p) := by
  cases p with
  | group inside rest => exact absurd rfl (h inside rest)
  | nil | leaf | comma | select => rfl

theorem taken_leaf_of_not (h : l.isExtreme = false) (f : Bool) (p : Phrase) :
    taken f (leaf l p) = leaf l (taken (l.isSymbol .dot) p) := by
  cases p with
  | group inside rest => simp [taken_leaf_group, taken_group, h]
  | nil | leaf | comma | select => rfl

theorem isRefused_leaf_of_ne (h : ∀ inside rest, p ≠ group inside rest) (f : Bool) (l : Leaf) :
    isRefused f (leaf l p) = isRefused (l.isSymbol .dot) p := by
  cases p with
  | group inside rest => exact absurd rfl (h inside rest)
  | nil | leaf | comma | select => rfl

theorem isRefused_leaf_of_not (h : l.isCounting = false) (f : Bool) (p : Phrase) :
    isRefused f (leaf l p) = isRefused (l.isSymbol .dot) p := by
  cases p with
  | group inside rest => simp [isRefused_leaf_group, isRefused_group, h]
  | nil | leaf | comma | select => rfl

/-- A token at the start stays there. -/
theorem exists_taken_leaf (f : Bool) (l : Leaf) (p : Phrase) : ∃ p', taken f (leaf l p) = leaf l p' := by
  rcases p.eq_group_or with ⟨inside, rest, rfl⟩ | hne
  · exact ⟨_, rfl⟩
  · exact ⟨_, taken_leaf_of_ne hne f l⟩

theorem taken_ne_group (h : ∀ inside rest, p ≠ group inside rest) (f : Bool) :
    ∀ inside rest, taken f p ≠ group inside rest := by
  cases p with
  | leaf l rest =>
    obtain ⟨p', hp'⟩ := exists_taken_leaf f l rest
    rw [hp']
    exact nofun
  | group inside rest => exact absurd rfl (h inside rest)
  | nil | comma | select => exact nofun

theorem taken_eq_nil_iff : taken f p = nil ↔ p = nil := by
  cases p with
  | leaf l rest =>
    obtain ⟨p', hp'⟩ := exists_taken_leaf f l rest
    rw [hp']
    exact ⟨nofun, nofun⟩
  | nil => exact ⟨fun _ => rfl, fun _ => rfl⟩
  | comma | group | select => exact ⟨nofun, nofun⟩

@[simp] theorem startsWith_taken (k : Keyword) (f : Bool) (p : Phrase) : (taken f p).startsWith k = p.startsWith k := by
  cases p with
  | leaf l rest =>
    obtain ⟨p', hp'⟩ := exists_taken_leaf f l rest
    rw [hp']
    rfl
  | nil | comma | group | select => rfl

@[simp] theorem hasComma_taken (f : Bool) (p : Phrase) : (taken f p).hasComma = p.hasComma := by
  fun_induction taken f p with
  | case1 => rfl
  | case2 afterDot l inside rest ihInside ihRest => exact ihRest
  | case3 afterDot l rest hnot ih => exact ih
  | case4 afterDot rest ih => rfl
  | case5 afterDot inside rest ihInside ihRest => exact ihRest
  | case6 afterDot word modifiers body rest ihBody ihRest => exact ihRest

theorem startsCall_leaf_of_ne (h : ∀ inside rest, p ≠ group inside rest) (l : Leaf) :
    (leaf l p).startsCall = false := by
  cases p with
  | group inside rest => exact absurd rfl (h inside rest)
  | nil | leaf | comma | select => rfl

@[simp] theorem startsCall_taken (f : Bool) (p : Phrase) : (taken f p).startsCall = p.startsCall := by
  cases p with
  | leaf l rest =>
    rcases rest.eq_group_or with ⟨inside, rest, rfl⟩ | hne
    · rw [taken_leaf_group, startsCall_leaf_group, startsCall_leaf_group]
      cases hcounting : l.isCounting with
      | false => rfl
      | true => simp [Leaf.isExtreme_of_isCounting hcounting]
    · rw [taken_leaf_of_ne hne, startsCall_leaf_of_ne hne, startsCall_leaf_of_ne (taken_ne_group hne _)]
  | nil | comma | group | select => rfl

@[simp] theorem isAlias_taken (f : Bool) (p : Phrase) : (taken f p).isAlias = p.isAlias := by
  cases p with
  | leaf l rest =>
    cases rest with
    | leaf l' rest' =>
      rw [taken_leaf_of_ne (p := leaf l' rest') nofun]
      rcases rest'.eq_group_or with ⟨inside, rest, rfl⟩ | hne
      · rfl
      · rw [taken_leaf_of_ne hne]
        by_cases hnil : rest' = nil
        · rw [hnil]
          rfl
        · have hfalse : ∀ {s : Phrase}, s ≠ nil → (leaf l (leaf l' s)).isAlias = false := by
            intro s hs
            cases s with
            | nil => exact absurd rfl hs
            | leaf | comma | group | select => rfl
          rw [hfalse hnil, hfalse fun h => hnil (taken_eq_nil_iff.1 h)]
    | nil | comma | group | select => rfl
  | nil | comma | group | select => rfl

@[simp] theorem isOneExpression_taken (f : Bool) (p : Phrase) : (taken f p).isOneExpression = p.isOneExpression := by
  cases p with
  | leaf l rest =>
    obtain ⟨p', hp'⟩ := exists_taken_leaf f l rest
    have hcomma : p'.hasComma = rest.hasComma := by
      have h := hasComma_taken f (leaf l rest)
      rwa [hp'] at h
    rw [hp', isOneExpression, isOneExpression, hcomma]
  | group inside rest => simp [taken_group, isOneExpression, hasComma]
  | select word modifiers body rest => simp [taken_select, isOneExpression, hasComma]
  | nil | comma => rfl

/-! ### What stands behind a phrase -/

/-- Whether the phrase does not start with what a token before it could make a call of, nor with the name of a call. -/
def Apart : Phrase → Prop
  | nil => True
  | leaf l _ => l.isExtreme = false ∧ l.isCounting = false
  | _ => False

theorem Apart.ne_group (h : Apart p) : ∀ inside rest, p ≠ group inside rest := by
  rintro inside rest rfl
  exact h

/-- What stands before an apart phrase does not matter to it. -/
theorem Apart.taken_eq (h : Apart p) (f : Bool) : taken f p = taken false p := by
  cases p with
  | nil => rfl
  | leaf l rest => rw [taken_leaf_of_not h.1, taken_leaf_of_not h.1]
  | comma | group | select => cases h

theorem Apart.isRefused_eq (h : Apart p) (f : Bool) : isRefused f p = isRefused false p := by
  cases p with
  | nil => rfl
  | leaf l rest => rw [isRefused_leaf_of_not h.2, isRefused_leaf_of_not h.2]
  | comma | group | select => cases h

theorem append_ne_group (h : ∀ inside rest, p ≠ group inside rest) (hr : ∀ inside rest, r ≠ group inside rest) :
    ∀ inside rest, p.append r ≠ group inside rest := by
  cases p with
  | nil => exact hr
  | group inside rest => exact absurd rfl (h inside rest)
  | leaf | comma | select => exact nofun

theorem taken_append (hr : Apart r) (f : Bool) (p : Phrase) :
    taken f (p.append r) = (taken f p).append (taken false r) := by
  fun_induction taken f p with
  | case1 => exact hr.taken_eq _
  | case2 afterDot l inside rest ihInside ihRest =>
    show taken afterDot (leaf l (group inside (rest.append r)))
      = leaf l (group _ ((taken false rest).append (taken false r)))
    rw [taken_leaf_group, ihRest]
  | case3 afterDot l rest hnot ih =>
    have hne : ∀ i s, rest ≠ group i s := fun i s h => hnot i s h
    rw [append_leaf, taken_leaf_of_ne (append_ne_group hne hr.ne_group), ih, append_leaf]
  | case4 afterDot rest ih => rw [append_comma, taken_comma, ih, append_comma]
  | case5 afterDot inside rest ihInside ihRest => rw [append_group, taken_group, ihRest, append_group]
  | case6 afterDot word modifiers body rest ihBody ihRest => rw [append_select, taken_select, ihRest, append_select]

theorem isRefused_append (hr : Apart r) (f : Bool) (p : Phrase) :
    isRefused f (p.append r) = (isRefused f p || isRefused false r) := by
  fun_induction isRefused f p with
  | case1 => exact hr.isRefused_eq _
  | case2 excused l inside rest ihInside ihRest => simp [append_leaf, append_group, isRefused_leaf_group, ihRest, Bool.or_assoc]
  | case3 excused l rest hnot ih =>
    have hne : ∀ i s, rest ≠ group i s := fun i s h => hnot i s h
    rw [append_leaf, isRefused_leaf_of_ne (append_ne_group hne hr.ne_group), ih]
  | case4 excused rest ih => rw [append_comma, isRefused_comma, ih]
  | case5 excused inside rest ihInside ihRest => rw [append_group, isRefused_group, ihRest, Bool.or_assoc]
  | case6 excused word modifiers body rest ihBody ihRest => rw [append_select, isRefused_select, ihRest, Bool.or_assoc]

theorem isProper_append (p r : Phrase) : (p.append r).isProper = (p.isProper && r.isProper) := by
  induction p with
  | nil => rfl
  | leaf l rest ih => rw [append_leaf, isProper_leaf, isProper_leaf, ih, Bool.and_assoc]
  | comma rest ih => rw [append_comma, isProper_comma, isProper_comma, ih]
  | group inside rest _ ih => rw [append_group, isProper_group, isProper_group, ih, Bool.and_assoc]
  | select word modifiers body rest _ ih => rw [append_select, isProper_select, isProper_select, ih, ← Bool.and_assoc]

theorem startsCall_append (hr : Apart r) (p : Phrase) : (p.append r).startsCall = p.startsCall := by
  cases p with
  | nil =>
    cases r with
    | leaf l rest =>
      cases rest with
      | group inside rest => rw [nil_append, startsCall_leaf_group, hr.2]; rfl
      | nil | leaf | comma | select => rfl
    | nil | comma | group | select => rfl
  | leaf l rest =>
    rcases rest.eq_group_or with ⟨inside, rest, rfl⟩ | hne
    · rfl
    · rw [append_leaf, startsCall_leaf_of_ne hne, startsCall_leaf_of_ne (append_ne_group hne hr.ne_group)]
  | comma | group | select => rfl

/-! ### Clauses -/

variable {kind : ClauseKind} {c : ClauseKind × Phrase} {cs : List (ClauseKind × Phrase)}

/-- The clauses of a list, one behind the other. -/
def joined (cs : List (ClauseKind × Phrase)) : Phrase :=
  cs.foldr (fun c p => c.2.append p) nil

@[simp] theorem opened?_taken (l : Leaf) (f : Bool) (p : Phrase) : opened? l (taken f p) = opened? l p := by
  unfold opened?
  rw [startsWith_taken]

/-- A clause is opened by a keyword that is no aggregate. -/
theorem opened?_eq_some (h : opened? l p = some kind) :
    l.isExtreme = false ∧ l.isCounting = false ∧ l.isSymbol .dot = false ∧
      (kind = .tables → l.isKeyword .FROM = true) := by
  have hkind : ∀ {k : Keyword}, l.kind.keyword? = some k → l.kind = .keyword k := by
    intro k hk
    cases hl : l.kind with
    | keyword k' =>
      rw [hl] at hk
      rw [Option.some.inj hk]
    | _ =>
      rw [hl] at hk
      cases hk
  have hplain : ∀ {k : Keyword}, l.kind.keyword? = some k → k ∈ [.FROM, .WHERE, .HAVING, .GROUP, .ORDER] →
      l.isExtreme = false ∧ l.isCounting = false ∧ l.isSymbol .dot = false := by
    intro k hk hmem
    simp only [Leaf.isExtreme, Leaf.isCounting, Leaf.isSymbol, Leaf.isKeyword, Kind.isKeyword, Kind.isSymbol, hkind hk]
    simp only [List.mem_cons, List.not_mem_nil, or_false] at hmem
    rcases hmem with rfl | rfl | rfl | rfl | rfl <;> decide
  unfold opened? at h
  split at h
  · next hk =>
    obtain ⟨hextreme, hcounting, hdot⟩ := hplain hk (by simp)
    exact ⟨hextreme, hcounting, hdot, fun _ => Leaf.isKeyword_iff.2 (hkind hk)⟩
  · next hk =>
    cases h
    obtain ⟨hextreme, hcounting, hdot⟩ := hplain hk (by simp)
    exact ⟨hextreme, hcounting, hdot, fun h => by cases h⟩
  · next hk =>
    cases h
    obtain ⟨hextreme, hcounting, hdot⟩ := hplain hk (by simp)
    exact ⟨hextreme, hcounting, hdot, fun h => by cases h⟩
  · next hk =>
    split at h
    · cases h
      obtain ⟨hextreme, hcounting, hdot⟩ := hplain hk (by simp)
      exact ⟨hextreme, hcounting, hdot, fun h => by cases h⟩
    · cases h
  · next hk =>
    split at h
    · cases h
      obtain ⟨hextreme, hcounting, hdot⟩ := hplain hk (by simp)
      exact ⟨hextreme, hcounting, hdot, fun h => by cases h⟩
    · cases h
  · cases h

/-- The clauses start with the words that open them. -/
theorem mem_cut (h : c ∈ p.cut.2) : ∃ l r, c.2 = leaf l r ∧ Apart c.2 ∧ l.isSymbol .dot = false ∧
    (c.1 = .tables → l.isKeyword .FROM = true) := by
  induction p with
  | nil => cases h
  | leaf l rest ih =>
    rw [cut_leaf] at h
    split at h
    · exact ih h
    · next kind hopen =>
      rcases List.mem_cons.1 h with rfl | h
      · obtain ⟨hextreme, hcounting, hdot, htables⟩ := opened?_eq_some hopen
        exact ⟨l, _, rfl, ⟨hextreme, hcounting⟩, hdot, htables⟩
      · exact ih h
  | comma rest ih => exact ih h
  | group inside rest _ ih => exact ih h
  | select word modifiers body rest _ ih => exact ih h

theorem cut_ne_group (h : ∀ inside rest, p ≠ group inside rest) : ∀ inside rest, p.cut.1 ≠ group inside rest := by
  cases p with
  | group inside rest => exact absurd rfl (h inside rest)
  | leaf l rest =>
    rw [cut_leaf]
    split <;> exact nofun
  | nil | comma | select => exact nofun

/-- What was cut is put together again. -/
theorem append_joined_cut (p : Phrase) : p.cut.1.append (joined p.cut.2) = p := by
  induction p with
  | nil => rfl
  | leaf l rest ih =>
    rw [cut_leaf]
    split
    · rw [append_leaf, ih]
    · show (leaf l rest.cut.1).append (joined rest.cut.2) = _
      rw [append_leaf, ih]
  | comma rest ih => rw [cut_comma, append_comma, ih]
  | group inside rest _ ih => rw [cut_group, append_group, ih]
  | select word modifiers body rest _ ih => rw [cut_select, append_select, ih]

/-- The parts of a translation are the translated parts. -/
theorem cut_taken (f : Bool) (p : Phrase) :
    (taken f p).cut = (taken f p.cut.1, p.cut.2.map fun c => (c.1, taken false c.2)) := by
  fun_induction taken f p with
  | case1 => rfl
  | case2 afterDot l inside rest ihInside ihRest =>
    rw [cut_leaf, cut_group, cut_leaf, cut_group, ihRest]
    have hsame : ∀ i r, opened? l (group i r) = opened? l (group inside rest) := fun _ _ => rfl
    rw [hsame]
    split
    · rfl
    · next kind hopen =>
      show (nil, (kind, leaf l (group _ _)) :: _) = (nil, (kind, taken false (leaf l (group inside rest.cut.1))) :: _)
      rw [taken_leaf_group, (opened?_eq_some hopen).1]
      rfl
  | case3 afterDot l rest hnot ih =>
    have hne : ∀ i s, rest ≠ group i s := fun i s h => hnot i s h
    rw [cut_leaf, cut_leaf, opened?_taken, ih]
    split
    · rw [taken_leaf_of_ne (cut_ne_group hne)]
    · rw [List.map_cons, taken_leaf_of_ne (cut_ne_group hne)]
      rfl
  | case4 afterDot rest ih => rw [cut_comma, cut_comma, ih, taken_comma]
  | case5 afterDot inside rest ihInside ihRest => rw [cut_group, cut_group, ihRest, taken_group]
  | case6 afterDot word modifiers body rest ihBody ihRest => rw [cut_select, cut_select, ihRest, taken_select]

@[simp] theorem kinds_taken (f : Bool) (p : Phrase) : (taken f p).kinds = p.kinds := by
  rw [kinds, cut_taken, kinds, List.map_map]
  rfl

theorem isOrdered_leaf_of_ne (h : ∀ inside rest, p ≠ group inside rest) (l : Leaf) : (leaf l p).isOrdered = true := by
  cases p with
  | group inside rest => exact absurd rfl (h inside rest)
  | nil | leaf | comma | select => rfl

theorem isOrdered_of_startsCall (h : p.startsCall = false) : p.isOrdered = true := by
  unfold isOrdered
  split
  · next l l' e behind =>
    have hnot : (l.isCounting && l'.isKeyword .DISTINCT) = false := h
    rw [hnot]
    rfl
  · rfl

@[simp] theorem isOrdered_taken (f : Bool) (p : Phrase) : (taken f p).isOrdered = p.isOrdered := by
  cases p with
  | leaf l rest =>
    rcases rest.eq_group_or with ⟨inside, rest, rfl⟩ | hne
    · cases hcounting : l.isCounting with
      | false =>
        have htrue : ∀ i r, (leaf l (group i r)).isOrdered = true := by
          intro i r
          cases i with
          | leaf l' e => simp [isOrdered, hcounting]
          | nil | comma | group | select => rfl
        rw [taken_leaf_group, htrue, htrue]
      | true =>
        rw [taken_leaf_group, Leaf.isExtreme_of_isCounting hcounting]
        cases inside with
        | leaf l' e =>
          show (leaf l (group (taken false (leaf l' e)) (taken false rest))).isOrdered = _
          cases hword : l'.isKeyword .DISTINCT with
          | false =>
            obtain ⟨e', he'⟩ := exists_taken_leaf false l' e
            rw [he']
            simp [isOrdered, hword]
          | true =>
            have hextreme : l'.isExtreme = false := by
              rw [Leaf.isKeyword_iff] at hword
              simp [Leaf.isExtreme, Leaf.isKeyword, Kind.isKeyword, hword]
            rw [taken_leaf_of_not hextreme]
            simp [isOrdered]
        | nil | comma | group | select => rfl
    · rw [taken_leaf_of_ne hne, isOrdered_leaf_of_ne hne, isOrdered_leaf_of_ne (taken_ne_group hne _)]
  | nil | comma | group | select => rfl

/-! ### Selections over a table -/

/-- The filter and the ordering are the clauses. -/
theorem parted?_eq_some (h : parted? cs = some (p, ordering)) : joined cs = p.append ordering ∧
    (p = nil ∨ ∃ c ∈ cs, c.2 = p) ∧ (ordering = nil ∨ ∃ c ∈ cs, c.2 = ordering) := by
  unfold parted? at h
  split at h
  · cases h
    exact ⟨rfl, .inl rfl, .inl rfl⟩
  · cases h
    exact ⟨rfl, .inr ⟨_, List.mem_cons_self, rfl⟩, .inl rfl⟩
  · cases h
    exact ⟨append_nil _, .inl rfl, .inr ⟨_, List.mem_cons_self, rfl⟩⟩
  · cases h
    refine ⟨?_, .inr ⟨_, List.mem_cons_self, rfl⟩, .inr ⟨_, List.mem_cons_of_mem _ List.mem_cons_self, rfl⟩⟩
    show append _ (append _ nil) = _
    rw [append_nil]
  · cases h

/-- What a supported selection is made of. -/
theorem supported?_eq_some (h : supported? argument behind = some (named, rows, ordering)) :
    ∃ l tables filter, behind.cut.1 = named ∧ named.isAlias = true ∧ argument.isOneExpression = true ∧
      l.isKeyword .FROM = true ∧
      (∃ cs, behind.cut.2 = (.tables, leaf l tables) :: cs ∧ parted? cs = some (filter, ordering)) ∧
      rows = tables.append filter ∧ behind = named.append (leaf l (rows.append ordering)) ∧
      Apart filter ∧ Apart ordering := by
  unfold supported? at h
  split at h
  · next named' l tables cs hcut =>
    split at h
    · next hboth =>
      obtain ⟨⟨filter, ordering'⟩, hparted, heq⟩ := Option.map_eq_some_iff.1 h
      cases heq
      rw [Bool.and_eq_true] at hboth
      obtain ⟨hjoined, hfilter, hordering⟩ := parted?_eq_some hparted
      have hapart : ∀ {x : Phrase}, (x = nil ∨ ∃ c ∈ cs, c.2 = x) → Apart x := by
        rintro x (rfl | ⟨c, hc, rfl⟩)
        · trivial
        · obtain ⟨-, -, -, hx, -⟩ := mem_cut (p := behind) (c := c) (by rw [hcut]; exact List.mem_cons_of_mem _ hc)
          exact hx
      obtain ⟨_, _, heq, -, -, hfrom⟩ := mem_cut (p := behind) (c := (.tables, leaf l tables)) (by
        rw [hcut]; exact List.mem_cons_self)
      cases heq
      refine ⟨l, tables, filter, by rw [hcut], hboth.1, hboth.2, hfrom rfl, ⟨cs, by rw [hcut], hparted⟩, rfl, ?_,
        hapart hfilter, hapart hordering⟩
      have hall := append_joined_cut behind
      rw [hcut] at hall
      rw [append_assoc, ← hjoined]
      exact hall.symm
    · cases h
  · cases h

/-- The parts of a selection are seen as well when they are translated. -/
theorem parted?_map (f : Bool) (cs : List (ClauseKind × Phrase)) :
    parted? (cs.map fun c => (c.1, taken f c.2)) = (parted? cs).map fun c => (taken f c.1, taken f c.2) := by
  match cs with
  | [] => rfl
  | [(kind, x)] => cases kind <;> rfl
  | [(kind, x), (kind', x')] => cases kind <;> cases kind' <;> rfl
  | _ :: _ :: _ :: _ =>
    have hnone : ∀ {a b c : ClauseKind × Phrase} {ds : List (ClauseKind × Phrase)},
        parted? (a :: b :: c :: ds) = none := by
      rintro ⟨_ | _, _⟩ ⟨_ | _, _⟩ ⟨_, _⟩ ds <;> rfl
    rw [List.map_cons, List.map_cons, List.map_cons, hnone, hnone]
    rfl

theorem supported?_taken (f : Bool) (argument behind : Phrase) :
    supported? (taken f argument) (taken false behind) =
      (supported? argument behind).map fun c => (taken false c.1, taken false c.2.1, taken false c.2.2) := by
  have hnot : ∀ {named : Phrase} {cs : List (ClauseKind × Phrase)} {p r : Phrase}, r.cut = (named, cs) →
      (∀ l x ds, cs ≠ (.tables, leaf l x) :: ds) → supported? p r = none := by
    intro named cs p r hcut hne
    unfold supported?
    split
    · next named' l x ds h =>
      rw [hcut] at h
      exact absurd (Prod.mk.inj h).2 (hne l x ds)
    · rfl
  obtain ⟨named, cs, hcut⟩ : ∃ named cs, behind.cut = (named, cs) := ⟨_, _, rfl⟩
  have hcut' := cut_taken false behind
  rw [hcut] at hcut'
  by_cases hfirst : ∃ l x ds, cs = (.tables, leaf l x) :: ds
  · obtain ⟨l, x, ds, rfl⟩ := hfirst
    obtain ⟨_, _, heq, -, hdot, hfrom⟩ := mem_cut (p := behind) (c := (.tables, leaf l x)) (by
      rw [hcut]; exact List.mem_cons_self)
    cases heq
    have hextreme : l.isExtreme = false := by
      have hkind := Leaf.isKeyword_iff.1 (hfrom rfl)
      simp [Leaf.isExtreme, Leaf.isKeyword, Kind.isKeyword, hkind]
    rw [List.map_cons, taken_leaf_of_not hextreme, hdot] at hcut'
    unfold supported?
    rw [hcut, hcut']
    simp only [isAlias_taken, isOneExpression_taken, parted?_map]
    split
    · cases hparted : parted? ds with
      | none => rfl
      | some parts =>
        obtain ⟨filter, ordering⟩ := parts
        obtain ⟨-, hfilter, -⟩ := parted?_eq_some hparted
        have hapart : Apart filter := by
          rcases hfilter with rfl | ⟨c, hc, rfl⟩
          · trivial
          · obtain ⟨-, -, -, hx, -⟩ := mem_cut (p := behind) (c := c) (by rw [hcut]; exact List.mem_cons_of_mem _ hc)
            exact hx
        show some (_, _, _) = some (_, _, _)
        rw [taken_append hapart]
    · rfl
  · rw [hnot hcut fun l x ds h => hfirst ⟨l, x, ds, h⟩, hnot hcut']
    · rfl
    · intro l x ds h
      cases cs with
      | nil => cases h
      | cons c cs =>
        obtain ⟨kind, y⟩ := c
        obtain ⟨hc, -⟩ := List.cons.inj h
        obtain ⟨rfl, hy⟩ := Prod.mk.inj hc
        obtain ⟨l', x', hleaf, -⟩ := mem_cut (p := behind) (c := (.tables, y)) (by rw [hcut]; exact List.mem_cons_self)
        exact hfirst ⟨l', x', cs, by rw [← hleaf]⟩

theorem Apart.of_isPlain (h : l.IsPlain) (p : Phrase) : Apart (leaf l p) :=
  ⟨h.extreme, h.counting⟩

theorem exists_of_startsCall (h : p.startsCall = true) : ∃ l l' argument behind,
    p = leaf l (group (leaf l' argument) behind) ∧ l.isCounting = true ∧ l'.isKeyword .DISTINCT = true := by
  unfold startsCall at h
  split at h
  · next l inside behind =>
    rw [Bool.and_eq_true] at h
    cases inside with
    | leaf l' argument => exact ⟨l, l', argument, behind, rfl, h⟩
    | nil | comma | group | select => cases h.2
  · cases h

/-- A body that does not start with a call stays. -/
theorem emulated?_eq_none (h : p.startsCall = false) : emulated? p = none := by
  unfold emulated?
  split
  · next l l' e behind =>
    rw [if_neg]
    have hnot : (l.isCounting && l'.isKeyword .DISTINCT) = false := h
    simp [hnot]
  · rfl

/-- A body that is made over a table is that of a call with its argument, and of what stands behind it. -/
theorem emulated?_eq_some (h : emulated? body = some body') : ∃ l l' argument behind named rows ordering,
    body = leaf l (group (leaf l' argument) behind) ∧ l.isCounting = true ∧ l'.isKeyword .DISTINCT = true ∧
      supported? argument behind = some (named, rows, ordering) ∧
      body' = overValues l argument named rows ordering := by
  unfold emulated? at h
  split at h
  · next l l' argument behind =>
    split at h
    · next hboth =>
      rw [Bool.and_eq_true] at hboth
      obtain ⟨⟨named, rows, ordering⟩, hsupported, rfl⟩ := Option.map_eq_some_iff.1 h
      exact ⟨l, l', argument, behind, named, rows, ordering, rfl, hboth.1, hboth.2, hsupported, rfl⟩
    · cases h
  · cases h

theorem startsCall_overValues (l : Leaf) (argument named rows ordering : Phrase) :
    (overValues l argument named rows ordering).startsCall = false := by
  rw [overValues, startsCall_leaf_group, startsWith_leaf, Leaf.isKeyword_value, Bool.and_false]

theorem taken_of_isPlain (h : l.IsPlain) (f : Bool) (p : Phrase) : taken f (leaf l p) = leaf l (taken false p) := by
  rw [taken_leaf_of_not h.extreme, h.dot]

theorem isRefused_of_isPlain (h : l.IsPlain) (f : Bool) (p : Phrase) : isRefused f (leaf l p) = isRefused false p := by
  rw [isRefused_leaf_of_not h.counting, h.dot]

theorem startsCall_valuesBody (h : argument.startsCall = false) (rows : Phrase) :
    (valuesBody argument rows).startsCall = false := by
  rw [valuesBody, startsCall_append (.of_isPlain Leaf.isPlain_as _), h]

/-- A selection over a table is translated by its parts. -/
theorem taken_overValues (hstarts : argument.startsCall = false) (f : Bool) (l : Leaf)
    (named rows ordering : Phrase) : taken f (overValues l argument named rows ordering) =
      overValues l (taken false argument) (taken false named) (taken false rows) (taken false ordering) := by
  have hvalue : taken false (leaf (.word "distinct_value".toList) nil) = leaf (.word "distinct_value".toList) nil :=
    taken_of_isPlain Leaf.isPlain_value false nil
  have hbody : taken false (valuesBody argument rows) = valuesBody (taken false argument) (taken false rows) := by
    rw [valuesBody, taken_append (.of_isPlain Leaf.isPlain_as _), taken_of_isPlain Leaf.isPlain_as,
      taken_of_isPlain Leaf.isPlain_value, taken_of_isPlain Leaf.isPlain_from, valuesBody]
  have htable : taken false (valuesTable argument rows ordering)
      = valuesTable (taken false argument) (taken false rows) (taken false ordering) := by
    have hnone : emulated? (valuesBody (taken false argument) (taken false rows)) = none :=
      emulated?_eq_none (startsCall_valuesBody (by rw [startsCall_taken, hstarts]) _)
    rw [valuesTable, taken_select, hbody, hnone, taken_of_isPlain Leaf.isPlain_as, taken_of_isPlain Leaf.isPlain_rows,
      valuesTable]
    rfl
  have hword : (leaf (.word "distinct_value".toList) nil).withoutDistinct = leaf (.word "distinct_value".toList) nil := by
    rw [withoutDistinct_leaf, Leaf.isKeyword_value, if_neg Bool.false_ne_true]
  rw [overValues, taken_leaf_group, hvalue, taken_append (.of_isPlain Leaf.isPlain_from _),
    taken_of_isPlain Leaf.isPlain_from, htable, overValues, hword, ite_self]

theorem isRefused_overValues (hstarts : argument.startsCall = false) (f : Bool) (l : Leaf)
    (named rows ordering : Phrase) : isRefused f (overValues l argument named rows ordering) = (isRefused false named ||
      ((isRefused false argument || isRefused false rows) || isRefused false ordering)) := by
  have hvalue : isRefused false (leaf (.word "distinct_value".toList) nil) = false :=
    isRefused_of_isPlain Leaf.isPlain_value false nil
  have hbody : isRefused false (valuesBody argument rows) = (isRefused false argument || isRefused false rows) := by
    rw [valuesBody, isRefused_append (.of_isPlain Leaf.isPlain_as _), isRefused_of_isPlain Leaf.isPlain_as,
      isRefused_of_isPlain Leaf.isPlain_value, isRefused_of_isPlain Leaf.isPlain_from]
  have hnone : emulated? (valuesBody argument rows) = none := emulated?_eq_none (startsCall_valuesBody hstarts rows)
  have htable : isRefused false (valuesTable argument rows ordering)
      = ((isRefused false argument || isRefused false rows) || isRefused false ordering) := by
    rw [valuesTable, isRefused_select, hnone, Option.isSome_none, hbody, isRefused_of_isPlain Leaf.isPlain_as,
      isRefused_of_isPlain Leaf.isPlain_rows]
  rw [overValues, isRefused_leaf_group, startsWith_leaf, Leaf.isKeyword_value, Bool.and_false, Bool.false_and,
    Bool.false_or, hvalue, Bool.false_or, isRefused_append (.of_isPlain Leaf.isPlain_from _),
    isRefused_of_isPlain Leaf.isPlain_from, htable]

/-- What decides about a selection can be seen as well when its parts are translated. -/
theorem emulated?_taken (h : p.isOrdered = true) : emulated? (taken false p) = (emulated? p).map (taken false) := by
  by_cases hstarts : p.startsCall = true
  · obtain ⟨l, l', e, behind, rfl, hcounting, hword⟩ := exists_of_startsCall hstarts
    have hboth : (l.isCounting && l'.isKeyword .DISTINCT) = true := hstarts
    have hnot : e.startsCall = false := by
      rw [isOrdered, hboth] at h
      simp only [Bool.not_true, Bool.false_or, Bool.and_eq_true, Bool.not_eq_true'] at h
      exact h.1
    have hkind := Leaf.isKeyword_iff.1 hword
    have hextreme : l'.isExtreme = false := by
      simp [Leaf.isExtreme, Leaf.isKeyword, Kind.isKeyword, hkind]
    have hdot : l'.isSymbol .dot = false := by
      simp [Leaf.isSymbol, Kind.isSymbol, hkind]
    rw [taken_leaf_group, Leaf.isExtreme_of_isCounting hcounting, taken_leaf_of_not hextreme]
    show emulated? (leaf l (group (leaf l' (taken _ e)) (taken false behind))) = _
    rw [emulated?, emulated?, if_pos hboth, if_pos hboth, supported?_taken, Option.map_map, Option.map_map, hdot]
    refine congrArg (fun g => Option.map g _) (funext fun c => ?_)
    exact (taken_overValues hnot false l _ _ _).symm
  · rw [Bool.not_eq_true] at hstarts
    rw [emulated?_eq_none hstarts, emulated?_eq_none (by rw [startsCall_taken, hstarts])]
    rfl

/-! ### Changes that leave the outcome -/

/-- Whether a phrase that a change left is proper and comes to the same. -/
structure Agrees (f : Bool) (p p' : Phrase) : Prop where
  isProper : p'.isProper = true
  taken : taken f p' = taken f p
  isRefused : isRefused f p' = isRefused f p

namespace Agrees

theorem refl (h : p.isProper = true) : Agrees f p p :=
  ⟨h, rfl, rfl⟩

theorem trans {p'' : Phrase} (h : Agrees f p p') (h' : Agrees f p' p'') : Agrees f p p'' :=
  ⟨h'.isProper, h'.taken.trans h.taken, h'.isRefused.trans h.isRefused⟩

/-- A group stays one. -/
theorem exists_group (h : Agrees f (group inside rest) p') : ∃ inside' rest', p' = group inside' rest' ∧
    Phrase.taken false inside' = Phrase.taken false inside ∧ Phrase.taken false rest' = Phrase.taken false rest := by
  rcases p'.eq_group_or with ⟨inside', rest', rfl⟩ | hne
  · obtain ⟨hinside, hrest⟩ := group.inj h.taken
    exact ⟨inside', rest', rfl, hinside, hrest⟩
  · exact absurd h.taken (taken_ne_group hne f _ _)

theorem behindLeaf (hl : l.isFree = true) (h : Agrees (l.isSymbol .dot) p p') : Agrees f (leaf l p) (leaf l p') := by
  have hproper : (leaf l p').isProper = true := by rw [isProper_leaf, hl, h.isProper]; rfl
  rcases p.eq_group_or with ⟨inside, rest, rfl⟩ | hne
  · obtain ⟨inside', rest', rfl, hinside, hrest⟩ := h.exists_group
    refine ⟨hproper, by rw [taken_leaf_group, taken_leaf_group, hinside, hrest], ?_⟩
    have hrefused := h.isRefused
    rw [isRefused_group, isRefused_group] at hrefused
    rw [isRefused_leaf_group, isRefused_leaf_group, hrefused, ← startsWith_taken .DISTINCT false inside', hinside,
      startsWith_taken]
  · have hne' : ∀ inside rest, p' ≠ group inside rest := by
      rintro inside rest rfl
      exact taken_ne_group hne _ _ _ h.taken.symm
    exact ⟨hproper, by rw [taken_leaf_of_ne hne', taken_leaf_of_ne hne, h.taken],
      by rw [isRefused_leaf_of_ne hne', isRefused_leaf_of_ne hne, h.isRefused]⟩

theorem behindComma (h : Agrees false p p') : Agrees f (comma p) (comma p') :=
  ⟨h.isProper, by rw [taken_comma, taken_comma, h.taken], h.isRefused⟩

theorem inGroup (hr : rest.isProper = true) (h : Agrees false inside inside') :
    Agrees f (group inside rest) (group inside' rest) :=
  ⟨by rw [isProper_group, h.isProper, hr]; rfl, by rw [taken_group, taken_group, h.taken],
    by rw [isRefused_group, isRefused_group, h.isRefused]⟩

theorem behindGroup (hi : inside.isProper = true) (h : Agrees false rest rest') :
    Agrees f (group inside rest) (group inside rest') :=
  ⟨by rw [isProper_group, h.isProper, hi]; rfl, by rw [taken_group, taken_group, h.taken],
    by rw [isRefused_group, isRefused_group, h.isRefused]⟩

theorem behindSelect (hp : (select word modifiers body rest).isProper = true) (h : Agrees false rest rest') :
    Agrees f (select word modifiers body rest) (select word modifiers body rest') := by
  refine ⟨?_, by rw [taken_select, taken_select, h.taken], by rw [isRefused_select, isRefused_select, h.isRefused]⟩
  rw [isProper_select, Bool.and_eq_true] at hp ⊢
  exact ⟨hp.1, h.isProper⟩

/-- What agrees as the whole of a selection agrees with anything behind it. -/
theorem inSelect (hr : rest.isProper = true)
    (h : Agrees false (select word modifiers body nil) (select word modifiers body' nil)) :
    Agrees f (select word modifiers body rest) (select word modifiers body' rest) := by
  have hproper := h.isProper
  have htaken := h.taken
  have hrefused := h.isRefused
  simp only [isProper_select, isProper_nil, Bool.and_true] at hproper
  simp only [taken_select, select.injEq, true_and, and_true] at htaken
  simp only [isRefused_select, isRefused_nil, Bool.or_false] at hrefused
  exact ⟨by simp only [isProper_select, hproper, hr, Bool.and_true],
    by rw [taken_select, taken_select, htaken], by rw [isRefused_select, isRefused_select, hrefused]⟩

/-- A change in the body of a selection that does not start with a call. -/
theorem inBody (hp : (select word modifiers body nil).isProper = true) (hcall : body.startsCall = false)
    (h : Agrees false body body') :
    Agrees false (select word modifiers body nil) (select word modifiers body' nil) := by
  simp only [isProper_select, Bool.and_eq_true, isProper_nil, Bool.and_true] at hp
  obtain ⟨⟨⟨hm, hfirst⟩, hordered⟩, -⟩ := hp
  have hordered' : body'.isOrdered = true := by rw [← isOrdered_taken false body', h.taken, isOrdered_taken, hordered]
  have hstarts : ∀ k, body'.startsWith k = body.startsWith k := fun k => by
    rw [← startsWith_taken k false body', h.taken, startsWith_taken]
  have hcall' : body'.startsCall = false := by rw [← startsCall_taken false body', h.taken, startsCall_taken, hcall]
  refine ⟨?_, by simp only [taken_select, h.taken], ?_⟩
  · simp only [isProper_select, hm, hstarts, hfirst, hordered', h.isProper, isProper_nil, Bool.and_true]
  · simp only [isRefused_select, emulated?_eq_none hcall, emulated?_eq_none hcall']
    exact congrArg (· || false) h.isRefused

/-- An aggregate that needs no `DISTINCT` agrees with itself without it. -/
theorem of_isExtreme {l' : Leaf} (hl : l.isExtreme = true) (hword : l'.isKeyword .DISTINCT = true)
    (hp : (leaf l (group (leaf l' argument) rest)).isProper = true) :
    Agrees false (leaf l (group (leaf l' argument) rest)) (leaf l (group argument rest)) := by
  have hkind := Leaf.isKeyword_iff.1 hword
  have hnot : l'.isExtreme = false ∧ l'.isCounting = false ∧ l'.isSymbol .dot = false := by
    simp [Leaf.isExtreme, Leaf.isCounting, Leaf.isSymbol, Leaf.isKeyword, Kind.isKeyword, Kind.isSymbol, hkind]
  have hcounting : l.isCounting = false := by
    cases h : l.isCounting with
    | false => rfl
    | true =>
      rw [Leaf.isExtreme_of_isCounting h] at hl
      cases hl
  refine ⟨?_, ?_, ?_⟩
  · simp only [isProper_leaf, isProper_group, Bool.and_eq_true] at hp ⊢
    exact ⟨hp.1, hp.2.1.2, hp.2.2⟩
  · rw [taken_leaf_group, taken_leaf_group, hl, taken_leaf_of_not hnot.1, hnot.2.2]
    simp [withoutDistinct, hword]
  · rw [isRefused_leaf_of_not hcounting, isRefused_leaf_of_not hcounting, isRefused_group, isRefused_group,
      isRefused_leaf_of_not hnot.2.1, hnot.2.2]

/-- A selection over a table agrees with the one it is made of. -/
theorem of_emulated? (hp : (select word modifiers body nil).isProper = true) (h : emulated? body = some body') :
    Agrees false (select word modifiers body nil) (select word modifiers body' nil) := by
  simp only [isProper_select, Bool.and_eq_true, isProper_nil, Bool.and_true] at hp
  obtain ⟨⟨⟨hm, hfirst⟩, hordered⟩, hbody⟩ := hp
  have htaken := emulated?_taken hordered
  obtain ⟨l, l', argument, behind, named, rows, ordering, rfl, hl, hword, hsupported, rfl⟩ := emulated?_eq_some h
  obtain ⟨opener, tables, filter, -, -, -, hfrom, -, -, rfl, -, hordering⟩ := supported?_eq_some hsupported
  rw [Leaf.isKeyword_iff] at hfrom hword
  have hstarts : argument.startsCall = false := by
    rw [isOrdered, hl, Leaf.isKeyword_iff.2 hword] at hordered
    simp only [Bool.and_self, Bool.not_true, Bool.false_or, Bool.and_eq_true, Bool.not_eq_true'] at hordered
    exact hordered.1
  have hcall := startsCall_overValues l argument named rows ordering
  have hapart : Apart (leaf opener (rows.append ordering)) := by
    simp [Apart, Leaf.isExtreme, Leaf.isCounting, Leaf.isKeyword, Kind.isKeyword, hfrom]
  refine ⟨?_, ?_, ?_⟩
  · simp only [isProper_leaf, isProper_group, isProper_append, Bool.and_eq_true] at hbody
    obtain ⟨hl, ⟨-, hargument⟩, hnamed, -, hrows, hordering'⟩ := hbody
    have hvalues : (valuesBody argument rows).isOrdered = true :=
      isOrdered_of_startsCall (startsCall_valuesBody hstarts rows)
    have hfree : (Leaf.word "AS".toList).isFree = true ∧ (Leaf.word "FROM".toList).isFree = true ∧
        (Leaf.word "distinct_value".toList).isFree = true ∧ (Leaf.word "distinct_rows".toList).isFree = true :=
      ⟨Leaf.isPlain_as.free, Leaf.isPlain_from.free, Leaf.isPlain_value.free, Leaf.isPlain_rows.free⟩
    have htable : (valuesTable argument rows ordering).isProper = true := by
      rw [valuesTable, isProper_select, hvalues]
      simp only [valuesBody, isProper_append, isProper_leaf, hargument, hrows, hordering', hfree]
      rfl
    have hbody' : (overValues l argument named rows ordering).isProper = true := by
      simp only [overValues, isProper_leaf, isProper_group, isProper_nil, isProper_append, hl, hnamed, htable, hfree, Bool.and_self]
    simp only [isProper_select, isProper_nil, hm, hbody', isOrdered_of_startsCall hcall, Bool.and_true, Bool.true_and]
    rwa [overValues, startsWith_leaf, startsWith_leaf]
  · have hnone : emulated? (Phrase.taken false (overValues l argument named rows ordering)) = none :=
      emulated?_eq_none (by rw [startsCall_taken, hcall])
    rw [taken_select, taken_select, htaken, h, hnone]
    rfl
  · have hopener : opener.isCounting = false ∧ opener.isSymbol .dot = false := by
      simp [Leaf.isCounting, Leaf.isSymbol, Leaf.isKeyword, Kind.isKeyword, Kind.isSymbol, hfrom]
    have hdistinct : l'.isCounting = false ∧ l'.isSymbol .dot = false := by
      simp [Leaf.isCounting, Leaf.isSymbol, Leaf.isKeyword, Kind.isKeyword, Kind.isSymbol, hword]
    have hold : Phrase.isRefused true
        (leaf l (group (leaf l' argument) (named.append (leaf opener (rows.append ordering)))))
        = (Phrase.isRefused false argument || (Phrase.isRefused false named || (Phrase.isRefused false rows
          || Phrase.isRefused false ordering))) := by
      rw [isRefused_leaf_group, isRefused_leaf_of_not hdistinct.1, hdistinct.2, isRefused_append hapart,
        isRefused_leaf_of_not hopener.1, hopener.2, isRefused_append hordering]
      simp
    rw [isRefused_select, isRefused_select, h, emulated?_eq_none hcall, Option.isSome_some, Option.isSome_none, hold,
      isRefused_overValues hstarts]
    ac_rfl

end Agrees

end Phrase

end Distinct

end JetAdapter
