import Mathlib.Data.List.Forall2
import JetAdapter.Proofs.Balance
import JetAdapter.Rule.OrderAlias

/-!
# Selections that order by aliases

A text of selections is made of tokens, of groups in parentheses and of selections, one at most in each group (`Nest`).
Every token keeps the gap before it, for the gaps inside an expression decide whether it is spelled like its alias.

`Nest.spelled` writes the expressions in the place of their aliases, in the selections that are chosen by their number in
the order of their `SELECT`s.  To choose some selections first and others in a second run is to choose them all at once
(`Nest.spelled_spelled`): an expression that is copied holds no `SELECT`, so no copy comes between the runs, and an
expression that holds one is copied in neither.
-/

namespace JetAdapter

namespace Lexeme

/-- Whether the token is this keyword. -/
def isKeyword (l : Lexeme) (k : Keyword) : Bool :=
  l.kind.isKeyword k

/-- Whether the token is this operator or delimiter. -/
def isSymbol (l : Lexeme) (s : Symbol) : Bool :=
  l.kind.isSymbol s

/-- Whether the token may stand anywhere: it is sound and no parenthesis, starts no selection and ends none. -/
def isFree (l : Lexeme) : Bool :=
  !(l.kind.isFault || l.isSymbol .leftParen || l.isSymbol .rightParen || l.isSymbol .semicolon || l.isKeyword .SELECT ||
    l.isKeyword .UNION)

/-- Whether the token says in which direction is ordered. -/
def isDirection (l : Lexeme) : Bool :=
  l.isKeyword .ASC || l.isKeyword .DESC

/-- Whether the token stands between a `SELECT` and what is selected. -/
def isQuantifier (l : Lexeme) : Bool :=
  l.isKeyword .DISTINCT || l.isKeyword .ALL

end Lexeme

namespace OrderAlias

/-! ### Nests -/

/-- Tokens, groups in parentheses, and a selection that reaches to the end of its group: the `SELECT`, what modifies it,
the select list, the clauses up to the ordering, the words that open the ordering, and its items. -/
inductive Nest
  | nil
  | leaf (token : Lexeme) (rest : Nest)
  | group (opening : Lexeme) (inside : Nest) (closing : Lexeme) (rest : Nest)
  | select (word : Lexeme) (modifiers : List Lexeme) (list clauses : Nest) (words : List Lexeme) (items : Nest)
deriving DecidableEq

namespace Nest

/-- The tokens in their order. -/
def lexemes : Nest → List Lexeme
  | nil => []
  | leaf l rest => l :: rest.lexemes
  | group opening inside closing rest => opening :: (inside.lexemes ++ closing :: rest.lexemes)
  | select word modifiers list clauses words items =>
    word :: (modifiers ++ (list.lexemes ++ (clauses.lexemes ++ (words ++ items.lexemes))))

/-- The number of selections. -/
def selects : Nest → Nat
  | nil => 0
  | leaf _ rest => rest.selects
  | group _ inside _ rest => inside.selects + rest.selects
  | select _ _ list clauses _ items => 1 + list.selects + clauses.selects + items.selects

/-- Whether there is no selection outside of all groups. -/
def isPlain : Nest → Bool
  | nil => true
  | leaf _ rest | group _ _ _ rest => rest.isPlain
  | select .. => false

/-- One nest behind another; nothing stands behind a selection. -/
def append : Nest → Nest → Nest
  | nil, r => r
  | leaf l rest, r => leaf l (rest.append r)
  | group opening inside closing rest, r => group opening inside closing (rest.append r)
  | select word modifiers list clauses words items, _ => select word modifiers list clauses words items

/-- The stretches between the commas outside of all groups. -/
def pieces : Nest → List Nest
  | nil => [nil]
  | leaf l rest => if l.isSymbol .comma then nil :: rest.pieces else rest.pieces.modifyHead (leaf l)
  | group opening inside closing rest => rest.pieces.modifyHead (group opening inside closing)
  | select word modifiers list clauses words items => [select word modifiers list clauses words items]

/-- Whether the nest starts with this keyword. -/
def startsWith (k : Keyword) : Nest → Bool
  | leaf l _ => l.isKeyword k
  | _ => false

/-- The kind of the clause that a token opens, if a `BY` follows it or not. -/
def opened? (l : Lexeme) (byFollows : Bool) : Option ClauseKind :=
  match l.kind.keyword? with
  | some .FROM => some .tables
  | some .WHERE => some .filter
  | some .HAVING => some .groupFilter
  | some .GROUP => if byFollows then some .groups else none
  | some .ORDER => if byFollows then some .ordering else none
  | _ => none

/-- The kinds of the clauses that are opened outside of all groups. -/
def kinds : Nest → List ClauseKind
  | nil => []
  | leaf l rest => (opened? l (rest.startsWith .BY)).toList ++ rest.kinds
  | group _ _ _ rest => rest.kinds
  | select .. => []

/-- Whether the nest, if it is not empty, starts with a clause. -/
def startsClause : Nest → Bool
  | nil => true
  | leaf l rest => (opened? l (rest.startsWith .BY)).isSome
  | _ => false

/-- Whether what stands between a `SELECT` and its list modifies it, and nothing in the list does. -/
def areModifiers : List Lexeme → Nest → Bool
  | [], list => !(list.startsWith .DISTINCT || list.startsWith .ALL || list.startsWith .TOP)
  | [quantifier], list => quantifier.isQuantifier && !list.startsWith .TOP
  | [top, count], _ => top.isKeyword .TOP && count.isFree && count.kind.keyword?.isNone
  | [quantifier, top, count], _ =>
    quantifier.isQuantifier && (top.isKeyword .TOP && count.isFree && count.kind.keyword?.isNone)
  | _, _ => false

/-- Whether the words open an ordering, or there is none. -/
def areWords : List Lexeme → Nest → Bool
  | [], items => items = nil
  | [order, by_], _ => order.isKeyword .ORDER && by_.isKeyword .BY
  | _, _ => false

/-- Whether the parts of a selection are what they are said to be: there are no clauses in the list and in the ordering,
and no ordering among the clauses before it. -/
def isSelection (word : Lexeme) (modifiers : List Lexeme) (list clauses : Nest) (words : List Lexeme) (items : Nest) :
    Bool :=
  word.isKeyword .SELECT && areModifiers modifiers list && (list.isPlain && list.kinds.isEmpty) &&
    (clauses.isPlain && clauses.startsClause && !clauses.kinds.contains .ordering) &&
    (areWords words items && items.isPlain && items.kinds.isEmpty)

/-- Whether all tokens are where they belong. -/
def isProper : Nest → Bool
  | nil => true
  | leaf l rest => l.isFree && rest.isProper
  | group opening inside closing rest =>
    opening.isSymbol .leftParen && closing.isSymbol .rightParen && inside.isProper && rest.isProper
  | select word modifiers list clauses words items =>
    isSelection word modifiers list clauses words items && list.isProper && clauses.isProper && items.isProper

/-! ### Aliases -/

/-- Whether the nest is this alias. -/
def isAlias (name : SqlText) : Nest → Bool
  | leaf l nil => l.kind.name?.any (Text.sameWord · name)
  | _ => false

/-- What stands before an `AS` and this alias at the end. -/
def named? (name : SqlText) : Nest → Option Nest
  | leaf l rest =>
    if l.isKeyword .AS && rest.isAlias name then some nil else (rest.named? name).map (leaf l)
  | group opening inside closing rest => (rest.named? name).map (group opening inside closing)
  | _ => none

/-- The expression of an item `expression AS alias` with this alias. -/
def aliased? (name : SqlText) (item : Nest) : Option Nest :=
  (item.named? name).filter fun e => e ≠ nil

/-- The text from the first spelling to the last. -/
def source (p : Nest) : SqlText :=
  match p.lexemes with
  | [] => []
  | l :: ls => l.text ++ Lexeme.spell ls

/-- Whether an expression may stand in the place of a name: it holds no marker and no `SELECT` and is not spelled like
the name. -/
def isCopied (name : SqlText) (e : Nest) : Bool :=
  !(e.lexemes.any fun l => l.kind.isMarker) && e.selects == 0 && !Text.sameWord e.source name

/-- The nest behind another gap. -/
def regap (g : SqlText) : Nest → Nest
  | nil => nil
  | leaf l rest => leaf { l with gap := g } rest
  | group opening inside closing rest => group { opening with gap := g } inside closing rest
  | select word modifiers list clauses words items => select { word with gap := g } modifiers list clauses words items

/-- What is written in the place of a token: the expression of the first item of a select list that has this alias. -/
def copy? (list : List Nest) (l : Lexeme) : Option Nest := do
  let name ← l.kind.name?
  let e ← list.findSome? (aliased? name)
  if isCopied name e then some (e.regap l.gap) else none

/-! ### The translation -/

/-- Whether a piece ends before the nest. -/
def endsPiece : Nest → Bool
  | nil => true
  | leaf l _ => l.isSymbol .comma
  | _ => false

/-- Whether a piece, apart from a direction, ends before the nest. -/
def endsName : Nest → Bool
  | leaf l rest => l.isSymbol .comma || (l.isDirection && rest.endsPiece)
  | p => p.endsPiece

/-- What stands in the place of a token, and what is behind it. -/
def written (l : Lexeme) (copied : Option Nest) (rest : Nest) : Nest :=
  match copied with
  | some e => e.append rest
  | none => leaf l rest

/-- The nest with the aliases spelled out in the orderings of the chosen selections, the first of which has the number
`n`.  Outside of all groups stand the items of an ordering, and the names among them are aliases of the `list`; with
`start` one of the items starts here. -/
def spelled (on : Nat → Bool) : List Nest → Bool → Nat → Nest → Nest
  | _, _, _, nil => nil
  | list, start, n, leaf l rest =>
    written l (if start && rest.endsName then copy? list l else none) (spelled on list (l.isSymbol .comma) n rest)
  | list, _, n, group opening inside closing rest =>
    group opening (spelled on [] false n inside) closing (spelled on list false (n + inside.selects) rest)
  | _, _, n, select word modifiers list clauses words items =>
    select word modifiers (spelled on [] false (n + 1) list) (spelled on [] false (n + 1 + list.selects) clauses) words
      (spelled on (if on n then list.pieces else []) true (n + 1 + list.selects + clauses.selects) items)

/-- The nest with the aliases spelled out in all orderings. -/
def spelledOut (p : Nest) : Nest :=
  spelled (fun _ => true) [] false 0 p

variable {p r e rest list clauses items inside : Nest} {copies copies' all : List Nest} {l opening closing : Lexeme}
  {on on' : Nat → Bool} {start start' b : Bool} {n m : Nat} {k : Keyword} {name g : SqlText}

/-! ### Part by part -/

@[simp] theorem lexemes_nil : nil.lexemes = [] := rfl

@[simp] theorem lexemes_leaf (l : Lexeme) (rest : Nest) : (leaf l rest).lexemes = l :: rest.lexemes := rfl

@[simp] theorem lexemes_group (opening : Lexeme) (inside : Nest) (closing : Lexeme) (rest : Nest) :
    (group opening inside closing rest).lexemes = opening :: (inside.lexemes ++ closing :: rest.lexemes) := rfl

@[simp] theorem lexemes_select (word : Lexeme) (modifiers : List Lexeme) (list clauses : Nest) (words : List Lexeme)
    (items : Nest) : (select word modifiers list clauses words items).lexemes =
      word :: (modifiers ++ (list.lexemes ++ (clauses.lexemes ++ (words ++ items.lexemes)))) := rfl

@[simp] theorem selects_leaf (l : Lexeme) (rest : Nest) : (leaf l rest).selects = rest.selects := rfl

@[simp] theorem selects_group (opening : Lexeme) (inside : Nest) (closing : Lexeme) (rest : Nest) :
    (group opening inside closing rest).selects = inside.selects + rest.selects := rfl

@[simp] theorem selects_select (word : Lexeme) (modifiers : List Lexeme) (list clauses : Nest) (words : List Lexeme)
    (items : Nest) : (select word modifiers list clauses words items).selects =
      1 + list.selects + clauses.selects + items.selects := rfl

@[simp] theorem isPlain_leaf (l : Lexeme) (rest : Nest) : (leaf l rest).isPlain = rest.isPlain := rfl

theorem isProper_group (opening : Lexeme) (inside : Nest) (closing : Lexeme) (rest : Nest) :
    (group opening inside closing rest).isProper = (opening.isSymbol .leftParen && closing.isSymbol .rightParen &&
      inside.isProper && rest.isProper) := rfl

theorem isProper_select (word : Lexeme) (modifiers : List Lexeme) (list clauses : Nest) (words : List Lexeme)
    (items : Nest) : (select word modifiers list clauses words items).isProper =
      (isSelection word modifiers list clauses words items && list.isProper && clauses.isProper && items.isProper) := rfl

theorem append_leaf (l : Lexeme) (rest r : Nest) : (leaf l rest).append r = leaf l (rest.append r) := rfl

theorem append_group (opening : Lexeme) (inside : Nest) (closing : Lexeme) (rest r : Nest) :
    (group opening inside closing rest).append r = group opening inside closing (rest.append r) := rfl

theorem pieces_leaf (l : Lexeme) (rest : Nest) : (leaf l rest).pieces =
    if l.isSymbol .comma then nil :: rest.pieces else rest.pieces.modifyHead (leaf l) := rfl

theorem pieces_group (opening : Lexeme) (inside : Nest) (closing : Lexeme) (rest : Nest) :
    (group opening inside closing rest).pieces = rest.pieces.modifyHead (group opening inside closing) := rfl

theorem kinds_leaf (l : Lexeme) (rest : Nest) :
    (leaf l rest).kinds = (opened? l (rest.startsWith .BY)).toList ++ rest.kinds := rfl

theorem named?_leaf (name : SqlText) (l : Lexeme) (rest : Nest) : (leaf l rest).named? name =
    if l.isKeyword .AS && rest.isAlias name then some nil else (rest.named? name).map (leaf l) := rfl

theorem named?_group (name : SqlText) (opening : Lexeme) (inside : Nest) (closing : Lexeme) (rest : Nest) :
    (group opening inside closing rest).named? name = (rest.named? name).map (group opening inside closing) := rfl

theorem startsClause_leaf (l : Lexeme) (rest : Nest) :
    (leaf l rest).startsClause = (opened? l (rest.startsWith .BY)).isSome := rfl

theorem endsPiece_leaf (l : Lexeme) (rest : Nest) : (leaf l rest).endsPiece = l.isSymbol .comma := rfl

theorem endsName_leaf (l : Lexeme) (rest : Nest) :
    (leaf l rest).endsName = (l.isSymbol .comma || (l.isDirection && rest.endsPiece)) := rfl

@[simp] theorem written_some (l : Lexeme) (e rest : Nest) : written l (some e) rest = e.append rest := rfl

@[simp] theorem written_none (l : Lexeme) (rest : Nest) : written l none rest = leaf l rest := rfl

@[simp] theorem spelled_nil (on : Nat → Bool) (list : List Nest) (start : Bool) (n : Nat) :
    spelled on list start n nil = nil := rfl

theorem spelled_leaf (on : Nat → Bool) (list : List Nest) (start : Bool) (n : Nat) (l : Lexeme) (rest : Nest) :
    spelled on list start n (leaf l rest) = written l (if start && rest.endsName then copy? list l else none)
      (spelled on list (l.isSymbol .comma) n rest) := rfl

theorem spelled_group (on : Nat → Bool) (list : List Nest) (start : Bool) (n : Nat) (opening : Lexeme) (inside : Nest)
    (closing : Lexeme) (rest : Nest) : spelled on list start n (group opening inside closing rest) =
      group opening (spelled on [] false n inside) closing (spelled on list false (n + inside.selects) rest) := rfl

theorem spelled_select (on : Nat → Bool) (copies : List Nest) (start : Bool) (n : Nat) (word : Lexeme)
    (modifiers : List Lexeme) (list clauses : Nest) (words : List Lexeme) (items : Nest) :
    spelled on copies start n (select word modifiers list clauses words items) =
      select word modifiers (spelled on [] false (n + 1) list) (spelled on [] false (n + 1 + list.selects) clauses) words
        (spelled on (if on n then list.pieces else []) true (n + 1 + list.selects + clauses.selects) items) := rfl

/-! ### One nest behind another -/

theorem isProper_leaf_iff : (leaf l rest).isProper = true ↔ l.isFree = true ∧ rest.isProper = true :=
  Bool.and_eq_true_iff

theorem isProper_group_iff :
    (group opening inside closing rest).isProper = true ↔ opening.isSymbol .leftParen = true ∧
      closing.isSymbol .rightParen = true ∧ inside.isProper = true ∧ rest.isProper = true := by
  rw [isProper_group]
  simp only [Bool.and_eq_true, and_assoc]

theorem lexemes_eq_nil_iff : p.lexemes = [] ↔ p = nil := by
  cases p <;> simp

theorem isPlain_of_selects (h : p.selects = 0) : p.isPlain = true := by
  induction p with
  | nil => rfl
  | leaf l rest ih => exact ih h
  | group opening inside closing rest _ ih =>
    rw [selects_group] at h
    exact ih (by omega)
  | select =>
    rw [selects_select] at h
    omega

theorem lexemes_append (h : p.isPlain = true) (r : Nest) : (p.append r).lexemes = p.lexemes ++ r.lexemes := by
  induction p with
  | nil => rfl
  | leaf l rest ih => rw [append_leaf, lexemes_leaf, ih h, lexemes_leaf, List.cons_append]
  | group opening inside closing rest _ ih => simp [append_group, lexemes_group, ih h]
  | select => cases h

theorem selects_append (h : p.isPlain = true) (r : Nest) : (p.append r).selects = p.selects + r.selects := by
  induction p with
  | nil => exact (Nat.zero_add _).symm
  | leaf l rest ih => exact ih h
  | group opening inside closing rest _ ih =>
    rw [append_group, selects_group, selects_group, ih h]
    omega
  | select => cases h

theorem isPlain_append (h : p.isPlain = true) (r : Nest) : (p.append r).isPlain = r.isPlain := by
  induction p with
  | nil => rfl
  | leaf l rest ih => exact ih h
  | group opening inside closing rest _ ih => exact ih h
  | select => cases h

theorem isProper_append (hp : p.isProper = true) (hr : r.isProper = true) : (p.append r).isProper = true := by
  induction p with
  | nil => exact hr
  | leaf l rest ih =>
    obtain ⟨hl, hrest⟩ := isProper_leaf_iff.1 hp
    exact isProper_leaf_iff.2 ⟨hl, ih hrest⟩
  | group opening inside closing rest _ ih =>
    obtain ⟨hopening, hclosing, hinside, hrest⟩ := isProper_group_iff.1 hp
    exact isProper_group_iff.2 ⟨hopening, hclosing, hinside, ih hrest⟩
  | select => exact hp

theorem startsWith_append (h : p ≠ nil) (k : Keyword) (r : Nest) : (p.append r).startsWith k = p.startsWith k := by
  cases p with
  | nil => exact absurd rfl h
  | leaf | group | select => rfl

theorem opened?_mono (h : opened? l b = none) {b' : Bool} (hb : b' = true → b = true) : opened? l b' = none := by
  cases b' with
  | true => rwa [hb rfl] at h
  | false =>
    unfold opened? at h ⊢
    cases b with
    | false => exact h
    | true =>
      split at h
      all_goals simp_all

/-- Where no clause is opened and no `BY` follows, the clauses are those of what follows. -/
theorem kinds_append (hp : p.isPlain = true) (hk : p.kinds = []) (hr : r.startsWith .BY = false) :
    (p.append r).kinds = r.kinds := by
  induction p with
  | nil => rfl
  | leaf l rest ih =>
    obtain ⟨hl, hrest⟩ := List.append_eq_nil_iff.1 hk
    have hby : (rest.append r).startsWith .BY = rest.startsWith .BY := by
      by_cases hnil : rest = nil
      · rw [hnil]
        exact hr
      · exact startsWith_append hnil .BY r
    rw [append_leaf, kinds_leaf, hby, hl, ih hp hrest, List.nil_append]
  | group opening inside closing rest _ ih => exact ih hp hk
  | select => cases hp

/-! ### Copies -/

theorem lexemes_regap (g : SqlText) (p : Nest) :
    (p.regap g).lexemes = p.lexemes.modifyHead fun l => { l with gap := g } := by
  cases p <;> rfl

@[simp] theorem selects_regap (g : SqlText) (p : Nest) : (p.regap g).selects = p.selects := by
  cases p <;> rfl

@[simp] theorem isProper_regap (g : SqlText) (p : Nest) : (p.regap g).isProper = p.isProper := by
  cases p <;> rfl

@[simp] theorem kinds_regap (g : SqlText) (p : Nest) : (p.regap g).kinds = p.kinds := by
  cases p <;> rfl

theorem copy?_nil (l : Lexeme) : copy? [] l = none := by
  unfold copy?
  cases l.kind.name? <;> rfl

/-- A copy is that of an expression in the list, for a name. -/
theorem exists_of_copy? (h : copy? copies l = some e) :
    ∃ name item x, l.kind = .identifier name ∧ item ∈ copies ∧ aliased? name item = some x ∧ isCopied name x = true ∧
      e = x.regap l.gap := by
  obtain ⟨name, hname, h⟩ := Option.bind_eq_some_iff.1 h
  obtain ⟨x, hx, h⟩ := Option.bind_eq_some_iff.1 h
  obtain ⟨item, hitem, hx⟩ := List.exists_of_findSome?_eq_some hx
  split at h
  · next hcopied =>
    refine ⟨name, item, x, ?_, hitem, hx, hcopied, (Option.some.inj h).symm⟩
    cases hk : l.kind with
    | identifier w =>
      rw [hk] at hname
      obtain rfl := Option.some.inj hname
      rfl
    | _ =>
      rw [hk] at hname
      cases hname
  · cases h

theorem selects_of_isCopied (h : isCopied name e = true) : e.selects = 0 := by
  simp only [isCopied, Bool.and_eq_true, beq_iff_eq] at h
  exact h.1.2

theorem selects_of_copy? (h : copy? copies l = some e) : e.selects = 0 := by
  obtain ⟨name, item, x, -, -, -, hx, rfl⟩ := exists_of_copy? h
  rw [selects_regap, selects_of_isCopied hx]

theorem aliased?_eq_some (h : aliased? name p = some e) : p.named? name = some e ∧ e ≠ nil := by
  simpa [aliased?] using Option.filter_eq_some_iff.1 h

/-! ### What does not change -/

/-- Only an item that starts where the nest does can be replaced there. -/
theorem spelled_start (on : Nat → Bool) (start : Bool) (n : Nat) (p : Nest) :
    spelled on [] start n p = spelled on [] false n p := by
  cases p with
  | leaf l rest => simp [spelled_leaf, copy?_nil]
  | nil | group | select => rfl

theorem spelled_leaf_nil (on : Nat → Bool) (start : Bool) (n : Nat) (l : Lexeme) (rest : Nest) :
    spelled on [] start n (leaf l rest) = leaf l (spelled on [] false n rest) := by
  rw [spelled_leaf, copy?_nil, ite_self, written_none, spelled_start]

/-- What is written for a token of an ordering: a copy, or the token itself. -/
theorem copied_cases (list : List Nest) (start : Bool) (l : Lexeme) (rest : Nest) :
    (∃ e, copy? list l = some e ∧ start = true ∧ rest.endsName = true ∧
      (if start && rest.endsName then copy? list l else none) = some e) ∨
    (if start && rest.endsName then copy? list l else none) = none := by
  by_cases h : (start && rest.endsName) = true
  · rw [if_pos h]
    rw [Bool.and_eq_true] at h
    cases hc : copy? list l with
    | none => exact .inr rfl
    | some e => exact .inl ⟨e, rfl, h.1, h.2, rfl⟩
  · exact .inr (if_neg h)

@[simp] theorem selects_spelled (on : Nat → Bool) (copies : List Nest) (start : Bool) (n : Nat) (p : Nest) :
    (spelled on copies start n p).selects = p.selects := by
  induction p generalizing copies start n with
  | nil => rfl
  | leaf l rest ih =>
    rw [spelled_leaf]
    rcases copied_cases copies start l rest with ⟨e, he, -, -, hw⟩ | hw
    · have hnone := selects_of_copy? he
      rw [hw, written_some, selects_append (isPlain_of_selects hnone), hnone, Nat.zero_add, ih, selects_leaf]
    · rw [hw, written_none, selects_leaf, ih, selects_leaf]
  | group opening inside closing rest ihInside ih => rw [spelled_group, selects_group, ihInside, ih, selects_group]
  | select word modifiers list clauses words items ihList ihClauses ihItems =>
    rw [spelled_select, selects_select, ihList, ihClauses, ihItems, selects_select]

@[simp] theorem isPlain_spelled (on : Nat → Bool) (copies : List Nest) (start : Bool) (n : Nat) (p : Nest) :
    (spelled on copies start n p).isPlain = p.isPlain := by
  induction p generalizing copies start n with
  | nil | select => rfl
  | leaf l rest ih =>
    rw [spelled_leaf]
    rcases copied_cases copies start l rest with ⟨e, he, -, -, hw⟩ | hw
    · rw [hw, written_some, isPlain_append (isPlain_of_selects (selects_of_copy? he)), ih, isPlain_leaf]
    · rw [hw, written_none, isPlain_leaf, ih, isPlain_leaf]
  | group opening inside closing rest _ ih => exact ih _ _ _

/-- Where no selection is chosen, nothing changes, if it is no ordering. -/
theorem spelled_of_none (h : ∀ i, n ≤ i → i < n + p.selects → on i = false) (start : Bool) :
    spelled on [] start n p = p := by
  induction p generalizing start n with
  | nil => rfl
  | leaf l rest ih => rw [spelled_leaf_nil, ih h]
  | group opening inside closing rest ihInside ih =>
    rw [selects_group] at h
    rw [spelled_group, ihInside fun i hi hlt => h i hi (by omega), ih fun i hi hlt => h i (by omega) (by omega)]
  | select word modifiers list clauses words items ihList ihClauses ihItems =>
    rw [selects_select] at h
    rw [spelled_select, ihList fun i hi hlt => h i (by omega) (by omega),
      ihClauses fun i hi hlt => h i (by omega) (by omega), h n (Nat.le_refl n) (by omega), if_neg Bool.false_ne_true,
      ihItems fun i hi hlt => h i (by omega) (by omega)]

theorem spelled_of_selects (h : p.selects = 0) (on : Nat → Bool) (start : Bool) (n : Nat) :
    spelled on [] start n p = p :=
  spelled_of_none (fun i hi hlt => by omega) start

theorem spelled_append (h : p.isPlain = true) (on : Nat → Bool) (start : Bool) (n : Nat) (r : Nest) :
    spelled on [] start n (p.append r) = (spelled on [] start n p).append (spelled on [] false (n + p.selects) r) := by
  induction p generalizing start n with
  | nil => exact spelled_start on start n r
  | leaf l rest ih => rw [append_leaf, spelled_leaf_nil, spelled_leaf_nil, ih h, append_leaf, selects_leaf]
  | group opening inside closing rest _ ih =>
    rw [append_group, spelled_group, spelled_group, ih h, append_group, selects_group, Nat.add_assoc]
  | select => cases h

theorem startsWith_spelled (on : Nat → Bool) (copies : List Nest) (n : Nat) (p : Nest) (k : Keyword) :
    (spelled on copies false n p).startsWith k = p.startsWith k := by
  cases p with
  | nil | leaf | group | select => rfl

theorem endsPiece_spelled (on : Nat → Bool) (start : Bool) (n : Nat) (p : Nest) :
    (spelled on [] start n p).endsPiece = p.endsPiece := by
  cases p with
  | leaf l rest => rw [spelled_leaf_nil, endsPiece_leaf, endsPiece_leaf]
  | nil | group | select => rfl

theorem endsName_spelled (on : Nat → Bool) (start : Bool) (n : Nat) (p : Nest) :
    (spelled on [] start n p).endsName = p.endsName := by
  cases p with
  | leaf l rest => rw [spelled_leaf_nil, endsName_leaf, endsName_leaf, endsPiece_spelled]
  | nil | group | select => rfl

theorem isAlias_spelled (name : SqlText) (on : Nat → Bool) (start : Bool) (n : Nat) (p : Nest) :
    (spelled on [] start n p).isAlias name = p.isAlias name := by
  cases p with
  | leaf l rest =>
    rw [spelled_leaf_nil]
    cases rest with
    | nil | group | select => rfl
    | leaf l' rest =>
      rw [spelled_leaf_nil]
      rfl
  | nil | group | select => rfl

theorem named?_spelled (name : SqlText) (on : Nat → Bool) (start : Bool) (n : Nat) (p : Nest) :
    (spelled on [] start n p).named? name = (p.named? name).map (spelled on [] start n) := by
  induction p generalizing start n with
  | nil | select => rfl
  | leaf l rest ih =>
    rw [spelled_leaf_nil, named?_leaf, named?_leaf, isAlias_spelled, ih]
    split
    · rfl
    · rw [Option.map_map, Option.map_map]
      exact Option.map_congr fun x _ => (spelled_leaf_nil on start n l x).symm
  | group opening inside closing rest _ ih =>
    rw [spelled_group, named?_group, named?_group, ih, Option.map_map, Option.map_map]
    rfl

/-- The pieces of a nest with the orderings spelled out are those of the nest, each with the orderings spelled out; the
selections of the first one have the first numbers. -/
theorem pieces_spelled (on : Nat → Bool) (n : Nat) (p : Nest) :
    ∃ first others others', p.pieces = first :: others ∧ (spelled on [] false n p).pieces = spelled on [] false n first :: others' ∧
      List.Forall₂ (fun x y => ∃ m, x = spelled on [] false m y) others' others := by
  induction p generalizing n with
  | nil => exact ⟨nil, [], [], rfl, rfl, .nil⟩
  | leaf l rest ih =>
    obtain ⟨first, others, others', hp, hs, hall⟩ := ih n
    rw [spelled_leaf_nil, pieces_leaf, pieces_leaf]
    split
    · exact ⟨nil, _, _, rfl, rfl, by rw [hp, hs]; exact .cons ⟨n, rfl⟩ hall⟩
    · exact ⟨leaf l first, others, others', by rw [hp]; rfl, by rw [hs, spelled_leaf_nil]; rfl, hall⟩
  | group opening inside closing rest _ ih =>
    obtain ⟨first, others, others', hp, hs, hall⟩ := ih (n + inside.selects)
    refine ⟨group opening inside closing first, others, others', ?_, ?_, hall⟩
    · rw [pieces_group, hp]
      rfl
    · rw [spelled_group, pieces_group, hs, spelled_group]
      rfl
  | select word modifiers list clauses words items => exact ⟨_, [], [], rfl, rfl, .nil⟩

theorem aliased?_spelled (name : SqlText) (on : Nat → Bool) (n : Nat) (p : Nest) :
    (spelled on [] false n p).aliased? name = (p.aliased? name).map (spelled on [] false n) := by
  rw [aliased?, aliased?, named?_spelled]
  cases p.named? name with
  | none => rfl
  | some e =>
    have hnil : spelled on [] false n e = nil ↔ e = nil := by
      cases e with
      | leaf l rest => simp [spelled_leaf_nil]
      | nil => simp
      | group => simp [spelled_group]
      | select => simp [spelled_select]
    by_cases he : e = nil
    · simp [Option.filter, he]
    · simp [Option.filter, he, hnil]

/-- What is copied from a list is not changed by spelling out the orderings inside the list. -/
theorem copy?_spelled (on : Nat → Bool) (n : Nat) (p : Nest) (l : Lexeme) :
    copy? (spelled on [] false n p).pieces l = copy? p.pieces l := by
  obtain ⟨first, others, others', hp, hs, hall⟩ := pieces_spelled on n p
  have hall : List.Forall₂ (fun x y => ∃ m, x = spelled on [] false m y) (spelled on [] false n p).pieces p.pieces := by
    rw [hp, hs]
    exact .cons ⟨n, rfl⟩ hall
  generalize (spelled on [] false n p).pieces = xs at hall
  generalize p.pieces = ys at hall
  have hfind : ∀ name, ∃ m, xs.findSome? (aliased? name) = (ys.findSome? (aliased? name)).map (spelled on [] false m) := by
    intro name
    induction hall with
    | nil => exact ⟨0, rfl⟩
    | @cons x y xs ys hx _ ih =>
      obtain ⟨m, rfl⟩ := hx
      rw [List.findSome?_cons, List.findSome?_cons, aliased?_spelled]
      cases y.aliased? name with
      | none => exact ih
      | some e => exact ⟨m, rfl⟩
  unfold copy?
  cases l.kind.name? with
  | none => rfl
  | some name =>
    obtain ⟨m, hm⟩ := hfind name
    show (xs.findSome? (aliased? name) >>= _) = (ys.findSome? (aliased? name) >>= _)
    rw [hm]
    cases ys.findSome? (aliased? name) with
    | none => rfl
    | some e =>
      show (if isCopied name (spelled on [] false m e) = true then some ((spelled on [] false m e).regap l.gap) else none)
        = if isCopied name e = true then some (e.regap l.gap) else none
      by_cases he : e.selects = 0
      · rw [spelled_of_selects he]
      · have hnot : ∀ {x : Nest}, x.selects = e.selects → ¬ isCopied name x = true := by
          intro x hx hcopied
          exact he (hx ▸ selects_of_isCopied hcopied)
        rw [if_neg (hnot (selects_spelled ..)), if_neg (hnot rfl)]

/-! ### One run after another -/

/-- **To spell out some orderings and then others is to spell out all of them.**  In the ordering around a nest, names are
replaced in one of the two runs only. -/
theorem spelled_spelled (hon : ∀ i, on i = true → on' i = false)
    (hcopies : (copies' = [] ∧ all = copies) ∨ (copies = [] ∧ ∀ l, copy? copies' l = copy? all l)) (start : Bool) (n : Nat)
    (p : Nest) :
    spelled on' copies' start n (spelled on copies start n p) = spelled (fun i => on i || on' i) all start n p := by
  induction p generalizing copies copies' all start n with
  | nil => rfl
  | leaf l rest ih =>
    have hrest := ih hcopies (l.isSymbol .comma) n
    rcases hcopies with ⟨rfl, rfl⟩ | ⟨rfl, hall⟩
    · rw [spelled_leaf, spelled_leaf]
      rcases copied_cases all start l rest with ⟨e, he, -, -, hw⟩ | hw
      · have hnone := selects_of_copy? he
        rw [hw, written_some, spelled_append (isPlain_of_selects hnone), spelled_of_selects hnone, hnone, Nat.add_zero,
          written_some, ← hrest, spelled_start on' (l.isSymbol .comma)]
      · rw [hw, written_none, spelled_leaf_nil, written_none, ← hrest, spelled_start on' (l.isSymbol .comma)]
    · rw [spelled_leaf_nil, spelled_leaf, spelled_leaf, hall, endsName_spelled]
      rw [spelled_start] at hrest
      rw [hrest]
  | group opening inside closing rest ihInside ih =>
    rw [spelled_group, spelled_group, spelled_group, ihInside (.inl ⟨rfl, rfl⟩), selects_spelled, ih hcopies]
  | select word modifiers list clauses words items ihList ihClauses ihItems =>
    rw [spelled_select, spelled_select, spelled_select, ihList (.inl ⟨rfl, rfl⟩), selects_spelled,
      ihClauses (.inl ⟨rfl, rfl⟩), selects_spelled]
    congr 1
    refine ihItems ?_ _ _
    by_cases hn : on n = true
    · exact .inl (by simp [hn, hon n hn])
    · simp only [hn, Bool.false_or]
      refine .inr ⟨rfl, fun l => ?_⟩
      split
      · exact copy?_spelled on (n + 1) list l
      · rfl

/-! ### Proper nests -/

/-- What the parts of a selection are. -/
structure IsSelection (word : Lexeme) (modifiers : List Lexeme) (list clauses : Nest) (words : List Lexeme)
    (items : Nest) : Prop where
  word : word.isKeyword .SELECT = true
  modifiers : areModifiers modifiers list = true
  listPlain : list.isPlain = true
  listKinds : list.kinds = []
  clausesPlain : clauses.isPlain = true
  starts : clauses.startsClause = true
  unordered : .ordering ∉ clauses.kinds
  words : areWords words items = true
  itemsPlain : items.isPlain = true
  itemsKinds : items.kinds = []

theorem isSelection_iff {word : Lexeme} {modifiers words : List Lexeme} :
    isSelection word modifiers list clauses words items = true ↔
      IsSelection word modifiers list clauses words items := by
  simp only [isSelection, Bool.and_eq_true, List.isEmpty_iff, Bool.not_eq_true', List.contains_eq_mem,
    decide_eq_false_iff_not]
  constructor
  · rintro ⟨⟨⟨⟨hword, hmodifiers⟩, hplain, hkinds⟩, ⟨hclauses, hstarts⟩, hunordered⟩, ⟨hwords, hitems⟩, hnone⟩
    exact ⟨hword, hmodifiers, hplain, hkinds, hclauses, hstarts, hunordered, hwords, hitems, hnone⟩
  · rintro ⟨hword, hmodifiers, hplain, hkinds, hclauses, hstarts, hunordered, hwords, hitems, hnone⟩
    exact ⟨⟨⟨⟨hword, hmodifiers⟩, hplain, hkinds⟩, ⟨hclauses, hstarts⟩, hunordered⟩, ⟨hwords, hitems⟩, hnone⟩

theorem isProper_select_iff {word : Lexeme} {modifiers words : List Lexeme} :
    (select word modifiers list clauses words items).isProper = true ↔
      IsSelection word modifiers list clauses words items ∧ list.isProper = true ∧ clauses.isProper = true ∧
        items.isProper = true := by
  simp only [isProper_select, Bool.and_eq_true, isSelection_iff, and_assoc]

/-- There is a first piece, and it starts with no other word than the nest. -/
theorem exists_pieces (p : Nest) :
    ∃ first others, p.pieces = first :: others ∧ ∀ k, first.startsWith k = true → p.startsWith k = true := by
  induction p with
  | nil | select => exact ⟨_, [], rfl, fun _ h => h⟩
  | leaf l rest ih =>
    obtain ⟨first, others, hp, -⟩ := ih
    rw [pieces_leaf]
    split
    · exact ⟨nil, rest.pieces, rfl, fun k h => by cases h⟩
    · exact ⟨leaf l first, others, by rw [hp]; rfl, fun k h => h⟩
  | group opening inside closing rest _ ih =>
    obtain ⟨first, others, hp, -⟩ := ih
    exact ⟨group opening inside closing first, others, by rw [pieces_group, hp]; rfl, fun k h => by cases h⟩

theorem isProper_pieces (h : p.isProper = true) : ∀ x ∈ p.pieces, x.isProper = true := by
  induction p with
  | nil => exact List.forall_mem_singleton.2 h
  | select => exact List.forall_mem_singleton.2 h
  | leaf l rest ih =>
    obtain ⟨hl, hrest⟩ := isProper_leaf_iff.1 h
    obtain ⟨first, others, hp, -⟩ := rest.exists_pieces
    have hpieces := ih hrest
    rw [pieces_leaf]
    split
    · exact List.forall_mem_cons.2 ⟨rfl, hpieces⟩
    · rw [hp, List.forall_mem_cons] at hpieces
      rw [hp]
      exact List.forall_mem_cons.2 ⟨isProper_leaf_iff.2 ⟨hl, hpieces.1⟩, hpieces.2⟩
  | group opening inside closing rest _ ih =>
    obtain ⟨hopening, hclosing, hinside, hrest⟩ := isProper_group_iff.1 h
    obtain ⟨first, others, hp, -⟩ := rest.exists_pieces
    have hpieces := ih hrest
    rw [hp, List.forall_mem_cons] at hpieces
    rw [pieces_group, hp]
    exact List.forall_mem_cons.2 ⟨isProper_group_iff.2 ⟨hopening, hclosing, hinside, hpieces.1⟩, hpieces.2⟩

theorem kinds_leaf_eq_nil_iff : (leaf l rest).kinds = [] ↔ opened? l (rest.startsWith .BY) = none ∧ rest.kinds = [] := by
  rw [kinds_leaf, List.append_eq_nil_iff, Option.toList_eq_nil_iff]

theorem kinds_pieces (h : p.kinds = []) : ∀ x ∈ p.pieces, x.kinds = [] := by
  induction p with
  | nil => exact List.forall_mem_singleton.2 rfl
  | select => exact List.forall_mem_singleton.2 rfl
  | leaf l rest ih =>
    obtain ⟨hl, hrest⟩ := kinds_leaf_eq_nil_iff.1 h
    obtain ⟨first, others, hp, hstarts⟩ := rest.exists_pieces
    have hpieces := ih hrest
    rw [pieces_leaf]
    split
    · exact List.forall_mem_cons.2 ⟨rfl, hpieces⟩
    · rw [hp, List.forall_mem_cons] at hpieces
      rw [hp]
      exact List.forall_mem_cons.2 ⟨kinds_leaf_eq_nil_iff.2 ⟨opened?_mono hl (hstarts .BY), hpieces.1⟩, hpieces.2⟩
  | group opening inside closing rest _ ih =>
    obtain ⟨first, others, hp, -⟩ := rest.exists_pieces
    have hpieces := ih h
    rw [hp, List.forall_mem_cons] at hpieces
    rw [pieces_group, hp]
    exact List.forall_mem_cons.2 hpieces

/-- The expression before an alias is as proper as the item, and opens no clause if the item does not. -/
theorem of_named? (h : p.named? name = some e) (hp : p.isProper = true) (hk : p.kinds = []) :
    e.isProper = true ∧ e.kinds = [] ∧ (e.startsWith .BY = true → p.startsWith .BY = true) := by
  induction p generalizing e with
  | nil | select => cases h
  | leaf l rest ih =>
    obtain ⟨hl, hrest⟩ := isProper_leaf_iff.1 hp
    obtain ⟨hopened, hkrest⟩ := kinds_leaf_eq_nil_iff.1 hk
    rw [named?_leaf] at h
    split at h
    · obtain rfl := Option.some.inj h
      exact ⟨rfl, rfl, fun h => by cases h⟩
    · obtain ⟨x, hx, rfl⟩ := Option.map_eq_some_iff.1 h
      obtain ⟨hproper, hkinds, hstarts⟩ := ih hx hrest hkrest
      exact ⟨isProper_leaf_iff.2 ⟨hl, hproper⟩, kinds_leaf_eq_nil_iff.2 ⟨opened?_mono hopened hstarts, hkinds⟩,
        fun h => h⟩
  | group opening inside closing rest _ ih =>
    obtain ⟨hopening, hclosing, hinside, hrest⟩ := isProper_group_iff.1 hp
    obtain ⟨x, hx, rfl⟩ := Option.map_eq_some_iff.1 h
    obtain ⟨hproper, hkinds, -⟩ := ih hx hrest hk
    exact ⟨isProper_group_iff.2 ⟨hopening, hclosing, hinside, hproper⟩, hkinds, fun h => by cases h⟩

/-- Whether pieces are those of a select list. -/
def AreListed (copies : List Nest) : Prop :=
  ∀ x ∈ copies, x.isProper = true ∧ x.kinds = []

theorem AreListed.nil : AreListed [] :=
  List.forall_mem_nil _

theorem AreListed.copy (h : AreListed copies) (he : copy? copies l = some e) : e.isProper = true ∧ e.kinds = [] := by
  obtain ⟨name, item, x, -, hitem, hx, -, rfl⟩ := exists_of_copy? he
  obtain ⟨hproper, hkinds⟩ := h item hitem
  obtain ⟨hproper, hkinds, -⟩ := of_named? (aliased?_eq_some hx).1 hproper hkinds
  rw [isProper_regap, kinds_regap]
  exact ⟨hproper, hkinds⟩

theorem areListed_pieces (hp : p.isProper = true) (hk : p.kinds = []) : AreListed p.pieces :=
  fun x hx => ⟨isProper_pieces hp x hx, kinds_pieces hk x hx⟩

theorem startsWith_of_endsName (h : rest.endsName = true) : rest.startsWith .BY = false := by
  cases rest with
  | nil | group | select => rfl
  | leaf l rest =>
    refine Bool.eq_false_iff.2 fun hby => ?_
    have hkind : l.kind = .keyword .BY := by simpa [startsWith, Lexeme.isKeyword, Kind.isKeyword] using hby
    simp [endsName, Lexeme.isSymbol, Kind.isSymbol, Lexeme.isDirection, Lexeme.isKeyword, Kind.isKeyword, hkind] at h

/-- No clause comes or goes. -/
theorem kinds_spelled (h : AreListed copies) (on : Nat → Bool) (start : Bool) (n : Nat) (p : Nest) :
    (spelled on copies start n p).kinds = p.kinds := by
  induction p generalizing start n with
  | nil | select => rfl
  | leaf l rest ih =>
    rw [spelled_leaf]
    rcases copied_cases copies start l rest with ⟨e, he, -, hends, hw⟩ | hw
    · obtain ⟨name, -, -, hname, -⟩ := exists_of_copy? he
      have hcomma : l.isSymbol .comma = false := by simp [Lexeme.isSymbol, Kind.isSymbol, hname]
      have hopened : opened? l (rest.startsWith .BY) = none := by simp [opened?, hname, Kind.keyword?]
      rw [hw, written_some, hcomma, kinds_append (isPlain_of_selects (selects_of_copy? he)) (h.copy he).2, ih, kinds_leaf,
        hopened]
      · rfl
      · rw [startsWith_spelled, startsWith_of_endsName hends]
    · rw [hw, written_none, kinds_leaf, kinds_leaf, ih]
      cases hcomma : l.isSymbol .comma with
      | false => rw [startsWith_spelled]
      | true =>
        have hkind : l.kind = .symbol .comma := Kind.isSymbol_iff.1 hcomma
        simp [opened?, hkind, Kind.keyword?]
  | group opening inside closing rest _ ih => exact ih _ _

theorem areModifiers_spelled (modifiers : List Lexeme) (on : Nat → Bool) (n : Nat) (list : Nest) :
    areModifiers modifiers (spelled on [] false n list) = areModifiers modifiers list := by
  rcases modifiers with _ | ⟨a, _ | ⟨b, _ | ⟨c, _ | ⟨d, more⟩⟩⟩⟩
  · simp only [areModifiers, startsWith_spelled]
  · simp only [areModifiers, startsWith_spelled]
  all_goals rfl

theorem areWords_spelled {words : List Lexeme} (h : areWords words items = true) (on : Nat → Bool) (copies : List Nest)
    (n : Nat) : areWords words (spelled on copies true n items) = true := by
  rcases words with _ | ⟨a, _ | ⟨b, _ | ⟨c, more⟩⟩⟩
  · obtain rfl : items = nil := by simpa [areWords] using h
    rfl
  all_goals exact h

theorem startsClause_spelled (on : Nat → Bool) (n : Nat) (p : Nest) :
    (spelled on [] false n p).startsClause = p.startsClause := by
  cases p with
  | leaf l rest => rw [spelled_leaf_nil, startsClause_leaf, startsClause_leaf, startsWith_spelled]
  | nil | group | select => rfl

/-- **Proper nests stay proper.** -/
theorem isProper_spelled (hp : p.isProper = true) (h : AreListed copies) (on : Nat → Bool) (start : Bool) (n : Nat) :
    (spelled on copies start n p).isProper = true := by
  induction p generalizing copies start n with
  | nil => rfl
  | leaf l rest ih =>
    obtain ⟨hl, hrest⟩ := isProper_leaf_iff.1 hp
    rw [spelled_leaf]
    rcases copied_cases copies start l rest with ⟨e, he, -, -, hw⟩ | hw
    · rw [hw, written_some]
      exact isProper_append (h.copy he).1 (ih hrest h _ _)
    · rw [hw, written_none]
      exact isProper_leaf_iff.2 ⟨hl, ih hrest h _ _⟩
  | group opening inside closing rest ihInside ih =>
    obtain ⟨hopening, hclosing, hinside, hrest⟩ := isProper_group_iff.1 hp
    exact isProper_group_iff.2 ⟨hopening, hclosing, ihInside hinside .nil _ _, ih hrest h _ _⟩
  | select word modifiers list clauses words items ihList ihClauses ihItems =>
    obtain ⟨hselect, hlist, hclauses, hitems⟩ := isProper_select_iff.1 hp
    have hlisted : AreListed (if on n then list.pieces else []) := by
      split
      · exact areListed_pieces hlist hselect.listKinds
      · exact .nil
    refine isProper_select_iff.2 ⟨?_, ihList hlist .nil _ _, ihClauses hclauses .nil _ _, ihItems hitems hlisted _ _⟩
    exact {
      word := hselect.word
      modifiers := by rw [areModifiers_spelled, hselect.modifiers]
      listPlain := by rw [isPlain_spelled, hselect.listPlain]
      listKinds := by rw [kinds_spelled .nil, hselect.listKinds]
      clausesPlain := by rw [isPlain_spelled, hselect.clausesPlain]
      starts := by rw [startsClause_spelled, hselect.starts]
      unordered := by rw [kinds_spelled .nil]; exact hselect.unordered
      words := areWords_spelled hselect.words _ _ _
      itemsPlain := by rw [isPlain_spelled, hselect.itemsPlain]
      itemsKinds := by rw [kinds_spelled hlisted, hselect.itemsKinds] }

/-! ### The tokens of a translation -/

theorem mem_lexemes_of_mem_pieces {x : Nest} (hx : x ∈ p.pieces) (hl : l ∈ x.lexemes) : l ∈ p.lexemes := by
  induction p generalizing x with
  | nil | select =>
    obtain rfl := List.mem_singleton.1 hx
    exact hl
  | leaf l' rest ih =>
    obtain ⟨first, others, hp, -⟩ := rest.exists_pieces
    rw [hp] at ih
    rw [pieces_leaf, hp] at hx
    split at hx
    · rcases List.mem_cons.1 hx with rfl | hx
      · cases hl
      · exact List.mem_cons_of_mem _ (ih hx hl)
    · rcases List.mem_cons.1 hx with rfl | hx
      · exact List.mem_cons.2 ((List.mem_cons.1 hl).imp_right (ih List.mem_cons_self))
      · exact List.mem_cons_of_mem _ (ih (List.mem_cons_of_mem _ hx) hl)
  | group opening inside closing rest _ ih =>
    obtain ⟨first, others, hp, -⟩ := rest.exists_pieces
    rw [hp] at ih
    rw [pieces_group, hp] at hx
    simp only [lexemes_group, List.mem_cons, List.mem_append]
    rcases List.mem_cons.1 hx with rfl | hx
    · simp only [lexemes_group, List.mem_cons, List.mem_append] at hl
      exact hl.imp_right (Or.imp_right (Or.imp_right (ih List.mem_cons_self)))
    · exact .inr (.inr (.inr (ih (List.mem_cons_of_mem _ hx) hl)))

theorem mem_lexemes_of_named? (h : p.named? name = some e) (hl : l ∈ e.lexemes) : l ∈ p.lexemes := by
  induction p generalizing e with
  | nil | select => cases h
  | leaf l' rest ih =>
    rw [named?_leaf] at h
    split at h
    · obtain rfl := Option.some.inj h
      cases hl
    · obtain ⟨x, hx, rfl⟩ := Option.map_eq_some_iff.1 h
      exact List.mem_cons.2 ((List.mem_cons.1 hl).imp_right (ih hx))
  | group opening inside closing rest _ ih =>
    obtain ⟨x, hx, rfl⟩ := Option.map_eq_some_iff.1 h
    simp only [lexemes_group, List.mem_cons, List.mem_append] at hl ⊢
    exact hl.imp_right (Or.imp_right (Or.imp_right (ih hx)))

variable {P : Lexeme → Prop}

/-- What is true of all tokens stays so, if it is true of a token behind the gap of another one. -/
theorem forall_lexemes_spelled (hP : ∀ l l', P l → P l' → P { l' with gap := l.gap }) (hp : ∀ l ∈ p.lexemes, P l)
    (hcopies : ∀ x ∈ copies, ∀ l ∈ x.lexemes, P l) (on : Nat → Bool) (start : Bool) (n : Nat) :
    ∀ l ∈ (spelled on copies start n p).lexemes, P l := by
  induction p generalizing copies start n with
  | nil => exact List.forall_mem_nil _
  | leaf l rest ih =>
    obtain ⟨hl, hrest⟩ := List.forall_mem_cons.1 hp
    have hbehind := ih hrest hcopies (l.isSymbol .comma) n
    rw [spelled_leaf]
    rcases copied_cases copies start l rest with ⟨e, he, -, -, hw⟩ | hw
    · rw [hw, written_some, lexemes_append (isPlain_of_selects (selects_of_copy? he)), List.forall_mem_append]
      refine ⟨?_, hbehind⟩
      obtain ⟨name, item, x, -, hitem, hx, -, rfl⟩ := exists_of_copy? he
      have hall : ∀ l' ∈ x.lexemes, P l' := fun l' hl' =>
        hcopies item hitem l' (mem_lexemes_of_named? (aliased?_eq_some hx).1 hl')
      rw [lexemes_regap]
      generalize x.lexemes = ls at hall
      cases ls with
      | nil => exact List.forall_mem_nil _
      | cons l' ls =>
        obtain ⟨hl', hls⟩ := List.forall_mem_cons.1 hall
        exact List.forall_mem_cons.2 ⟨hP l l' hl hl', hls⟩
    · rw [hw, written_none]
      exact List.forall_mem_cons.2 ⟨hl, hbehind⟩
  | group opening inside closing rest ihInside ih =>
    simp only [lexemes_group, List.forall_mem_cons, List.forall_mem_append] at hp
    obtain ⟨hopening, hinside, hclosing, hrest⟩ := hp
    simp only [spelled_group, lexemes_group, List.forall_mem_cons, List.forall_mem_append]
    exact ⟨hopening, ihInside hinside (List.forall_mem_nil _) _ _, hclosing, ih hrest hcopies _ _⟩
  | select word modifiers list clauses words items ihList ihClauses ihItems =>
    simp only [lexemes_select, List.forall_mem_cons, List.forall_mem_append] at hp
    obtain ⟨hword, hmodifiers, hlist, hclauses, hwords, hitems⟩ := hp
    simp only [spelled_select, lexemes_select, List.forall_mem_cons, List.forall_mem_append]
    refine ⟨hword, hmodifiers, ihList hlist (List.forall_mem_nil _) _ _, ihClauses hclauses (List.forall_mem_nil _) _ _,
      hwords, ihItems hitems ?_ _ _⟩
    split
    · exact fun x hx l hl => hlist l (mem_lexemes_of_mem_pieces hx hl)
    · exact List.forall_mem_nil _

/-- The first token stays, and what is true of all the others. -/
theorem exists_lexemes_spelled (hP : ∀ l l', P l → P l' → P { l' with gap := l.gap }) {ls : List Lexeme}
    (hp : p.lexemes = l :: ls) (hls : ∀ l' ∈ ls, P l') (on : Nat → Bool) (start : Bool) (n : Nat) :
    ∃ ls', (spelled on [] start n p).lexemes = l :: ls' ∧ ∀ l' ∈ ls', P l' := by
  have hnil : ∀ x ∈ ([] : List Nest), ∀ l' ∈ x.lexemes, P l' := List.forall_mem_nil _
  cases p with
  | nil => cases hp
  | leaf l' rest =>
    obtain ⟨rfl, rfl⟩ := List.cons.inj hp
    rw [spelled_leaf_nil]
    exact ⟨_, rfl, forall_lexemes_spelled hP hls hnil on false n⟩
  | group opening inside closing rest =>
    obtain ⟨rfl, rfl⟩ := List.cons.inj hp
    simp only [List.forall_mem_append, List.forall_mem_cons] at hls
    obtain ⟨hinside, hclosing, hrest⟩ := hls
    refine ⟨_, rfl, ?_⟩
    simp only [List.forall_mem_append, List.forall_mem_cons]
    exact ⟨forall_lexemes_spelled hP hinside hnil _ _ _, hclosing, forall_lexemes_spelled hP hrest hnil _ _ _⟩
  | select word modifiers list clauses words items =>
    obtain ⟨rfl, rfl⟩ := List.cons.inj hp
    simp only [List.forall_mem_append] at hls
    obtain ⟨hmodifiers, hlist, hclauses, hwords, hitems⟩ := hls
    refine ⟨_, rfl, ?_⟩
    simp only [List.forall_mem_append]
    refine ⟨hmodifiers, forall_lexemes_spelled hP hlist hnil _ _ _, forall_lexemes_spelled hP hclauses hnil _ _ _, hwords,
      forall_lexemes_spelled hP hitems ?_ _ _ _⟩
    split
    · exact fun x hx l hl => hlist l (mem_lexemes_of_mem_pieces hx hl)
    · exact hnil

/-- Which selections are chosen matters for those of the nest only. -/
theorem spelled_congr (h : ∀ i, n ≤ i → i < n + p.selects → on i = on' i) (copies : List Nest) (start : Bool) :
    spelled on copies start n p = spelled on' copies start n p := by
  induction p generalizing copies start n with
  | nil => rfl
  | leaf l rest ih => rw [spelled_leaf, spelled_leaf, ih h]
  | group opening inside closing rest ihInside ih =>
    rw [selects_group] at h
    rw [spelled_group, spelled_group, ihInside fun i hi hlt => h i hi (by omega),
      ih fun i hi hlt => h i (by omega) (by omega)]
  | select word modifiers list clauses words items ihList ihClauses ihItems =>
    rw [selects_select] at h
    rw [spelled_select, spelled_select, ihList fun i hi hlt => h i (by omega) (by omega),
      ihClauses fun i hi hlt => h i (by omega) (by omega), ihItems fun i hi hlt => h i (by omega) (by omega),
      h n (Nat.le_refl n) (by omega)]

end Nest

end OrderAlias

end JetAdapter
