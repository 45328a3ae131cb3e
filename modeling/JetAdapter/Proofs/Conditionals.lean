import JetAdapter.Proofs.Readings

/-!
# Conditional expressions and what they say

A text is made of tokens, of groups in parentheses and of conditional expressions, each of them with the others inside
(`Phrase`).  `Phrase.nested` puts a nest of calls of `IIf` in the place of every `CASE` at once: one call for each arm, in
the order of the arms, and what applies where no arm does in the innermost one.

Both say the same (`Phrase.parts_nested`).  What a text says is given by a `Valuation`: any reading of a sequence of tokens
with values in their midst, any reading of a value as a truth value, and any comparison of values.  A `CASE` has the value
of the first arm whose condition holds, or whose value is that of the operand, and a call of `IIf` that of one of its two
last arguments.
-/

namespace JetAdapter.Conditional

/-! ### Phrases -/

/-- Whether tokens of the kind frame the parts of a conditional expression. -/
def isFraming : Kind → Bool
  | .keyword .CASE | .keyword .WHEN | .keyword .THEN | .keyword .ELSE | .keyword .END => true
  | _ => false

/-- A token that is no parenthesis and frames no parts. -/
structure Atom where
  kind : Kind
  text : SqlText
  left : kind ≠ .symbol .leftParen
  right : kind ≠ .symbol .rightParen
  plain : isFraming kind = false
deriving DecidableEq

/-- The cell of the token. -/
def Atom.cell (a : Atom) : Cell :=
  .token a.kind a.text

/-- A word as it is written. -/
def Atom.word (w : SqlText) (plain : isFraming (Lexeme.wordKind w) = false) : Atom where
  kind := Lexeme.wordKind w
  text := w
  left := Lexeme.wordKind_ne_symbol w .leftParen
  right := Lexeme.wordKind_ne_symbol w .rightParen
  plain := plain

/-- What stands for the missing result. -/
def Atom.null : Atom :=
  .word "Null".toList (by decide)

mutual

/-- Tokens, groups in parentheses, conditional expressions, and calls of `IIf` that ask for a condition, or whether an
operand has a value. -/
inductive Phrase
  | nil
  | atom (token : Atom) (rest : Phrase)
  | group (inside rest : Phrase)
  | conditional (caseWord endWord : SqlText) (operand : Phrase) (arms : Arms) (rest : Phrase)
  | choice (operand condition result other rest : Phrase)

/-- The arms of a conditional expression and what applies where none of them does. -/
inductive Arms
  | none
  | otherwise (elseWord : SqlText) (other : Phrase)
  | arm (whenWord thenWord : SqlText) (condition result : Phrase) (others : Arms)

end

/-- One side of a comparison, in parentheses unless it is a single token. -/
def sideOf (cs : List Cell) : List Cell :=
  if cs.length = 1 then cs else Cell.sign '(' :: (cs ++ [Cell.sign ')'])

/-- A condition, or the comparison of an operand with a value. -/
def conditionOf (operand condition : List Cell) : List Cell :=
  if operand = [] then condition else sideOf operand ++ equals :: sideOf condition

/-- A call of `IIf`. -/
def callOf (operand condition result other : List Cell) : List Cell :=
  Cell.word "IIf".toList :: Cell.sign '(' ::
    (conditionOf operand condition ++ Cell.sign ',' :: (result ++ Cell.sign ',' :: (other ++ [Cell.sign ')'])))

mutual

/-- The cells of the tokens. -/
def Phrase.cells : Phrase → List Cell
  | .nil => []
  | .atom a rest => a.cell :: rest.cells
  | .group inside rest => Cell.sign '(' :: (inside.cells ++ Cell.sign ')' :: rest.cells)
  | .conditional caseWord endWord operand arms rest => .token (.keyword .CASE) caseWord ::
      (operand.cells ++ (arms.cells ++ .token (.keyword .END) endWord :: rest.cells))
  | .choice operand condition result other rest =>
      callOf operand.cells condition.cells result.cells other.cells ++ rest.cells

/-- The cells of the tokens behind the operand. -/
def Arms.cells : Arms → List Cell
  | .none => []
  | .otherwise elseWord other => .token (.keyword .ELSE) elseWord :: other.cells
  | .arm whenWord thenWord condition result others => .token (.keyword .WHEN) whenWord ::
      (condition.cells ++ .token (.keyword .THEN) thenWord :: (result.cells ++ others.cells))

end

/-- One phrase behind another. -/
def Phrase.append : Phrase → Phrase → Phrase
  | .nil, p => p
  | .atom a rest, p => .atom a (rest.append p)
  | .group inside rest, p => .group inside (rest.append p)
  | .conditional caseWord endWord operand arms rest, p =>
      .conditional caseWord endWord operand arms (rest.append p)
  | .choice operand condition result other rest, p => .choice operand condition result other (rest.append p)

mutual

/-- A phrase with a nest of calls in the place of every conditional expression. -/
def Phrase.nested : Phrase → Phrase
  | .nil => .nil
  | .atom a rest => .atom a rest.nested
  | .group inside rest => .group inside.nested rest.nested
  | .conditional _ _ operand arms rest => (arms.nested operand.nested).append rest.nested
  | .choice operand condition result other rest =>
      .choice operand.nested condition.nested result.nested other.nested rest.nested

/-- The nest of calls for the arms of a conditional expression with this operand. -/
def Arms.nested (operand : Phrase) : Arms → Phrase
  | .none => .atom .null .nil
  | .otherwise _ other => other.nested
  | .arm _ _ condition result others =>
      .choice operand condition.nested result.nested (others.nested operand) .nil

end

/-- The number of arms. -/
def Arms.count : Arms → Nat
  | .none | .otherwise _ _ => 0
  | .arm _ _ _ _ others => others.count + 1

/-- Whether parameters of the operand would be asked for by more than one arm. -/
def copiesMarker (operand : Phrase) (arms : Arms) : Bool :=
  decide (1 < arms.count) && operand.cells.any Cell.isMarker

mutual

/-- Whether some conditional expression has a parameter in an operand that several arms ask for. -/
def Phrase.isRefused : Phrase → Bool
  | .nil => false
  | .atom _ rest => rest.isRefused
  | .group inside rest => inside.isRefused || rest.isRefused
  | .conditional _ _ operand arms rest =>
      copiesMarker operand arms || (operand.isRefused || (arms.isRefused || rest.isRefused))
  | .choice operand condition result other rest => operand.isRefused || (condition.isRefused ||
      (result.isRefused || (other.isRefused || rest.isRefused)))

/-- Whether this is so in some arm, or where none applies. -/
def Arms.isRefused : Arms → Bool
  | .none => false
  | .otherwise _ other => other.isRefused
  | .arm _ _ condition result others => condition.isRefused || (result.isRefused || others.isRefused)

end

variable {operand condition result other p p' : Phrase} {arms arms' : Arms}

/-! ### Cells of phrases -/

variable {P : Cell → Prop} {os cs rs es : List Cell}

theorem forall_mem_sideOf (hP : ∀ c ∈ written, P c) : (∀ c ∈ sideOf cs, P c) ↔ ∀ c ∈ cs, P c := by
  simp only [written, List.forall_mem_cons] at hP
  unfold sideOf
  split
  · rfl
  · simp only [List.forall_mem_cons, List.forall_mem_append]
    exact ⟨fun h => h.2.1, fun h => ⟨hP.2.1, h, hP.2.2.1, nofun⟩⟩

theorem forall_mem_conditionOf (hP : ∀ c ∈ written, P c) :
    (∀ c ∈ conditionOf os cs, P c) ↔ (∀ c ∈ os, P c) ∧ ∀ c ∈ cs, P c := by
  unfold conditionOf
  split
  · next hnil =>
    rw [hnil]
    exact ⟨fun h => ⟨nofun, h⟩, fun h => h.2⟩
  · rw [List.forall_mem_append, List.forall_mem_cons, forall_mem_sideOf hP, forall_mem_sideOf hP]
    exact ⟨fun h => ⟨h.1, h.2.2⟩, fun h => ⟨h.1, hP _ (by simp [written]), h.2⟩⟩

/-- The cells of a call are those of its parts, and written ones. -/
theorem forall_mem_callOf (hP : ∀ c ∈ written, P c) : (∀ c ∈ callOf os cs rs es, P c) ↔
    (∀ c ∈ os, P c) ∧ (∀ c ∈ cs, P c) ∧ (∀ c ∈ rs, P c) ∧ ∀ c ∈ es, P c := by
  have hall := hP
  simp only [written, List.forall_mem_cons] at hP
  simp only [callOf, List.forall_mem_cons, List.forall_mem_append, forall_mem_conditionOf hall]
  exact ⟨fun h => ⟨h.2.2.1.1, h.2.2.1.2, h.2.2.2.2.1, h.2.2.2.2.2.2.1⟩,
    fun h => ⟨hP.1, hP.2.1, ⟨h.1, h.2.1⟩, hP.2.2.2.1, h.2.2.1, hP.2.2.2.1, h.2.2.2, hP.2.2.1, nofun⟩⟩

/-- A property of some cells that no written one has. -/
theorem any_callOf {p : Cell → Bool} (hp : ∀ c ∈ written, p c = false) :
    (callOf os cs rs es).any p = (os.any p || (cs.any p || (rs.any p || es.any p))) := by
  rw [Bool.eq_iff_iff, ← not_iff_not]
  simp only [Bool.or_eq_true, List.any_eq_true, not_or, not_exists, not_and, Bool.not_eq_true]
  exact forall_mem_callOf hp

theorem balanced_callOf (ho : Balanced (Cell.kinds os)) (hc : Balanced (Cell.kinds cs)) (hr : Balanced (Cell.kinds rs))
    (he : Balanced (Cell.kinds es)) : Balanced (Cell.kinds (callOf os cs rs es)) := by
  have hside : ∀ {ds : List Cell}, Balanced (Cell.kinds ds) → Balanced (Cell.kinds (sideOf ds)) := by
    intro ds hds
    unfold sideOf
    split
    · exact hds
    · rw [← List.singleton_append, Cell.kinds_append, Cell.kinds_append]
      exact .group hds .nil
  have hcondition : Balanced (Cell.kinds (conditionOf os cs)) := by
    unfold conditionOf
    split
    · exact hc
    · rw [Cell.kinds_append]
      exact (hside ho).append (.plain nofun nofun (hside hc))
  have hinside : Balanced (Cell.kinds (conditionOf os cs ++ Cell.sign ',' :: (rs ++ Cell.sign ',' :: es))) := by
    rw [Cell.kinds_append]
    refine hcondition.append (.plain nofun nofun ?_)
    show Balanced (Cell.kinds (rs ++ Cell.sign ',' :: es))
    rw [Cell.kinds_append]
    exact hr.append (.plain nofun nofun he)
  have hcall : callOf os cs rs es = Cell.word "IIf".toList :: Cell.sign '(' ::
      ((conditionOf os cs ++ Cell.sign ',' :: (rs ++ Cell.sign ',' :: es)) ++ [Cell.sign ')']) := by
    simp [callOf]
  rw [hcall, Cell.word, Cell.kinds_token, ← List.singleton_append (x := Cell.sign '('), Cell.kinds_append,
    Cell.kinds_append]
  exact .word _ (.group hinside .nil)

theorem Phrase.cells_append : ∀ p p' : Phrase, (p.append p').cells = p.cells ++ p'.cells
  | .nil, _ => rfl
  | .atom a rest, p' => by rw [append, cells, cells_append rest, cells, List.cons_append]
  | .group inside rest, p' => by simp [append, cells, cells_append rest]
  | .conditional caseWord endWord operand arms rest, p' => by simp [append, cells, cells_append rest]
  | .choice operand condition result other rest, p' => by simp [append, cells, cells_append rest]

theorem Phrase.cells_eq_nil_iff : p.cells = [] ↔ p = .nil := by
  cases p <;> simp [cells, callOf]

mutual

theorem Phrase.balanced : ∀ p : Phrase, Balanced (Cell.kinds p.cells)
  | .nil => .nil
  | .atom a rest => .plain a.left a.right rest.balanced
  | .group inside rest => by
    rw [Phrase.cells, ← List.singleton_append, Cell.kinds_append, Cell.kinds_append]
    exact .group inside.balanced rest.balanced
  | .conditional _ _ operand arms rest => by
    rw [Phrase.cells, Cell.kinds_token, Cell.kinds_append, Cell.kinds_append]
    exact .plain nofun nofun (operand.balanced.append (arms.balanced.append (.plain nofun nofun rest.balanced)))
  | .choice operand condition result other rest => by
    rw [Phrase.cells, Cell.kinds_append]
    exact (balanced_callOf operand.balanced condition.balanced result.balanced other.balanced).append rest.balanced

theorem Arms.balanced : ∀ arms : Arms, Balanced (Cell.kinds arms.cells)
  | .none => .nil
  | .otherwise _ other => .plain nofun nofun other.balanced
  | .arm _ _ condition result others => by
    rw [Arms.cells, Cell.kinds_token, Cell.kinds_append, Cell.kinds_token, Cell.kinds_append]
    exact .plain nofun nofun
      (condition.balanced.append (.plain nofun nofun (result.balanced.append others.balanced)))

end

/-! ### Phrases without conditional expressions -/

/-- Whether no conditional expression starts in the cells. -/
def Resolved (cs : List Cell) : Prop :=
  ∀ c ∈ cs, isOpening c = false

theorem isOpening_written : ∀ c ∈ written, isOpening c = false := by decide

theorem Atom.isOpening_cell (a : Atom) : isOpening a.cell = false := by
  have hplain := a.plain
  unfold Atom.cell isOpening
  split
  · next h => rw [(Cell.token.inj h).1] at hplain; cases hplain
  · rfl

@[simp] theorem resolved_nil : Resolved [] := nofun

@[simp] theorem resolved_cons {c : Cell} : Resolved (c :: cs) ↔ isOpening c = false ∧ Resolved cs :=
  List.forall_mem_cons

@[simp] theorem resolved_append : Resolved (cs ++ rs) ↔ Resolved cs ∧ Resolved rs :=
  List.forall_mem_append

@[simp] theorem resolved_callOf :
    Resolved (callOf os cs rs es) ↔ Resolved os ∧ Resolved cs ∧ Resolved rs ∧ Resolved es :=
  forall_mem_callOf isOpening_written

@[simp] theorem resolved_atom {a : Atom} : Resolved (Phrase.atom a p).cells ↔ Resolved p.cells := by
  simp [Phrase.cells, a.isOpening_cell]

@[simp] theorem resolved_group : Resolved (Phrase.group p p').cells ↔ Resolved p.cells ∧ Resolved p'.cells := by
  rw [Phrase.cells, resolved_cons, resolved_append, resolved_cons]
  exact ⟨fun h => ⟨h.2.1, h.2.2.2⟩, fun h => ⟨rfl, h.1, rfl, h.2⟩⟩

theorem not_resolved_conditional {v w : SqlText} : ¬ Resolved (Phrase.conditional v w operand arms p).cells := by
  rw [Phrase.cells, resolved_cons]
  exact fun h => Bool.noConfusion h.1

@[simp] theorem resolved_choice : Resolved (Phrase.choice operand condition result other p).cells ↔
    Resolved operand.cells ∧ Resolved condition.cells ∧ Resolved result.cells ∧ Resolved other.cells ∧
      Resolved p.cells := by
  rw [Phrase.cells, resolved_append, resolved_callOf]
  simp only [and_assoc]

@[simp] theorem resolved_otherwise {w : SqlText} : Resolved (Arms.otherwise w p).cells ↔ Resolved p.cells := by
  rw [Arms.cells, resolved_cons]
  exact ⟨fun h => h.2, fun h => ⟨rfl, h⟩⟩

@[simp] theorem resolved_arm {v w : SqlText} : Resolved (Arms.arm v w condition result arms).cells ↔
    Resolved condition.cells ∧ Resolved result.cells ∧ Resolved arms.cells := by
  rw [Arms.cells, resolved_cons, resolved_append, resolved_cons, resolved_append]
  exact ⟨fun h => ⟨h.2.1, h.2.2.2⟩, fun h => ⟨rfl, h.1, rfl, h.2⟩⟩

/-- The kind of a token that frames no part. -/
def isPlain : Cell → Bool
  | .gap _ => true
  | .token k _ => !isFraming k

/-- What starts no conditional expression has no words that frame one. -/
theorem Phrase.isPlain_of_resolved : ∀ p : Phrase, Resolved p.cells → ∀ c ∈ p.cells, isPlain c = true
  | .nil, _ => nofun
  | .atom a rest, h => by
    rw [cells, List.forall_mem_cons]
    exact ⟨by simp [Atom.cell, isPlain, a.plain], rest.isPlain_of_resolved (resolved_atom.1 h)⟩
  | .group inside rest, h => by
    simp only [cells, List.forall_mem_cons, List.forall_mem_append]
    exact ⟨rfl, inside.isPlain_of_resolved (resolved_group.1 h).1, rfl, rest.isPlain_of_resolved (resolved_group.1 h).2⟩
  | .conditional .., h => absurd h not_resolved_conditional
  | .choice operand condition result other rest, h => by
    obtain ⟨ho, hc, hr, he, hrest⟩ := resolved_choice.1 h
    rw [cells, List.forall_mem_append, forall_mem_callOf (by decide)]
    exact ⟨⟨operand.isPlain_of_resolved ho, condition.isPlain_of_resolved hc, result.isPlain_of_resolved hr,
      other.isPlain_of_resolved he⟩, rest.isPlain_of_resolved hrest⟩

/-! ### Nests of calls -/

theorem Phrase.append_assoc : ∀ p q r : Phrase, (p.append q).append r = p.append (q.append r)
  | .nil, _, _ => rfl
  | .atom a rest, q, r => by rw [append, append, append_assoc rest, append]
  | .group inside rest, q, r => by rw [append, append, append_assoc rest, append]
  | .conditional .. , q, r => by rw [append, append, append_assoc, append]
  | .choice .., q, r => by rw [append, append, append_assoc, append]

theorem Phrase.nested_append : ∀ p p' : Phrase, (p.append p').nested = p.nested.append p'.nested
  | .nil, _ => rfl
  | .atom a rest, p' => by rw [append, nested, nested_append rest, nested, append]
  | .group inside rest, p' => by rw [append, nested, nested_append rest, nested, append]
  | .conditional _ _ operand arms rest, p' => by
    rw [append, nested, nested_append rest, nested, append_assoc]
  | .choice operand condition result other rest, p' => by rw [append, nested, nested_append rest, nested, append]

mutual

/-- In a nest no conditional expression is left. -/
theorem Phrase.resolved_nested : ∀ p : Phrase, Resolved p.nested.cells
  | .nil => resolved_nil
  | .atom a rest => resolved_atom.2 rest.resolved_nested
  | .group inside rest => resolved_group.2 ⟨inside.resolved_nested, rest.resolved_nested⟩
  | .conditional _ _ operand arms rest => by
    rw [Phrase.nested, Phrase.cells_append, resolved_append]
    exact ⟨arms.resolved_nested operand.resolved_nested, rest.resolved_nested⟩
  | .choice operand condition result other rest => resolved_choice.2 ⟨operand.resolved_nested,
      condition.resolved_nested, result.resolved_nested, other.resolved_nested, rest.resolved_nested⟩

theorem Arms.resolved_nested {operand : Phrase} (h : Resolved operand.cells) :
    ∀ arms : Arms, Resolved (arms.nested operand).cells
  | .none => resolved_atom.2 resolved_nil
  | .otherwise _ other => other.resolved_nested
  | .arm _ _ condition result others => resolved_choice.2
      ⟨h, condition.resolved_nested, result.resolved_nested, Arms.resolved_nested h others, resolved_nil⟩

end

/-- Without conditional expressions there is nothing to do. -/
theorem Phrase.nested_of_resolved : ∀ p : Phrase, Resolved p.cells → p.nested = p
  | .nil, _ => rfl
  | .atom a rest, h => by rw [nested, rest.nested_of_resolved (resolved_atom.1 h)]
  | .group inside rest, h => by
    rw [nested, inside.nested_of_resolved (resolved_group.1 h).1, rest.nested_of_resolved (resolved_group.1 h).2]
  | .conditional .., h => absurd h not_resolved_conditional
  | .choice operand condition result other rest, h => by
    obtain ⟨ho, hc, hr, he, hrest⟩ := resolved_choice.1 h
    rw [nested, operand.nested_of_resolved ho, condition.nested_of_resolved hc, result.nested_of_resolved hr,
      other.nested_of_resolved he, rest.nested_of_resolved hrest]

theorem Phrase.isRefused_append : ∀ p p' : Phrase, (p.append p').isRefused = (p.isRefused || p'.isRefused)
  | .nil, _ => rfl
  | .atom a rest, p' => by rw [append, isRefused, isRefused_append rest, isRefused]
  | .group inside rest, p' => by simp only [append, isRefused, isRefused_append rest, Bool.or_assoc]
  | .conditional _ _ operand arms rest, p' => by
    simp only [append, isRefused, isRefused_append rest, Bool.or_assoc]
  | .choice operand condition result other rest, p' => by
    simp only [append, isRefused, isRefused_append rest, Bool.or_assoc]

theorem Phrase.isRefused_of_resolved : ∀ p : Phrase, Resolved p.cells → p.isRefused = false
  | .nil, _ => rfl
  | .atom a rest, h => rest.isRefused_of_resolved (resolved_atom.1 h)
  | .group inside rest, h => by
    rw [isRefused, inside.isRefused_of_resolved (resolved_group.1 h).1,
      rest.isRefused_of_resolved (resolved_group.1 h).2]
    rfl
  | .conditional .., h => absurd h not_resolved_conditional
  | .choice operand condition result other rest, h => by
    obtain ⟨ho, hc, hr, he, hrest⟩ := resolved_choice.1 h
    rw [isRefused, operand.isRefused_of_resolved ho, condition.isRefused_of_resolved hc,
      result.isRefused_of_resolved hr, other.isRefused_of_resolved he, rest.isRefused_of_resolved hrest]
    rfl

theorem Arms.isRefused_of_resolved : ∀ arms : Arms, Resolved arms.cells → arms.isRefused = false
  | .none, _ => rfl
  | .otherwise _ other, h => other.isRefused_of_resolved (resolved_otherwise.1 h)
  | .arm _ _ condition result others, h => by
    obtain ⟨hc, hr, hothers⟩ := resolved_arm.1 h
    rw [isRefused, condition.isRefused_of_resolved hc, result.isRefused_of_resolved hr,
      others.isRefused_of_resolved hothers]
    rfl

/-! ### Proper phrases -/

mutual

/-- Whether every conditional expression has an arm and no part of an arm is missing; calls that stand in place of
conditional expressions have none inside. -/
def Phrase.Proper : Phrase → Prop
  | .nil => True
  | .atom _ rest => rest.Proper
  | .group inside rest => inside.Proper ∧ rest.Proper
  | .conditional _ _ operand arms rest => operand.Proper ∧ (arms.Proper ∧ 0 < arms.count) ∧ rest.Proper
  | .choice operand condition result other rest =>
      Resolved (callOf operand.cells condition.cells result.cells other.cells) ∧ rest.Proper

/-- Whether no part is missing, here and inside. -/
def Arms.Proper : Arms → Prop
  | .none => True
  | .otherwise _ other => other ≠ .nil ∧ other.Proper
  | .arm _ _ condition result others =>
      (condition ≠ .nil ∧ condition.Proper) ∧ (result ≠ .nil ∧ result.Proper) ∧ others.Proper

end

theorem Phrase.proper_append : ∀ p p' : Phrase, p.Proper → p'.Proper → (p.append p').Proper
  | .nil, _, _, h' => h'
  | .atom _ rest, p', h, h' => rest.proper_append p' h h'
  | .group _ rest, p', h, h' => ⟨h.1, rest.proper_append p' h.2 h'⟩
  | .conditional _ _ _ _ rest, p', h, h' => ⟨h.1, h.2.1, rest.proper_append p' h.2.2 h'⟩
  | .choice _ _ _ _ rest, p', h, h' => ⟨h.1, rest.proper_append p' h.2 h'⟩

theorem Phrase.proper_of_resolved : ∀ p : Phrase, Resolved p.cells → p.Proper
  | .nil, _ => trivial
  | .atom _ rest, h => rest.proper_of_resolved (resolved_atom.1 h)
  | .group inside rest, h =>
    ⟨inside.proper_of_resolved (resolved_group.1 h).1, rest.proper_of_resolved (resolved_group.1 h).2⟩
  | .conditional .., h => absurd h not_resolved_conditional
  | .choice _ _ _ _ rest, h => by
    obtain ⟨ho, hc, hr, he, hrest⟩ := resolved_choice.1 h
    exact ⟨resolved_callOf.2 ⟨ho, hc, hr, he⟩, rest.proper_of_resolved hrest⟩

mutual

/-- A nest has the parameters of the conditional expressions, some of them more than once. -/
theorem Phrase.any_isMarker_nested : ∀ p : Phrase, p.Proper → p.nested.cells.any Cell.isMarker = p.cells.any Cell.isMarker
  | .nil, _ => rfl
  | .atom a rest, h => by
    rw [Phrase.nested, Phrase.cells, Phrase.cells, List.any_cons, List.any_cons, rest.any_isMarker_nested h]
  | .group inside rest, h => by
    simp only [Phrase.nested, Phrase.cells, List.any_cons, List.any_append, inside.any_isMarker_nested h.1,
      rest.any_isMarker_nested h.2]
  | .conditional _ _ operand arms rest, h => by
    have harms := arms.any_isMarker_nested operand.nested h.2.1.1
    rw [operand.any_isMarker_nested h.1, decide_eq_true h.2.1.2, Bool.true_and] at harms
    simp only [Phrase.nested, Phrase.cells_append, Phrase.cells, List.any_cons, List.any_append, harms,
      rest.any_isMarker_nested h.2.2, Bool.or_assoc]
    rfl
  | .choice operand condition result other rest, h => by
    obtain ⟨ho, hc, hr, he⟩ := resolved_callOf.1 h.1
    simp only [Phrase.nested, operand.nested_of_resolved ho, condition.nested_of_resolved hc,
      result.nested_of_resolved hr, other.nested_of_resolved he, Phrase.cells, List.any_append,
      rest.any_isMarker_nested h.2]

theorem Arms.any_isMarker_nested (operand : Phrase) : ∀ arms : Arms, arms.Proper →
    (arms.nested operand).cells.any Cell.isMarker
      = ((decide (0 < arms.count) && operand.cells.any Cell.isMarker) || arms.cells.any Cell.isMarker)
  | .none, _ => rfl
  | .otherwise _ other, h => by
    rw [Arms.nested, other.any_isMarker_nested h.2]
    rfl
  | .arm _ _ condition result others, h => by
    have hothers := Arms.any_isMarker_nested operand others h.2.2
    simp only [Arms.nested, Phrase.cells, List.append_nil, any_callOf (p := Cell.isMarker) (by decide), hothers,
      condition.any_isMarker_nested h.1.2, result.any_isMarker_nested h.2.1.2, Arms.cells, List.any_cons,
      List.any_append, Arms.count]
    cases operand.cells.any Cell.isMarker <;> simp [Cell.isMarker, Kind.isMarker]

end

/-- A nest of calls is something. -/
theorem Arms.nested_ne_nil (hc : 0 < arms.count) (operand : Phrase) : arms.nested operand ≠ .nil := by
  cases arms with
  | none | otherwise => cases hc
  | arm => exact nofun

theorem Phrase.nested_eq_nil_iff (h : p.Proper) : p.nested = .nil ↔ p = .nil := by
  cases p with
  | conditional v w operand arms rest =>
    refine ⟨fun hnil => ?_, nofun⟩
    have hne := Arms.nested_ne_nil h.2.1.2 operand.nested
    rw [nested, ← cells_eq_nil_iff, cells_append, List.append_eq_nil_iff, cells_eq_nil_iff] at hnil
    exact absurd hnil.1 hne
  | nil => exact ⟨fun _ => rfl, fun _ => rfl⟩
  | atom | group | choice => exact ⟨nofun, nofun⟩

/-! ### What phrases say -/

/-- What sequences of tokens with values in their midst say, when a value holds, and when two are the same; a value by
itself says what it is. -/
structure Valuation (α : Type) where
  value : List (Cell ⊕ α) → α
  holds : α → Bool
  same : α → α → Bool
  value_single : ∀ a : α, value [.inr a] = a

variable {α : Type}

/-- Whether a condition holds, or an operand has a value. -/
def Valuation.affirms (V : Valuation α) (operand condition : List (Cell ⊕ α)) : Bool :=
  if operand.isEmpty then V.holds (V.value condition) else V.same (V.value operand) (V.value condition)

mutual

/-- The tokens of a phrase, with the values of conditional expressions and calls of `IIf` in their midst. -/
def Phrase.parts (V : Valuation α) : Phrase → List (Cell ⊕ α)
  | .nil => []
  | .atom a rest => .inl a.cell :: rest.parts V
  | .group inside rest => .inl (Cell.sign '(') :: (inside.parts V ++ .inl (Cell.sign ')') :: rest.parts V)
  | .conditional _ _ operand arms rest => .inr (arms.chosen V (operand.parts V)) :: rest.parts V
  | .choice operand condition result other rest =>
      .inr (if V.affirms (operand.parts V) (condition.parts V) then V.value (result.parts V)
        else V.value (other.parts V)) :: rest.parts V

/-- The value of the first arm that applies to an operand. -/
def Arms.chosen (V : Valuation α) (operand : List (Cell ⊕ α)) : Arms → α
  | .none => V.value [.inl Atom.null.cell]
  | .otherwise _ other => V.value (other.parts V)
  | .arm _ _ condition result others =>
      if V.affirms operand (condition.parts V) then V.value (result.parts V) else others.chosen V operand

end

variable {V : Valuation α}

theorem Phrase.parts_append : ∀ p p' : Phrase, (p.append p').parts V = p.parts V ++ p'.parts V
  | .nil, _ => rfl
  | .atom a rest, p' => by rw [append, parts, parts_append rest, parts, List.cons_append]
  | .group inside rest, p' => by simp [append, parts, parts_append rest]
  | .conditional .., p' => by rw [append, parts, parts_append, parts, List.cons_append]
  | .choice .., p' => by rw [append, parts, parts_append, parts, List.cons_append]

/-- A nest of calls has one value. -/
theorem Arms.exists_parts_nested (hc : 0 < arms.count) (operand : Phrase) :
    ∃ a, (arms.nested operand).parts V = [.inr a] := by
  cases arms with
  | none | otherwise => cases hc
  | arm => exact ⟨_, rfl⟩

mutual

/-- A phrase and its nests of calls say the same. -/
theorem Phrase.parts_nested : ∀ p : Phrase, p.Proper → p.nested.parts V = p.parts V
  | .nil, _ => rfl
  | .atom a rest, h => by rw [Phrase.nested, Phrase.parts, rest.parts_nested h, Phrase.parts]
  | .group inside rest, h => by
    rw [Phrase.nested, Phrase.parts, inside.parts_nested h.1, rest.parts_nested h.2, Phrase.parts]
  | .conditional _ _ operand arms rest, h => by
    obtain ⟨a, ha⟩ := Arms.exists_parts_nested (V := V) h.2.1.2 operand.nested
    have hvalue := arms.value_nested operand.nested h.2.1.1
    rw [ha, V.value_single, operand.parts_nested h.1] at hvalue
    rw [Phrase.nested, Phrase.parts_append, ha, rest.parts_nested h.2.2, Phrase.parts, hvalue]
    rfl
  | .choice operand condition result other rest, h => by
    obtain ⟨ho, hc, hr, he⟩ := resolved_callOf.1 h.1
    rw [Phrase.nested, operand.nested_of_resolved ho, condition.nested_of_resolved hc, result.nested_of_resolved hr,
      other.nested_of_resolved he, Phrase.parts, rest.parts_nested h.2, Phrase.parts]

theorem Arms.value_nested (operand : Phrase) : ∀ arms : Arms, arms.Proper →
    V.value ((arms.nested operand).parts V) = arms.chosen V (operand.parts V)
  | .none, _ => rfl
  | .otherwise _ other, h => by rw [Arms.nested, other.parts_nested h.2, Arms.chosen]
  | .arm _ _ condition result others, h => by
    rw [Arms.nested, Phrase.parts, condition.parts_nested h.1.2, result.parts_nested h.2.1.2,
      Arms.value_nested operand others h.2.2, Phrase.parts, V.value_single, Arms.chosen]

end

end JetAdapter.Conditional
