import JetAdapter.Proofs.Partners
import JetAdapter.Proofs.Nests

/-!
# Trees of queries

What stands outside of all parentheses, or inside of a pair of them, is a list of tokens, of groups in parentheses and
of selections (`QueryTree`).  A selection has its modifiers, its list and its clauses, and reaches up to a `UNION` or a
semicolon beside it or to the end of what it stands in; selections in its list and in its clauses are in parentheses, to
any depth (`QueryTree.isProper`).  A tree says by itself which scopes its selections have (`QueryTree.scopes`).

The program has no trees: it finds scopes by a scan that compares depths.  A proper tree is read as its tokens
(`QueryTree.nest_append`), what it selects is cut where its clauses are (`ClauseTrees.cut_tokens`), and the scan finds
the scopes of its selections one after another (`QueryTree.among_append`).  Of two scopes the later one is inside of the
list of the earlier one or apart from it (`QueryTree.pairwise_scopes`), so that the last scope which lists a token is the
innermost one.  So the scopes of a query are the selections of its tree (`Query.scopes_of_tree`).
-/

namespace JetAdapter

/-! ### Lexemes -/

namespace Lexeme

/-- Whether the token is sound and changes no depth. -/
def isSound (l : Lexeme) : Bool :=
  !(l.kind.isFault || l.kind == .eof || l.isSymbol .leftParen || l.isSymbol .rightParen)

/-- Whether the token ends the selections of its depth. -/
def isEnding (l : Lexeme) : Bool :=
  l.isKeyword .UNION || l.isSymbol .semicolon

/-- Whether the token opens a clause, if a `BY` follows it or not. -/
def opensClause (l : Lexeme) (byFollows : Bool) : Bool :=
  l.isKeyword .FROM || l.isKeyword .WHERE || l.isKeyword .HAVING ||
    ((l.isKeyword .GROUP || l.isKeyword .ORDER) && byFollows)

/-- Whether the token modifies a `SELECT` that it stands behind. -/
def isModifier (l : Lexeme) : Bool :=
  l.isKeyword .DISTINCT || l.isKeyword .ALL || l.isKeyword .TOP

end Lexeme

/-- The words that open a clause. -/
def ClauseKind.words : ClauseKind → List Keyword
  | .tables => [.FROM]
  | .filter => [.WHERE]
  | .groups => [.GROUP, .BY]
  | .groupFilter => [.HAVING]
  | .ordering => [.ORDER, .BY]

/-- What may stand between a `SELECT` and its list: `DISTINCT` or `ALL`, and `TOP` with the token after it. -/
structure Modifiers where
  quantifier : Option PlacedLexeme
  top : Option (PlacedLexeme × PlacedLexeme)
deriving DecidableEq

namespace Modifiers

def lexemes (m : Modifiers) : List PlacedLexeme :=
  m.quantifier.toList ++ (m.top.map fun (word, count) => [word, count]).getD []

/-- Whether the words are those of modifiers, and the count is one token inside of the selection. -/
def isProper (m : Modifiers) : Bool :=
  (m.quantifier.all fun l => l.isQuantifier) && m.top.all fun (word, count) => word.isKeyword .TOP &&
    (count.isSound && !(count.isKeyword .SELECT || count.isEnding || count.opensClause true))

end Modifiers

/-! ### Trees -/

mutual

/-- What stands outside of all parentheses or in a pair of them: tokens, groups in parentheses, and selections, each
with its modifiers, its list and its clauses. -/
inductive QueryTree
  | nil
  | token (lexeme : PlacedLexeme) (rest : QueryTree)
  | group (opening : PlacedLexeme) (inside : QueryTree) (closing : PlacedLexeme) (rest : QueryTree)
  | select (word : PlacedLexeme) (modifiers : Modifiers) (list : QueryTree) (clauses : ClauseTrees) (rest : QueryTree)

/-- The clauses of a selection. -/
inductive ClauseTrees
  | nil
  | cons (kind : ClauseKind) (words : List PlacedLexeme) (body : QueryTree) (rest : ClauseTrees)

end

mutual

/-- The tokens of a tree in their order. -/
def QueryTree.lexemes : QueryTree → List PlacedLexeme
  | .nil => []
  | .token l rest => l :: rest.lexemes
  | .group opening inside closing rest => opening :: (inside.lexemes ++ closing :: rest.lexemes)
  | .select word modifiers list clauses rest =>
    word :: (modifiers.lexemes ++ (list.lexemes ++ (clauses.lexemes ++ rest.lexemes)))

def ClauseTrees.lexemes : ClauseTrees → List PlacedLexeme
  | .nil => []
  | .cons _ words body rest => words ++ (body.lexemes ++ rest.lexemes)

end

/-- Tokens that stand at one depth. -/
def Token.atDepth (d : Nat) (ls : List PlacedLexeme) : List Token :=
  ls.map fun l => ⟨l, d⟩

mutual

/-- The tokens of a tree inside so many parentheses, each with the number of parentheses around it. -/
def QueryTree.tokens (d : Nat) : QueryTree → List Token
  | .nil => []
  | .token l rest => ⟨l, d⟩ :: rest.tokens d
  | .group opening inside closing rest => ⟨opening, d⟩ :: (inside.tokens (d + 1) ++ ⟨closing, d⟩ :: rest.tokens d)
  | .select word modifiers list clauses rest =>
    ⟨word, d⟩ :: (Token.atDepth d modifiers.lexemes ++ (list.tokens d ++ (clauses.tokens d ++ rest.tokens d)))

def ClauseTrees.tokens (d : Nat) : ClauseTrees → List Token
  | .nil => []
  | .cons _ words body rest => Token.atDepth d words ++ (body.tokens d ++ rest.tokens d)

end

/-- Whether outside of all groups nothing selects, ends a selection or opens a clause. -/
def QueryTree.isPlain : QueryTree → Bool
  | .nil => true
  | .token l rest =>
    !(l.isEnding || l.opensClause (rest.lexemes.head?.any fun u => u.isKeyword .BY)) && rest.isPlain
  | .group _ _ _ rest => rest.isPlain
  | .select .. => false

/-- The kinds of the clauses. -/
def ClauseTrees.kinds : ClauseTrees → List ClauseKind
  | .nil => []
  | .cons kind _ _ rest => kind :: rest.kinds

mutual

/-- Whether a tree is one of a query: the tokens are what their places ask for, lists and bodies of clauses are plain,
no list starts with a modifier, no clause is there twice, and a selection reaches up to what ends it. -/
def QueryTree.isProper : QueryTree → Bool
  | .nil => true
  | .token l rest => (l.isSound && !l.isKeyword .SELECT) && rest.isProper
  | .group opening inside closing rest =>
    opening.isSymbol .leftParen && (inside.isProper && (closing.isSymbol .rightParen && rest.isProper))
  | .select word modifiers list clauses rest =>
    word.isKeyword .SELECT && (modifiers.isProper && (((list.isProper && list.isPlain) &&
      !list.lexemes.head?.any fun l => l.isModifier) && ((clauses.isProper && decide clauses.kinds.Nodup) &&
      (rest.isProper && rest.lexemes.head?.all fun l => l.isEnding))))

def ClauseTrees.isProper : ClauseTrees → Bool
  | .nil => true
  | .cons kind words body rest =>
    decide (words.map (·.kind) = kind.words.map .keyword) && ((body.isProper && body.isPlain) && rest.isProper)

end

/-- The clauses as they stand in a query, the last of them before a place. -/
def ClauseTrees.clauses (d stop : Nat) : ClauseTrees → List Clause
  | .nil => []
  | .cons kind words body rest =>
    ⟨kind, Token.atDepth d words, body.tokens d, Token.startOr stop (rest.tokens d)⟩ :: rest.clauses d stop

mutual

/-- The scopes of the selections of a tree, which stands inside so many parentheses and before a place: the selections
in the order of the text, each with its own modifiers, list and clauses. -/
def QueryTree.scopes (d stop : Nat) : QueryTree → List Scope
  | .nil => []
  | .token _ rest => rest.scopes d stop
  | .group _ inside closing rest => inside.scopes (d + 1) closing.start ++ rest.scopes d stop
  | .select word modifiers list clauses rest =>
    let scopeStop := Token.startOr stop (rest.tokens d)
    ⟨⟨word, d⟩, Token.atDepth d modifiers.lexemes ++ (list.tokens d ++ clauses.tokens d),
        Token.atDepth d modifiers.lexemes, list.tokens d, clauses.clauses d scopeStop⟩ ::
      (list.scopes d (Token.startOr scopeStop (clauses.tokens d)) ++ (clauses.scopes d scopeStop ++ rest.scopes d stop))

def ClauseTrees.scopes (d stop : Nat) : ClauseTrees → List Scope
  | .nil => []
  | .cons _ _ body rest => body.scopes d (Token.startOr stop (rest.tokens d)) ++ rest.scopes d stop

end

/-! ### Tokens of trees -/

section Tokens

variable {p : QueryTree} {cs : ClauseTrees} {m : Modifiers} {l : PlacedLexeme} {ls ls' : List PlacedLexeme}
  {ts us : List Token} {t : Token} {d stop : Nat}

mutual

/-- The tokens of a tree stand inside the parentheses around it. -/
theorem QueryTree.le_depth (d : Nat) : ∀ p : QueryTree, ∀ t ∈ p.tokens d, d ≤ t.depth
  | .nil => List.forall_mem_nil _
  | .token l rest => List.forall_mem_cons.2 ⟨Nat.le_refl d, rest.le_depth d⟩
  | .group opening inside closing rest => by
    rw [QueryTree.tokens, List.forall_mem_cons, List.forall_mem_append, List.forall_mem_cons]
    exact ⟨Nat.le_refl d, fun t ht => Nat.le_of_succ_le (inside.le_depth (d + 1) t ht), Nat.le_refl d, rest.le_depth d⟩
  | .select word modifiers list clauses rest => by
    rw [QueryTree.tokens, List.forall_mem_cons, List.forall_mem_append, List.forall_mem_append, List.forall_mem_append,
      Token.atDepth, List.forall_mem_map]
    exact ⟨Nat.le_refl d, fun _ _ => Nat.le_refl d, list.le_depth d, clauses.le_depth d, rest.le_depth d⟩

theorem ClauseTrees.le_depth (d : Nat) : ∀ cs : ClauseTrees, ∀ t ∈ cs.tokens d, d ≤ t.depth
  | .nil => List.forall_mem_nil _
  | .cons kind words body rest => by
    rw [ClauseTrees.tokens, List.forall_mem_append, List.forall_mem_append, Token.atDepth, List.forall_mem_map]
    exact ⟨fun _ _ => Nat.le_refl d, body.le_depth d, rest.le_depth d⟩

end

theorem QueryTree.head?_tokens (d : Nat) (p : QueryTree) :
    (p.tokens d).head? = p.lexemes.head?.map fun l => ⟨l, d⟩ := by
  cases p <;> rfl

theorem Token.startOr_append (stop : Nat) (as bs : List Token) :
    startOr stop (as ++ bs) = startOr (startOr stop bs) as := by
  cases as <;> rfl

/-! ### Reading -/

namespace Query

theorem nest_sound (hl : l.isSound = true) (h : nest d ls = .ok ts) : nest d (l :: ls) = .ok (⟨l, d⟩ :: ts) := by
  simp only [Lexeme.isSound, Bool.not_eq_true', Bool.or_eq_false_iff, beq_eq_false_iff_ne, Lexeme.isSymbol,
    Kind.isSymbol, decide_eq_false_iff_not] at hl
  obtain ⟨⟨⟨hfault, heof⟩, hleft⟩, hright⟩ := hl
  rw [nest.eq_def]
  simp only
  split
  · next hk => simp [hk, Kind.isFault] at hfault
  · next hk => exact absurd hk heof
  · next hk => exact absurd hk hleft
  · next hk => exact absurd hk hright
  · rw [h]
    rfl

theorem nest_atDepth (hls : ∀ l ∈ ls, l.isSound = true) (h : nest d ls' = .ok ts) :
    nest d (ls ++ ls') = .ok (Token.atDepth d ls ++ ts) := by
  induction ls with
  | nil => exact h
  | cons l ls ih =>
    obtain ⟨hl, hls⟩ := List.forall_mem_cons.1 hls
    exact nest_sound hl (ih hls)

theorem nest_leftParen (hl : l.isSymbol .leftParen = true) (h : nest (d + 1) ls = .ok ts) :
    nest d (l :: ls) = .ok (⟨l, d⟩ :: ts) := by
  have hk : l.kind = .symbol .leftParen := Kind.isSymbol_iff.1 hl
  rw [nest.eq_def]
  simp only [hk, h]
  rfl

theorem nest_rightParen (hl : l.isSymbol .rightParen = true) (h : nest d ls = .ok ts) :
    nest (d + 1) (l :: ls) = .ok (⟨l, d⟩ :: ts) := by
  have hk : l.kind = .symbol .rightParen := Kind.isSymbol_iff.1 hl
  rw [nest.eq_def]
  simp only [hk, h]
  rfl

end Query

theorem Lexeme.isSound_of_isKeyword {l : Lexeme} {k : Keyword} (h : l.isKeyword k = true) : l.isSound = true := by
  have hk : l.kind = .keyword k := Kind.isKeyword_iff.1 h
  simp [isSound, Lexeme.isSymbol, Kind.isSymbol, hk, Kind.isFault]

/-- The modifiers are sound, neither start nor end a selection, and open no clause. -/
theorem Modifiers.plain (h : m.isProper = true) : ∀ l ∈ m.lexemes, l.isSound = true ∧ l.isKeyword .SELECT = false ∧
    l.isEnding = false ∧ l.opensClause true = false := by
  have hword : ∀ {l : PlacedLexeme} {k : Keyword}, l.isKeyword k = true → k = .DISTINCT ∨ k = .ALL ∨ k = .TOP →
      l.isSound = true ∧ l.isKeyword .SELECT = false ∧ l.isEnding = false ∧ l.opensClause true = false := by
    intro l k hl hk
    have hkind : l.kind = .keyword k := Kind.isKeyword_iff.1 hl
    rcases hk with rfl | rfl | rfl <;>
      simp [Lexeme.isSound, Lexeme.isKeyword, Lexeme.isSymbol, Lexeme.isEnding, Lexeme.opensClause, hkind,
        Kind.isFault, Kind.isKeyword, Kind.isSymbol]
  rw [isProper, Bool.and_eq_true] at h
  obtain ⟨hquantifier, htop⟩ := h
  rw [lexemes, List.forall_mem_append]
  constructor
  · intro l hl
    have hl := (Option.all_eq_true _ _).1 hquantifier l (Option.mem_toList.1 hl)
    rw [Lexeme.isQuantifier, Bool.or_eq_true] at hl
    rcases hl with hl | hl
    · exact hword hl (.inl rfl)
    · exact hword hl (.inr (.inl rfl))
  · cases ht : m.top with
    | none => exact List.forall_mem_nil _
    | some top =>
      obtain ⟨word, count⟩ := top
      have htop := (Option.all_eq_true _ _).1 htop _ ht
      simp only [Bool.and_eq_true, Bool.not_eq_true', Bool.or_eq_false_iff] at htop
      obtain ⟨htop, hsound, ⟨hselect, hending⟩, hopens⟩ := htop
      rw [Option.map_some, Option.getD_some, List.forall_mem_cons, List.forall_mem_singleton]
      exact ⟨hword htop (.inr (.inr rfl)), hsound, hselect, hending, hopens⟩

theorem ClauseTrees.exists_keyword {words : List PlacedLexeme} {ks : List Keyword}
    (h : words.map (·.kind) = ks.map .keyword) : ∀ l ∈ words, ∃ k ∈ ks, l.kind = .keyword k := by
  intro l hl
  have hmem : l.kind ∈ words.map (·.kind) := List.mem_map_of_mem hl
  rw [h] at hmem
  obtain ⟨k, hk, heq⟩ := List.mem_map.1 hmem
  exact ⟨k, hk, heq.symm⟩

mutual

/-- A proper tree is read as its tokens. -/
theorem QueryTree.nest_append {d : Nat} {ls : List PlacedLexeme} {ts : List Token} (h : Query.nest d ls = .ok ts) :
    ∀ p : QueryTree, p.isProper = true → Query.nest d (p.lexemes ++ ls) = .ok (p.tokens d ++ ts)
  | .nil, _ => h
  | .token l rest, hp => by
    simp only [QueryTree.isProper, Bool.and_eq_true] at hp
    exact Query.nest_sound hp.1.1 (rest.nest_append h hp.2)
  | .group opening inside closing rest, hp => by
    simp only [QueryTree.isProper, Bool.and_eq_true] at hp
    obtain ⟨hleft, hinside, hright, hrest⟩ := hp
    simp only [QueryTree.lexemes, QueryTree.tokens, List.cons_append, List.append_assoc]
    refine Query.nest_leftParen hleft (inside.nest_append ?_ hinside)
    exact Query.nest_rightParen hright (rest.nest_append h hrest)
  | .select word modifiers list clauses rest, hp => by
    simp only [QueryTree.isProper, Bool.and_eq_true] at hp
    obtain ⟨hword, hmodifiers, ⟨⟨hlist, -⟩, -⟩, ⟨hclauses, -⟩, hrest, -⟩ := hp
    simp only [QueryTree.lexemes, QueryTree.tokens, List.cons_append, List.append_assoc]
    refine Query.nest_sound (Lexeme.isSound_of_isKeyword hword) ?_
    refine Query.nest_atDepth (fun l hl => (Modifiers.plain hmodifiers l hl).1) ?_
    exact list.nest_append (clauses.nest_append (rest.nest_append h hrest) hclauses) hlist

theorem ClauseTrees.nest_append {d : Nat} {ls : List PlacedLexeme} {ts : List Token} (h : Query.nest d ls = .ok ts) :
    ∀ cs : ClauseTrees, cs.isProper = true → Query.nest d (cs.lexemes ++ ls) = .ok (cs.tokens d ++ ts)
  | .nil, _ => h
  | .cons kind words body rest, hp => by
    simp only [ClauseTrees.isProper, Bool.and_eq_true, decide_eq_true_eq] at hp
    obtain ⟨hwords, ⟨hbody, -⟩, hrest⟩ := hp
    simp only [ClauseTrees.lexemes, ClauseTrees.tokens, List.append_assoc]
    refine Query.nest_atDepth (fun l hl => ?_) (body.nest_append (rest.nest_append h hrest) hbody)
    obtain ⟨k, -, hk⟩ := ClauseTrees.exists_keyword hwords l hl
    exact Lexeme.isSound_of_isKeyword (Kind.isKeyword_iff.2 hk)

end

/-! ### Clauses -/

namespace Clause

/-- A token that opens no clause by its words opens none. -/
theorem opened?_eq_none (h : t.opensClause (us.head?.any fun u => u.isKeyword .BY) = false) : opened? t us = none := by
  have hne : ∀ {k}, t.kind.keyword? = some k → t.toLexeme.isKeyword k = true := by
    intro k hk
    cases ht : t.kind with
    | keyword k' =>
      rw [ht] at hk
      obtain rfl : k' = k := Option.some.inj hk
      simp [Lexeme.isKeyword, Kind.isKeyword, ht]
    | _ => rw [ht] at hk; cases hk
  simp only [Lexeme.opensClause, Bool.or_eq_false_iff, Bool.and_eq_false_iff] at h
  obtain ⟨⟨⟨hfrom, hwhere⟩, hhaving⟩, hby⟩ := h
  unfold opened?
  simp only
  split
  · next hk => rw [hne hk] at hfrom; cases hfrom
  · next hk => rw [hne hk] at hwhere; cases hwhere
  · next hk => rw [hne hk] at hhaving; cases hhaving
  · next hk =>
    rcases hby with hgroup | hby
    · rw [hne hk] at hgroup
      cases hgroup.1
    · rw [hby]
      rfl
  · next hk =>
    rcases hby with horder | hby
    · rw [hne hk] at horder
      cases horder.2
    · rw [hby]
      rfl
  · rfl

/-- A clause that is opened in front of what is cut already. -/
theorem cut_cons_of_opened {kind : ClauseKind} {more : Nat} {front : List Token} {clauses : List Clause}
    (hd : t.depth = d) (ho : opened? t ts = some (kind, more)) (hcut : cut d stop ts = (front, clauses)) :
    cut d stop (t :: ts) = ([], ⟨kind, t :: front.take more, front.drop more,
      (clauses.head?.map Clause.start).getD stop⟩ :: clauses) := by
  rw [cut, hcut, if_pos hd, ho]
  cases clauses <;> rfl

end Clause

/-- Where the tree is not empty it starts as its tokens do. -/
theorem QueryTree.any_head?_append (P : Lexeme → Bool) (d : Nat) (p : QueryTree)
    (hus : (us.head?.any fun t => P t.toLexeme) = false) :
    ((p.tokens d ++ us).head?.any fun t => P t.toLexeme) = p.lexemes.head?.any fun l => P l.toLexeme := by
  rw [List.head?_append, p.head?_tokens]
  cases p.lexemes.head? with
  | none => exact hus
  | some l => rfl

/-- Induction along what stands outside of the groups of a plain tree. -/
@[elab_as_elim]
theorem QueryTree.plainInduct {motive : QueryTree → Prop} (hp : p.isProper = true) (hplain : p.isPlain = true)
    (nil : motive .nil)
    (token : ∀ l rest, l.isEnding = false → l.opensClause (rest.lexemes.head?.any fun u => u.isKeyword .BY) = false →
      motive rest → motive (.token l rest))
    (group : ∀ opening inside closing rest, opening.isSymbol .leftParen = true → closing.isSymbol .rightParen = true →
      motive rest → motive (.group opening inside closing rest)) : motive p := by
  induction p using QueryTree.isPlain.induct with
  | case1 => exact nil
  | case2 l rest ih =>
    simp only [isProper, Bool.and_eq_true] at hp
    simp only [isPlain, Bool.and_eq_true, Bool.not_eq_true', Bool.or_eq_false_iff] at hplain
    exact token l rest hplain.1.1 hplain.1.2 (ih hp.2 hplain.2)
  | case3 opening inside closing rest ih =>
    simp only [isProper, Bool.and_eq_true] at hp
    exact group opening inside closing rest hp.1 hp.2.2.1 (ih hp.2.2.2 hplain)
  | case4 => cases hplain

/-- No clause is opened in a plain tree. -/
theorem QueryTree.cut_append (hp : p.isProper = true) (hplain : p.isPlain = true) (d stop : Nat)
    (hus : (us.head?.any fun t => t.isKeyword .BY) = false) :
    Clause.cut d stop (p.tokens d ++ us) = (p.tokens d ++ (Clause.cut d stop us).1, (Clause.cut d stop us).2) := by
  refine QueryTree.plainInduct hp hplain ?nil ?token ?group
  case nil => rfl
  case token =>
    intro l rest _ hopens ih
    have hhead := rest.any_head?_append (fun l => l.isKeyword .BY) d hus
    have hnone : Clause.opened? ⟨l, d⟩ (rest.tokens d ++ us) = none := by
      refine Clause.opened?_eq_none ?_
      rw [← hopens]
      exact congrArg _ hhead
    rw [tokens, List.cons_append, Clause.cut, if_pos rfl, hnone, ih]
    rfl
  case group =>
    intro opening inside closing rest hleft hright ih
    have hparen : ∀ {l : PlacedLexeme} {s : Symbol}, l.isSymbol s = true →
        ∀ after, Clause.opened? ⟨l, d⟩ after = none := by
      intro l s hl after
      have hk : l.kind = .symbol s := Kind.isSymbol_iff.1 hl
      simp [Clause.opened?, hk, Kind.keyword?]
    have hgroup : ∀ t ∈ (⟨opening, d⟩ : Token) :: (inside.tokens (d + 1) ++ [⟨closing, d⟩]), t.depth = d →
        ∀ after, Clause.opened? t after = none := by
      rw [List.forall_mem_cons, List.forall_mem_append, List.forall_mem_singleton]
      refine ⟨fun _ => hparen hleft, fun t ht hd => ?_, fun _ => hparen hright⟩
      have hle := inside.le_depth (d + 1) t ht
      omega
    have hcut := Clause.cut_append_of_not hgroup stop (rest.tokens d ++ us)
    rw [ih] at hcut
    simpa [tokens] using hcut

/-- The words of a kind of clauses are the keyword that opens it and what has to follow that. -/
theorem ClauseKind.exists_words (kind : ClauseKind) : ∃ k more, kind.words = k :: more ∧ (∀ b ∈ more, b = .BY) ∧
    k ∈ [.FROM, .WHERE, .GROUP, .HAVING, .ORDER] ∧ ∀ (t : Token) after, t.kind = .keyword k →
      (more ≠ [] → (after.head?.any fun u => u.isKeyword .BY) = true) →
        Clause.opened? t after = some (kind, more.length) := by
  cases kind with
  | tables =>
    refine ⟨.FROM, [], rfl, List.forall_mem_nil _, by decide, fun t after ht _ => ?_⟩
    simp [Clause.opened?, ht, Kind.keyword?]
  | filter =>
    refine ⟨.WHERE, [], rfl, List.forall_mem_nil _, by decide, fun t after ht _ => ?_⟩
    simp [Clause.opened?, ht, Kind.keyword?]
  | groupFilter =>
    refine ⟨.HAVING, [], rfl, List.forall_mem_nil _, by decide, fun t after ht _ => ?_⟩
    simp [Clause.opened?, ht, Kind.keyword?]
  | groups =>
    refine ⟨.GROUP, [.BY], rfl, by simp, by decide, fun t after ht hby => ?_⟩
    simp [Clause.opened?, ht, Kind.keyword?, hby (List.cons_ne_nil _ _)]
  | ordering =>
    refine ⟨.ORDER, [.BY], rfl, by simp, by decide, fun t after ht hby => ?_⟩
    simp [Clause.opened?, ht, Kind.keyword?, hby (List.cons_ne_nil _ _)]

namespace ClauseTrees

variable {kind : ClauseKind} {words : List PlacedLexeme}

/-- The first of the words that open a clause opens it, and the others open none. -/
theorem opened?_words (d : Nat) (h : words.map (·.kind) = kind.words.map .keyword) : ∃ w more, words = w :: more ∧
    (∃ k ∈ [Keyword.FROM, .WHERE, .GROUP, .HAVING, .ORDER], w.kind = .keyword k) ∧
      (∀ after, Clause.opened? ⟨w, d⟩ (Token.atDepth d more ++ after) = some (kind, more.length)) ∧
      ∀ t ∈ Token.atDepth d more, ∀ after, Clause.opened? t after = none := by
  obtain ⟨k, tail, hwords, htail, hk, hopens⟩ := kind.exists_words
  rw [hwords, List.map_cons] at h
  obtain ⟨w, more, rfl, hw, hmore⟩ := List.map_eq_cons_iff.1 h
  have hlength : more.length = tail.length := by simpa using congrArg List.length hmore
  have hby : ∀ b ∈ more, b.kind = .keyword .BY := by
    intro b hb
    obtain ⟨k', hk', heq⟩ := exists_keyword hmore b hb
    rw [heq, htail k' hk']
  refine ⟨w, more, rfl, ⟨k, hk, hw⟩, fun after => ?_, ?_⟩
  · rw [hlength]
    refine hopens _ _ hw fun hne => ?_
    cases more with
    | nil => exact absurd (List.length_eq_zero_iff.1 hlength.symm) hne
    | cons b more => simp [Token.atDepth, Token.isKeyword, Kind.isKeyword, hby b List.mem_cons_self]
  · rw [Token.atDepth, List.forall_mem_map]
    intro b hb after
    simp [Clause.opened?, hby b hb, Kind.keyword?]

/-- Clauses start neither with what belongs to the words of one nor with what modifies a `SELECT`. -/
theorem any_head?_tokens (hp : cs.isProper = true) (d : Nat) :
    ((cs.tokens d).head?.any fun t => t.isKeyword .BY) = false ∧
      ((cs.tokens d).head?.any fun t => t.isModifier) = false := by
  cases cs with
  | nil => exact ⟨rfl, rfl⟩
  | cons kind words body rest =>
    simp only [isProper, Bool.and_eq_true, decide_eq_true_eq] at hp
    obtain ⟨w, more, rfl, ⟨k, hk, hw⟩, -, -⟩ := opened?_words d hp.1
    simp only [tokens, Token.atDepth, List.map_cons, List.cons_append, List.head?_cons, Option.any_some,
      Token.isKeyword, Lexeme.isModifier, Lexeme.isKeyword, Kind.isKeyword, hw]
    clear hw
    revert k
    decide

theorem head?_clauses (hp : cs.isProper = true) (d stop : Nat) :
    ((cs.clauses d stop).head?.map Clause.start).getD stop = Token.startOr stop (cs.tokens d) := by
  cases cs with
  | nil => rfl
  | cons kind words body rest =>
    simp only [isProper, Bool.and_eq_true, decide_eq_true_eq] at hp
    obtain ⟨w, more, rfl, -, -, -⟩ := opened?_words d hp.1
    rfl

/-- Clauses are cut where their words are. -/
theorem cut_tokens (d stop : Nat) : ∀ cs : ClauseTrees, cs.isProper = true →
    Clause.cut d stop (cs.tokens d) = ([], cs.clauses d stop)
  | .nil, _ => rfl
  | .cons kind words body rest, hp => by
    simp only [isProper, Bool.and_eq_true, decide_eq_true_eq] at hp
    obtain ⟨hwords, ⟨hbody, hplain⟩, hrest⟩ := hp
    obtain ⟨w, more, rfl, -, hopens, hmore⟩ := opened?_words d hwords
    have hcut : Clause.cut d stop (Token.atDepth d more ++ (body.tokens d ++ rest.tokens d)) =
        (Token.atDepth d more ++ body.tokens d, rest.clauses d stop) := by
      rw [Clause.cut_append_of_not (fun t ht _ => hmore t ht),
        body.cut_append hbody hplain d stop (any_head?_tokens hrest d).1, cut_tokens d stop rest hrest, List.append_nil]
    have hlength : more.length = (Token.atDepth d more).length := by rw [Token.atDepth, List.length_map]
    have hcons := Clause.cut_cons_of_opened (d := d) rfl (hopens _) hcut
    rw [hlength, List.take_left, List.drop_left, head?_clauses hrest] at hcons
    exact hcons

end ClauseTrees

/-! ### Reach of scopes -/

theorem Scope.reaches_mk (l : PlacedLexeme) (d : Nat) : reaches d ⟨l, d⟩ = !l.isEnding := by
  simp [reaches, Lexeme.isEnding, Lexeme.isKeyword, Lexeme.isSymbol, Token.isKeyword, Token.isSymbol]

theorem Scope.reaches_of_lt (h : d < t.depth) : reaches d t = true := by
  have hne : t.depth ≠ d := by omega
  simp [reaches, h.le, hne]

theorem Lexeme.isEnding_of_isSymbol {l : Lexeme} {s : Symbol} (h : l.isSymbol s = true) (hs : s ≠ .semicolon) :
    l.isEnding = false := by
  have hk : l.kind = .symbol s := Kind.isSymbol_iff.1 h
  simp [isEnding, Lexeme.isKeyword, Lexeme.isSymbol, Kind.isKeyword, Kind.isSymbol, hk, hs]

theorem Lexeme.not_select_of_isSymbol {l : Lexeme} {s : Symbol} (h : l.isSymbol s = true) :
    l.isKeyword .SELECT = false := by
  have hk : l.kind = .symbol s := Kind.isSymbol_iff.1 h
  simp [Lexeme.isKeyword, Kind.isKeyword, hk]

/-- A scope reaches over a plain tree. -/
theorem QueryTree.reaches (hp : p.isProper = true) (hplain : p.isPlain = true) (d : Nat) :
    ∀ t ∈ p.tokens d, Scope.reaches d t = true := by
  refine QueryTree.plainInduct hp hplain ?nil ?token ?group
  case nil => exact List.forall_mem_nil _
  case token =>
    intro l rest hending _ ih
    refine List.forall_mem_cons.2 ⟨?_, ih⟩
    rw [Scope.reaches_mk, hending]
    rfl
  case group =>
    intro opening inside closing rest hleft hright ih
    rw [tokens, List.forall_mem_cons, List.forall_mem_append, List.forall_mem_cons, Scope.reaches_mk, Scope.reaches_mk,
      Lexeme.isEnding_of_isSymbol hleft (by decide), Lexeme.isEnding_of_isSymbol hright (by decide)]
    exact ⟨rfl, fun t ht => Scope.reaches_of_lt (inside.le_depth (d + 1) t ht), rfl, ih⟩

/-- The words of clauses neither start nor end a selection. -/
theorem ClauseTrees.plain_words {words : List PlacedLexeme} {kind : ClauseKind}
    (h : words.map (·.kind) = kind.words.map .keyword) :
    ∀ l ∈ words, l.isKeyword .SELECT = false ∧ l.isEnding = false := by
  have hkind : ∀ kind : ClauseKind, ∀ k ∈ kind.words, k ≠ .SELECT ∧ k ≠ .UNION := by
    intro kind
    cases kind <;> decide
  intro l hl
  obtain ⟨k, hk, hkl⟩ := exists_keyword h l hl
  obtain ⟨hselect, hunion⟩ := hkind kind k hk
  simp [Lexeme.isKeyword, Lexeme.isEnding, Lexeme.isSymbol, Kind.isKeyword, Kind.isSymbol, hkl, hselect, hunion]

theorem ClauseTrees.reaches (d : Nat) :
    ∀ cs : ClauseTrees, cs.isProper = true → ∀ t ∈ cs.tokens d, Scope.reaches d t = true
  | .nil, _ => List.forall_mem_nil _
  | .cons kind words body rest, hp => by
    simp only [isProper, Bool.and_eq_true, decide_eq_true_eq] at hp
    obtain ⟨hwords, ⟨hbody, hplain⟩, hrest⟩ := hp
    rw [tokens, List.forall_mem_append, List.forall_mem_append, Token.atDepth, List.forall_mem_map]
    refine ⟨fun l hl => ?_, body.reaches hbody hplain d, rest.reaches d hrest⟩
    rw [Scope.reaches_mk, (plain_words hwords l hl).2]
    rfl

/-- Modifiers are counted up to a list that does not go on with one. -/
theorem Modifiers.modifierCount_append (h : m.isProper = true) (hus : (us.head?.any fun t => t.isModifier) = false) :
    Scope.modifierCount (Token.atDepth d m.lexemes ++ us) = m.lexemes.length := by
  obtain ⟨quantifier, top⟩ := m
  rw [isProper, Bool.and_eq_true] at h
  obtain ⟨hquantifier, htop⟩ := h
  have hnone : (us.head?.any fun t => t.isKeyword .DISTINCT || t.isKeyword .ALL) = false ∧
      (us.head?.any fun t => t.isKeyword .TOP) = false := by
    simp only [Option.any_eq_false, Lexeme.isModifier, Bool.or_eq_false_iff] at hus ⊢
    exact ⟨fun t ht => (hus t ht).1, fun t ht => (hus t ht).2⟩
  -- Behind the quantifier only the `TOP` counts.
  have hrest : ∀ ts : List Token, ts = Token.atDepth d (Modifiers.mk none top).lexemes ++ us →
      (ts.head?.any fun t => t.isKeyword .DISTINCT || t.isKeyword .ALL) = false ∧
        ∀ n, (if (ts.head?.any fun t => t.isKeyword .TOP) then n + 2 else n) =
          n + (Modifiers.mk none top).lexemes.length := by
    rintro ts rfl
    cases top with
    | none => exact ⟨hnone.1, fun n => by simp [lexemes, Token.atDepth, hnone.2]⟩
    | some top =>
      obtain ⟨word, count⟩ := top
      have hk : word.kind = .keyword .TOP := by
        simp only [Option.all_some, Bool.and_eq_true] at htop
        simpa [Lexeme.isKeyword, Kind.isKeyword] using htop.1
      simp [lexemes, Token.atDepth, Token.isKeyword, Kind.isKeyword, hk]
  cases quantifier with
  | none =>
    obtain ⟨hfirst, hcount⟩ := hrest _ rfl
    rw [Scope.modifierCount, hfirst]
    simpa using hcount 0
  | some l =>
    obtain ⟨-, hcount⟩ := hrest _ rfl
    have hl : (l.isKeyword .DISTINCT || l.isKeyword .ALL) = true := by simpa [Lexeme.isQuantifier] using hquantifier
    have hcons : Token.atDepth d (Modifiers.mk (some l) top).lexemes ++ us =
        ⟨l, d⟩ :: (Token.atDepth d (Modifiers.mk none top).lexemes ++ us) := rfl
    have hfirst : (Token.isKeyword ⟨l, d⟩ .DISTINCT || Token.isKeyword ⟨l, d⟩ .ALL) = true := hl
    rw [hcons, Scope.modifierCount, List.head?_cons, Option.any_some, hfirst, if_pos rfl, List.drop_one, List.tail_cons,
      hcount 1, Nat.add_comm]
    rfl

theorem Lexeme.not_opensClause {l : Lexeme} (h : l.opensClause true = false) (byFollows : Bool) :
    l.opensClause byFollows = false := by
  simp only [opensClause, Bool.and_true, Bool.or_eq_false_iff] at h ⊢
  exact ⟨h.1, by simp [h.2]⟩

/-- The scope of a selection is made of its parts. -/
theorem QueryTree.ofSelect_append (stop : Nat) (word : PlacedLexeme) {list : QueryTree} (hm : m.isProper = true)
    (hlist : list.isProper = true) (hplain : list.isPlain = true)
    (hfirst : (list.lexemes.head?.any fun l => l.isModifier) = false) (hclauses : cs.isProper = true)
    (hus : us.head?.any (Scope.reaches d) = false) :
    Scope.ofSelect stop ⟨word, d⟩ (Token.atDepth d m.lexemes ++ (list.tokens d ++ (cs.tokens d ++ us))) =
      ⟨⟨word, d⟩, Token.atDepth d m.lexemes ++ (list.tokens d ++ cs.tokens d), Token.atDepth d m.lexemes,
        list.tokens d, cs.clauses d (Token.startOr stop us)⟩ := by
  have hin : ∀ t ∈ Token.atDepth d m.lexemes ++ (list.tokens d ++ cs.tokens d), Scope.reaches d t = true := by
    rw [List.forall_mem_append, List.forall_mem_append, Token.atDepth, List.forall_mem_map]
    refine ⟨fun l hl => ?_, list.reaches hlist hplain d, cs.reaches d hclauses⟩
    rw [Scope.reaches_mk, (Modifiers.plain hm l hl).2.2.1]
    rfl
  obtain ⟨htake, hdrop⟩ := takeWhile_append_of_head? hin hus
  simp only [List.append_assoc] at htake hdrop
  obtain ⟨hby, hmodifier⟩ := ClauseTrees.any_head?_tokens hclauses d
  have hnone : ∀ t ∈ Token.atDepth d m.lexemes, t.depth = d → ∀ after, Clause.opened? t after = none := by
    rw [Token.atDepth, List.forall_mem_map]
    intro l hl _ after
    exact Clause.opened?_eq_none (Lexeme.not_opensClause (Modifiers.plain hm l hl).2.2.2 _)
  have hcut : Clause.cut d (Token.startOr stop us) (Token.atDepth d m.lexemes ++ (list.tokens d ++ cs.tokens d)) =
      (Token.atDepth d m.lexemes ++ list.tokens d, cs.clauses d (Token.startOr stop us)) := by
    rw [Clause.cut_append_of_not hnone, list.cut_append hlist hplain d _ hby, cs.cut_tokens d _ hclauses,
      List.append_nil]
  have hcount : Scope.modifierCount (Token.atDepth d m.lexemes ++ (list.tokens d ++ cs.tokens d)) =
      (Token.atDepth d m.lexemes).length := by
    rw [Modifiers.modifierCount_append hm, Token.atDepth, List.length_map]
    rw [list.any_head?_append (fun l => l.isModifier) d hmodifier, hfirst]
  simp only [Scope.ofSelect, htake, hdrop, hcut, hcount, List.take_left, List.drop_left]

theorem Scope.among_cons (h : l.isKeyword .SELECT = false) (d stop : Nat) (us : List Token) :
    among stop (⟨l, d⟩ :: us) = among stop us := by
  have hselect : Token.isKeyword ⟨l, d⟩ .SELECT = false := h
  rw [among, hselect, if_neg Bool.false_ne_true]

theorem Scope.among_atDepth (h : ∀ l ∈ ls, l.isKeyword .SELECT = false) (d stop : Nat) (us : List Token) :
    among stop (Token.atDepth d ls ++ us) = among stop us := by
  induction ls with
  | nil => rfl
  | cons l ls ih =>
    obtain ⟨hl, hls⟩ := List.forall_mem_cons.1 h
    rw [Token.atDepth, List.map_cons, List.cons_append, among_cons hl]
    exact ih hls

mutual

/-- The scopes of a proper tree come before those behind it, if it is plain or its last selection ends with it. -/
theorem QueryTree.among_append (stop d : Nat) (us : List Token) : ∀ p : QueryTree, p.isProper = true →
    p.isPlain = true ∨ us.head?.any (Scope.reaches d) = false →
      Scope.among stop (p.tokens d ++ us) = p.scopes d (Token.startOr stop us) ++ Scope.among stop us
  | .nil, _, _ => rfl
  | .token l rest, hp, hus => by
    simp only [QueryTree.isProper, Bool.and_eq_true, Bool.not_eq_true'] at hp
    obtain ⟨⟨-, hselect⟩, hrest⟩ := hp
    have hplain : rest.isPlain = true ∨ us.head?.any (Scope.reaches d) = false := by
      simp only [QueryTree.isPlain, Bool.and_eq_true] at hus
      exact hus.imp_left And.right
    rw [QueryTree.tokens, List.cons_append, Scope.among_cons hselect, rest.among_append stop d us hrest hplain,
      QueryTree.scopes]
  | .group opening inside closing rest, hp, hus => by
    simp only [QueryTree.isProper, Bool.and_eq_true] at hp
    obtain ⟨hleft, hinside, hright, hrest⟩ := hp
    -- Inside, a selection may be the last: what ends it is the closing parenthesis.
    have hclosing : (⟨closing, d⟩ :: (rest.tokens d ++ us) : List Token).head?.any (Scope.reaches (d + 1)) = false := by
      simp [Scope.reaches]
    rw [QueryTree.tokens, List.cons_append, Scope.among_cons (Lexeme.not_select_of_isSymbol hleft), List.append_assoc,
      List.cons_append, inside.among_append stop (d + 1) _ hinside (.inr hclosing),
      Scope.among_cons (Lexeme.not_select_of_isSymbol hright), rest.among_append stop d us hrest hus, QueryTree.scopes,
      List.append_assoc]
    rfl
  | .select word modifiers list clauses rest, hp, hus => by
    simp only [QueryTree.isProper, Bool.and_eq_true] at hp
    obtain ⟨hword, hmodifiers, ⟨⟨hlist, hplain⟩, hfirst⟩, ⟨hclauses, -⟩, hrest, hends⟩ := hp
    have hus : us.head?.any (Scope.reaches d) = false := hus.resolve_left Bool.false_ne_true
    -- The selection ends where the rest starts, or with the tree if there is none.
    have hback : (rest.tokens d ++ us).head?.any (Scope.reaches d) = false := by
      rw [List.head?_append, rest.head?_tokens]
      cases hfirst : rest.lexemes.head? with
      | none => exact hus
      | some l =>
        rw [hfirst, Option.all_some] at hends
        rw [Option.map_some, Option.some_or, Option.any_some, Scope.reaches_mk, hends]
        rfl
    have hscope := QueryTree.ofSelect_append stop word hmodifiers hlist hplain
      (by simpa using hfirst) hclauses hback
    have hselect : Token.isKeyword ⟨word, d⟩ .SELECT = true := hword
    simp only [QueryTree.tokens, List.cons_append, List.append_assoc]
    rw [Scope.among, if_pos hselect, hscope,
      Scope.among_atDepth (fun l hl => (Modifiers.plain hmodifiers l hl).2.1),
      list.among_append stop d _ hlist (.inl hplain), clauses.among_append stop d _ hclauses,
      rest.among_append stop d us hrest (.inr hus)]
    simp only [QueryTree.scopes, Token.startOr_append, List.append_assoc, List.cons_append]

theorem ClauseTrees.among_append (stop d : Nat) (us : List Token) : ∀ cs : ClauseTrees, cs.isProper = true →
    Scope.among stop (cs.tokens d ++ us) = cs.scopes d (Token.startOr stop us) ++ Scope.among stop us
  | .nil, _ => rfl
  | .cons kind words body rest, hp => by
    simp only [ClauseTrees.isProper, Bool.and_eq_true, decide_eq_true_eq] at hp
    obtain ⟨hwords, ⟨hbody, hplain⟩, hrest⟩ := hp
    simp only [ClauseTrees.tokens, List.append_assoc]
    rw [Scope.among_atDepth (fun l hl => (ClauseTrees.plain_words hwords l hl).1),
      body.among_append stop d _ hbody (.inl hplain), rest.among_append stop d us hrest]
    simp only [ClauseTrees.scopes, Token.startOr_append, List.append_assoc]

end

/-! ### Lists of scopes -/

/-- Whether a scope stands in a stretch, with its list and with at most one clause of each kind. -/
structure Scope.StandsIn (s : Scope) (ts : List Token) : Prop where
  tokens : s.tokens <:+: ts
  list : s.list <:+: s.tokens
  kinds : (s.clauses.map Clause.kind).Nodup

/-- Whether a scope is inside of the list of another one, or its list has no token of that list. -/
def Scope.Apart (s s' : Scope) : Prop :=
  s'.tokens <:+: s.list ∨ ∀ t ∈ s.list, t ∉ s'.list

namespace Scope

variable {s : Scope} {ss ss' : List Scope}

theorem StandsIn.mono (h : s.StandsIn ts) (hts : ts <:+: us) : s.StandsIn us :=
  ⟨h.tokens.trans hts, h.list, h.kinds⟩

theorem StandsIn.mem (h : s.StandsIn ts) (ht : t ∈ s.list) : t ∈ ts :=
  h.tokens.subset (h.list.subset ht)

/-- Scopes of stretches that share no token are apart. -/
theorem pairwise_append (hss : ss.Pairwise Apart) (hss' : ss'.Pairwise Apart) (h : ∀ s ∈ ss, s.StandsIn ts)
    (h' : ∀ s ∈ ss', s.StandsIn us) (hdisjoint : ts.Disjoint us) : (ss ++ ss').Pairwise Apart :=
  List.pairwise_append.2 ⟨hss, hss', fun s hs s' hs' => .inr fun _ ht ht' =>
    hdisjoint ((h s hs).mem ht) ((h' s' hs').mem ht')⟩

end Scope

theorem ClauseTrees.map_kind_clauses (d stop : Nat) : ∀ cs : ClauseTrees, (cs.clauses d stop).map Clause.kind = cs.kinds
  | .nil => rfl
  | .cons kind _ _ rest => congrArg (kind :: ·) (rest.map_kind_clauses d stop)

mutual

/-- The scopes of a tree stand in its tokens. -/
theorem QueryTree.standsIn (d stop : Nat) : ∀ p : QueryTree, p.isProper = true →
    ∀ s ∈ p.scopes d stop, s.StandsIn (p.tokens d)
  | .nil, _ => List.forall_mem_nil _
  | .token l rest, hp => by
    simp only [QueryTree.isProper, Bool.and_eq_true] at hp
    exact fun s hs => (rest.standsIn d stop hp.2 s hs).mono (List.infix_cons List.infix_rfl)
  | .group opening inside closing rest, hp => by
    simp only [QueryTree.isProper, Bool.and_eq_true] at hp
    obtain ⟨-, hinside, -, hrest⟩ := hp
    rw [QueryTree.scopes, QueryTree.tokens, List.forall_mem_append]
    constructor
    · exact fun s hs => (inside.standsIn (d + 1) _ hinside s hs).mono (List.infix_cons (List.prefix_append _ _).isInfix)
    · refine fun s hs => (rest.standsIn d stop hrest s hs).mono (List.infix_cons ?_)
      exact (List.suffix_cons _ _).isInfix.trans (List.suffix_append _ _).isInfix
  | .select word modifiers list clauses rest, hp => by
    simp only [QueryTree.isProper, Bool.and_eq_true, decide_eq_true_eq] at hp
    obtain ⟨-, -, ⟨⟨hlist, -⟩, -⟩, ⟨hclauses, hkinds⟩, hrest, -⟩ := hp
    rw [QueryTree.scopes, QueryTree.tokens, List.forall_mem_cons, List.forall_mem_append, List.forall_mem_append]
    refine ⟨⟨?_, ?_, ?_⟩, fun s hs => (list.standsIn d _ hlist s hs).mono ?_,
      fun s hs => (clauses.standsIn d _ hclauses s hs).mono ?_, fun s hs => (rest.standsIn d stop hrest s hs).mono ?_⟩
    · exact ⟨[], rest.tokens d, by simp [Scope.tokens]⟩
    · exact List.infix_cons (List.infix_append' _ _ _)
    · rw [ClauseTrees.map_kind_clauses]
      exact hkinds
    · exact List.infix_cons (List.infix_append' _ _ _)
    · exact List.infix_cons ((List.infix_append' _ _ _).trans (List.suffix_append _ _).isInfix)
    · refine List.infix_cons (List.IsSuffix.isInfix ?_)
      exact ((List.suffix_append _ _).trans (List.suffix_append _ _)).trans (List.suffix_append _ _)

theorem ClauseTrees.standsIn (d stop : Nat) : ∀ cs : ClauseTrees, cs.isProper = true →
    ∀ s ∈ cs.scopes d stop, s.StandsIn (cs.tokens d)
  | .nil, _ => List.forall_mem_nil _
  | .cons kind words body rest, hp => by
    simp only [ClauseTrees.isProper, Bool.and_eq_true] at hp
    obtain ⟨-, ⟨hbody, -⟩, hrest⟩ := hp
    rw [ClauseTrees.scopes, ClauseTrees.tokens, List.forall_mem_append]
    constructor
    · exact fun s hs => (body.standsIn d _ hbody s hs).mono (List.infix_append' _ _ _)
    · refine fun s hs => (rest.standsIn d stop hrest s hs).mono ?_
      exact ((List.suffix_append _ _).trans (List.suffix_append _ _)).isInfix

end

mutual

/-- Of two scopes of a tree the later one is inside of the list of the earlier one or apart from it. -/
theorem QueryTree.pairwise_scopes (d stop : Nat) : ∀ p : QueryTree, p.isProper = true → (p.tokens d).Nodup →
    (p.scopes d stop).Pairwise Scope.Apart
  | .nil, _, _ => .nil
  | .token l rest, hp, hnodup => by
    simp only [QueryTree.isProper, Bool.and_eq_true] at hp
    exact rest.pairwise_scopes d stop hp.2 (List.nodup_cons.1 hnodup).2
  | .group opening inside closing rest, hp, hnodup => by
    simp only [QueryTree.isProper, Bool.and_eq_true] at hp
    obtain ⟨-, hinside, -, hrest⟩ := hp
    rw [QueryTree.tokens, List.nodup_cons, List.nodup_append', List.nodup_cons, List.disjoint_cons_right] at hnodup
    obtain ⟨-, hin, ⟨-, hre⟩, -, hdisjoint⟩ := hnodup
    exact Scope.pairwise_append (inside.pairwise_scopes (d + 1) _ hinside hin) (rest.pairwise_scopes d stop hrest hre)
      (inside.standsIn (d + 1) _ hinside) (rest.standsIn d stop hrest) hdisjoint
  | .select word modifiers list clauses rest, hp, hnodup => by
    simp only [QueryTree.isProper, Bool.and_eq_true] at hp
    obtain ⟨-, -, ⟨⟨hlist, -⟩, -⟩, ⟨hclauses, -⟩, hrest, -⟩ := hp
    rw [QueryTree.tokens, List.nodup_cons, List.nodup_append', List.nodup_append', List.nodup_append'] at hnodup
    obtain ⟨-, -, ⟨hli, ⟨hcl, hre, hbehind⟩, hdisjoint⟩, -⟩ := hnodup
    have hinner : ∀ s ∈ clauses.scopes d (Token.startOr stop (rest.tokens d)) ++ rest.scopes d stop,
        s.StandsIn (clauses.tokens d ++ rest.tokens d) := by
      rw [List.forall_mem_append]
      exact ⟨fun s hs => (clauses.standsIn d _ hclauses s hs).mono (List.prefix_append _ _).isInfix,
        fun s hs => (rest.standsIn d stop hrest s hs).mono (List.suffix_append _ _).isInfix⟩
    refine List.pairwise_cons.2 ⟨List.forall_mem_append.2 ⟨fun s hs => ?_, fun s hs => ?_⟩, ?_⟩
    · exact .inl (list.standsIn d _ hlist s hs).tokens
    · exact .inr fun t ht ht' => hdisjoint ht ((hinner s hs).mem ht')
    · refine Scope.pairwise_append (list.pairwise_scopes d _ hlist hli) ?_ (list.standsIn d _ hlist) hinner hdisjoint
      exact Scope.pairwise_append (clauses.pairwise_scopes d _ hclauses hcl) (rest.pairwise_scopes d stop hrest hre)
        (clauses.standsIn d _ hclauses) (rest.standsIn d stop hrest) hbehind

theorem ClauseTrees.pairwise_scopes (d stop : Nat) : ∀ cs : ClauseTrees, cs.isProper = true → (cs.tokens d).Nodup →
    (cs.scopes d stop).Pairwise Scope.Apart
  | .nil, _, _ => .nil
  | .cons kind words body rest, hp, hnodup => by
    simp only [ClauseTrees.isProper, Bool.and_eq_true] at hp
    obtain ⟨-, ⟨hbody, -⟩, hrest⟩ := hp
    rw [ClauseTrees.tokens, List.nodup_append', List.nodup_append'] at hnodup
    obtain ⟨-, ⟨hbo, hre, hdisjoint⟩, -⟩ := hnodup
    exact Scope.pairwise_append (body.pairwise_scopes d _ hbody hbo) (rest.pairwise_scopes d stop hrest hre)
      (body.standsIn d _ hbody) (rest.standsIn d stop hrest) hdisjoint

end

end Tokens

/-! ### Queries -/

namespace Scope

variable {s : Scope} {kind : ClauseKind} {c : Clause} {ts : List Token} {stop : Nat}

/-- Where no kind of clauses is there twice, the clause of a kind is the one that is there. -/
theorem clause?_eq_some_iff (h : (s.clauses.map Clause.kind).Nodup) :
    s.clause? kind = some c ↔ c ∈ s.clauses ∧ c.kind = kind := by
  constructor
  · intro hc
    have hkind := List.find?_some hc
    exact ⟨List.mem_reverse.1 (List.mem_of_find?_eq_some hc), by simpa using hkind⟩
  · rintro ⟨hc, rfl⟩
    obtain ⟨c', hc'⟩ : ∃ c', s.clause? c.kind = some c' := by
      rw [← Option.isSome_iff_exists, clause?, List.find?_isSome]
      exact ⟨c, List.mem_reverse.2 hc, by simp⟩
    have hkind : c'.kind = c.kind := by simpa using List.find?_some hc'
    have hmem := List.mem_reverse.1 (List.mem_of_find?_eq_some hc')
    rw [hc', List.inj_on_of_nodup_map h hmem hc hkind]

theorem map_select_among (stop : Nat) (ts : List Token) :
    (among stop ts).map select = ts.filter fun t => t.isKeyword .SELECT := by
  induction ts with
  | nil => rfl
  | cons t ts ih =>
    rw [among]
    split
    · next ht =>
      rw [List.filter_cons, if_pos ht, List.map_cons, ih]
      rfl
    · next ht => rw [List.filter_cons, if_neg ht, ih]

end Scope

namespace Query

variable {q : Query} {p : QueryTree} {text : SqlText}

/-- Whether a query has the tokens of a tree, and its scopes are those of the tree. -/
structure IsOfTree (q : Query) (p : QueryTree) : Prop where
  tokens : q.tokens = p.tokens 0
  scopes : q.scopes = p.scopes 0 q.stop
  /-- There is one scope for each `SELECT`, in the order of the text. -/
  selects : q.scopes.map Scope.select = q.tokens.filter fun t => t.isKeyword .SELECT
  stretches : ∀ s ∈ q.scopes, s.tokens <:+: q.tokens
  clauses : ∀ s ∈ q.scopes, ∀ kind c, s.clause? kind = some c ↔ c ∈ s.clauses ∧ c.kind = kind
  unlisted : ∀ t, q.scopeOfListed? t = none ↔ ∀ s ∈ q.scopes, t ∉ s.list
  /-- The scope of a listed token is inside of the list of any other scope that lists it. -/
  innermost : ∀ t s, q.scopeOfListed? t = some s → s ∈ q.scopes ∧ t ∈ s.list ∧
    ∀ s' ∈ q.scopes, t ∈ s'.list → s' = s ∨ s.tokens <:+: s'.list

theorem nodup_tokens (h : ofText text = .ok q) : q.tokens.Nodup := by
  obtain ⟨-, tail, hread⟩ := isRead h
  refine hread.pairwise_start.imp fun hlt heq => ?_
  rw [heq] at hlt
  exact Nat.lt_irrefl _ hlt

/-- A text with the tokens of a proper tree is read as them. -/
theorem ofText_of_tree (hp : p.isProper = true)
    (htext : (tokenize text).takeWhile (fun l => l.kind ≠ .eof) = p.lexemes) : ofText text = .ok ⟨text, p.tokens 0⟩ := by
  have hend : nest 0 ((tokenize text).dropWhile fun l => l.kind ≠ .eof) = .ok [] := by
    cases hrest : (tokenize text).dropWhile fun l => l.kind ≠ .eof with
    | nil => rfl
    | cons l ls =>
      have hhead := any_head?_dropWhile (fun l : PlacedLexeme => decide (l.kind ≠ .eof)) (tokenize text)
      rw [hrest, List.head?_cons, Option.any_some] at hhead
      have hk : l.kind = .eof := by simpa using hhead
      rw [nest.eq_def]
      simp [hk]
  have hread := QueryTree.nest_append hend p hp
  rw [← htext, List.takeWhile_append_dropWhile, List.append_nil] at hread
  rw [ofText, hread]
  rfl

/-- Of the scopes that list a token the last one in the text is inside of the others. -/
theorem innermost_of_apart {t : Token} {s : Scope} (hapart : q.scopes.Pairwise Scope.Apart)
    (hs : q.scopeOfListed? t = some s) :
    s ∈ q.scopes ∧ t ∈ s.list ∧ ∀ s' ∈ q.scopes, t ∈ s'.list → s' = s ∨ s.tokens <:+: s'.list := by
  obtain ⟨hmem, later, earlier, hreverse, hlater⟩ := List.find?_eq_some_iff_append.1 hs
  have hsplit : q.scopes = earlier.reverse ++ s :: later.reverse := by
    rw [← List.reverse_reverse q.scopes, hreverse]
    simp
  have hlist : t ∈ s.list := by simpa using hmem
  rw [hsplit, List.pairwise_append] at hapart
  rw [hsplit]
  refine ⟨List.mem_append_right _ List.mem_cons_self, hlist, fun s' hs' ht => ?_⟩
  rcases List.mem_append.1 hs' with hs' | hs'
  · exact .inr ((hapart.2.2 s' hs' s List.mem_cons_self).resolve_right fun hnot => hnot t ht hlist)
  · rcases List.mem_cons.1 hs' with rfl | hs'
    · exact .inl rfl
    · exact absurd ht (by simpa using hlater s' (List.mem_reverse.1 hs'))

theorem isOfTree (hp : p.isProper = true) (hq : ofText text = .ok q) (htokens : q.tokens = p.tokens 0) :
    q.IsOfTree p := by
  have hscopes : q.scopes = p.scopes 0 q.stop := by
    have hamong := p.among_append q.stop 0 [] hp (.inr rfl)
    rw [List.append_nil, Scope.among, List.append_nil] at hamong
    rw [Query.scopes, htokens, hamong]
    rfl
  have hstands : ∀ s ∈ q.scopes, s.StandsIn q.tokens := by
    rw [hscopes, htokens]
    exact p.standsIn 0 q.stop hp
  have hapart : q.scopes.Pairwise Scope.Apart := by
    rw [hscopes]
    exact p.pairwise_scopes 0 q.stop hp (htokens ▸ nodup_tokens hq)
  refine ⟨htokens, hscopes, Scope.map_select_among q.stop q.tokens, fun s hs => (hstands s hs).tokens,
    fun s hs kind c => Scope.clause?_eq_some_iff (hstands s hs).kinds, fun t => ?_,
    fun t s => innermost_of_apart hapart⟩
  simp [scopeOfListed?]

/-- **Scopes are the selections of a query.**  A text with the tokens of a proper tree is read as a query whose scopes
are those of the tree: one for each `SELECT` in the order of the text, with the list and the clauses of its selection
and up to what follows that.  A token belongs to the innermost selection that lists it. -/
theorem scopes_of_tree (p : QueryTree) (text : SqlText) (hp : p.isProper = true)
    (htext : (tokenize text).takeWhile (fun l => l.kind ≠ .eof) = p.lexemes) :
    ∃ q, ofText text = .ok q ∧ q.IsOfTree p :=
  ⟨_, ofText_of_tree hp htext, isOfTree hp (ofText_of_tree hp htext) rfl⟩

/-- A selection in the list of another one, which a third one is joined to. -/
theorem scopes_of_tree_nested : ∃ p q, ofText "SELECT TOP 5 (SELECT b) FROM t UNION SELECT c".toList = .ok q ∧
    q.IsOfTree p ∧ q.scopes.map (fun s => Token.spell s.list) = ["(SELECT b)".toList, ['b'], ['c']] := by
  have hp : QueryTree.isProper (.select ⟨⟨.keyword .SELECT, [], "SELECT".toList⟩, 0⟩
      ⟨none, some (⟨⟨.keyword .TOP, [' '], "TOP".toList⟩, 7⟩, ⟨⟨.integer 5, [' '], ['5']⟩, 11⟩)⟩
      (.group ⟨⟨.symbol .leftParen, [' '], ['(']⟩, 13⟩
        (.select ⟨⟨.keyword .SELECT, [], "SELECT".toList⟩, 14⟩ ⟨none, none⟩
          (.token ⟨⟨.identifier ['b'], [' '], ['b']⟩, 21⟩ .nil) .nil .nil) ⟨⟨.symbol .rightParen, [], [')']⟩, 22⟩ .nil)
      (.cons .tables [⟨⟨.keyword .FROM, [' '], "FROM".toList⟩, 24⟩]
        (.token ⟨⟨.identifier ['t'], [' '], ['t']⟩, 29⟩ .nil) .nil)
      (.token ⟨⟨.keyword .UNION, [' '], "UNION".toList⟩, 31⟩
        (.select ⟨⟨.keyword .SELECT, [' '], "SELECT".toList⟩, 37⟩ ⟨none, none⟩
          (.token ⟨⟨.identifier ['c'], [' '], ['c']⟩, 44⟩ .nil) .nil .nil))) = true := by decide +kernel
  obtain ⟨q, hq, hlists⟩ := exists_of_map "SELECT TOP 5 (SELECT b) FROM t UNION SELECT c".toList
    (fun q => q.scopes.map fun s => Token.spell s.list) ["(SELECT b)".toList, ['b'], ['c']] (by decide +kernel)
  obtain ⟨q', hq', htree⟩ := scopes_of_tree _ "SELECT TOP 5 (SELECT b) FROM t UNION SELECT c".toList hp
    (by decide +kernel)
  obtain rfl : q = q' := Except.ok.inj (hq.symm.trans hq')
  exact ⟨_, q, hq, htree, hlists⟩

end Query

end JetAdapter
