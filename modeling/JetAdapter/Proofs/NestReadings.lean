import JetAdapter.Proofs.AliasSwaps
import JetAdapter.Proofs.Nests
import JetAdapter.Proofs.Patches
import JetAdapter.Proofs.SelectionReadings

/-!
# Reading nests

What the rule for aliases sees of a text that is a nest.  The tokens are those of the nest at the depths of its groups
(`Nest.Reads`), the pieces between commas are its pieces (`Nest.Reads.pieces`), and the clause that the rule takes for
the ordering of a selection is the ordering, whatever clauses stand before it (`Nest.scopeEdits_eq`).
-/

namespace JetAdapter

open Token (Level)

namespace Lexeme

variable {l : Lexeme} {k : Keyword}

theorem isKeyword_iff : l.isKeyword k = true ↔ l.kind = .keyword k :=
  Kind.isKeyword_iff

theorem isSymbol_iff {s : Symbol} : l.isSymbol s = true ↔ l.kind = .symbol s :=
  Kind.isSymbol_iff

theorem isFree_iff : l.isFree = true ↔ l.kind.isFault = false ∧ l.kind ≠ .symbol .leftParen ∧
    l.kind ≠ .symbol .rightParen ∧ l.kind ≠ .symbol .semicolon ∧ l.kind ≠ .keyword .SELECT ∧ l.kind ≠ .keyword .UNION := by
  simp [isFree, isKeyword, isSymbol, Kind.isKeyword, Kind.isSymbol, and_assoc]

theorem isFree_of_isKeyword (h : l.isKeyword k = true) (hselect : k ≠ .SELECT) (hunion : k ≠ .UNION) : l.isFree = true := by
  rw [isKeyword_iff] at h
  rw [isFree_iff, h]
  simp [Kind.isFault, hselect, hunion]

end Lexeme

namespace OrderAlias

namespace Nest

variable {p r e rest list clauses items inside : Nest} {copies : List Nest} {l opening closing : Lexeme}
  {name : SqlText} {d : Nat} {ts us vs bs : List Token} {t : Token} {k : Keyword} {modifiers words : List Lexeme}

/-! ### The words of a selection -/

theorem isFree_of_isQuantifier (h : l.isQuantifier = true) : l.isFree = true ∧ ∀ b, opened? l b = none := by
  rw [Lexeme.isQuantifier, Bool.or_eq_true] at h
  rcases h with h | h
  · refine ⟨l.isFree_of_isKeyword h (by decide) (by decide), fun b => ?_⟩
    rw [opened?, Lexeme.isKeyword_iff.1 h]
    rfl
  · refine ⟨l.isFree_of_isKeyword h (by decide) (by decide), fun b => ?_⟩
    rw [opened?, Lexeme.isKeyword_iff.1 h]
    rfl

/-- What modifies a `SELECT` opens no clause. -/
theorem isFree_of_areModifiers (h : areModifiers modifiers list = true) :
    ∀ l ∈ modifiers, l.isFree = true ∧ ∀ b, opened? l b = none := by
  have htop : ∀ {top count : Lexeme}, (top.isKeyword .TOP && count.isFree && count.kind.keyword?.isNone) = true →
      (top.isFree = true ∧ ∀ b, opened? top b = none) ∧ count.isFree = true ∧ ∀ b, opened? count b = none := by
    intro top count h
    simp only [Bool.and_eq_true, Option.isNone_iff_eq_none] at h
    obtain ⟨⟨htop, hfree⟩, hnone⟩ := h
    refine ⟨⟨top.isFree_of_isKeyword htop (by decide) (by decide), fun b => ?_⟩, hfree, fun b => ?_⟩
    · rw [opened?, Lexeme.isKeyword_iff.1 htop]
      rfl
    · rw [opened?, hnone]
  unfold areModifiers at h
  split at h
  · exact List.forall_mem_nil _
  · rw [Bool.and_eq_true] at h
    exact List.forall_mem_singleton.2 (isFree_of_isQuantifier h.1)
  · obtain ⟨ht, hc⟩ := htop h
    exact List.forall_mem_cons.2 ⟨ht, List.forall_mem_singleton.2 hc⟩
  · rw [Bool.and_eq_true] at h
    obtain ⟨ht, hc⟩ := htop h.2
    exact List.forall_mem_cons.2 ⟨isFree_of_isQuantifier h.1, List.forall_mem_cons.2 ⟨ht, List.forall_mem_singleton.2 hc⟩⟩
  · cases h

theorem words_cases (h : areWords words items = true) : (words = [] ∧ items = nil) ∨
    ∃ order by_, words = [order, by_] ∧ order.isKeyword .ORDER = true ∧ by_.isKeyword .BY = true := by
  unfold areWords at h
  split at h
  · exact .inl ⟨rfl, by simpa using h⟩
  · rw [Bool.and_eq_true] at h
    exact .inr ⟨_, _, rfl, h.1, h.2⟩
  · cases h

theorem isFree_of_areWords (h : areWords words items = true) : ∀ l ∈ words, l.isFree = true := by
  rcases words_cases h with ⟨rfl, -⟩ | ⟨order, by_, rfl, horder, hby⟩
  · exact List.forall_mem_nil _
  · simp [order.isFree_of_isKeyword horder, by_.isFree_of_isKeyword hby]

theorem balanced_of_isFree {ls : List Lexeme} (h : ∀ l ∈ ls, l.isFree = true) : Balanced (ls.map (·.kind)) := by
  induction ls with
  | nil => exact .nil
  | cons l ls ih =>
    obtain ⟨hl, hls⟩ := List.forall_mem_cons.1 h
    obtain ⟨-, left, right, -⟩ := Lexeme.isFree_iff.1 hl
    exact .plain left right (ih hls)

theorem balanced (h : p.isProper = true) : Balanced (p.lexemes.map (·.kind)) := by
  induction p with
  | nil => exact .nil
  | leaf l rest ih =>
    obtain ⟨hl, hrest⟩ := isProper_leaf_iff.1 h
    obtain ⟨-, left, right, -⟩ := Lexeme.isFree_iff.1 hl
    exact .plain left right (ih hrest)
  | group opening inside closing rest ihInside ih =>
    obtain ⟨hopening, hclosing, hinside, hrest⟩ := isProper_group_iff.1 h
    have hgroup := Balanced.group (ihInside hinside) (ih hrest)
    rw [← Lexeme.isSymbol_iff.1 hopening, ← Lexeme.isSymbol_iff.1 hclosing] at hgroup
    simpa [lexemes] using hgroup
  | select word modifiers list clauses words items ihList ihClauses ihItems =>
    obtain ⟨hselect, hlist, hclauses, hitems⟩ := isProper_select_iff.1 h
    have hword := Lexeme.isKeyword_iff.1 hselect.word
    have hrest := (balanced_of_isFree fun l hl => (isFree_of_areModifiers hselect.modifiers l hl).1).append
      ((ihList hlist).append ((ihClauses hclauses).append
        ((balanced_of_isFree (isFree_of_areWords hselect.words)).append (ihItems hitems))))
    have hall : Balanced (word.kind :: _) := .plain (by rw [hword]; simp) (by rw [hword]; simp) hrest
    simpa [lexemes] using hall

/-! ### Tokens of a nest -/

/-- Whether tokens are those of a nest that stands at a depth. -/
inductive Reads : Nat → Nest → List Token → Prop
  | nil {d : Nat} : Reads d nil []
  | leaf {d : Nat} {p : Nest} {t : Token} {ts : List Token} (depth : t.depth = d) (rest : Reads d p ts) :
      Reads d (leaf t.toLexeme p) (t :: ts)
  | group {d : Nat} {p r : Nest} {opening closing : Token} {us vs : List Token} (left : opening.kind = .symbol .leftParen)
      (right : closing.kind = .symbol .rightParen) (openingDepth : opening.depth = d) (closingDepth : closing.depth = d)
      (inside : Reads (d + 1) p us) (rest : Reads d r vs) :
      Reads d (group opening.toLexeme p closing.toLexeme r) (opening :: (us ++ closing :: vs))
  | select {d : Nat} {list clauses items : Nest} {t : Token} {ms ls cs ws os : List Token} (depth : t.depth = d)
      (modifiersDepth : ∀ m ∈ ms, m.depth = d) (wordsDepth : ∀ w ∈ ws, w.depth = d) (reads : Reads d list ls)
      (readsClauses : Reads d clauses cs) (readsItems : Reads d items os) :
      Reads d (select t.toLexeme (ms.map (·.toLexeme)) list clauses (ws.map (·.toLexeme)) items)
        (t :: (ms ++ (ls ++ (cs ++ (ws ++ os)))))

theorem Reads.le (h : Reads d p ts) : ∀ t ∈ ts, d ≤ t.depth := by
  induction h with
  | nil => exact List.forall_mem_nil _
  | leaf depth _ ih => exact List.forall_mem_cons.2 ⟨Nat.le_of_eq depth.symm, ih⟩
  | group _ _ openingDepth closingDepth _ _ ihInside ih =>
    simp only [List.forall_mem_cons, List.forall_mem_append]
    exact ⟨Nat.le_of_eq openingDepth.symm, fun t ht => Nat.le_of_succ_le (ihInside t ht), Nat.le_of_eq closingDepth.symm, ih⟩
  | select depth modifiersDepth wordsDepth _ _ _ ih ihClauses ihItems =>
    simp only [List.forall_mem_cons, List.forall_mem_append]
    exact ⟨Nat.le_of_eq depth.symm, fun m hm => Nat.le_of_eq (modifiersDepth m hm).symm, ih, ihClauses,
      fun w hw => Nat.le_of_eq (wordsDepth w hw).symm, ihItems⟩

theorem Reads.lexemes (h : Reads d p ts) : ts.map (·.toLexeme) = p.lexemes := by
  induction h with
  | nil => rfl
  | leaf _ _ ih => rw [List.map_cons, ih, Nest.lexemes]
  | group _ _ _ _ _ _ ihInside ih => rw [List.map_cons, List.map_append, List.map_cons, ihInside, ih, Nest.lexemes]
  | select _ _ _ _ _ _ ih ihClauses ihItems =>
    rw [List.map_cons, List.map_append, List.map_append, List.map_append, List.map_append, ih, ihClauses, ihItems,
      Nest.lexemes]

/-- Tokens that are no parentheses stand all at one depth. -/
theorem depth_of_level {ls : List Lexeme} (h : Level d ts) (hls : ts.map (·.toLexeme) = ls)
    (hfree : ∀ l ∈ ls, l.isFree = true) : ∀ t ∈ ts, t.depth = d := by
  induction ts generalizing ls with
  | nil => exact List.forall_mem_nil _
  | cons t ts ih =>
    obtain rfl := hls
    obtain ⟨hl, hls⟩ := List.forall_mem_cons.1 hfree
    obtain ⟨-, left, right, -⟩ := Lexeme.isFree_iff.1 hl
    have hrest := h.tail (by simpa [Token.isSymbol, Kind.isSymbol] using left)
      (by simpa [Token.isSymbol, Kind.isSymbol] using right)
    exact List.forall_mem_cons.2 ⟨h.depth_first, ih hrest rfl hls⟩

/-- Level tokens come apart behind matching parentheses. -/
theorem exists_of_level {ls ls' : List Lexeme} (hb : Balanced (ls.map (·.kind))) (h : Level d ts)
    (hts : ts.map (·.toLexeme) = ls ++ ls') :
    ∃ us vs, ts = us ++ vs ∧ Level d us ∧ us.map (·.toLexeme) = ls ∧ Level d vs ∧ vs.map (·.toLexeme) = ls' := by
  obtain ⟨us, vs, rfl, rfl, hvs⟩ := List.map_eq_append_iff.1 hts
  rw [List.map_map] at hb
  obtain ⟨hus, hlevel⟩ := h.split_balanced hb
  exact ⟨us, vs, rfl, hus, rfl, hlevel, hvs⟩

/-- Level tokens are read as the nest whose tokens they are. -/
theorem reads_of_level (hp : p.isProper = true) (h : Level d ts) (hts : ts.map (·.toLexeme) = p.lexemes) :
    Reads d p ts := by
  induction p generalizing ts d with
  | nil =>
    obtain rfl := List.map_eq_nil_iff.1 hts
    exact .nil
  | leaf l rest ih =>
    obtain ⟨hl, hrest⟩ := isProper_leaf_iff.1 hp
    obtain ⟨t, us, rfl, rfl, hus⟩ := List.map_eq_cons_iff.1 hts
    obtain ⟨-, left, right, -⟩ := Lexeme.isFree_iff.1 hl
    have hlevel := h.tail (by simpa [Token.isSymbol, Kind.isSymbol] using left)
      (by simpa [Token.isSymbol, Kind.isSymbol] using right)
    exact .leaf h.depth_first (ih hrest hlevel hus)
  | group opening inside closing rest ihInside ih =>
    obtain ⟨hopening, hclosing, hinside, hrest⟩ := isProper_group_iff.1 hp
    rw [Lexeme.isSymbol_iff] at hopening hclosing
    obtain ⟨first, us, rfl, rfl, hus⟩ := List.map_eq_cons_iff.1 hts
    obtain ⟨is, us, rfl, his, hus⟩ := List.map_eq_append_iff.1 hus
    obtain ⟨last, vs, rfl, rfl, hvs⟩ := List.map_eq_cons_iff.1 hus
    have hkinds : (first :: (is ++ last :: vs)).map (·.kind) = .symbol .leftParen ::
        (inside.lexemes.map (·.kind) ++ .symbol .rightParen :: rest.lexemes.map (·.kind)) := by
      rw [← his, ← hvs, List.map_cons, hopening, List.map_append, List.map_cons, hclosing, List.map_map, List.map_map]
      rfl
    obtain ⟨first', is', last', vs', heq, -, hd, hlevel, his', -, hd', hlevel', -⟩ := h.group hkinds (balanced hinside)
    obtain ⟨rfl, htail⟩ := List.cons.inj heq
    have hlength : is.length = is'.length := by simpa [← his] using (congrArg List.length his').symm
    obtain ⟨rfl, hend⟩ := List.append_inj htail hlength
    obtain ⟨rfl, rfl⟩ := List.cons.inj hend
    exact .group hopening hclosing hd hd' (ihInside hinside hlevel his) (ih hrest hlevel' hvs)
  | select word modifiers list clauses words items ihList ihClauses ihItems =>
    obtain ⟨hselect, hlist, hclauses, hitems⟩ := isProper_select_iff.1 hp
    have hmodifiers := fun l hl => (isFree_of_areModifiers hselect.modifiers l hl).1
    have hwords := isFree_of_areWords hselect.words
    have hword := Lexeme.isKeyword_iff.1 hselect.word
    obtain ⟨t, us, rfl, rfl, hus⟩ := List.map_eq_cons_iff.1 hts
    have hlevel := h.tail (by simp [Token.isSymbol, Kind.isSymbol, hword]) (by simp [Token.isSymbol, Kind.isSymbol, hword])
    obtain ⟨ms, us, rfl, hms, rfl, hlevel, hus⟩ := exists_of_level (balanced_of_isFree hmodifiers) hlevel hus
    obtain ⟨ls, us, rfl, hls, hls', hlevel, hus⟩ := exists_of_level (balanced hlist) hlevel hus
    obtain ⟨cs, us, rfl, hcs, hcs', hlevel, hus⟩ := exists_of_level (balanced hclauses) hlevel hus
    obtain ⟨ws, os, rfl, hws, rfl, hos, hos'⟩ := exists_of_level (balanced_of_isFree hwords) hlevel hus
    exact .select h.depth_first (depth_of_level hms rfl hmodifiers) (depth_of_level hws rfl hwords)
      (ihList hlist hls hls') (ihClauses hclauses hcs hcs') (ihItems hitems hos hos')

/-! ### Pieces -/

/-- Neither parentheses nor what is inside are commas of the depth. -/
theorem not_comma_of_group (h : Reads (d + 1) p us) {opening closing : Token} (left : opening.kind = .symbol .leftParen)
    (right : closing.kind = .symbol .rightParen) :
    ∀ t ∈ opening :: (us ++ [closing]), t.isSymbolAt d .comma = false := by
  simp only [List.forall_mem_cons, List.forall_mem_append]
  refine ⟨?_, fun t ht => ?_, ?_, List.forall_mem_nil _⟩
  · simp [Token.isSymbolAt, Token.isSymbol, Kind.isSymbol, left]
  · have hle := h.le t ht
    have hne : t.depth ≠ d := by omega
    simp [Token.isSymbolAt, hne]
  · simp [Token.isSymbolAt, Token.isSymbol, Kind.isSymbol, right]

theorem splitCommas_ne_nil (d : Nat) (ts : List Token) : Token.splitCommas d ts ≠ [] := by
  simp [Token.splitCommas, Token.pieces_ne_nil]

theorem splitCommas_comma (h : t.isSymbolAt d .comma = true) (ts : List Token) :
    Token.splitCommas d (t :: ts) = [] :: Token.splitCommas d ts := by
  rw [Token.splitCommas, Token.pieces, if_pos h]
  rfl

theorem isSymbolAt_eq (h : t.depth = d) (s : Symbol) : t.isSymbolAt d s = t.toLexeme.isSymbol s := by
  rw [Token.isSymbolAt, h, beq_self_eq_true, Bool.true_and]
  rfl

/-- The stretches between the commas are the pieces. -/
theorem Reads.pieces (h : Reads d p ts) (hp : p.isPlain = true) :
    List.Forall₂ (fun item x => Reads d x item) (Token.splitCommas d ts) p.pieces := by
  induction h with
  | nil => exact .cons .nil .nil
  | @leaf d p t ts depth rest ih =>
    have hpieces := ih hp
    rw [Nest.pieces]
    cases hcomma : t.toLexeme.isSymbol .comma with
    | true =>
      rw [if_pos rfl, splitCommas_comma (by rw [isSymbolAt_eq depth, hcomma])]
      exact .cons .nil hpieces
    | false =>
      have ht : ∀ u ∈ [t], u.isSymbolAt d .comma = false :=
        List.forall_mem_singleton.2 (by rw [isSymbolAt_eq depth, hcomma])
      obtain ⟨item, others, hsplit⟩ := List.exists_cons_of_ne_nil (splitCommas_ne_nil d ts)
      obtain ⟨first, more, hfirst, -⟩ := p.exists_pieces
      rw [hsplit, hfirst, List.forall₂_cons] at hpieces
      rw [if_neg Bool.false_ne_true, ← List.singleton_append, Token.splitCommas_append_of_not ht hsplit, hfirst]
      exact .cons (.leaf depth hpieces.1) hpieces.2
  | @group d p r opening closing us vs left right openingDepth closingDepth inside rest _ ih =>
    have hpieces := ih hp
    obtain ⟨item, others, hsplit⟩ := List.exists_cons_of_ne_nil (splitCommas_ne_nil d vs)
    obtain ⟨first, more, hfirst, -⟩ := r.exists_pieces
    have hall : opening :: (us ++ closing :: vs) = (opening :: (us ++ [closing])) ++ vs := by simp
    rw [hsplit, hfirst, List.forall₂_cons] at hpieces
    rw [Nest.pieces, hall, Token.splitCommas_append_of_not (not_comma_of_group inside left right) hsplit, hfirst]
    have hgroup := Reads.group left right openingDepth closingDepth inside hpieces.1
    exact .cons (by simpa using hgroup) hpieces.2
  | select => cases hp

theorem isPlain_pieces (h : p.isPlain = true) : ∀ x ∈ p.pieces, x.isPlain = true := by
  induction p with
  | nil => exact List.forall_mem_singleton.2 rfl
  | select => cases h
  | leaf l rest ih =>
    obtain ⟨first, others, hp, -⟩ := rest.exists_pieces
    have hpieces := ih h
    rw [pieces]
    split
    · exact List.forall_mem_cons.2 ⟨rfl, hpieces⟩
    · rw [hp, List.forall_mem_cons] at hpieces
      rw [hp]
      exact List.forall_mem_cons.2 hpieces
  | group opening inside closing rest _ ih =>
    obtain ⟨first, others, hp, -⟩ := rest.exists_pieces
    have hpieces := ih h
    rw [hp, List.forall_mem_cons] at hpieces
    rw [pieces, hp]
    exact List.forall_mem_cons.2 hpieces

/-! ### Aliases -/

/-- What stands before an `AS` and an alias at the end of a stretch. -/
def tokensBefore? (name : SqlText) (item : List Token) : Option (List Token) :=
  match item.reverse with
  | last :: word :: more =>
    if word.isKeyword .AS && last.kind.name?.any (Text.sameWord · name) then some more.reverse else none
  | _ => none

theorem aliased?_eq (name : SqlText) (item : List Token) :
    OrderAlias.aliased? name item = (tokensBefore? name item).filter fun e => e ≠ [] := by
  unfold OrderAlias.aliased? tokensBefore?
  rcases item.reverse with _ | ⟨last, _ | ⟨word, more⟩⟩
  · rfl
  · rfl
  · cases hlast : last.kind.name? with
    | none => cases more <;> simp [hlast]
    | some aliasName =>
      by_cases h : word.isKeyword .AS = true ∧ Text.sameWord aliasName name = true
      · cases more <;> simp [hlast, h, Option.filter]
      · cases more <;> simp [hlast, h]

theorem tokensBefore?_append {us : List Token} (name : SqlText) (ts : List Token) {u v : Token} :
    tokensBefore? name (ts ++ u :: v :: us) = (tokensBefore? name (u :: v :: us)).map (ts ++ ·) := by
  obtain ⟨last, word, more, hrev⟩ : ∃ last word more, (u :: v :: us).reverse = last :: word :: more := by
    rcases hr : (u :: v :: us).reverse with _ | ⟨last, _ | ⟨word, more⟩⟩
    · simpa using congrArg List.length hr
    · simpa using congrArg List.length hr
    · exact ⟨last, word, more, rfl⟩
  unfold tokensBefore?
  rw [List.reverse_append, hrev]
  simp only [List.cons_append]
  split
  · simp
  · rfl

theorem Reads.eq_nil (h : Reads d p []) : p = Nest.nil := by
  cases h
  rfl

/-- A single token is a leaf. -/
theorem Reads.eq_leaf (h : Reads d p [t]) (hp : p.isPlain = true) :
    p = Nest.leaf t.toLexeme Nest.nil := by
  generalize hts : [t] = ts at h
  cases h with
  | nil => cases hts
  | leaf _ rest =>
    obtain ⟨rfl, rfl⟩ := List.cons.inj hts
    rw [rest.eq_nil]
  | group => simp at hts
  | select => cases hp

/-- Several tokens are no alias. -/
theorem Reads.isAlias_eq_false {u : Token} (h : Reads d p (t :: u :: us)) (name : SqlText) : p.isAlias name = false := by
  generalize hts : t :: u :: us = ts at h
  cases h with
  | @leaf _ p _ _ _ rest =>
    obtain ⟨-, rfl⟩ := List.cons.inj hts
    cases p with
    | nil => cases rest
    | leaf | group | select => rfl
  | nil | group | select => rfl

/-- What stands before an alias is read as what stands before it in the nest. -/
theorem Reads.named? (h : Reads d p ts) (hp : p.isPlain = true) (name : SqlText) :
    (tokensBefore? name ts = none ∧ p.named? name = none) ∨
      ∃ us e, tokensBefore? name ts = some us ∧ p.named? name = some e ∧ Reads d e us := by
  induction h with
  | nil => exact .inl ⟨rfl, rfl⟩
  | @leaf d p t ts depth rest ih =>
    rcases ts with _ | ⟨u, _ | ⟨v, ts⟩⟩
    · obtain rfl := rest.eq_nil
      refine .inl ⟨rfl, ?_⟩
      simp [Nest.named?, isAlias]
    · obtain rfl := rest.eq_leaf hp
      have hnamed : (Nest.leaf t.toLexeme (.leaf u.toLexeme .nil)).named? name =
          if t.isKeyword .AS && u.kind.name?.any (Text.sameWord · name) then some Nest.nil else none := by
        simp only [Nest.named?, isAlias]
        simp
        rfl
      have htokens : tokensBefore? name [t, u] =
          if t.isKeyword .AS && u.kind.name?.any (Text.sameWord · name) then some [] else none := rfl
      rw [hnamed, htokens]
      split
      · exact .inr ⟨[], Nest.nil, rfl, rfl, .nil⟩
      · exact .inl ⟨rfl, rfl⟩
    · rw [← List.singleton_append, tokensBefore?_append, Nest.named?, rest.isAlias_eq_false, Bool.and_false,
        if_neg Bool.false_ne_true]
      rcases ih hp with ⟨hts, hnamed⟩ | ⟨us, e, hts, hnamed, he⟩
      · exact .inl ⟨by rw [hts]; rfl, by rw [hnamed]; rfl⟩
      · exact .inr ⟨t :: us, Nest.leaf t.toLexeme e, by rw [hts]; rfl, by rw [hnamed]; rfl, .leaf depth he⟩
  | @group d p r opening closing us vs left right openingDepth closingDepth inside rest _ ih =>
    have hall : opening :: (us ++ closing :: vs) = (opening :: (us ++ [closing])) ++ vs := by simp
    rw [Nest.named?, hall]
    rcases vs with _ | ⟨u, _ | ⟨v, vs⟩⟩
    · obtain rfl := rest.eq_nil
      refine .inl ⟨?_, rfl⟩
      have hrev : (opening :: (us ++ [closing]) ++ []).reverse = closing :: (us.reverse ++ [opening]) := by simp
      rw [tokensBefore?, hrev]
      cases us.reverse <;> simp [right, Kind.name?]
    · obtain rfl := rest.eq_leaf hp
      refine .inl ⟨?_, by simp [Nest.named?, isAlias]⟩
      have hrev : (opening :: (us ++ [closing]) ++ [u]).reverse = u :: closing :: (us.reverse ++ [opening]) := by simp
      rw [tokensBefore?, hrev]
      simp [Token.isKeyword, Kind.isKeyword, right]
    · rw [tokensBefore?_append]
      rcases ih hp with ⟨hts, hnamed⟩ | ⟨ws, e, hts, hnamed, he⟩
      · exact .inl ⟨by rw [hts]; rfl, by rw [hnamed]; rfl⟩
      · refine .inr ⟨_, _, by rw [hts]; rfl, by rw [hnamed]; rfl, ?_⟩
        have hgroup := Reads.group left right openingDepth closingDepth inside he
        simpa using hgroup
  | select => cases hp

/-- The expression of an item is read as that of the item of the nest. -/
theorem Reads.aliased? (h : Reads d p ts) (hp : p.isPlain = true) (name : SqlText) :
    (OrderAlias.aliased? name ts = none ∧ p.aliased? name = none) ∨
      ∃ us e, OrderAlias.aliased? name ts = some us ∧ p.aliased? name = some e ∧ us ≠ [] ∧ Reads d e us := by
  rw [aliased?_eq, Nest.aliased?]
  rcases h.named? hp name with ⟨hts, hnamed⟩ | ⟨us, e, hts, hnamed, he⟩
  · exact .inl ⟨by rw [hts]; rfl, by rw [hnamed]; rfl⟩
  · rw [hts, hnamed]
    cases he with
    | nil => exact .inl ⟨rfl, rfl⟩
    | leaf depth rest => exact .inr ⟨_, _, rfl, rfl, List.cons_ne_nil _ _, .leaf depth rest⟩
    | group left right openingDepth closingDepth inside rest =>
      exact .inr ⟨_, _, rfl, rfl, List.cons_ne_nil _ _, .group left right openingDepth closingDepth inside rest⟩
    | select depth modifiersDepth wordsDepth reads readsClauses readsItems =>
      exact .inr ⟨_, _, rfl, rfl, List.cons_ne_nil _ _,
        .select depth modifiersDepth wordsDepth reads readsClauses readsItems⟩

/-- The text of a stretch is that of its nest. -/
theorem Reads.spell (h : Reads d p ts) : Token.spell ts = p.source := by
  rw [source, ← h.lexemes]
  cases ts with
  | nil => rfl
  | cons t ts =>
    show t.text ++ ts.flatMap _ = t.text ++ Lexeme.spell (ts.map (·.toLexeme))
    rw [Lexeme.spell, List.flatMap_map]

theorem Reads.not_select_iff (h : Reads d p ts) (hp : p.isProper = true) :
    (∀ t ∈ ts, t.isKeyword .SELECT = false) ↔ p.selects = 0 := by
  have hkind : ∀ {t : Token}, t.kind ≠ .keyword .SELECT → t.isKeyword .SELECT = false := by
    intro t ht
    simpa [Token.isKeyword, Kind.isKeyword] using ht
  induction h with
  | nil => exact ⟨fun _ => rfl, fun _ => List.forall_mem_nil _⟩
  | leaf depth rest ih =>
    obtain ⟨hl, hrest⟩ := isProper_leaf_iff.1 hp
    obtain ⟨-, -, -, -, hselect, -⟩ := Lexeme.isFree_iff.1 hl
    rw [List.forall_mem_cons, selects]
    exact ⟨fun h => (ih hrest).1 h.2, fun h => ⟨hkind hselect, (ih hrest).2 h⟩⟩
  | group left right _ _ _ _ ihInside ih =>
    obtain ⟨-, -, hinside, hrest⟩ := isProper_group_iff.1 hp
    rw [selects, Nat.add_eq_zero_iff, List.forall_mem_cons, List.forall_mem_append, List.forall_mem_cons]
    constructor
    · rintro ⟨-, hus, -, hvs⟩
      exact ⟨(ihInside hinside).1 hus, (ih hrest).1 hvs⟩
    · rintro ⟨hnone, hnone'⟩
      exact ⟨hkind (by rw [left]; simp), (ihInside hinside).2 hnone, hkind (by rw [right]; simp), (ih hrest).2 hnone'⟩
  | @select d list clauses items t ms ls cs ws os =>
    obtain ⟨hselect, -⟩ := isProper_select_iff.1 hp
    have hword : t.isKeyword .SELECT = true := hselect.word
    rw [List.forall_mem_cons, selects, hword]
    constructor
    · rintro ⟨h, -⟩
      cases h
    · intro h
      omega

/-- The `SELECT`s of a stretch are those of its nest. -/
theorem Reads.any_isKeyword (h : Reads d p ts) (hp : p.isProper = true) :
    (ts.any fun t => t.isKeyword .SELECT) = !(p.selects == 0) := by
  by_cases hnone : p.selects = 0
  · rw [hnone, List.any_eq_false.2 fun t ht => ?_]
    · rfl
    · rw [(h.not_select_iff hp).2 hnone t ht]
      exact Bool.false_ne_true
  · obtain ⟨t, ht, hselect⟩ : ∃ t ∈ ts, t.isKeyword .SELECT = true := by
      by_contra hall
      refine hnone ((h.not_select_iff hp).1 fun t ht => Bool.eq_false_iff.2 fun hselect => hall ⟨t, ht, hselect⟩)
    rw [List.any_eq_true.2 ⟨t, ht, hselect⟩, beq_eq_false_iff_ne.2 hnone]
    rfl

/-- What may be copied in the tokens is what may be copied in the nest. -/
theorem Reads.canCopy (h : Reads d p ts) (hp : p.isProper = true) (name : SqlText) :
    canCopy name ts = isCopied name p := by
  have hmarker : (ts.any fun t => t.kind.isMarker) = p.lexemes.any fun l => l.kind.isMarker := by
    rw [← h.lexemes, List.any_map]
    rfl
  rw [OrderAlias.canCopy, isCopied, h.spell, h.any_isKeyword hp, hmarker, Bool.not_not]

/-! ### Clauses -/

theorem map_opened? (t : Token) (after : List Token) :
    (Clause.opened? t after).map Prod.fst = opened? t.toLexeme (after.head?.any fun u => u.isKeyword .BY) := by
  unfold Clause.opened? opened?
  generalize (after.head?.any fun u => u.isKeyword .BY) = byFollows
  cases hk : t.kind.keyword? with
  | none => rfl
  | some k =>
    simp only
    cases byFollows <;> cases k <;> rfl

theorem opened?_eq_none_iff {after : List Token} :
    Clause.opened? t after = none ↔ opened? t.toLexeme (after.head?.any fun u => u.isKeyword .BY) = none := by
  rw [← map_opened?, Option.map_eq_none_iff]

/-- Whether a `BY` follows a token shows in the nest. -/
theorem Reads.head_isKeyword (h : Reads d p ts) (hp : p.isPlain = true) (hvs : ∀ u ∈ vs.head?, u.isKeyword k = false) :
    ((ts ++ vs).head?.any fun u => u.isKeyword k) = p.startsWith k := by
  cases h with
  | nil =>
    cases vs with
    | nil => rfl
    | cons v vs => exact hvs v rfl
  | leaf => rfl
  | group left =>
    show Kind.isKeyword _ k = false
    rw [left]
    rfl
  | select => cases hp

/-- A token that opens no clause, and tokens that are deeper, do not cut. -/
theorem cut_cons_of_none {d stop : Nat} {after : List Token} (h : Clause.opened? t after = none) :
    Clause.cut d stop (t :: after) = (t :: (Clause.cut d stop after).1, (Clause.cut d stop after).2) := by
  rw [Clause.cut, h, ite_self]

/-- A token that opens a clause cuts. -/
theorem exists_cut_cons {d more : Nat} {kind : ClauseKind} {after : List Token} (hd : t.depth = d)
    (h : Clause.opened? t after = some (kind, more)) (stop : Nat) :
    ∃ c, Clause.cut d stop (t :: after) = ([], c :: (Clause.cut d stop after).2) ∧ c.kind = kind ∧
      c.body = (Clause.cut d stop after).1.drop more := by
  rw [Clause.cut, if_pos hd, h]
  exact ⟨_, rfl, rfl, rfl⟩

theorem cut_group (h : Reads (d + 1) p us) {opening closing : Token} (left : opening.kind = .symbol .leftParen)
    (right : closing.kind = .symbol .rightParen) (stop : Nat) (vs : List Token) :
    Clause.cut d stop (opening :: (us ++ closing :: vs)) =
      (opening :: (us ++ closing :: (Clause.cut d stop vs).1), (Clause.cut d stop vs).2) := by
  have hnone : ∀ {t : Token} {s : Symbol} {after : List Token}, t.kind = .symbol s → Clause.opened? t after = none := by
    intro t s after ht
    rw [Clause.opened?, ht]
    rfl
  have hdeeper : ∀ t ∈ us, t.depth = d → ∀ after, Clause.opened? t after = none := by
    intro t ht hd
    have hle := h.le t ht
    omega
  rw [cut_cons_of_none (hnone left), Clause.cut_append_of_not hdeeper, cut_cons_of_none (hnone right)]

/-- Where a nest opens no clause, no cut is made. -/
theorem Reads.cut_eq (h : Reads d p ts) (hp : p.isPlain = true) (hk : p.kinds = [])
    (hvs : ∀ u ∈ vs.head?, u.isKeyword .BY = false) (stop : Nat) :
    Clause.cut d stop (ts ++ vs) = (ts ++ (Clause.cut d stop vs).1, (Clause.cut d stop vs).2) := by
  induction h with
  | nil => rfl
  | @leaf d p t ts depth rest ih =>
    obtain ⟨hopened, hrest⟩ := kinds_leaf_eq_nil_iff.1 hk
    have hnone : Clause.opened? t (ts ++ vs) = none := by
      rw [opened?_eq_none_iff, rest.head_isKeyword hp hvs, hopened]
    rw [List.cons_append, cut_cons_of_none hnone, ih hp hrest]
    rfl
  | @group d p r opening closing us ws left right _ _ inside rest _ ih =>
    have hall : opening :: (us ++ closing :: ws) ++ vs = opening :: (us ++ closing :: (ws ++ vs)) := by simp
    rw [hall, cut_group inside left right, ih hp hk]
    simp
  | select => cases hp

/-- The clauses of a nest without an ordering come before those behind it. -/
theorem Reads.exists_cut (h : Reads d p ts) (hp : p.isPlain = true) (hk : .ordering ∉ p.kinds)
    (hvs : ∀ u ∈ vs.head?, u.isKeyword .BY = false) (stop : Nat) :
    ∃ cls, (Clause.cut d stop (ts ++ vs)).2 = cls ++ (Clause.cut d stop vs).2 ∧ ∀ c ∈ cls, c.kind ≠ .ordering := by
  induction h with
  | nil => exact ⟨[], rfl, List.forall_mem_nil _⟩
  | @leaf d p t ts depth rest ih =>
    rw [Nest.kinds, List.mem_append, not_or] at hk
    obtain ⟨cls, hcls, hkinds⟩ := ih hp hk.2
    have hopened := map_opened? t (ts ++ vs)
    rw [rest.head_isKeyword hp hvs] at hopened
    rw [List.cons_append]
    cases ho : Clause.opened? t (ts ++ vs) with
    | none =>
      rw [cut_cons_of_none ho]
      exact ⟨cls, hcls, hkinds⟩
    | some x =>
      obtain ⟨kind, more⟩ := x
      rw [ho] at hopened
      have hne : kind ≠ .ordering := by
        rintro rfl
        exact hk.1 (by rw [← hopened]; simp)
      obtain ⟨c, hcut, hkind, -⟩ := exists_cut_cons depth ho stop
      exact ⟨c :: cls, by rw [hcut, hcls]; rfl, List.forall_mem_cons.2 ⟨by rwa [hkind], hkinds⟩⟩
  | @group d p r opening closing us ws left right _ _ inside rest _ ih =>
    have hall : opening :: (us ++ closing :: ws) ++ vs = opening :: (us ++ closing :: (ws ++ vs)) := by simp
    rw [hall, cut_group inside left right]
    exact ih hp hk
  | select => cases hp

/-- Before the clauses that a nest starts with there is nothing. -/
theorem Reads.cut_fst (h : Reads d p ts) (hne : ts ≠ []) (hp : p.isPlain = true) (hs : p.startsClause = true)
    (hvs : ∀ u ∈ vs.head?, u.isKeyword .BY = false) (stop : Nat) : (Clause.cut d stop (ts ++ vs)).1 = [] := by
  cases h with
  | nil => exact absurd rfl hne
  | @leaf _ p t ts depth rest =>
    have hopened := map_opened? t (ts ++ vs)
    rw [rest.head_isKeyword hp hvs] at hopened
    rw [startsClause, ← hopened, Option.isSome_map] at hs
    obtain ⟨x, hx⟩ := Option.isSome_iff_exists.1 hs
    obtain ⟨c, hcut, -⟩ := exists_cut_cons depth hx stop
    rw [List.cons_append, hcut]
  | group => cases hs
  | select => cases hp

/-! ### The scope of a selection -/

variable {ms ls cs ws os : List Token}

theorem not_ending {l : Lexeme} (h : l.isFree = true) : l.isKeyword .UNION = false ∧ l.isSymbol .semicolon = false := by
  obtain ⟨-, -, -, hsemicolon, -, hunion⟩ := Lexeme.isFree_iff.1 h
  exact ⟨by simpa [Lexeme.isKeyword, Kind.isKeyword] using hunion, by simpa [Lexeme.isSymbol, Kind.isSymbol] using hsemicolon⟩

/-- No token of a nest ends a selection. -/
theorem Reads.not_ending (h : Reads d p ts) (hp : p.isProper = true) :
    ∀ t ∈ ts, t.isKeyword .UNION = false ∧ t.isSymbol .semicolon = false := by
  have hfree : ∀ {t : Token}, t.toLexeme.isFree = true → t.isKeyword .UNION = false ∧ t.isSymbol .semicolon = false :=
    fun ht => Nest.not_ending ht
  have hall : ∀ {us : List Token}, (∀ l ∈ us.map (·.toLexeme), l.isFree = true) →
      ∀ t ∈ us, t.isKeyword .UNION = false ∧ t.isSymbol .semicolon = false :=
    fun hus t ht => hfree (hus _ (List.mem_map_of_mem ht))
  induction h with
  | nil => exact List.forall_mem_nil _
  | leaf depth rest ih =>
    obtain ⟨hl, hrest⟩ := isProper_leaf_iff.1 hp
    exact List.forall_mem_cons.2 ⟨hfree hl, ih hrest⟩
  | group left right _ _ _ _ ihInside ih =>
    obtain ⟨-, -, hinside, hrest⟩ := isProper_group_iff.1 hp
    simp only [List.forall_mem_cons, List.forall_mem_append]
    refine ⟨?_, ihInside hinside, ?_, ih hrest⟩
    · simp [Token.isKeyword, Token.isSymbol, Kind.isKeyword, Kind.isSymbol, left]
    · simp [Token.isKeyword, Token.isSymbol, Kind.isKeyword, Kind.isSymbol, right]
  | @select d list clauses items t ms ls cs ws os _ _ _ _ _ _ ih ihClauses ihItems =>
    obtain ⟨hselect, hlist, hclauses, hitems⟩ := isProper_select_iff.1 hp
    have hword : t.kind = .keyword .SELECT := Lexeme.isKeyword_iff.1 hselect.word
    simp only [List.forall_mem_cons, List.forall_mem_append]
    refine ⟨?_, hall fun l hl => (isFree_of_areModifiers hselect.modifiers l hl).1, ih hlist, ihClauses hclauses,
      hall (isFree_of_areWords hselect.words), ihItems hitems⟩
    simp [Token.isKeyword, Token.isSymbol, Kind.isKeyword, Kind.isSymbol, hword]

/-- What modifies a `SELECT` is counted. -/
theorem modifierCount_eq (hm : areModifiers (ms.map (·.toLexeme)) list = true) (h : Reads d list ls)
    (hp : list.isPlain = true) 
    (hvs : ∀ u ∈ vs.head?, u.isKeyword .DISTINCT = false ∧ u.isKeyword .ALL = false ∧ u.isKeyword .TOP = false) :
    Scope.modifierCount (ms ++ (ls ++ vs)) = ms.length := by
  have hhead : ∀ k, (k = .DISTINCT ∨ k = .ALL ∨ k = .TOP) →
      ((ls ++ vs).head?.any fun u => u.isKeyword k) = list.startsWith k := by
    intro k hk
    refine h.head_isKeyword hp fun u hu => ?_
    rcases hk with rfl | rfl | rfl
    · exact (hvs u hu).1
    · exact (hvs u hu).2.1
    · exact (hvs u hu).2.2
  have hor : ((ls ++ vs).head?.any fun t => t.isKeyword .DISTINCT || t.isKeyword .ALL) =
      (list.startsWith .DISTINCT || list.startsWith .ALL) := by
    rw [← hhead .DISTINCT (.inl rfl), ← hhead .ALL (.inr (.inl rfl))]
    cases (ls ++ vs).head? <;> rfl
  have htop := hhead .TOP (.inr (.inr rfl))
  generalize ls ++ vs = us at hor htop
  rcases ms with _ | ⟨a, _ | ⟨b, _ | ⟨c, _ | ⟨e, ms⟩⟩⟩⟩
  · simp only [List.map_nil, areModifiers, Bool.not_eq_true', Bool.or_eq_false_iff] at hm
    rw [hm.2] at htop
    rw [hm.1.1, hm.1.2, Bool.or_false] at hor
    simp [Scope.modifierCount, hor, htop]
  · simp only [List.map_cons, List.map_nil, areModifiers, Bool.and_eq_true, Bool.not_eq_true'] at hm
    rw [hm.2] at htop
    have hquantifier : (a.isKeyword .DISTINCT || a.isKeyword .ALL) = true := hm.1
    simp [Scope.modifierCount, hquantifier, htop]
  · simp only [List.map_cons, List.map_nil, areModifiers, Bool.and_eq_true] at hm
    have htop : a.isKeyword .TOP = true := hm.1.1
    have hquantifier : a.isKeyword .DISTINCT = false ∧ a.isKeyword .ALL = false :=
      ⟨JoinChain.isKeyword_eq_false_of_ne htop (by decide), JoinChain.isKeyword_eq_false_of_ne htop (by decide)⟩
    simp [Scope.modifierCount, hquantifier, htop]
  · simp only [List.map_cons, List.map_nil, areModifiers, Bool.and_eq_true] at hm
    have hquantifier : (a.isKeyword .DISTINCT || a.isKeyword .ALL) = true := hm.1
    have htop : b.isKeyword .TOP = true := hm.2.1.1
    simp [Scope.modifierCount, hquantifier, htop]
  · cases hm

theorem isKeyword_eq_false_of_opened? {b : Bool} (h : (opened? l b).isSome = true)
    (hk : k = .BY ∨ k = .DISTINCT ∨ k = .ALL ∨ k = .TOP) : l.isKeyword k = false := by
  refine Bool.eq_false_iff.2 fun hl => ?_
  rw [opened?, Lexeme.isKeyword_iff.1 hl] at h
  rcases hk with rfl | rfl | rfl | rfl <;> cases h

/-- How the tokens from the clauses of a selection on are cut. -/
theorem exists_clauses (hselect : IsSelection t.toLexeme modifiers list clauses (ws.map (·.toLexeme)) items)
    (hws : ∀ w ∈ ws, w.depth = d) (hcs : Reads d clauses cs) (hos : Reads d items os) (stop : Nat) :
    (Clause.cut d stop (cs ++ (ws ++ os))).1 = [] ∧
      (∃ cls ords, (Clause.cut d stop (cs ++ (ws ++ os))).2 = cls ++ ords ∧ (∀ c ∈ cls, c.kind ≠ .ordering) ∧
        ((os = [] ∧ ords = []) ∨ ∃ c, ords = [c] ∧ c.kind = .ordering ∧ c.body = os)) ∧
      ∀ u ∈ (cs ++ (ws ++ os)).head?, ∃ b, (opened? u.toLexeme b).isSome = true := by
  -- the ordering by itself
  have hordering : (Clause.cut d stop (ws ++ os)).1 = [] ∧
      ((os = [] ∧ (Clause.cut d stop (ws ++ os)).2 = []) ∨
        ∃ c, (Clause.cut d stop (ws ++ os)).2 = [c] ∧ c.kind = .ordering ∧ c.body = os) ∧
      ∀ u ∈ (ws ++ os).head?, ∃ b, (opened? u.toLexeme b).isSome = true := by
    rcases words_cases hselect.words with ⟨hnil, rfl⟩ | ⟨order, by_, hwords, horder, hby⟩
    · obtain rfl := List.map_eq_nil_iff.1 hnil
      cases hos
      exact ⟨rfl, .inl ⟨rfl, rfl⟩, by simp⟩
    · obtain ⟨o, us, rfl, rfl, hus⟩ := List.map_eq_cons_iff.1 hwords
      obtain ⟨b, vs, rfl, rfl, hvs⟩ := List.map_eq_cons_iff.1 hus
      obtain rfl := List.map_eq_nil_iff.1 hvs
      have hob : o.kind = .keyword .ORDER := Lexeme.isKeyword_iff.1 horder
      have hbb : b.kind = .keyword .BY := Lexeme.isKeyword_iff.1 hby
      have hopened : Clause.opened? o (b :: os) = some (.ordering, 1) := by
        simp [Clause.opened?, hob, Kind.keyword?, Token.isKeyword, Kind.isKeyword, hbb]
      have hnone : Clause.opened? b os = none := by
        simp [Clause.opened?, hbb, Kind.keyword?]
      have hcut : Clause.cut d stop (os ++ []) = _ := hos.cut_eq hselect.itemsPlain hselect.itemsKinds (by simp) stop
      obtain ⟨c, hc, hkind, hbody⟩ := exists_cut_cons (hws o List.mem_cons_self) hopened stop
      rw [cut_cons_of_none hnone] at hc hbody
      rw [List.append_nil] at hcut
      rw [hcut] at hc hbody
      refine ⟨by rw [List.cons_append, List.cons_append, List.nil_append, hc], .inr ⟨c, ?_, hkind, ?_⟩, ?_⟩
      · rw [List.cons_append, List.cons_append, List.nil_append, hc]
        rfl
      · rw [hbody]
        exact List.append_nil _
      · intro u hu
        obtain rfl : o = u := by simpa using hu
        exact ⟨true, by simp [opened?, hob, Kind.keyword?]⟩
  obtain ⟨hfirst, hords, hhead⟩ := hordering
  have hby : ∀ u ∈ (ws ++ os).head?, u.isKeyword .BY = false := by
    intro u hu
    obtain ⟨b, hb⟩ := hhead u hu
    exact isKeyword_eq_false_of_opened? hb (.inl rfl)
  obtain ⟨cls, hcls, hkinds⟩ := hcs.exists_cut hselect.clausesPlain hselect.unordered hby stop
  refine ⟨?_, ⟨cls, (Clause.cut d stop (ws ++ os)).2, hcls, hkinds, hords⟩, ?_⟩
  · by_cases hnil : cs = []
    · rw [hnil]
      exact hfirst
    · exact hcs.cut_fst hnil hselect.clausesPlain hselect.starts hby stop
  · cases hcs with
    | nil => exact hhead
    | leaf depth rest =>
      intro u hu
      obtain rfl := Option.some.inj hu
      exact ⟨_, hselect.starts⟩
    | group => cases hselect.starts
    | select => cases hselect.clausesPlain

/-- **What the rule finds in a selection**: the pieces of its ordering and those of its list. -/
theorem scopeEdits_eq (hselect : IsSelection t.toLexeme (ms.map (·.toLexeme)) list clauses (ws.map (·.toLexeme)) items)
    (hlist : list.isProper = true) (hclauses : clauses.isProper = true) (hitems : items.isProper = true)
    (hd : t.depth = d) (hms : ∀ m ∈ ms, m.depth = d) (hws : ∀ w ∈ ws, w.depth = d) (hls : Reads d list ls)
    (hcs : Reads d clauses cs) (hos : Reads d items os) (hbs : ∀ u ∈ bs.head?, Scope.reaches d u = false) (stop : Nat) :
    scopeEdits (Scope.ofSelect stop t (ms ++ (ls ++ (cs ++ (ws ++ os))) ++ bs)) =
      (Token.splitCommas d os).filterMap (itemEdit? (Token.splitCommas d ls)) := by
  subst hd
  -- the scope reaches to the end of the selection
  have hall : Reads t.depth _ (t :: (ms ++ (ls ++ (cs ++ (ws ++ os))))) := .select rfl hms hws hls hcs hos
  have hproper := isProper_select_iff.2 ⟨hselect, hlist, hclauses, hitems⟩
  have hin : ∀ u ∈ ms ++ (ls ++ (cs ++ (ws ++ os))), Scope.reaches t.depth u = true := by
    intro u hu
    have hle := hall.le u (List.mem_cons_of_mem _ hu)
    have hnot := hall.not_ending hproper u (List.mem_cons_of_mem _ hu)
    simp [Scope.reaches, hle, hnot]
  have hout : bs.takeWhile (Scope.reaches t.depth) = [] := by
    cases bs with
    | nil => rfl
    | cons u bs => rw [List.takeWhile_cons_of_neg (by rw [hbs u rfl]; exact Bool.false_ne_true)]
  have hbody : (ms ++ (ls ++ (cs ++ (ws ++ os))) ++ bs).takeWhile (Scope.reaches t.depth) =
      ms ++ (ls ++ (cs ++ (ws ++ os))) := by
    rw [List.takeWhile_append_of_pos hin, hout, List.append_nil]
  obtain ⟨stop', hstop⟩ : ∃ stop', stop' = Token.startOr stop
      ((ms ++ (ls ++ (cs ++ (ws ++ os))) ++ bs).dropWhile (Scope.reaches t.depth)) := ⟨_, rfl⟩
  -- and is cut into the list, the clauses and the ordering
  obtain ⟨hfirst, ⟨cls, ords, hcls, hkinds, hords⟩, hhead⟩ := exists_clauses hselect hws hcs hos stop'
  have hkeyword : ∀ k, (k = .BY ∨ k = .DISTINCT ∨ k = .ALL ∨ k = .TOP) →
      ∀ u ∈ (cs ++ (ws ++ os)).head?, u.isKeyword k = false := by
    intro k hk u hu
    obtain ⟨b, hb⟩ := hhead u hu
    exact isKeyword_eq_false_of_opened? hb hk
  have hnot : ∀ m ∈ ms, m.depth = t.depth → ∀ after, Clause.opened? m after = none := by
    intro m hm _ after
    rw [opened?_eq_none_iff]
    exact (isFree_of_areModifiers hselect.modifiers _ (List.mem_map_of_mem hm)).2 _
  have hcut : Clause.cut t.depth stop' (ms ++ (ls ++ (cs ++ (ws ++ os)))) = (ms ++ ls, cls ++ ords) := by
    rw [Clause.cut_append_of_not hnot, hls.cut_eq hselect.listPlain hselect.listKinds
      (hkeyword .BY (.inl rfl)), hfirst, hcls, List.append_nil]
  have hcount : Scope.modifierCount (ms ++ (ls ++ (cs ++ (ws ++ os)))) = ms.length :=
    modifierCount_eq hselect.modifiers hls hselect.listPlain fun u hu =>
      ⟨hkeyword _ (by simp) u hu, hkeyword _ (by simp) u hu, hkeyword _ (by simp) u hu⟩
  obtain ⟨s, hs, hdepth, hitems', hclauses'⟩ : ∃ s, Scope.ofSelect stop t (ms ++ (ls ++ (cs ++ (ws ++ os))) ++ bs) = s ∧
      s.depth = t.depth ∧ s.items = Token.splitCommas t.depth ls ∧ s.clauses = cls ++ ords := by
    refine ⟨⟨t, ms ++ (ls ++ (cs ++ (ws ++ os))), (ms ++ (ls ++ (cs ++ (ws ++ os)))).take ms.length, ls, cls ++ ords⟩, ?_,
      rfl, rfl, rfl⟩
    simp only [Scope.ofSelect, hbody, ← hstop, hcut, hcount, List.drop_left]
  have hfind : cls.reverse.find? (fun c => c.kind = .ordering) = none := by
    rw [List.find?_eq_none]
    intro c hc
    simpa using hkinds c (List.mem_reverse.1 hc)
  rw [hs, scopeEdits, Scope.clause?, hdepth, hitems', hclauses']
  rcases hords with ⟨rfl, rfl⟩ | ⟨c, rfl, hkind, rfl⟩
  · rw [List.append_nil, hfind]
    rfl
  · rw [List.reverse_append, List.reverse_singleton, List.singleton_append, List.find?_cons_of_pos (by simp [hkind])]

end Nest

end OrderAlias

end JetAdapter
