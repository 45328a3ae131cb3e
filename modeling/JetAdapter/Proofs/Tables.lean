import JetAdapter.Guarded.Table
import JetAdapter.Proofs.Cursors
import JetAdapter.Proofs.Partition
import JetAdapter.Proofs.Stretches
import Mathlib.Data.List.Forall2
import Mathlib.Data.List.Induction

/-!
# Tables of tokens and queries

A table of the tokens of a text holds the tokens of the query that the text is read as, and the end of the text
behind them (`TokenTable.Holds`).  A range of numbers covers a stretch of tokens if the tokens with these numbers are
the stretch, one by one (`CoversTokens`); an empty range may lie behind all tokens.  What is found by going over the numbers
of a range is what is found in the stretch, and no number is asked for that is not there.
-/

namespace JetAdapter

open Guarded (minus_eq cutOut_append findM?_eq ok_bind refuse)

variable {T : TokenTable} {q : Query} {r : TokenRange} {as bs ts us : List Token} {t : Token} {i stop : Nat}
  {p : Token → Bool}

/-! ### Ranges -/

/-- Whether the tokens with these numbers are a stretch. -/
structure CoversTokens (q : Query) (r : TokenRange) (ts : List Token) : Prop where
  stop_eq : r.stop = r.start + ts.length
  within : ts <+: q.tokens.drop r.start

namespace CoversTokens

theorem size_eq (h : CoversTokens q r ts) : r.size = ts.length := by
  rw [TokenRange.size, h.stop_eq]
  omega

theorem size_eq_zero_iff (h : CoversTokens q r ts) : r.size = 0 ↔ ts = [] := by
  rw [h.size_eq, List.length_eq_zero_iff]

theorem indices_eq (h : CoversTokens q r ts) : r.indices = List.range' r.start ts.length := by
  rw [TokenRange.indices, h.size_eq]

theorem nil (q : Query) (i : Nat) : CoversTokens q ⟨i, i⟩ [] :=
  ⟨rfl, List.nil_prefix⟩

theorem of_eq (h : q.tokens = as ++ (ts ++ bs)) : CoversTokens q ⟨as.length, as.length + ts.length⟩ ts :=
  ⟨rfl, by rw [h, List.drop_left]; exact List.prefix_append ts bs⟩

theorem of_drop (h : i ≤ q.tokens.length) : CoversTokens q ⟨i, q.tokens.length⟩ (q.tokens.drop i) := by
  refine ⟨?_, List.prefix_refl _⟩
  show q.tokens.length = i + (q.tokens.drop i).length
  rw [List.length_drop]
  omega

/-- A stretch that is not empty stands where its range says. -/
theorem exists_eq (h : CoversTokens q r ts) (hne : ts ≠ []) :
    ∃ as bs, q.tokens = as ++ (ts ++ bs) ∧ as.length = r.start := by
  obtain ⟨bs, hbs⟩ := h.within
  have hlt : r.start < q.tokens.length := by
    refine Nat.lt_of_not_le fun hle => ?_
    rw [List.drop_eq_nil_of_le hle] at hbs
    exact hne (List.append_eq_nil_iff.1 hbs).1
  refine ⟨q.tokens.take r.start, bs, ?_, List.length_take_of_le (Nat.le_of_lt hlt)⟩
  rw [hbs, List.take_append_drop]

theorem left (h : CoversTokens q ⟨i, stop⟩ (as ++ bs)) : CoversTokens q ⟨i, i + as.length⟩ as :=
  ⟨rfl, (List.prefix_append as bs).trans h.within⟩

theorem right (h : CoversTokens q ⟨i, stop⟩ (as ++ bs)) : CoversTokens q ⟨i + as.length, stop⟩ bs := by
  refine ⟨?_, ?_⟩
  · have := h.stop_eq
    rw [List.length_append, ← Nat.add_assoc] at this
    exact this
  · obtain ⟨cs, hcs⟩ := h.within
    refine ⟨cs, ?_⟩
    rw [← List.drop_drop, ← hcs, List.append_assoc, List.drop_left]

theorem tail (h : CoversTokens q ⟨i, stop⟩ (t :: ts)) : CoversTokens q ⟨i + 1, stop⟩ ts :=
  right (show CoversTokens q ⟨i, stop⟩ ([t] ++ ts) from h)

theorem head (h : CoversTokens q ⟨i, stop⟩ (t :: ts)) : q.tokens[i]? = some t := by
  obtain ⟨bs, hbs⟩ := h.within
  have hdrop : (q.tokens.drop i)[0]? = q.tokens[i]? := List.getElem?_drop
  rw [← hbs] at hdrop
  exact hdrop.symm

theorem cons (ht : q.tokens[i]? = some t) (h : CoversTokens q ⟨i + 1, stop⟩ ts) : CoversTokens q ⟨i, stop⟩ (t :: ts) := by
  obtain ⟨hlt, rfl⟩ := List.getElem?_eq_some_iff.1 ht
  refine ⟨?_, ?_⟩
  · have hstop : stop = i + 1 + ts.length := h.stop_eq
    rw [hstop, List.length_cons, Nat.add_assoc, Nat.add_comm 1]
  · rw [List.drop_eq_getElem_cons hlt]
    exact List.cons_prefix_cons.2 ⟨rfl, h.within⟩

theorem getElem? (h : CoversTokens q ⟨i, stop⟩ (as ++ t :: bs)) : q.tokens[i + as.length]? = some t :=
  h.right.head

/-- The tokens of a range are among the tokens of the query. -/
theorem stop_le (h : CoversTokens q r ts) (hne : ts ≠ []) : r.stop ≤ q.tokens.length := by
  obtain ⟨as, bs, hq, hstart⟩ := h.exists_eq hne
  rw [h.stop_eq, ← hstart, hq]
  simp only [List.length_append]
  omega

end CoversTokens

/-! ### The tokens of a table -/

namespace TokenTable

/-- Whether a table holds the tokens of a query and the end of its text. -/
structure Holds (T : TokenTable) (q : Query) : Prop where
  text : T.text = q.text
  read : ∃ cells, q.IsRead cells
  tokens : ∃ last : Token, T.tokens = q.tokens ++ [last] ∧ last.kind = .eof ∧ last.start = q.stop

/-- What can be read as a query is read as a table that holds it, and what is refused is refused for the same
reason. -/
theorem ofText_cases (text : SqlText) :
    (∃ q T, Query.ofText text = .ok q ∧ ofText text = .ok T ∧ q.text = text ∧ T.Holds q) ∨
      ∃ e, Query.ofText text = .error e ∧ ofText text = refuse e := by
  obtain ⟨front, last, hlex, hkind, htext, -⟩ := (Lexeme.lexed_lex text).eq_concat
  have htokens : (tokenize text).getLast?
      = some ⟨last, Text.byteSize (Lexeme.spell front) + Text.byteSize last.gap⟩ := by
    rw [tokenize, hlex, Lexeme.placedFrom_concat, Nat.zero_add, List.getLast?_concat]
  have hspell := spell_lex text
  rw [hlex, Lexeme.spell_append, Lexeme.spell_cons, htext, Lexeme.spell_nil, List.append_nil, List.append_nil] at hspell
  rw [ofText, Guarded.tokens_eq, ok_bind]
  cases hq : Query.ofText text with
  | error e =>
    refine .inr ⟨e, rfl, ?_⟩
    rw [Query.ofText] at hq
    cases hn : Query.nest 0 (tokenize text) with
    | error e' =>
      rw [hn] at hq
      cases hq
      rfl
    | ok ts =>
      rw [hn] at hq
      cases hq
  | ok q =>
    obtain ⟨rfl, hn⟩ := Query.ofText_eq_ok_iff.1 hq
    refine .inl ⟨q, ⟨q.text, q.tokens ++ [⟨⟨last, q.stop⟩, 0⟩]⟩, rfl, ?_, rfl, rfl, (Query.isRead hq).2,
      ⟨_, rfl, hkind, rfl⟩⟩
    rw [hn, htokens, Query.stop, ← hspell, Text.byteSize_append, hspell]
    rfl

namespace Holds

theorem token_eq (h : T.Holds q) (ht : q.tokens[i]? = some t) : T.token i = .ok t := by
  obtain ⟨last, htokens, -⟩ := h.tokens
  rw [token, htokens, List.getElem?_append_left (List.getElem?_eq_some_iff.1 ht).1, ht]

theorem eof_eq (h : T.Holds q) : T.eof = .ok q.tokens.length := by
  obtain ⟨last, htokens, -⟩ := h.tokens
  rw [eof, htokens, minus_eq (by simp)]
  simp

theorem indices_eq (h : T.Holds q) : T.indices = .ok (List.range' 0 q.tokens.length) := by
  rw [indices, h.eof_eq]
  rfl

/-- The end is no keyword and no symbol. -/
theorem any_eq (h : T.Holds q) {p : Kind → Bool} (hp : p .eof = false) (i : Nat) :
    (T.tokens[i]?.any fun t => p t.kind) = q.tokens[i]?.any fun t => p t.kind := by
  obtain ⟨last, htokens, hkind, -⟩ := h.tokens
  rw [htokens]
  rcases Nat.lt_trichotomy i q.tokens.length with hi | rfl | hi
  · rw [List.getElem?_append_left hi]
  · rw [List.getElem?_append_right (Nat.le_refl _), Nat.sub_self, List.getElem?_eq_none (Nat.le_refl _)]
    simp [hkind, hp]
  · rw [List.getElem?_eq_none (by simp; omega), List.getElem?_eq_none (by omega)]

theorem isKeyword_eq (h : T.Holds q) (i : Nat) (k : Keyword) :
    T.isKeyword i k = q.tokens[i]?.any fun t => t.isKeyword k :=
  h.any_eq (p := fun kind => kind.isKeyword k) rfl i

theorem isSymbol_eq (h : T.Holds q) (i : Nat) (s : Symbol) :
    T.isSymbol i s = q.tokens[i]?.any fun t => t.isSymbol s :=
  h.any_eq (p := fun kind => kind.isSymbol s) rfl i

theorem spanTo_eq {j : Nat} {u : Token} (h : T.Holds q) (ht : q.tokens[i]? = some t) (hu : q.tokens[j]? = some u) :
    T.spanTo i j = .ok ⟨t.start, u.stop⟩ := by
  rw [spanTo, h.token_eq ht, ok_bind, h.token_eq hu]
  rfl

theorem rangeSpan_of_nil (hr : r.stop ≤ r.start) : T.rangeSpan r = .ok none :=
  if_pos hr

theorem rangeSpan_eq (h : T.Holds q) (hr : CoversTokens q r (t :: ts)) :
    T.rangeSpan r = .ok (some ⟨t.start, Token.stopOr 0 (t :: ts)⟩) := by
  have hstop := hr.stop_eq
  have hlast : q.tokens[r.start + ts.length]? = some ((t :: ts).getLast (List.cons_ne_nil _ _)) := by
    have hsplit := List.dropLast_concat_getLast (List.cons_ne_nil t ts)
    rw [← hsplit] at hr
    have hlast := hr.getElem?
    rwa [List.length_dropLast, List.length_cons, Nat.add_sub_cancel] at hlast
  rw [List.length_cons] at hstop
  have hle : ¬ r.stop ≤ r.start := by omega
  rw [rangeSpan, if_neg hle, minus_eq (by omega), ok_bind, hstop, ← Nat.add_assoc, Nat.add_sub_cancel,
    h.spanTo_eq hr.head hlast, Token.stopOr, List.getLast?_eq_some_getLast (List.cons_ne_nil _ _)]
  rfl

/-- What a stretch is cut out by is its text. -/
theorem cutOut_eq (h : T.Holds q) (hq : q.tokens = as ++ (t :: ts ++ bs)) (hstop : stop = Token.stopOr 0 (t :: ts)) :
    Guarded.cutOut T.text ⟨t.start, stop⟩ = .ok (Token.spell (t :: ts)) := by
  obtain ⟨cells, hread⟩ := h.read
  obtain ⟨hcells, hstart, hend⟩ := hread.split hq
  refine cutOut_append (?_ : T.text = _ ++ (_ ++ Cell.spell (Token.cells bs ++ cells))) hstart ?_
  · rw [h.text, ← hread.spell, hcells, Cell.spell_append, Cell.spell_append (Token.stretch (t :: ts)),
      Token.spell_stretch]
  · show stop = _
    rw [hstop, hend 0, Cell.spell_append, Token.spell_stretch]

theorem rangeText_eq (h : T.Holds q) (hr : CoversTokens q r ts) : T.rangeText r = .ok (Token.spell ts) := by
  cases ts with
  | nil =>
    rw [rangeText, rangeSpan_of_nil (Nat.le_of_eq hr.stop_eq)]
    rfl
  | cons t ts =>
    obtain ⟨as, bs, hq, -⟩ := hr.exists_eq (List.cons_ne_nil _ _)
    rw [rangeText, h.rangeSpan_eq hr, ok_bind]
    exact h.cutOut_eq hq rfl

theorem spelling_eq (h : T.Holds q) (ht : q.tokens[i]? = some t) : T.spelling i = .ok t.text := by
  obtain ⟨hi, ht'⟩ := List.getElem?_eq_some_iff.1 ht
  have hq : q.tokens = q.tokens.take i ++ ([t] ++ q.tokens.drop (i + 1)) := by
    rw [← ht', List.singleton_append, ← List.drop_eq_getElem_cons, List.take_append_drop]
  have hcut : Guarded.cutOut T.text ⟨t.start, t.stop⟩ = .ok (Token.spell [t]) := h.cutOut_eq hq rfl
  rw [spelling, h.token_eq ht, ok_bind, PlacedLexeme.span, hcut]
  simp [Token.spell]

theorem hasMarker_eq (h : T.Holds q) (hr : CoversTokens q r ts) (hne : ts ≠ []) :
    T.hasMarker r = .ok (ts.any fun t => t.kind.isMarker) := by
  obtain ⟨last, htokens, -⟩ := h.tokens
  have hle := hr.stop_le hne
  have hstop := hr.stop_eq
  have htake : (T.tokens.drop r.start).take r.size = ts := by
    obtain ⟨bs, hbs⟩ := hr.within
    rw [htokens, List.drop_append_of_le_length (by omega), hr.size_eq, ← hbs, List.append_assoc, List.take_left]
  rw [hasMarker, if_pos ⟨by omega, by rw [htokens, List.length_append]; omega⟩, htake]
  rfl

end Holds
end TokenTable

/-! ### Looking for tokens -/

/-- There is a token for each of the numbers of a query. -/
theorem Query.exists_token (q : Query) (hi : i ∈ List.range' 0 q.tokens.length) : ∃ t, q.tokens[i]? = some t := by
  have hlt : i < q.tokens.length := by
    have := List.mem_range'.1 hi
    omega
  exact ⟨_, List.getElem?_eq_getElem hlt⟩

/-- Going over a range finds the first token with a property where the stretch is split at it. -/
theorem CoversTokens.findM?_eq {f : Nat → Guarded Bool} (hr : CoversTokens q r ts)
    (hf : ∀ i t, q.tokens[i]? = some t → f i = .ok (p t)) :
    r.indices.findM? f = .ok ((Token.splitFirst p ts).map fun (before, _, _) => r.start + before.length) := by
  obtain ⟨i, stop⟩ := r
  rw [hr.indices_eq]
  induction ts generalizing i with
  | nil => rfl
  | cons t ts ih =>
    rw [List.length_cons, List.range'_succ, List.findM?, hf i t hr.head, ok_bind, Token.splitFirst]
    cases p t with
    | true => rfl
    | false =>
      refine (ih (i + 1) hr.tail).trans ?_
      cases Token.splitFirst p ts with
      | none => rfl
      | some found =>
        simp only [Option.map_some, Bool.false_eq_true, if_false, List.length_cons]
        congr 2
        omega

theorem Token.splitLast_concat (p : Token → Bool) (ts : List Token) (t : Token) :
    splitLast p (ts ++ [t]) = if p t then some (ts, t, [])
      else (splitLast p ts).map fun x => (x.1, x.2.1, x.2.2 ++ [t]) := by
  rw [splitLast, List.reverse_append, List.reverse_singleton, List.singleton_append, splitFirst]
  split
  · simp
  · rw [splitLast, Option.map_map, Option.map_map]
    congr 1
    funext x
    simp

/-- Going back over a range finds the last token with a property where the stretch is split at it. -/
theorem CoversTokens.findM?_reverse {f : Nat → Guarded Bool} (hr : CoversTokens q r ts)
    (hf : ∀ i t, q.tokens[i]? = some t → f i = .ok (p t)) :
    r.indices.reverse.findM? f = .ok ((Token.splitLast p ts).map fun (before, _, _) => r.start + before.length) := by
  obtain ⟨i, stop⟩ := r
  rw [hr.indices_eq]
  induction ts using List.reverseRecOn generalizing stop with
  | nil => rfl
  | append_singleton ts t ih =>
    rw [List.length_append, List.length_singleton, List.range'_concat, List.reverse_append, List.reverse_singleton,
      List.singleton_append, List.findM?, Nat.one_mul, hf _ t hr.getElem?, ok_bind, Token.splitLast_concat]
    cases p t with
    | true => rfl
    | false =>
      refine (ih _ hr.left).trans ?_
      cases Token.splitLast p ts with
      | none => rfl
      | some found => rfl

theorem TokenTable.Holds.findKeyword_eq (h : T.Holds q) (hr : CoversTokens q r ts) (depth : Nat) (k : Keyword) :
    T.findKeyword r depth k
      = .ok ((Token.splitFirst (Token.isKeywordAt depth k) ts).map fun (before, _, _) => r.start + before.length) :=
  hr.findM?_eq fun i t ht => by rw [h.token_eq ht]; rfl

/-! ### Pieces -/

/-- Whether a range covers a piece, and the place of what ends the piece is where it says. -/
structure CoversPiece (q : Query) (stop place : Nat) (r : TokenRange) (piece : Token.Piece) : Prop where
  covers : CoversTokens q r piece.tokens
  ends : r.stop = stop ∧ piece.stop = place ∨ ∃ comma, q.tokens[r.stop]? = some comma ∧ piece.stop = comma.start

theorem TokenTable.Holds.splitFrom_eq (h : T.Holds q) {front : List Token} {depth place : Nat} {piece : Token.Piece}
    {ps : List Token.Piece} (hr : CoversTokens q ⟨i, stop⟩ (front ++ ts)) (hps : Token.pieces depth place ts = piece :: ps) :
    ∃ rs, T.splitFrom depth stop i (List.range' (i + front.length) ts.length) = .ok rs ∧
      List.Forall₂ (CoversPiece q stop place) rs (⟨front ++ piece.tokens, piece.stop⟩ :: ps) := by
  induction ts generalizing i front piece ps with
  | nil =>
    obtain ⟨rfl, rfl⟩ : ⟨[], place⟩ = piece ∧ [] = ps := by simpa [Token.pieces] using hps
    exact ⟨_, rfl, .cons ⟨hr, .inl ⟨rfl, rfl⟩⟩ .nil⟩
  | cons t ts ih =>
    obtain ⟨next, more, hnext⟩ := List.exists_cons_of_ne_nil (Token.pieces_ne_nil depth place ts)
    rw [Token.pieces, hnext] at hps
    rw [List.length_cons, List.range'_succ, splitFrom, h.token_eq hr.getElem?, ok_bind]
    have hbehind : CoversTokens q ⟨i, stop⟩ ((front ++ [t]) ++ ts) := by
      rw [List.append_assoc]
      exact hr
    by_cases hc : t.isSymbolAt depth .comma = true
    · rw [if_pos hc] at hps
      obtain ⟨rfl, rfl⟩ := List.cons.inj hps
      have hrest := hbehind.right
      rw [List.length_append, List.length_singleton, ← Nat.add_assoc] at hrest
      obtain ⟨rs, hrs, hpieces⟩ := @ih _ [] _ _ hrest hnext
      refine ⟨⟨i, i + front.length⟩ :: rs, ?_, .cons ⟨?_, .inr ⟨t, hr.getElem?, rfl⟩⟩ hpieces⟩
      · rw [if_pos hc]
        rw [List.length_nil, Nat.add_zero] at hrs
        rw [hrs]
        rfl
      · rw [List.append_nil]
        exact hr.left
    · rw [if_neg hc] at hps
      obtain ⟨rfl, rfl⟩ := List.cons.inj hps
      obtain ⟨rs, hrs, hpieces⟩ := ih hbehind hnext
      rw [List.length_append, List.length_singleton, ← Nat.add_assoc] at hrs
      rw [List.append_assoc] at hpieces
      rw [if_neg hc]
      exact ⟨rs, hrs, hpieces⟩

/-- The ranges between the commas cover the pieces of the stretch. -/
theorem TokenTable.Holds.splitCommas_pieces (h : T.Holds q) (hr : CoversTokens q r ts) (depth place : Nat) :
    ∃ rs, T.splitCommas r depth = .ok rs ∧
      List.Forall₂ (CoversPiece q r.stop place) rs (Token.pieces depth place ts) := by
  obtain ⟨piece, ps, hps⟩ := List.exists_cons_of_ne_nil (Token.pieces_ne_nil depth place ts)
  rw [splitCommas, hr.indices_eq, hps]
  exact h.splitFrom_eq (show CoversTokens q r ([] ++ ts) from hr) hps

theorem TokenTable.Holds.splitCommas_eq (h : T.Holds q) (hr : CoversTokens q r ts) (depth : Nat) :
    ∃ rs, T.splitCommas r depth = .ok rs ∧ List.Forall₂ (CoversTokens q) rs (Token.splitCommas depth ts) := by
  obtain ⟨rs, hrs, hpieces⟩ := h.splitCommas_pieces hr depth 0
  refine ⟨rs, hrs, ?_⟩
  rw [Token.splitCommas, List.forall₂_map_right_iff]
  exact hpieces.imp fun _ _ hp => hp.covers

/-! ### Calls -/

/-- The call that starts at a token, if there is one and no dot stands before it. -/
def Query.callAt? (q : Query) (i : Nat) : Option Call :=
  if 0 < i ∧ q.tokens[i - 1]?.any (fun t => t.isSymbol .dot) then none
  else (Call.atFront (fun _ => true) (q.tokens.drop i)).map Prod.fst

theorem Call.atFront_eq_filter (p : Token → Bool) (ts : List Token) :
    atFront p ts = (atFront (fun _ => true) ts).filter fun (c, _) => p c.name := by
  match ts with
  | [] => rfl
  | [_] => rfl
  | name :: opening :: ts =>
    simp only [atFront, true_and]
    by_cases hopening : opening.isSymbol .leftParen = true
    · rw [if_pos hopening]
      cases Token.splitFirst (Token.isSymbolAt opening.depth .rightParen) ts with
      | none => simp
      | some found =>
        simp only [Option.map_some, Option.filter_some, hopening, and_true]
    · rw [if_neg hopening, if_neg fun h => hopening h.2]
      rfl

/-- Whether a dot stands before the first of the tokens behind a stretch. -/
theorem Query.dot_before_iff (hq : q.tokens = as ++ ts) :
    (0 < as.length ∧ q.tokens[as.length - 1]?.any (fun t => t.isSymbol .dot) = true)
      ↔ as.getLast?.any (fun t => t.isSymbol .dot) = true := by
  rw [List.getLast?_eq_getElem?, hq]
  cases as with
  | nil => exact ⟨fun h => absurd h.1 (Nat.lt_irrefl 0), nofun⟩
  | cons a as =>
    rw [List.getElem?_append_left (by simp)]
    exact ⟨And.right, fun h => ⟨Nat.succ_pos _, h⟩⟩

theorem Call.among_eq (p : Token → Bool) (hq : q.tokens = as ++ ts) :
    among p (as.getLast?.any fun t => t.isSymbol .dot) ts
      = (List.range' as.length ts.length).filterMap fun i => (q.callAt? i).filter fun c => p c.name := by
  induction ts generalizing as with
  | nil => rfl
  | cons t ts ih =>
    have hlater := @ih (as ++ [t]) (by rw [hq, List.append_assoc]; rfl)
    rw [List.getLast?_concat, List.length_append] at hlater
    simp only [Option.any_some] at hlater
    have hdrop : q.tokens.drop as.length = t :: ts := by rw [hq, List.drop_left]
    rw [among, List.length_cons, List.range'_succ, List.filterMap_cons, Query.callAt?, hdrop]
    simp only [Query.dot_before_iff hq, hlater, List.length_singleton]
    rw [atFront_eq_filter]
    cases atFront (fun _ => true) (t :: ts) with
    | none => simp only [Option.filter_none, Option.map_none, ite_self]
    | some found =>
      simp only [Option.filter_some, Option.map_some]
      by_cases hd : as.getLast?.any (fun t => t.isSymbol .dot) = true
      · simp only [if_pos hd, Option.filter_none]
        split
        · rfl
        · rfl
      · simp only [if_neg hd, Option.filter_some]
        by_cases hp : p found.1.name = true
        · simp only [if_pos hp]
        · simp only [if_neg hp]

/-- The calls of a query are those that start at its tokens. -/
theorem Query.calls_eq (p : Token → Bool) (q : Query) :
    q.calls p = (List.range' 0 q.tokens.length).filterMap fun i => (q.callAt? i).filter fun c => p c.name :=
  Call.among_eq p (show q.tokens = [] ++ q.tokens from rfl)

/-- A call that starts at a token covers the tokens from there on. -/
theorem Query.covers_of_callAt? {c : Call} (hc : q.callAt? i = some c) :
    CoversTokens q ⟨i, i + c.tokens.length⟩ c.tokens ∧ c.Matched := by
  rw [callAt?] at hc
  split at hc
  · cases hc
  obtain ⟨⟨c', after⟩, hfront, rfl⟩ := Option.map_eq_some_iff.1 hc
  obtain ⟨htokens, -, hmatched⟩ := Call.atFront_eq_some hfront
  exact ⟨⟨rfl, by rw [htokens]; exact List.prefix_append _ _⟩, hmatched⟩

/-- What is spelled like a word of letters is an identifier or a keyword that is spelled so. -/
theorem Token.isWord_of_spells {rest word : SqlText} (hfit : t.cell.Fits rest) (ht : t.spells word = true)
    (hne : word ≠ []) (hword : (Text.lower word).all Char.isAlpha = true) : t.isWord word = true := by
  have hlower : Text.lower t.text = Text.lower word := by simpa [spells, Text.sameWord] using ht
  have hkind := (Cell.isWord_of_sameWord ht hne hword).kind_eq hfit
  rcases Lexeme.wordKind_eq t.text with h | ⟨k, hk, h⟩
  · rw [isWord, hkind, h]
    exact ht
  · have hspelling := List.find?_some hk
    rw [isWord, hkind, h]
    simp only [Text.sameWord, beq_iff_eq] at hspelling ⊢
    rw [hspelling, hlower]

namespace TokenTable.Holds

/-- The partner of an opening parenthesis is the one that its call ends with. -/
theorem closing?_eq {opening : Token} (h : T.Holds q) (hr : CoversTokens q ⟨i, q.tokens.length⟩ (opening :: ts)) :
    T.closing? i = .ok ((Token.splitFirst (Token.isSymbolAt opening.depth .rightParen) ts).map
      fun (args, _, _) => i + 1 + args.length) := by
  rw [closing?, h.token_eq hr.head, ok_bind, h.eof_eq, ok_bind]
  exact hr.tail.findM?_eq fun j t ht => by rw [h.token_eq ht]; rfl

theorem followsDot_eq (h : T.Holds q) (hq : q.tokens = as ++ ts) :
    T.followsDot as.length = .ok (as.getLast?.any fun t => t.isSymbol .dot) := by
  rcases List.eq_nil_or_concat as with rfl | ⟨as, a, rfl⟩
  · rfl
  · have ha : q.tokens[as.length]? = some a := by
      rw [hq, List.concat_eq_append, List.append_assoc, List.getElem?_append_right (Nat.le_refl _), Nat.sub_self]
      rfl
    rw [List.concat_eq_append, List.length_append, List.length_singleton, followsDot, if_neg (Nat.succ_ne_zero _),
      minus_eq (Nat.le_add_left 1 as.length), ok_bind, Nat.add_sub_cancel, h.token_eq ha, List.getLast?_concat]
    rfl

/-- At a token a call of a function is found just if one starts there and has its name. -/
theorem callAt_eq {name : SqlText} (h : T.Holds q) (ht : q.tokens[i]? = some t) (hne : name ≠ [])
    (hname : (Text.lower name).all Char.isAlpha = true) :
    T.callAt i name = .ok (((q.callAt? i).filter fun c => c.name.spells name).map
      fun c => (i + 1, i + 2 + c.args.length)) := by
  obtain ⟨cells, hread⟩ := h.read
  obtain ⟨hi, ht'⟩ := List.getElem?_eq_some_iff.1 ht
  have hq : q.tokens = q.tokens.take i ++ t :: q.tokens.drop (i + 1) := by
    rw [← ht', ← List.drop_eq_getElem_cons, List.take_append_drop]
  have hlength : (q.tokens.take i).length = i := List.length_take_of_le (Nat.le_of_lt hi)
  have hdrop : q.tokens.drop i = t :: q.tokens.drop (i + 1) := by
    rw [← ht', ← List.drop_eq_getElem_cons]
  have hdot := h.followsDot_eq hq
  have hdot' := Query.dot_before_iff hq
  rw [hlength] at hdot hdot'
  have hword : t.spells name = true → t.isWord name = true := fun hs =>
    Token.isWord_of_spells (hread.fits hq) hs hne hname
  have hcall : T.callAt i name = if t.spells name = true ∧ ¬ (q.tokens.take i).getLast?.any (fun t => t.isSymbol .dot)
      then if T.isSymbol (i + 1) .leftParen then (T.closing? (i + 1)).map (Option.map fun closing => (i + 1, closing))
        else .ok none
      else .ok none := by
    rw [callAt, h.token_eq ht, ok_bind, h.spelling_eq ht, hdot]
    by_cases hs : t.spells name = true
    · have hs' : Text.sameWord t.text name = true := hs
      by_cases hd : (q.tokens.take i).getLast?.any (fun t => t.isSymbol .dot) = true
      · simp [hword hs, hd]
      · by_cases hopening : T.isSymbol (i + 1) .leftParen = true
        · simp only [hword hs, hs', ok_bind, hd, hs, hopening, if_true, Bool.true_eq_false, if_false, not_false_eq_true,
            and_self, Bool.false_eq_true]
          cases T.closing? (i + 1) <;> rfl
        · simp [hword hs, hd, hs, hopening]
    · have hs' : Text.sameWord t.text name = false := Bool.eq_false_iff.2 hs
      cases hw : t.isWord name with
      | false => simp [hs]
      | true => simp [hs, hs']
  rw [hcall, Query.callAt?, hdrop]
  simp only [hdot', h.isSymbol_eq]
  cases hrest : q.tokens.drop (i + 1) with
  | nil =>
    have hnext : q.tokens[i + 1]? = none := by
      rw [List.getElem?_eq_none_iff]
      exact List.drop_eq_nil_iff.1 hrest
    simp [hnext, Call.atFront]
  | cons opening ts =>
    have hbehind := CoversTokens.of_drop (q := q) (i := i + 1) hi
    rw [hrest] at hbehind
    have hhead : q.tokens[i + 1]? = some opening := hbehind.head
    rw [hhead, h.closing?_eq hbehind, Call.atFront]
    by_cases hd : (q.tokens.take i).getLast?.any (fun t => t.isSymbol .dot) = true
    · simp [hd]
    by_cases hopening : opening.isSymbol .leftParen = true
    · by_cases hs : t.spells name = true
      · simp only [hs, hd, hopening, Option.any_some]
        cases Token.splitFirst (Token.isSymbolAt opening.depth .rightParen) ts with
        | none => rfl
        | some found => simp [Option.filter_some, hs, Nat.add_assoc]
      · simp only [hs, hd, hopening]
        cases Token.splitFirst (Token.isSymbolAt opening.depth .rightParen) ts with
        | none => rfl
        | some found => simp [Option.filter_some, hs]
    · simp [hopening]

end TokenTable.Holds

end JetAdapter
