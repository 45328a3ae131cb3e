import JetAdapter.Guarded.Rule
import JetAdapter.Proofs.GuardedEdits
import JetAdapter.Proofs.Placement
import JetAdapter.Proofs.TableScopes

/-!
# Guarded orderings

Replacing the aliases in an ordering makes no step that must not be made.  An item of an ordering may be empty, and then
the token that is looked at is the one behind it, which may be the end of the text.  An item of a select list is looked
at from its end, once it is known to have three tokens.
-/

namespace JetAdapter

open Guarded (ok_bind lift minus_eq)

variable {T : TokenTable} {q : Query} {r : TokenRange} {t : Token} {ts item expression : List Token} {i : Nat}
  {name : SqlText}

/-- There is a token of each number up to that of the end, and it starts where the tokens from there on do. -/
theorem TokenTable.Holds.exists_token_le (h : T.Holds q) (hi : i ≤ q.tokens.length) :
    ∃ t, T.token i = .ok t ∧ t.start = Token.startOr q.stop (q.tokens.drop i) := by
  rcases Nat.lt_or_eq_of_le hi with hlt | rfl
  · have ht : q.tokens[i]? = some (q.tokens.get ⟨i, hlt⟩) := List.getElem?_eq_getElem hlt
    refine ⟨_, h.token_eq ht, ?_⟩
    rw [List.drop_eq_getElem_cons hlt]
    rfl
  · obtain ⟨last, htokens, -, hstart⟩ := h.tokens
    refine ⟨last, ?_, ?_⟩
    · rw [token, htokens, List.getElem?_concat_length]
    · rw [List.drop_length, hstart]
      rfl

theorem CoversPiece.stop_le {stop place : Nat} {piece : Token.Piece} (h : CoversPiece q stop place r piece)
    (hstop : stop ≤ q.tokens.length) : r.stop ≤ q.tokens.length := by
  rcases h.ends with ⟨heq, -⟩ | ⟨comma, hcomma, -⟩
  · rw [heq]
    exact hstop
  · exact Nat.le_of_lt (List.getElem?_eq_some_iff.1 hcomma).1

/-- The tokens of a clause are among the tokens of the query. -/
theorem CoversClause.stop_le {c : ClauseKind × TokenRange} {clause : Clause} (h : CoversClause q c clause) :
    c.2.stop ≤ q.tokens.length := by
  refine h.covers.stop_le fun hnil => ?_
  have hwords := h.words
  rw [(List.append_eq_nil_iff.1 hnil).1] at hwords
  revert hwords
  generalize c.1 = kind
  cases kind <;> exact nofun

theorem CoversTokens.any_indices {p : Token → Bool} {P : Nat → Bool} (hr : CoversTokens q r ts)
    (hP : ∀ i t, q.tokens[i]? = some t → P i = p t) : r.indices.any P = ts.any p := by
  obtain ⟨i, stop⟩ := r
  rw [hr.indices_eq]
  induction ts generalizing i with
  | nil => rfl
  | cons t ts ih => rw [List.length_cons, List.range'_succ, List.any_cons, List.any_cons, hP i t hr.head, ih _ hr.tail]

namespace Guarded

/-! ### Items -/

/-- The identifier that an item consists of is that of its first token. -/
theorem bareName?_cases (h : T.Holds q) (hr : CoversTokens q r item) (hstop : r.stop ≤ q.tokens.length) :
    bareName? T r = .ok none ∧ OrderAlias.bareName? item = none ∨
      ∃ t name, q.tokens[r.start]? = some t ∧ bareName? T r = .ok (some name) ∧
        OrderAlias.bareName? item = some (t, name) := by
  obtain ⟨i, stop⟩ := r
  have hsize := hr.size_eq
  match item with
  | [] =>
    have hle : i ≤ q.tokens.length := Nat.le_trans (Nat.le_of_eq hr.stop_eq.symm) hstop
    obtain ⟨t, ht, -⟩ := h.exists_token_le hle
    refine .inl ⟨?_, rfl⟩
    rw [bareName?, ht, ok_bind]
    cases t.kind.name? with
    | none => rfl
    | some name => simp [hsize]
  | [t] =>
    rw [bareName?, h.token_eq hr.head, ok_bind, OrderAlias.bareName?]
    cases t.kind.name? with
    | none => exact .inl ⟨rfl, rfl⟩
    | some name => exact .inr ⟨t, name, hr.head, by simp [hsize], rfl⟩
  | [t, direction] =>
    have hdirection : q.tokens[i + 1]? = some direction := hr.tail.head
    rw [bareName?, h.token_eq hr.head, ok_bind, OrderAlias.bareName?]
    cases t.kind.name? with
    | none => exact .inl ⟨rfl, by split <;> rfl⟩
    | some name =>
      by_cases hd : direction.isKeyword .ASC = true ∨ direction.isKeyword .DESC = true
      · exact .inr ⟨t, name, hr.head, by simp [hsize, h.isKeyword_eq, hdirection, hd], if_pos hd⟩
      · exact .inl ⟨by simp [hsize, h.isKeyword_eq, hdirection, hd], if_neg hd⟩
  | t :: _ :: _ :: _ =>
    refine .inl ⟨?_, rfl⟩
    rw [bareName?, h.token_eq hr.head, ok_bind]
    cases t.kind.name? with
    | none => rfl
    | some name => simp [hsize]

/-- What is found in an item of three tokens or more. -/
theorem aliased?_concat (hne : expression ≠ []) (name : SqlText) (word last : Token) :
    OrderAlias.aliased? name (expression ++ [word] ++ [last]) = last.kind.name?.elim none fun aliasName =>
      if word.isKeyword .AS ∧ Text.sameWord aliasName name then some expression else none := by
  rcases List.eq_nil_or_concat expression with rfl | ⟨front, u, rfl⟩
  · exact absurd rfl hne
  · have hreverse : (front.concat u ++ [word] ++ [last]).reverse = last :: word :: u :: front.reverse := by simp
    have hexpression : (u :: front.reverse).reverse = front.concat u := by simp
    rw [OrderAlias.aliased?, hreverse]
    simp only [hexpression]
    cases last.kind.name? <;> rfl

/-- The expression with an alias is a stretch that is not empty. -/
theorem aliased?_cases (h : T.Holds q) (hr : CoversTokens q r item) (name : SqlText) :
    aliased? T name r = .ok none ∧ OrderAlias.aliased? name item = none ∨
      ∃ r' expression, aliased? T name r = .ok (some r') ∧ OrderAlias.aliased? name item = some expression ∧
        CoversTokens q r' expression ∧ expression ≠ [] := by
  obtain ⟨i, stop⟩ := r
  have hsize := hr.size_eq
  rcases List.eq_nil_or_concat item with rfl | ⟨front, last, rfl⟩
  · exact .inl ⟨if_pos (by rw [hsize]; decide), rfl⟩
  rcases List.eq_nil_or_concat front with rfl | ⟨expression, word, rfl⟩
  · exact .inl ⟨if_pos (by rw [hsize]; simp), rfl⟩
  simp only [List.concat_eq_append] at *
  by_cases hne : expression = []
  · subst hne
    exact .inl ⟨if_pos (by rw [hsize]; simp), rfl⟩
  have hpos := List.length_pos_iff.2 hne
  simp only [List.length_append, List.length_singleton] at hsize
  have hstop : stop = i + expression.length + 1 + 1 := by
    have := hr.stop_eq
    simp only [List.length_append, List.length_singleton] at this
    omega
  have hlast : q.tokens[i + expression.length + 1]? = some last := by
    have := hr.getElem?
    rwa [List.length_append, List.length_singleton, ← Nat.add_assoc] at this
  have hword : q.tokens[i + expression.length]? = some word := hr.left.getElem?
  have hexpression := hr.left.left
  rw [aliased?, if_neg (by omega), aliased?_concat hne, hstop, minus_eq (Nat.le_add_left _ _), ok_bind,
    Nat.add_sub_cancel, h.token_eq hlast, ok_bind]
  cases last.kind.name? with
  | none => exact .inl ⟨rfl, rfl⟩
  | some aliasName =>
    simp only [minus_eq (Nat.le_add_left 1 (i + expression.length)), ok_bind, Nat.add_sub_cancel, h.isKeyword_eq, hword,
      Option.any_some, Option.elim_some]
    split
    · exact .inr ⟨_, expression, rfl, rfl, hexpression, hne⟩
    · exact .inl ⟨rfl, rfl⟩

/-- The first item with an alias is found in both. -/
theorem findSomeM?_aliased? {rs : List TokenRange} {items : List (List Token)} (h : T.Holds q)
    (hrs : List.Forall₂ (CoversTokens q) rs items) (name : SqlText) :
    rs.findSomeM? (aliased? T name) = .ok none ∧ items.findSome? (OrderAlias.aliased? name) = none ∨
      ∃ r expression, rs.findSomeM? (aliased? T name) = .ok (some r) ∧
        items.findSome? (OrderAlias.aliased? name) = some expression ∧ CoversTokens q r expression ∧ expression ≠ [] := by
  induction hrs with
  | nil => exact .inl ⟨rfl, rfl⟩
  | cons hr _ ih =>
    rw [List.findSomeM?, List.findSome?_cons]
    rcases aliased?_cases h hr name with ⟨hnone, hnone'⟩ | ⟨r', expression, hsome, hsome', hcovers, hne⟩
    · rw [hnone, hnone']
      exact ih
    · rw [hsome, hsome']
      exact .inr ⟨r', expression, rfl, rfl, hcovers, hne⟩

/-! ### Edits -/

theorem orderEdit_eq {s : TableScope} {scope : Scope} (h : T.Holds q) (hs : CoversScope q s scope)
    (hr : CoversTokens q r item) (hstop : r.stop ≤ q.tokens.length) :
    orderEdit T s r = .ok (OrderAlias.itemEdit? scope.items item) := by
  rw [orderEdit, OrderAlias.itemEdit?]
  rcases bareName?_cases h hr hstop with ⟨hnone, hnone'⟩ | ⟨t, name, ht, hsome, hsome'⟩
  · rw [hnone, hnone']
    rfl
  obtain ⟨rs, hrs, hitems⟩ := h.splitCommas_eq hs.list s.depth
  rw [hs.depth] at hrs hitems
  rw [hsome, hsome', ok_bind]
  simp only [hs.depth, hrs, ok_bind]
  rcases findSomeM?_aliased? h hitems name with ⟨hnone, hnone'⟩ | ⟨r', expression, hfound, hfound', hcovers, hne⟩
  · rw [hnone]
    have : scope.items.findSome? (OrderAlias.aliased? name) = none := hnone'
    simp [this]
  · have : scope.items.findSome? (OrderAlias.aliased? name) = some expression := hfound'
    have hselect : (r'.indices.any fun i => T.isKeyword i .SELECT) = expression.any fun t => t.isKeyword .SELECT :=
      hcovers.any_indices fun i t ht => by rw [h.isKeyword_eq, ht]; rfl
    have hcan : OrderAlias.canCopy name expression = true ↔ (expression.any fun t => t.kind.isMarker) = false ∧
        (expression.any fun t => t.isKeyword .SELECT) = false ∧ Text.sameWord (Token.spell expression) name = false := by
      simp only [OrderAlias.canCopy, Bool.and_eq_true, Bool.not_eq_true', and_assoc]
    rw [hfound, ok_bind]
    simp only [h.hasMarker_eq hcovers hne, hselect, h.rangeText_eq hcovers, h.spanTo_eq ht ht, ok_bind, this,
      Option.bind_eq_bind, Option.bind_some, hcan]
    cases expression.any fun t => t.kind.isMarker with
    | true => rfl
    | false =>
      cases expression.any fun t => t.isKeyword .SELECT with
      | true => rfl
      | false => cases Text.sameWord (Token.spell expression) name <;> rfl

theorem orderEdits_eq {s : TableScope} {scope : Scope} (h : T.Holds q) (hs : CoversScope q s scope) :
    orderEdits T s = .ok (OrderAlias.scopeEdits scope) := by
  rw [orderEdits, OrderAlias.scopeEdits]
  rcases hs.clause?_cases .ordering with ⟨hnone, hnone'⟩ | ⟨r, c, hsome, hsome', hc⟩
  · rw [hnone, hnone']
    rfl
  · rw [hsome, hsome']
    obtain ⟨rs, hrs, hpieces⟩ := h.splitCommas_pieces hc.body scope.depth 0
    simp only [hs.depth, hrs, ok_bind]
    rw [Token.splitCommas, List.filterMap_map]
    exact filterMapM_forall₂ hpieces fun r piece hr => orderEdit_eq h hs hr.covers (hr.stop_le hc.stop_le)

theorem spellOut_eq (text : SqlText) : spellOut text = lift (OrderAlias.spellOut text) := by
  have hedits := edits_eq (F := fun T => do return (← (← T.scopes).mapM (orderEdits T)).flatten)
    (f := fun q => .ok (q.scopes.flatMap OrderAlias.scopeEdits)) (fun T q h => ?_)
    (fun q tail es hread hes e he => ?_) text
  · simp only [bind_assoc, pure_bind] at hedits
    exact hedits
  · obtain ⟨ss, hss, hscopes⟩ := h.scopes_eq
    rw [hss, ok_bind, mapM_forall₂ (g := fun s => .ok (OrderAlias.scopeEdits s)) hscopes
      fun s scope hs => orderEdits_eq h hs]
    exact congrArg (fun x => lift x >>= fun es => (.ok es.flatten : Guarded (List Edit))) List.mapM_pure
  · cases hes
    exact OrderAlias.fits hread he

end Guarded

end JetAdapter
