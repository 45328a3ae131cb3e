import JetAdapter.Proofs.AliasSwaps
import JetAdapter.Proofs.Neat
import JetAdapter.Proofs.TwinCalls

/-!
# Twin orderings

Twins have the same names in their orderings, and write the same expressions for them.  A name is set against the
text of its expression, and this text has the gaps of the layout: so no select item may name an expression of
several tokens just as it is spelled (`OrderAlias.NamesApart`).
-/

namespace JetAdapter.OrderAlias

open Cell (Leads IsSpaced Neat NeatTwins)
open Token (stretch row)

variable {l : Layout} {tail tail' : List Cell} {q q' : Query} {s s' : SqlText} {name : SqlText}

/-! ### Names and expressions -/

/-- Whether an item has an expression of several tokens and, as its alias, what they spell. -/
def namesItself (item : List Token) : Bool :=
  match item.getLast?.bind fun t => t.kind.name? with
  | none => false
  | some name => (aliased? name item).any fun expression =>
      expression.length != 1 && Text.sameWord (Token.spell expression) name

/-- Whether no select item has what its expression of several tokens spells as its alias. -/
def NamesApart (q : Query) : Prop :=
  ∀ scope ∈ q.scopes, ∀ item ∈ scope.items, namesItself item = false

instance : DecidablePred NamesApart := fun q =>
  inferInstanceAs (Decidable (∀ scope ∈ q.scopes, ∀ item ∈ scope.items, namesItself item = false))

theorem bareName?_relaid (item : List Token) :
    bareName? (item.map (Token.relaid l)) = (bareName? item).map fun (t, name) => (t.relaid l, name) := by
  match item with
  | [] | _ :: _ :: _ :: _ => rfl
  | [t] =>
    show t.kind.name?.map _ = (t.kind.name?.map _).map _
    rw [Option.map_map]
    rfl
  | [t, direction] =>
    show (if direction.isKeyword .ASC = true ∨ direction.isKeyword .DESC = true then t.kind.name?.map _ else none)
      = Option.map _ (if _ then _ else _)
    split
    · rw [Option.map_map]
      rfl
    · rfl

theorem aliased?_relaid (name : SqlText) (item : List Token) :
    aliased? name (item.map (Token.relaid l)) = (aliased? name item).map (List.map (Token.relaid l)) := by
  unfold aliased?
  rw [← List.map_reverse]
  match item.reverse with
  | [] | [_] | [_, _] => rfl
  | last :: word :: first :: more =>
    simp only [List.map_cons, Token.relaid_kind, Token.relaid_isKeyword]
    cases last.kind.name? with
    | none => rfl
    | some aliasName =>
      show (if word.isKeyword .AS = true ∧ Text.sameWord aliasName name = true then some _ else none)
        = Option.map _ (if _ then _ else _)
      split
      · simp
      · rfl

theorem findSome?_aliased?_relaid (name : SqlText) (items : List (List Token)) :
    (items.map (List.map (Token.relaid l))).findSome? (aliased? name)
      = (items.findSome? (aliased? name)).map (List.map (Token.relaid l)) := by
  rw [List.findSome?_map, List.map_findSome?]
  exact congrArg (fun f => List.findSome? f items) (funext fun item => aliased?_relaid name item)

/-- What an expression of several tokens spells is no name for it. -/
theorem sameWord_of_namesItself {item expression : List Token} (h : namesItself item = false)
    (halias : aliased? name item = some expression) (hlength : expression.length ≠ 1) :
    Text.sameWord (Token.spell expression) name = false := by
  have hself := halias
  unfold aliased? at hself
  split at hself
  · next last word first more hitem =>
    split at hself
    · next aliasName hname =>
      split at hself
      · next hword =>
        have hlower : Text.lower aliasName = Text.lower name := by simpa [Text.sameWord] using hword.2
        have hlast : item.getLast? = some last := by
          rw [← List.head?_reverse, hitem]
          rfl
        have hfound : aliased? aliasName item = some expression := by
          rw [← halias]
          unfold aliased? Text.sameWord
          rw [hlower]
        rw [namesItself, hlast] at h
        simp only [Option.bind_some, hname, hfound, Option.any_some, Bool.and_eq_false_iff, bne_eq_false_iff_eq] at h
        have hnot := h.resolve_left hlength
        rwa [Text.sameWord, hlower] at hnot
      · cases hself
    · cases hself
  · cases hself

/-- An expression is copied with both layouts, or with none. -/
theorem canCopy_relaid {expression : List Token} (hne : expression ≠ [])
    (h : expression.length ≠ 1 → Text.sameWord (Token.spell expression) name = false)
    (h' : expression.length ≠ 1 → Text.sameWord (Token.spell (expression.map (Token.relaid l))) name = false) :
    canCopy name (expression.map (Token.relaid l)) = canCopy name expression := by
  have hword : Text.sameWord (Token.spell (expression.map (Token.relaid l))) name
      = Text.sameWord (Token.spell expression) name := by
    match expression, hne with
    | [t], _ => rfl
    | t :: u :: ts, _ => rw [h (by simp), h' (by simp)]
  rw [canCopy, canCopy, hword, List.any_map, List.any_map]
  rfl

/-! ### Edits -/

/-- The borders of splices that take the place of names: none ends but behind an identifier. -/
def borders (ts : List Token) : Borders :=
  ⟨fun _ => False, fun j => j ≠ 0 ∧ ∀ i, j = 2 * i + 2 → ∀ t ∈ ts[i]?, t.kind.isIdentifier = false, fun h => h.1 rfl⟩

theorem borders_relaid (ts : List Token) : borders (ts.map (Token.relaid l)) = borders ts := by
  unfold borders
  congr 1
  funext j
  simp [Option.mem_def]

/-- Every token may stand before what is behind a name. -/
theorem leads_name {as bs : List Token} {sep t : Token} (h : q.IsRead tail)
    (hs : IsSpaced true (Token.cells q.tokens ++ tail)) (hq : q.tokens = as ++ sep :: t :: bs)
    (ht : t.kind.isIdentifier = true)
    (hbs : ∀ u ∈ bs.head?, u.EndsItem)
    (k : Kind) (w : SqlText) : (Cell.token k w).Leads true (Token.cells bs ++ tail) := by
  refine h.leads_any hs (show q.tokens = (as ++ [sep]) ++ ([t] ++ bs) by rw [hq]; simp) rfl (fun u hu => ?_) k w
  have hkeyword : ∀ {y : Keyword}, u.isKeyword y = true → ¬ t.kind.touches true u.kind = true := by
    intro y hy
    rw [Kind.isKeyword_iff.1 hy]
    cases hk : t.kind with
    | identifier n => exact Bool.false_ne_true
    | _ =>
      rw [hk] at ht
      cases ht
  rcases hbs u hu with (hr | hr | ⟨y, -, hy⟩) | hr | hy | hy
  · exact .inl ⟨_, rfl, hr⟩
  · exact .inl ⟨_, rfl, hr⟩
  · exact .inr (hkeyword hy)
  · exact .inl ⟨_, rfl, hr⟩
  · exact .inr (hkeyword hy)
  · exact .inr (hkeyword hy)

/-- Neat cells in the place of a name behind a comma or a `BY`. -/
theorem makes_name {as bs : List Token} {sep t : Token} {N : List Cell} {d : Cell} (h : q.IsRead tail)
    (hs : IsSpaced true (Token.cells q.tokens ++ tail)) (hq : q.tokens = as ++ sep :: t :: bs)
    (hsep : sep.isSymbol .comma = true ∨ sep.isKeyword .BY = true) (ht : t.kind.isIdentifier = true)
    (hN : Neat true N) (hd : N.getLast? = some d) (hlast : d.Leads true (Token.cells bs ++ tail)) :
    Splice.Makes true (borders q.tokens) (row q.tokens) tail ⟨2 * as.length + 3, 2 * as.length + 4, N⟩
      ⟨t.span, Cell.spell N⟩ := by
  have hq' : q.tokens = (as ++ [sep]) ++ t :: bs := by rw [hq]; simp
  have hone : 2 * as.length + 3 = 2 * (as ++ [sep]).length + 1 := by simp; omega
  have htwo : 2 * as.length + 4 = 2 * (as ++ [sep]).length + 2 := by simp; omega
  have hback : Splice.back (row q.tokens) (2 * as.length + 4) = Token.cells bs := by
    have hq'' : q.tokens = (as ++ [sep, t]) ++ bs := by rw [hq]; simp
    rw [hq'', show 2 * as.length + 4 = 2 * (as ++ [sep, t]).length by simp; omega, Token.back_behind]
  have hother : sep.kind.isIdentifier = false := by
    rcases hsep with hc | hb
    · rw [Kind.isSymbol_iff.1 hc]
      rfl
    · rw [Kind.isKeyword_iff.1 hb]
      rfl
  -- The comma or the gap that stays before the name may stand before every token.
  have hbefore : ∃ c, (sep.cell :: Cell.ofGap t.gap).getLast? = some c ∧ c.Leads true (N ++ (Token.cells bs ++ tail)) := by
    obtain ⟨k, w, hfirst⟩ := hN.first
    obtain ⟨P, rfl⟩ := List.head?_eq_some_iff.1 hfirst
    unfold Cell.ofGap
    split
    · next hg =>
      refine ⟨sep.cell, rfl, Cell.leads_cons.2 ?_⟩
      rcases hsep with hc | hb
      · show sep.kind.touches true k = true
        rw [Kind.isSymbol_iff.1 hc]
        cases k with
        | symbol s => cases s <;> rfl
        | _ => rfl
      · have hlead := h.leads hs (show q.tokens = as ++ ([sep] ++ t :: bs) from hq) rfl
        rw [Token.cells_cons, Cell.ofGap, if_pos hg, List.nil_append, List.cons_append, Cell.leads_cons] at hlead
        change sep.kind.touches true t.kind = true at hlead
        rw [Kind.isKeyword_iff.1 hb] at hlead
        cases hk : t.kind with
        | identifier n =>
          rw [hk] at hlead
          cases hlead
        | _ =>
          rw [hk] at ht
          cases ht
    · exact ⟨.gap t.gap, rfl, Cell.leads_cons.2 rfl⟩
  refine ⟨⟨?_, ?_, ?_, fun _ _ => id, fun _ _ => id, fun hk => ?_⟩, ⟨hN.whole, hN.spaced, fun c hc => ?_, .inr ?_⟩, ?_⟩
  · simp only
    omega
  · rw [Token.length_row, hq]
    simp only [List.length_append, List.length_cons]
    omega
  · intro j hj
    simp only at hj
    omega
  · have hnot := hk.2 (as.length + 1) (by simp only; omega) t (by rw [hq]; simp)
    rw [ht] at hnot
    cases hnot
  · simp only
    rw [hback]
    obtain rfl := Option.some.inj (hd.symm.trans hc)
    exact hlast
  · obtain ⟨c, hc, hlead⟩ := hbefore
    refine ⟨2 * as.length + 1, by simp only; omega, fun j hj hle => ⟨by omega, fun i hi u hu => ?_⟩, c, ?_, ?_⟩
    · simp only at hle
      obtain rfl : as.length = i := by omega
      obtain rfl : sep = u := by
        rw [hq, List.getElem?_append_right (Nat.le_refl _), Nat.sub_self] at hu
        exact Option.some.inj hu
      exact hother
    · simp only
      rwa [hq, Token.between_gap]
    · simp only
      rwa [hback]
  · rw [Splice.edit]
    simp only
    rw [hone, htwo, h.place_before hq', h.place_behind hq']
    rfl

theorem forall₂_filterMap {α β γ : Type} {r : β → γ → Prop} {f : α → Option β} {g : α → Option γ} {xs : List α}
    (h : ∀ x ∈ xs, Option.Rel r (f x) (g x)) : List.Forall₂ r (xs.filterMap f) (xs.filterMap g) := by
  induction xs with
  | nil => exact .nil
  | cons x xs ih =>
    obtain ⟨hx, hxs⟩ := List.forall_mem_cons.1 h
    rw [List.filterMap_cons, List.filterMap_cons]
    generalize f x = b at hx
    generalize g x = c at hx
    cases hx with
    | none => exact ih hxs
    | some hbc => exact .cons hbc (ih hxs)

/-- The edit of an item, and the one that it is with another layout. -/
theorem itemEdit?_alike {scope : Scope} {ordering : Clause} {item : List Token} (h : q.Twins true l tail tail' q')
    (hapart : NamesApart q) (hapart' : NamesApart q') (hs : scope ∈ q.scopes)
    (hordering : scope.clause? .ordering = some ordering)
    (hitem : item ∈ Token.splitCommas scope.depth ordering.body) :
    Option.Rel (Splice.EditsAlike true (borders q.tokens) (row q.tokens) tail (row q'.tokens) tail')
      (itemEdit? scope.items item)
      (itemEdit? (scope.items.map (List.map (Token.relaid l))) (item.map (Token.relaid l))) := by
  have hs' : scope.relaid l ∈ q'.scopes := by
    rw [h.relaid.scopes]
    exact List.mem_map_of_mem hs
  unfold itemEdit?
  rw [bareName?_relaid]
  cases hname : bareName? item with
  | none => exact .none
  | some found =>
    obtain ⟨t, name⟩ := found
    simp only [Option.map_some, Option.bind_eq_bind, Option.bind_some, findSome?_aliased?_relaid]
    cases halias : scope.items.findSome? (aliased? name) with
    | none => exact .none
    | some expression =>
      obtain ⟨selected, hselected, hexpression⟩ := List.exists_of_findSome?_eq_some halias
      have hexpression' : aliased? name (selected.map (Token.relaid l)) = some (expression.map (Token.relaid l)) := by
        rw [aliased?_relaid, hexpression]
        rfl
      have hselected' : selected.map (Token.relaid l) ∈ (scope.relaid l).items := by
        rw [Scope.items_relaid]
        exact List.mem_map_of_mem hselected
      obtain ⟨word, last, hselect, hne⟩ := aliased?_eq_some hexpression
      have hcopy := canCopy_relaid hne (sameWord_of_namesItself (hapart _ hs _ hselected) hexpression) fun hlength =>
        sameWord_of_namesItself (hapart' _ hs' _ hselected') hexpression' (by rwa [List.length_map])
      simp only [Option.map_some, Option.bind_some]
      rw [hcopy]
      split
      · obtain ⟨as, sep, bs, hq, hsep, hbs⟩ := eq_append_of_item h.read hs hordering hitem hname
        have hq' : q'.tokens = as.map (Token.relaid l) ++ sep.relaid l :: t.relaid l :: bs.map (Token.relaid l) := by
          rw [h.relaid.tokens, hq]
          simp
        obtain ⟨us, vs, hsource, -⟩ := h.read.item hs hselected (by simp [hselect])
        have hN := h.neat (show q.tokens = us ++ (expression ++ (word :: last :: vs)) by rw [hsource, hselect]; simp) hne
        have ht : t.kind.isIdentifier = true := by
          have hk := (bareName?_eq_some hname).1
          cases hkind : t.kind with
          | identifier n => rfl
          | _ => rw [hkind] at hk; cases hk
        obtain ⟨k, w, hd⟩ := hN.neat.last
        have hmakes := makes_name h.read h.spaced hq hsep ht hN.neat hd (leads_name h.read h.spaced hq ht hbs k w)
        have hbs' : ∀ u ∈ (bs.map (Token.relaid l)).head?, u.EndsItem := by
          intro u hu
          rw [List.head?_map] at hu
          obtain ⟨v, hv, rfl⟩ := Option.map_eq_some_iff.1 hu
          exact hbs v hv
        have hmakes' := makes_name h.read' h.spaced' hq' hsep ht hN.neat' (hN.getLast?_eq.trans hd)
          (leads_name h.read' h.spaced' hq' ht hbs' k w)
        rw [Token.spell_stretch] at hmakes hmakes'
        rw [h.relaid.tokens, borders_relaid, List.length_map, ← h.relaid.tokens] at hmakes'
        have halike : Splice.Alike ⟨2 * as.length + 3, 2 * as.length + 4, stretch expression⟩
            ⟨2 * as.length + 3, 2 * as.length + 4, stretch (expression.map (Token.relaid l))⟩ := ⟨rfl, rfl, hN.tokens⟩
        exact .some ⟨_, _, halike, hmakes, hmakes'⟩
      · exact .none

theorem scopeEdits_alike {scope : Scope} (h : q.Twins true l tail tail' q') (hapart : NamesApart q)
    (hapart' : NamesApart q') (hs : scope ∈ q.scopes) :
    List.Forall₂ (Splice.EditsAlike true (borders q.tokens) (row q.tokens) tail (row q'.tokens) tail')
      (scopeEdits scope) (scopeEdits (scope.relaid l)) := by
  unfold scopeEdits
  rw [Scope.clause?_relaid, Scope.items_relaid]
  cases hordering : scope.clause? .ordering with
  | none => exact .nil
  | some ordering =>
    show List.Forall₂ _ _ ((Token.splitCommas scope.depth (ordering.body.map (Token.relaid l))).filterMap _)
    rw [Token.splitCommas_relaid, List.filterMap_map]
    exact forall₂_filterMap fun item hitem => itemEdit?_alike h hapart hapart' hs hordering hitem

theorem twins (h : Text.Twins true s s') (hapart : ∀ q, Query.ofText s = .ok q → NamesApart q)
    (hapart' : ∀ q, Query.ofText s' = .ok q → NamesApart q) :
    Except.Alike (Text.Twins true) (spellOut s) (spellOut s') := by
  refine h.ofText.bind ?_
  rintro q q' ⟨⟨l, tail, tail', hq⟩, hs, hs'⟩
  have hes : q.EditsAlike true tail q' tail' (q.scopes.flatMap scopeEdits) (q'.scopes.flatMap scopeEdits) := by
    rw [hq.relaid.scopes, List.flatMap_map]
    exact ⟨_, forall₂_flatMap fun scope hscope => scopeEdits_alike hq (hapart q hs) (hapart' q' hs') hscope⟩
  rw [← (Query.isRead hs).1, ← (Query.isRead hs').1]
  exact hq.applyAll hes

end JetAdapter.OrderAlias
