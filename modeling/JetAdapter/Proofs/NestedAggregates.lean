import JetAdapter.Proofs.Retelling
import JetAdapter.Proofs.Rounds
import JetAdapter.Proofs.SelectionScopes

/-!
# Aggregates over distinct values inside each other

The rule works on the first call of a text as it stands, and then on the first call of what comes out.  Wherever this
call stands, the change is one that agrees with the phrase (`Handled`), and a call is refused just where the phrase
holds one that cannot be taken over a table.  So the rounds end with the phrase in which all calls are taken at once.
-/

namespace JetAdapter.Distinct

open Cell (Sound Settles Replaces Writable spell ofGap)
open Token (Reads Level stretch)
open Phrase (supported? emulated? taken isRefused)

variable {q : Query} {tail Y cs : List Cell} {p body behind argument : Phrase} {l l' : Leaf} {modifiers : List Leaf}
  {word : SqlText} {d : Nat} {e : Edit} {c : Call} {t select distinct : Token}
  {ts us vs ms bs front back operand named inner order : List Token}

/-! ### Changes of a query -/

/-- Whether the edit makes a query of tokens with these cells, if their parentheses match. -/
def Makes (q : Query) (e : Edit) (cs : List Cell) : Prop :=
  Balanced (Cell.kinds cs) →
    ∃ out q', Edit.applyAll [e] q.text = .ok out ∧ Query.ofText out = .ok q' ∧ Reads 0 cs q'.tokens

/-- Without its `DISTINCT` a call is read with its argument alone. -/
theorem makes_plain (h : q.IsRead tail) (hq : q.tokens = front ++ (c.tokens ++ back))
    (hcall : ReadsCall d l l' argument c distinct operand) :
    Makes q ⟨⟨distinct.start, Token.startOr c.closing.start operand⟩, []⟩ (front.map Token.cell ++
      (l.cell :: Cell.sign '(' :: (argument.cells ++ Cell.sign ')' :: back.map Token.cell))) := by
  intro hb
  -- The token behind the `DISTINCT`.
  obtain ⟨next, us, hnext, hstart⟩ := Token.exists_startOr_eq operand c.closing back
  have hall : q.tokens = (front ++ [c.name]) ++ c.opening :: distinct :: next :: us := by
    rw [hq, hcall.tokens_eq, List.cons_append, hnext]
    simp
  obtain ⟨hcells, hdstart, -⟩ := h.split_one
    (show q.tokens = (front ++ [c.name, c.opening]) ++ distinct :: next :: us by rw [hall]; simp)
  obtain ⟨-, hnstart, -⟩ := h.split_one
    (show q.tokens = (front ++ [c.name, c.opening, distinct]) ++ next :: us by rw [hall]; simp)
  have hparts : Token.cells q.tokens ++ tail = (Token.cells (front ++ [c.name]) ++ ofGap c.opening.gap) ++
      ((c.opening.cell :: ofGap distinct.gap) ++ ((distinct.cell :: ofGap next.gap) ++
        next.cell :: (Token.cells us ++ tail))) := by
    rw [hcells]
    simp
  have hsound := h.sound
  rw [hparts] at hsound
  have hbehind : Sound (next.cell :: (Token.cells us ++ tail)) := hsound.of_append.of_append.of_append
  obtain ⟨ss, hset, hr⟩ := settles_plain (p := Cell.isToken)
    (X := Token.cells (front ++ [c.name]) ++ ofGap c.opening.gap)
    (Token.isSymbol_of_cell hcall.opening) (by simpa using hsound) (.refl hbehind)
  refine h.reads_settled (N := []) _ hparts (by simp) ?_ ?_ hset (hr _) nofun ?_ hb
  · rw [hdstart]
    simp
  · rw [hstart, hnstart]
    simp
  · have hfront := h.filter_cells (front ++ [c.name])
    have hback := h.filter_cells (operand ++ c.closing :: back)
    have htail : tail.filter Cell.isToken = [] := h.filter_cells []
    rw [List.filter_append, htail, List.append_nil] at hfront
    have hlast : (next.cell :: (Token.cells us ++ tail)).filter Cell.isToken = next.cell :: us.map Token.cell := by
      rw [List.filter_cons_of_pos rfl, h.filter_cells]
    have hsame : next.cell :: us.map Token.cell = argument.cells ++ Cell.sign ')' :: back.map Token.cell := by
      rw [← List.map_cons, ← hnext, List.map_append, List.map_cons, hcall.operand.cells, hcall.closing]
    rw [List.nil_append, List.filter_append, List.filter_append, List.filter_append, hfront, hlast, hsame,
      Cell.filter_isToken_ofGap, List.filter_cons_of_pos rfl, Cell.filter_isToken_ofGap, hcall.opening]
    simp [hcall.name]

/-- How a new scope is read: it ends with an ordering that it ended with before, or with a word that nothing behind it
goes on with. -/
theorem settles_derivedCells (hfront : Writable (stretch (t :: front))) (hnamed : named ≠ [] → Writable (stretch named))
    (hoperand : Writable (stretch operand)) (hinner : inner ≠ [] → Writable (stretch inner))
    (hs : Sound (stretch order ++ Y)) (hend : order = [] → (spell Y).head?.any Text.continuesWord = false) :
    ∃ ss, Settles Cell.isToken (derivedCells (t :: front) named operand inner order ++ Y) (t.cell :: ss) := by
  have has : Writable [Cell.word "AS".toList] := writable_word (by decide) (by decide) (by decide)
  have hname : ∀ {os ss : List Cell}, Settles Cell.isToken os ss →
      ∃ ss', Settles Cell.isToken (Cell.sign ')' :: Cell.space :: Cell.word "AS".toList :: Cell.space :: os)
        (Cell.sign ')' :: ss') := by
    intro os ss h
    obtain ⟨ss₁, h₁, hs₁⟩ := h.blank
    obtain ⟨ss₂, h₂, -⟩ := (has.settles h₁ hs₁).blank
    exact ⟨ss₂, h₂.sign (.inr (.inl rfl))⟩
  obtain ⟨ss₁, h₁⟩ : ∃ ss, Settles Cell.isToken (rowsCells order ++ Y) (Cell.sign ')' :: ss) := by
    by_cases hne : order = []
    · have hY : Sound Y := by
        subst hne
        exact hs
      have hfit : (Cell.word "distinct_rows".toList).Fits (spell Y) :=
        (Cell.Wordy.word isWord_rows).fits (by decide) (hend hne)
      rw [rowsCells, if_pos hne]
      exact hname (.keep hfit (.refl hY))
    · obtain ⟨ss, h, hs⟩ := (Settles.refl (p := Cell.isToken) hs).blank
      have hword : Writable [Cell.word "distinct_rows".toList] := .word isWord_rows (by decide)
      rw [rowsCells, if_neg hne]
      exact hname (hword.settles h hs)
  obtain ⟨ss₂, h₂⟩ : ∃ ss, Settles Cell.isToken (stretch inner ++ (rowsCells order ++ Y)) ss := by
    by_cases hne : inner = []
    · subst hne
      exact ⟨_, h₁⟩
    · exact ⟨_, (hinner hne).settles h₁ (Cell.stops_sign (.inr (.inl rfl)) _)⟩
  obtain ⟨ss₃, h₃, hs₃⟩ := h₂.blank
  have hall := (writable_valueCells hfront hnamed hoperand).settles h₃ hs₃
  obtain ⟨ds, hds⟩ : ∃ ds, valueCells (t :: front) named operand = t.cell :: ds := by
    unfold valueCells headCells
    simp only
    split
    · exact ⟨_, rfl⟩
    · exact ⟨_, rfl⟩
  rw [derivedCells]
  rw [hds] at hall ⊢
  exact ⟨_, by simpa using hall⟩

/-- The tokens of a new scope. -/
theorem filter_derivedCells (front named operand inner order : List Token) :
    (derivedCells front named operand inner order).filter Cell.isToken = front.map Token.cell ++
      Cell.sign '(' :: Cell.word "distinct_value".toList :: Cell.sign ')' :: (named.map Token.cell ++
      Cell.word "FROM".toList :: Cell.sign '(' :: Cell.word "SELECT".toList :: Cell.word "DISTINCT".toList ::
      (operand.map Token.cell ++ Cell.word "AS".toList :: Cell.word "distinct_value".toList ::
      Cell.word "FROM".toList :: (inner.map Token.cell ++ Cell.sign ')' :: Cell.word "AS".toList ::
      Cell.word "distinct_rows".toList :: order.map Token.cell))) := by
  have hhead : (headCells front named).filter Cell.isToken = front.map Token.cell ++ Cell.sign '(' ::
      Cell.word "distinct_value".toList :: Cell.sign ')' :: named.map Token.cell := by
    unfold headCells
    simp only
    split
    · next hn =>
      subst hn
      simp [Cell.isToken, Cell.isGap, Cell.sign, Cell.word]
    · simp [Cell.isToken, Cell.isGap, Cell.sign, Cell.word, Cell.space]
  have hrows : (rowsCells order).filter Cell.isToken = Cell.sign ')' :: Cell.word "AS".toList ::
      Cell.word "distinct_rows".toList :: order.map Token.cell := by
    unfold rowsCells
    split
    · next hn =>
      subst hn
      rfl
    · simp [Cell.isToken, Cell.isGap, Cell.sign, Cell.word, Cell.space]
  rw [derivedCells, valueCells, innerCells]
  simp only [List.filter_append, hhead]
  simp [hrows, Cell.isToken, Cell.isGap, Cell.sign, Cell.word, Cell.space]

/-- A selection that makes room for one with a table is read with the parts of the phrase that it was made of. -/
theorem makes_derived {named rows ordering : Phrase} {al : List Token} (hread : q.IsRead tail)
    (h : Selected q front select ms (c.tokens ++ vs) back d modifiers body)
    (hcall : ReadsCall d l l' argument c distinct operand)
    (hselect : select.cell = .token (.keyword .SELECT) word) (hvs : vs = al ++ t :: (inner ++ order))
    (hal : Reads d named.cells al) (hinner : Reads d rows.cells inner) (horder : Reads d ordering.cells order)
    (hne : operand ≠ []) :
    Makes q ⟨⟨select.start, Token.stopOr 0 (select :: (ms ++ (c.tokens ++ vs)))⟩,
        spell (derivedCells (select :: (ms ++ [c.name])) al operand inner order)⟩ (front.map Token.cell ++
      (selectionCells word modifiers (Phrase.overValues l argument named rows ordering).cells ++
        back.map Token.cell)) := by
  intro hb
  have hq : q.tokens = front ++ (select :: (ms ++ (c.tokens ++ vs)) ++ back) := by
    rw [h.tokens]
    simp
  have hwrite : ∀ {u v w : List Token}, select :: (ms ++ (c.tokens ++ vs)) = u ++ (v ++ w) → v ≠ [] →
      Writable (stretch v) := by
    intro u v w heq hv
    refine hread.writable (a := front ++ u) (b := w ++ back) ?_ hv
    rw [hq, heq]
    simp
  have hplain : ∀ {u v w : List Token}, select :: (ms ++ (c.tokens ++ vs)) = u ++ (v ++ w) →
      ∀ c ∈ stretch v, c.isFault = false := by
    intro u v w heq c hc
    have hq' : q.tokens = (front ++ u) ++ (v ++ (w ++ back)) := by
      rw [hq, heq]
      simp
    refine hread.isFault c (List.mem_append_left _ ?_)
    rw [hq']
    exact Token.mem_cells_of_mem_stretch hc
  have htokens : c.tokens = c.name :: c.opening :: distinct :: (operand ++ [c.closing]) := by
    have := hcall.tokens_eq []
    simpa using this
  obtain ⟨hcells, hstart, hstop⟩ := hread.split hq
  have hends : Query.AtEnd back := fun t ht =>
    (h.ends t ht).elim (fun hsemi => .inr (.inl hsemi.1)) fun hright => .inl hright.1
  -- Behind the selection stands no word.
  have hword : (spell (Token.cells back ++ tail)).head?.any Text.continuesWord = false := by
    refine Bool.eq_false_iff.2 fun hcontinues => ?_
    obtain ⟨w, bs', k, rfl, -, hk⟩ := hread.exists_keyword
      (show q.tokens = (front ++ select :: (ms ++ (c.tokens ++ vs))) ++ back by rw [hq]; simp) hends hcontinues
    have hkind : w.kind = .keyword k := Kind.isKeyword_iff.1 hk
    rcases h.ends w rfl with ⟨hsymbol, -⟩ | ⟨hsymbol, -⟩ <;> simp [Token.isSymbol, Kind.isSymbol, hkind] at hsymbol
  have hsound : Sound (stretch order ++ (Token.cells back ++ tail)) := by
    have hall := hread.sound
    by_cases hnil : order = []
    · subst hnil
      rw [hcells] at hall
      exact hall.of_append.of_append
    · obtain ⟨o, os, rfl⟩ := List.exists_cons_of_ne_nil hnil
      have hparts : q.tokens = (front ++ select :: (ms ++ (c.tokens ++ (al ++ t :: inner)))) ++ (o :: os ++ back) := by
        rw [hq, hvs]
        simp
      rw [(hread.split hparts).1] at hall
      exact hall.of_append
  obtain ⟨ss, hset⟩ : ∃ ss, Settles Cell.isToken
      (derivedCells (select :: (ms ++ [c.name])) al operand inner order ++ (Token.cells back ++ tail))
      (select.cell :: ss) :=
    settles_derivedCells
    (hwrite (u := []) (w := c.opening :: distinct :: (operand ++ [c.closing]) ++ vs) (by rw [htokens]; simp)
      (List.cons_ne_nil _ _))
    (fun hn => hwrite (u := select :: (ms ++ c.tokens)) (w := t :: (inner ++ order)) (by rw [hvs]; simp) hn)
    (hwrite (u := select :: (ms ++ [c.name, c.opening, distinct])) (w := c.closing :: vs) (by rw [htokens]; simp) hne)
    (fun hn => hwrite (u := select :: (ms ++ (c.tokens ++ (al ++ [t])))) (w := order) (by rw [hvs]; simp) hn)
    hsound fun _ => hword
  have hfit := hread.sound
  rw [hcells] at hfit
  refine hread.reads_settled (K := []) _ hcells ?_ (by rw [List.append_nil, hstart]) (hstop 0) hset
    (replaces_select (Cell.sound_cons_iff.1 hfit.of_append).1 h.word) ?_ ?_ hb
  · simp
  · refine mem_derivedCells (fun c hc => hc _ Cell.spares_isFault)
      (hplain (u := []) (w := c.opening :: distinct :: (operand ++ [c.closing]) ++ vs) (by rw [htokens]; simp))
      (hplain (u := select :: (ms ++ c.tokens)) (w := t :: (inner ++ order)) (by rw [hvs]; simp))
      (hplain (u := select :: (ms ++ [c.name, c.opening, distinct])) (w := c.closing :: vs) (by rw [htokens]; simp))
      (hplain (u := select :: (ms ++ (c.tokens ++ (al ++ [t])))) (w := order) (by rw [hvs]; simp))
      (hplain (u := select :: (ms ++ (c.tokens ++ (al ++ t :: inner)))) (w := []) (by rw [hvs]; simp))
  · have hfront := hread.filter_cells front
    have htail : tail.filter Cell.isToken = [] := hread.filter_cells []
    rw [List.filter_append, htail, List.append_nil] at hfront
    rw [List.nil_append, List.filter_append, List.filter_append, List.filter_append, Cell.filter_isToken_ofGap,
      hread.filter_cells back, hfront, List.append_nil, filter_derivedCells, List.map_cons, List.map_append, hselect,
      h.readsModifiers.cells, hal.cells, hcall.operand.cells, hinner.cells, horder.cells]
    simp [selectionCells, Phrase.overValues, Phrase.valuesTable, Phrase.valuesBody, Phrase.cells, Phrase.cells_append,
      hcall.name]
    exact ⟨rfl, rfl, rfl, rfl, rfl, rfl, rfl, rfl, rfl⟩

/-! ### The first call and its change -/

/-- What a step makes of the call that was found, if any. -/
def editOf (q : Query) : Option (Keyword × Call × Token × List Token) → Except SqlError (Option Edit)
  | none => .ok none
  | some (aggregate, c, distinct, operand) =>
    if aggregate = .MIN ∨ aggregate = .MAX then
      .ok (some ⟨⟨distinct.start, Token.startOr c.closing.start operand⟩, []⟩)
    else
      match scopeEdit q c operand with
      | .ok edit => .ok (some edit)
      | .error fault => .error (.unsupportedConstruct (.distinct aggregate fault))

theorem step_eq (q : Query) : step q = editOf q (first? false q.tokens) := by
  rw [← firstCall?_eq]
  rfl

/-- What comes of the call that was found, if any: the query stays, it is refused, or an edit makes it one of other
cells. -/
inductive Found (q : Query) (found : Option (Keyword × Call × Token × List Token)) (Stays Refused : Prop)
    (Becomes : List Cell → Prop) : Prop
  | nothing (eq_none : found = none) (stays : Stays)
  | refused {a : Keyword} {fault : DistinctFault}
      (error : editOf q found = .error (.unsupportedConstruct (.distinct a fault))) (refused : Refused)
  | edit {e : Edit} {cs : List Cell} (ok : editOf q found = .ok (some e)) (makes : Makes q e cs) (becomes : Becomes cs)

namespace Found

variable {found found' : Option (Keyword × Call × Token × List Token)} {S S' R R' : Prop} {B B' : List Cell → Prop}

theorem imp (h : Found q found S R B) (hs : S → S') (hr : R → R') (hb : ∀ cs, B cs → B' cs) :
    Found q found S' R' B' := by
  cases h with
  | nothing eq_none stays => exact .nothing eq_none (hs stays)
  | refused error refused => exact .refused error (hr refused)
  | edit ok makes becomes => exact .edit ok makes (hb _ becomes)

/-- A call is found in one stretch, or else in another one. -/
theorem or (h : Found q found S R B) (hr : R → R') (hb : ∀ cs, B cs → B' cs) (h' : S → Found q found' S' R' B') :
    Found q (found.or found') S' R' B' := by
  have hfound : found ≠ none → found.or found' = found := by
    intro hne
    obtain ⟨x, rfl⟩ := Option.ne_none_iff_exists'.1 hne
    rfl
  cases h with
  | nothing eq_none stays =>
    rw [eq_none, Option.none_or]
    exact h' stays
  | refused error refused =>
    have hne : found ≠ none := by
      rintro rfl
      cases error
    rw [hfound hne]
    exact .refused error (hr refused)
  | edit ok makes becomes =>
    have hne : found ≠ none := by
      rintro rfl
      cases ok
    rw [hfound hne]
    exact .edit ok makes (hb _ becomes)

end Found

/-- Whether the first call of a phrase is handled as the phrase tells, between these tokens. -/
def Handled (q : Query) (front back : List Token) (f : Bool) (p : Phrase) (ts : List Token) : Prop :=
  Found q (first? f ts) (taken f p = p ∧ isRefused f p = false) (isRefused f p = true) fun cs =>
    ∃ p', Phrase.Agrees f p p' ∧ cs = front.map Token.cell ++ (p'.cells ++ back.map Token.cell)

/-- Whether the first call of a selection is handled as the selection tells, between these tokens. -/
def HandledSelection (q : Query) (front back : List Token) (word : SqlText) (modifiers : List Leaf) (body : Phrase)
    (ts : List Token) : Prop :=
  Found q (first? false ts)
    (taken false (.select word modifiers body .nil) = .select word modifiers body .nil ∧
      isRefused false (.select word modifiers body .nil) = false)
    (isRefused false (.select word modifiers body .nil) = true) fun cs =>
      ∃ body', Phrase.Agrees false (.select word modifiers body .nil) (.select word modifiers body' .nil) ∧
        cs = front.map Token.cell ++ (selectionCells word modifiers body'.cells ++ back.map Token.cell)

/-! ### Calls by their names -/

theorem extreme_or_counting {k : Keyword} (hk : t.kind = l.kind) (h : aggregate? t = some k) :
    l.isExtreme = true ∧ (k = .MIN ∨ k = .MAX) ∨ l.isCounting = true ∧ ¬ (k = .MIN ∨ k = .MAX) := by
  obtain ⟨hkind, haggregate⟩ := kind_of_aggregate? h
  unfold Leaf.isExtreme Leaf.isCounting Leaf.isKeyword
  rw [← hk, hkind]
  cases k <;> first
    | exact .inl ⟨rfl, .inl rfl⟩
    | exact .inl ⟨rfl, .inr rfl⟩
    | exact .inr ⟨rfl, by decide⟩
    | cases haggregate

theorem not_extreme_of_aggregate? (hk : t.kind = l.kind) (h : aggregate? t = none) :
    l.isExtreme = false ∧ l.isCounting = false := by
  have hnot : ∀ k : Keyword, k.isAggregate = true → l.isKeyword k = false := by
    intro k haggregate
    refine Bool.eq_false_iff.2 fun hkeyword => ?_
    rw [Leaf.isKeyword_iff] at hkeyword
    rw [aggregate?, hk, hkeyword] at h
    exact Option.filter_eq_none_iff.1 h k rfl haggregate
  simp [Leaf.isExtreme, Leaf.isCounting, hnot .MIN rfl, hnot .MAX rfl, hnot .COUNT rfl, hnot .SUM rfl, hnot .AVG rfl]

theorem isSome_aggregate?_of_isCounting (hk : t.kind = l.kind) (h : l.isCounting = true) :
    (aggregate? t).isSome = true := by
  refine Option.isSome_iff_ne_none.2 fun hnone => ?_
  rw [(not_extreme_of_aggregate? hk hnone).2] at h
  cases h

/-- A name before a group that is no call over distinct values does not matter. -/
theorem leaf_group_of_not {f g : Bool} {inside rest : Phrase}
    (h : (l.isExtreme = false ∧ l.isCounting = false) ∨ f = true ∨ inside.startsWith .DISTINCT = false)
    (hstays : taken g (.group inside rest) = .group inside rest ∧ isRefused g (.group inside rest) = false) :
    taken f (.leaf l (.group inside rest)) = .leaf l (.group inside rest) ∧
      isRefused f (.leaf l (.group inside rest)) = false := by
  rw [Phrase.taken, Phrase.isRefused] at hstays
  obtain ⟨htaken, hrefused⟩ := hstays
  obtain ⟨hinside, hrest⟩ := Phrase.group.inj htaken
  rw [Phrase.taken, Phrase.isRefused, hinside, hrest, hrefused]
  rcases h with ⟨hextreme, hcounting⟩ | rfl | h
  · simp [hextreme, hcounting]
  · simp
  · have hwithout : inside.withoutDistinct = inside := by
      cases inside with
      | leaf l' e =>
        have hl' : l'.isKeyword .DISTINCT = false := h
        rw [Phrase.withoutDistinct, if_neg (by rw [hl']; exact Bool.false_ne_true)]
      | nil | comma | group | select => rfl
    rw [hwithout, ite_self, h]
    simp

/-- A call that cannot do without its `DISTINCT` is refused. -/
theorem isRefused_call (hl : l.isCounting = true) (hword : l'.isKeyword .DISTINCT = true) :
    isRefused false (.leaf l (.group (.leaf l' argument) behind)) = true := by
  have hstarts : (Phrase.leaf l' argument).startsWith .DISTINCT = true := hword
  rw [isRefused, hl, hstarts]
  rfl

/-! ### What stands before a phrase -/

/-- Whether a phrase may stand behind these tokens: a dot in front is known, and no call there is the first of what a
`SELECT` selects. -/
structure Follows (front : List Token) (f : Bool) (p : Phrase) : Prop where
  dot : f = false → ∀ t ∈ front.getLast?, t.isSymbol .dot = false
  counted : Counted front
  modified : ∀ t ∈ front.getLast?, t.isKeyword .SELECT = true →
    p.startsWith .DISTINCT = false ∧ p.startsWith .ALL = false
  listed : f = false → Opens front → p.startsCall = false

namespace Follows

variable {f : Bool}

theorem nil (p : Phrase) : Follows [] false p :=
  ⟨nofun, nofun, nofun, by rintro - ⟨us, s, ms, heq, -⟩; simp at heq⟩

/-- Anything may stand behind a token that is no `SELECT` and modifies none. -/
theorem concat (hfront : Counted front) (hselect : t.isKeyword .SELECT = false) (htop : t.isKeyword .TOP = false)
    (hdot : f = false → t.isSymbol .dot = false)
    (hword : (t.isKeyword .DISTINCT || t.isKeyword .ALL) = true → ∀ s ∈ front.getLast?, s.isKeyword .SELECT = false)
    (p : Phrase) : Follows (front ++ [t]) f p := by
  have hlast : ∀ {u : Token}, u ∈ (front ++ [t]).getLast? → t = u := by
    intro u hu
    rw [List.getLast?_concat] at hu
    exact Option.some.inj hu
  refine ⟨fun hf u hu => hlast hu ▸ hdot hf, counted_concat htop front, fun u hu hs => ?_, fun _ hopens => ?_⟩
  · rw [← hlast hu, hselect] at hs
    cases hs
  · exact absurd hopens (not_opens_concat hselect hfront hword)

theorem sign {c : Char} {s : Symbol} (hfront : Counted front) (ht : t.cell = .token (.symbol s) [c]) (hs : s ≠ .dot)
    (f : Bool) (p : Phrase) : Follows (front ++ [t]) f p := by
  have hk := (Cell.token.inj ht).1
  have hword : ∀ k, t.isKeyword k = false := by
    intro k
    rw [Token.isKeyword, hk]
    rfl
  refine concat hfront (hword _) (hword _) (fun _ => ?_) (fun h => ?_) p
  · simp [Token.isSymbol, Kind.isSymbol, hk, hs]
  · simp [hword] at h

/-- A phrase may stand behind its first token. -/
theorem leaf (h : Follows front f (.leaf l p)) (hl : l.isFree = true) (hk : t.kind = l.kind) :
    Follows (front ++ [t]) (l.isSymbol .dot) p := by
  have hkeyword : ∀ k, t.isKeyword k = l.isKeyword k := fun k => by rw [Token.isKeyword, hk, Leaf.isKeyword]
  simp only [Leaf.isFree, Bool.not_eq_true', Bool.or_eq_false_iff] at hl
  refine concat h.counted (by rw [hkeyword, hl.1.1.1]) (by rw [hkeyword, hl.1.1.2])
    (fun hdot => by rw [Token.isSymbol, hk]; exact hdot) (fun hword s hs => ?_) p
  refine Bool.eq_false_iff.2 fun hselect => ?_
  obtain ⟨hdistinct, hall⟩ := h.modified s hs hselect
  have hdistinct' : l.isKeyword .DISTINCT = false := hdistinct
  have hall' : l.isKeyword .ALL = false := hall
  rw [hkeyword, hkeyword, hdistinct', hall'] at hword
  cases hword

/-- The body of a selection that does not start with a call may stand behind what modifies the `SELECT`. -/
theorem selected (hp : (Phrase.select word modifiers body .nil).isProper = true)
    (hselect : select.isKeyword .SELECT = true) (hms : Reads d (modifiers.map Leaf.cell) ms)
    (hcall : body.startsCall = false) (front : List Token) :
    Follows (front ++ select :: ms) false body := by
  simp only [Phrase.isProper, Bool.and_eq_true, Bool.and_true] at hp
  obtain ⟨⟨⟨hm, hfirst⟩, -⟩, -⟩ := hp
  have hkind : select.kind = .keyword .SELECT := Kind.isKeyword_iff.1 hselect
  have hmodifies := modifies_of_reads hm hms
  rcases List.eq_nil_or_concat ms with rfl | ⟨us, u, rfl⟩
  · have hempty : modifiers = [] := by simpa using hms.cells.symm
    have hlast : ∀ {t : Token}, t ∈ (front ++ [select]).getLast? → select = t := by
      intro t ht
      rw [List.getLast?_concat] at ht
      exact Option.some.inj ht
    refine ⟨fun _ t ht => ?_, fun t ht => ?_, fun t ht hs => ?_, fun _ _ => hcall⟩
    · simp [← hlast ht, Token.isSymbol, Kind.isSymbol, hkind]
    · simp [← hlast ht, Token.isKeyword, Kind.isKeyword, hkind]
    · rw [hempty] at hfirst
      simpa using hfirst
  · have hlast : ∀ {t : Token}, t ∈ (front ++ select :: us.concat u).getLast? → u = t := by
      intro t ht
      rw [List.concat_eq_append, ← List.cons_append, ← List.append_assoc, List.getLast?_concat] at ht
      exact Option.some.inj ht
    have hu := (hmodifies u (by simp)).plain
    refine ⟨fun _ t ht => hlast ht ▸ hu.2.1, fun t ht => ?_, fun t ht hs => ?_, fun _ _ => hcall⟩
    · -- The last word is no `TOP`.
      have hnot : (selectionCells word modifiers []).getLast? ≠ some (.token (.keyword .TOP) t.text) :=
        getLast?_selectionCells hm (fun w hw => by cases hw) t.text
      refine Bool.eq_false_iff.2 fun htop => hnot ?_
      have htk : t.kind = .keyword .TOP := Kind.isKeyword_iff.1 htop
      rw [← hlast ht] at htk ⊢
      rw [selectionCells, List.append_nil, ← hms.cells]
      simp [Token.cell, htk, List.getLast?_cons]
    · rw [← hlast ht, hu.2.2.2.1] at hs
      cases hs

end Follows

/-! ### Calls that stand somewhere else -/

theorem mem_calls_of_atFront (hq : q.tokens = front ++ ts)
    (hts : Call.atFront (fun t => (aggregate? t).isSome) ts = some (c, vs))
    (hdot : ∀ t ∈ front.getLast?, t.isSymbol .dot = false) : c ∈ q.calls fun t => (aggregate? t).isSome := by
  have hall : ∀ {f : Bool}, (front = [] → f = false) →
      c ∈ Call.among (fun t => (aggregate? t).isSome) f (front ++ ts) := by
    clear hq
    induction front with
    | nil =>
      intro f hf
      obtain rfl := hf rfl
      cases ts with
      | nil => cases hts
      | cons t ts =>
        rw [List.nil_append, Call.among, hts]
        exact List.mem_cons_self
    | cons a as ih =>
      intro f _
      have hlater : c ∈ Call.among (fun t => (aggregate? t).isSome) (a.isSymbol .dot) (as ++ ts) := by
        refine ih (fun t ht => ?_) fun hnil => ?_
        · cases as with
          | nil => cases ht
          | cons b bs => exact hdot t (by simpa [List.getLast?_cons] using ht)
        · subst hnil
          exact hdot a rfl
      rw [List.cons_append, Call.among]
      split
      · split
        · exact hlater
        · exact List.mem_cons_of_mem _ hlater
      · exact hlater
  rw [Query.calls, hq]
  exact hall fun _ => rfl

/-- A call over distinct values that does not start what a `SELECT` selects is handled at its place. -/
theorem handled_call (hread : q.IsRead tail) (hp : (Phrase.leaf l (.group (.leaf l' argument) behind)).isProper = true)
    (hcall : ReadsCall d l l' argument c distinct operand) (hvs : Reads d behind.cells vs)
    (hname : (aggregate? c.name).isSome = true) (hword : l'.isKeyword .DISTINCT = true)
    (hq : q.tokens = front ++ (c.tokens ++ vs ++ back))
    (hfollows : Follows front false (.leaf l (.group (.leaf l' argument) behind))) :
    Handled q front back false (.leaf l (.group (.leaf l' argument) behind)) (c.tokens ++ vs) := by
  obtain ⟨k, hk⟩ := Option.isSome_iff_exists.1 hname
  rw [Handled, hcall.first?_tokens hk hword]
  rcases extreme_or_counting (Cell.token.inj hcall.name).1 hk with ⟨hextreme, hmin⟩ | ⟨hcounting, hmin⟩
  · rw [List.append_assoc] at hq
    have hmakes := makes_plain hread hq hcall
    refine .edit (by rw [editOf, if_pos hmin]) hmakes ⟨_, .of_isExtreme hextreme hword hp, ?_⟩
    simp [Phrase.cells, hvs.cells]
  · cases hedit : scopeEdit q c operand with
    | error fault =>
      have herror : editOf q (some (k, c, distinct, operand)) = .error (.unsupportedConstruct (.distinct k fault)) := by
        rw [editOf, if_neg hmin, hedit]
      exact .refused herror (isRefused_call hcounting hword)
    | ok e =>
      have hmem : c ∈ q.calls fun t => (aggregate? t).isSome := by
        have hfront : Call.atFront (fun t => (aggregate? t).isSome) (c.tokens ++ vs ++ back)
            = some (c, vs ++ back) := by
          rw [List.append_assoc, hcall.atFront, if_pos hname]
        exact mem_calls_of_atFront hq hfront (hfollows.dot rfl)
      have hparts : q.tokens = front ++ c.name :: (c.tokens.tail ++ (vs ++ back)) := by
        rw [hq]
        simp [Call.tokens]
      have hopens := opens_of_scopeEdit hread hmem hedit hparts
      have hnot := hfollows.listed rfl hopens
      rw [Phrase.startsCall, hcounting, show (Phrase.leaf l' argument).startsWith .DISTINCT = true from hword] at hnot
      cases hnot

/-! ### The first call of a selection, and of a phrase -/

/-- The first call of a selection is handled, if that of its body is: the selection makes room for one with a table if
this call is all that is selected. -/
theorem handled_selection (hread : q.IsRead tail) (h : Selected q front select ms bs back d modifiers body)
    (hselect : select.cell = .token (.keyword .SELECT) word)
    (hp : (Phrase.select word modifiers body .nil).isProper = true)
    (hbody : body.startsCall = false → Handled q (front ++ select :: ms) back false body bs) :
    HandledSelection q front back word modifiers body (select :: (ms ++ bs)) := by
  have hnone : aggregate? select = none ∧ select.isSymbol .dot = false := by
    have hk := (Cell.token.inj hselect).1
    rw [aggregate?, Token.isSymbol, hk]
    exact ⟨rfl, rfl⟩
  have hfound : first? false (select :: (ms ++ bs)) = first? false bs := by
    rw [first?_cons_of_none hnone.1, hnone.2, first?_modifiers (modifies_of_reads h.modify h.readsModifiers)]
  rw [HandledSelection, hfound]
  cases hcall : body.startsCall with
  | false =>
    have hemulated := Phrase.emulated?_eq_none hcall
    refine (hbody hcall).imp ?_ ?_ ?_
    · rintro ⟨htaken, hrefused⟩
      rw [Phrase.taken_select, Phrase.isRefused_select, htaken, hemulated, Option.isSome_none, hrefused]
      exact ⟨rfl, rfl⟩
    · intro hrefused
      rw [Phrase.isRefused_select, hemulated, Option.isSome_none, hrefused]
      rfl
    · rintro _ ⟨body', hagrees, rfl⟩
      refine ⟨body', .inBody hp hcall hagrees, ?_⟩
      simp [selectionCells, hselect, h.readsModifiers.cells]
  | true =>
    obtain ⟨l, l', argument, behind, rfl, hcounting, hword⟩ := Phrase.exists_of_startsCall hcall
    obtain ⟨c, distinct, operand, vs, rfl, hreads, hvs⟩ := reads_call h.readsBody
    have hname := isSome_aggregate?_of_isCounting (Cell.token.inj hreads.name).1 hcounting
    obtain ⟨k, hk⟩ := Option.isSome_iff_exists.1 hname
    have hmin : ¬ (k = .MIN ∨ k = .MAX) := by
      rcases extreme_or_counting (Cell.token.inj hreads.name).1 hk with ⟨hextreme, -⟩ | ⟨-, hmin⟩
      · rw [Leaf.isExtreme_of_isCounting hcounting] at hextreme
        cases hextreme
      · exact hmin
    rw [hreads.first?_tokens hk hword]
    have hordered : behind.kinds.isSublist clauseOrder = true := by
      simp only [Phrase.isProper, Phrase.isOrdered, hcounting, hword, Bool.and_eq_true, Bool.and_self, Bool.not_true,
        Bool.false_or] at hp
      exact hp.1.1.2.2
    rcases h.scopeEdit_cases hread hreads hname hvs hordered with ⟨hsupported, fault, hedit⟩ |
        ⟨named, rows, ordering, al, f, inner, order, hsupported, hall, hal, hinner, horder, hedit⟩
    · have hemulated : emulated? (.leaf l (.group (.leaf l' argument) behind)) = none := by
        rw [emulated?, hsupported, Option.map_none, ite_self]
      have herror : editOf q (some (k, c, distinct, operand)) = .error (.unsupportedConstruct (.distinct k fault)) := by
        rw [editOf, if_neg hmin, hedit]
      refine .refused herror ?_
      rw [Phrase.isRefused_select, hemulated, Option.isSome_none, isRefused_call hcounting hword]
      rfl
    · have hemulated : emulated? (.leaf l (.group (.leaf l' argument) behind))
          = some (Phrase.overValues l argument named rows ordering) := by
        rw [emulated?, if_pos (by rw [hcounting, hword]; rfl), hsupported]
        rfl
      have hne : operand ≠ [] := by
        obtain ⟨-, -, -, -, -, hone, -⟩ := Phrase.supported?_eq_some hsupported
        rintro rfl
        have hnil : argument = .nil := Phrase.cells_eq_nil_iff.1 hreads.operand.cells.symm
        rw [hnil] at hone
        cases hone
      refine .edit ?_ (makes_derived hread h hreads hselect hall hal hinner horder hne)
        ⟨_, .of_emulated? hp hemulated, rfl⟩
      rw [editOf, if_neg hmin, hedit]

/-- What starts no group in parentheses does not make a name a call. -/
theorem first?_cons_of_ne {f : Bool} (hp : ∀ inside rest, p ≠ .group inside rest) (hts : Reads d p.cells ts) :
    first? f (t :: ts) = first? (t.isSymbol .dot) ts := by
  cases p with
  | group inside rest => exact absurd rfl (hp inside rest)
  | nil =>
    obtain rfl := Reads.nil_iff.1 hts
    exact first?_cons_of_head (fun u hu => by cases hu) f
  | leaf l rest =>
    obtain ⟨u, us, rfl, hk, -⟩ := Phrase.reads_leaf hts
    refine first?_cons_of_head (fun v hv => ?_) f
    obtain rfl : u = v := Option.some.inj hv
    rw [Token.isSymbol, Kind.isSymbol, hk]
    exact decide_eq_false l.left
  | comma rest =>
    obtain ⟨u, us, rfl, hu, -⟩ := Phrase.reads_comma hts
    refine first?_cons_of_head (fun v hv => ?_) f
    obtain rfl : u = v := Option.some.inj hv
    rw [Token.isSymbol, (Cell.token.inj hu).1]
    rfl
  | select word modifiers body rest =>
    obtain ⟨opening, us, closing, vs, rfl, hopening, hod, hus, hclosing, hcd, -⟩ := Phrase.reads_select hts
    refine first?_name hus.level hopening hod hclosing hcd (.inr (.inr ?_)) vs
    obtain ⟨s, ms, us, rfl, hs, -⟩ := Phrase.reads_selection hus
    rw [List.head?_cons, Option.any_some, Token.isKeyword, (Cell.token.inj hs).1]
    rfl

/-- The first call of a group is that inside, or else that behind the group. -/
theorem handled_group {f : Bool} {inside rest : Phrase} {opening closing : Token}
    (hp : (Phrase.group inside rest).isProper = true) (hus : Reads (d + 1) inside.cells us)
    (hvs : Reads d rest.cells vs) (hopening : opening.cell = Cell.sign '(') (hclosing : closing.cell = Cell.sign ')')
    (hin : Handled q (front ++ [opening]) (closing :: (vs ++ back)) false inside us)
    (hrest : Handled q (front ++ opening :: (us ++ [closing])) back false rest vs) :
    Handled q front back f (.group inside rest) (opening :: (us ++ closing :: vs)) := by
  rw [Phrase.isProper, Bool.and_eq_true] at hp
  rw [Handled, first?_parens hus.level hopening hclosing]
  refine Found.or hin ?_ ?_ fun hstays => Found.imp hrest ?_ ?_ ?_
  · intro h
    rw [isRefused, h, Bool.true_or]
  · rintro _ ⟨p', hagrees, rfl⟩
    exact ⟨.group p' rest, .inGroup hp.2 hagrees, by simp [Phrase.cells, hopening, hclosing, hvs.cells]⟩
  · obtain ⟨htaken, hrefused⟩ := hstays
    rintro ⟨htaken', hrefused'⟩
    rw [taken, isRefused, htaken, htaken', hrefused, hrefused']
    exact ⟨rfl, rfl⟩
  · intro h
    rw [isRefused, h, Bool.or_true]
  · rintro _ ⟨p', hagrees, rfl⟩
    exact ⟨.group inside p', .behindGroup hp.1 hagrees, by simp [Phrase.cells, hopening, hclosing, hus.cells]⟩

/-- The first call of a selection in parentheses is that inside, or else that behind the parentheses. -/
theorem handled_select {f : Bool} {rest : Phrase} {opening closing : Token}
    (hp : (Phrase.select word modifiers body rest).isProper = true)
    (hus : Reads (d + 1) (selectionCells word modifiers body.cells) us) (hvs : Reads d rest.cells vs)
    (hopening : opening.cell = Cell.sign '(') (hclosing : closing.cell = Cell.sign ')')
    (hin : HandledSelection q (front ++ [opening]) (closing :: (vs ++ back)) word modifiers body us)
    (hrest : Handled q (front ++ opening :: (us ++ [closing])) back false rest vs) :
    Handled q front back f (.select word modifiers body rest) (opening :: (us ++ closing :: vs)) := by
  have hrestProper : rest.isProper = true := by
    rw [Phrase.isProper, Bool.and_eq_true] at hp
    exact hp.2
  rw [Handled, first?_parens hus.level hopening hclosing]
  refine Found.or hin ?_ ?_ fun hstays => Found.imp hrest ?_ ?_ ?_
  · intro h
    rw [Phrase.isRefused_select, isRefused, Bool.or_false] at h
    rw [Phrase.isRefused_select, h, Bool.true_or]
  · rintro _ ⟨body', hagrees, rfl⟩
    exact ⟨.select word modifiers body' rest, .inSelect hrestProper hagrees,
      by simp [Phrase.cells, hopening, hclosing, hvs.cells]⟩
  · obtain ⟨htaken, hrefused⟩ := hstays
    rintro ⟨htaken', hrefused'⟩
    rw [Phrase.taken_select, Phrase.select.injEq] at htaken
    rw [Phrase.isRefused_select, isRefused, Bool.or_false] at hrefused
    rw [Phrase.taken_select, Phrase.isRefused_select, htaken.2.2.1, htaken', hrefused, hrefused']
    exact ⟨rfl, rfl⟩
  · intro h
    rw [Phrase.isRefused_select, h, Bool.or_true]
  · rintro _ ⟨p', hagrees, rfl⟩
    exact ⟨.select word modifiers body p', .behindSelect hp hagrees,
      by simp [Phrase.cells, hopening, hclosing, hus.cells]⟩

/-- Wherever the first call of a proper phrase stands, it is handled as the phrase tells. -/
theorem handled {f : Bool} (hread : q.IsRead tail) (hp : p.isProper = true) (hts : Reads d p.cells ts)
    (hq : q.tokens = front ++ (ts ++ back)) (hfollows : Follows front f p) : Handled q front back f p ts := by
  induction p generalizing d f ts front back with
  | nil =>
    obtain rfl := Reads.nil_iff.1 hts
    exact .nothing rfl ⟨rfl, rfl⟩
  | leaf l rest ih =>
    have hpl := hp
    rw [Phrase.isProper, Bool.and_eq_true] at hpl
    obtain ⟨t, us, rfl, hk, hcell, hd, -, hus⟩ := Phrase.reads_leaf hts
    have hdot : t.isSymbol .dot = l.isSymbol .dot := by rw [Token.isSymbol, hk, Leaf.isSymbol]
    -- What is behind the token is handled, where the token makes no call with it.
    have hbehind : first? f (t :: us) = first? (l.isSymbol .dot) us →
        (taken (l.isSymbol .dot) rest = rest ∧ isRefused (l.isSymbol .dot) rest = false →
          taken f (.leaf l rest) = .leaf l rest ∧ isRefused f (.leaf l rest) = false) →
        (isRefused (l.isSymbol .dot) rest = true → isRefused f (.leaf l rest) = true) →
        Handled q front back f (.leaf l rest) (t :: us) := by
      intro hfirst hstays hrefused
      have hrest := ih hpl.2 hus (show q.tokens = (front ++ [t]) ++ (us ++ back) by rw [hq]; simp)
        (hfollows.leaf hpl.1 hk)
      rw [Handled, hfirst]
      refine Found.imp hrest hstays hrefused ?_
      rintro _ ⟨p', hagrees, rfl⟩
      exact ⟨.leaf l p', .behindLeaf hpl.1 hagrees, by simp [Phrase.cells, hcell]⟩
    rcases rest.eq_group_or with ⟨inside, behind, rfl⟩ | hne
    · by_cases hcall : (aggregate? t).isSome = true ∧ f = false ∧ inside.startsWith .DISTINCT = true
      · obtain ⟨hname, rfl, hword⟩ := hcall
        obtain ⟨l', argument, rfl⟩ : ∃ l' argument, inside = .leaf l' argument := by
          cases inside with
          | leaf l' argument => exact ⟨l', argument, rfl⟩
          | nil | comma | group | select => cases hword
        obtain ⟨c, distinct, operand, vs, heq, hreads, hvs⟩ := reads_call hts
        obtain ⟨rfl, -⟩ := List.cons.inj heq
        rw [heq] at hq ⊢
        exact handled_call hread hp hreads hvs hname hword hq hfollows
      · have hnot : (l.isExtreme = false ∧ l.isCounting = false) ∨ f = true ∨ inside.startsWith .DISTINCT = false := by
          cases hagg : aggregate? t with
          | none => exact .inl (not_extreme_of_aggregate? hk hagg)
          | some k =>
            rw [hagg] at hcall
            cases f with
            | true => exact .inr (.inl rfl)
            | false => exact .inr (.inr (Bool.eq_false_iff.2 fun h => hcall ⟨rfl, rfl, h⟩))
        obtain ⟨opening, xs, closing, ys, rfl, hopening, hod, hxs, hclosing, hcd, hys⟩ := Phrase.reads_group hus
        refine hbehind ?_ (leaf_group_of_not hnot) ?_
        · rw [← hdot]
          refine first?_name hxs.level hopening hod hclosing hcd ?_ ys
          rw [Phrase.head_isKeyword hxs]
          cases hagg : aggregate? t with
          | none => exact .inl rfl
          | some k =>
            rw [hagg] at hcall
            cases f with
            | true => exact .inr (.inl rfl)
            | false => exact .inr (.inr (Bool.eq_false_iff.2 fun h => hcall ⟨rfl, rfl, h⟩))
        · intro h
          rw [isRefused] at h
          rw [isRefused, h, Bool.or_true]
    · refine hbehind ?_ ?_ ?_
      · rw [← hdot]
        exact first?_cons_of_ne hne hus
      · rintro ⟨htaken, hrefused⟩
        rw [Phrase.taken_leaf_of_ne hne, Phrase.isRefused_leaf_of_ne hne, htaken]
        exact ⟨rfl, hrefused⟩
      · rw [Phrase.isRefused_leaf_of_ne hne]
        exact id
  | comma rest ih =>
    obtain ⟨t, us, rfl, ht, -, -, hus⟩ := Phrase.reads_comma hts
    have hfirst : first? f (t :: us) = first? false us := by
      rw [first?_cons_of_none (aggregate?_of_cell ht), Token.isSymbol, (Cell.token.inj ht).1]
      rfl
    have hrest := ih hp hus (show q.tokens = (front ++ [t]) ++ (us ++ back) by rw [hq]; simp)
      (.sign hfollows.counted ht (by decide) false _)
    rw [Handled, hfirst]
    refine Found.imp hrest ?_ id ?_
    · rintro ⟨htaken, hrefused⟩
      rw [taken, htaken]
      exact ⟨rfl, hrefused⟩
    · rintro _ ⟨p', hagrees, rfl⟩
      exact ⟨.comma p', .behindComma hagrees, by simp [Phrase.cells, ht]⟩
  | group inside rest ihInside ih =>
    have hboth := hp
    rw [Phrase.isProper, Bool.and_eq_true] at hboth
    obtain ⟨opening, us, closing, vs, rfl, hopening, hod, hus, hclosing, hcd, hvs⟩ := Phrase.reads_group hts
    have hin := Follows.sign hfollows.counted hopening (by decide) false inside
    have hcounted := counted_append (Phrase.getLast?_cells hboth.1) hus hin.counted
    refine handled_group hp hus hvs hopening hclosing (ihInside hboth.1 hus (by rw [hq]; simp) hin)
      (ih hboth.2 hvs (by rw [hq]; simp) ?_)
    have hout := Follows.sign hcounted hclosing (by decide) false rest
    simpa using hout
  | select word modifiers body rest ihBody ih =>
    have hboth := hp
    simp only [Phrase.isProper, Bool.and_eq_true] at hboth
    obtain ⟨⟨⟨⟨hm, hfirst⟩, hordered⟩, hbody⟩, hrest⟩ := hboth
    obtain ⟨opening, us, closing, vs, rfl, hopening, hod, hus, hclosing, hcd, hvs⟩ := Phrase.reads_select hts
    have hin := Follows.sign hfollows.counted hopening (by decide) false body
    have hcounted := counted_append (getLast?_selectionCells hm (Phrase.getLast?_cells hbody)) hus hin.counted
    refine handled_select hp hus hvs hopening hclosing ?_ (ih hrest hvs (by rw [hq]; simp) ?_)
    · obtain ⟨select, ms, bs, rfl, hselect, hsd, hms, hbs⟩ := Phrase.reads_selection hus
      have hword : select.isKeyword .SELECT = true := by
        rw [Token.isKeyword, (Cell.token.inj hselect).1]
        rfl
      have hsel : Selected q (front ++ [opening]) select ms bs (closing :: (vs ++ back)) (d + 1) modifiers body := by
        refine ⟨by rw [hq]; simp, hword, hsd, hm, hms, hbs, hbody, ?_⟩
        rintro _ ⟨⟩
        exact .inr ⟨Token.isSymbol_of_cell hclosing, by omega⟩
      have hproper : (Phrase.select word modifiers body .nil).isProper = true := by
        simp only [Phrase.isProper, hm, hfirst, hordered, hbody, Bool.and_self]
      refine handled_selection hread hsel hselect hproper fun hcall => ?_
      exact ihBody hbody hbs (by rw [hq]; simp) (.selected hproper hword hms hcall _)
    · have hout := Follows.sign hcounted hclosing (by decide) false rest
      simpa using hout

/-! ### Whole texts -/

/-- The cells of a text around one selection: what stands before it, the selection, and semicolons. -/
def textCells (lead : Phrase) (word : SqlText) (modifiers : List Leaf) (body : Phrase) (n : Nat) : List Cell :=
  lead.cells ++ (selectionCells word modifiers body.cells ++ List.replicate n (Cell.sign ';'))

variable {lead : Phrase} {n : Nat} {text : SqlText}

theorem balanced_textCells (lead : Phrase) (word : SqlText) (modifiers : List Leaf) (body : Phrase) (n : Nat) :
    Balanced (Cell.kinds (textCells lead word modifiers body n)) := by
  have hback : ∀ n, Balanced (Cell.kinds (List.replicate n (Cell.sign ';'))) := by
    intro n
    induction n with
    | zero => exact .nil
    | succ n ih => exact .plain nofun nofun ih
  rw [textCells, Cell.kinds_append, Cell.kinds_append]
  exact .append lead.balanced (.append (Phrase.balanced_selectionCells _ _ body.balanced) (hback n))

/-- The first call of two stretches with a token between them that makes none. -/
theorem first?_append (hts : Level d ts) (hleft : t.isSymbol .leftParen = false) (hdot : t.isSymbol .dot = false)
    (ht : aggregate? t = none) (f : Bool) (us : List Token) :
    first? f (ts ++ t :: us) = (first? f ts).or (first? false us) := by
  rw [first?, Call.among_append hts.run hts.le hleft hdot (by rw [ht]; rfl), List.findSome?_append]
  rfl

theorem first?_semicolons (h : Reads d (List.replicate n (Cell.sign ';')) ts) : first? false ts = none := by
  induction n generalizing ts with
  | zero =>
    obtain rfl := Reads.nil_iff.1 h
    rfl
  | succ n ih =>
    obtain ⟨t, us, rfl, hk, -, -, hus⟩ := Reads.cons h nofun nofun
    have ht : aggregate? t = none ∧ t.isSymbol .dot = false := by
      rw [aggregate?, Token.isSymbol, hk]
      exact ⟨rfl, rfl⟩
    rw [first?_cons_of_none ht.1, ht.2, ih hus]

/-- The first call of a text around one selection is handled as the phrases tell. -/
theorem handled_text (hread : q.IsRead tail) (hts : Reads 0 (textCells lead word modifiers body n) q.tokens)
    (hlead : lead.isProper = true) (hp : (Phrase.select word modifiers body .nil).isProper = true) :
    Found q (first? false q.tokens)
      ((taken false lead = lead ∧ isRefused false lead = false) ∧
        taken false (.select word modifiers body .nil) = .select word modifiers body .nil ∧
        isRefused false (.select word modifiers body .nil) = false)
      (isRefused false lead = true ∨ isRefused false (.select word modifiers body .nil) = true) fun cs =>
        ∃ lead' body', Phrase.Agrees false lead lead' ∧
          Phrase.Agrees false (.select word modifiers body .nil) (.select word modifiers body' .nil) ∧
          cs = textCells lead' word modifiers body' n := by
  obtain ⟨ls, ts, hq, hls, hts⟩ := hts.append lead.balanced
  obtain ⟨ss, back, rfl, hss, hback⟩ := hts.append (Phrase.balanced_selectionCells _ _ body.balanced)
  obtain ⟨select, ms, bs, rfl, hselect, hd, hms, hbs⟩ := Phrase.reads_selection hss
  have hboth := hp
  simp only [Phrase.isProper, Bool.and_eq_true, Bool.and_true] at hboth
  obtain ⟨⟨⟨hm, -⟩, -⟩, hbody⟩ := hboth
  have hk := (Cell.token.inj hselect).1
  have hword : select.isKeyword .SELECT = true := by
    rw [Token.isKeyword, hk]
    rfl
  have hplain : select.isSymbol .leftParen = false ∧ select.isSymbol .dot = false ∧ aggregate? select = none := by
    rw [Token.isSymbol, Token.isSymbol, aggregate?, hk]
    exact ⟨rfl, rfl, rfl⟩
  have hends : ∀ t ∈ back.head?, t.isSymbol .semicolon = true ∧ t.depth = 0 := by
    intro t ht
    cases n with
    | zero =>
      obtain rfl := Reads.nil_iff.1 hback
      cases ht
    | succ n =>
      obtain ⟨u, us, rfl, hk, -, hu, -⟩ := Reads.cons hback (by decide) (by decide)
      obtain rfl := Option.some.inj ht
      exact ⟨by rw [Token.isSymbol, hk]; rfl, hu⟩
  have hselected : Selected q ls select ms bs back 0 modifiers body :=
    ⟨by rw [hq]; simp, hword, hd, hm, hms, hbs, hbody, fun t ht => .inl (hends t ht)⟩
  have hfirst := handled hread hlead hls
    (show q.tokens = [] ++ (ls ++ select :: (ms ++ (bs ++ back))) by rw [hq]; simp) (.nil lead)
  have hsecond := handled_selection hread hselected hselect hp fun hcall =>
    handled hread hbody hbs (by rw [hq]; simp) (.selected hp hword hms hcall ls)
  -- Behind the selection there is no call.
  have hall : first? false q.tokens = (first? false ls).or (first? false (select :: (ms ++ bs))) := by
    have hbehind : first? false (select :: (ms ++ bs) ++ back) = first? false (select :: (ms ++ bs)) := by
      have hnone := first?_semicolons hback
      cases back with
      | nil => rw [List.append_nil]
      | cons t us =>
        have hkind := Kind.isSymbol_iff.1 (hends t rfl).1
        have ht : t.isSymbol .leftParen = false ∧ t.isSymbol .dot = false ∧ aggregate? t = none := by
          rw [Token.isSymbol, Token.isSymbol, aggregate?, hkind]
          exact ⟨rfl, rfl, rfl⟩
        rw [first?_cons_of_none ht.2.2, ht.2.1] at hnone
        rw [first?_append hss.level ht.1 ht.2.1 ht.2.2, hnone, Option.or_none]
    rw [hq, List.cons_append, first?_append hls.level hplain.1 hplain.2.1 hplain.2.2, ← hbehind, List.cons_append,
      first?_cons_of_none hplain.2.2, hplain.2.1]
  rw [hall]
  refine Found.or hfirst .inl ?_ fun hstays => Found.imp hsecond (fun h => ⟨hstays, h⟩) .inr ?_
  · rintro _ ⟨lead', hagrees, rfl⟩
    refine ⟨lead', body, hagrees, .refl hp, ?_⟩
    simp [textCells, selectionCells, hselect, hms.cells, hbs.cells, hback.cells]
  · rintro _ ⟨body', hagrees, rfl⟩
    refine ⟨lead, body', .refl hlead, hagrees, ?_⟩
    rw [textCells, hls.cells, hback.cells]

/-! ### All aggregates over distinct values -/

/-- The body of a selection with all aggregates over distinct values taken in the ways that Jet knows. -/
def takenBody (body : Phrase) : Phrase :=
  (emulated? (taken false body)).getD (taken false body)

/-- Whether some aggregate over distinct values of a selection, or of what stands before it, cannot be taken over a
table. -/
def refusesText (lead body : Phrase) : Bool :=
  isRefused false lead || isRefused (emulated? body).isSome body

/-- Whether a text around one selection agrees with these phrases. -/
def ComesTo (lead : Phrase) (word : SqlText) (modifiers : List Leaf) (body : Phrase) (n : Nat) (text : SqlText) :
    Prop :=
  ∃ q lead' body', Query.ofText text = .ok q ∧ Reads 0 (textCells lead' word modifiers body' n) q.tokens ∧
    Phrase.Agrees false lead lead' ∧
    Phrase.Agrees false (.select word modifiers body .nil) (.select word modifiers body' .nil)

namespace ComesTo

/-- Phrases that agree are refused alike. -/
theorem refusesText_eq {lead' body' : Phrase} (hlead : Phrase.Agrees false lead lead')
    (hbody : Phrase.Agrees false (.select word modifiers body .nil) (.select word modifiers body' .nil)) :
    refusesText lead' body' = refusesText lead body := by
  have hrefused := hbody.isRefused
  rw [Phrase.isRefused_select, Phrase.isRefused_select, isRefused, Bool.or_false, Bool.or_false] at hrefused
  rw [refusesText, refusesText, hlead.isRefused, hrefused]

/-- A round leaves what a text comes to, meets a call that is refused, or finds all calls taken. -/
theorem step_cases (h : ComesTo lead word modifiers body n text) : ∃ q, Query.ofText text = .ok q ∧
    (step q = .ok none ∨
      (∃ e out, step q = .ok (some e) ∧ Edit.applyAll [e] text = .ok out ∧ ComesTo lead word modifiers body n out) ∨
      ∃ err, step q = .error err ∧
        ((∃ a fault, err = .unsupportedConstruct (.distinct a fault)) ∧ refusesText lead body = true)) := by
  obtain ⟨q, lead', body', hq, hreads, hlead, hbody⟩ := h
  obtain ⟨rfl, tail, hread⟩ := Query.isRead hq
  refine ⟨q, hq, ?_⟩
  rw [step_eq]
  cases handled_text hread hreads hlead.isProper hbody.isProper with
  | nothing eq_none stays =>
    rw [eq_none]
    exact .inl rfl
  | refused error refused =>
    refine .inr (.inr ⟨_, error, ⟨_, _, rfl⟩, ?_⟩)
    rw [← refusesText_eq hlead hbody, refusesText, Bool.or_eq_true]
    rwa [Phrase.isRefused_select, isRefused, Bool.or_false] at refused
  | edit ok makes becomes =>
    obtain ⟨lead'', body'', hlead', hbody', rfl⟩ := becomes
    obtain ⟨out, q', hout, hq', hreads'⟩ := makes (balanced_textCells ..)
    exact .inr (.inl ⟨_, out, ok, hout, q', lead'', body'', hq', hreads', hlead.trans hlead', hbody.trans hbody'⟩)

/-- Where all calls are taken, the text is what it comes to. -/
theorem taken_of_step (h : ComesTo lead word modifiers body n text) (hq : Query.ofText text = .ok q)
    (hnone : step q = .ok none) : firstCall? q = none ∧ refusesText lead body = false ∧
      q.tokens.map Token.cell = textCells (taken false lead) word modifiers (takenBody body) n := by
  obtain ⟨q', lead', body', hq', hreads, hlead, hbody⟩ := h
  obtain rfl : q' = q := Except.ok.inj (hq'.symm.trans hq)
  obtain ⟨rfl, tail, hread⟩ := Query.isRead hq
  rw [step_eq] at hnone
  cases handled_text hread hreads hlead.isProper hbody.isProper with
  | refused error => cases hnone.symm.trans error
  | edit ok => cases hnone.symm.trans ok
  | nothing eq_none stays =>
    obtain ⟨⟨htaken, hrefused⟩, htakenBody, hrefusedBody⟩ := stays
    rw [Phrase.isRefused_select, isRefused, Bool.or_false] at hrefusedBody
    have hsame := hbody.taken
    rw [htakenBody, Phrase.taken_select] at hsame
    have hbodies : body' = takenBody body := (Phrase.select.inj hsame).2.2.1
    refine ⟨by rw [firstCall?_eq, eq_none], ?_, ?_⟩
    · rw [← refusesText_eq hlead hbody, refusesText, hrefused, hrefusedBody]
      rfl
    · rw [hreads.cells, ← hbodies, ← hlead.taken, htaken]

end ComesTo

/-- **Aggregates over distinct values are taken in the ways that Jet knows, however deep they are nested.** A text is
refused just if some call that cannot do without its `DISTINCT` is not all that its `SELECT` selects, or stands in a
selection that has no tables, has groups, or gives it anything but one expression.  Otherwise no call over distinct
values is left: `MIN` and `MAX` have lost their `DISTINCT`, and each selection of another aggregate is one over a
table of the distinct values, made of the parts of the old one, in each of which the same was done. -/
theorem convert_eq_taken (hq : Query.ofText text = .ok q)
    (hcells : q.tokens.map Token.cell = textCells lead word modifiers body n)
    (hlead : lead.isProper = true) (hp : (Phrase.select word modifiers body .nil).isProper = true) :
    ((∃ a fault, convert text = .error (.unsupportedConstruct (.distinct a fault))) ↔ refusesText lead body = true) ∧
      (refusesText lead body = false → ∃ out q', convert text = .ok out ∧ Query.ofText out = .ok q' ∧
        firstCall? q' = none ∧
        q'.tokens.map Token.cell = textCells (taken false lead) word modifiers (takenBody body) n) := by
  have hstart : ComesTo lead word modifiers body n text :=
    ⟨q, lead, body, hq, ⟨(Query.reads hq).level, hcells⟩, .refl hlead, .refl hp⟩
  rcases Query.exhaust_cases (fun ht => ComesTo.step_cases ht) hstart with ⟨out, hout, hcomes⟩ |
      ⟨err, herr, ⟨a, fault, rfl⟩, hrefused⟩
  · obtain ⟨q', hq', hnone⟩ := convert_eq_ok hout
    obtain ⟨hfirst, hrefused, htokens⟩ := hcomes.taken_of_step hq' hnone
    refine ⟨⟨?_, fun h => ?_⟩, fun _ => ⟨out, q', hout, hq', hfirst, htokens⟩⟩
    · rintro ⟨a, fault, herr⟩
      rw [convert, hout] at herr
      cases herr
    · rw [hrefused] at h
      cases h
  · refine ⟨⟨fun _ => hrefused, fun _ => ⟨a, fault, herr⟩⟩, fun h => ?_⟩
    rw [hrefused] at h
    cases h

theorem convert_eq_taken_in_table :
    ∃ out q, convert ("SELECT COUNT(DISTINCT a) AS n FROM (SELECT SUM(DISTINCT b) "
        ++ "FROM t WHERE c IN (SELECT MAX(DISTINCT c) FROM t)) ORDER BY n;").toList = .ok out ∧
      Query.ofText out = .ok q ∧ firstCall? q = none ∧ q.tokens.map (fun t => String.ofList t.text)
        = ["SELECT", "COUNT", "(", "distinct_value", ")", "AS", "n",
          "FROM", "(", "SELECT", "DISTINCT", "a", "AS", "distinct_value",
          "FROM", "(", "SELECT", "SUM", "(", "distinct_value", ")",
          "FROM", "(", "SELECT", "DISTINCT", "b", "AS", "distinct_value",
          "FROM", "t", "WHERE", "c", "IN", "(", "SELECT", "MAX", "(", "c", ")", "FROM", "t", ")",
          ")", "AS", "distinct_rows", ")", ")", "AS", "distinct_rows", "ORDER", "BY", "n", ";"] := by
  obtain ⟨q, hq, hcells⟩ := Query.exists_of_cells ("SELECT COUNT(DISTINCT a) AS n FROM (SELECT SUM(DISTINCT b) "
    ++ "FROM t WHERE c IN (SELECT MAX(DISTINCT c) FROM t)) ORDER BY n;").toList
    (textCells .nil "SELECT".toList [] (.leaf (.word "COUNT".toList)
      (.group (.leaf (.word "DISTINCT".toList) (.leaf (.word ['a']) .nil))
      (.leaf (.word "AS".toList) (.leaf (.word ['n']) (.leaf (.word "FROM".toList)
      (.select "SELECT".toList [] (.leaf (.word "SUM".toList)
        (.group (.leaf (.word "DISTINCT".toList) (.leaf (.word ['b']) .nil))
        (.leaf (.word "FROM".toList) (.leaf (.word ['t']) (.leaf (.word "WHERE".toList) (.leaf (.word ['c'])
        (.leaf (.word "IN".toList) (.select "SELECT".toList [] (.leaf (.word "MAX".toList)
          (.group (.leaf (.word "DISTINCT".toList) (.leaf (.word ['c']) .nil))
          (.leaf (.word "FROM".toList) (.leaf (.word ['t']) .nil)))) .nil))))))))
      (.leaf (.word "ORDER".toList) (.leaf (.word "BY".toList) (.leaf (.word ['n']) .nil))))))))) 1) (by decide +kernel)
  obtain ⟨-, h⟩ := convert_eq_taken hq hcells rfl (by decide +kernel)
  obtain ⟨out, q', hout, hq', hnone, htokens⟩ := h (by decide +kernel)
  refine ⟨out, q', hout, hq', hnone, ?_⟩
  have htexts := congrArg (List.map fun c => String.ofList c.text) htokens
  rw [List.map_map] at htexts
  exact htexts.trans (by decide +kernel)

end JetAdapter.Distinct
