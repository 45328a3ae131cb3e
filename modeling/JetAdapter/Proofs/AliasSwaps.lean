import JetAdapter.Proofs.Stretches
import JetAdapter.Rule.OrderAlias

/-!
# Swaps of names in an ordering

A name in an `ORDER BY` makes room for the expression that it is an alias of.  Nothing is written around the
expression, so its last word may run into the direction or clause behind it, and its first one into a `BY`
that stands directly before it; a last `e` may even become a fault.  What is read then is known for cells that
are neither words nor symbols nor faults (`harmless`).
-/

namespace JetAdapter.OrderAlias

open Cell (Sound Settles Replaces Soft Spares spell ofGap)
open Token (stretch)

variable {q : Query} {tail : List Cell} {e : Edit}

/-- Whether no `BY` ends where an expression is written that starts with a digit. -/
def DigitsApart (q : Query) : Prop :=
  ∀ e ∈ q.scopes.flatMap scopeEdits, e.text.head?.any Text.staysInWord = true →
    ∀ t ∈ q.tokens, t.isKeyword .BY = true → t.stop ≠ e.span.start

instance : DecidablePred DigitsApart := fun q =>
  inferInstanceAs (Decidable (∀ e ∈ q.scopes.flatMap scopeEdits,
    e.text.head?.any Text.staysInWord = true →
      ∀ t ∈ q.tokens, t.isKeyword .BY = true → t.stop ≠ e.span.start))

/-- A name makes room for an expression without parameters that stands elsewhere.  The comma or `BY` before
it counts, with the gap between them. -/
inductive Swapped : List Cell → List Cell → List Cell → List Cell → Prop
  | spelled {X Y B : List Cell} {sep name : Token} {expression : List Token}
      (before : sep.isSymbol .comma = true ∨ sep.isKeyword .BY = true)
      (named : name.kind.isIdentifier = true) (nonempty : expression ≠ [])
      (context : Sound (stretch expression ++ B))
      (source : ∀ c ∈ stretch expression,
        c ∈ X ++ (sep.cell :: (ofGap name.gap ++ [name.cell]) ++ Y))
      (unmarked : ∀ t ∈ expression, t.kind.isMarker = false) (soft : Soft Y)
      (apart : sep.isKeyword .BY = true → name.gap = [] →
        (spell (stretch expression)).head?.any Text.staysInWord = false) :
      Swapped X (sep.cell :: (ofGap name.gap ++ [name.cell])) Y
        (sep.cell :: (ofGap name.gap ++ stretch expression))

/-- The cells that stay before a name. -/
def stays (c : Cell) : Bool :=
  match c with
  | .gap _ => true
  | .token k _ => k.isSymbol .comma || k.isKeyword .BY

/-! ### How they are read -/

/-- A comma or a `BY` before an expression is read as it is, or a word runs into the `BY`. -/
theorem settles_before {p : Cell → Bool} (hp : Spares p) {sep : Token} {rest : SqlText}
    {os ss cs : List Cell} (hfit : sep.cell.Fits rest)
    (before : sep.isSymbol .comma = true ∨ sep.isKeyword .BY = true) (h : Settles p os ss)
    (apart : sep.isKeyword .BY = true → (spell ss).head?.any Text.staysInWord = false) :
    ∃ ss', Settles p (sep.cell :: os) ss' ∧ Replaces (sep.cell :: cs) ss' := by
  rcases before with hcomma | hby
  · have hk : sep.kind = .symbol .comma := Kind.isSymbol_iff.1 hcomma
    rw [Token.cell, hk] at hfit ⊢
    rw [(Cell.text_of_symbol hfit).2.2.1 rfl]
    exact ⟨_, Settles.sign (.inr (.inr rfl)) h, .of_stops (Cell.stops_sign (.inr (.inr rfl)) ss)⟩
  · have hk : sep.kind = .keyword .BY := Kind.isKeyword_iff.1 hby
    have hin := apart hby
    rw [Token.cell, hk] at hfit ⊢
    have hword := (Cell.isWord_of_keyword hfit).1
    have hb : sep.text.head?.any Text.isBlank = false := by
      obtain ⟨hbare, c, u, hl, -⟩ := hfit
      rw [show sep.text = c :: u from hl] at hbare ⊢
      simpa using (Lexeme.bare_cons_iff.1 hbare).1
    have front := hfit.wordy rfl (by
      cases ht : sep.text with
      | nil => rw [ht] at hword; cases hword.1
      | cons c u =>
        rw [ht] at hword
        have hstart : Text.startsWord c = true := by simpa using hword.1
        simp [Lexeme.opensWord, hstart])
    have hreplaces : ∀ {k : Kind} {v : SqlText} {u : List Cell},
        Replaces (.token (.keyword .BY) sep.text :: cs) (.token k (sep.text ++ v) :: u) := by
      intro k v _
      obtain ⟨c, u, htext, hhead⟩ := Cell.head_of_keyword hfit
      rw [htext] at hword ⊢
      refine .of_word (by simpa using hword.2 c List.mem_cons_self) (by simpa using hword.1) ?_ ?_
      · rintro rfl
        exact absurd hhead (by decide)
      · rintro rfl
        exact absurd hhead (by decide)
    by_cases hcont : (spell ss).head?.any Text.continuesWord = true
    · have hstart : (spell ss).head?.any Text.startsWord = true := by
        cases hs : spell ss with
        | nil => simp [hs] at hcont
        | cons c t =>
          rw [hs] at hcont hin
          simp [Text.staysInWord] at hcont hin
          simpa using hin hcont
      obtain ⟨v, us, rfl, back⟩ := Cell.exists_word h.sound hstart
      obtain ⟨k', hj⟩ := Cell.Joined.of_wordy front hb back h.sound
      exact ⟨_, hj.settles hp (fun k' u hw hm => hp.word k' u hw hm) h, hreplaces⟩
    · refine ⟨_, .keep (front.fits hb (by simpa using hcont)) h, ?_⟩
      have := hreplaces (k := .keyword .BY) (v := []) (u := ss)
      rwa [List.append_nil] at this

theorem harmless {p : Cell → Bool} (hp : Spares p) (hfault : ∀ c, c.isFault = true → p c = false) :
    Woven.Harmless p Swapped where
  settles := by
    rintro X D Y N os ss hsw hs hf h hr
    cases hsw with
    | @spelled _ B sep name expression before named nonempty context source unmarked soft apart =>
      have hsep : sep.cell.Fits (spell (ofGap name.gap ++ name.cell :: Y)) := by
        have := hs.of_append
        rw [List.cons_append, List.append_assoc] at this
        exact (Cell.sound_cons_iff.1 this).1
      have hsepFault : sep.cell.isFault = false := hf _ (by simp)
      -- The expression before what is read behind the name.
      obtain ⟨as, last, hlast, hmem⟩ := Token.exists_stretch_concat nonempty
      have hplain : ∀ c ∈ stretch expression, c.isFault = false := fun c hc => hf c (source c hc)
      rw [hlast] at hplain context
      rw [List.append_assoc, List.singleton_append] at context
      have hlastFault : last.kind.isFault = false := hplain last.cell (by simp)
      have hfit : last.cell.Fits (spell B) := (Cell.sound_cons_iff.1 context.of_append).1
      have soft' := soft.of_replaces hr
      obtain ⟨ss₁, hj⟩ := soft'.joined h.sound hfit hlastFault
      have h₁ := hj.settles hp (fun k' u hw hm => hp.word k' u hw (by rw [hm]; exact unmarked last hmem)) h
      obtain ⟨ss₂, h₂, -⟩ := h₁.tail context (fun c hc => hplain c (by simp [hc])) hfault soft' h.sound hj
      have h₂ : Settles p (stretch expression ++ os) ss₂ := by
        rwa [hlast, List.append_assoc]
      rw [List.cons_append, List.append_assoc]
      by_cases hg : name.gap = []
      · rw [hg] at hsep ⊢
        refine settles_before hp hsep before h₂ fun hby => ?_
        have hin := apart hby hg
        obtain ⟨d, w, hd⟩ := List.exists_cons_of_ne_nil hfit.text_ne_nil
        have hne : spell (stretch expression) ≠ [] := by
          rw [hlast, Cell.spell_append, Cell.spell_cons, hd]
          simp
        obtain ⟨c, u, hc⟩ := List.exists_cons_of_ne_nil hne
        have htext : spell ss₂ = c :: (u ++ spell os) := by
          rw [h₂.spelled, Cell.spell_append, hc]
          rfl
        rw [hc] at hin
        rw [htext]
        exact hin
      · rw [ofGap, if_neg hg] at hsep hs ⊢
        have hgap : (Cell.gap name.gap).Fits (spell (name.cell :: Y)) := by
          rw [List.cons_append] at hs
          exact (Cell.sound_cons_iff.1 (Cell.sound_cons_iff.1 hs.of_append).2).1
        have hrest : spell (name.cell :: Y) ≠ [] := by
          have := (Cell.sound_cons_iff.1 (Cell.sound_cons_iff.1 hs.of_append).2).2
          exact Cell.Sound.spell_ne_nil this
        obtain ⟨ss₃, h₃, hg₃⟩ := h₂.gap hgap hrest
        have hr₃ : Replaces (.gap name.gap :: (name.cell :: Y)) ss₃ := by
          refine ⟨?_, fun _ => .inl hg₃⟩
          rw [h₃.spelled]
          exact hgap.standsIn_gap _ _
        refine h₃.keep_one hs.of_append hsepFault (fun hgap => by cases hgap) ?_
        simpa using hr₃
  ends := by
    rintro X D Y N hsw hn
    cases hsw with
    | spelled => cases hn

/-! ### Where the cells come from -/

variable {X D Y N : List Cell}

theorem Swapped.source (h : Swapped X D Y N) : ∀ c ∈ N, c ∈ X ++ (D ++ Y) := by
  cases h with
  | @spelled _ B sep name expression before named nonempty context source unmarked soft apart =>
    simp only [List.forall_mem_cons, List.forall_mem_append]
    exact ⟨by simp, fun c hc => by simp [hc], source⟩

theorem Swapped.unmarked (h : Swapped X D Y N) :
    N.filter Cell.isMarker = [] ∧ D.filter Cell.isMarker = [] := by
  cases h with
  | @spelled _ B sep name expression before named nonempty context source unmarked soft apart =>
    have hsep : Cell.isMarker sep.cell = false := by
      rcases before with hcomma | hby
      · exact Token.plain_of_isSymbol hcomma _ Cell.spares_isMarker
      · exact Token.plain_of_isKeyword hby _ Cell.spares_isMarker
    have hgap : (ofGap name.gap).filter Cell.isMarker = [] := by
      unfold ofGap
      split
      · rfl
      · rfl
    have hname : Cell.isMarker name.cell = false := by
      show name.kind.isMarker = false
      cases hk : name.kind with
      | identifier n => rfl
      | _ => rw [hk] at named; cases named
    have hexpression : (stretch expression).filter Cell.isMarker = [] := by
      rw [Token.filter_stretch Cell.spares_isMarker.gap]
      refine List.filter_eq_nil_iff.2 fun c hc => ?_
      obtain ⟨t, ht, rfl⟩ := List.mem_map.1 hc
      rw [Bool.not_eq_true]
      exact unmarked t ht
    simp [hsep, hgap, hname, hexpression]

/-! ### The edits -/

theorem bareName?_eq_some {item : List Token} {t : Token} {name : SqlText}
    (h : bareName? item = some (t, name)) :
    t.kind.name? = some name ∧
      (item = [t] ∨ ∃ d, item = [t, d] ∧ (d.isKeyword .ASC = true ∨ d.isKeyword .DESC = true)) := by
  unfold bareName? at h
  split at h
  · obtain ⟨n, hn, he⟩ := Option.map_eq_some_iff.1 h
    obtain ⟨rfl, rfl⟩ := Prod.mk.inj he
    exact ⟨hn, .inl rfl⟩
  · split at h
    · next hd =>
      obtain ⟨n, hn, he⟩ := Option.map_eq_some_iff.1 h
      obtain ⟨rfl, rfl⟩ := Prod.mk.inj he
      exact ⟨hn, .inr ⟨_, rfl, hd⟩⟩
    · cases h
  · cases h

theorem aliased?_eq_some {item expression : List Token} {name : SqlText}
    (h : aliased? name item = some expression) :
    ∃ word last, item = expression ++ [word, last] ∧ expression ≠ [] := by
  unfold aliased? at h
  split at h
  · next last word first more hitem =>
    split at h
    · split at h
      · obtain rfl := Option.some.inj h
        refine ⟨word, last, ?_, by simp⟩
        have := congrArg List.reverse hitem
        simpa using this
      · cases h
    · cases h
  · cases h

/-- What an edit of an ordering is made of. -/
theorem exists_of_mem_scopeEdits {s : Scope} (he : e ∈ scopeEdits s) :
    ∃ ordering item t name expression, s.clause? .ordering = some ordering ∧
      item ∈ Token.splitCommas s.depth ordering.body ∧ bareName? item = some (t, name) ∧
      (∃ selected ∈ s.items, aliased? name selected = some expression) ∧
      canCopy name expression = true ∧ e = ⟨t.span, Token.spell expression⟩ := by
  unfold scopeEdits at he
  split at he
  · cases he
  · next ordering hordering =>
    obtain ⟨item, hitem, hedit⟩ := List.mem_filterMap.1 he
    unfold itemEdit? at hedit
    obtain ⟨⟨t, name⟩, hname, hedit⟩ := Option.bind_eq_some_iff.1 hedit
    obtain ⟨expression, hfind, hedit⟩ := Option.bind_eq_some_iff.1 hedit
    split at hedit
    · next hcopy =>
      exact ⟨ordering, item, t, name, expression, hordering, hitem, hname,
        List.exists_of_findSome?_eq_some hfind, hcopy, (Option.some.inj hedit).symm⟩
    · cases hedit

theorem eq_append_of_item {ordering : Clause} {s : Scope} {item : List Token} {t : Token}
    {name : SqlText} (h : q.IsRead tail) (hs : s ∈ q.scopes)
    (hordering : s.clause? .ordering = some ordering)
    (hitem : item ∈ Token.splitCommas s.depth ordering.body) (hname : bareName? item = some (t, name)) :
    ∃ as sep bs, q.tokens = as ++ sep :: t :: bs ∧
      (sep.isSymbol .comma = true ∨ sep.isKeyword .BY = true) ∧
      ∀ u ∈ bs.head?, u.EndsItem := by
  have hmem : ordering ∈ s.clauses := by
    simpa using List.mem_of_find?_eq_some hordering
  have hkind : ordering.kind = .ordering := by
    simpa using List.find?_some hordering
  obtain ⟨as, bs, hq, hwords, hbs⟩ := h.clause hs hmem
  rw [hkind] at hwords
  generalize hws : ordering.words = ws at hq hwords
  cases hwords with
  | @ordering order by_ word byWord =>
  obtain ⟨us, vs, hbody, hus, hvs⟩ := Token.mem_splitCommas hitem
  -- What stands before the item, and what behind it.
  obtain ⟨us', sep, hsep, hus'⟩ : ∃ us' sep, as ++ [order, by_] ++ us = us' ++ [sep] ∧
      (sep.isSymbol .comma = true ∨ sep.isKeyword .BY = true) := by
    rcases hus with rfl | ⟨us', c, rfl, hc⟩
    · exact ⟨as ++ [order], by_, by simp, .inr byWord⟩
    · exact ⟨as ++ [order, by_] ++ us', c, by simp, .inl (Token.isSymbol_of_isSymbolAt hc)⟩
  have hends : ∀ u ∈ (vs ++ bs).head?, u.EndsItem := by
    intro u hu
    rcases hvs with rfl | ⟨c, vs', rfl, hc⟩
    · exact .inl (hbs u hu)
    · obtain rfl : c = u := by simpa using hu
      exact .inr (.inl (Token.isSymbol_of_isSymbolAt hc))
  have hall : q.tokens = us' ++ sep :: (item ++ (vs ++ bs)) := by
    rw [hq, hbody, List.append_cons us', ← hsep]
    simp
  obtain ⟨-, rfl | ⟨d, rfl, hd⟩⟩ := bareName?_eq_some hname
  · exact ⟨us', sep, vs ++ bs, hall, hus', hends⟩
  · refine ⟨us', sep, d :: (vs ++ bs), hall, hus', fun u hu => ?_⟩
    obtain rfl : d = u := by simpa using hu
    exact .inr (.inr hd)

/-- What an edit of an ordering does: the name between `sep` and `bs` makes room for the expression between `us` and `vs`,
which stands at the start of a select item. -/
structure Copies (q : Query) (e : Edit) (as : List Token) (sep name : Token) (bs us expression vs : List Token) : Prop where
  ordered : q.tokens = as ++ sep :: name :: bs
  before : sep.isSymbol .comma = true ∨ sep.isKeyword .BY = true
  behind : ∀ u ∈ bs.head?, u.EndsItem
  named : name.kind.isIdentifier = true
  selected : q.tokens = us ++ (expression ++ vs)
  starts : ∃ s ∈ q.scopes, ∀ u ∈ us.getLast?,
    u.isSymbol .comma = true ∨ u.isKeyword .SELECT = true ∨ u ∈ s.modifiers.getLast?
  nonempty : expression ≠ []
  unmarked : ∀ t ∈ expression, t.kind.isMarker = false
  edit : e = ⟨name.span, Token.spell expression⟩

theorem exists_copies (h : q.IsRead tail) (he : e ∈ q.scopes.flatMap scopeEdits) :
    ∃ as sep name bs us expression vs, Copies q e as sep name bs us expression vs := by
  obtain ⟨s, hs, hes⟩ := List.mem_flatMap.1 he
  obtain ⟨ordering, item, t, name, expression, hordering, hitem, hname, ⟨selected, hselected, halias⟩,
    hcopy, hedit⟩ := exists_of_mem_scopeEdits hes
  obtain ⟨as, sep, bs, htokens, hsep, hbs⟩ := eq_append_of_item h hs hordering hitem hname
  obtain ⟨word, last, rfl, hnonempty⟩ := aliased?_eq_some halias
  obtain ⟨us, vs, hselect, hus⟩ := h.item hs hselected (by simp)
  rw [canCopy, Bool.and_eq_true, Bool.and_eq_true] at hcopy
  refine ⟨as, sep, t, bs, us, expression, word :: last :: vs, htokens, hsep, hbs, ?_, by simp [hselect],
    ⟨s, hs, hus⟩, hnonempty, fun u hu => ?_, hedit⟩
  · have hk := (bareName?_eq_some hname).1
    cases hkind : t.kind with
    | identifier n => rfl
    | _ => rw [hkind] at hk; cases hk
  · have hnone := hcopy.1.1
    rw [Bool.not_eq_true', List.any_eq_false] at hnone
    simpa using hnone u hu

/-- The copy of an expression is a swap. -/
theorem Copies.swapped {as bs us expression vs : List Token} {sep name : Token} (h : q.IsRead tail)
    (hc : Copies q e as sep name bs us expression vs) (he : e ∈ q.scopes.flatMap scopeEdits) (hq : DigitsApart q) :
    Swapped (Token.cells as ++ ofGap sep.gap) (sep.cell :: (ofGap name.gap ++ [name.cell])) (Token.cells bs ++ tail)
      (sep.cell :: (ofGap name.gap ++ stretch expression)) := by
  obtain ⟨first, others, rfl⟩ := List.exists_cons_of_ne_nil hc.nonempty
  obtain ⟨hsource, -⟩ := h.split hc.selected
  have hcontext := h.sound
  rw [hsource] at hcontext
  have hall : Token.cells q.tokens ++ tail = (Token.cells as ++ ofGap sep.gap) ++
      (sep.cell :: (ofGap name.gap ++ [name.cell]) ++ (Token.cells bs ++ tail)) := by
    rw [hc.ordered]
    simp
  refine .spelled hc.before hc.named hc.nonempty hcontext.of_append ?_ hc.unmarked ?_ ?_
  · intro c hc
    rw [← hall, hsource]
    simp only [List.mem_append] at hc ⊢
    exact .inr (.inl hc)
  · exact h.soft (show q.tokens = (as ++ [sep, name]) ++ bs by rw [hc.ordered]; simp) hc.behind
  · intro hby hgap
    refine Bool.eq_false_iff.2 fun hdigit => ?_
    rw [Token.spell_stretch] at hdigit
    obtain ⟨-, hstart, -⟩ := h.split_one
      (show q.tokens = (as ++ [sep]) ++ name :: bs by rw [hc.ordered]; simp)
    obtain ⟨-, -, hsepStop⟩ := h.split_one hc.ordered
    refine hq e he (by rwa [hc.edit]) sep (by rw [hc.ordered]; simp) hby ?_
    rw [hsepStop, hc.edit]
    show _ = name.start
    rw [hstart, hgap]
    simp

/-- Edits swap whole cells, in any way that their copies do. -/
theorem isSwap {R : Swap} (h : q.IsRead tail) (he : e ∈ q.scopes.flatMap scopeEdits)
    (hR : ∀ {as bs us expression vs : List Token} {sep name : Token}, Copies q e as sep name bs us expression vs →
      R (Token.cells as ++ ofGap sep.gap) (sep.cell :: (ofGap name.gap ++ [name.cell])) (Token.cells bs ++ tail)
        (sep.cell :: (ofGap name.gap ++ stretch expression))) :
    e.IsSwap R stays (Token.cells q.tokens ++ tail) := by
  obtain ⟨as, sep, t, bs, us, expression, vs, hc⟩ := exists_copies h he
  obtain ⟨-, hstart, hstop⟩ := h.split_one
    (show q.tokens = (as ++ [sep]) ++ t :: bs by rw [hc.ordered]; simp)
  have hedit := hc.edit
  subst hedit
  refine ⟨Token.cells as ++ ofGap sep.gap, sep.cell :: ofGap t.gap, [t.cell], Token.cells bs ++ tail, stretch expression,
    ?_, ?_, ?_, ?_, (Token.spell_stretch expression).symm, ?_, ?_⟩
  · simpa using hR hc
  · rw [hc.ordered]
    simp
  · rw [show t.span.start = t.start from rfl, hstart]
    simp
  · rw [show t.span.stop = t.stop from rfl, hstop]
    simp
  · intro c hmem
    have hmem' : c = sep.cell ∨ c ∈ ofGap t.gap := by simpa using hmem
    rcases hmem' with rfl | hmem'
    · show (sep.kind.isSymbol .comma || sep.kind.isKeyword .BY) = true
      rw [Bool.or_eq_true]
      exact hc.before
    · unfold ofGap at hmem'
      split at hmem'
      · cases hmem'
      · obtain rfl := List.mem_singleton.1 hmem'
        rfl
  · have hnamed := hc.named
    rw [← List.append_assoc, List.getLast?_concat]
    show stays t.cell = false
    cases hkind : t.kind with
    | identifier n => simp [stays, Token.cell, hkind, Kind.isSymbol, Kind.isKeyword]
    | _ => rw [hkind] at hnamed; cases hnamed

theorem makes {text out : SqlText} (h : spellOut text = .ok out)
    (apart : ∀ q, Query.ofText text = .ok q → DigitsApart q) : Swap.Makes Swapped text out := by
  obtain ⟨q, hq, h⟩ := Except.bind_eq_ok h
  exact Query.makes hq stays (fun tail hread e he => isSwap hread he fun hc => hc.swapped hread he (apart q hq)) h

end JetAdapter.OrderAlias
