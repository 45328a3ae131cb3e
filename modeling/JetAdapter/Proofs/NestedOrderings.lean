import JetAdapter.Proofs.Excerpts
import JetAdapter.Proofs.NestEdits
import JetAdapter.Proofs.Partition
import JetAdapter.Proofs.Spacing

/-!
# Orderings inside each other

In a text of selections that is set apart by gaps all aliases are spelled out as `Nest.spelledOut` says, and the outcome
is the same if the scopes are treated one by one, in any order, each in a text that is read again
(`spellOut_eq_spelled`).  No token runs into another one (`Lexeme.lexed_append`), so what comes out is a text of selections
again, with the expressions in the place of their aliases.
-/

namespace JetAdapter

open Edit (Patches)

namespace Lexeme

variable {l m : Lexeme} {ls ms : List Lexeme} {rest : SqlText}

/-! ### Tokens set apart -/

/-- Whether nothing runs into the token from before: behind another one it has a gap, and none that starts with the
comment that a minus opens. -/
def isApart (l : Lexeme) : Bool :=
  (l.kind = .eof || l.gap ≠ []) && l.gap.head? != some '-'

/-- Whether the token and the gap before it are sound by themselves. -/
structure IsWhole (l : Lexeme) : Prop where
  token : (Cell.token l.kind l.text).IsWhole
  gap : l.gap = [] ∨ (Cell.gap l.gap).IsWhole

theorem Lexed.isWhole (h : Lexed ls) (hf : ∀ l ∈ ls, l.kind.isFault = false) : ∀ l ∈ ls.dropLast, l.IsWhole := by
  induction h with
  | last ends => exact List.forall_mem_nil _
  | @cons l ls fits rest ih =>
    obtain ⟨hl, hls⟩ := List.forall_mem_cons.1 hf
    obtain ⟨m, ms, rfl⟩ := List.exists_cons_of_ne_nil rest.ne_nil
    rw [List.dropLast_cons_cons, List.forall_mem_cons]
    refine ⟨⟨?_, ?_⟩, ih hls⟩
    · have htoken : (Cell.token l.kind l.text).Fits _ := fits.withoutGap
      exact htoken.alone hl
    · by_cases hgap : l.gap = []
      · exact .inl hgap
      · exact .inr ⟨hgap, _, fits.ne_nil, fits.1⟩

/-- A whole token stays one before tokens that are set apart from it. -/
theorem IsWhole.fits (h : l.IsWhole) (hrest : Lexed (m :: ms)) (hm : m.isApart = true) : l.Fits (spell (m :: ms)) := by
  obtain ⟨htoken, hgap⟩ := h
  simp only [isApart, Bool.and_eq_true, Bool.or_eq_true, decide_eq_true_eq, bne_iff_ne] at hm
  rw [spell_cons]
  -- the token by itself
  have hfits : (Cell.token l.kind l.text).Fits (m.gap ++ (m.text ++ spell ms)) := by
    by_cases hnil : m.gap = []
    · cases hrest with
      | last ends =>
        rw [hnil, ends.2.1]
        exact htoken.2
      | cons fits =>
        rcases hm.1 with heof | hne
        · exact absurd heof fits.kind_ne_eof
        · exact absurd hnil hne
    · have hgap : (Cell.gap m.gap).Fits (m.text ++ spell ms) := by
        refine ⟨hnil, ?_⟩
        cases hrest with
        | last ends =>
          rw [ends.2.1]
          simpa using ends.2.2
        | cons fits => exact fits.1
      exact htoken.fits_before_gap hgap hm.2 _
  -- and behind its gap
  have htoken : Fits { l with gap := [] } (m.gap ++ (m.text ++ spell ms)) := hfits
  rcases hgap with hnil | hgap
  · exact htoken.regap (by rw [hnil]; exact htoken.1)
  · exact htoken.regap (hgap.fits_gap htoken.bare).2

/-- Whole tokens that are set apart are what their text is cut into. -/
theorem lexed_append (hls : ∀ l ∈ ls, l.IsWhole) (hms : Lexed ms) (happart : ∀ l ∈ (ls ++ ms).tail, l.isApart = true) :
    Lexed (ls ++ ms) := by
  induction ls with
  | nil => exact hms
  | cons l ls ih =>
    obtain ⟨hl, hls⟩ := List.forall_mem_cons.1 hls
    rw [List.cons_append, List.tail_cons] at happart
    have hrest := ih hls fun m hm => happart m (List.mem_of_mem_tail hm)
    obtain ⟨m, ms', hm⟩ := List.exists_cons_of_ne_nil hrest.ne_nil
    have hfits : l.Fits (spell (ls ++ ms)) := by
      rw [hm] at happart hrest ⊢
      exact hl.fits hrest (happart m List.mem_cons_self)
    exact .cons hfits hrest

theorem spell_flatMap_cells (ls : List Lexeme) : Cell.spell (ls.flatMap cells) = spell ls := by
  induction ls with
  | nil => rfl
  | cons l ls ih => rw [List.flatMap_cons, Cell.spell_append, spell_cells, ih, spell_cons, List.append_assoc]

end Lexeme

namespace OrderAlias

open Nest (Reads spelled)

/-! ### Texts of selections -/

/-- Whether lexemes are the end of a text, with a semicolon before it or without. -/
def isEnd : List Lexeme → Bool
  | [_] => true
  | [semicolon, _] => semicolon.isSymbol .semicolon
  | _ => false

/-- Whether a text is one of selections: its tokens are those of a nest, up to the end, and set apart by gaps. -/
structure IsText (p : Nest) (ends : List Lexeme) (text : SqlText) : Prop where
  lexemes : lex text = p.lexemes ++ ends
  isProper : p.isProper = true
  isEnd : isEnd ends = true
  isApart : ∀ l ∈ (p.lexemes ++ ends).tail, l.isApart = true

variable {p : Nest} {ends : List Lexeme} {text : SqlText} {l : Lexeme} {on : Nat → Bool}

theorem Nest.isFault_eq_false (hp : p.isProper = true) : ∀ l ∈ p.lexemes, l.kind.isFault = false := by
  have hfree : ∀ {ls : List Lexeme}, (∀ l ∈ ls, l.isFree = true) → ∀ l ∈ ls, l.kind.isFault = false :=
    fun h l hl => (Lexeme.isFree_iff.1 (h l hl)).1
  induction p with
  | nil => exact List.forall_mem_nil _
  | leaf l rest ih =>
    obtain ⟨hl, hrest⟩ := isProper_leaf_iff.1 hp
    exact List.forall_mem_cons.2 ⟨(Lexeme.isFree_iff.1 hl).1, ih hrest⟩
  | group opening inside closing rest ihInside ih =>
    obtain ⟨hopening, hclosing, hinside, hrest⟩ := isProper_group_iff.1 hp
    simp only [Nest.lexemes, List.forall_mem_cons, List.forall_mem_append]
    refine ⟨?_, ihInside hinside, ?_, ih hrest⟩
    · rw [Lexeme.isSymbol_iff.1 hopening]
      rfl
    · rw [Lexeme.isSymbol_iff.1 hclosing]
      rfl
  | select word modifiers list clauses words items ihList ihClauses ihItems =>
    obtain ⟨hselect, hlist, hclauses, hitems⟩ := isProper_select_iff.1 hp
    simp only [Nest.lexemes, List.forall_mem_cons, List.forall_mem_append]
    refine ⟨?_, hfree fun l hl => (isFree_of_areModifiers hselect.modifiers l hl).1, ihList hlist, ihClauses hclauses,
      hfree (isFree_of_areWords hselect.words), ihItems hitems⟩
    rw [Lexeme.isKeyword_iff.1 hselect.word]
    rfl

/-- The end of a text: the last lexeme, and a semicolon at most before it. -/
theorem eq_of_isEnd (h : isEnd ends = true) :
    ∃ front last, ends = front ++ [last] ∧ (front = [] ∨ ∃ s, front = [s] ∧ s.kind = .symbol .semicolon) := by
  rcases ends with _ | ⟨s, _ | ⟨e, _ | ⟨more, ends⟩⟩⟩
  · cases h
  · exact ⟨[], s, rfl, .inl rfl⟩
  · exact ⟨[s], e, rfl, .inr ⟨s, rfl, Lexeme.isSymbol_iff.1 h⟩⟩
  · cases h

/-- **A text of selections is read as its nest.** -/
theorem IsText.exists_reads (h : IsText p ends text) :
    ∃ q tail ts bs, Query.ofText text = .ok q ∧ q.text = text ∧ q.IsRead tail ∧ q.tokens = ts ++ bs ∧ Reads 0 p ts ∧
      (∀ u ∈ bs.head?, Scope.reaches 0 u = false) ∧ Scope.among q.stop bs = [] := by
  obtain ⟨front, last, hends, hfront⟩ := eq_of_isEnd h.isEnd
  have hlexemes := h.lexemes
  rw [hends, ← List.append_assoc] at hlexemes
  have hlast : last.kind = .eof := by
    have hlexed := Lexeme.lexed_lex text
    rw [hlexemes] at hlexed
    obtain ⟨front', last', heq, heof, -⟩ := hlexed.eq_concat
    obtain ⟨rfl, -⟩ := List.cons.inj (List.append_inj' heq rfl).2
    exact heof
  -- the text is read, for nothing is wrong with its tokens
  obtain ⟨q, hq⟩ : ∃ q, Query.ofText text = .ok q := by
    refine (Query.ofText_isOk_iff text).2 ⟨?_, ?_⟩
    · rw [hlexemes]
      simp only [List.forall_mem_append, List.forall_mem_singleton]
      refine ⟨⟨Nest.isFault_eq_false h.isProper, ?_⟩, by rw [hlast]; rfl⟩
      rcases hfront with rfl | ⟨s, rfl, hs⟩
      · exact List.forall_mem_nil _
      · exact List.forall_mem_singleton.2 (by rw [hs]; rfl)
    · rw [hlexemes, List.append_assoc, List.map_append]
      refine (Nest.balanced h.isProper).append ?_
      rcases hfront with rfl | ⟨s, rfl, hs⟩
      · exact .plain (by rw [hlast]; simp) (by rw [hlast]; simp) .nil
      · exact .plain (by rw [hs]; simp) (by rw [hs]; simp) (.plain (by rw [hlast]; simp) (by rw [hlast]; simp) .nil)
  obtain ⟨rfl, tail, hread⟩ := Query.isRead hq
  -- its tokens are the lexemes before the last one
  have htokens : q.tokens.map (·.toLexeme) = p.lexemes ++ front := by
    have hlex := hread.lex_eq
    rw [hlexemes] at hlex
    exact ((List.append_inj' hlex rfl).1).symm
  obtain ⟨ts, bs, htokens', hts, hbs⟩ := List.map_eq_append_iff.1 htokens
  have hlevel : Token.Level 0 q.tokens := ⟨Token.nested_iff_run.1 hread.nested, fun t _ => Nat.zero_le _⟩
  have hbalanced : Balanced (ts.map (·.kind)) := by
    have hkinds := Nest.balanced h.isProper
    rw [← hts, List.map_map] at hkinds
    exact hkinds
  rw [htokens'] at hlevel
  obtain ⟨hlts, hlbs⟩ := hlevel.split_balanced hbalanced
  -- a semicolon ends the selection around it
  have hsemicolon : bs = [] ∨ ∃ u, bs = [u] ∧ u.kind = .symbol .semicolon ∧ u.depth = 0 := by
    rcases hfront with rfl | ⟨s, rfl, hs⟩
    · exact .inl (List.map_eq_nil_iff.1 hbs)
    · obtain ⟨u, us, rfl, rfl, hus⟩ := List.map_eq_cons_iff.1 hbs
      obtain rfl := List.map_eq_nil_iff.1 hus
      exact .inr ⟨u, rfl, hs, hlbs.depth_first⟩
  refine ⟨q, tail, ts, bs, hq, rfl, hread, htokens', Nest.reads_of_level h.isProper hlts hts, ?_, ?_⟩
  · rcases hsemicolon with rfl | ⟨u, rfl, hu, hd⟩
    · simp
    · simp [Scope.reaches, hd, Token.isSymbol, Kind.isSymbol, hu]
  · rcases hsemicolon with rfl | ⟨u, rfl, hu, -⟩
    · rfl
    · rw [among_cons_of_not (by simp [Token.isKeyword, Kind.isKeyword, hu])]
      rfl

/-! ### The translation of a text -/

theorem IsText.ends_ne_nil (h : IsText p ends text) : ends ≠ [] := by
  obtain ⟨front, last, rfl, -⟩ := eq_of_isEnd h.isEnd
  simp

/-- The end of the text is no token of the nest. -/
theorem IsText.kind_ne_eof (h : IsText p ends text) : ∀ l ∈ p.lexemes, l.kind ≠ .eof := by
  obtain ⟨front, last, hends, -⟩ := eq_of_isEnd h.isEnd
  obtain ⟨front', last', heq, -, -, hkinds⟩ := (Lexeme.lexed_lex text).eq_concat
  rw [h.lexemes, hends, ← List.append_assoc] at heq
  obtain rfl := (List.append_inj' heq rfl).1
  exact fun l hl => (hkinds l (List.mem_append_left front hl)).1

/-- What is true of the tokens set apart is true of an expression in the place of a name. -/
theorem isWhole_regap {m : Lexeme} (hl : l.IsWhole ∧ l.isApart = true ∧ l.gap ≠ []) (hm : m.IsWhole) :
    Lexeme.IsWhole { m with gap := l.gap } ∧ Lexeme.isApart { m with gap := l.gap } = true ∧ l.gap ≠ [] := by
  obtain ⟨⟨-, hgap⟩, hapart, hne⟩ := hl
  refine ⟨⟨hm.token, hgap⟩, ?_, hne⟩
  simp only [Lexeme.isApart, Bool.and_eq_true] at hapart ⊢
  exact ⟨by simp [hne], hapart.2⟩

/-- What comes out when some aliases are spelled out is cut into its tokens, and they are set apart. -/
theorem IsText.lexed_spelled (h : IsText p ends text) (on : Nat → Bool) :
    Lexeme.Lexed ((spelled on [] false 0 p).lexemes ++ ends) ∧
      ∀ l ∈ ((spelled on [] false 0 p).lexemes ++ ends).tail, l.isApart = true := by
  have hlexed := Lexeme.lexed_lex text
  obtain ⟨q, tail, ts, bs, hq, -⟩ := h.exists_reads
  have hwhole := hlexed.isWhole ((Query.ofText_isOk_iff text).1 ⟨q, hq⟩).1
  rw [h.lexemes] at hlexed hwhole
  rw [List.dropLast_append_of_ne_nil h.ends_ne_nil] at hwhole
  have hapart := h.isApart
  cases hp : p.lexemes with
  | nil =>
    obtain rfl := Nest.lexemes_eq_nil_iff.1 hp
    exact ⟨hlexed, hapart⟩
  | cons l ls =>
    rw [hp, List.cons_append, List.tail_cons, List.forall_mem_append] at hapart
    rw [hp, List.cons_append, List.forall_mem_cons, List.forall_mem_append] at hwhole
    -- only the end of the text has no gap and is set apart
    have hgap : ∀ l' ∈ ls, l'.gap ≠ [] := by
      intro l' hl'
      have heof := h.kind_ne_eof l' (by rw [hp]; exact List.mem_cons_of_mem l hl')
      have hl := hapart.1 l' hl'
      simp only [Lexeme.isApart, Bool.and_eq_true, Bool.or_eq_true, decide_eq_true_eq] at hl
      exact hl.1.resolve_left heof
    obtain ⟨ls', hls', hothers⟩ := Nest.exists_lexemes_spelled (fun l l' hl hl' => isWhole_regap hl hl'.1) hp
      (fun l' hl' => ⟨hwhole.2.1 l' hl', hapart.1 l' hl', hgap l' hl'⟩) on false 0
    rw [hls']
    have htail : ∀ l' ∈ ((l :: ls') ++ ends).tail, l'.isApart = true :=
      List.forall_mem_append.2 ⟨fun l' hl' => (hothers l' hl').2.1, hapart.2⟩
    refine ⟨Lexeme.lexed_append ?_ (hlexed.of_append h.ends_ne_nil) htail, htail⟩
    exact List.forall_mem_cons.2 ⟨hwhole.1, fun l' hl' => (hothers l' hl').1⟩

/-- **Spelling out the aliases of some scopes makes the translation**, and this is a text of selections again. -/
theorem IsText.applied (h : IsText p ends text) (on : Nat → Bool) :
    ∃ q out, Query.ofText text = .ok q ∧ q.scopes.length = p.selects ∧
      Edit.applyAll (chosen on 0 q.scopes) text = .ok out ∧ IsText (spelled on [] false 0 p) ends out := by
  obtain ⟨q, tail, ts, bs, hq, rfl, hread, htokens, hreads, hbs, hamong⟩ := h.exists_reads
  have hall : q.tokens = [] ++ (ts ++ bs) := htokens
  obtain ⟨ss, es, hss, hlength, hpatches, hperm⟩ :=
    exists_edits hreads h.isProper (.nil 0) hread hall (.inr ⟨rfl, hbs⟩) on false 0
  have hscopes : q.scopes = ss := by
    rw [Query.scopes, htokens, hss, hamong, List.append_nil]
  rw [itemEdits_nil, List.nil_append, ← hscopes] at hperm
  have hpatched : Patches Replaced [] [] (Token.cells q.tokens ++ tail) (es ++ [])
      ((spelled on [] false 0 p).cells ++ (Token.cells bs ++ tail)) := by
    rw [htokens, Token.cells_append, List.append_assoc]
    exact .append (by simpa using hpatches) (.refl _ _)
  rw [List.append_nil] at hpatched
  have happlied := hpatched.applyAll_eq (fun h => h) hread.sound hperm
  -- behind the nest all stays
  have hends : Cell.spell (Token.cells bs ++ tail) = Lexeme.spell ends := by
    have htext := spell_lex q.text
    rw [h.lexemes, Lexeme.spell_append, ← hread.spell, htokens, Token.cells_append, List.append_assoc, Cell.spell_append,
      cells_eq, hreads.lexemes, Lexeme.spell_flatMap_cells] at htext
    exact (List.append_cancel_left htext).symm
  rw [hread.spell, Cell.spell_append, hends, Nest.cells, Lexeme.spell_flatMap_cells, ← Lexeme.spell_append] at happlied
  obtain ⟨hlexed, hapart⟩ := h.lexed_spelled on
  exact ⟨q, _, hq, by rw [hscopes, hlength], happlied, hlexed.lex_spell,
    Nest.isProper_spelled h.isProper .nil on false 0, h.isEnd, hapart⟩

/-! ### One scope after another -/

/-- Replaces the aliases in the ordering of one scope, which has the number `i` in the order of the `SELECT`s. -/
def spellOutAt (i : Nat) (text : SqlText) : Except SqlError SqlText := do
  let q ← Query.ofText text
  Edit.applyAll (q.scopes[i]?.toList.flatMap scopeEdits) text

theorem IsText.spellOut (h : IsText p ends text) :
    ∃ out, OrderAlias.spellOut text = .ok out ∧ IsText p.spelledOut ends out := by
  obtain ⟨q, out, hq, -, happlied, hout⟩ := h.applied fun _ => true
  rw [chosen_true] at happlied
  refine ⟨out, ?_, hout⟩
  rw [OrderAlias.spellOut, hq]
  exact happlied

/-- One scope is treated without regard to the others. -/
theorem IsText.spellOutAt (h : IsText p ends text) (i : Nat) :
    ∃ out, OrderAlias.spellOutAt i text = .ok out ∧ IsText (spelled (fun j => j == i) [] false 0 p) ends out := by
  obtain ⟨q, out, hq, -, happlied, hout⟩ := h.applied fun j => j == i
  have hone := chosen_one 0 i q.scopes
  rw [Nat.zero_add] at hone
  rw [hone] at happlied
  refine ⟨out, ?_, hout⟩
  rw [OrderAlias.spellOutAt, hq]
  exact happlied

/-- After a run over some scopes, the aliases are spelled out in these and in the ones before. -/
theorem IsText.run {is : List Nat} (h : IsText (spelled on [] false 0 p) ends text) (his : is.Nodup)
    (hon : ∀ i ∈ is, on i = false) :
    ∃ out, is.foldlM (fun text i => OrderAlias.spellOutAt i text) text = .ok out ∧
      IsText (spelled (fun i => on i || is.contains i) [] false 0 p) ends out := by
  induction is generalizing on text with
  | nil => exact ⟨text, rfl, by simpa using h⟩
  | cons i is ih =>
    obtain ⟨hi, his⟩ := List.nodup_cons.1 his
    obtain ⟨hnot, hon⟩ := List.forall_mem_cons.1 hon
    obtain ⟨next, hnext, hstep⟩ := h.spellOutAt i
    rw [Nest.spelled_spelled (fun j hj => ?_) (.inl ⟨rfl, rfl⟩)] at hstep
    · have hothers : ∀ j ∈ is, (on j || j == i) = false := by
        intro j hj
        have hne : j ≠ i := fun h => hi (h ▸ hj)
        simp [hon j hj, hne]
      obtain ⟨out, hout, hrun⟩ := ih hstep his hothers
      have hunion : (fun j => on j || (i :: is).contains j) = fun j => on j || j == i || is.contains j := by
        funext j
        rw [List.contains_cons, Bool.or_assoc]
      refine ⟨out, ?_, by rwa [hunion]⟩
      rw [List.foldlM_cons, hnext]
      exact hout
    · rw [beq_eq_false_iff_ne]
      rintro rfl
      rw [hnot] at hj
      cases hj

/-- **The aliases in the orderings of all scopes are spelled out, each in the ordering of its own scope.**  To treat the
scopes one by one, in any order, each in a text that is read again, makes the same text. -/
theorem spellOut_eq_spelled (h : IsText p ends text) :
    ∃ q out, Query.ofText text = .ok q ∧ q.scopes.length = p.selects ∧ spellOut text = .ok out ∧
      lex out = p.spelledOut.lexemes ++ ends ∧
      ∀ is : List Nat, is.Perm (List.range q.scopes.length) →
        is.foldlM (fun text i => spellOutAt i text) text = .ok out := by
  obtain ⟨q, -, hq, hlength, -⟩ := h.applied fun _ => true
  obtain ⟨out, hout, htext⟩ := h.spellOut
  refine ⟨q, out, hq, hlength, hout, htext.lexemes, fun is his => ?_⟩
  rw [hlength] at his
  have hnone : IsText (spelled (fun _ => false) [] false 0 p) ends text := by
    rwa [Nest.spelled_of_none fun _ _ _ => rfl]
  obtain ⟨out', hout', htext'⟩ := hnone.run (his.nodup_iff.2 List.nodup_range) fun _ _ => rfl
  have hall : spelled (fun i => false || is.contains i) [] false 0 p = p.spelledOut := by
    refine Nest.spelled_congr (fun i _ hi => ?_) [] false
    rw [Bool.false_or, List.contains_iff_mem, his.mem_iff]
    exact List.mem_range.2 (by omega)
  rw [hall] at htext'
  rw [hout', ← spell_lex out', htext'.lexemes, ← htext.lexemes, spell_lex]

/-- The tokens of a text, each a nest by itself. -/
def leaves (text : String) : Nest :=
  (lex text.toList).dropLast.foldr .leaf .nil

/-- Two orderings by aliases, one of them in the list of the selection around it. -/
def nested : Nest :=
  .select ⟨.keyword .SELECT, [], "SELECT".toList⟩ []
    (.group ⟨.symbol .leftParen, [' '], ['(']⟩
      (.select ⟨.keyword .SELECT, [' '], "SELECT".toList⟩ [] (leaves " c AS m") (leaves " FROM U")
        (leaves " ORDER BY").lexemes (leaves " m"))
      ⟨.symbol .rightParen, [' '], [')']⟩ (leaves " AS x , a + b AS total"))
    (leaves " FROM T") (leaves " ORDER BY").lexemes (leaves " Total DESC , x")

/-- An expression that holds a selection stays where it is, and the ordering inside it is one by itself. -/
theorem spellOut_eq_spelled_nested :
    IsText nested [⟨.eof, [], []⟩]
      "SELECT ( SELECT c AS m FROM U ORDER BY m ) AS x , a + b AS total FROM T ORDER BY Total DESC , x".toList ∧
    Lexeme.spell nested.spelledOut.lexemes =
      "SELECT ( SELECT c AS m FROM U ORDER BY c ) AS x , a + b AS total FROM T ORDER BY a + b DESC , x".toList ∧
    ∃ q out, Query.ofText
        "SELECT ( SELECT c AS m FROM U ORDER BY m ) AS x , a + b AS total FROM T ORDER BY Total DESC , x".toList = .ok q ∧
      q.scopes.length = nested.selects ∧
      spellOut "SELECT ( SELECT c AS m FROM U ORDER BY m ) AS x , a + b AS total FROM T ORDER BY Total DESC , x".toList =
        .ok out ∧
      lex out = nested.spelledOut.lexemes ++ [⟨.eof, [], []⟩] ∧
      ∀ is : List Nat, is.Perm (List.range q.scopes.length) →
        is.foldlM (fun text i => spellOutAt i text)
          "SELECT ( SELECT c AS m FROM U ORDER BY m ) AS x , a + b AS total FROM T ORDER BY Total DESC , x".toList =
            .ok out := by
  have htext : IsText nested [⟨.eof, [], []⟩]
      "SELECT ( SELECT c AS m FROM U ORDER BY m ) AS x , a + b AS total FROM T ORDER BY Total DESC , x".toList := {
    lexemes := by decide +kernel
    isProper := by decide +kernel
    isEnd := by decide +kernel
    isApart := by decide +kernel }
  exact ⟨htext, by decide +kernel, spellOut_eq_spelled htext⟩

end OrderAlias

end JetAdapter
