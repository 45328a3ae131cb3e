import JetAdapter.Proofs.Conditionals

/-!
# Conditional expressions inside each other

The rule for `CASE` works on the last one of a text as it stands, and then on the last one of what comes out.  The last one
has no other one inside, so its words are those that the rule finds by their depth alone, and what it makes of it is the
nest of calls for its arms (`caseText_of_reads`).  One round leaves the nests of the whole as they are
(`Phrase.endsWithCase`), and a conditional expression that is refused stays until it is the last one.
-/

namespace JetAdapter.Conditional

open Token (Reads)
open Cell (spell)

variable {operand : Phrase} {arms : Arms} {ts us as bs : List Token} {d : Nat} {cs : List Cell}

/-! ### Reading phrases -/

theorem not_case_of_reads (h : Reads d cs ts) (hr : Resolved cs) : ∀ t ∈ ts, t.isKeyword .CASE = false := by
  intro t ht
  rw [← isOpening_cell]
  refine hr _ ?_
  rw [← h.cells]
  exact List.mem_map_of_mem ht

/-- What starts no conditional expression has no words of one. -/
theorem not_keyword_of_reads {p : Phrase} {k : Keyword} (h : Reads d p.cells ts) (hr : Resolved p.cells)
    (hk : isFraming (.keyword k) = true) : ∀ t ∈ ts, t.isKeyword k = false := by
  intro t ht
  have hplain := p.isPlain_of_resolved hr t.cell (by rw [← h.cells]; exact List.mem_map_of_mem ht)
  rw [Token.isKeyword, Kind.isKeyword, decide_eq_false_iff_not]
  intro hkind
  rw [Token.cell, isPlain, hkind, hk] at hplain
  cases hplain

theorem not_keywordAt {k : Keyword} (h : ∀ t ∈ ts, t.isKeyword k = false) : ∀ t ∈ ts, t.isKeywordAt d k = false := by
  intro t ht
  rw [Token.isKeywordAt, h t ht, Bool.and_false]

theorem ne_nil_of_reads {p : Phrase} (h : Reads d p.cells ts) (hp : p ≠ .nil) : ts ≠ [] := by
  rintro rfl
  exact hp (Phrase.cells_eq_nil_iff.1 h.cells.symm)

/-- A word that frames a part. -/
theorem reads_word {k : Keyword} {w : SqlText} (h : Reads d (.token (.keyword k) w :: cs) ts) :
    ∃ t us, ts = t :: us ∧ t.cell = .token (.keyword k) w ∧ t.isKeywordAt d k = true ∧ t.depth = d ∧ Reads d cs us := by
  obtain ⟨t, us, rfl, hk, hw, hd, hus⟩ := Reads.cons h nofun nofun
  refine ⟨t, us, rfl, by rw [Token.cell, hk, hw], ?_, hd, hus⟩
  simp [Token.isKeywordAt, Token.isKeyword, Kind.isKeyword, hk, hd]

theorem not_keyword_of_at {t : Token} {k k' : Keyword} (h : t.isKeywordAt d k = true) (hne : k ≠ k') :
    t.isKeyword k' = false :=
  JoinChain.isKeyword_eq_false_of_ne (Token.isKeyword_of_isKeywordAt h) hne

/-! ### Words in their places -/

theorem filter_comparandCells (ts : List Token) :
    (comparandCells ts).filter Cell.isToken = sideOf (ts.map Token.cell) := by
  unfold comparandCells sideOf
  rw [List.length_map]
  split
  · rw [Token.filter_isToken_stretch]
  · simp [Cell.isToken, Cell.isGap, Cell.sign]

theorem filter_conditionCells (operand : List Token) (b : Branch) :
    (conditionCells operand b).filter Cell.isToken = conditionOf (operand.map Token.cell) (b.condition.map Token.cell) := by
  cases operand with
  | nil => exact Token.filter_isToken_stretch _
  | cons t ts => simp [conditionCells, conditionOf, filter_comparandCells, Cell.isToken, Cell.isGap, Cell.space, equals]

/-- The tokens of a call. -/
theorem filter_callCells (operand : List Token) (b : Branch) (inner : List Cell) :
    (callCells operand b inner).filter Cell.isToken = callOf (operand.map Token.cell) (b.condition.map Token.cell)
      (b.result.map Token.cell) (inner.filter Cell.isToken) := by
  simp [callCells, callOf, filter_conditionCells, Cell.isToken, Cell.isGap, Cell.space, Cell.sign, Cell.word]

/-- What follows the last `WHEN` is the last branch. -/
theorem branches_last {condition result : List Token} {thenWord : Token} (hc : condition ≠ []) (hr : result ≠ [])
    (hcondition : ∀ t ∈ condition, t.isKeywordAt d .THEN = false) (hthen : thenWord.isKeywordAt d .THEN = true)
    (hresult : ∀ t ∈ result, t.isKeywordAt d .WHEN = false) :
    branches d (condition ++ thenWord :: result) = .ok [⟨condition, result⟩] := by
  have hsplit := Token.splitFirst_append_of_not (b := result) hcondition hthen
  have hnone := Token.splitFirst_of_not hresult
  rw [branches]
  split
  · next hs => rw [hsplit] at hs; cases hs
  · next hs =>
    rw [hsplit] at hs
    cases hs
    split
    · rw [if_neg (by simp [hc, hr])]
    · next hs => rw [hnone] at hs; cases hs

/-- What follows another `WHEN` is a branch, and the branches behind the next one. -/
theorem branches_cons {condition result : List Token} {thenWord whenWord : Token} (hc : condition ≠ []) (hr : result ≠ [])
    (hcondition : ∀ t ∈ condition, t.isKeywordAt d .THEN = false) (hthen : thenWord.isKeywordAt d .THEN = true)
    (hresult : ∀ t ∈ result, t.isKeywordAt d .WHEN = false) (hwhen : whenWord.isKeywordAt d .WHEN = true)
    {others : List Branch} (ho : branches d ts = .ok others) :
    branches d (condition ++ thenWord :: (result ++ whenWord :: ts)) = .ok (⟨condition, result⟩ :: others) := by
  have hsplit := Token.splitFirst_append_of_not (b := result ++ whenWord :: ts) hcondition hthen
  have hnext := Token.splitFirst_append_of_not (b := ts) hresult hwhen
  rw [branches]
  split
  · next hs => rw [hsplit] at hs; cases hs
  · next hs =>
    rw [hsplit] at hs
    cases hs
    split
    · next hs => rw [hnext] at hs; cases hs
    · next hs =>
      rw [hnext] at hs
      cases hs
      rw [if_neg (by simp [hc, hr]), ho]
      rfl

/-- The arms of a conditional expression are read as branches, with what applies where none does behind them. -/
theorem Arms.exists_branches : ∀ (arms : Arms) {d : Nat} {ts : List Token}, arms.Proper → Resolved arms.cells →
    0 < arms.count → Reads d arms.cells ts → ∃ whenWord us rest bs otherwise, ts = whenWord :: (us ++ rest) ∧
      whenWord.isKeywordAt d .WHEN = true ∧ branches d us = .ok bs ∧ bs.length = arms.count ∧
      (∀ t ∈ us, t.isKeyword .ELSE = false) ∧ (∀ t ∈ ts, t.isKeyword .END = false) ∧ Otherwise rest otherwise ∧
      (∀ t ∈ rest.head?, t.isKeywordAt d .ELSE = true) ∧
      ∀ {operand : Phrase} {os : List Token}, os.map Token.cell = operand.cells →
        (nestCells os otherwise bs).filter Cell.isToken = (arms.nested operand).cells
  | .none, _, _, _, _, hc, _ => absurd hc (Nat.lt_irrefl 0)
  | .otherwise .., _, _, _, _, hc, _ => absurd hc (Nat.lt_irrefl 0)
  | .arm w w' condition result others, d, ts, hp, hr, hc, h => by
    obtain ⟨hrc, hrr, hro⟩ := resolved_arm.1 hr
    obtain ⟨whenWord, us, rfl, -, hatWhen, -, hus⟩ := reads_word h
    obtain ⟨xs, us, rfl, hxs, hus⟩ := hus.append condition.balanced
    obtain ⟨thenWord, us, rfl, -, hatThen, -, hus⟩ := reads_word hus
    obtain ⟨ys, us, rfl, hys, hus⟩ := hus.append result.balanced
    have hxne : xs ≠ [] := ne_nil_of_reads hxs hp.1.1
    have hyne : ys ≠ [] := ne_nil_of_reads hys hp.2.1.1
    have hnot : ∀ {k : Keyword}, isFraming (.keyword k) = true → k ≠ .WHEN → k ≠ .THEN →
        whenWord.isKeyword k = false ∧ ∀ t ∈ xs ++ thenWord :: ys, t.isKeyword k = false := by
      intro k hk hw ht
      simp only [List.forall_mem_cons, List.forall_mem_append]
      exact ⟨not_keyword_of_at hatWhen hw.symm, not_keyword_of_reads hxs hrc hk, not_keyword_of_at hatThen ht.symm,
        not_keyword_of_reads hys hrr hk⟩
    have hxsThen : ∀ t ∈ xs, t.isKeywordAt d .THEN = false := not_keywordAt (not_keyword_of_reads hxs hrc rfl)
    have hysWhen : ∀ t ∈ ys, t.isKeywordAt d .WHEN = false := not_keywordAt (not_keyword_of_reads hys hrr rfl)
    have hlast := branches_last hxne hyne hxsThen hatThen hysWhen
    have hcall : ∀ {operand : Phrase} {os : List Token} (inner : List Cell), os.map Token.cell = operand.cells →
        (callCells os ⟨xs, ys⟩ inner).filter Cell.isToken
          = callOf operand.cells condition.nested.cells result.nested.cells (inner.filter Cell.isToken) := by
      intro operand os inner hos
      rw [filter_callCells, hos, hxs.cells, hys.cells, condition.nested_of_resolved hrc, result.nested_of_resolved hrr]
    obtain ⟨hwhenEnd, hEnd⟩ := hnot (k := .END) rfl nofun nofun
    obtain ⟨-, hElse⟩ := hnot (k := .ELSE) rfl nofun nofun
    cases others with
    | none =>
      obtain rfl := Reads.nil_iff.1 hus
      refine ⟨whenWord, xs ++ thenWord :: ys, [], _, _, by simp, hatWhen, hlast, rfl, hElse, ?_, .absent, nofun,
        fun hos => ?_⟩
      · simpa using ⟨hwhenEnd, by simpa using hEnd⟩
      · rw [Arms.nested, Phrase.cells, Phrase.cells, List.append_nil]
        exact hcall _ hos
    | otherwise elseText other =>
      obtain ⟨elseWord, zs, rfl, -, hatElse, -, hzs⟩ := reads_word hus
      have hzne : zs ≠ [] := ne_nil_of_reads hzs hp.2.2.1
      have hro' := resolved_otherwise.1 hro
      refine ⟨whenWord, xs ++ thenWord :: ys, elseWord :: zs, _, _, by simp, hatWhen, hlast, rfl, hElse, ?_,
        .present (Token.isKeyword_of_isKeywordAt hatElse) hzne, by simpa using hatElse, fun hos => ?_⟩
      · simp only [List.forall_mem_cons, List.forall_mem_append] at hEnd ⊢
        exact ⟨hwhenEnd, hEnd.1, hEnd.2.1, hEnd.2.2, not_keyword_of_at hatElse nofun,
          not_keyword_of_reads hzs hro' rfl⟩
      · rw [Arms.nested, Phrase.cells, Phrase.cells, List.append_nil, Arms.nested, other.nested_of_resolved hro',
          ← hzs.cells, ← Token.filter_isToken_stretch]
        exact hcall _ hos
    | arm v v' condition' result' others' =>
      obtain ⟨nextWord, vs, rest, bs, otherwise, rfl, hatNext, hbs, hlen, hvsElse, hvsEnd, hrest, hhead, hnest⟩ :=
        Arms.exists_branches _ hp.2.2 hro (Nat.succ_pos _) hus
      have hcons := branches_cons hxne hyne hxsThen hatThen hysWhen hatNext hbs
      refine ⟨whenWord, xs ++ thenWord :: (ys ++ nextWord :: vs), rest, _, otherwise, by simp, hatWhen, hcons,
        by rw [List.length_cons, hlen]; rfl, ?_, ?_, hrest, hhead, fun hos => ?_⟩
      · simp only [List.forall_mem_cons, List.forall_mem_append] at hElse ⊢
        exact ⟨hElse.1, hElse.2.1, hElse.2.2, not_keyword_of_at hatNext nofun, hvsElse⟩
      · simp only [List.forall_mem_cons, List.forall_mem_append] at hEnd hvsEnd ⊢
        exact ⟨hwhenEnd, hEnd.1, hEnd.2.1, hEnd.2.2, hvsEnd⟩
      · rw [Arms.nested, Phrase.cells, Phrase.cells, List.append_nil, ← hnest hos]
        exact hcall _ hos

/-! ### One conditional expression -/

/-- Whether operand and arms have no conditional expressions inside and no part of an arm is missing. -/
structure Innermost (operand : Phrase) (arms : Arms) : Prop where
  resolvedOperand : Resolved operand.cells
  resolvedArms : Resolved arms.cells
  proper : arms.Proper
  count : 0 < arms.count

/-- What the rule writes for a conditional expression without other ones inside is the nest of calls for its arms. -/
theorem caseText_of_reads (hi : Innermost operand arms) (h : Reads d (operand.cells ++ arms.cells) ts) :
    (∀ t ∈ ts, t.isKeyword .END = false) ∧ ∃ os whenWord us rest branches otherwise,
      ts = os ++ whenWord :: (us ++ rest) ∧ whenWord.isKeyword .WHEN = true ∧ Branched us branches ∧
      Otherwise rest otherwise ∧ (nestCells os otherwise branches).filter Cell.isToken = (arms.nested operand).cells ∧
      (copiesMarker operand arms = true → caseText d ts = .error .markerInOperand) ∧
      (copiesMarker operand arms = false → caseText d ts = .ok (spell (nestCells os otherwise branches)) ∧
        (os = [] ∨ branches.length = 1 ∨ ∀ t ∈ os, t.kind.isMarker = false)) := by
  obtain ⟨os, vs, rfl, hos, hvs⟩ := h.append operand.balanced
  obtain ⟨whenWord, us, rest, bs, otherwise, rfl, hwhen, hbs, hlen, hus, hend, hrest, hhead, hnest⟩ :=
    arms.exists_branches hi.proper hi.resolvedArms hi.count hvs
  refine ⟨List.forall_mem_append.2 ⟨not_keyword_of_reads hos hi.resolvedOperand rfl, hend⟩, os, whenWord, us, rest, bs, otherwise,
    rfl, Token.isKeyword_of_isKeywordAt hwhen, branched hbs, hrest, hnest hos.cells, ?_⟩
  have hmarker : os.any (fun t => t.kind.isMarker) = operand.cells.any Cell.isMarker := by
    rw [← hos.cells, List.any_map]
    rfl
  have hcopies : (os ≠ [] ∧ bs.length > 1 ∧ os.any (fun t => t.kind.isMarker)) ↔ copiesMarker operand arms = true := by
    rw [hmarker, hlen, copiesMarker, Bool.and_eq_true, decide_eq_true_iff]
    refine ⟨fun hc => hc.2, fun hc => ⟨?_, hc⟩⟩
    rintro rfl
    rw [← hos.cells] at hc
    exact absurd hc.2 (by simp)
  have hsplit := Token.splitFirst_append_of_not (b := us ++ rest)
    (not_keywordAt (d := d) (not_keyword_of_reads hos hi.resolvedOperand rfl)) hwhen
  have htext : caseText d (os ++ whenWord :: (us ++ rest))
      = if os ≠ [] ∧ bs.length > 1 ∧ os.any (fun t => t.kind.isMarker) then .error .markerInOperand
        else .ok (nestText os (spell otherwise) bs) := by
    unfold caseText
    rw [hsplit]
    cases hrest with
    | absent =>
      rw [List.append_nil]
      simp only [Token.splitFirst_of_not (not_keywordAt (d := d) hus)]
      rw [hbs]
      show (if _ then _ else _) = _
      split
      · rfl
      · rfl
    | @present elseWord zs word answered =>
      have helse := Token.splitFirst_append_of_not (b := zs) (not_keywordAt (d := d) hus) (hhead _ rfl)
      obtain ⟨z, zs, rfl⟩ := List.exists_cons_of_ne_nil answered
      simp only [helse]
      rw [hbs, Token.spell_stretch]
      show (if _ then _ else _) = _
      split
      · rfl
      · rfl
  rw [htext, spell_nestCells]
  refine ⟨fun hc => if_pos (hcopies.2 hc), fun hc => ⟨if_neg fun h => ?_, ?_⟩⟩
  · rw [hcopies.1 h] at hc
    cases hc
  · by_cases hnil : os = []
    · exact .inl hnil
    by_cases hone : bs.length > 1
    · refine .inr (.inr fun t ht => Bool.eq_false_iff.2 fun hm => ?_)
      rw [hcopies.1 ⟨hnil, hone, List.any_eq_true.2 ⟨t, ht, hm⟩⟩] at hc
      cases hc
    · have := hi.count
      exact .inr (.inl (by omega))

/-! ### The last conditional expression -/

/-- Whether a phrase can stand in the place of another one: it has the same nests, and is refused if the other one is. -/
structure Phrase.Agrees (p p' : Phrase) : Prop where
  proper : p'.Proper
  nested : p'.nested = p.nested
  isRefused : p'.isRefused = p.isRefused

/-- Whether arms can stand in the place of other ones. -/
structure Arms.Agrees (arms arms' : Arms) : Prop where
  proper : arms'.Proper
  nested : ∀ operand, arms'.nested operand = arms.nested operand
  isRefused : arms'.isRefused = arms.isRefused
  count : arms'.count = arms.count

theorem Phrase.Agrees.ne_nil {p p' : Phrase} (h : p.Agrees p') (hp : p.Proper) (hne : p ≠ .nil) : p' ≠ .nil := by
  intro hnil
  rw [← Phrase.nested_eq_nil_iff h.proper, h.nested, Phrase.nested_eq_nil_iff hp] at hnil
  exact hne hnil

theorem Phrase.Agrees.any_isMarker {p p' : Phrase} (h : p.Agrees p') (hp : p.Proper) :
    p'.cells.any Cell.isMarker = p.cells.any Cell.isMarker := by
  rw [← p'.any_isMarker_nested h.proper, h.nested, p.any_isMarker_nested hp]

/-- Whether tokens have a last conditional expression, with these tokens before and behind it. -/
inductive Last (operand : Phrase) (arms : Arms) (as bs : List Token) : List Token → Prop
  | intro {word last : Token} {inside : List Token} (opening : word.isKeyword .CASE = true)
      (closing : last.isKeywordAt word.depth .END = true)
      (reads : Reads word.depth (operand.cells ++ arms.cells) inside)
      (behind : ∀ t ∈ last :: bs, t.isKeyword .CASE = false) :
      Last operand arms as bs (as ++ ((word :: (inside ++ [last])) ++ bs))

/-- Whether tokens have a last conditional expression that is refused as the whole is, or makes something good of the
whole when its nest of calls is put in its place. -/
def HasLast (isRefused : Bool) (Good : List Cell → Prop) (ts : List Token) : Prop :=
  ∃ operand arms as bs, Innermost operand arms ∧ Last operand arms as bs ts ∧
    (copiesMarker operand arms = true → isRefused = true) ∧
    (copiesMarker operand arms = false →
      Good (as.map Token.cell ++ ((arms.nested operand).cells ++ bs.map Token.cell)))

/-- The last conditional expression of a stretch is that of the whole if none comes behind. -/
theorem HasLast.within {isRefused isRefused' : Bool} {Good Good' : List Cell → Prop} (front back : List Token)
    (h : HasLast isRefused Good ts) (hus : us = front ++ (ts ++ back))
    (hback : ∀ t ∈ back, t.isKeyword .CASE = false) (hr : isRefused = true → isRefused' = true)
    (hg : ∀ cs, Good cs → Good' (front.map Token.cell ++ (cs ++ back.map Token.cell))) :
    HasLast isRefused' Good' us := by
  obtain ⟨operand, arms, as, bs, hi, hlast, hrefused, hgood⟩ := h
  obtain @⟨word, last, inside, opening, closing, reads, behind⟩ := hlast
  refine ⟨operand, arms, front ++ as, bs ++ back, hi, ?_, fun hc => hr (hrefused hc), fun hc => ?_⟩
  · have hall : Last operand arms (front ++ as) (bs ++ back) _ := .intro opening closing reads
      (List.forall_mem_append.2 ⟨behind, hback⟩ : ∀ t ∈ (last :: bs) ++ back, t.isKeyword .CASE = false)
    rw [hus]
    simpa using hall
  · have := hg _ (hgood hc)
    simpa using this

mutual

/-- A phrase has no conditional expression, or a last one that can be replaced. -/
theorem Phrase.hasLast : ∀ (p : Phrase) {d : Nat} {ts : List Token}, p.Proper → Reads d p.cells ts →
    Resolved p.cells ∨ HasLast p.isRefused (fun cs => ∃ p', p.Agrees p' ∧ p'.cells = cs) ts
  | .nil, _, _, _, _ => .inl resolved_nil
  | .atom a rest, d, ts, hp, h => by
    obtain ⟨t, us, rfl, hk, hw, -, hus⟩ := Reads.cons (k := a.kind) (w := a.text) h a.left a.right
    have ht : t.cell = a.cell := by rw [Token.cell, hk, hw, Atom.cell]
    rcases rest.hasLast hp hus with hres | hlast
    · exact .inl (resolved_atom.2 hres)
    · refine .inr (hlast.within [t] [] (by simp) nofun id ?_)
      rintro _ ⟨p', hp', rfl⟩
      exact ⟨.atom a p', ⟨hp'.proper, by rw [Phrase.nested, Phrase.nested, hp'.nested], hp'.isRefused⟩,
        by simp [Phrase.cells, ht]⟩
  | .group inside rest, d, ts, hp, h => by
    obtain ⟨opening, xs, closing, ys, rfl, hopening, -, hxs, hclosing, -, hys⟩ := Reads.group h inside.balanced
    rcases rest.hasLast hp.2 hys with hres | hlast
    · rcases inside.hasLast hp.1 hxs with hres' | hlast
      · exact .inl (resolved_group.2 ⟨hres', hres⟩)
      · refine .inr (hlast.within [opening] (closing :: ys) (by simp) ?_ ?_ ?_)
        · exact List.forall_mem_cons.2 ⟨by rw [← isOpening_cell, hclosing]; rfl, not_case_of_reads hys hres⟩
        · exact fun hr => by rw [Phrase.isRefused, hr, Bool.true_or]
        · rintro _ ⟨p', hp', rfl⟩
          exact ⟨.group p' rest, ⟨⟨hp'.proper, hp.2⟩, by rw [Phrase.nested, Phrase.nested, hp'.nested],
            by rw [Phrase.isRefused, Phrase.isRefused, hp'.isRefused]⟩,
            by simp [Phrase.cells, hopening, hclosing, hys.cells]⟩
    · refine .inr (hlast.within (opening :: (xs ++ [closing])) [] (by simp) nofun ?_ ?_)
      · exact fun hr => by rw [Phrase.isRefused, hr, Bool.or_true]
      · rintro _ ⟨p', hp', rfl⟩
        exact ⟨.group inside p', ⟨⟨hp.1, hp'.proper⟩, by rw [Phrase.nested, Phrase.nested, hp'.nested],
          by rw [Phrase.isRefused, Phrase.isRefused, hp'.isRefused]⟩,
          by simp [Phrase.cells, hopening, hclosing, hxs.cells]⟩
  | .conditional v w operand arms rest, d, ts, hp, h => by
    obtain ⟨hpo, ⟨hpa, hcount⟩, hprest⟩ := hp
    obtain ⟨word, ts, rfl, hword, hatCase, hdepth, hts⟩ := reads_word h
    obtain ⟨os, ts, rfl, hos, hts⟩ := hts.append operand.balanced
    obtain ⟨as, ts, rfl, has, hts⟩ := hts.append arms.balanced
    obtain ⟨last, rs, rfl, hlastWord, hatEnd, -, hrs⟩ := reads_word hts
    rcases rest.hasLast hprest hrs with hres | hlast
    · have hback : ∀ t ∈ last :: rs, t.isKeyword .CASE = false :=
        List.forall_mem_cons.2 ⟨not_keyword_of_at hatEnd nofun, not_case_of_reads hrs hres⟩
      rcases arms.hasLast hpa has with hresArms | hlast
      · rcases operand.hasLast hpo hos with hresOperand | hlast
        · -- This one is the last.
          have hi : Innermost operand arms := ⟨hresOperand, hresArms, hpa, hcount⟩
          refine .inr ⟨operand, arms, [], rs, hi, ?_, fun hc => by rw [Phrase.isRefused, hc, Bool.true_or], fun hc => ?_⟩
          · have hreads : Reads word.depth (operand.cells ++ arms.cells) (os ++ as) := by
              rw [hdepth]
              exact ⟨hos.level.append has.level, by rw [List.map_append, hos.cells, has.cells]⟩
            have hend : last.isKeywordAt word.depth .END = true := by rwa [hdepth]
            have hlast : Last operand arms [] rs _ := .intro (Token.isKeyword_of_isKeywordAt hatCase) hend hreads hback
            simpa using hlast
          · refine ⟨(arms.nested operand).append rest, ⟨?_, ?_, ?_⟩, by simp [Phrase.cells_append, hrs.cells]⟩
            · exact Phrase.proper_append _ _ (Phrase.proper_of_resolved _ (arms.resolved_nested hresOperand)) hprest
            · rw [Phrase.nested_append, Phrase.nested, operand.nested_of_resolved hresOperand,
                Phrase.nested_of_resolved _ (arms.resolved_nested hresOperand)]
            · rw [Phrase.isRefused_append, Phrase.isRefused_of_resolved _ (arms.resolved_nested hresOperand),
                Phrase.isRefused, hc, operand.isRefused_of_resolved hresOperand, arms.isRefused_of_resolved hresArms]
              rfl
        · refine .inr (hlast.within [word] (as ++ last :: rs) (by simp) ?_ ?_ ?_)
          · exact List.forall_mem_append.2 ⟨not_case_of_reads has hresArms, hback⟩
          · exact fun hr => by rw [Phrase.isRefused, hr, Bool.true_or, Bool.or_true]
          · rintro _ ⟨p', hp', rfl⟩
            refine ⟨.conditional v w p' arms rest, ⟨⟨hp'.proper, ⟨hpa, hcount⟩, hprest⟩, ?_, ?_⟩, ?_⟩
            · rw [Phrase.nested, Phrase.nested, hp'.nested]
            · rw [Phrase.isRefused, Phrase.isRefused, hp'.isRefused, copiesMarker, hp'.any_isMarker hpo, copiesMarker]
            · simp [Phrase.cells, hword, has.cells, hlastWord, hrs.cells]
      · refine .inr (hlast.within (word :: os) (last :: rs) (by simp) hback ?_ ?_)
        · exact fun hr => by rw [Phrase.isRefused, hr, Bool.true_or, Bool.or_true, Bool.or_true]
        · rintro _ ⟨arms', harms', rfl⟩
          refine ⟨.conditional v w operand arms' rest, ⟨⟨hpo, ⟨harms'.proper, harms'.count ▸ hcount⟩, hprest⟩, ?_, ?_⟩, ?_⟩
          · rw [Phrase.nested, Phrase.nested, harms'.nested]
          · rw [Phrase.isRefused, Phrase.isRefused, harms'.isRefused, copiesMarker, harms'.count, copiesMarker]
          · simp [Phrase.cells, hword, hos.cells, hlastWord, hrs.cells]
    · refine .inr (hlast.within (word :: (os ++ (as ++ [last]))) [] (by simp) nofun ?_ ?_)
      · exact fun hr => by rw [Phrase.isRefused, hr, Bool.or_true, Bool.or_true, Bool.or_true]
      · rintro _ ⟨p', hp', rfl⟩
        refine ⟨.conditional v w operand arms p', ⟨⟨hpo, ⟨hpa, hcount⟩, hp'.proper⟩, ?_, ?_⟩, ?_⟩
        · rw [Phrase.nested, Phrase.nested, hp'.nested]
        · rw [Phrase.isRefused, Phrase.isRefused, hp'.isRefused]
        · simp [Phrase.cells, hword, hos.cells, has.cells, hlastWord]
  | .choice operand condition result other rest, d, ts, hp, h => by
    obtain ⟨cs, rs, rfl, hcs, hrs⟩ := h.append
      (balanced_callOf operand.balanced condition.balanced result.balanced other.balanced)
    rcases rest.hasLast hp.2 hrs with hres | hlast
    · exact .inl (resolved_append.2 ⟨hp.1, hres⟩)
    · refine .inr (hlast.within cs [] (by simp) nofun ?_ ?_)
      · exact fun hr => by simp only [Phrase.isRefused, hr, Bool.or_true]
      · rintro _ ⟨p', hp', rfl⟩
        exact ⟨.choice operand condition result other p', ⟨⟨hp.1, hp'.proper⟩,
          by rw [Phrase.nested, Phrase.nested, hp'.nested],
          by rw [Phrase.isRefused, Phrase.isRefused, hp'.isRefused]⟩, by simp [Phrase.cells, hcs.cells]⟩

/-- Arms have no conditional expression, or a last one that can be replaced. -/
theorem Arms.hasLast : ∀ (arms : Arms) {d : Nat} {ts : List Token}, arms.Proper → Reads d arms.cells ts →
    Resolved arms.cells ∨ HasLast arms.isRefused (fun cs => ∃ arms', arms.Agrees arms' ∧ arms'.cells = cs) ts
  | .none, _, _, _, _ => .inl resolved_nil
  | .otherwise w other, d, ts, hp, h => by
    obtain ⟨word, ts, rfl, hword, -, -, hts⟩ := reads_word h
    rcases other.hasLast hp.2 hts with hres | hlast
    · exact .inl (resolved_otherwise.2 hres)
    · refine .inr (hlast.within [word] [] (by simp) nofun id ?_)
      rintro _ ⟨p', hp', rfl⟩
      exact ⟨.otherwise w p', ⟨⟨hp'.ne_nil hp.2 hp.1, hp'.proper⟩,
        fun _ => by rw [Arms.nested, Arms.nested, hp'.nested], hp'.isRefused, rfl⟩, by simp [Arms.cells, hword]⟩
  | .arm w w' condition result others, d, ts, hp, h => by
    obtain ⟨hpc, hpr, hpo⟩ := hp
    obtain ⟨whenWord, ts, rfl, hwhen, -, -, hts⟩ := reads_word h
    obtain ⟨cs, ts, rfl, hcs, hts⟩ := hts.append condition.balanced
    obtain ⟨thenWord, ts, rfl, hthen, hatThen, -, hts⟩ := reads_word hts
    obtain ⟨rs, os, rfl, hrs, hos⟩ := hts.append result.balanced
    rcases others.hasLast hpo hos with hres | hlast
    · have hothers := not_case_of_reads hos hres
      rcases result.hasLast hpr.2 hrs with hresResult | hlast
      · rcases condition.hasLast hpc.2 hcs with hresCondition | hlast
        · exact .inl (resolved_arm.2 ⟨hresCondition, hresResult, hres⟩)
        · refine .inr (hlast.within [whenWord] (thenWord :: (rs ++ os)) (by simp) ?_ ?_ ?_)
          · exact List.forall_mem_cons.2 ⟨not_keyword_of_at hatThen nofun,
              List.forall_mem_append.2 ⟨not_case_of_reads hrs hresResult, hothers⟩⟩
          · exact fun hr => by rw [Arms.isRefused, hr, Bool.true_or]
          · rintro _ ⟨p', hp', rfl⟩
            exact ⟨.arm w w' p' result others, ⟨⟨⟨hp'.ne_nil hpc.2 hpc.1, hp'.proper⟩, hpr, hpo⟩,
              fun _ => by rw [Arms.nested, Arms.nested, hp'.nested],
              by rw [Arms.isRefused, Arms.isRefused, hp'.isRefused], rfl⟩,
              by simp [Arms.cells, hwhen, hthen, hrs.cells, hos.cells]⟩
      · refine .inr (hlast.within (whenWord :: (cs ++ [thenWord])) os (by simp) hothers ?_ ?_)
        · exact fun hr => by rw [Arms.isRefused, hr, Bool.true_or, Bool.or_true]
        · rintro _ ⟨p', hp', rfl⟩
          exact ⟨.arm w w' condition p' others, ⟨⟨hpc, ⟨hp'.ne_nil hpr.2 hpr.1, hp'.proper⟩, hpo⟩,
            fun _ => by rw [Arms.nested, Arms.nested, hp'.nested],
            by rw [Arms.isRefused, Arms.isRefused, hp'.isRefused], rfl⟩,
            by simp [Arms.cells, hwhen, hthen, hcs.cells, hos.cells]⟩
    · refine .inr (hlast.within (whenWord :: (cs ++ thenWord :: rs)) [] (by simp) nofun ?_ ?_)
      · exact fun hr => by rw [Arms.isRefused, hr, Bool.or_true, Bool.or_true]
      · rintro _ ⟨others', ho', rfl⟩
        exact ⟨.arm w w' condition result others', ⟨⟨hpc, hpr, ho'.proper⟩,
          fun _ => by rw [Arms.nested, Arms.nested, ho'.nested],
          by rw [Arms.isRefused, Arms.isRefused, ho'.isRefused], by rw [Arms.count, Arms.count, ho'.count]⟩,
          by simp [Arms.cells, hwhen, hthen, hcs.cells, hrs.cells]⟩

end

/-! ### One round -/

/-- What the rule does where it finds a last conditional expression. -/
theorem step_of_last {q : Query} {tail : List Cell} (hread : q.IsRead tail) (hi : Innermost operand arms)
    (hlast : Last operand arms as bs q.tokens) :
    (copiesMarker operand arms = true ∧ step q = .error (.unsupportedConstruct (.caseExpression .markerInOperand))) ∨
      copiesMarker operand arms = false ∧ ∃ e, step q = .ok (some e) ∧ ∀ {p : Phrase},
        p.cells = as.map Token.cell ++ ((arms.nested operand).cells ++ bs.map Token.cell) →
        ∃ out q', Edit.applyAll [e] q.text = .ok out ∧ Query.ofText out = .ok q' ∧ Reads 0 p.cells q'.tokens := by
  generalize hq : q.tokens = ts at hlast
  obtain @⟨word, last, inside, opening, closing, reads, behind⟩ := hlast
  obtain ⟨hend, os, whenWord, us, rest, branches, otherwise, hinside, hwhen, hbs, hother, hcells, hrefused, hnest⟩ :=
    caseText_of_reads hi reads
  have hcase : ∀ t ∈ inside, t.isKeyword .CASE = false :=
    not_case_of_reads reads (resolved_append.2 ⟨hi.resolvedOperand, hi.resolvedArms⟩)
  have hsplit := Token.splitLast_append_of_not (a := as) opening (List.forall_mem_append.2 ⟨hcase, behind⟩)
  have htokens : q.tokens = as ++ word :: (inside ++ last :: bs) := by simp [hq]
  have hstep := step.eq_1 q
  simp only [htokens, hsplit] at hstep
  have hedit : caseEdit word (inside ++ last :: bs)
      = (caseText word.depth inside).map (fun text => ⟨⟨word.start, last.stop⟩, text⟩) := by
    rw [caseEdit, Token.splitFirst_append_of_not (not_keywordAt hend) closing]
    show (caseText word.depth inside >>= _) = _
    cases caseText word.depth inside with
    | ok text => rfl
    | error fault => rfl
  rw [hstep, hedit]
  cases hcopies : copiesMarker operand arms with
  | true =>
    rw [hrefused hcopies]
    exact .inl ⟨rfl, rfl⟩
  | false =>
    obtain ⟨htext, hcopied⟩ := hnest hcopies
    rw [htext]
    refine .inr ⟨rfl, _, rfl, fun {p} hp => ?_⟩
    subst hinside
    have hswap := swapped_of_isRead hread hq opening hwhen (Token.isKeyword_of_isKeywordAt closing) hbs hother hcopied hcase
    obtain ⟨out, q', hout, hq', hreads⟩ := hread.reads_edited (t := word) p.cells hq (harmless _) hswap
      (fun hsw => hsw.source) (by rw [hp, hcells]) p.balanced
    refine ⟨out, q', ?_, hq', hreads⟩
    rwa [← List.cons_append, Token.stopOr_concat] at hout

/-- Whether a text is a phrase with these nests of calls, and whether it is refused. -/
def NestsTo (goal : Phrase) (isRefused : Bool) (text : SqlText) : Prop :=
  ∃ q p, Query.ofText text = .ok q ∧ Reads 0 (Phrase.cells p) q.tokens ∧ p.Proper ∧ p.nested = goal ∧
    p.isRefused = isRefused

/-- A round leaves the nests of a text, or meets a conditional expression that is refused. -/
theorem NestsTo.step_cases {goal : Phrase} {isRefused : Bool} {text : SqlText} (h : NestsTo goal isRefused text) :
    ∃ q, Query.ofText text = .ok q ∧ (step q = .ok none ∨
      (∃ e out, step q = .ok (some e) ∧ Edit.applyAll [e] text = .ok out ∧ NestsTo goal isRefused out) ∨
      ∃ err, step q = .error err ∧ err = .unsupportedConstruct (.caseExpression .markerInOperand) ∧
        isRefused = true) := by
  obtain ⟨q, p, hq, hreads, hp, rfl, rfl⟩ := h
  obtain ⟨rfl, tail, hread⟩ := Query.isRead hq
  refine ⟨q, hq, ?_⟩
  rcases p.hasLast hp hreads with hres | ⟨operand, arms, as, bs, hi, hlast, hrefused, hgood⟩
  · left
    have hnone : Token.splitLast (fun t => t.isKeyword .CASE) q.tokens = none := by
      rw [Token.splitLast, Token.splitFirst_of_not (by simpa using not_case_of_reads hreads hres)]
      rfl
    rw [step, hnone]
  right
  rcases step_of_last hread hi hlast with ⟨hcopies, hstep⟩ | ⟨hcopies, e, hstep, hedit⟩
  · exact .inr ⟨_, hstep, rfl, hrefused hcopies⟩
  · obtain ⟨p', hp', hcells⟩ := hgood hcopies
    obtain ⟨out, q', hout, hq', hreads'⟩ := hedit hcells
    exact .inl ⟨e, out, hstep, hout, q', p', hq', hreads', hp'.proper, hp'.nested, hp'.isRefused⟩

/-! ### All conditional expressions -/

/-- **Conditional expressions become nests of calls that say the same, however deep they are nested.**  They are refused
just if several arms of one ask for an operand with a parameter in it; otherwise the tokens of the result are those of the
text with a nest of calls for each `CASE`, in which each part is translated likewise, and text and result have the same
value whatever their tokens mean. -/
theorem convert_eq_nested {text : SqlText} {q : Query} {p : Phrase} (hq : Query.ofText text = .ok q)
    (hcells : q.tokens.map Token.cell = p.cells) (hp : p.Proper) :
    ((∃ err, convert text = .error err) ↔ p.isRefused = true) ∧
      (p.isRefused = true → convert text = .error (.unsupportedConstruct (.caseExpression .markerInOperand))) ∧
      (p.isRefused = false → ∃ out q', convert text = .ok out ∧ Query.ofText out = .ok q' ∧
        (∀ t ∈ q'.tokens, t.isKeyword .CASE = false) ∧ q'.tokens.map Token.cell = p.nested.cells) ∧
      ∀ (α : Type) (V : Valuation α), p.nested.parts V = p.parts V := by
  have hreads : Reads 0 p.cells q.tokens := ⟨(Query.reads hq).level, hcells⟩
  have hall := Query.exhaust_cases (P := NestsTo p.nested p.isRefused) (fun {t} ht => NestsTo.step_cases ht)
    ⟨q, p, hq, hreads, hp, rfl, rfl⟩
  rcases hall with ⟨out, hout, q', p', hq', hreads', hp', hnested, hrefused⟩ | ⟨err, herr, rfl, hrefused⟩
  · obtain ⟨q'', hq'', hnone⟩ := convert_eq_ok hout
    obtain rfl : q' = q'' := Except.ok.inj (hq'.symm.trans hq'')
    -- Where the rule finds nothing to do, no conditional expression is left.
    have hres : Resolved p'.cells := by
      obtain ⟨rfl, tail, hread⟩ := Query.isRead hq'
      rcases p'.hasLast hp' hreads' with hres | ⟨operand, arms, as, bs, hi, hlast, -⟩
      · exact hres
      · rcases step_of_last hread hi hlast with ⟨-, hstep⟩ | ⟨-, e, hstep, -⟩ <;> cases hnone.symm.trans hstep
    have hgood : p.isRefused = false := by rw [← hrefused, p'.isRefused_of_resolved hres]
    have hnot : ¬ p.isRefused = true := by rw [hgood]; exact nofun
    refine ⟨⟨?_, fun h => absurd h hnot⟩, fun h => absurd h hnot, fun _ => ?_, fun α V => p.parts_nested hp⟩
    · rintro ⟨err, herr⟩
      rw [convert, hout] at herr
      cases herr
    · refine ⟨out, q', hout, hq', not_case_of_reads hreads' hres, ?_⟩
      rw [hreads'.cells, ← hnested, p'.nested_of_resolved hres]
  · refine ⟨⟨fun _ => hrefused, fun _ => ⟨_, herr⟩⟩, fun _ => herr, fun h => ?_, fun α V => p.parts_nested hp⟩
    rw [hrefused] at h
    cases h

theorem convert_eq_nested_in_condition :
    ∃ out q, convert "CASE WHEN CASE a WHEN x THEN b ELSE c END THEN d END".toList = .ok out ∧ Query.ofText out = .ok q ∧
      q.tokens.map (fun t => String.ofList t.text)
        = ["IIf", "(", "IIf", "(", "a", "=", "x", ",", "b", ",", "c", ")", ",", "d", ",", "Null", ")"] := by
  obtain ⟨q, hq, hcells⟩ := Query.exists_of_cells "CASE WHEN CASE a WHEN x THEN b ELSE c END THEN d END".toList
    ((Phrase.conditional "CASE".toList "END".toList .nil (.arm "WHEN".toList "THEN".toList
      (.conditional "CASE".toList "END".toList (.atom (.word ['a'] (by decide)) .nil)
        (.arm "WHEN".toList "THEN".toList (.atom (.word ['x'] (by decide)) .nil) (.atom (.word ['b'] (by decide)) .nil)
          (.otherwise "ELSE".toList (.atom (.word ['c'] (by decide)) .nil))) .nil)
      (.atom (.word ['d'] (by decide)) .nil) .none) .nil).cells) (by decide +kernel)
  obtain ⟨-, -, h, -⟩ := convert_eq_nested hq hcells (by simp [Phrase.Proper, Arms.Proper, Arms.count])
  obtain ⟨out, q', hout, hq', -, htokens⟩ := h (by decide)
  refine ⟨out, q', hout, hq', ?_⟩
  have htexts := congrArg (List.map fun c => String.ofList c.text) htokens
  rw [List.map_map] at htexts
  exact htexts.trans (by decide +kernel)

end JetAdapter.Conditional
