import JetAdapter.Proofs.CallSwaps

/-!
# Swaps of conditional expressions

A `CASE` makes room for a nest of calls of `IIf`.  `Branched` and `Otherwise` say how the tokens of a `CASE` are
laid out; the nest is put together of pieces of these tokens (`nestCells`), and an operand that is compared
with several values is copied, unless a parameter is in it.
-/

namespace JetAdapter.Conditional

open Cell (Sound Writable spell)
open Token (stretch)

variable {operand ts : List Token} {bs : List Branch} {b : Branch} {otherwise : List Cell}
  {depth : Nat}

/-! ### Layout -/

/-- Whether tokens behind a `WHEN` are branches, each with a condition before its `THEN` and a result. -/
inductive Branched : List Token → List Branch → Prop
  | last {condition result : List Token} {thenWord : Token} (word : thenWord.isKeyword .THEN = true)
      (asked : condition ≠ []) (answered : result ≠ []) :
      Branched (condition ++ thenWord :: result) [⟨condition, result⟩]
  | cons {condition result ts : List Token} {thenWord whenWord : Token} {bs : List Branch}
      (word : thenWord.isKeyword .THEN = true) (next : whenWord.isKeyword .WHEN = true)
      (asked : condition ≠ []) (answered : result ≠ []) (rest : Branched ts bs) :
      Branched (condition ++ thenWord :: (result ++ whenWord :: ts)) (⟨condition, result⟩ :: bs)

theorem branched (h : branches depth ts = .ok bs) : Branched ts bs := by
  fun_induction branches depth ts generalizing bs with
  | case1 ts hthen => cases h
  | case2 ts condition thenWord afterThen hthen hwhen hempty => cases h
  | case3 ts condition thenWord afterThen hthen hwhen hempty =>
    cases h
    rw [not_or] at hempty
    obtain ⟨rfl, hword, -⟩ := Token.splitFirst_eq_some hthen
    exact .last (Token.isKeyword_of_isKeywordAt hword) hempty.1 hempty.2
  | case4 ts condition thenWord afterThen hthen result whenWord afterWhen hwhen hempty => cases h
  | case5 ts condition thenWord afterThen hthen result whenWord afterWhen hwhen hempty ih =>
    rw [not_or] at hempty
    obtain ⟨rfl, hword, -⟩ := Token.splitFirst_eq_some hthen
    obtain ⟨rfl, hnext, -⟩ := Token.splitFirst_eq_some hwhen
    cases hrest : branches depth afterWhen with
    | error fault =>
      rw [hrest] at h
      cases h
    | ok bs' =>
      rw [hrest] at h
      cases h
      exact .cons (Token.isKeyword_of_isKeywordAt hword) (Token.isKeyword_of_isKeywordAt hnext)
        hempty.1 hempty.2 (ih hrest)

/-- The parts of a branch are stretches of the tokens of the branches. -/
theorem Branched.infixes (h : Branched ts bs) (hb : b ∈ bs) :
    (b.condition ≠ [] ∧ ∃ us vs, ts = us ++ (b.condition ++ vs)) ∧
      (b.result ≠ [] ∧ ∃ us vs, ts = us ++ (b.result ++ vs)) := by
  induction h with
  | @last condition result thenWord word asked answered =>
    obtain rfl := List.mem_singleton.1 hb
    exact ⟨⟨asked, [], _, rfl⟩, answered, condition ++ [thenWord], [], by simp⟩
  | @cons condition result ts thenWord whenWord bs word next asked answered rest ih =>
    rcases List.mem_cons.1 hb with rfl | hb
    · exact ⟨⟨asked, [], _, rfl⟩, answered, condition ++ [thenWord], whenWord :: ts, by simp⟩
    · obtain ⟨⟨hc, us, vs, hus⟩, hr, us', vs', hus'⟩ := ih hb
      refine ⟨⟨hc, condition ++ thenWord :: (result ++ whenWord :: us), vs, ?_⟩, hr,
        condition ++ thenWord :: (result ++ whenWord :: us'), vs', ?_⟩
      · simp [hus]
      · simp [hus']

theorem Branched.exists_cons (h : Branched ts bs) : ∃ b bs', bs = b :: bs' := by
  cases h with
  | last word asked answered => exact ⟨_, _, rfl⟩
  | cons word next asked answered rest => exact ⟨_, _, rfl⟩

/-- Whether tokens before an `END` say what applies where no branch does. -/
inductive Otherwise : List Token → List Cell → Prop
  | absent : Otherwise [] [Cell.word "Null".toList]
  | present {elseWord : Token} {ts : List Token} (word : elseWord.isKeyword .ELSE = true)
      (answered : ts ≠ []) : Otherwise (elseWord :: ts) (stretch ts)

/-! ### Nests of calls -/

/-- The sign between the sides of a comparison. -/
def equals : Cell :=
  .token (.symbol .eq) ['=']

/-- The cells of one side of a comparison. -/
def comparandCells (ts : List Token) : List Cell :=
  if ts.length = 1 then stretch ts else Cell.sign '(' :: (stretch ts ++ [Cell.sign ')'])

/-- The cells of what a branch asks. -/
def conditionCells (operand : List Token) (b : Branch) : List Cell :=
  if operand = [] then stretch b.condition
  else comparandCells operand ++ Cell.space :: equals :: Cell.space :: comparandCells b.condition

/-- The cells of the call for one branch. -/
def callCells (operand : List Token) (b : Branch) (inner : List Cell) : List Cell :=
  Cell.word "IIf".toList :: Cell.sign '(' :: (conditionCells operand b ++ Cell.sign ',' :: Cell.space ::
    (stretch b.result ++ Cell.sign ',' :: Cell.space :: inner) ++ [Cell.sign ')'])

/-- The cells of a nest of calls. -/
def nestCells (operand : List Token) (otherwise : List Cell) (bs : List Branch) : List Cell :=
  bs.foldr (callCells operand) otherwise

theorem spell_comparandCells (ts : List Token) : spell (comparandCells ts) = comparand ts := by
  unfold comparandCells comparand
  split
  · rw [Token.spell_stretch]
  · simp [Token.spell_stretch]

theorem spell_conditionCells (operand : List Token) (b : Branch) :
    spell (conditionCells operand b) = conditionText operand b := by
  unfold conditionCells conditionText
  split
  · rw [Token.spell_stretch]
  · simp [spell_comparandCells, equals]

theorem spell_nestCells (operand : List Token) (otherwise : List Cell) (bs : List Branch) :
    spell (nestCells operand otherwise bs) = nestText operand (spell otherwise) bs := by
  unfold nestCells nestText
  induction bs with
  | nil => rfl
  | cons b bs ih =>
    rw [List.foldr_cons, List.foldr_cons, ← ih]
    simp [callCells, spell_conditionCells, Token.spell_stretch, Text.joinWith]

theorem writable_comparandCells (h : Writable (stretch ts)) : Writable (comparandCells ts) := by
  unfold comparandCells
  split
  · exact h
  · exact h.parens

theorem writable_equals : Writable [equals] :=
  .of_fits ⟨rfl, '=', [], rfl, rfl⟩ rfl

theorem writable_conditionCells (ho : operand ≠ [] → Writable (stretch operand))
    (hb : Writable (stretch b.condition)) : Writable (conditionCells operand b) := by
  unfold conditionCells
  split
  · exact hb
  · next hne =>
    have hP := writable_comparandCells (ho hne)
    have hQ := writable_comparandCells hb
    refine ⟨?_, fun {p os ss} h hs => ?_⟩
    · obtain ⟨k, t, ds, hk⟩ := hP.token
      exact ⟨k, t, _, by rw [hk]; rfl⟩
    · have hright := h.space_writable hQ hs
      have hmiddle := hright.space_writable writable_equals (Cell.stops_space _)
      have := hP.settles hmiddle (Cell.stops_space _)
      simpa using this

/-- The arguments of the call for one branch. -/
theorem writable_arguments {inner : List Cell} (ho : operand ≠ [] → Writable (stretch operand))
    (hb : Writable (stretch b.condition) ∧ Writable (stretch b.result)) (hi : Writable inner) :
    Writable (conditionCells operand b ++ Cell.sign ',' :: Cell.space ::
      (stretch b.result ++ Cell.sign ',' :: Cell.space :: inner)) :=
  (writable_conditionCells ho hb.1).comma (hb.2.comma hi)

theorem isWord_iif : Cell.IsWord "IIf".toList :=
  Cell.isWord_of_isAlpha (by decide) (by decide)

theorem writable_nestCells (ho : operand ≠ [] → Writable (stretch operand))
    (hbs : ∀ b ∈ bs, Writable (stretch b.condition) ∧ Writable (stretch b.result))
    (hi : Writable otherwise) : Writable (nestCells operand otherwise bs) := by
  unfold nestCells
  induction bs with
  | nil => exact hi
  | cons b bs ih =>
    have hinner := ih fun b hb => hbs b (List.mem_cons_of_mem _ hb)
    exact .call isWord_iif (by decide) (writable_arguments ho (hbs b List.mem_cons_self) hinner)

/-! ### Swaps -/

/-- A `CASE` with its `END` makes room for a nest of calls. -/
inductive Swapped : List Cell → List Cell → List Cell → List Cell → Prop
  | nest {X Y otherwise : List Cell} {word whenWord endWord : Token} {operand ts rest : List Token}
      {bs : List Branch} (opening : word.isKeyword .CASE = true) (isWord : Cell.IsWord word.text)
      (first : whenWord.isKeyword .WHEN = true) (closing : endWord.isKeyword .END = true)
      (branched : Branched ts bs) (ends : Otherwise rest otherwise)
      (copied : operand = [] ∨ bs.length = 1 ∨ ∀ t ∈ operand, t.kind.isMarker = false)
      (written : operand ≠ [] → Writable (stretch operand))
      (parts : ∀ b ∈ bs, Writable (stretch b.condition) ∧ Writable (stretch b.result))
      (other : Writable otherwise)
      (innermost : ∀ t ∈ operand ++ whenWord :: (ts ++ rest), t.isKeyword .CASE = false) :
      Swapped X (stretch (word :: (operand ++ whenWord :: (ts ++ rest) ++ [endWord]))) Y
        (nestCells operand otherwise bs)

theorem isWord_of_isKeyword {t : Token} {k : Keyword} {rest : SqlText} (hfit : t.cell.Fits rest)
    (hk : t.isKeyword k = true) : Cell.IsWord t.text := by
  have hkind : t.kind = .keyword k := Kind.isKeyword_iff.1 hk
  rw [Token.cell, hkind] at hfit
  exact (Cell.isWord_of_keyword hfit).1

theorem harmless (p : Cell → Bool) : Woven.Harmless p Swapped := by
  refine .of_call fun {X D Y N} hsw => ?_
  cases hsw with
  | nest opening isWord first closing branched ends copied written parts other innermost =>
    obtain ⟨b, bs, rfl⟩ := branched.exists_cons
    have hinner := writable_nestCells written (fun b hb => parts b (List.mem_cons_of_mem _ hb)) other
    exact ⟨_, _, _, rfl, isWord, _, _, _, rfl, isWord_iif, by decide, by decide, by decide,
      writable_arguments written (parts b List.mem_cons_self) hinner⟩

/-! ### Where the cells come from -/

variable {p : Cell → Bool} {X D Y N : List Cell}

theorem plain_equals : Cell.Plain equals :=
  fun _ hp => hp.symbol .eq _

theorem plain_iif : Cell.Plain (Cell.word "IIf".toList) :=
  Cell.plain_word isWord_iif

/-- The cells that are written around the parts. -/
def written : List Cell :=
  [Cell.word "IIf".toList, Cell.sign '(', Cell.sign ')', Cell.sign ',', Cell.space, equals]

theorem plain_written : ∀ c ∈ written, Cell.Plain c := by
  unfold written
  simp only [List.forall_mem_cons]
  exact ⟨plain_iif, Cell.plain_sign (.inl rfl), Cell.plain_sign (.inr (.inl rfl)),
    Cell.plain_sign (.inr (.inr rfl)), Cell.plain_gap _, plain_equals, nofun⟩

/-- The cells of a nest are those of its parts. -/
theorem mem_nestCells {P : Cell → Prop} (hwritten : ∀ c ∈ written, P c)
    (ho : ∀ c ∈ stretch operand, P c)
    (hbs : ∀ b ∈ bs, (∀ c ∈ stretch b.condition, P c) ∧ ∀ c ∈ stretch b.result, P c)
    (hi : ∀ c ∈ otherwise, P c) : ∀ c ∈ nestCells operand otherwise bs, P c := by
  unfold written at hwritten
  simp only [List.forall_mem_cons] at hwritten
  obtain ⟨hiif, hleft, hright, hcomma, hspace, hequals, -⟩ := hwritten
  have hcomparand : ∀ {ts : List Token}, (∀ c ∈ stretch ts, P c) → ∀ c ∈ comparandCells ts, P c := by
    intro ts hts
    unfold comparandCells
    split
    · exact hts
    · simp only [List.forall_mem_cons, List.forall_mem_append]
      exact ⟨hleft, hts, hright, nofun⟩
  unfold nestCells
  induction bs with
  | nil => exact hi
  | cons b bs ih =>
    obtain ⟨hc, hr⟩ := hbs b List.mem_cons_self
    have hcondition : ∀ c ∈ conditionCells operand b, P c := by
      unfold conditionCells
      split
      · exact hc
      · simp only [List.forall_mem_cons, List.forall_mem_append]
        exact ⟨hcomparand ho, hspace, hequals, hspace, hcomparand hc⟩
    rw [List.foldr_cons, callCells]
    simp only [List.forall_mem_cons, List.forall_mem_append]
    exact ⟨hiif, hleft, ⟨hcondition, hcomma, hspace, hr, hcomma, hspace,
      ih fun b hb => hbs b (List.mem_cons_of_mem _ hb)⟩, hright, nofun⟩

/-- The cells of the nest that a `CASE` makes room for are those of its tokens. -/
theorem forall_mem_nestCells {P : Cell → Prop} {rest : List Token} (hgap : ∀ g, P (.gap g))
    (hwritten : ∀ c ∈ written, P c) (hnull : P (Cell.word "Null".toList)) (branched : Branched ts bs)
    (ends : Otherwise rest otherwise) (htokens : ∀ t ∈ operand ++ (ts ++ rest), P t.cell) :
    ∀ c ∈ nestCells operand otherwise bs, P c := by
  have hin : ∀ {u v w : List Token}, operand ++ (ts ++ rest) = u ++ (v ++ w) → ∀ c ∈ stretch v, P c := by
    intro u v w heq
    refine Token.forall_mem_stretch hgap fun t ht => htokens t ?_
    rw [heq]
    simp [ht]
  refine mem_nestCells hwritten (hin (u := []) rfl) (fun b hb => ?_) ?_
  · obtain ⟨⟨-, us, vs, hus⟩, -, us', vs', hus'⟩ := branched.infixes hb
    refine ⟨hin (u := operand ++ us) (w := vs ++ rest) ?_, hin (u := operand ++ us') (w := vs' ++ rest) ?_⟩
    · rw [hus]
      simp
    · rw [hus']
      simp
  · cases ends with
    | absent =>
      intro c hc
      rw [List.mem_singleton.1 hc]
      exact hnull
    | @present elseWord us word answered => exact hin (u := operand ++ (ts ++ [elseWord])) (w := []) (by simp)

theorem Swapped.source (h : Swapped X D Y N) : ∀ c ∈ N, c ∈ X ++ (D ++ Y) ∨ Cell.Plain c := by
  cases h with
  | @nest _ otherwise word whenWord endWord operand ts rest bs opening isWord first closing branched ends
      copied written parts other innermost =>
    refine forall_mem_nestCells (fun g => .inr (Cell.plain_gap g)) (fun c hc => .inr (plain_written c hc))
      (.inr (Cell.plain_word (Cell.isWord_of_isAlpha (by decide) (by decide)))) branched ends
      fun t ht => .inl ?_
    rw [List.mem_append, List.mem_append]
    refine .inr (.inl (Token.cell_mem_stretch ?_))
    simp only [List.mem_append, List.mem_cons] at ht ⊢
    grind

/-- What has a property in a nest, with the operand once for each branch. -/
theorem filter_nestCells (hp : Cell.Spares p) :
    (nestCells operand otherwise bs).filter p = (bs.flatMap fun b => (operand.map Token.cell).filter p
      ++ ((b.condition.map Token.cell).filter p ++ (b.result.map Token.cell).filter p))
      ++ otherwise.filter p := by
  have hsign : ∀ {c : Char}, c = '(' ∨ c = ')' ∨ c = ',' → p (Cell.sign c) = false :=
    fun hc => Cell.plain_sign hc p hp
  have hcomparand : ∀ ts, (comparandCells ts).filter p = (ts.map Token.cell).filter p := by
    intro ts
    unfold comparandCells
    split
    · exact Token.filter_stretch hp.gap ts
    · simp [Token.filter_stretch hp.gap, hsign]
  unfold nestCells
  induction bs with
  | nil => rfl
  | cons b bs ih =>
    have hcondition : (conditionCells operand b).filter p
        = (operand.map Token.cell).filter p ++ (b.condition.map Token.cell).filter p := by
      unfold conditionCells
      split
      · next hnil => rw [hnil, Token.filter_stretch hp.gap]; rfl
      · simp [hcomparand, Cell.space, hp.gap, plain_equals p hp]
    rw [List.foldr_cons, callCells]
    have hiif : p (Cell.word "IIf".toList) = false := plain_iif p hp
    simp only [List.filter_cons, List.filter_append, hiif, hsign, true_or, or_true, Bool.false_eq_true,
      if_false, hcondition, Cell.space, hp.gap, Token.filter_stretch hp.gap, ih, List.filter_nil,
      List.append_nil, List.flatMap_cons, List.append_assoc]

theorem Branched.filter (hp : Cell.Spares p) (h : Branched ts bs) :
    (ts.map Token.cell).filter p = bs.flatMap fun b =>
      (b.condition.map Token.cell).filter p ++ (b.result.map Token.cell).filter p := by
  induction h with
  | last word asked answered =>
    simp [Token.plain_of_isKeyword word p hp]
  | cons word next asked answered rest ih =>
    simp [Token.plain_of_isKeyword word p hp, Token.plain_of_isKeyword next p hp, ih]

/-- Parameters in an operand are not copied. -/
theorem Swapped.filter_isMarker (h : Swapped X D Y N) :
    N.filter Cell.isMarker = D.filter Cell.isMarker := by
  have hp := Cell.spares_isMarker
  cases h with
  | @nest _ otherwise word whenWord endWord operand ts rest bs opening isWord first closing branched ends
      copied written parts other innermost =>
    have hrest : (rest.map Token.cell).filter Cell.isMarker = otherwise.filter Cell.isMarker := by
      cases ends with
      | absent => rfl
      | present word answered =>
        rw [Token.filter_stretch hp.gap, List.map_cons,
          List.filter_cons_of_neg (by simp [Token.plain_of_isKeyword word _ hp])]
    have hD : (stretch (word :: (operand ++ whenWord :: (ts ++ rest) ++ [endWord]))).filter Cell.isMarker
        = (operand.map Token.cell).filter Cell.isMarker
          ++ ((ts.map Token.cell).filter Cell.isMarker ++ otherwise.filter Cell.isMarker) := by
      rw [Token.filter_stretch hp.gap]
      simp [Token.plain_of_isKeyword opening _ hp,
        Token.plain_of_isKeyword first _ hp, Token.plain_of_isKeyword closing _ hp, hrest]
    rw [hD, filter_nestCells hp, branched.filter hp]
    have hnone : (operand.map Token.cell).filter Cell.isMarker = [] ∨ bs.length = 1 := by
      rcases copied with rfl | hlen | hall
      · exact .inl rfl
      · exact .inr hlen
      · left
        refine List.filter_eq_nil_iff.2 fun c hc => ?_
        obtain ⟨t, ht, rfl⟩ := List.mem_map.1 hc
        rw [Bool.not_eq_true]
        exact hall t ht
    rcases hnone with hnil | hlen
    · simp [hnil]
    · obtain ⟨b, rfl⟩ := List.length_eq_one_iff.1 hlen
      simp

/-! ### The edit -/

/-- The text for a `CASE` is the nest of its branches. -/
theorem caseText_eq_ok {inside : List Token} {text : SqlText}
    (h : caseText depth inside = .ok text) :
    ∃ operand whenWord ts rest bs otherwise, inside = operand ++ whenWord :: (ts ++ rest) ∧
      whenWord.isKeywordAt depth .WHEN = true ∧ branches depth ts = .ok bs ∧ Otherwise rest otherwise ∧
      (∀ t ∈ rest.head?, t.depth = depth) ∧
      (operand = [] ∨ bs.length = 1 ∨ ∀ t ∈ operand, t.kind.isMarker = false) ∧
      text = spell (nestCells operand otherwise bs) := by
  unfold caseText at h
  split at h
  · next operand whenWord afterWhen hwhen =>
    obtain ⟨rfl, hword, -⟩ := Token.splitFirst_eq_some hwhen
    split at h
    next branchTokens elseTokens helse =>
    cases hbs : branches depth branchTokens with
    | error fault =>
      rw [hbs] at h
      cases h
    | ok bs =>
      rw [hbs] at h
      change (if _ then _ else _) = _ at h
      split at h
      · cases h
      next hmarked =>
      have hcopied : operand = [] ∨ bs.length = 1 ∨ ∀ t ∈ operand, t.kind.isMarker = false := by
        by_cases hnil : operand = []
        · exact .inl hnil
        by_cases hlen : bs.length > 1
        · refine .inr (.inr fun t ht => Bool.eq_false_iff.2 fun hm => hmarked ⟨hnil, hlen, ?_⟩)
          exact List.any_eq_true.2 ⟨t, ht, hm⟩
        · obtain ⟨b, bs', rfl⟩ := (branched hbs).exists_cons
          exact .inr (.inl (by simp at hlen ⊢; exact hlen))
      have hlayout : ∃ rest, afterWhen = branchTokens ++ rest ∧
          (rest = [] ∧ elseTokens = none ∨
            ∃ e ts, rest = e :: ts ∧ e.isKeywordAt depth .ELSE = true ∧ elseTokens = some ts) := by
        split at helse
        · next before e after hfound =>
          cases helse
          obtain ⟨rfl, he, -⟩ := Token.splitFirst_eq_some hfound
          exact ⟨_, rfl, .inr ⟨_, _, rfl, he, rfl⟩⟩
        · cases helse
          exact ⟨[], (List.append_nil _).symm, .inl ⟨rfl, rfl⟩⟩
      obtain ⟨rest, rfl, hrest⟩ := hlayout
      refine ⟨operand, whenWord, branchTokens, rest, bs, ?_⟩
      rcases hrest with ⟨rfl, rfl⟩ | ⟨e, ts, rfl, he, rfl⟩
      · cases h
        refine ⟨_, rfl, hword, hbs, .absent, nofun, hcopied, ?_⟩
        rw [spell_nestCells]
        simp
      · cases ts with
        | nil => cases h
        | cons t ts =>
          cases h
          refine ⟨_, rfl, hword, hbs, .present (Token.isKeyword_of_isKeywordAt he) (List.cons_ne_nil _ _), ?_, hcopied, ?_⟩
          · intro u hu
            obtain rfl : e = u := Option.some.inj hu
            exact Token.depth_of_isKeywordAt he
          rw [spell_nestCells, Token.spell_stretch]
  · cases h

/-- A `CASE` in a text makes room for the nest of its branches. -/
theorem swapped_of_isRead {q : Query} {tail : List Cell} {as rest more : List Token} {word whenWord endWord : Token}
    (h : q.IsRead tail)
    (hq : q.tokens = as ++ ((word :: (operand ++ whenWord :: (ts ++ rest) ++ [endWord])) ++ more))
    (hcase : word.isKeyword .CASE = true) (hwhen : whenWord.isKeyword .WHEN = true)
    (hend : endWord.isKeyword .END = true) (hbs : Branched ts bs) (hother : Otherwise rest otherwise)
    (hcopied : operand = [] ∨ bs.length = 1 ∨ ∀ t ∈ operand, t.kind.isMarker = false)
    (honly : ∀ t ∈ operand ++ whenWord :: (ts ++ rest), t.isKeyword .CASE = false) :
    Swapped (Token.cells as ++ Cell.ofGap word.gap)
      (stretch (word :: (operand ++ whenWord :: (ts ++ rest) ++ [endWord]))) (Token.cells more ++ tail)
      (nestCells operand otherwise bs) := by
  have hwrite : ∀ {u v w : List Token}, operand ++ whenWord :: (ts ++ rest) = u ++ (v ++ w) →
      v ≠ [] → Writable (stretch v) := by
    intro u v w heq hv
    refine h.writable (a := as ++ word :: u) (b := w ++ endWord :: more) ?_ hv
    rw [hq, heq]
    simp
  have hparts : ∀ b ∈ bs, Writable (stretch b.condition) ∧ Writable (stretch b.result) := by
    intro b hb
    obtain ⟨⟨hc, us, vs, hus⟩, hr, us', vs', hus'⟩ := hbs.infixes hb
    refine ⟨hwrite (u := operand ++ whenWord :: us) (w := vs ++ rest) ?_ hc,
      hwrite (u := operand ++ whenWord :: us') (w := vs' ++ rest) ?_ hr⟩
    · rw [hus]
      simp
    · rw [hus']
      simp
  have hotherwise : Writable otherwise := by
    cases hother with
    | absent => exact .word (Cell.isWord_of_isAlpha (by decide) (by decide)) (by decide)
    | @present elseWord us word answered =>
      exact hwrite (u := operand ++ whenWord :: (ts ++ [elseWord])) (w := []) (by simp) answered
  have hsplit : q.tokens = as ++ word :: (operand ++ whenWord :: (ts ++ rest) ++ [endWord] ++ more) := by
    rw [hq]
    rfl
  have hword := isWord_of_isKeyword (h.fits hsplit) hcase
  exact .nest hcase hword hwhen hend hbs hother hcopied (fun hne => hwrite (u := []) rfl hne) hparts hotherwise honly

/-- How the tokens of a `CASE` are laid out that a step makes a nest of calls of. -/
structure IsCase (whole : List Token) (operand : List Token) (bs : List Branch) (otherwise : List Cell)
    (word whenWord endWord : Token) (ts rest : List Token) : Prop where
  tokens : whole = word :: (operand ++ whenWord :: (ts ++ rest) ++ [endWord])
  opening : word.isKeyword .CASE = true
  first : whenWord.isKeywordAt word.depth .WHEN = true
  closing : endWord.isKeywordAt word.depth .END = true
  branches : branches word.depth ts = .ok bs
  ends : Otherwise rest otherwise
  placed : ∀ t ∈ rest.head?, t.depth = word.depth
  copied : operand = [] ∨ bs.length = 1 ∨ ∀ t ∈ operand, t.kind.isMarker = false
  innermost : ∀ t ∈ operand ++ whenWord :: (ts ++ rest), t.isKeyword .CASE = false

theorem exists_isCase {q : Query} {e : Edit} (he : step q = .ok (some e)) :
    ∃ as whole more operand bs otherwise word whenWord endWord ts rest, q.tokens = as ++ (whole ++ more) ∧
      IsCase whole operand bs otherwise word whenWord endWord ts rest ∧
      e = ⟨⟨word.start, endWord.stop⟩, spell (nestCells operand otherwise bs)⟩ := by
  unfold step at he
  split at he
  · cases he
  next as word after hlast =>
  split at he
  case h_2 => cases he
  next edit hedit =>
  cases he
  obtain ⟨hq, hcase, honly⟩ := Token.splitLast_eq_some hlast
  unfold caseEdit at hedit
  split at hedit
  case h_2 => cases hedit
  next inside last more hend =>
  obtain ⟨rfl, hlast', -⟩ := Token.splitFirst_eq_some hend
  cases htext : caseText word.depth inside with
  | error fault =>
    rw [htext] at hedit
    cases hedit
  | ok text =>
    rw [htext] at hedit
    cases hedit
    obtain ⟨operand, whenWord, ts, rest, bs, otherwise, rfl, hwhen, hbs, hother, hplaced, hcopied, rfl⟩ :=
      caseText_eq_ok htext
    refine ⟨as, _, more, operand, bs, otherwise, word, whenWord, last, ts, rest, by rw [hq]; simp,
      ⟨rfl, hcase, hwhen, hlast', hbs, hother, hplaced, hcopied, fun t ht => ?_⟩, rfl⟩
    rw [← Bool.not_eq_true]
    exact honly t (List.mem_append_left _ ht)

/-- Where the tokens of a `CASE` make room for a nest, the edit is a swap of each sort that this is. -/
theorem isSwap_of {R : Swap} {q : Query} {tail : List Cell} (h : q.IsRead tail) {e : Edit} (he : step q = .ok (some e))
    (hR : ∀ {as whole more operand bs otherwise word whenWord endWord ts rest}, q.tokens = as ++ (whole ++ more) →
      IsCase whole operand bs otherwise word whenWord endWord ts rest →
      Swapped (Token.cells as ++ Cell.ofGap word.gap) (stretch whole) (Token.cells more ++ tail)
        (nestCells operand otherwise bs) →
      R (Token.cells as ++ Cell.ofGap word.gap) (stretch whole) (Token.cells more ++ tail)
        (nestCells operand otherwise bs)) :
    e.IsSwap R (fun _ => false) (Token.cells q.tokens ++ tail) := by
  obtain ⟨as, whole, more, operand, bs, otherwise, word, whenWord, endWord, ts, rest, hq, hcase, rfl⟩ := exists_isCase he
  obtain rfl := hcase.tokens
  obtain ⟨hcells, hstart, hstop⟩ := h.split hq
  have hswap := swapped_of_isRead h hq hcase.opening (Token.isKeyword_of_isKeywordAt hcase.first)
    (Token.isKeyword_of_isKeywordAt hcase.closing) (branched hcase.branches) hcase.ends hcase.copied hcase.innermost
  refine .of_eq (hR hq hcase hswap) hcells hstart ?_ rfl
  have hstop' := hstop 0
  rwa [← List.cons_append, Token.stopOr_concat] at hstop'

theorem isSwap {q : Query} {tail : List Cell} (h : q.IsRead tail) {e : Edit} (he : step q = .ok (some e)) :
    e.IsSwap Swapped (fun _ => false) (Token.cells q.tokens ++ tail) :=
  isSwap_of h he fun _ _ hswap => hswap

/-- What a step makes of a text. -/
theorem once {text out : SqlText} {q : Query} {e : Edit} (hq : Query.ofText text = .ok q)
    (he : step q = .ok (some e)) (happ : Edit.applyAll [e] text = .ok out) :
    Swap.Once Swapped text out :=
  Query.once hq (fun _ => false) (fun _ hread => isSwap hread he) happ

end JetAdapter.Conditional
