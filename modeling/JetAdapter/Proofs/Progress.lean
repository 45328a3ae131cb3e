import JetAdapter.Proofs.CaseSwaps
import JetAdapter.Proofs.DistinctSwaps
import JetAdapter.Proofs.Rounds
import JetAdapter.Proofs.Tallies

/-!
# Repeated steps use words up

Every change that a repeated step makes uses up a word: the name of a call, a `CASE`, or a `DISTINCT` or its
place behind the parenthesis of an aggregate.  So the rounds suffice, and what comes out is a text in which the
step finds nothing to do.
-/

namespace JetAdapter

open Cell (Sound Settles Replaces spell ofGap)
open Token (stretch)

/-! ### Cells and characters -/

theorem Cell.Sound.length_le {cs : List Cell} (h : Sound cs) : cs.length ≤ (spell cs).length := by
  induction h with
  | nil => exact Nat.le_refl 0
  | @cons c cs fits rest ih =>
    obtain ⟨d, w, hd⟩ := List.exists_cons_of_ne_nil fits.text_ne_nil
    rw [Cell.spell_cons, hd, List.length_cons, List.length_append, List.length_cons]
    omega

theorem Cell.length_filter_ofText_le (p : Cell → Bool) (t : SqlText) :
    ((ofText t).filter p).length ≤ t.length := by
  have hle := (sound_ofText t).length_le
  rw [spell_ofText] at hle
  exact Nat.le_trans (List.length_filter_le _ _) hle

/-- The tokens that a swap leaves that is harmless to all of them. -/
theorem Swap.Once.filter_isToken {R : Swap} {text out : SqlText} (h : R.Once text out)
    (hR : Woven.Harmless Cell.isToken R) (hf : ∀ c ∈ Cell.ofText text, c.isFault = false) :
    ∃ X D Y N, R X D Y N ∧ Cell.ofText text = X ++ (D ++ Y) ∧
      (Cell.ofText out).filter Cell.isToken = (X ++ (N ++ Y)).filter Cell.isToken := by
  obtain ⟨X, D, Y, N, hsw, hcs, rfl⟩ := h
  have hw : Woven R [] (Cell.ofText text) (X ++ (N ++ Y)) := by
    rw [hcs]
    exact .keep_append (.swap hsw (.refl _ _))
  obtain ⟨⟨ss, hset, -⟩, -⟩ := hw.settles hR (Cell.sound_ofText text) hf
  refine ⟨X, D, Y, N, hsw, hcs, ?_⟩
  rw [← hset.spelled, hset.sound.ofText_spell]
  refine hset.filter (fun _ => rfl) fun c _ hc => ?_
  cases c with
  | gap g => cases hc
  | token k t => rfl

/-- What has a property is counted among the tokens. -/
theorem Cell.filter_filter_isToken {p : Cell → Bool} (hp : ∀ g, p (.gap g) = false) (cs : List Cell) :
    (cs.filter isToken).filter p = cs.filter p := by
  rw [List.filter_filter]
  refine List.filter_congr fun c _ => ?_
  cases c with
  | gap g => simp [hp]
  | token k t => simp [isToken, isGap]

/-- A step that makes swaps which use up cells with a property has fewer of them left. -/
theorem Query.shrinks_of_swaps {R : Swap} {p : Cell → Bool} {step : Query → Except SqlError (Option Edit)}
    (hp : ∀ g, p (.gap g) = false) (hR : Woven.Harmless Cell.isToken R)
    (hless : ∀ {X D Y N : List Cell}, R X D Y N → (N.filter p).length < (D.filter p).length)
    (honce : ∀ {t u : SqlText} {q : Query} {e : Edit}, ofText t = .ok q → step q = .ok (some e) →
      Edit.applyAll [e] t = .ok u → R.Once t u)
    (hpos : ∀ {t : SqlText} {q : Query} {e : Edit}, ofText t = .ok q → step q = .ok (some e) →
      ∃ c ∈ Cell.ofText t, p c = true) : Shrinks step fun t => ((Cell.ofText t).filter p).length where
  le := Cell.length_filter_ofText_le p
  less := by
    intro t u q q' e hq he hu _
    obtain ⟨X, D, Y, N, hsw, hcs, htokens⟩ := (honce hq he hu).filter_isToken hR (isFault_of_ofText hq)
    have hless := hless hsw
    have hu := congrArg (List.filter p) htokens
    rw [Cell.filter_filter_isToken hp, Cell.filter_filter_isToken hp] at hu
    rw [hu, hcs]
    simp only [List.filter_append, List.length_append]
    omega
  pos := by
    intro t q e hq he
    obtain ⟨c, hc, hpc⟩ := hpos hq he
    exact List.length_pos_of_mem (List.mem_filter.2 ⟨hc, hpc⟩)

/-- The cell of a token of a query is a cell of its text. -/
theorem Query.cell_mem_ofText {text : SqlText} {q : Query} {t : Token} (hq : ofText text = .ok q)
    (ht : t ∈ q.tokens) : t.cell ∈ Cell.ofText text := by
  obtain ⟨rfl, tail, h⟩ := isRead hq
  rw [h.cells]
  refine List.mem_append_left _ (List.mem_flatMap.2 ⟨t, ht, ?_⟩)
  simp

/-! ### Searching in texts -/

namespace Locate

/-- Whether the cell is spelled like the function that is replaced. -/
def isSpelled : Cell → Bool
  | .gap _ => false
  | .token _ t => Text.sameWord t "locate".toList

theorem Swapped.length_filter {X D Y N : List Cell} (h : Swapped X D Y N) :
    (N.filter isSpelled).length < (D.filter isSpelled).length := by
  have hgap : ∀ g, isSpelled (.gap g) = false := fun _ => rfl
  have hI : isSpelled (Cell.word "InStr".toList) = false := by decide
  have hleft : isSpelled (Cell.sign '(') = false := by decide
  have hright : isSpelled (Cell.sign ')') = false := by decide
  have hcomma : isSpelled (Cell.sign ',') = false := by decide
  have hspace : isSpelled Cell.space = false := rfl
  have hlen : ∀ t : Token, ([t.cell].filter isSpelled).length ≥ 0 := fun _ => Nat.zero_le _
  cases h with
  | @two _ name opening comma closing needle haystack found left sep right one other =>
    have hname : isSpelled name.cell = true := found
    simp only [Token.filter_stretch hgap, List.filter_cons, List.filter_append, hI, hleft, hcomma, hspace,
      hright, hname, if_true, Bool.false_eq_true, if_false, List.map_cons, List.map_append, List.length_cons,
      List.length_append, List.filter_nil, List.length_nil, List.map_nil]
    split <;> split <;> simp <;> omega
  | @three _ name opening comma comma' closing needle haystack start found left sep sep' right one other
      third =>
    have hname : isSpelled name.cell = true := found
    simp only [Token.filter_stretch hgap, List.filter_cons, List.filter_append, hI, hleft, hcomma, hspace,
      hright, hname, if_true, Bool.false_eq_true, if_false, List.map_cons, List.map_append, List.length_cons,
      List.length_append, List.filter_nil, List.length_nil, List.map_nil]
    split <;> split <;> split <;> simp <;> omega

theorem shrinks : Query.Shrinks step fun t => ((Cell.ofText t).filter isSpelled).length := by
  refine Query.shrinks_of_swaps (fun _ => rfl) (harmless _) Swapped.length_filter once fun {t q e} hq he => ?_
  unfold step at he
  split at he
  · cases he
  · next c hc =>
    obtain ⟨as, bs, htokens, hname, -⟩ := Call.mem_among (List.mem_of_getLast? hc)
    exact ⟨c.name.cell, Query.cell_mem_ofText hq (by rw [htokens]; simp [Call.tokens]), hname⟩

theorem convert_eq_ok {text out : SqlText} (h : convert text = .ok out) :
    ∃ q, Query.ofText out = .ok q ∧ step q = .ok none :=
  shrinks.exhaust_eq_ok h

end Locate

/-! ### Conditional expressions -/

namespace Conditional

/-- Whether the cell opens a conditional expression. -/
def isOpening : Cell → Bool
  | .token (.keyword .CASE) _ => true
  | _ => false

theorem isOpening_cell (t : Token) : isOpening t.cell = t.isKeyword .CASE := by
  show isOpening (.token t.kind t.text) = decide (t.kind = .keyword .CASE)
  cases t.kind with
  | keyword k => cases k <;> rfl
  | _ => rfl

theorem Swapped.length_filter {X D Y N : List Cell} (h : Swapped X D Y N) :
    (N.filter isOpening).length < (D.filter isOpening).length := by
  cases h with
  | @nest _ otherwise word whenWord endWord operand ts rest bs opening isWord first closing branched ends
      copied written parts other innermost =>
    have hD : isOpening word.cell = true := by rw [isOpening_cell, opening]
    have hN : ∀ c ∈ nestCells operand otherwise bs, isOpening c = false := by
      refine forall_mem_nestCells (fun _ => rfl) (by decide) (by decide) branched ends fun t ht => ?_
      rw [isOpening_cell]
      refine innermost t ?_
      simp only [List.mem_append, List.mem_cons] at ht ⊢
      grind
    rw [List.filter_eq_nil_iff.2 fun c hc => by simp [hN c hc], Token.stretch_cons,
      List.filter_cons_of_pos hD]
    simp

theorem shrinks : Query.Shrinks step fun t => ((Cell.ofText t).filter isOpening).length := by
  refine Query.shrinks_of_swaps (fun _ => rfl) (harmless _) Swapped.length_filter once fun {t q e} hq he => ?_
  unfold step at he
  split at he
  · cases he
  · next as word after hlast =>
    obtain ⟨htokens, hcase, -⟩ := Token.splitLast_eq_some hlast
    exact ⟨word.cell, Query.cell_mem_ofText hq (by rw [htokens]; simp), by rw [isOpening_cell, hcase]⟩

theorem convert_eq_ok {text out : SqlText} (h : convert text = .ok out) :
    ∃ q, Query.ofText out = .ok q ∧ step q = .ok none :=
  shrinks.exhaust_eq_ok h

end Conditional

/-! ### Aggregates over distinct values -/

namespace Distinct

theorem Swapped.ne_nil {X D Y N : List Cell} (h : Swapped X D Y N) : D ≠ [] := by
  cases h with
  | plain left word => exact List.cons_ne_nil _ _
  | derived => exact List.cons_ne_nil _ _

/-- The tokens that a swap leaves, if it leaves no faults: the last one that is swapped in may have changed. -/
theorem tokens_of_once {R : Swap} {text out : SqlText} (hR : ∀ {X D Y N}, R X D Y N → Swapped X D Y N)
    (h : R.Once text out) (hf : ∀ c ∈ Cell.ofText text, c.isFault = false)
    (hout : ∀ c ∈ Cell.ofText out, c.isFault = false) :
    ∃ X D Y N as bs, R X D Y N ∧ Cell.ofText text = X ++ (D ++ Y) ∧
      (Cell.ofText out).filter Cell.isToken = (X ++ (as ++ bs)).filter Cell.isToken ∧
      (as ++ bs = N ++ Y ∨ ∃ k v, N = as ++ [.token k v] ∧ Cell.Joined k v Y bs ∧ Cell.AtEnd Y) := by
  obtain ⟨X, D, Y, N, hold, hcs, rfl⟩ := h
  have hsw := hR hold
  have hsound := Cell.sound_ofText text
  rw [hcs] at hsound hf
  have hN : ∀ c ∈ N, c.isFault = false :=
    fun c hc => (hsw.source c hc).elim (hf c) fun hp => hp _ Cell.spares_isFault
  -- What stands for the tokens is a property that no gap and no fault has.
  let p : Cell → Bool := fun c => c.isToken && !c.isFault
  have hfault : ∀ c : Cell, c.isFault = true → p c = false := fun c hc => by simp [p, hc]
  have hfilter : ∀ {cs : List Cell}, (∀ c ∈ cs, c.isFault = false) → cs.filter p = cs.filter Cell.isToken := by
    intro cs hcs
    refine List.filter_congr fun c hc => ?_
    simp [p, hcs c hc]
  have hread : ∀ {os ss : List Cell}, Settles p os ss → Replaces (D ++ Y) ss → D ++ Y ≠ [] →
      spell os = spell (N ++ Y) → (∀ c ∈ os, c.isFault = false) →
      (Cell.ofText (spell (X ++ (N ++ Y)))).filter Cell.isToken = (X ++ os).filter Cell.isToken := by
    intro os ss hset hr hne hspell hos
    obtain ⟨ss', h', -⟩ := hset.keep_all hsound (fun c hc => hf c (List.mem_append_left _ hc)) hne hr
    have hss : Cell.ofText (spell (X ++ (N ++ Y))) = ss' := by
      rw [Cell.spell_append, ← hspell, ← Cell.spell_append, ← h'.spelled, h'.sound.ofText_spell]
    rw [hss] at hout ⊢
    have hsame := h'.filter (fun _ => rfl) fun c hc hf => by rw [hout c hc] at hf; cases hf
    rwa [hfilter hout, hfilter] at hsame
    intro c hc
    exact (List.mem_append.1 hc).elim (fun hc => hf c (List.mem_append_left _ hc)) (hos c)
  have hY := hsound.of_append.of_append
  have hfY : ∀ c ∈ Y, c.isFault = false := fun c hc => hf c (by simp [hc])
  have hrefl : Replaces Y Y := ⟨.refl _, fun hg => .inl hg⟩
  rcases hsw.settles hsound hf with hset | ⟨soft, ends, as, k, v, rest, rfl, hk, hfit, hset⟩
  · obtain ⟨ss, hset, hr⟩ := hset (p := p) (.refl hY)
    refine ⟨X, D, Y, N, N, Y, hold, hcs, hread hset hr ?_ rfl fun c hc => ?_, .inl rfl⟩
    · exact fun hn => hsw.ne_nil (List.append_eq_nil_iff.1 hn).1
    · exact (List.mem_append.1 hc).elim (hN c) (hfY c)
  · obtain ⟨bs, hj⟩ := soft.joined hY hfit hk
    have hbs := hj.isFault hk hfY
    obtain ⟨ss, hset, hr⟩ := hset hfault soft hY hj (.refl (hj.sound hY))
    refine ⟨X, D, Y, _, as, bs, hold, hcs, hread hset hr ?_ ?_ fun c hc => ?_, .inr ⟨k, v, rfl, hj, ends⟩⟩
    · exact fun hn => hsw.ne_nil (List.append_eq_nil_iff.1 hn).1
    · rw [Cell.spell_append, hj.spelled]
      simp
    · exact (List.mem_append.1 hc).elim (fun hc => hN c (by simp [hc])) (hbs c)

section Counting

variable {w : Tally} {s : Lead}

/-- Without the `DISTINCT` of a call at least one less is counted. -/
theorem count_plain {opening distinct next : Token} {cs : List Cell}
    (left : opening.isSymbol .leftParen = true) (word : distinct.isKeyword .DISTINCT = true) :
    w.count s (opening.cell :: ofGap distinct.gap ++ cs) + w.distinct ≤
      w.count s (opening.cell :: (ofGap distinct.gap ++ distinct.cell :: ofGap next.gap) ++ cs) := by
  have hle : w.count .opened cs ≤ w.pending + w.count .other cs := Tally.count_opened_le
  simp only [List.cons_append, List.append_assoc, Tally.count_cons, Tally.count_append, Tally.count_ofGap,
    Tally.after_ofGap, (Tally.weigh_left left).1, (Tally.weigh_left left).2, (Tally.weigh_distinct word).1,
    (Tally.weigh_distinct word).2]
  split
  · simp
    omega
  · simp
    omega

/-- What moves out of a scope counts no more than the scope. -/
theorem Laid.count_le {behind inner order : List Token} {Y : List Cell} (h : Laid behind inner order)
    (ends : Cell.AtEnd Y) : w.count .other (stretch inner) + (w.count .other (stretch order)
      + w.count .other Y) ≤ w.count s (Token.cells behind ++ Y) := by
  cases h with
  | @apart u inner order v rows ordered =>
    have hinner : ∀ s', w.count .other (stretch inner) ≤ w.count (w.after s' (Token.cells u)) (stretch inner) := by
      intro s'
      by_cases hne : inner = []
      · subst hne
        exact Nat.zero_le _
      · obtain ⟨us, f, rfl, hfrom⟩ := rows hne
        have hquiet : w.Quiet f.cell := Tally.quiet_of_endsClause (.inr (.inr ⟨.FROM, by simp, hfrom⟩))
        simp [Tally.after_append, (hquiet _).2]
    have horder : ∀ s', w.count .other (stretch order) = w.count s' (stretch order) := by
      intro s'
      refine Tally.count_eq_of_quiet fun c hc => ?_
      by_cases hne : order = []
      · subst hne
        cases hc
      · obtain ⟨o, os, rfl, hword⟩ := ordered hne
        obtain rfl : o.cell = c := by simpa [Cell.firstToken?, Cell.isToken, Cell.isGap, Token.cell] using hc
        exact Tally.quiet_of_endsClause (.inr (.inr ⟨.ORDER, by simp, hword⟩))
    simp only [Token.cells_append, List.append_assoc, Tally.count_append, Tally.count_cells, Tally.after_cells]
    have h₁ := hinner s
    have h₂ := horder (w.after (w.after s (Token.cells u)) (stretch inner))
    rw [Tally.after_cells] at h₁ h₂
    have hY : w.count .other Y = w.count (w.after (w.after (w.after (w.after s (stretch u)) (stretch inner))
      (stretch order)) (stretch v)) Y := Tally.count_eq_of_atEnd ends
    omega

theorem count_headCells {front named : List Token} {cs : List Cell} :
    w.count s (headCells front named ++ cs) = w.count s (stretch front ++ Cell.sign '(' ::
      Cell.word "distinct_value".toList :: Cell.sign ')' :: (stretch named ++ cs)) := by
  unfold headCells
  simp only
  split
  · next hn =>
    subst hn
    simp [stretch]
  · simp [Cell.space]

/-- A new scope counts less than the old one by the `DISTINCT` directly behind the parenthesis. -/
theorem count_derived {select name opening distinct closing : Token} {Y : List Cell}
    {modifiers operand named behind inner order : List Token} (word : select.isKeyword .SELECT = true)
    (unqualified : ∀ t ∈ modifiers.getLast?, t.isSymbol .dot = false)
    (aggregate : (aggregate? name).isSome = true) (left : opening.isSymbol .leftParen = true)
    (distinctWord : distinct.isKeyword .DISTINCT = true) (right : closing.isSymbol .rightParen = true)
    (laid : Laid behind inner order) (ends : Cell.AtEnd Y)
    (hvalue : w.Quiet (Cell.word "distinct_value".toList)) (hrows : w.Quiet (Cell.word "distinct_rows".toList)) :
    w.count s (derivedCells (select :: (modifiers ++ [name])) named operand inner order ++ Y)
        + (if w.aggregates then w.pending else 0) ≤
      w.count s (stretch (select :: (modifiers ++ (name :: opening :: distinct ::
        (operand ++ closing :: (named ++ behind))))) ++ Y) := by
  have hquiet : ∀ {y : Keyword}, y ∉ Tally.counted → ∀ t, w.Quiet (.token (.keyword y) t) :=
    fun hy _ => Tally.quiet_of_not_counted hy
  have hselect : w.Quiet select.cell := by
    have hk : select.kind = .keyword .SELECT := Kind.isKeyword_iff.1 word
    rw [Token.cell, hk]
    exact hquiet (by decide) _
  have hright : w.Quiet closing.cell := by
    have hk : closing.kind = .symbol .rightParen := Kind.isSymbol_iff.1 right
    rw [Token.cell, hk]
    exact Tally.quiet_symbol (by decide) (by decide)
  have hFrom : w.Quiet (Cell.word "FROM".toList) := hquiet (y := .FROM) (by decide) _
  have hAs : w.Quiet (Cell.word "AS".toList) := hquiet (y := .AS) (by decide) _
  have hSelect : w.Quiet (Cell.word "SELECT".toList) := hquiet (y := .SELECT) (by decide) _
  have hSign : w.Quiet (Cell.sign ')') := Tally.quiet_sign (.inl rfl)
  have hspace : ∀ {s : Lead} {cs : List Cell}, w.count s (Cell.space :: cs) = w.count s cs := by
    intro s cs
    rw [Tally.count_cons]
    exact Nat.zero_add _
  have hDistinct : ∀ {cs : List Cell}, w.count .other (Cell.word "DISTINCT".toList :: cs)
      = w.distinct + w.count .other cs := by
    intro cs
    have hcell : Cell.word "DISTINCT".toList = .token (.keyword .DISTINCT) "DISTINCT".toList := rfl
    rw [hcell, Tally.count_cons]
    have hnext : w.next .other (.token (.keyword .DISTINCT) "DISTINCT".toList) = .other := by
      show (if _ then _ else _) = _
      rw [if_neg]
      simp [Tally.isName, Keyword.isAggregate]
    rw [hnext]
    rfl
  have hparen : ∀ {cs : List Cell}, w.count .other (Cell.sign '(' :: cs) = w.count .other cs := by
    intro cs
    rw [Tally.count_cons, Tally.weigh_sign_left, Tally.next_sign_left]
    exact Nat.zero_add _
  have hrowsCells : ∀ {s : Lead}, w.count s (rowsCells order ++ Y)
      = w.count .other (stretch order) + w.count .other Y := by
    intro s
    unfold rowsCells
    simp only [List.cons_append]
    rw [hSign.count, hspace, hAs.count, hspace, hrows.count]
    split
    · next hn =>
      subst hn
      exact (Nat.zero_add _).symm
    · rw [List.cons_append, hspace, Tally.count_append]
      congr 1
      exact Tally.count_eq_of_atEnd ends
  -- The new scope, from the parenthesis on.
  have hnew : w.count s (derivedCells (select :: (modifiers ++ [name])) named operand inner order ++ Y)
      = w.count s (stretch (select :: (modifiers ++ [name])) ++ Cell.sign '(' ::
          Cell.word "distinct_value".toList :: [])
        + (w.count .other (stretch named) + (w.distinct + (w.count .other (stretch operand)
          + (w.count .other (stretch inner) + (w.count .other (stretch order) + w.count .other Y))))) := by
    unfold derivedCells valueCells innerCells
    simp only [List.append_assoc, count_headCells, List.cons_append, List.nil_append]
    rw [Tally.count_append, Tally.count_cons, hvalue.count, hSign.count, Tally.count_append, hspace, hFrom.count,
      hspace, hparen, hSelect.count, hspace, hDistinct, hspace, Tally.count_append, hspace, hAs.count, hspace,
      hvalue.count, hspace, hFrom.count, hspace, Tally.count_append, hrowsCells, Tally.count_append,
      Tally.count_cons, hvalue.count, Tally.count_nil]
    omega
  -- What stands behind the name decides about the parenthesis.
  have hname : w.after s (stretch (select :: (modifiers ++ [name])))
      = if w.aggregates then .name else .other := by
    obtain ⟨y, hy⟩ := Option.isSome_iff_exists.1 aggregate
    obtain ⟨hk, hy⟩ := Option.filter_eq_some_iff.1 hy
    have hk : name.kind = .keyword y := by
      cases hkind : name.kind with
      | keyword z =>
        rw [hkind] at hk
        rw [Option.some.inj hk]
      | _ =>
        rw [hkind] at hk
        cases hk
    have hdot : w.after s (stretch (select :: modifiers)) ≠ .dot := by
      refine Tally.after_ne_dot (List.cons_ne_nil _ _) fun t ht => ?_
      rw [List.getLast?_cons] at ht
      cases hm : modifiers.getLast? with
      | none =>
        rw [hm] at ht
        obtain rfl : select = t := by simpa using ht
        have hk : select.kind = .keyword .SELECT := Kind.isKeyword_iff.1 word
        simp [Token.isSymbol, Kind.isSymbol, hk]
      | some u =>
        rw [hm] at ht
        obtain rfl : u = t := by simpa using ht
        exact unqualified u hm
    have hsplit : stretch (select :: (modifiers ++ [name]))
        = stretch (select :: modifiers) ++ (ofGap name.gap ++ [name.cell]) := by
      simp
    rw [hsplit, Tally.after_append, Tally.after_append, Tally.after_ofGap, Tally.after_cons, Tally.after_nil,
      Token.cell, hk]
    generalize w.after s (stretch (select :: modifiers)) = lead at hdot
    show (if _ then _ else _) = _
    simp [Tally.isName, hy, hdot]
  have hold : stretch (select :: (modifiers ++ (name :: opening :: distinct ::
      (operand ++ closing :: (named ++ behind))))) ++ Y = stretch (select :: (modifiers ++ [name])) ++
        (ofGap opening.gap ++ opening.cell :: (ofGap distinct.gap ++ distinct.cell ::
          (Token.cells operand ++ (ofGap closing.gap ++ closing.cell :: (Token.cells named ++
            (Token.cells behind ++ Y)))))) := by
    simp
  have hlaid := laid.count_le (w := w) (s := w.after .other (stretch named)) ends
  rw [Tally.count_append, Tally.count_cells, Tally.after_cells] at hlaid
  rw [hnew, hold]
  generalize stretch (select :: (modifiers ++ [name])) = front at hname
  simp only [hname, Tally.count_append, Tally.count_cons, Tally.count_ofGap, Tally.after_ofGap, (Tally.weigh_left left).1,
    (Tally.weigh_left left).2, (Tally.weigh_distinct distinctWord).1, (Tally.weigh_distinct distinctWord).2, (hright _).1,
    (hright _).2, Tally.count_cells, Tally.after_cells, Tally.weigh_sign_left, Tally.next_sign_left, (hvalue _).1, Tally.count_nil]
  split
  · simp
    omega
  · simp
    omega

theorem Swapped.count_add_le {X D Y N : List Cell} (h : Swapped X D Y N)
    (hvalue : w.Quiet (Cell.word "distinct_value".toList)) (hrows : w.Quiet (Cell.word "distinct_rows".toList)) :
    w.count s (N ++ Y) + min w.distinct (if w.aggregates then w.pending else 0) ≤ w.count s (D ++ Y) := by
  cases h with
  | plain left word =>
    refine Nat.le_trans (Nat.add_le_add_left (Nat.min_le_left _ _) _) ?_
    exact count_plain left word
  | derived word unqualified aggregate left distinctWord right laid front nameable value rows context soft ends =>
    refine Nat.le_trans (Nat.add_le_add_left (Nat.min_le_right _ _) _) ?_
    exact count_derived word unqualified aggregate left distinctWord right laid ends hvalue hrows

/-- A change counts less than the text before it, if no faults come out. -/
theorem count_add_le_of_once {text out : SqlText} (hw : w.Unmixed)
    (hvalue : w.Quiet (Cell.word "distinct_value".toList)) (hrows : w.Quiet (Cell.word "distinct_rows".toList))
    (h : Swap.Once Swapped text out) (hf : ∀ c ∈ Cell.ofText text, c.isFault = false)
    (hout : ∀ c ∈ Cell.ofText out, c.isFault = false) :
    w.count .other (Cell.ofText out) + min w.distinct (if w.aggregates then w.pending else 0) ≤
      w.count .other (Cell.ofText text) := by
  obtain ⟨X, D, Y, N, as, bs, hsw, hcs, htokens, hlast⟩ := tokens_of_once id h hf hout
  have hle : ∀ s, w.count s (as ++ bs) ≤ w.count s (N ++ Y) := by
    intro s
    rcases hlast with heq | ⟨k, v, rfl, hj, hends⟩
    · exact Nat.le_of_eq (by rw [heq])
    · rw [List.append_assoc, Tally.count_append, Tally.count_append]
      exact Nat.add_le_add_left (Tally.count_joined_le hw hends hj) _
  rw [Tally.count_congr htokens, hcs, Tally.count_append, show w.count .other (X ++ (D ++ Y)) = _ from Tally.count_append,
    Nat.add_assoc]
  refine Nat.add_le_add_left ?_ _
  exact Nat.le_trans (Nat.add_le_add_right (hle _) _) (hsw.count_add_le hvalue hrows)

end Counting

/-- The tally that changes make smaller: each `DISTINCT`, and one more directly behind the parenthesis of an
aggregate. -/
def tally : Tally :=
  ⟨[], true, 0, 1, 1, 0⟩

theorem count_tally_le {cs : List Cell} (h : Sound cs) (s : Lead) : tally.count s cs ≤ (spell cs).length := by
  induction h generalizing s with
  | nil => exact Nat.le_refl 0
  | @cons c cs fits rest ih =>
    have hweigh : tally.weigh s c ≤ c.text.length := by
      unfold Tally.weigh
      split
      · simp [tally]
      · next t =>
        have hlower := Tally.lower_eq_of_ofWord? (Cell.isWord_of_keyword fits).2
        have hlen := congrArg List.length hlower
        rw [Text.lower, Text.lower, List.length_map, List.length_map] at hlen
        have : t.length = 8 := hlen
        show _ ≤ t.length
        simp only [tally]
        split <;> omega
      · exact Nat.zero_le _
      · exact Nat.zero_le _
    rw [Tally.count_cons, Cell.spell_cons, List.length_append]
    exact Nat.add_le_add hweigh (ih _)

theorem shrinks : Query.Shrinks step fun t => tally.count .other (Cell.ofText t) where
  le := by
    intro t
    have := count_tally_le (Cell.sound_ofText t) .other
    rwa [Cell.spell_ofText] at this
  less := by
    intro t u q q' e hq he hu hq'
    have hvalue : tally.Quiet (Cell.word "distinct_value".toList) := Tally.quiet_word (by decide) rfl
    have hrows : tally.Quiet (Cell.word "distinct_rows".toList) := Tally.quiet_word (by decide) rfl
    have hmixed : tally.Unmixed := fun f hf => absurd hf (List.not_mem_nil)
    exact count_add_le_of_once hmixed hvalue hrows (once hq he hu) (Query.isFault_of_ofText hq)
      (Query.isFault_of_ofText hq')
  pos := by
    intro t q e hq he
    unfold step at he
    split at he
    · cases he
    · next aggregate c distinct operand hcall =>
      obtain ⟨hc, hargs, hd⟩ := firstCall?_eq_some hcall
      obtain ⟨as, bs, htokens, -⟩ := Call.mem_among hc
      have hmem := Query.cell_mem_ofText (t := distinct) hq (by rw [htokens, Call.tokens, hargs]; simp)
      obtain ⟨us, vs, hcs⟩ := List.append_of_mem hmem
      rw [hcs, Tally.count_append, Tally.count_cons, (Tally.weigh_distinct hd).1]
      show 0 < _ + (1 + _ + _)
      omega

theorem convert_eq_ok {text out : SqlText} (h : convert text = .ok out) :
    ∃ q, Query.ofText out = .ok q ∧ step q = .ok none :=
  shrinks.exhaust_eq_ok h

end Distinct

end JetAdapter
