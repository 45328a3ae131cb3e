import JetAdapter.Proofs.Idempotence
import JetAdapter.Proofs.Passes
import JetAdapter.Proofs.Seams

/-!
# Calls that do not come back

A rule that replaces the calls of a function leaves none of them, and no other rule makes one: what is written by the
rules has other names, and what is kept stands where it stood, behind a parenthesis or behind a comma.  Whether there are
such calls is a matter of a tally (`named`), for the rules are known by what they do to the cells of a text
(`Swap.Once.count_eq_zero`) or to its grouping (`Rewriting.count_eq_zero`).
-/

namespace JetAdapter

open Cell (ofGap)
open Token (Reads stretch)

/-- The functions whose calls are replaced by name. -/
def replacedNames : List String :=
  ["upper", "lower", "extract", "locate"]

namespace Tally

variable {w : Tally} {s : Lead} {text : SqlText} {q : Query} {names : List String} {P : Cell → Bool}

/-- Whether only functions are counted whose calls are replaced. -/
def OfReplaced (w : Tally) : Prop :=
  ∀ f ∈ w.functions, f ∈ replacedNames

instance : DecidablePred OfReplaced :=
  fun w => inferInstanceAs (Decidable (∀ f ∈ w.functions, f ∈ replacedNames))

theorem OfReplaced.unmixed (hw : w.OfReplaced) : w.Unmixed := by
  have hall : ∀ f ∈ replacedNames, ∀ y ∈ enders, (Text.lower y.spelling).isSuffixOf (Text.lower f.toList) = false := by
    decide
  exact fun f hf => hall f (hw f hf)

theorem OfReplaced.unseamed (hw : w.OfReplaced) : OrderAlias.Unseamed w := by
  have hall : ∀ f ∈ replacedNames, ¬ OrderAlias.IsSeam f.toList := by
    decide
  exact fun f hf => hall f (hw f hf)

/-- The names that are written are none of those that are counted. -/
theorem OfReplaced.quiet_word {v : SqlText} (hw : w.OfReplaced) (hkeyword : Keyword.ofWord? v = none)
    (hnames : ∀ f ∈ replacedNames, Text.sameWord v f.toList = false) : w.Quiet (Cell.word v) := by
  refine Tally.quiet_word hkeyword (Bool.eq_false_iff.2 fun hany => ?_)
  obtain ⟨f, hf, hsame⟩ := List.any_eq_true.1 hany
  cases (hnames f (hw f hf)).symm.trans hsame

/-- The tally of the calls of functions with these names. -/
def named (names : List String) : Tally :=
  ⟨names, false, 1, 0, 0, 0⟩

theorem ofCalls_named : (named names).OfCalls :=
  ⟨rfl, rfl⟩

theorem ofCall_named (x : Leaf × Grouping) :
    (named names).ofCall x = if (named names).isName x.1.kind x.1.text then 1 else 0 := by
  rw [ofCall]
  congr 1
  show 1 + (if _ then 0 else 0) = 1
  rw [ite_self]

/-- A token that is spelled like one of the functions is a name. -/
theorem isName_of_spelled {k : Kind} {t rest : SqlText} (hnames : ∀ f ∈ names, f ∈ replacedNames)
    (hfit : (Cell.token k t).Fits rest) (h : (names.any fun f => Text.sameWord t f.toList) = true) :
    (named names).isName k t = true := by
  have hword : ∀ f ∈ replacedNames, f.toList ≠ [] ∧ (Text.lower f.toList).all Char.isAlpha = true ∧
      ∀ y ∈ Keyword.all, Text.lower y.spelling ≠ Text.lower f.toList := by
    decide
  obtain ⟨f, hf, hsame⟩ := List.any_eq_true.1 h
  obtain ⟨hne, halpha, hkeywords⟩ := hword f (hnames f hf)
  have hkind := (Cell.isWord_of_sameWord hsame hne halpha).kind_eq hfit
  rcases Lexeme.wordKind_eq t with hid | ⟨y, hy, -⟩
  · rw [hkind, hid]
    exact h
  · have hlower : Text.lower t = Text.lower f.toList := by simpa [Text.sameWord] using hsame
    refine absurd ?_ (hkeywords y (List.mem_of_find?_eq_some hy))
    rw [← lower_eq_of_ofWord? hy, hlower]

/-- Nothing is counted just if there are no calls. -/
theorem count_named_eq_zero_iff (hnames : ∀ f ∈ names, f ∈ replacedNames) (hnaming : Cell.IsNaming P)
    (hP : ∀ k t, P (.token k t) = names.any fun f => Text.sameWord t f.toList) (hq : Query.ofText text = .ok q) :
    (named names).count .other (Cell.ofText text) = 0 ↔ (q.calls fun t => P t.cell) = [] := by
  obtain ⟨rfl, tail, hread⟩ := Query.isRead hq
  obtain ⟨g, hg⟩ := Grouping.exists_of_isRead hread
  rw [count_eq_zero_iff ofCalls_named hq hg, List.eq_nil_iff_forall_not_mem]
  constructor
  · intro h c hc
    obtain ⟨x, hx, hname, hcx⟩ := Call.exists_of_mem_among hnaming hg hc
    obtain ⟨as, bs, htokens, -⟩ := Call.mem_among hc
    have hfit := hread.fits (t := c.name) (show q.tokens = as ++ c.name :: _ by rw [htokens]; rfl)
    have hcell : Cell.token c.name.kind c.name.text = Cell.token x.1.kind x.1.text := hcx.name
    rw [Token.cell, hcell] at hfit
    rw [Leaf.cell, hP] at hname
    have hnamed := isName_of_spelled hnames hfit hname
    have hzero := h x hx
    rw [ofCall_named, if_pos hnamed] at hzero
    cases hzero
  · intro h x hx
    rw [ofCall_named, if_neg]
    intro hname
    obtain ⟨c, hc, -⟩ := Call.exists_of_mem_calls hnaming hg hx (P := P) (by
      rw [Leaf.cell, hP]
      cases hk : x.1.kind with
      | identifier n => rw [hk] at hname; exact hname
      | _ => rw [hk] at hname; cases hname)
    exact h c hc

end Tally

/-! ### Calls that are rewritten at once -/

/-- Rewriting calls makes none of a function that no replacement is named like. -/
theorem Rewriting.count_eq_zero {W : Rewriting} {w : Tally} {text out : SqlText} {q q' : Query} {g : Grouping}
    (hw : w.OfCalls) (hpending : w.pending = 0)
    (hname : ∀ {l : Leaf} {inside : Grouping} {r : Replacement}, W.replaced? l inside = some r →
      w.isName r.name.kind r.name.text = false)
    (hq : Query.ofText text = .ok q) (hg : Reads 0 g.cells q.tokens) (hq' : Query.ofText out = .ok q')
    (hg' : Reads 0 (W.translated false g).cells q'.tokens) (hzero : w.count .other (Cell.ofText text) = 0) :
    w.count .other (Cell.ofText out) = 0 := by
  have hcall : ∀ x : Leaf × Grouping, w.ofCall x = if w.isName x.1.kind x.1.text then w.call else 0 := by
    intro x
    rw [Tally.ofCall, hpending, ite_self, Nat.add_zero]
  rw [Tally.count_eq_zero_iff hw hq hg] at hzero
  rw [Tally.count_eq_zero_iff hw hq' hg']
  intro x hx
  obtain ⟨y, hy, ⟨-, rfl⟩ | ⟨r, hr, rfl⟩⟩ := exists_of_mem_calls_translated hx
  · rw [hcall]
    exact (hcall y).symm.trans (hzero y hy)
  · rw [hcall, hname hr, if_neg Bool.false_ne_true]

theorem Cast.count_eq_zero {w : Tally} {text out : SqlText} (hw : w.OfReplaced) (hcalls : w.OfCalls)
    (hpending : w.pending = 0) (h : convert text = .ok out) (hzero : w.count .other (Cell.ofText text) = 0) :
    w.count .other (Cell.ofText out) = 0 := by
  obtain ⟨q, hq, -⟩ := Except.bind_eq_ok h
  obtain ⟨-, tail, hread⟩ := Query.isRead hq
  obtain ⟨g, hg⟩ := Grouping.exists_of_isRead hread
  obtain ⟨out', q', hout, hq', hreads⟩ := convert_eq hq hg (isClear_of_convert hq hg h)
  obtain rfl := Except.ok.inj (h.symm.trans hout)
  refine Rewriting.count_eq_zero hcalls hpending (fun hr => ?_) hq hg hq' hreads hzero
  obtain ⟨-, e, word, type, function, -, -, hfound, rfl⟩ := replaced?_eq_some hr
  have hmem := of_function? hfound
  have hnames : ∀ function ∈ conversions.map fun x => x.1.toList, ∀ f ∈ replacedNames,
      Text.sameWord function f.toList = false := by
    decide
  rw [kind_word_function _ hmem]
  refine Bool.eq_false_iff.2 fun hany => ?_
  obtain ⟨f, hf, hsame⟩ := List.any_eq_true.1 hany
  cases (hnames function hmem f (hw f hf)).symm.trans hsame

theorem Extract.count_eq_zero {w : Tally} {text out : SqlText} (hw : w.OfReplaced) (hcalls : w.OfCalls)
    (hpending : w.pending = 0) (h : convert text = .ok out) (hzero : w.count .other (Cell.ofText text) = 0) :
    w.count .other (Cell.ofText out) = 0 := by
  obtain ⟨q, hq, -⟩ := Except.bind_eq_ok h
  obtain ⟨-, tail, hread⟩ := Query.isRead hq
  obtain ⟨g, hg⟩ := Grouping.exists_of_isRead hread
  obtain ⟨out', q', hout, hq', hreads⟩ := convert_eq hq hg (isFormed_of_convert hq hg h)
  obtain rfl := Except.ok.inj (h.symm.trans hout)
  refine Rewriting.count_eq_zero hcalls hpending (fun hr => ?_) hq hg hq' hreads hzero
  obtain ⟨-, field, word, e, interval, -, -, -, -, -, rfl⟩ := replaced?_eq_some hr
  have hnames : ∀ f ∈ replacedNames, Text.sameWord "DatePart".toList f.toList = false := by
    decide
  refine Bool.eq_false_iff.2 fun hany => ?_
  obtain ⟨f, hf, hsame⟩ := List.any_eq_true.1 hany
  cases (hnames f (hw f hf)).symm.trans hsame

/-! ### Swaps that are made one by one -/

/-- A harmless swap brings in nothing that is counted if it does so cell by cell. -/
theorem Swap.Once.count_eq_zero {R : Swap} {w : Tally} {text out : SqlText} (h : R.Once text out)
    (hR : Woven.Harmless Cell.isToken R) (hf : ∀ c ∈ Cell.ofText text, c.isFault = false)
    (hzero : ∀ {X D Y N : List Cell} (s : Lead), R X D Y N → w.count s (D ++ Y) = 0 → w.count s (N ++ Y) = 0)
    (htext : w.count .other (Cell.ofText text) = 0) : w.count .other (Cell.ofText out) = 0 := by
  obtain ⟨X, D, Y, N, hsw, hcs, htokens⟩ := h.filter_isToken hR hf
  rw [hcs, Tally.count_append, Nat.add_eq_zero_iff] at htext
  rw [Tally.count_congr htokens, Tally.count_append, Nat.add_eq_zero_iff]
  exact ⟨htext.1, hzero _ hsw htext.2⟩

/-- A repeated step brings in nothing that is counted if its swaps do not. -/
theorem Query.count_eq_zero_of_exhaust {R : Swap} {w : Tally} {step : Query → Except SqlError (Option Edit)}
    {text out : SqlText} (hR : Woven.Harmless Cell.isToken R)
    (honce : ∀ {t u : SqlText} {q : Query} {e : Edit}, ofText t = .ok q → step q = .ok (some e) →
      Edit.applyAll [e] t = .ok u → R.Once t u)
    (hzero : ∀ {X D Y N : List Cell} (s : Lead), R X D Y N → w.count s (D ++ Y) = 0 → w.count s (N ++ Y) = 0)
    (h : exhaust step text = .ok out) (htext : w.count .other (Cell.ofText text) = 0) :
    w.count .other (Cell.ofText out) = 0 :=
  exhaust_induction (P := fun t => w.count .other (Cell.ofText t) = 0)
    (fun hq he hu ht => (honce hq he hu).count_eq_zero hR (isFault_of_ofText hq) hzero ht) h htext

namespace Tally

variable {w : Tally} {s : Lead} {t name opening : Token} {as bs ts : List Token} {cs ds Y : List Cell} {v : SqlText}

/-- Around a quiet token both sides are counted by themselves. -/
theorem count_around (ht : w.Quiet t.cell) :
    w.count s (Token.cells (as ++ t :: bs) ++ Y) = w.count s (Token.cells as) + w.count .other (Token.cells bs ++ Y) := by
  rw [Token.cells_append, Token.cells_cons, List.append_assoc, List.append_assoc, count_append, count_append, count_ofGap,
    after_ofGap, List.cons_append, ht.count, Nat.zero_add]

/-- Behind a parenthesis at least as much is counted as by itself. -/
theorem count_behind_le (left : opening.isSymbol .leftParen = true) :
    w.count .other (Token.cells ts ++ Y) ≤ w.count s (stretch (name :: opening :: ts) ++ Y) := by
  have hlead : Lead.Below .other (w.next (w.next s name.cell) opening.cell) := by
    rw [(weigh_left left).2]
    split
    · exact .inr (.inr ⟨rfl, by decide⟩)
    · exact .inl rfl
  rw [Token.stretch_cons, Token.cells_cons, List.cons_append, count_cons, List.append_assoc,
    @count_append w _ (ofGap opening.gap), after_ofGap, List.cons_append, count_cons]
  have hle := @count_mono w _ _ (Token.cells ts ++ Y) hlead
  omega

/-- A call that is written counts what its arguments do. -/
theorem count_call (hv : w.Quiet (Cell.word v)) :
    w.count s (Cell.word v :: Cell.sign '(' :: (cs ++ [Cell.sign ')']) ++ Y) = w.count .other cs + w.count .other Y := by
  have hright : w.Quiet (Cell.sign ')') := quiet_sign (.inl rfl)
  have hleft : w.weigh .other (Cell.sign '(') = 0 ∧ w.next .other (Cell.sign '(') = .other := ⟨rfl, rfl⟩
  rw [List.cons_append, hv.count, List.cons_append, count_cons, hleft.1, hleft.2, Nat.zero_add, List.append_assoc,
    count_append, List.singleton_append, hright.count]

/-- Arguments that are written are counted one by one. -/
theorem count_comma : w.count s (cs ++ Cell.sign ',' :: Cell.space :: ds) = w.count s cs + w.count .other ds := by
  have hcomma : w.Quiet (Cell.sign ',') := quiet_sign (.inr rfl)
  rw [count_append, hcomma.count, count_cons]
  congr 1
  exact Nat.zero_add _

theorem quiet_of_isSymbol {y : Symbol} (h : t.isSymbol y = true) (hl : y ≠ .leftParen) (hd : y ≠ .dot) :
    w.Quiet t.cell := by
  rw [Token.cell, Kind.isSymbol_iff.1 h]
  exact quiet_symbol hl hd

theorem quiet_of_isKeyword {y : Keyword} (h : t.isKeyword y = true) (hy : y ∉ counted) : w.Quiet t.cell := by
  rw [Token.cell, Kind.isKeyword_iff.1 h]
  exact quiet_of_not_counted hy

end Tally

/-! ### Searching in texts -/

namespace Locate

variable {w : Tally} {s : Lead} {X D Y N : List Cell}

theorem Swapped.count_eq_zero (h : Swapped X D Y N) (hinstr : w.Quiet (Cell.word "InStr".toList))
    (hzero : w.count s (D ++ Y) = 0) : w.count s (N ++ Y) = 0 := by
  have hcomma : ∀ {t : Token}, t.isSymbol .comma = true → w.Quiet t.cell :=
    fun ht => Tally.quiet_of_isSymbol ht (by decide) (by decide)
  have hright : ∀ {t : Token}, t.isSymbol .rightParen = true → w.Quiet t.cell :=
    fun ht => Tally.quiet_of_isSymbol ht (by decide) (by decide)
  cases h with
  | @two _ name opening comma closing needle haystack found left sep right one other =>
    have hinside := Nat.le_zero.1 (hzero ▸ Tally.count_behind_le left)
    rw [List.append_assoc, List.cons_append, Tally.count_around (hcomma sep), Tally.count_around (hright right),
      Tally.count_cells, Tally.count_cells] at hinside
    rw [Tally.count_call hinstr, Tally.count_comma]
    simp only [Token.cells_nil, List.nil_append] at hinside
    omega
  | @three _ name opening comma comma' closing needle haystack start found left sep sep' right one other third =>
    have hinside := Nat.le_zero.1 (hzero ▸ Tally.count_behind_le left)
    rw [List.append_assoc, List.cons_append, Tally.count_around (hcomma sep), List.append_assoc, List.cons_append,
      Tally.count_around (hcomma sep'), Tally.count_around (hright right), Tally.count_cells, Tally.count_cells,
      Tally.count_cells] at hinside
    rw [Tally.count_call hinstr, Tally.count_comma, Tally.count_comma]
    simp only [Token.cells_nil, List.nil_append] at hinside
    omega

theorem count_eq_zero {text out : SqlText} (hw : w.OfReplaced) (h : convert text = .ok out)
    (hzero : w.count .other (Cell.ofText text) = 0) : w.count .other (Cell.ofText out) = 0 :=
  Query.count_eq_zero_of_exhaust (harmless _) once
    (fun _ hsw => hsw.count_eq_zero (hw.quiet_word (by decide) (by decide))) h hzero

end Locate

/-! ### Aggregates over distinct values -/

theorem Distinct.count_eq_zero {w : Tally} {text out : SqlText} (hw : w.OfReplaced) (h : convert text = .ok out)
    (hzero : w.count .other (Cell.ofText text) = 0) : w.count .other (Cell.ofText out) = 0 := by
  obtain ⟨q, hq, -⟩ := convert_eq_ok h
  have hkeeps := Query.exhaust_induction
    (P := fun t => (∃ q, Query.ofText t = .ok q) → w.count .other (Cell.ofText t) = 0)
    (fun {t u q e} hq he hu ht ⟨q', hq'⟩ => ?_) h (fun _ => hzero)
  · exact hkeeps ⟨q, hq⟩
  · have hle := count_add_le_of_once hw.unmixed (hw.quiet_word (by decide) (by decide))
      (hw.quiet_word (by decide) (by decide)) (once hq he hu) (Query.isFault_of_ofText hq) (Query.isFault_of_ofText hq')
    have hbefore := ht ⟨q, hq⟩
    omega

/-! ### Conditional expressions -/

namespace Conditional

variable {w : Tally} {s : Lead} {X D Y N otherwise : List Cell} {ts rest operand : List Token} {bs : List Branch}
  {b : Branch}

theorem Branched.count_eq_zero (h : Branched ts bs) (hzero : w.count .other (Token.cells ts) = 0) :
    ∀ b ∈ bs, w.count .other (stretch b.condition) = 0 ∧ w.count .other (stretch b.result) = 0 := by
  have hquiet : ∀ {t : Token} {y : Keyword}, t.isKeyword y = true → y ∉ Tally.counted → w.Quiet t.cell :=
    fun ht hy => Tally.quiet_of_isKeyword ht hy
  induction h with
  | @last condition result thenWord word asked answered =>
    rw [← List.append_nil (Token.cells _), Tally.count_around (hquiet word (by decide)), List.append_nil,
      Tally.count_cells, Tally.count_cells, Nat.add_eq_zero_iff] at hzero
    exact List.forall_mem_singleton.2 hzero
  | @cons condition result ts thenWord whenWord bs word next asked answered rest ih =>
    rw [← List.append_nil (Token.cells _), Tally.count_around (hquiet word (by decide)),
      Tally.count_around (hquiet next (by decide)), List.append_nil, Tally.count_cells, Tally.count_cells result,
      Nat.add_eq_zero_iff, Nat.add_eq_zero_iff] at hzero
    exact List.forall_mem_cons.2 ⟨⟨hzero.1, hzero.2.1⟩, ih hzero.2.2⟩

theorem count_comparandCells (cs : List Cell) (hquiet : ∀ c ∈ Cell.firstToken? cs, w.Quiet c) (ts : List Token) :
    w.count .other (comparandCells ts ++ cs) = w.count .other (stretch ts) + w.count .other cs := by
  have hright : w.Quiet (Cell.sign ')') := Tally.quiet_sign (.inl rfl)
  have hleft : w.weigh .other (Cell.sign '(') = 0 ∧ w.next .other (Cell.sign '(') = .other := ⟨rfl, rfl⟩
  unfold comparandCells
  split
  · rw [Tally.count_append, Tally.count_eq_of_quiet hquiet]
  · rw [List.cons_append, Tally.count_cons, hleft.1, hleft.2, Nat.zero_add, List.append_assoc, Tally.count_append,
      List.singleton_append, hright.count]

/-- What is asked counts what the operand and the condition do. -/
theorem count_conditionCells (hoperand : w.count .other (stretch operand) = 0)
    (hcondition : w.count .other (stretch b.condition) = 0) : w.count .other (conditionCells operand b) = 0 := by
  have hequals : w.Quiet equals := Tally.quiet_symbol (by decide) (by decide)
  unfold conditionCells
  split
  · exact hcondition
  · have hlast := count_comparandCells (w := w) [] nofun b.condition
    rw [List.append_nil, hcondition] at hlast
    rw [count_comparandCells _ (fun c hc => by cases hc; exact hequals), hoperand, Tally.count_cons, Cell.space,
      Tally.weigh_gap, Tally.next_gap, hequals.count, Tally.count_cons, Tally.weigh_gap, Tally.next_gap, hlast]
    rfl

theorem count_nestCells (hiif : w.Quiet (Cell.word "IIf".toList)) (hoperand : w.count .other (stretch operand) = 0)
    (hparts : ∀ b ∈ bs, w.count .other (stretch b.condition) = 0 ∧ w.count .other (stretch b.result) = 0)
    (hotherwise : w.count .other otherwise = 0) : w.count .other (nestCells operand otherwise bs) = 0 := by
  unfold nestCells
  induction bs with
  | nil => exact hotherwise
  | cons b bs ih =>
    obtain ⟨⟨hcondition, hresult⟩, hparts⟩ := List.forall_mem_cons.1 hparts
    have hcall := @Tally.count_call w .other (conditionCells operand b ++ Cell.sign ',' :: Cell.space ::
      (stretch b.result ++ Cell.sign ',' :: Cell.space :: bs.foldr (callCells operand) otherwise)) [] _ hiif
    rw [Tally.count_comma, Tally.count_comma, count_conditionCells hoperand hcondition, hresult, ih hparts,
      List.append_nil] at hcall
    exact hcall

/-- What applies otherwise counts nothing where the tokens before the `END` do not. -/
theorem Otherwise.count_eq_zero (h : Otherwise rest otherwise)
    (hzero : w.count .other (Token.cells (ts ++ rest)) = 0) :
    w.count .other (Token.cells ts) = 0 ∧ w.count .other otherwise = 0 := by
  cases h with
  | absent =>
    rw [List.append_nil] at hzero
    exact ⟨hzero, rfl⟩
  | @present elseWord us word answered =>
    rw [← List.append_nil (Token.cells _), Tally.count_around (Tally.quiet_of_isKeyword word (by decide)), List.append_nil,
      Tally.count_cells us, Nat.add_eq_zero_iff] at hzero
    exact hzero

theorem Swapped.count_eq_zero (h : Swapped X D Y N) (hiif : w.Quiet (Cell.word "IIf".toList))
    (hzero : w.count s (D ++ Y) = 0) : w.count s (N ++ Y) = 0 := by
  cases h with
  | @nest _ otherwise word whenWord endWord operand ts rest bs opening isWord first closing branched ends copied written
      parts other innermost =>
    have hcase : w.next s word.cell = .other := by
      rw [Token.cell, Kind.isKeyword_iff.1 opening]
      show (if _ then _ else _) = _
      rw [if_neg]
      simp [Tally.isName, Keyword.isAggregate]
    -- the parts stand behind quiet words
    rw [Token.stretch_cons, List.cons_append, Tally.count_cons, hcase, List.append_assoc, List.cons_append,
      Tally.count_around (Tally.quiet_of_isKeyword first (by decide)),
      Tally.count_around (Tally.quiet_of_isKeyword closing (by decide)), Token.cells_nil, List.nil_append,
      Tally.count_cells operand] at hzero
    obtain ⟨-, hoperand, hinside, hY⟩ : w.weigh s word.cell = 0 ∧ w.count .other (stretch operand) = 0 ∧
        w.count .other (Token.cells (ts ++ rest)) = 0 ∧ w.count .other Y = 0 := by
      omega
    obtain ⟨hts, hotherwise⟩ := ends.count_eq_zero hinside
    have hnest := count_nestCells hiif hoperand (branched.count_eq_zero hts) hotherwise
    -- and the nest is a call
    obtain ⟨b, bs, rfl⟩ := branched.exists_cons
    have hcall := @Tally.count_call w .other (conditionCells operand b ++ Cell.sign ',' :: Cell.space ::
      (stretch b.result ++ Cell.sign ',' :: Cell.space :: nestCells operand otherwise bs)) [] _ hiif
    rw [List.append_nil] at hcall
    refine (Tally.count_call hiif).trans ?_
    rw [hY]
    exact hcall.symm.trans hnest

theorem count_eq_zero {text out : SqlText} (hw : w.OfReplaced) (h : convert text = .ok out)
    (hzero : w.count .other (Cell.ofText text) = 0) : w.count .other (Cell.ofText out) = 0 :=
  Query.count_eq_zero_of_exhaust (harmless _) once
    (fun _ hsw => hsw.count_eq_zero (hw.quiet_word (by decide) (by decide))) h hzero

end Conditional

end JetAdapter
