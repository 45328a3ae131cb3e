import JetAdapter.Proofs.Balancing
import JetAdapter.Proofs.CallTallies
import JetAdapter.Proofs.NestedSearches

/-!
# Passes of repeated steps

A step that is repeated reads the text, looks for something to do, changes the text and starts again.  `Query.Passes` says
what comes of it in how many passes, with no bound on them.  Each pass that is not the last one leaves less to do: a call
of `LOCATE` less, a `CASE` less, or a call over distinct values less, and where this number stays a `DISTINCT` less.  So
the passes end for every text, after at most as many as there are such words, and one more (`repeated_rules_return`).

What a pass makes of a call of `LOCATE` or of a `CASE` can be read.  What it makes of a call over distinct values can be
read just if none of its lexemes is a fault (`Distinct.exists_query_of_pass_iff`); if one is, there is nothing to count, and
the next pass refuses the text.
-/

namespace JetAdapter

open Token (Reads)

namespace Query

variable {step : Query → Except SqlError (Option Edit)} {text t u : SqlText} {n : Nat} {r : Except SqlError SqlText}

/-! ### Passes -/

/-- One pass of a step over a text: the text that it makes, or nothing where it finds nothing to do. -/
def pass (step : Query → Except SqlError (Option Edit)) (text : SqlText) : Except SqlError (Option SqlText) := do
  match ← step (← ofText text) with
  | none => return none
  | some edit => return some (← Edit.applyAll [edit] text)

/-- What comes of a text when a step is repeated, and after how many passes: the last one refuses the text or finds
nothing to do. -/
inductive Passes (step : Query → Except SqlError (Option Edit)) : SqlText → Nat → Except SqlError SqlText → Prop
  | refused {text : SqlText} {err : SqlError} (last : pass step text = .error err) : Passes step text 1 (.error err)
  | settled {text : SqlText} (last : pass step text = .ok none) : Passes step text 1 (.ok text)
  | again {text u : SqlText} {n : Nat} {r : Except SqlError SqlText} (first : pass step text = .ok (some u))
      (rest : Passes step u n r) : Passes step text (n + 1) r

/-- A count of what a text has, if it can be read. -/
def countIn (count : Query → Nat) (text : SqlText) : Nat :=
  match ofText text with
  | .ok q => count q
  | .error _ => 0

theorem exists_of_pass (h : pass step t = .ok (some u)) :
    ∃ q e, ofText t = .ok q ∧ step q = .ok (some e) ∧ Edit.applyAll [e] t = .ok u := by
  obtain ⟨q, hq, h⟩ := Except.bind_eq_ok h
  obtain ⟨found, hfound, h⟩ := Except.bind_eq_ok h
  cases found with
  | none => cases h
  | some e =>
    obtain ⟨u', hu, h⟩ := Except.bind_eq_ok h
    obtain rfl : u' = u := Option.some.inj (Except.ok.inj h)
    exact ⟨q, e, hq, hfound, hu⟩

/-- A round is a pass, and the rounds behind it. -/
theorem repeatStep_eq (step : Query → Except SqlError (Option Edit)) (n : Nat) (text : SqlText) :
    repeatStep step (n + 1) text = pass step text >>= fun made => (made.map (repeatStep step n)).getD (.ok text) := by
  rw [repeatStep, pass]
  cases ofText text with
  | error err => rfl
  | ok q =>
    show (step q >>= _) = ((step q >>= _) >>= _)
    cases step q with
    | error err => rfl
    | ok found =>
      cases found with
      | none => rfl
      | some e =>
        show (Edit.applyAll [e] text >>= _) = ((Edit.applyAll [e] text >>= _) >>= _)
        cases Edit.applyAll [e] text with
        | error err => rfl
        | ok u => rfl

/-- As many rounds as passes are enough. -/
theorem Passes.repeatStep_eq (h : Passes step text n r) {rounds : Nat} (hle : n ≤ rounds) :
    repeatStep step rounds text = r := by
  induction h generalizing rounds with
  | refused last =>
    obtain ⟨m, rfl⟩ := Nat.exists_eq_add_of_le' hle
    rw [Query.repeatStep_eq, last]
    rfl
  | settled last =>
    obtain ⟨m, rfl⟩ := Nat.exists_eq_add_of_le' hle
    rw [Query.repeatStep_eq, last]
    rfl
  | again first rest ih =>
    obtain ⟨m, rfl⟩ := Nat.exists_eq_add_of_le' (Nat.le_of_add_left_le hle)
    rw [Query.repeatStep_eq, first]
    exact ih (by omega)

/-- If every pass makes a size smaller, the passes end. -/
theorem exists_passes {size : SqlText → Nat} (hless : ∀ t u, pass step t = .ok (some u) → size u < size t)
    (text : SqlText) : ∃ n r, Passes step text n r ∧ n ≤ size text + 1 := by
  induction hsize : size text using Nat.strong_induction_on generalizing text with
  | _ k ih =>
    cases hpass : pass step text with
    | error err => exact ⟨1, _, .refused hpass, Nat.le_add_left 1 k⟩
    | ok made =>
      cases made with
      | none => exact ⟨1, _, .settled hpass, Nat.le_add_left 1 k⟩
      | some u =>
        have hlt := hless text u hpass
        rw [hsize] at hlt
        obtain ⟨n, r, hrest, hn⟩ := ih (size u) hlt u rfl
        exact ⟨n + 1, r, .again hpass hrest, by omega⟩

/-- If every pass makes a size smaller that is at most the length of the text, all passes are made. -/
theorem passes_exhaust {size : SqlText → Nat} (hless : ∀ t u, pass step t = .ok (some u) → size u < size t)
    (hle : ∀ t, size t ≤ t.length) (text : SqlText) :
    ∃ n ≤ size text + 1, Passes step text n (exhaust step text) := by
  obtain ⟨n, r, hpasses, hn⟩ := exists_passes hless text
  have hexhaust : exhaust step text = r := hpasses.repeatStep_eq (by have := hle text; omega)
  exact ⟨n, hn, by rwa [hexhaust]⟩

/-! ### Counting -/

/-- Cells that are counted in a text are those of its tokens. -/
theorem countP_tokens {P : Cell → Bool} {q : Query} (hP : ∀ g, P (.gap g) = false) (hq : ofText text = .ok q) :
    q.tokens.countP (fun t => P t.cell) = ((Cell.ofText text).filter P).length := by
  have hcells := (reads hq).cells
  rw [← Cell.filter_filter_isToken hP, ← hcells, List.filter_map, List.length_map, List.countP_eq_length_filter]
  rfl

end Query

/-- There are no more calls than names. -/
theorem Call.length_among_le (p : Token → Bool) (afterDot : Bool) (ts : List Token) :
    (among p afterDot ts).length ≤ ts.countP p := by
  induction ts generalizing afterDot with
  | nil => exact Nat.le_refl 0
  | cons t ts ih =>
    have hlater := ih (t.isSymbol .dot)
    have hcons : ts.countP p ≤ (t :: ts).countP p := by
      rw [List.countP_cons]
      omega
    rw [among]
    cases hfront : atFront p (t :: ts) with
    | none => exact Nat.le_trans hlater hcons
    | some x =>
      obtain ⟨c, after⟩ := x
      obtain ⟨htokens, hname, -⟩ := atFront_eq_some hfront
      obtain ⟨rfl, -⟩ := List.cons.inj htokens
      show (if _ then _ else _ : List Call).length ≤ _
      split
      · exact Nat.le_trans hlater hcons
      · rw [List.length_cons, List.countP_cons_of_pos hname]
        omega

/-! ### Searching in texts -/

namespace Locate

/-- The number of calls. -/
def callCount (q : Query) : Nat :=
  (q.calls fun t => t.spells "locate".toList).length

theorem isNaming_isSpelled : Cell.IsNaming isSpelled := by
  constructor <;> decide

/-- The calls of the grouping, as they are listed at all depths. -/
theorem length_calls (afterDot : Bool) (g : Grouping) :
    ((g.calls afterDot).filter fun x => isSpelled x.1.cell).length = (calls afterDot g).length := by
  fun_induction calls afterDot g with
  | case1 => rfl
  | case2 afterDot l inside rest ihInside ihRest =>
    have hname : isSpelled l.cell = isName l := rfl
    simp only [Grouping.calls, List.filter_append, List.length_append, ihInside, ihRest]
    cases afterDot <;> cases hl : isName l <;> simp [hname, hl]
  | case3 afterDot l rest hnot ih => rw [Grouping.calls_leaf_of_ne hnot, ih]
  | case4 afterDot rest ih => exact ih
  | case5 afterDot inside rest ihInside ihRest =>
    rw [Grouping.calls, List.filter_append, List.length_append, ihInside, ihRest, List.length_append]

theorem callCount_eq {q : Query} {g : Grouping} (h : Reads 0 g.cells q.tokens) :
    callCount q = (calls false g).length :=
  (Call.forall₂_among isNaming_isSpelled h false).length_eq.trans (length_calls false g)

/-- The rewriting of a call leaves one less. -/
theorem Rewrites.length_calls {afterDot : Bool} {g g' : Grouping} (h : Rewrites afterDot g g') :
    (calls afterDot g').length + 1 = (calls afterDot g).length := by
  induction h with
  | @call l inside rest arguments name found innermost =>
    rw [calls_leaf_of_not isName_instr, calls, calls, innermost, calls_eq_nil_of_rearranged? innermost found,
      if_pos (by simp [name])]
    simp [Nat.add_comm]
  | @leaf afterDot l rest rest' behind ih =>
    rcases rest.eq_group_or with ⟨inside, rest, rfl⟩ | hne
    · obtain ⟨inside', rest', rfl⟩ := behind.exists_group
      rw [calls, calls, List.length_append, List.length_append] at ih
      rw [calls, calls]
      split <;> simp <;> omega
    · rw [calls_leaf_of_ne (behind.not_group hne), ih, calls_leaf_of_ne hne]
  | comma _ ih => exact ih
  | inside _ ih =>
    simp only [calls, List.length_append] at ih ⊢
    omega
  | behind _ ih =>
    simp only [calls, List.length_append] at ih ⊢
    omega

/-- A pass rewrites a call, and what it makes is read. -/
theorem rewrites_of_pass {t u : SqlText} (h : Query.pass step t = .ok (some u)) :
    ∃ q g q' g', Query.ofText t = .ok q ∧ Reads 0 g.cells q.tokens ∧ Query.ofText u = .ok q' ∧
      Reads 0 g'.cells q'.tokens ∧ Rewrites false g g' := by
  obtain ⟨q, e, hq, he, hu⟩ := Query.exists_of_pass h
  obtain ⟨-, tail, hread⟩ := Query.isRead hq
  obtain ⟨g, hg⟩ := Grouping.exists_of_isRead hread
  rcases step_cases hq hg with hnone | ⟨e', u', q', g', he', hu', hq', hg', hrewrites⟩ | ⟨call, herr, -⟩
  · rw [he] at hnone
    cases hnone
  · obtain rfl : e = e' := Option.some.inj (Except.ok.inj (he.symm.trans he'))
    obtain rfl : u = u' := Except.ok.inj (hu.symm.trans hu')
    exact ⟨q, g, q', g', hq, hg, hq', hg', hrewrites⟩
  · rw [he] at herr
    cases herr

/-- A pass makes a text that can be read. -/
theorem exists_query_of_pass {t u : SqlText} (h : Query.pass step t = .ok (some u)) : ∃ q, Query.ofText u = .ok q := by
  obtain ⟨-, -, q, -, -, -, hq, -⟩ := rewrites_of_pass h
  exact ⟨q, hq⟩

theorem countIn_lt {t u : SqlText} (h : Query.pass step t = .ok (some u)) :
    Query.countIn callCount u < Query.countIn callCount t := by
  obtain ⟨q, g, q', g', hq, hg, hq', hg', hrewrites⟩ := rewrites_of_pass h
  have hlength := hrewrites.length_calls
  rw [← callCount_eq hg, ← callCount_eq hg'] at hlength
  rw [Query.countIn, hq', Query.countIn, hq]
  show callCount q' < callCount q
  omega

theorem countIn_le (t : SqlText) : Query.countIn callCount t ≤ t.length := by
  rw [Query.countIn]
  cases hq : Query.ofText t with
  | error err => exact Nat.zero_le _
  | ok q =>
    have hcount := Query.countP_tokens (P := isSpelled) (fun _ => rfl) hq
    exact (Call.length_among_le _ false q.tokens).trans
      ((Nat.le_of_eq hcount).trans (Cell.length_filter_ofText_le _ t))

end Locate

/-! ### Conditional expressions -/

namespace Conditional

/-- The number of `CASE`s. -/
def caseCount (q : Query) : Nat :=
  q.tokens.countP fun t => t.isKeyword .CASE

theorem caseCount_eq {text : SqlText} {q : Query} (hq : Query.ofText text = .ok q) :
    caseCount q = ((Cell.ofText text).filter isOpening).length := by
  rw [← Query.countP_tokens (fun _ => rfl) hq, caseCount]
  exact List.countP_congr fun t _ => by rw [isOpening_cell]

/-- A pass makes a text that can be read. -/
theorem exists_query_of_pass {t u : SqlText} (h : Query.pass step t = .ok (some u)) : ∃ q, Query.ofText u = .ok q := by
  obtain ⟨q, e, hq, he, hu⟩ := Query.exists_of_pass h
  exact exists_query_of_step hq he hu

theorem countIn_lt {t u : SqlText} (h : Query.pass step t = .ok (some u)) :
    Query.countIn caseCount u < Query.countIn caseCount t := by
  obtain ⟨q, e, hq, he, hu⟩ := Query.exists_of_pass h
  obtain ⟨q', hq'⟩ := exists_query_of_pass h
  rw [Query.countIn, Query.countIn, hq, hq']
  show caseCount q' < caseCount q
  rw [caseCount_eq hq, caseCount_eq hq']
  exact shrinks.less hq he hu hq'

theorem countIn_le (t : SqlText) : Query.countIn caseCount t ≤ t.length := by
  rw [Query.countIn]
  cases hq : Query.ofText t with
  | error err => exact Nat.zero_le _
  | ok q =>
    show caseCount q ≤ _
    rw [caseCount_eq hq]
    exact Cell.length_filter_ofText_le _ t

end Conditional

/-! ### Aggregates over distinct values -/

namespace Distinct

/-- Whether a stretch starts with `DISTINCT`. -/
def startsDistinct (ts : List Token) : Bool :=
  ts.head?.any fun t => t.isKeyword .DISTINCT

/-- The number of calls of aggregates that start with `DISTINCT`. -/
def callCount (q : Query) : Nat :=
  (q.calls fun t => (aggregate? t).isSome).countP fun c => startsDistinct c.args

/-- The number of `DISTINCT`s. -/
def wordCount (q : Query) : Nat :=
  q.tokens.countP fun t => t.isKeyword .DISTINCT

/-- The tally of each `DISTINCT`. -/
def words : Tally :=
  ⟨[], true, 0, 1, 0, 0⟩

/-- The tally of each `DISTINCT` directly behind the parenthesis of an aggregate. -/
def opened : Tally :=
  ⟨[], true, 0, 0, 1, 0⟩

variable {s : Lead} {cs : List Cell} {g : Grouping} {l : Leaf} {ts : List Token} {d : Nat} {text t u : SqlText} {q : Query}

/-- Both tallies together are the one that passes make smaller. -/
theorem count_tally (s : Lead) (cs : List Cell) : tally.count s cs = opened.count s cs + words.count s cs := by
  induction cs generalizing s with
  | nil => rfl
  | cons c cs ih =>
    have hnext : tally.next s c = opened.next s c ∧ words.next s c = opened.next s c := ⟨rfl, rfl⟩
    have hweigh : tally.weigh s c = opened.weigh s c + words.weigh s c := by
      cases hc : isWord c with
      | false => rw [Tally.weigh_of_not hc rfl rfl, Tally.weigh_of_not hc rfl rfl, Tally.weigh_of_not hc rfl rfl]
      | true =>
        obtain ⟨w, rfl⟩ := exists_of_isWord hc
        simp [Tally.weigh, tally, opened, words, Nat.add_comm]
    rw [Tally.count_cons, Tally.count_cons, Tally.count_cons, hnext.1, hnext.2, ih, hweigh]
    omega

theorem count_words (s : Lead) (cs : List Cell) : words.count s cs = (cs.filter isWord).length := by
  induction cs generalizing s with
  | nil => rfl
  | cons c cs ih =>
    rw [Tally.count_cons, ih]
    cases hc : isWord c with
    | false => rw [Tally.weigh_of_not hc rfl rfl, List.filter_cons_of_neg (by simp [hc]), Nat.zero_add]
    | true =>
      obtain ⟨w, rfl⟩ := exists_of_isWord hc
      simp [Tally.weigh, words, List.filter_cons_of_pos hc, Nat.add_comm]

/-- Whether the call is one of an aggregate that starts with `DISTINCT`. -/
def isCounted (x : Leaf × Grouping) : Bool :=
  isAggregate x.1.cell && startsWord x.2

theorem isName_opened (l : Leaf) : opened.isName l.kind l.text = isAggregate l.cell := by
  rw [Leaf.cell]
  cases l.kind with
  | keyword k =>
    show k.isAggregate = (if k.isAggregate then some k else none).isSome
    cases k.isAggregate <;> rfl
  | _ => rfl

/-- The calls that are counted show in the tally. -/
theorem sum_ofCall_opened (xs : List (Leaf × Grouping)) : (xs.map opened.ofCall).sum = xs.countP isCounted := by
  induction xs with
  | nil => rfl
  | cons x xs ih =>
    rw [List.map_cons, List.sum_cons, ih, Tally.ofCall, isName_opened, List.countP_cons, isCounted]
    cases isAggregate x.1.cell <;> cases startsWord x.2 <;> simp [opened, Nat.add_comm]

/-! ### What passes leave -/

theorem startsDistinct_eq (h : Reads d g.cells ts) : startsDistinct ts = startsWord g := by
  cases g with
  | nil =>
    rw [Reads.nil_iff.1 h]
    rfl
  | leaf l rest =>
    obtain ⟨t, us, rfl, hk, hw, -⟩ := Grouping.reads_leaf h
    show t.isKeyword .DISTINCT = isWord l.cell
    rw [← isWord_cell, Token.cell, hk, hw, Leaf.cell]
  | comma rest =>
    obtain ⟨t, us, rfl, ht, -⟩ := Grouping.reads_comma h
    show t.isKeyword .DISTINCT = false
    rw [← isWord_cell, ht]
    rfl
  | group inside rest =>
    obtain ⟨t, us, closing, vs, rfl, ht, -⟩ := Grouping.reads_group h
    show t.isKeyword .DISTINCT = false
    rw [← isWord_cell, ht]
    rfl

theorem callCount_eq (h : Query.ofText text = .ok q) : callCount q = opened.count .other (Cell.ofText text) := by
  obtain ⟨-, tail, hread⟩ := Query.isRead h
  obtain ⟨g, hg⟩ := Grouping.exists_of_isRead hread
  have hcells : (Cell.ofText text).filter Cell.isToken = g.cells := by rw [← (Query.reads h).cells, hg.cells]
  have hcount : ∀ {cs : List Call} {xs : List (Leaf × Grouping)}, List.Forall₂ Call.IsRead cs xs →
      cs.countP (fun c => startsDistinct c.args) = xs.countP (fun x => startsWord x.2) := by
    intro cs xs hall
    induction hall with
    | nil => rfl
    | cons hcall _ ih => rw [List.countP_cons, List.countP_cons, ih, startsDistinct_eq hcall.args]
  have hcalls := hcount (Call.forall₂_among isNaming_isAggregate hg false)
  rw [List.countP_filter] at hcalls
  rw [← Tally.count_filter, hcells, Tally.count_grouping ⟨rfl, rfl⟩, Tally.atStart_other, Nat.zero_add,
    sum_ofCall_opened]
  refine hcalls.trans (List.countP_congr fun x _ => ?_)
  rw [isCounted, Bool.and_comm]

theorem wordCount_eq (h : Query.ofText text = .ok q) : wordCount q = words.count .other (Cell.ofText text) := by
  rw [count_words, ← Query.countP_tokens (fun _ => rfl) h, wordCount]
  exact List.countP_congr fun t _ => by rw [isWord_cell]

/-- A pass makes a text that can be read just if it has no faults. -/
theorem exists_query_of_pass_iff (h : Query.pass step t = .ok (some u)) :
    (∃ q, Query.ofText u = .ok q) ↔ ∀ l ∈ lex u, l.kind.isFault = false := by
  obtain ⟨q, e, hq, he, hu⟩ := Query.exists_of_pass h
  exact ⟨fun hread => ((Query.ofText_isOk_iff u).1 hread).1, exists_query_of_step hq he hu⟩

/-- The ordering goes to the end of its scope, here before a comment, and its number takes the first minus sign. -/
example : ∃ u, Query.pass step "select count(distinct a) from t order by 1e where b--c".toList = .ok (some u) ∧
    (lex u).any (·.kind.isFault) = true := by
  refine ⟨"select count(distinct_value) FROM (SELECT DISTINCT a AS distinct_value FROM t)".toList ++
    " AS distinct_rows order by 1e--c".toList, ?_, ?_⟩ <;> decide +kernel

/-- Neither count grows, and one of them gets less. -/
theorem counts_of_pass (h : Query.pass step t = .ok (some u)) :
    Query.countIn callCount u ≤ Query.countIn callCount t ∧ Query.countIn wordCount u ≤ Query.countIn wordCount t ∧
      Query.countIn callCount u + Query.countIn wordCount u < Query.countIn callCount t + Query.countIn wordCount t := by
  obtain ⟨q, e, hq, he, hu⟩ := Query.exists_of_pass h
  have hpos := shrinks.pos hq he
  rw [count_tally, ← callCount_eq hq, ← wordCount_eq hq] at hpos
  simp only [Query.countIn, hq]
  cases hq' : Query.ofText u with
  | error err => exact ⟨Nat.zero_le _, Nat.zero_le _, hpos⟩
  | ok q' =>
    have hvalue : ∀ w : Tally, w.functions = [] → w.Quiet (Cell.word "distinct_value".toList) := by
      intro w hw
      exact Tally.quiet_word (by decide) (by rw [hw]; rfl)
    have hrows : ∀ w : Tally, w.functions = [] → w.Quiet (Cell.word "distinct_rows".toList) := by
      intro w hw
      exact Tally.quiet_word (by decide) (by rw [hw]; rfl)
    have hcount : ∀ w : Tally, w.functions = [] → w.count .other (Cell.ofText u) ≤ w.count .other (Cell.ofText t) := by
      intro w hw
      have hmixed : w.Unmixed := fun f hf => by rw [hw] at hf; cases hf
      exact (Nat.le_add_right _ _).trans (count_add_le_of_once hmixed (hvalue w hw) (hrows w hw) (once hq he hu)
        (Query.isFault_of_ofText hq) (Query.isFault_of_ofText hq'))
    have hless := shrinks.less hq he hu hq'
    rw [count_tally, count_tally] at hless
    show callCount q' ≤ callCount q ∧ wordCount q' ≤ wordCount q ∧
      callCount q' + wordCount q' < callCount q + wordCount q
    rw [callCount_eq hq, callCount_eq hq', wordCount_eq hq, wordCount_eq hq']
    exact ⟨hcount opened rfl, hcount words rfl, hless⟩

theorem countIn_lex (h : Query.pass step t = .ok (some u)) : Prod.Lex (· < ·) (· < ·)
    (Query.countIn callCount u, Query.countIn wordCount u) (Query.countIn callCount t, Query.countIn wordCount t) := by
  obtain ⟨hcalls, hwords, hsum⟩ := counts_of_pass h
  rw [Prod.lex_def]
  rcases Nat.lt_or_eq_of_le hcalls with hlt | heq
  · exact .inl hlt
  · exact .inr ⟨heq, by omega⟩

theorem countIn_le (t : SqlText) : Query.countIn callCount t + Query.countIn wordCount t ≤ t.length := by
  simp only [Query.countIn]
  cases hq : Query.ofText t with
  | error err => exact Nat.zero_le _
  | ok q =>
    show callCount q + wordCount q ≤ _
    rw [callCount_eq hq, wordCount_eq hq, ← count_tally]
    exact shrinks.le t

end Distinct

/-! ### All repeated steps -/

/-- **The repeated steps end on every text.** Each pass that makes a new text leaves fewer calls of `LOCATE`, fewer `CASE`s,
or fewer calls over distinct values, where this number may stay if there are fewer `DISTINCT`s; a text that cannot be read
has none of them.  So every text is done with after at most as many passes as it has such words, and one more. -/
theorem repeated_rules_return :
    (∀ t u, Query.pass Locate.step t = .ok (some u) →
      Query.countIn Locate.callCount u < Query.countIn Locate.callCount t) ∧
    (∀ t u, Query.pass Conditional.step t = .ok (some u) →
      Query.countIn Conditional.caseCount u < Query.countIn Conditional.caseCount t) ∧
    (∀ t u, Query.pass Distinct.step t = .ok (some u) → Prod.Lex (· < ·) (· < ·)
      (Query.countIn Distinct.callCount u, Query.countIn Distinct.wordCount u)
      (Query.countIn Distinct.callCount t, Query.countIn Distinct.wordCount t)) ∧
    ∀ text, (∃ n ≤ Query.countIn Locate.callCount text + 1, Query.Passes Locate.step text n (Locate.convert text)) ∧
      (∃ n ≤ Query.countIn Conditional.caseCount text + 1,
        Query.Passes Conditional.step text n (Conditional.convert text)) ∧
      ∃ n ≤ Query.countIn Distinct.callCount text + Query.countIn Distinct.wordCount text + 1,
        Query.Passes Distinct.step text n (Distinct.convert text) := by
  refine ⟨fun t u => Locate.countIn_lt, fun t u => Conditional.countIn_lt, fun t u => Distinct.countIn_lex,
    fun text => ⟨?_, ?_, ?_⟩⟩
  · exact Query.passes_exhaust (fun t u => Locate.countIn_lt) Locate.countIn_le text
  · exact Query.passes_exhaust (fun t u => Conditional.countIn_lt) Conditional.countIn_le text
  · exact Query.passes_exhaust (fun t u h => (Distinct.counts_of_pass h).2.2) Distinct.countIn_le text

/-- A pass over calls inside each other, over a `CASE` inside another, and over two `DISTINCT`s in one call. -/
theorem repeated_rules_return_nested :
    (Query.pass Locate.step "LOCATE(a, LOCATE(b, c))".toList = .ok (some "LOCATE(a, InStr(c, b))".toList) ∧
      Query.countIn Locate.callCount "LOCATE(a, InStr(c, b))".toList
        < Query.countIn Locate.callCount "LOCATE(a, LOCATE(b, c))".toList) ∧
    (Query.pass Conditional.step "case when a then case when b then c end end".toList
        = .ok (some "case when a then IIf(b, c, Null) end".toList) ∧
      Query.countIn Conditional.caseCount "case when a then IIf(b, c, Null) end".toList
        < Query.countIn Conditional.caseCount "case when a then case when b then c end end".toList) ∧
    (Query.pass Distinct.step "SELECT MIN(DISTINCT DISTINCT a) FROM t".toList
        = .ok (some "SELECT MIN(DISTINCT a) FROM t".toList) ∧
      Prod.Lex (· < ·) (· < ·)
        (Query.countIn Distinct.callCount "SELECT MIN(DISTINCT a) FROM t".toList,
          Query.countIn Distinct.wordCount "SELECT MIN(DISTINCT a) FROM t".toList)
        (Query.countIn Distinct.callCount "SELECT MIN(DISTINCT DISTINCT a) FROM t".toList,
          Query.countIn Distinct.wordCount "SELECT MIN(DISTINCT DISTINCT a) FROM t".toList)) := by
  obtain ⟨hlocate, hcase, hdistinct, -⟩ := repeated_rules_return
  have hcall : Query.pass Locate.step "LOCATE(a, LOCATE(b, c))".toList
      = .ok (some "LOCATE(a, InStr(c, b))".toList) := by decide +kernel
  have hnest : Query.pass Conditional.step "case when a then case when b then c end end".toList
      = .ok (some "case when a then IIf(b, c, Null) end".toList) := by decide +kernel
  have hword : Query.pass Distinct.step "SELECT MIN(DISTINCT DISTINCT a) FROM t".toList
      = .ok (some "SELECT MIN(DISTINCT a) FROM t".toList) := by decide +kernel
  exact ⟨⟨hcall, hlocate _ _ hcall⟩, ⟨hnest, hcase _ _ hnest⟩, hword, hdistinct _ _ hword⟩

end JetAdapter
