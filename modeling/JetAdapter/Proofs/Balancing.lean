import JetAdapter.Proofs.GroupedCalls

/-!
# Changes that keep parentheses matched

A step that changes a text leaves its parentheses matched, though what it moves need not be matched by itself: a condition
may be `a) + (b`.  Tokens lead from so many open parentheses to so many (`Leads`), and a part of a `CASE` leads from
the depth of the `CASE` back to this depth, in its place as well as one parenthesis further in.  So what is made of a `CASE`
can be read (`Conditional.exists_query_of_step`).  What a scope is made of is level; what is made of the scope can be read
unless its last token, with what is behind it, makes a fault (`Distinct.exists_query_of_step`).
-/

namespace JetAdapter

open Cell (kinds ofGap)
open Token (Level Run stretch)

variable {d e f depth : Nat} {k : Kind} {js ks : List Kind} {as bs ts : List Token} {t : Token} {q : Query}
  {text out : SqlText}

/-! ### Leading from one depth to another -/

/-- Whether kinds of tokens lead from so many open parentheses to so many: behind them, what matches the former matches the
latter. -/
def Leads (d : Nat) (ks : List Kind) (e : Nat) : Prop :=
  ∀ rest, BalancedIn d (ks ++ rest) ↔ BalancedIn e rest

namespace Leads

theorem nil : Leads d [] d :=
  fun _ => Iff.rfl

theorem append (h : Leads d js e) (h' : Leads e ks f) : Leads d (js ++ ks) f := by
  intro rest
  rw [List.append_assoc]
  exact (h _).trans (h' rest)

theorem plain (left : k ≠ .symbol .leftParen) (right : k ≠ .symbol .rightParen) (h : Leads d ks e) :
    Leads d (k :: ks) e :=
  fun rest => (BalancedIn.plain_iff left right).trans (h rest)

theorem opening (h : Leads (d + 1) ks e) : Leads d (.symbol .leftParen :: ks) e :=
  fun rest => BalancedIn.left_iff.trans (h rest)

theorem closing (h : Leads d ks e) : Leads (d + 1) (.symbol .rightParen :: ks) e :=
  fun rest => BalancedIn.right_iff.trans (h rest)

/-- A group in parentheses. -/
theorem group (h : Leads (d + 1) ks (d + 1)) (h' : Leads d js e) :
    Leads d (.symbol .leftParen :: (ks ++ .symbol .rightParen :: js)) e :=
  .opening (h.append (.closing h'))

theorem word (w : SqlText) (h : Leads d ks e) : Leads d (Lexeme.wordKind w :: ks) e := by
  rcases Lexeme.wordKind_eq w with hk | ⟨y, -, hk⟩
  · rw [hk]
    exact h.plain nofun nofun
  · rw [hk]
    exact h.plain nofun nofun

theorem balanced (h : Leads 0 ks 0) : Balanced ks := by
  have hall := (h []).2 Balanced.nil
  rwa [List.append_nil] at hall

theorem of_balanced (h : Balanced ks) (d : Nat) : Leads d ks d := by
  induction h generalizing d with
  | nil => exact .nil
  | plain left right _ ih => exact (ih d).plain left right
  | group _ _ ihInside ihBehind => exact (ihInside (d + 1)).group (ihBehind d)

end Leads

/-- A run leads where it leads inside more parentheses too. -/
theorem Token.Run.leads (h : Run d ts e) (n : Nat) : Leads (d + n) (ts.map (·.kind)) (e + n) := by
  induction h with
  | nil => exact .nil
  | opening paren _ _ ih =>
    rw [Nat.add_right_comm] at ih
    rw [List.map_cons, Kind.isSymbol_iff.1 paren]
    exact ih.opening
  | closing paren _ _ ih =>
    rw [List.map_cons, Kind.isSymbol_iff.1 paren, Nat.add_right_comm]
    exact ih.closing
  | plain left right _ _ ih =>
    rw [List.map_cons]
    refine ih.plain ?_ ?_
    · intro hk
      simp [isSymbol, Kind.isSymbol, hk] at left
    · intro hk
      simp [isSymbol, Kind.isSymbol, hk] at right

/-- A run falls apart at a keyword of the depth that it starts and ends with. -/
theorem Token.Run.split_keyword {k : Keyword} (h : Run depth (as ++ t :: bs) e) (ht : t.isKeywordAt depth k = true) :
    Run depth as depth ∧ Run depth bs e := by
  obtain ⟨f, has, hrest⟩ := h.of_append
  obtain ⟨left, right⟩ := not_paren_of_isKeywordAt ht
  obtain ⟨hf, hbs⟩ := hrest.of_cons left right
  obtain rfl : f = depth := hf.symm.trans (depth_of_isKeywordAt ht)
  exact ⟨has, hbs⟩

/-- Whether kinds of tokens lead back to the number of open parentheses that they start with, if it is at least this. -/
def Steady (d : Nat) (ks : List Kind) : Prop :=
  ∀ e, d ≤ e → Leads e ks e

namespace Steady

theorem of_run (h : Run d ts d) : Steady d (ts.map (·.kind)) := by
  intro e he
  obtain ⟨n, rfl⟩ := Nat.exists_eq_add_of_le he
  exact h.leads n

theorem nil : Steady d [] :=
  fun _ _ => .nil

theorem append (h : Steady d js) (h' : Steady d ks) : Steady d (js ++ ks) :=
  fun e he => (h e he).append (h' e he)

theorem plain (left : k ≠ .symbol .leftParen) (right : k ≠ .symbol .rightParen) (h : Steady d ks) : Steady d (k :: ks) :=
  fun e he => (h e he).plain left right

theorem word (w : SqlText) (h : Steady d ks) : Steady d (Lexeme.wordKind w :: ks) :=
  fun e he => (h e he).word w

theorem group (h : Steady d ks) (h' : Steady d js) :
    Steady d (.symbol .leftParen :: (ks ++ .symbol .rightParen :: js)) :=
  fun e he => (h (e + 1) (Nat.le_succ_of_le he)).group (h' e he)

end Steady

/-! ### Parentheses alone -/

/-- Whether a kind is that of a parenthesis. -/
def Kind.isParen (k : Kind) : Bool :=
  k = .symbol .leftParen || k = .symbol .rightParen

theorem Lexeme.isParen_wordKind (w : SqlText) : (wordKind w).isParen = false := by
  rcases wordKind_eq w with hk | ⟨y, -, hk⟩
  · rw [hk]
    rfl
  · rw [hk]
    rfl

theorem Cell.Wordy.isParen {w : SqlText} (h : Wordy k w) : k.isParen = false := by
  cases h with
  | word => exact Lexeme.isParen_wordKind w
  | named => rfl
  | systemName => rfl

/-- Whether parentheses match shows in the parentheses alone. -/
theorem BalancedIn.filter_iff : BalancedIn d (ks.filter Kind.isParen) ↔ BalancedIn d ks := by
  induction ks generalizing d with
  | nil => exact Iff.rfl
  | cons k ks ih =>
    by_cases left : k = .symbol .leftParen
    · rw [left, List.filter_cons_of_pos rfl, left_iff, left_iff, ih]
    by_cases right : k = .symbol .rightParen
    · rw [right, List.filter_cons_of_pos rfl]
      cases d with
      | zero => exact ⟨fun h => absurd h Balanced.not_right, fun h => absurd h Balanced.not_right⟩
      | succ d => rw [right_iff, right_iff, ih]
    · rw [List.filter_cons_of_neg (by simp [Kind.isParen, left, right]), ih, plain_iff left right]

theorem Balanced.congr (h : js.filter Kind.isParen = ks.filter Kind.isParen) : Balanced js ↔ Balanced ks := by
  have hjs : Balanced (js.filter Kind.isParen) ↔ Balanced js := BalancedIn.filter_iff (d := 0)
  rw [← hjs, h]
  exact BalancedIn.filter_iff (d := 0)

/-- No parenthesis comes or goes where a token runs into what is behind it. -/
theorem Cell.Joined.filter_isParen {w : SqlText} {cs ss : List Cell} (h : Joined k w cs ss) :
    (kinds ss).filter Kind.isParen = (k :: kinds cs).filter Kind.isParen := by
  cases h with
  | apart fits => rfl
  | @meld _ k' w v cs front back both marker fits =>
    show (k' :: kinds cs).filter Kind.isParen = (k :: Lexeme.wordKind v :: kinds cs).filter Kind.isParen
    rw [List.filter_cons_of_neg (by simp [both.isParen]), List.filter_cons_of_neg (by simp [front.isParen]),
      List.filter_cons_of_neg (by simp [Lexeme.isParen_wordKind])]
  | swallow fits => rfl

/-! ### Swaps -/

/-- The swaps of a sort that leave matched parentheses matched. -/
def Swap.Balancing (R : Swap) : Swap := fun X D Y N =>
  R X D Y N ∧ (Balanced (kinds (X ++ (D ++ Y))) → Balanced (kinds (X ++ (N ++ Y))))

theorem Woven.Harmless.balancing {p : Cell → Bool} {R : Swap} (h : Harmless p R) : Harmless p R.Balancing :=
  ⟨fun hsw => h.settles hsw.1, fun hsw => h.ends hsw.1⟩

/-- The parentheses of a text that is read match. -/
theorem Query.balanced (h : ofText text = .ok q) : Balanced (kinds (Cell.ofText text)) := by
  have hbalanced := (reads h).level.balanced
  rwa [(reads h).kinds, Cell.kinds_filter_isToken] at hbalanced

/-- What takes the place of tokens, and leads where they lead, leaves the parentheses matched. -/
theorem Query.IsRead.balanced_swap {tail N : List Cell} {whole more : List Token} {g : SqlText} (h : q.IsRead tail)
    (hq : q.tokens = as ++ (whole ++ more)) (hN : ∀ {d e}, Run d whole e → Run e more 0 → Leads d (kinds N) e) :
    Balanced (kinds (Token.cells as ++ ofGap g ++ (N ++ (Token.cells more ++ tail)))) := by
  have hrun := Token.nested_iff_run.1 h.nested
  rw [hq] at hrun
  obtain ⟨d, has, hrest⟩ := hrun.of_append
  obtain ⟨e, hwhole, hmore⟩ := hrest.of_append
  have htail : kinds tail = [] := by
    rcases h.tail with rfl | ⟨g, rfl⟩
    · rfl
    · rfl
  simp only [Cell.kinds_append, Token.kinds_cells, Cell.kinds_ofGap, htail, List.append_nil]
  exact ((has.leads 0).append ((hN hwhole hmore).append (hmore.leads 0))).balanced

namespace Conditional

variable {operand rest : List Token} {bs : List Branch} {b : Branch} {otherwise : List Cell}

/-! ### Conditional expressions -/

theorem steady_comparandCells (h : Steady d (ts.map (·.kind))) : Steady d (kinds (comparandCells ts)) := by
  unfold comparandCells
  split
  · rwa [Token.kinds_stretch]
  · show Steady d (.symbol .leftParen :: kinds (stretch ts ++ [Cell.sign ')']))
    rw [Cell.kinds_append, Token.kinds_stretch]
    exact h.group .nil

theorem steady_conditionCells (ho : Steady d (operand.map (·.kind))) (hb : Steady d (b.condition.map (·.kind))) :
    Steady d (kinds (conditionCells operand b)) := by
  unfold conditionCells
  split
  · rwa [Token.kinds_stretch]
  · rw [Cell.kinds_append]
    exact (steady_comparandCells ho).append ((steady_comparandCells hb).plain nofun nofun)

/-- A nest of calls leads where its parts lead. -/
theorem steady_nestCells (ho : Steady d (operand.map (·.kind)))
    (hbs : ∀ b ∈ bs, Steady d (b.condition.map (·.kind)) ∧ Steady d (b.result.map (·.kind)))
    (hi : Steady d (kinds otherwise)) : Steady d (kinds (nestCells operand otherwise bs)) := by
  unfold nestCells
  induction bs with
  | nil => exact hi
  | cons b bs ih =>
    obtain ⟨⟨hcondition, hresult⟩, hbs⟩ := List.forall_mem_cons.1 hbs
    have hresults : Steady d (kinds (stretch b.result ++
        Cell.sign ',' :: Cell.space :: bs.foldr (callCells operand) otherwise)) := by
      rw [Cell.kinds_append, Token.kinds_stretch]
      exact hresult.append ((ih hbs).plain nofun nofun)
    have hinside := (steady_conditionCells ho hcondition).append (hresults.plain (k := .symbol .comma) nofun nofun)
    have hcall := (hinside.group .nil).word "IIf".toList
    rw [List.foldr_cons, callCells]
    show Steady d (Lexeme.wordKind _ :: .symbol .leftParen :: kinds (_ ++ [Cell.sign ')']))
    rw [Cell.kinds_append, Cell.kinds_append]
    exact hcall

/-- The parts of branches lead back to the depth of the branches. -/
theorem run_of_branches (h : branches depth ts = .ok bs) (hts : Run depth ts depth) :
    ∀ b ∈ bs, Run depth b.condition depth ∧ Run depth b.result depth := by
  fun_induction branches depth ts generalizing bs with
  | case1 ts hthen => cases h
  | case2 ts condition thenWord afterThen hthen hwhen hempty => cases h
  | case3 ts condition thenWord afterThen hthen hwhen hempty =>
    cases h
    obtain ⟨rfl, hword, -⟩ := Token.splitFirst_eq_some hthen
    exact List.forall_mem_singleton.2 (hts.split_keyword hword)
  | case4 ts condition thenWord afterThen hthen result whenWord afterWhen hwhen hempty => cases h
  | case5 ts condition thenWord afterThen hthen result whenWord afterWhen hwhen hempty ih =>
    obtain ⟨rfl, hword, -⟩ := Token.splitFirst_eq_some hthen
    obtain ⟨rfl, hnext, -⟩ := Token.splitFirst_eq_some hwhen
    obtain ⟨hcondition, hbehind⟩ := hts.split_keyword hword
    obtain ⟨hresult, hafter⟩ := hbehind.split_keyword hnext
    cases hrest : branches depth afterWhen with
    | error fault =>
      rw [hrest] at h
      cases h
    | ok bs' =>
      rw [hrest] at h
      cases h
      exact List.forall_mem_cons.2 ⟨⟨hcondition, hresult⟩, ih hrest hafter⟩

/-- The nest of calls in the place of a `CASE` leads where the `CASE` leads. -/
theorem IsCase.leads {whole : List Token} {word whenWord endWord : Token}
    (h : IsCase whole operand bs otherwise word whenWord endWord ts rest) (hrun : Run d whole e) :
    Leads d (kinds (nestCells operand otherwise bs)) e := by
  rw [h.tokens] at hrun
  obtain ⟨left, right⟩ := Token.not_paren_of_isKeyword h.opening
  obtain ⟨rfl, hbody⟩ := hrun.of_cons left right
  obtain ⟨hinside, hend⟩ := hbody.split_keyword h.closing
  obtain rfl := hend.unique .nil
  obtain ⟨hoperand, hbehind⟩ := hinside.split_keyword h.first
  obtain ⟨hts, hrest⟩ : Run word.depth ts word.depth ∧ Steady word.depth (kinds otherwise) := by
    have hplaced := h.placed
    cases h.ends with
    | absent =>
      rw [List.append_nil] at hbehind
      exact ⟨hbehind, Steady.nil.word "Null".toList⟩
    | @present elseWord us elses answered =>
      have helse : elseWord.isKeywordAt word.depth .ELSE = true := by
        simp [Token.isKeywordAt, hplaced elseWord rfl, elses]
      obtain ⟨hts, hus⟩ := hbehind.split_keyword helse
      rw [Token.kinds_stretch]
      exact ⟨hts, .of_run hus⟩
  refine steady_nestCells (.of_run hoperand) (fun b hb => ?_) hrest _ (Nat.le_refl _)
  obtain ⟨hcondition, hresult⟩ := run_of_branches h.branches hts b hb
  exact ⟨.of_run hcondition, .of_run hresult⟩

/-- **What is made of a `CASE` can be read.** -/
theorem exists_query_of_step {edit : Edit} (hq : Query.ofText text = .ok q) (he : step q = .ok (some edit))
    (hout : Edit.applyAll [edit] text = .ok out) : ∃ q', Query.ofText out = .ok q' := by
  have honce : (Swap.Balancing Swapped).Once text out :=
    Query.once hq (fun _ => false) (fun _ h => isSwap_of h he fun htokens hcase hswap =>
      ⟨hswap, fun _ => h.balanced_swap htokens fun hrun _ => hcase.leads hrun⟩) hout
  have hf := Query.isFault_of_ofText hq
  have hfaultless := honce.makes.isFault (harmless _).balancing
    (fun hsw hall c hc => (hsw.1.source c hc).elim (hall c) fun hp => hp _ Cell.spares_isFault) hf
  obtain ⟨X, D, Y, N, ⟨-, hb⟩, hcs, htokens⟩ := honce.filter_isToken (harmless _).balancing hf
  have hbalanced := hb (hcs ▸ Query.balanced hq)
  rw [← Cell.kinds_filter_isToken, ← htokens, Cell.kinds_filter_isToken] at hbalanced
  exact Query.exists_of_balanced (Cell.isFault_kinds hfaultless) hbalanced

end Conditional

/-! ### Scopes -/

/-- A level stretch falls apart where a clause of its depth opens. -/
theorem Token.Level.of_endsAt (h : Level depth (as ++ bs)) (hbs : Clause.EndsAt depth bs) : Level depth as := by
  rcases hbs with rfl | ⟨b, us, rfl, hd, hopen⟩
  · rwa [List.append_nil] at h
  · obtain ⟨left, right⟩ := Clause.not_paren_of_opened? hopen
    exact (h.split hd left right).1

/-- A clause opens at the depth that a run has there, and the run ends at it. -/
theorem Token.Run.start_of_endsAt (h : Run d ts depth) (hts : Clause.EndsAt depth ts) : d = depth := by
  rcases hts with rfl | ⟨t, us, rfl, hd, hopen⟩
  · exact h.unique .nil |>.symm
  · obtain ⟨left, right⟩ := Clause.not_paren_of_opened? hopen
    exact (h.of_cons left right).1.symm.trans hd

/-- The body of a scope is level. -/
theorem Query.IsRead.level_body {tail : List Cell} {scope : Scope} (h : q.IsRead tail) (hs : scope ∈ q.scopes) :
    Level scope.depth scope.body := by
  obtain ⟨as, after, hq, heq, hselect⟩ := Scope.mem_among hs
  rw [heq]
  exact Scope.level_takeWhile (h.run_behind hq hselect)

/-- The words of a clause start with a keyword of its depth. -/
theorem Clause.HasWords.exists_eq {kind : ClauseKind} (h : HasWords depth kind ts) :
    ∃ t us k, ts = t :: us ∧ t.isKeywordAt depth k = true := by
  have hat : ∀ {t : Token} {k : Keyword}, t.isKeyword k = true → t.depth = depth → t.isKeywordAt depth k = true := by
    intro t k hk hd
    rw [Token.isKeywordAt, hd, hk, beq_self_eq_true]
    rfl
  cases h with
  | tables word at_ | filter word at_ | groupFilter word at_ => exact ⟨_, [], _, rfl, hat word at_⟩
  | groups word by_ at_ | ordering word by_ at_ => exact ⟨_, _, _, rfl, hat word at_⟩

/-- The tokens of a clause are level. -/
theorem Clause.level_tokens {stop : Nat} {c : Clause} (h : Level depth ts) (hc : c ∈ (cut depth stop ts).2) :
    Level depth (c.words ++ c.body) := by
  obtain ⟨as, bs, hts, hwords, hbs⟩ := mem_cut hc
  obtain ⟨t, us, k, ht, hk⟩ := hwords.exists_eq
  rw [hts, ht, List.cons_append, ← List.append_assoc] at h
  obtain ⟨left, right⟩ := Token.not_paren_of_isKeywordAt hk
  have hfront := (h.split (Token.depth_of_isKeywordAt hk) left right).1
  have hrest := h.of_append hfront
  rw [← List.cons_append, ← ht, ← List.append_assoc] at hrest
  exact hrest.of_endsAt hbs

namespace Distinct

variable {scope : Scope} {tables : Clause} {tail : List Cell}

theorem level_orderTokens (h : q.IsRead tail) (hs : scope ∈ q.scopes) :
    Level scope.depth (orderTokens (scope.clause? .ordering)) := by
  obtain ⟨as, rest, stop, hq, -, hclauses, -⟩ := h.scope hs
  cases ho : scope.clause? .ordering with
  | none => exact .nil
  | some o =>
    have hmem : o ∈ scope.clauses := by simpa using List.mem_of_find?_eq_some ho
    rw [hclauses] at hmem
    exact Clause.level_tokens (h.level_body hs) hmem

/-- A clause of a scope starts where its first word does, and this is a keyword of the depth. -/
theorem exists_clause_eq {kind : ClauseKind} {clause : Clause} (h : q.IsRead tail) (hs : scope ∈ q.scopes)
    (hclause : scope.clause? kind = some clause) : ∃ as t bs k, scope.body = as ++ t :: bs ∧
      t.isKeywordAt scope.depth k = true ∧ clause.start = t.start := by
  obtain ⟨-, -, stop, -, -, hclauses, -⟩ := h.scope hs
  have hmem : clause ∈ scope.clauses := by simpa using List.mem_of_find?_eq_some hclause
  rw [hclauses] at hmem
  obtain ⟨as, bs, hbody, hwords, -⟩ := Clause.mem_cut hmem
  obtain ⟨t, ts, k, hw, hk⟩ := hwords.exists_eq
  refine ⟨(Clause.cut scope.depth stop scope.body).1 ++ as, t, ts ++ (clause.body ++ bs), k, ?_, hk, ?_⟩
  · rw [hw] at hbody
    simpa using hbody
  · rw [Clause.start, hw]
    rfl

/-- What moves into the table is level: it stands behind the `FROM`, and goes to the ordering or the end. -/
theorem level_innerTokens (h : q.IsRead tail) (hs : scope ∈ q.scopes) (ht : scope.clause? .tables = some tables) :
    Level scope.depth (innerTokens scope tables) := by
  have hbody := h.level_body hs
  have hsorted : scope.body.Pairwise fun t u => t.start < u.start := by
    obtain ⟨as, rest, stop, hq, -⟩ := h.scope hs
    have hall := h.pairwise_start
    rw [hq, List.pairwise_append, List.pairwise_cons, List.pairwise_append] at hall
    exact hall.2.1.2.1
  have hsplit : ∀ {us vs : List Token} {t : Token} {k : Keyword}, t.isKeywordAt scope.depth k = true →
      Level scope.depth (us ++ t :: vs) → Level scope.depth us ∧ Level scope.depth vs := by
    intro us vs t k hk hlevel
    obtain ⟨left, right⟩ := Token.not_paren_of_isKeywordAt hk
    exact hlevel.split (Token.depth_of_isKeywordAt hk) left right
  obtain ⟨us, f, ts, k, hts, hk, hstart⟩ := exists_clause_eq h hs ht
  rw [hts] at hbody hsorted
  have hbehind : Level scope.depth ts := (hsplit hk hbody).2
  rw [innerTokens, hts, hstart, filter_behind hsorted]
  cases ho : scope.clause? .ordering with
  | none =>
    have hall : (ts.takeWhile fun t => (none : Option Clause).all fun o => t.start < o.start) = ts := takeWhile_all ts
    rwa [hall]
  | some o =>
    obtain ⟨vs, w, ws, k', hvs, hk', hstart'⟩ := exists_clause_eq h hs ho
    simp only [Option.all_some, hstart']
    have hw : w ∈ us ++ f :: ts := by
      rw [← hts, hvs]
      simp
    -- Where the ordering stands before the `FROM`, nothing moves.
    rcases takeWhile_before_cases hsorted hw with ⟨xs, ys, rfl, htake⟩ | ⟨-, htake⟩
    · rw [htake]
      exact (hsplit hk' hbehind).1
    · rw [htake]
      exact .nil

/-- Whether the cell is the name of an aggregate. -/
def isAggregate : Cell → Bool
  | .token k _ => (k.keyword?.filter Keyword.isAggregate).isSome
  | .gap _ => false

theorem isNaming_isAggregate : Cell.IsNaming isAggregate := by
  constructor <;> decide

/-- What is inside a call of an aggregate is level. -/
theorem level_args {c : Call} (h : q.IsRead tail) (hc : c ∈ q.calls fun t => (aggregate? t).isSome) :
    Level (c.opening.depth + 1) c.args := by
  obtain ⟨g, hg⟩ := Grouping.exists_of_isRead h
  have hall : ∀ {cs : List Call} {xs : List (Leaf × Grouping)}, List.Forall₂ Call.IsRead cs xs →
      ∀ c ∈ cs, Level (c.opening.depth + 1) c.args := by
    intro cs xs hcalls
    induction hcalls with
    | nil => exact List.forall_mem_nil _
    | cons hcall _ ih => exact List.forall_mem_cons.2 ⟨hcall.args.level, ih⟩
  exact hall (Call.forall₂_among isNaming_isAggregate hg false) c hc

theorem kinds_headCells (front named : List Token) : kinds (headCells front named)
    = front.map (·.kind) ++ .symbol .leftParen :: Lexeme.wordKind "distinct_value".toList :: .symbol .rightParen ::
      named.map (·.kind) := by
  unfold headCells
  simp only
  split
  · next hnil =>
    rw [Cell.kinds_append, Token.kinds_stretch, hnil]
    rfl
  · rw [List.append_assoc, Cell.kinds_append, Token.kinds_stretch]
    show _ ++ .symbol .leftParen :: _ :: .symbol .rightParen :: kinds (stretch named) = _
    rw [Token.kinds_stretch]

theorem kinds_rowsCells (order : List Token) : kinds (rowsCells order)
    = .symbol .rightParen :: Lexeme.wordKind "AS".toList :: Lexeme.wordKind "distinct_rows".toList ::
      order.map (·.kind) := by
  unfold rowsCells
  split
  · next hnil =>
    rw [hnil]
    rfl
  · show .symbol .rightParen :: _ :: _ :: kinds (stretch order) = _
    rw [Token.kinds_stretch]

theorem kinds_derivedCells (front named operand inner order : List Token) :
    kinds (derivedCells front named operand inner order)
      = front.map (·.kind) ++ .symbol .leftParen :: Lexeme.wordKind "distinct_value".toList :: .symbol .rightParen ::
        (named.map (·.kind) ++ Lexeme.wordKind "FROM".toList :: .symbol .leftParen ::
          (Lexeme.wordKind "SELECT".toList :: Lexeme.wordKind "DISTINCT".toList :: (operand.map (·.kind) ++
            Lexeme.wordKind "AS".toList :: Lexeme.wordKind "distinct_value".toList :: Lexeme.wordKind "FROM".toList ::
              inner.map (·.kind)) ++ .symbol .rightParen :: (Lexeme.wordKind "AS".toList ::
            Lexeme.wordKind "distinct_rows".toList :: order.map (·.kind)))) := by
  have hinner : kinds (innerCells operand) = Lexeme.wordKind "SELECT".toList :: Lexeme.wordKind "DISTINCT".toList ::
      (operand.map (·.kind) ++ [Lexeme.wordKind "AS".toList, Lexeme.wordKind "distinct_value".toList,
        Lexeme.wordKind "FROM".toList]) := by
    show Lexeme.wordKind _ :: Lexeme.wordKind _ :: kinds (stretch operand ++ _) = _
    rw [Cell.kinds_append, Token.kinds_stretch]
    rfl
  have hvalues : kinds (valueCells front named operand) = kinds (headCells front named) ++
      Lexeme.wordKind "FROM".toList :: .symbol .leftParen :: kinds (innerCells operand) :=
    Cell.kinds_append ..
  have hrows : kinds (Cell.space :: (stretch inner ++ rowsCells order))
      = inner.map (·.kind) ++ kinds (rowsCells order) := by
    rw [Cell.space, Cell.kinds_gap, Cell.kinds_append, Token.kinds_stretch]
  rw [derivedCells, Cell.kinds_append, hvalues, hrows, hinner, kinds_headCells, kinds_rowsCells]
  simp only [List.append_assoc, List.cons_append, List.nil_append]

/-- The new scope leads where the old one leads. -/
theorem Surrounds.leads {aggregate : Keyword} {c : Call} {distinct : Token} {operand named behind : List Token}
    (hs : Surrounds q c scope tables as named behind bs) (h : q.IsRead tail)
    (hcall : firstCall? q = some (aggregate, c, distinct, operand))
    (hrun : Run d (scope.select :: (scope.modifiers ++ (c.tokens ++ (named ++ behind)))) e) :
    Leads d (kinds (derivedCells (scope.select :: (scope.modifiers ++ [c.name])) named operand (innerTokens scope tables)
      (orderTokens (scope.clause? .ordering)))) e := by
  obtain ⟨hc, hargs, hd⟩ := firstCall?_eq_some hcall
  obtain ⟨-, -, -, hname, hmatched, -⟩ := Call.mem_among hc
  obtain ⟨-, -, -, -, hselect⟩ := Scope.mem_among hs.mem
  obtain ⟨k, hk⟩ := Option.isSome_iff_exists.1 hname
  obtain ⟨hleft, hright⟩ := Token.not_paren_of_isKeyword hselect
  obtain ⟨rfl, hbody⟩ := hrun.of_cons hleft hright
  have hlevel := h.level_body hs.mem
  rw [hs.body] at hlevel
  obtain rfl := hbody.unique hlevel.run
  -- The call leads back to where it starts, and what is behind it starts with a keyword of the scope.
  obtain ⟨m, hmodifiers, hrest⟩ := hbody.of_append
  rw [Call.tokens, List.cons_append, List.cons_append, List.append_assoc] at hrest
  obtain ⟨hleft, hright⟩ := Token.not_paren_of_isKeyword (Kind.isKeyword_iff.2 (kind_of_aggregate? hk).1)
  obtain ⟨hname, hopening⟩ := hrest.of_cons hleft hright
  obtain ⟨hm, hinside⟩ := hopening.of_left hmatched.left
  have hargsLevel := level_args h hc
  rw [hm] at hargsLevel
  obtain ⟨n, hrunArgs, hclosing⟩ := hinside.of_append
  obtain rfl := hrunArgs.unique hargsLevel.run
  have hlater : Run m (named ++ behind) scope.depth := hclosing.of_right (Token.isSymbol_of_isSymbolAt hmatched.right)
  obtain ⟨n, hnamed, hbehind⟩ := hlater.of_append
  obtain rfl := hbehind.start_of_endsAt hs.ends
  have hoperand : Balanced (operand.map (·.kind)) := by
    rw [hargs] at hargsLevel
    obtain ⟨hleft, hright⟩ := Token.not_paren_of_isKeyword hd
    exact (hargsLevel.tail hleft hright).balanced
  have hinner := (level_innerTokens h hs.mem hs.found).balanced
  have horder := (level_orderTokens h hs.mem).balanced
  have hfront := hmodifiers.append (Run.plain hleft hright hname .nil)
  have htable := ((((Leads.of_balanced hinner (scope.depth + 1)).word "FROM".toList).word "distinct_value".toList).word
    "AS".toList)
  have hvalues := (((Leads.of_balanced hoperand _).append htable).word "DISTINCT".toList).word "SELECT".toList
  have hrows := ((Leads.of_balanced horder scope.depth).word "distinct_rows".toList).word "AS".toList
  have hcall := (((hnamed.leads 0).append ((hvalues.group hrows).word "FROM".toList)).closing.word
    "distinct_value".toList).opening
  rw [kinds_derivedCells, List.map_cons, List.cons_append, Kind.isKeyword_iff.1 hselect]
  exact ((hfront.leads 0).append hcall).plain (by decide) (by decide)

/-- Without the `DISTINCT` of a call the parentheses are the same. -/
theorem balancing_plain {X Y : List Cell} {opening next : Token} (left : opening.isSymbol .leftParen = true)
    (word : t.isKeyword .DISTINCT = true) : Swap.Balancing Swapped X
      (opening.cell :: (ofGap t.gap ++ t.cell :: ofGap next.gap)) (next.cell :: Y) (opening.cell :: ofGap t.gap) := by
  refine ⟨.plain left word, (Balanced.congr ?_).1⟩
  have hword : t.kind.isParen = false := by
    rw [Kind.isKeyword_iff.1 word]
    rfl
  simp [Cell.kinds_append, Cell.kinds_ofGap, Token.cell, List.filter_cons, hword]

/-- **What is made of a call over distinct values can be read, if no lexeme of it is a fault.** -/
theorem exists_query_of_step {edit : Edit} (hq : Query.ofText text = .ok q) (he : step q = .ok (some edit))
    (hout : Edit.applyAll [edit] text = .ok out) (hlex : ∀ l ∈ lex out, l.kind.isFault = false) :
    ∃ q', Query.ofText out = .ok q' := by
  have honce : (Swap.Balancing Swapped).Once text out := once_of hq he hout balancing_plain
    fun h hcall hs hD hN hswap => ⟨hswap, fun _ => by
      rw [hN]
      exact h.balanced_swap hs.tokens fun hrun _ => hs.leads h hcall hrun⟩
  have hfaultless := Text.isFault_of_mem_ofText hlex
  obtain ⟨X, D, Y, N, as, bs, ⟨-, hb⟩, hcs, htokens, hlast⟩ :=
    tokens_of_once (·.1) honce (Query.isFault_of_ofText hq) hfaultless
  have hbalanced := hb (hcs ▸ Query.balanced hq)
  have hread : Balanced (kinds (X ++ (as ++ bs))) := by
    rcases hlast with heq | ⟨k, v, rfl, hj, -⟩
    · rwa [heq]
    · refine (Balanced.congr ?_).1 hbalanced
      simp [Cell.kinds_append, hj.filter_isParen]
  rw [← Cell.kinds_filter_isToken, ← htokens, Cell.kinds_filter_isToken] at hread
  exact Query.exists_of_balanced (Cell.isFault_kinds hfaultless) hread

end Distinct

end JetAdapter
