import JetAdapter.Proofs.Excerpts
import JetAdapter.Proofs.SelectionReadings
import JetAdapter.Proofs.TopWords

/-!
# Limited queries are read as what they were

Where `TOP` and a number stand in a query is fixed in two places.  They are written behind `SELECT` or behind
`SELECT DISTINCT` (`Scope.topPlace`), and they are looked for behind `SELECT`, `SELECT DISTINCT` or `SELECT ALL`
(`Scope.modifierCount`).

So the outermost `SELECT` of a limited query has the clauses that it had, as none of these words opens or ends one.
Before the first clause stands what stood behind the place of the words (`Scope.ofSelect_limited`), and that is the
select list unless an `ALL` comes before the list (`Scope.front_topPlace`).  All other tokens are where they were, but
for their places in the text (`Query.exists_limited`), so the limited text is read as the old one wherever the words are
read as such and no `ALL` comes behind the `SELECT` (`limited_as_read`).
-/

namespace JetAdapter

open Lexeme (placedFrom spell)

/-! ### The words in a scope -/

namespace Scope

open Distinct (Modifies)

variable {stop : Nat} {select top count : Token} {rest ms ts : List Token}

/-- How many tokens behind a `SELECT` come before the words that limit its rows. -/
def topPlace (rest : List Token) : Nat :=
  if rest.head?.any fun t => t.isKeyword .DISTINCT then 1 else 0

/-- The tokens of a scope before its first clause. -/
def front (stop : Nat) (ts : List Token) : List Token :=
  (Clause.cut 0 (Token.startOr stop (ts.dropWhile (reaches 0))) (ts.takeWhile (reaches 0))).1

theorem list_ofSelect (hd : select.depth = 0) (stop : Nat) (ts : List Token) : (ofSelect stop select ts).list
    = (front stop ts).drop (modifierCount (ts.takeWhile (reaches 0))) := by
  rw [ofSelect, hd]
  rfl

/-- What modifies a `SELECT` belongs to its scope. -/
theorem reaches_of_modifies (hms : ∀ t ∈ ms, Modifies t.kind) : ∀ t ∈ ms, reaches 0 t = true := by
  intro t ht
  obtain ⟨-, -, hsemicolon, -, hunion, -⟩ := (hms t ht).plain
  simp [reaches, hsemicolon, hunion]

/-- What modifies a `SELECT` belongs to no clause. -/
theorem cut_modifiers (hms : ∀ t ∈ ms, Modifies t.kind) (stop : Nat) (ts : List Token) :
    Clause.cut 0 stop (ms ++ ts) = (ms ++ (Clause.cut 0 stop ts).1, (Clause.cut 0 stop ts).2) :=
  Clause.cut_append_of_not (fun t ht _ => (hms t ht).plain.2.2.2.2.2) stop ts

theorem front_append (hms : ∀ t ∈ ms, Modifies t.kind) (stop : Nat) (ts : List Token) :
    front stop (ms ++ ts) = ms ++ front stop ts := by
  have hreach := reaches_of_modifies hms
  rw [front, List.takeWhile_append_of_pos hreach, List.dropWhile_append_of_pos hreach, cut_modifiers hms]
  rfl

theorem clauses_append (hd : select.depth = 0) (hms : ∀ t ∈ ms, Modifies t.kind) (stop : Nat) (ts : List Token) :
    (ofSelect stop select (ms ++ ts)).clauses = (ofSelect stop select ts).clauses := by
  have hreach := reaches_of_modifies hms
  rw [ofSelect, ofSelect, hd, List.takeWhile_append_of_pos hreach, List.dropWhile_append_of_pos hreach,
    cut_modifiers hms]

theorem list_append (hd : select.depth = 0) (hms : ∀ t ∈ ms, Modifies t.kind) (stop : Nat) (ts : List Token) :
    (ofSelect stop select (ms ++ ts)).list
      = (ms ++ front stop ts).drop (modifierCount (ms ++ ts.takeWhile (reaches 0))) := by
  rw [list_ofSelect hd, front_append hms, List.takeWhile_append_of_pos (reaches_of_modifies hms)]

theorem modifies_of_isKeyword {t : Token} {k : Keyword} (ht : t.isKeyword k = true)
    (hk : k = .DISTINCT ∨ k = .ALL ∨ k = .TOP) : Modifies t.kind := by
  have hkind : t.kind = .keyword k := Kind.isKeyword_iff.1 ht
  rw [Modifies, hkind]
  rcases hk with rfl | rfl | rfl
  · exact .inl rfl
  · exact .inr (.inl rfl)
  · exact .inr (.inr (.inl rfl))

/-- The words come first or behind a `DISTINCT`. -/
theorem topPlace_cases (rest : List Token) :
    ((∀ t ∈ rest.head?, t.isKeyword .DISTINCT = false) ∧ topPlace rest = 0) ∨
      ∃ t ts, t.isKeyword .DISTINCT = true ∧ rest = t :: ts ∧ topPlace rest = 1 := by
  cases rest with
  | nil => exact .inl ⟨by simp, rfl⟩
  | cons t ts =>
    by_cases hdistinct : t.isKeyword .DISTINCT = true
    · exact .inr ⟨t, ts, hdistinct, rfl, if_pos hdistinct⟩
    · refine .inl ⟨?_, if_neg hdistinct⟩
      rintro u ⟨⟩
      exact Bool.eq_false_iff.2 hdistinct

theorem modifies_take_topPlace (rest : List Token) : ∀ t ∈ rest.take (topPlace rest), Modifies t.kind := by
  obtain ⟨-, hplace⟩ | ⟨t, ts, hdistinct, rfl, hplace⟩ := topPlace_cases rest
  · rw [hplace]
    exact List.forall_mem_nil _
  · rw [hplace]
    exact List.forall_mem_singleton.2 (modifies_of_isKeyword hdistinct (.inl rfl))

/-- The words that limit the rows change no clause, and behind them starts the select list. -/
theorem ofSelect_limited (hd : select.depth = 0) (htop : top.isKeyword .TOP = true) (hcount : Modifies count.kind)
    (stop : Nat) (rest : List Token) :
    (ofSelect stop select (rest.take (topPlace rest) ++ (top :: count :: rest.drop (topPlace rest)))).clauses
        = (ofSelect stop select rest).clauses ∧
      (ofSelect stop select (rest.take (topPlace rest) ++ (top :: count :: rest.drop (topPlace rest)))).list
        = front stop (rest.drop (topPlace rest)) := by
  have htake := modifies_take_topPlace rest
  have hmodify : ∀ t ∈ rest.take (topPlace rest) ++ [top, count], Modifies t.kind := by
    simp only [List.forall_mem_append, List.forall_mem_cons]
    exact ⟨htake, modifies_of_isKeyword htop (.inr (.inr rfl)), hcount, List.forall_mem_nil _⟩
  have hclauses := clauses_append hd hmodify stop (rest.drop (topPlace rest))
  have hclauses' := clauses_append hd htake stop (rest.drop (topPlace rest))
  have hlist := list_append hd hmodify stop (rest.drop (topPlace rest))
  rw [List.take_append_drop] at hclauses'
  rw [List.append_assoc] at hclauses hlist
  refine ⟨hclauses.trans hclauses'.symm, hlist.trans ?_⟩
  have hdistinct : top.isKeyword .DISTINCT = false := JoinChain.isKeyword_eq_false_of_ne htop (by decide)
  have hall : top.isKeyword .ALL = false := JoinChain.isKeyword_eq_false_of_ne htop (by decide)
  obtain ⟨-, hplace⟩ | ⟨t, ts, ht, rfl, hplace⟩ := topPlace_cases rest
  · rw [hplace]
    simp [modifierCount, htop, hdistinct, hall]
  · rw [hplace]
    simp [modifierCount, htop, ht]

theorem any_head?_takeWhile {p q : Token → Bool} (h : ∀ t ∈ ts.head?, q t = false) :
    (ts.takeWhile p).head?.any q = false := by
  cases ts with
  | nil => rfl
  | cons t ts =>
    rw [List.takeWhile_cons]
    split
    · exact h t rfl
    · rfl

/-- Behind the place of the words the select list starts, unless there is an `ALL`. -/
theorem front_topPlace (hd : select.depth = 0) (hno : ∀ t ∈ rest, t.isKeyword .TOP = false) (stop : Nat) :
    front stop (rest.drop (topPlace rest))
      = (rest.take 1).filter (fun t => t.isKeyword .ALL) ++ (ofSelect stop select rest).list := by
  have hnoTop : ∀ {ts : List Token}, (∀ t ∈ ts, t ∈ rest) →
      ((ts.takeWhile (reaches 0)).head?.any fun t => t.isKeyword .TOP) = false :=
    fun hts => any_head?_takeWhile fun t ht => hno t (hts t (List.mem_of_mem_head? ht))
  obtain ⟨hnot, hplace⟩ | ⟨t, ts, hdistinct, rfl, hplace⟩ := topPlace_cases rest
  · rw [hplace, List.drop_zero]
    by_cases hall : ∃ t ts, rest = t :: ts ∧ t.isKeyword .ALL = true
    · obtain ⟨t, ts, rfl, hall⟩ := hall
      have ht : ∀ u ∈ [t], Modifies u.kind :=
        List.forall_mem_singleton.2 (modifies_of_isKeyword hall (.inr (.inl rfl)))
      change front stop ([t] ++ ts) = _ ++ (ofSelect stop select ([t] ++ ts)).list
      rw [front_append ht, list_append hd ht]
      simp [modifierCount, hall, hnoTop fun t ht => List.mem_cons_of_mem _ ht]
    · have hhead : ∀ t ∈ rest.head?, (t.isKeyword .DISTINCT || t.isKeyword .ALL) = false := by
        intro t ht
        obtain ⟨ts, rfl⟩ := List.head?_eq_some_iff.1 ht
        rw [hnot t ht, Bool.false_or]
        exact Bool.eq_false_iff.2 fun h => hall ⟨t, ts, rfl, h⟩
      have hfilter : (rest.take 1).filter (fun t => t.isKeyword .ALL) = [] := by
        cases rest with
        | nil => rfl
        | cons t ts => simpa using fun h => hall ⟨t, ts, rfl, h⟩
      rw [list_ofSelect hd, hfilter]
      simp [modifierCount, any_head?_takeWhile hhead, hnoTop fun t ht => ht]
  · have ht : ∀ u ∈ [t], Modifies u.kind :=
      List.forall_mem_singleton.2 (modifies_of_isKeyword hdistinct (.inl rfl))
    have hall : t.isKeyword .ALL = false := JoinChain.isKeyword_eq_false_of_ne hdistinct (by decide)
    change _ = _ ++ (ofSelect stop select ([t] ++ ts)).list
    rw [hplace, list_append hd ht]
    simp [modifierCount, hdistinct, hall, hnoTop fun t ht => List.mem_cons_of_mem _ ht]

end Scope

/-! ### Reading the limited query -/

namespace Query

open Token (Run Placed written)
open Distinct (Modifies)

variable {q : Query} {tail : List Cell} {select : Token} {rest fs bs : List Token} {sql out : SqlText}

/-- The tokens of the words that limit the rows, behind so many bytes. -/
def topTokens (o : Nat) (rows : UInt64) : List Token :=
  (placedFrom o (topLexemes rows)).map (⟨·, 0⟩)

theorem modifies_topTokens (o : Nat) (rows : UInt64) : ∀ t ∈ topTokens o rows, Modifies t.kind ∧ t.depth = 0 := by
  have hcount : Modifies (Lexeme.numberKind ⟨Decimal.natText rows.toNat, [], none⟩) := by
    rw [Lexeme.numberKind, if_neg (by simp [Numeral.lacksPowerDigits])]
    split
    · exact .inr (.inr (.inr (.inl ⟨_, rfl⟩)))
    · exact .inr (.inr (.inr (.inr ⟨_, rfl⟩)))
  intro t ht
  rcases List.mem_cons.1 ht with rfl | ht
  · exact ⟨.inr (.inr (.inl rfl)), rfl⟩
  · obtain rfl := List.mem_singleton.1 ht
    exact ⟨hcount, rfl⟩

theorem placed_topTokens (o : Nat) (rows : UInt64) : Placed o (topTokens o rows) :=
  ⟨rfl, rfl, trivial⟩

theorem proper_of_modifies {t : Token} (h : Modifies t.kind) : (t.isSymbol .leftParen = false ∧
    t.isSymbol .rightParen = false) ∧ t.kind.isFault = false ∧ t.kind ≠ .eof := by
  unfold Token.isSymbol
  rcases h with h | h | h | ⟨n, h⟩ | ⟨x, h⟩
  all_goals
    rw [h]
    exact ⟨⟨rfl, rfl⟩, rfl, nofun⟩

theorem run_topTokens (o : Nat) (rows : UInt64) : Run 0 (topTokens o rows) 0 := by
  have hrun : ∀ {ts : List Token}, (∀ t ∈ ts, Modifies t.kind ∧ t.depth = 0) → Run 0 ts 0 := by
    intro ts hts
    induction ts with
    | nil => exact .nil
    | cons t ts ih =>
      obtain ⟨⟨hmodifies, hdepth⟩, hts⟩ := List.forall_mem_cons.1 hts
      obtain ⟨⟨hleft, hright⟩, -⟩ := proper_of_modifies hmodifies
      exact .plain hleft hright hdepth (ih hts)
  exact hrun (modifies_topTokens o rows)

theorem run_words (h : Run 0 (fs ++ bs) 0) (hfs : ∀ t ∈ fs, ∃ k, t.isKeyword k = true) : Run 0 fs 0 := by
  induction fs with
  | nil => exact .nil
  | cons t fs ih =>
    obtain ⟨⟨k, ht⟩, hfs⟩ := List.forall_mem_cons.1 hfs
    obtain ⟨hleft, hright⟩ := Token.not_paren_of_isKeyword ht
    obtain ⟨hdepth, hrest⟩ := h.of_cons hleft hright
    exact .plain hleft hright hdepth (ih hrest hfs)

/-- What is read of lexemes does not depend on the place of the first one, but for places. -/
theorem exists_nest_placedFrom {ls : List Lexeme} {o : Nat} {ts : List Token} (h : nest 0 (placedFrom o ls) = .ok ts)
    (o' : Nat) : ∃ ts', nest 0 (placedFrom o' ls) = .ok ts' ∧ List.Forall₂ Token.Same ts ts' := by
  have hsame : List.Forall₂ Lexeme.Same ls ls := List.forall₂_same.2 fun l _ => ⟨rfl, rfl⟩
  have halike := nest_alike (Lexeme.forall₂_placedFrom hsame o o') 0
  rw [h] at halike
  generalize nest 0 (placedFrom o' ls) = x at halike
  cases halike with
  | ok related => exact ⟨_, rfl, related⟩

/-- Words that are put in behind the first words of a query leave the tokens as they are, but for their places. -/
theorem exists_limited (hq : ofText sql = .ok q) (htokens : q.tokens = fs ++ bs)
    (hfs : ∀ t ∈ fs, ∃ k, t.isKeyword k = true) {e : Lexeme} {rows : UInt64}
    (hsql : lex sql = fs.map (·.toLexeme) ++ (bs.map (·.toLexeme) ++ [e]))
    (hout : lex out = fs.map (·.toLexeme) ++ (topLexemes rows ++ (bs.map (·.toLexeme) ++ [e]))) :
    ∃ l q', ofText out = .ok q' ∧ fs.map (Token.relaid l) = fs ∧ q'.stop = l.place q.stop ∧
      q'.tokens = fs ++ (topTokens (Text.byteSize (written fs)) rows ++ bs.map (Token.relaid l)) := by
  obtain ⟨-, tail, hread⟩ := isRead hq
  have hproper := hread.proper
  have hplaced := hread.placed
  have hrun := Token.nested_iff_run.1 hread.nested
  rw [htokens] at hproper hplaced hrun
  have hrunfs := run_words hrun hfs
  have hplacedfs := (Token.placed_append_iff.1 hplaced).1
  have hproperfs := (List.forall_mem_append.1 hproper).1
  -- what is read behind the first words
  have hnest := (ofText_eq_ok_iff.1 hq).2
  rw [tokenize, hsql, htokens, nest_append_eq_ok_iff hrunfs hplacedfs hproperfs, Nat.zero_add] at hnest
  let words := topTokens (Text.byteSize (written fs)) rows
  have hwords : topLexemes rows = words.map (·.toLexeme) := rfl
  have hproperwords : ∀ t ∈ words, t.kind.isFault = false ∧ t.kind ≠ .eof :=
    fun t ht => (proper_of_modifies (modifies_topTokens _ _ t ht).1).2
  obtain ⟨bs', hbs', hsame⟩ :=
    exists_nest_placedFrom hnest (Text.byteSize (written fs) + Text.byteSize (written words))
  have hnest' : nest 0 (tokenize out) = .ok (fs ++ (words ++ bs')) := by
    rw [tokenize, hout, hwords, nest_append_eq_ok_iff hrunfs hplacedfs hproperfs, Nat.zero_add,
      nest_append_eq_ok_iff (run_topTokens _ _) (placed_topTokens _ _) hproperwords]
    exact hbs'
  -- where the tokens come to stand
  have hall : List.Forall₂ Token.Same q.tokens (fs ++ bs') := by
    rw [htokens]
    exact List.rel_append (List.forall₂_same.2 fun t _ => ⟨⟨rfl, rfl⟩, rfl⟩) hsame
  obtain ⟨l, hl, hstop⟩ := Token.exists_layout hall hread.pairwise_start hread.start_lt_stop
    (Query.stop ⟨out, fs ++ (words ++ bs')⟩)
  rw [htokens, List.map_append] at hl
  obtain ⟨hfsl, hbsl⟩ := List.append_inj hl (by simp)
  refine ⟨l, ⟨out, fs ++ (words ++ bs')⟩, ofText_eq_ok_iff.2 ⟨rfl, hnest'⟩, hfsl.symm, hstop.symm, ?_⟩
  rw [← hbsl]

/-- Whether a query starts with a `SELECT`, before these tokens, and limits no rows so far. -/
structure Unlimited (q : Query) (select : Token) (rest : List Token) : Prop where
  tokens : q.tokens = select :: rest
  isSelect : select.isKeyword .SELECT = true
  noTop : ∀ t ∈ rest, t.isKeyword .TOP = false

/-- The spellings of the select list of the outermost `SELECT`. -/
def listTexts (q : Query) : List SqlText :=
  q.scopes.head?.elim [] fun s => s.list.map (·.text)

/-- The spellings of a clause of the outermost `SELECT`. -/
def clauseTexts (q : Query) (kind : ClauseKind) : Option (List SqlText) :=
  (q.scopes.head?.bind fun s => s.clause? kind).map fun c => c.body.map (·.text)

theorem head?_scopes (htokens : q.tokens = select :: rest) (hselect : select.isKeyword .SELECT = true) :
    q.scopes.head? = some (Scope.ofSelect q.stop select rest) := by
  rw [scopes, htokens, Scope.among, if_pos hselect]
  rfl

theorem Unlimited.depth_eq (h : q.Unlimited select rest) (hread : q.IsRead tail) : select.depth = 0 := by
  have hrun := Token.nested_iff_run.1 hread.nested
  obtain ⟨hleft, hright⟩ := Token.not_paren_of_isKeyword h.isSelect
  rw [h.tokens] at hrun
  exact (hrun.of_cons hleft hright).1

/-- The outermost `SELECT` of the limited query has the clauses that it had, and its list, perhaps with an `ALL`. -/
theorem Unlimited.texts_limited {q' : Query} {l : Layout} {o : Nat} {rows : UInt64} (h : q.Unlimited select rest)
    (hread : q.IsRead tail) (hfs : fs = select :: rest.take (Scope.topPlace rest))
    (hbs : bs = rest.drop (Scope.topPlace rest)) (hstop : q'.stop = l.place q.stop)
    (hfirst : fs.map (Token.relaid l) = fs)
    (htokens : q'.tokens = fs ++ (topTokens o rows ++ bs.map (Token.relaid l))) :
    (∀ kind, q'.clauseTexts kind = q.clauseTexts kind) ∧
      q'.listTexts = ((rest.take 1).filter fun t => t.isKeyword .ALL).map (·.text) ++ q.listTexts := by
  obtain ⟨top, count, hwords, htop⟩ : ∃ top count, topTokens o rows = [top, count] ∧ top.isKeyword .TOP = true :=
    ⟨_, _, rfl, rfl⟩
  have hcount : Modifies count.kind :=
    (modifies_topTokens o rows count (by rw [hwords]; exact List.mem_cons_of_mem _ List.mem_cons_self)).1
  have hdepth := h.depth_eq hread
  rw [hfs, List.map_cons] at hfirst
  obtain ⟨hselect, htake⟩ := List.cons.inj hfirst
  -- behind the `SELECT` the limited query has the old tokens with a new layout, and the words at the same place
  let rest' := rest.map (Token.relaid l)
  have hplace : Scope.topPlace rest' = Scope.topPlace rest := by
    cases rest with
    | nil => rfl
    | cons t ts => rfl
  have htokens' : q'.tokens
      = select :: (rest'.take (Scope.topPlace rest') ++ (top :: count :: rest'.drop (Scope.topPlace rest'))) := by
    rw [htokens, hfs, hbs, hwords, hplace, List.map_drop, ← htake, List.map_take]
    rfl
  have hno : ∀ t ∈ rest', t.isKeyword .TOP = false := by
    intro t ht
    obtain ⟨u, hu, rfl⟩ := List.mem_map.1 ht
    exact h.noTop u hu
  have hscope := head?_scopes h.tokens h.isSelect
  have hscope' := head?_scopes htokens' h.isSelect
  have hrelaid : Scope.ofSelect q'.stop select rest' = (Scope.ofSelect q.stop select rest).relaid l := by
    rw [hstop, ← Scope.ofSelect_relaid, hselect]
  obtain ⟨hclauses, hlist⟩ := Scope.ofSelect_limited hdepth htop hcount q'.stop rest'
  rw [Scope.front_topPlace hdepth hno] at hlist
  rw [hrelaid] at hclauses hlist
  refine ⟨fun kind => ?_, ?_⟩
  · rw [clauseTexts, clauseTexts, hscope, hscope', Option.bind_some, Option.bind_some, Scope.clause?, hclauses]
    change (((Scope.ofSelect q.stop select rest).relaid l).clause? kind).map _ = _
    rw [Scope.clause?_relaid, Option.map_map]
    congr 1
    funext c
    simp [Clause.relaid]
  · have hall : (rest'.take 1).filter (fun t => t.isKeyword .ALL)
        = ((rest.take 1).filter fun t => t.isKeyword .ALL).map (Token.relaid l) := by
      rw [← List.map_take, List.filter_map]
      rfl
    rw [listTexts, listTexts, hscope, hscope', Option.elim_some, Option.elim_some, hlist, hall, List.map_append,
      Scope.relaid, List.map_map, List.map_map]
    rfl

/-! ### The text of the limited query -/

/-- The words come behind keywords. -/
theorem Unlimited.keywords (h : q.Unlimited select rest) :
    ∀ t ∈ select :: rest.take (Scope.topPlace rest), ∃ k, t.isKeyword k = true := by
  rw [List.forall_mem_cons]
  refine ⟨⟨_, h.isSelect⟩, ?_⟩
  obtain ⟨-, hplace⟩ | ⟨t, ts, hdistinct, rfl, hplace⟩ := Scope.topPlace_cases rest
  · rw [hplace]
    exact List.forall_mem_nil _
  · rw [hplace]
    exact List.forall_mem_singleton.2 ⟨_, hdistinct⟩

theorem Unlimited.not_top (h : q.Unlimited select rest) (hread : q.IsRead tail) :
    ∀ l ∈ lex q.text, l.kind ≠ .keyword .TOP := by
  intro l hl hkind
  rw [hread.lex_eq, h.tokens, List.mem_append, List.mem_singleton] at hl
  rcases hl with hl | rfl
  · obtain ⟨t, ht, rfl⟩ := List.mem_map.1 hl
    have hword : t.isKeyword .TOP = true := by simpa [Token.isKeyword, Kind.isKeyword] using hkind
    rcases List.mem_cons.1 ht with rfl | ht
    · rw [JoinChain.isKeyword_eq_false_of_ne h.isSelect (by decide)] at hword
      cases hword
    · rw [h.noTop t ht] at hword
      cases hword
  · cases hkind

/-- A query starts with the tokens before the place of the words. -/
theorem Unlimited.startsWith (h : q.Unlimited select rest) (hread : q.IsRead tail)
    (hfs : fs = select :: rest.take (Scope.topPlace rest)) (hbs : bs = rest.drop (Scope.topPlace rest)) :
    Text.StartsWith q.text (fs.map (·.toLexeme)) (bs.map (·.toLexeme) ++ [⟨.eof, Cell.spell tail, []⟩]) where
  lexemes := by
    rw [hread.lex_eq, h.tokens, hfs, hbs, ← List.append_assoc, ← List.map_append, List.cons_append,
      List.take_append_drop]
  words := by
    intro l hl
    obtain ⟨t, ht, rfl⟩ := List.mem_map.1 hl
    obtain ⟨k, hk⟩ := h.keywords t (hfs ▸ ht)
    exact ⟨k, by simpa [Token.isKeyword, Kind.isKeyword] using hk⟩
  front_ne_nil := by simp [hfs]
  back_ne_nil := by simp

/-- The words are put in at their place. -/
theorem Unlimited.limitString_eq (h : q.Unlimited select rest) (hread : q.IsRead tail)
    (hfs : fs = select :: rest.take (Scope.topPlace rest)) (hbs : bs = rest.drop (Scope.topPlace rest))
    (rows : UInt64) : limitString q.text 0 rows = .ok (spell (fs.map (·.toLexeme)) ++
      (topText rows ++ spell (bs.map (·.toLexeme) ++ [⟨.eof, Cell.spell tail, []⟩]))) := by
  have hkind : select.kind.isKeyword .SELECT = true := h.isSelect
  rw [limitString_zero, limitText, hread.lex_eq, h.tokens, hfs, hbs]
  obtain ⟨hnot, hplace⟩ | ⟨t, ts, hdistinct, rfl, hplace⟩ := Scope.topPlace_cases rest
  · rw [hplace]
    cases rest with
    | nil =>
      simp only [List.map_cons, List.map_nil, List.cons_append, List.nil_append, hkind, if_true]
      exact congrArg Except.ok (List.append_assoc ..)
    | cons t ts =>
      have ht : t.kind.isKeyword .DISTINCT = false := hnot t rfl
      simp only [List.map_cons, List.cons_append, hkind, ht, if_true]
      exact congrArg Except.ok (List.append_assoc ..)
  · have ht : t.kind.isKeyword .DISTINCT = true := hdistinct
    rw [hplace]
    simp only [List.map_cons, List.cons_append, hkind, ht, if_true]
    exact congrArg Except.ok (List.append_assoc ..)

/-- The end of a text goes on with no number. -/
theorem IsRead.startsFraction_written (hread : q.IsRead tail) (ts : List Token) :
    Text.startsFraction (written ts ++ Cell.spell tail) = Text.startsFraction (written ts) := by
  refine Text.startsFraction_append ?_ (written ts)
  rcases hread.tail with rfl | ⟨g, rfl⟩
  · rfl
  · have hsound := hread.sound.of_append
    rw [Cell.sound_cons_iff] at hsound
    simpa using hsound.1.head?_gap

end Query

/-- **Limited queries are read as what they were.**  The rows of every query can be limited that starts with a `SELECT`
and has no `TOP`.  The limited text has the tokens of the query and two more, `TOP` and the number, if and only if what
comes behind their place does not start with a point and a digit.  Then it is a query with the same clauses of the
outermost `SELECT`, and with the same select list if and only if there is no `ALL` behind the `SELECT`. -/
theorem limited_as_read {sql : SqlText} {q : Query} {select : Token} {rest : List Token}
    (hq : Query.ofText sql = .ok q) (h : q.Unlimited select rest) (rows : UInt64) :
    ∃ out, limitString sql 0 rows = .ok out ∧
      (Text.Gains (topLexemes rows) sql out ↔
        Text.startsFraction (Token.written (rest.drop (Scope.topPlace rest))) = false) ∧
      (Text.startsFraction (Token.written (rest.drop (Scope.topPlace rest))) = false →
        ∃ q', Query.ofText out = .ok q' ∧ (∀ kind, q'.clauseTexts kind = q.clauseTexts kind) ∧
          (q'.listTexts = q.listTexts ↔ ∀ t ∈ rest.head?, t.isKeyword .ALL = false)) := by
  obtain ⟨rfl, tail, hread⟩ := Query.isRead hq
  have hstarts := h.startsWith hread rfl rfl
  have hfraction := hread.startsFraction_written (rest.drop (Scope.topPlace rest))
  rw [Token.written_eq_spell] at hfraction
  have hbehind : spell ((rest.drop (Scope.topPlace rest)).map (·.toLexeme) ++ [⟨.eof, Cell.spell tail, []⟩])
      = spell ((rest.drop (Scope.topPlace rest)).map (·.toLexeme)) ++ Cell.spell tail := by
    simp [Lexeme.spell_append]
  rw [Token.written_eq_spell, ← hfraction, ← hbehind]
  refine ⟨_, h.limitString_eq hread rfl rfl rows, hstarts.gains_iff (h.not_top hread) rows, fun hnot => ?_⟩
  have htokens : q.tokens = (select :: rest.take (Scope.topPlace rest)) ++ rest.drop (Scope.topPlace rest) := by
    rw [h.tokens, List.cons_append, List.take_append_drop]
  obtain ⟨l, q', hq', hfirst, hstop, hall⟩ :=
    Query.exists_limited hq htokens h.keywords hstarts.lexemes (hstarts.lex_limited_of_not rows hnot)
  obtain ⟨hclauses, hlist⟩ := h.texts_limited hread rfl rfl hstop hfirst hall
  refine ⟨q', hq', hclauses, ?_⟩
  rw [hlist, List.append_left_eq_self]
  cases rest with
  | nil => simp
  | cons t ts => simp

/-- A query with a parenthesis behind the place of the words. -/
def distinctQuery : Query :=
  ⟨"select distinct(a)from t".toList,
    [⟨⟨⟨.keyword .SELECT, [], "select".toList⟩, 0⟩, 0⟩, ⟨⟨⟨.keyword .DISTINCT, [' '], "distinct".toList⟩, 7⟩, 0⟩,
      ⟨⟨⟨.symbol .leftParen, [], ['(']⟩, 15⟩, 0⟩, ⟨⟨⟨.identifier ['a'], [], ['a']⟩, 16⟩, 1⟩,
      ⟨⟨⟨.symbol .rightParen, [], [')']⟩, 17⟩, 0⟩, ⟨⟨⟨.keyword .FROM, [], "from".toList⟩, 18⟩, 0⟩,
      ⟨⟨⟨.identifier ['t'], [' '], ['t']⟩, 23⟩, 0⟩]⟩

/-- The words come to stand before a parenthesis. -/
theorem limited_as_read_distinct : ∃ q', Query.ofText "select distinct top 5(a)from t".toList = .ok q' ∧
    q'.listTexts = [['('], ['a'], [')']] ∧ q'.clauseTexts .tables = some [['t']] := by
  have hq : Query.ofText "select distinct(a)from t".toList = .ok distinctQuery := by decide +kernel
  have hlimit : limitString "select distinct(a)from t".toList 0 5 = .ok "select distinct top 5(a)from t".toList := by
    decide +kernel
  obtain ⟨out, hout, -, hread⟩ := limited_as_read hq ⟨rfl, rfl, by decide⟩ 5
  obtain ⟨q', hq', hclauses, hlist⟩ := hread (by decide)
  obtain rfl := Except.ok.inj (hlimit.symm.trans hout)
  refine ⟨q', hq', (hlist.2 (by decide)).trans (by decide +kernel), (hclauses .tables).trans (by decide +kernel)⟩

/-- A query with a fraction behind the place of the words. -/
def fractionQuery : Query :=
  ⟨"select.5 from t".toList,
    [⟨⟨⟨.keyword .SELECT, [], "select".toList⟩, 0⟩, 0⟩, ⟨⟨⟨.symbol .dot, [], ['.']⟩, 6⟩, 0⟩,
      ⟨⟨⟨.integer 5, [], ['5']⟩, 7⟩, 0⟩, ⟨⟨⟨.keyword .FROM, [' '], "from".toList⟩, 9⟩, 0⟩,
      ⟨⟨⟨.identifier ['t'], [' '], ['t']⟩, 14⟩, 0⟩]⟩

/-- A query with an `ALL` behind the place of the words. -/
def allQuery : Query :=
  ⟨"select all a from t".toList,
    [⟨⟨⟨.keyword .SELECT, [], "select".toList⟩, 0⟩, 0⟩, ⟨⟨⟨.keyword .ALL, [' '], "all".toList⟩, 7⟩, 0⟩,
      ⟨⟨⟨.identifier ['a'], [' '], ['a']⟩, 11⟩, 0⟩, ⟨⟨⟨.keyword .FROM, [' '], "from".toList⟩, 13⟩, 0⟩,
      ⟨⟨⟨.identifier ['t'], [' '], ['t']⟩, 18⟩, 0⟩]⟩

/-- The number of rows takes in a fraction behind it, and an `ALL` behind the number is read as a part of the list. -/
theorem not_limited_as_read :
    (¬ ∀ (sql : SqlText) (q : Query) (select : Token) (rest : List Token), Query.ofText sql = .ok q →
      q.Unlimited select rest → ∀ (rows : UInt64) (out : SqlText), limitString sql 0 rows = .ok out →
        Text.Gains (topLexemes rows) sql out) ∧
    ¬ ∀ (sql : SqlText) (q : Query) (select : Token) (rest : List Token), Query.ofText sql = .ok q →
      q.Unlimited select rest → ∀ (rows : UInt64) (out : SqlText) (q' : Query), limitString sql 0 rows = .ok out →
        Query.ofText out = .ok q' → q'.listTexts = q.listTexts := by
  constructor
  · intro h
    have hq : Query.ofText "select.5 from t".toList = .ok fractionQuery := by decide +kernel
    have hgains := h _ _ _ _ hq ⟨rfl, rfl, by decide⟩ 10 "select top 10.5 from t".toList (by decide +kernel)
    exact absurd hgains.length_eq (by decide +kernel)
  · intro h
    have hq : Query.ofText "select all a from t".toList = .ok allQuery := by decide +kernel
    have hlimit : limitString "select all a from t".toList 0 5 = .ok "select top 5 all a from t".toList := by
      decide +kernel
    have hlist : (Query.ofText "select top 5 all a from t".toList).map Query.listTexts = .ok ["all".toList, ['a']] := by
      decide +kernel
    cases hq' : Query.ofText "select top 5 all a from t".toList with
    | error e =>
      rw [hq'] at hlist
      cases hlist
    | ok q' =>
      rw [hq'] at hlist
      have hsame := h _ _ _ _ hq ⟨rfl, rfl, by decide⟩ 5 _ q' hlimit hq'
      rw [Except.ok.inj hlist] at hsame
      exact absurd hsame (by decide +kernel)

end JetAdapter
