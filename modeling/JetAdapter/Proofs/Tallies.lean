import JetAdapter.Proofs.Stretches

/-!
# Counting calls

What the rules look for is counted in the cells of a text: the calls of some functions, the word `DISTINCT`, the
same directly behind the parenthesis of a call, and the word `CASE`.  Whether a word is the name of a call
depends on one token before it and one behind it, so counting goes from cell to cell and remembers what stands
before (`Lead`).  The less the lead says, the less is counted (`Tally.count_mono`); gaps do not count
(`Tally.count_filter`).
-/

namespace JetAdapter

open Cell (ofGap)
open Token (stretch)

/-- What stands before a cell: a dot, the name of a function that is counted, its name and a parenthesis, or
something else. -/
inductive Lead
  | other
  | dot
  | name
  | opened
deriving DecidableEq

/-- A dot says less than something else, and this less than a name. -/
def Lead.Below (s s' : Lead) : Prop :=
  s = s' ∨ s = .dot ∨ s = .other ∧ s' ≠ .dot

/-- What is counted: calls of functions with these names or of aggregates, and words, each with a weight. -/
structure Tally where
  functions : List String
  aggregates : Bool
  call : Nat
  distinct : Nat
  pending : Nat
  conditional : Nat

namespace Tally

variable {w : Tally} {s s' : Lead} {c : Cell} {cs as bs os : List Cell} {k : Kind} {t : SqlText}

/-- Whether a token is the name of a function that is counted. -/
def isName (w : Tally) : Kind → SqlText → Bool
  | .identifier _, t => w.functions.any fun f => Text.sameWord t f.toList
  | .keyword k, _ => w.aggregates && k.isAggregate
  | _, _ => false

/-- What stands before the next cell. -/
def next (w : Tally) (s : Lead) : Cell → Lead
  | .gap _ => s
  | .token (.symbol .leftParen) _ => if s = .name then .opened else .other
  | .token (.symbol .dot) _ => .dot
  | .token k t => if w.isName k t ∧ s ≠ .dot then .name else .other

/-- What a cell counts. -/
def weigh (w : Tally) (s : Lead) : Cell → Nat
  | .token (.symbol .leftParen) _ => if s = .name then w.call else 0
  | .token (.keyword .DISTINCT) _ => w.distinct + if s = .opened then w.pending else 0
  | .token (.keyword .CASE) _ => w.conditional
  | _ => 0

/-- What cells count. -/
def count (w : Tally) (s : Lead) : List Cell → Nat
  | [] => 0
  | c :: cs => w.weigh s c + count w (w.next s c) cs

/-- What stands behind cells. -/
def after (w : Tally) (s : Lead) (cs : List Cell) : Lead :=
  cs.foldl w.next s

@[simp] theorem count_nil : w.count s [] = 0 := rfl

@[simp] theorem count_cons : w.count s (c :: cs) = w.weigh s c + w.count (w.next s c) cs := rfl

@[simp] theorem after_nil : w.after s [] = s := rfl

@[simp] theorem after_cons : w.after s (c :: cs) = w.after (w.next s c) cs := rfl

@[simp] theorem next_gap {g : SqlText} : w.next s (.gap g) = s := rfl

@[simp] theorem weigh_gap {g : SqlText} : w.weigh s (.gap g) = 0 := rfl

@[simp] theorem count_append : w.count s (as ++ bs) = w.count s as + w.count (w.after s as) bs := by
  induction as generalizing s with
  | nil => simp
  | cons c as ih => simp [ih, Nat.add_assoc]

@[simp] theorem after_append : w.after s (as ++ bs) = w.after (w.after s as) bs :=
  List.foldl_append

/-- Gaps do not count. -/
theorem count_filter : w.count s (cs.filter Cell.isToken) = w.count s cs := by
  induction cs generalizing s with
  | nil => rfl
  | cons c cs ih =>
    cases c with
    | gap g => rw [List.filter_cons_of_neg (by simp [Cell.isToken, Cell.isGap]), ih]; simp
    | token k t => rw [List.filter_cons_of_pos (by simp [Cell.isToken, Cell.isGap]), count_cons, count_cons, ih]

theorem count_congr (h : as.filter Cell.isToken = bs.filter Cell.isToken) :
    w.count s as = w.count s bs := by
  rw [← count_filter, h, count_filter]

@[simp] theorem count_ofGap {g : SqlText} : w.count s (ofGap g) = 0 := by
  unfold ofGap
  split
  · rfl
  · rfl

@[simp] theorem after_ofGap {g : SqlText} : w.after s (ofGap g) = s := by
  unfold ofGap
  split
  · rfl
  · rfl

theorem count_cells (ts : List Token) : w.count s (Token.cells ts) = w.count s (stretch ts) := by
  cases ts with
  | nil => rfl
  | cons t ts => simp

theorem after_cells (ts : List Token) : w.after s (Token.cells ts) = w.after s (stretch ts) := by
  cases ts with
  | nil => rfl
  | cons t ts => simp

/-! ### Leads that say less -/

/-- The cases of a token. -/
theorem token_cases (w : Tally) (k : Kind) (t : SqlText) :
    k = .symbol .leftParen ∨ k = .symbol .dot ∨
      ((∀ s, w.next s (.token k t) = if w.isName k t ∧ s ≠ .dot then .name else .other) ∧
        k ≠ .symbol .leftParen ∧ k ≠ .symbol .dot) := by
  by_cases hl : k = .symbol .leftParen
  · exact .inl hl
  by_cases hd : k = .symbol .dot
  · exact .inr (.inl hd)
  refine .inr (.inr ⟨fun s => ?_, hl, hd⟩)
  cases k with
  | symbol y => cases y <;> first | rfl | exact absurd rfl hl | exact absurd rfl hd
  | _ => rfl

theorem next_mono (h : s.Below s') : (w.next s c).Below (w.next s' c) := by
  cases c with
  | gap g => exact h
  | token k t =>
    rcases token_cases w k t with rfl | rfl | ⟨hnext, -, -⟩
    · show Lead.Below (if _ then _ else _) (if _ then _ else _)
      rcases h with rfl | rfl | ⟨rfl, -⟩
      · exact .inl rfl
      · exact .inr (.inr ⟨if_neg (by decide), by split <;> decide⟩)
      · exact .inr (.inr ⟨if_neg (by decide), by split <;> decide⟩)
    · exact .inl rfl
    · rw [hnext, hnext]
      rcases h with rfl | rfl | ⟨rfl, h⟩
      · exact .inl rfl
      · split <;> split <;> simp_all [Lead.Below]
      · split <;> split <;> simp_all [Lead.Below]

theorem weigh_mono (h : s.Below s') : w.weigh s c ≤ w.weigh s' c := by
  rcases h with rfl | rfl | ⟨rfl, -⟩
  · exact Nat.le_refl _
  all_goals
    unfold weigh
    split <;> simp

/-- The less the lead says, the less is counted. -/
theorem count_mono (h : s.Below s') : w.count s cs ≤ w.count s' cs := by
  induction cs generalizing s s' with
  | nil => exact Nat.le_refl _
  | cons c cs ih => exact Nat.add_le_add (weigh_mono h) (ih (next_mono h))

/-- Behind the parenthesis of a call at most one word more counts. -/
theorem count_opened_le : w.count .opened cs ≤ w.pending + w.count .other cs := by
  induction cs with
  | nil => simp
  | cons c cs ih =>
    cases c with
    | gap g => simpa using ih
    | token k t =>
      have hnext : w.next .opened (.token k t) = w.next .other (.token k t) := by
        rcases token_cases w k t with rfl | rfl | ⟨hnext, -, -⟩
        · rfl
        · rfl
        · simp [hnext]
      have hweigh : w.weigh .opened (.token k t) ≤ w.pending + w.weigh .other (.token k t) := by
        unfold weigh
        split
        · simp
        · simp
          omega
        · simp
        · simp
      rw [count_cons, count_cons, hnext]
      omega

/-! ### Quiet tokens -/

/-- Whether a token counts nothing and is neither a name nor before one. -/
def Quiet (w : Tally) (c : Cell) : Prop :=
  ∀ s, w.weigh s c = 0 ∧ w.next s c = .other

theorem quiet_symbol {y : Symbol} (hl : y ≠ .leftParen) (hd : y ≠ .dot) :
    w.Quiet (.token (.symbol y) t) := by
  intro s
  cases y <;> first | exact absurd rfl hl | exact absurd rfl hd | exact ⟨rfl, rfl⟩

theorem quiet_keyword {y : Keyword} (ha : y.isAggregate = false) (hd : y ≠ .DISTINCT) (hc : y ≠ .CASE) :
    w.Quiet (.token (.keyword y) t) := by
  intro s
  refine ⟨?_, ?_⟩
  · unfold weigh
    split <;> simp_all
  · show (if _ then _ else _) = _
    rw [if_neg]
    simp [isName, ha]

theorem quiet_sign {d : Char} (hd : d = ')' ∨ d = ',') : w.Quiet (Cell.sign d) := by
  rcases hd with rfl | rfl
  · exact quiet_symbol (y := .rightParen) (by decide) (by decide)
  · exact quiet_symbol (y := .comma) (by decide) (by decide)

/-- A written word that is no keyword and no name of a function that is counted. -/
theorem quiet_word {v : SqlText} (hv : Keyword.ofWord? v = none)
    (hn : (w.functions.any fun f => Text.sameWord v f.toList) = false) : w.Quiet (Cell.word v) := by
  have hk : Lexeme.wordKind v = .identifier v := by
    rw [Lexeme.wordKind, hv]
  intro s
  rw [Cell.word, hk]
  refine ⟨rfl, ?_⟩
  show (if _ then _ else _) = _
  rw [if_neg]
  rintro ⟨h, -⟩
  rw [isName, hn] at h
  cases h

theorem Quiet.count (h : w.Quiet c) : w.count s (c :: cs) = w.count .other cs := by
  rw [count_cons, (h s).1, (h s).2, Nat.zero_add]

/-- Behind a token that stands in for every lead. -/
theorem count_eq_of_quiet (h : ∀ c ∈ Cell.firstToken? cs, w.Quiet c) : w.count s cs = w.count s' cs := by
  induction cs with
  | nil => rfl
  | cons c cs ih =>
    cases c with
    | gap g =>
      rw [count_cons, count_cons, weigh_gap, weigh_gap, next_gap, next_gap, ih]
      intro c hc
      refine h c ?_
      rwa [Cell.firstToken?, List.filter_cons_of_neg (by simp [Cell.isToken, Cell.isGap])]
    | token k t =>
      have hq : w.Quiet (.token k t) := h _ rfl
      rw [hq.count, hq.count]

/-! ### Before what ends a clause -/

/-- The keywords that end a clause. -/
def enders : List Keyword :=
  [.UNION, .FROM, .WHERE, .GROUP, .HAVING, .ORDER]

/-- Whether no function that is counted is named like a word that runs into a keyword that ends a clause. -/
def Unmixed (w : Tally) : Prop :=
  ∀ f ∈ w.functions, ∀ y ∈ enders, (Text.lower y.spelling).isSuffixOf (Text.lower f.toList) = false

theorem quiet_of_endsClause {t : Token} (h : t.EndsClause) : w.Quiet t.cell := by
  have hsymbol : ∀ {y : Symbol}, t.isSymbol y = true → y ≠ .leftParen → y ≠ .dot → w.Quiet t.cell := by
    intro y hy hl hd
    have hk : t.kind = .symbol y := Kind.isSymbol_iff.1 hy
    rw [Token.cell, hk]
    exact quiet_symbol hl hd
  rcases h with h | h | ⟨y, hy, h⟩
  · exact hsymbol h (by decide) (by decide)
  · exact hsymbol h (by decide) (by decide)
  · have hk : t.kind = .keyword y := Kind.isKeyword_iff.1 h
    rw [Token.cell, hk]
    simp only [List.mem_cons, List.not_mem_nil, or_false] at hy
    rcases hy with rfl | rfl | rfl | rfl | rfl | rfl
    all_goals exact quiet_keyword (by decide) (by decide) (by decide)

theorem count_eq_of_atEnd (h : Cell.AtEnd cs) : w.count s cs = w.count s' cs := by
  refine count_eq_of_quiet fun c hc => ?_
  obtain ⟨t, ht, rfl⟩ := h c hc
  exact quiet_of_endsClause ht

theorem lower_eq_of_ofWord? {v : SqlText} {y : Keyword} (h : Keyword.ofWord? v = some y) :
    Text.lower v = Text.lower y.spelling := by
  have hsame : Text.sameWord y.spelling v = true := by simpa using List.find?_some h
  exact (beq_iff_eq.1 hsame).symm

/-- The keywords that are counted or name what is counted. -/
def counted : List Keyword :=
  [.DISTINCT, .CASE, .COUNT, .SUM, .AVG, .MIN, .MAX]

theorem not_isSuffixOf : ∀ y ∈ enders, ∀ x ∈ counted,
    (Text.lower y.spelling).isSuffixOf (Text.lower x.spelling) = false := by
  decide

theorem quiet_of_not_counted {y : Keyword} (h : y ∉ counted) : w.Quiet (.token (.keyword y) t) := by
  refine quiet_keyword ?_ (fun hy => h (by rw [hy]; decide)) fun hy => h (by rw [hy]; decide)
  cases y <;> first | rfl | exact absurd (by decide) h

/-- A word that is spelled like none of the words that are counted. -/
theorem quiet_of_wordy {u : SqlText} (hfunctions : ∀ f ∈ w.functions, Text.lower u ≠ Text.lower f.toList)
    (hcounted : ∀ y ∈ counted, Text.lower u ≠ Text.lower y.spelling) (hwordy : Cell.Wordy k u) :
    w.Quiet (.token k u) := by
  have hnone : (w.functions.any fun f => Text.sameWord u f.toList) = false := by
    refine Bool.eq_false_iff.2 fun hany => ?_
    obtain ⟨f, hf, hsame⟩ := List.any_eq_true.1 hany
    exact hfunctions f hf (by simpa [Text.sameWord] using hsame)
  have hidentifier : ∀ {n : SqlText}, w.Quiet (.token (.identifier n) u) := by
    intro n s
    refine ⟨rfl, ?_⟩
    show (if _ then _ else _) = _
    rw [if_neg]
    rintro ⟨h, -⟩
    rw [isName, hnone] at h
    cases h
  generalize hz : u = z at hwordy hidentifier
  cases hwordy with
  | word isWord =>
    rcases Lexeme.wordKind_eq z with h | ⟨x, hx, h⟩
    · rw [h]
      exact hidentifier
    · rw [h]
      rw [← hz] at hx
      exact quiet_of_not_counted fun hmem => hcounted x hmem (lower_eq_of_ofWord? hx)
  | named nonempty all => exact fun s => ⟨rfl, rfl⟩
  | systemName nonempty all => exact hidentifier

/-- A word that has run into a keyword that ends a clause is none of the words that are counted. -/
theorem quiet_of_mixed {v u : SqlText} {y : Keyword} (hw : w.Unmixed) (hy : y ∈ enders)
    (hv : Keyword.ofWord? v = some y) (hwordy : Cell.Wordy k (u ++ v)) : w.Quiet (.token k (u ++ v)) := by
  have hsuffix : ∀ {z : SqlText}, Text.lower (u ++ v) = Text.lower z →
      (Text.lower y.spelling).isSuffixOf (Text.lower z) = true := by
    intro z hz
    have happend : Text.lower (u ++ v) = Text.lower u ++ Text.lower v := List.map_append
    rw [← hz, happend, ← lower_eq_of_ofWord? hv]
    exact List.isSuffixOf_iff_suffix.2 (List.suffix_append _ _)
  refine quiet_of_wordy (fun f hf hsame => ?_) (fun x hx hsame => ?_) hwordy
  · cases (hw f hf y hy).symm.trans (hsuffix hsame)
  · cases (not_isSuffixOf y hy x hx).symm.trans (hsuffix hsame)

/-- A last token that a word runs into counts no more than before. -/
theorem count_joined_le {v : SqlText} (hw : w.Unmixed) (hends : Cell.AtEnd cs) (hj : Cell.Joined k v cs bs) :
    w.count s bs ≤ w.count s (.token k v :: cs) := by
  cases hj with
  | apart fits => exact Nat.le_refl _
  | @meld _ k' _ u ss front back both marker fits =>
    obtain ⟨t, ht, hcell⟩ := hends (.token (Lexeme.wordKind u) u) rfl
    obtain ⟨hkind, htext⟩ := Cell.token.inj hcell
    have hkeyword : ∃ y ∈ enders, Keyword.ofWord? u = some y := by
      have hsymbol : ∀ y : Symbol, Lexeme.wordKind u ≠ .symbol y := by
        intro y hy
        rcases Lexeme.wordKind_eq u with h | ⟨x, -, h⟩
        all_goals
          rw [hy] at h
          cases h
      rcases ht with h | h | ⟨y, hy, h⟩
      · exact absurd (hkind.trans (by simpa [Token.isSymbol, Kind.isSymbol] using h)) (hsymbol _)
      · exact absurd (hkind.trans (by simpa [Token.isSymbol, Kind.isSymbol] using h)) (hsymbol _)
      · have hk : Lexeme.wordKind u = .keyword y :=
          hkind.trans (by simpa [Token.isKeyword, Kind.isKeyword] using h)
        refine ⟨y, hy, ?_⟩
        rcases Lexeme.wordKind_eq u with h' | ⟨x, hx, h'⟩
        · rw [hk] at h'
          cases h'
        · rw [hk] at h'
          rw [hx, Kind.keyword.inj h']
    obtain ⟨y, hy, hu⟩ := hkeyword
    have hquiet := quiet_of_mixed hw hy hu both
    have hback : w.Quiet (.token (Lexeme.wordKind u) u) := by
      rw [hcell]
      exact quiet_of_endsClause ht
    rw [hquiet.count, count_cons, hback.count]
    omega
  | @swallow u ss fits =>
    have hrest : Cell.AtEnd ss := hends
    have hquiet : w.Quiet (.token (.symbol .minus) ['-']) := quiet_symbol (by decide) (by decide)
    have heq : w.count s ss = w.count .other ss := count_eq_of_atEnd hrest
    refine Nat.le_of_eq ?_
    rw [hquiet.count, count_cons, count_cons, weigh_gap, weigh_gap, next_gap, next_gap, heq]

/-! ### Tokens -/

theorem weigh_distinct {t : Token} (h : t.isKeyword .DISTINCT = true) :
    w.weigh s t.cell = w.distinct + (if s = .opened then w.pending else 0) ∧ w.next s t.cell = .other := by
  have hk : t.kind = .keyword .DISTINCT := Kind.isKeyword_iff.1 h
  rw [Token.cell, hk]
  refine ⟨rfl, ?_⟩
  show (if _ then _ else _) = _
  rw [if_neg]
  simp [isName, Keyword.isAggregate]

theorem weigh_left {t : Token} (h : t.isSymbol .leftParen = true) :
    w.weigh s t.cell = (if s = .name then w.call else 0) ∧
      w.next s t.cell = if s = .name then .opened else .other := by
  have hk : t.kind = .symbol .leftParen := Kind.isSymbol_iff.1 h
  rw [Token.cell, hk]
  exact ⟨rfl, rfl⟩

/-- What stands behind a stretch is no dot if its last token is none. -/
theorem after_ne_dot {ts : List Token} (hne : ts ≠ []) (h : ∀ t ∈ ts.getLast?, t.isSymbol .dot = false) :
    w.after s (stretch ts) ≠ .dot := by
  rcases List.eq_nil_or_concat ts with rfl | ⟨us, t, rfl⟩
  · exact absurd rfl hne
  · have ht : t.isSymbol .dot = false := h t (by simp)
    have hk : t.kind ≠ .symbol .dot := by
      intro hk
      simp [Token.isSymbol, Kind.isSymbol, hk] at ht
    rw [← after_cells, List.concat_eq_append, Token.cells_append, after_append, Token.cells_cons,
      Token.cells_nil, after_append, after_ofGap, after_cons, after_nil, Token.cell]
    rcases token_cases w t.kind t.text with hl | hd | ⟨hnext, -, -⟩
    · rw [hl]
      show (if _ then _ else _) ≠ _
      split <;> decide
    · exact absurd hd hk
    · rw [hnext]
      split <;> decide

theorem weigh_sign_left : w.weigh s (Cell.sign '(') = if s = .name then w.call else 0 := rfl

theorem next_sign_left : w.next s (Cell.sign '(') = if s = .name then .opened else .other := rfl

end Tally

end JetAdapter
