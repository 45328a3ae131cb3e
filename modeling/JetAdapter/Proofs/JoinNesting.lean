import JetAdapter.Proofs.Balance
import JetAdapter.Proofs.Insertions
import JetAdapter.Proofs.Refusals

/-!
# Nesting joins to the left

`JoinTree.nested` writes a block as Jet takes it: a block of two joins or more is the shorter block before its last
operator, nested likewise and in parentheses, and what follows.  Blocks with a join become tables of their own where a
clause has several of them (`JoinTree.rewritten`).

The edits never build that: all opening parentheses stand at the start of the block, and a closing one at the end of
every member before the last (`JoinTree.closed`).  Applied to the text of a clause they make the nested text all the same
(`FromClause.WellFormed.weave_editsFrom`).  So nesting the joins of a text accepts just the well-formed clauses and writes
their blocks nested (`JoinChain.nestClause_grammar`).
-/

namespace JetAdapter

open Text (byteSize weave)
open Edit (insertedAt)
open Token (Placed spell)

variable {o index : Nat} {ts as bs : List Token} {t : Token} {ins : Nat → SqlText} {text tail : SqlText}

/-! ### Texts of tokens -/

namespace Token

/-- The text of tokens with the gap before each. -/
def written (ts : List Token) : SqlText :=
  ts.flatMap fun t => t.gap ++ t.text

theorem written_eq_spell (ts : List Token) : written ts = Lexeme.spell (ts.map (·.toLexeme)) := by
  rw [Lexeme.spell, List.flatMap_map]
  rfl

/-- The gap before a stretch. -/
def lead : List Token → SqlText
  | [] => []
  | t :: _ => t.gap

@[simp] theorem written_append (as bs : List Token) : written (as ++ bs) = written as ++ written bs :=
  List.flatMap_append

theorem written_cons (t : Token) (ts : List Token) : written (t :: ts) = t.gap ++ (t.text ++ written ts) := by
  rw [written, List.flatMap_cons, List.append_assoc]
  rfl

theorem written_eq (ts : List Token) : written ts = lead ts ++ spell ts := by
  cases ts with
  | nil => rfl
  | cons t ts => rw [written_cons, lead, spell, written]

theorem spell_append (has : as ≠ []) (bs : List Token) : spell (as ++ bs) = spell as ++ written bs := by
  obtain ⟨t, ts, rfl⟩ := List.exists_cons_of_ne_nil has
  rw [List.cons_append, spell, spell, List.flatMap_append, List.append_assoc]
  rfl

theorem written_ne_nil (hts : ts ≠ []) (htexts : ∀ t ∈ ts, t.text ≠ []) : written ts ≠ [] := by
  obtain ⟨t, ts, rfl⟩ := List.exists_cons_of_ne_nil hts
  have := htexts t List.mem_cons_self
  simp [written_cons, this]

theorem byteSize_pos {s : SqlText} (h : s ≠ []) : 0 < byteSize s := by
  obtain ⟨c, s, rfl⟩ := List.exists_cons_of_ne_nil h
  have := c.utf8Size_pos
  rw [Text.byteSize_cons]
  omega

theorem placed_append_iff : Placed o (as ++ bs) ↔ Placed o as ∧ Placed (o + byteSize (written as)) bs := by
  rw [placed_append, spell_cells]
  rfl

/-- A stretch starts behind the gap before it, and ends where its text does. -/
theorem Placed.extent (h : Placed o ts) (hts : ts ≠ []) (s s' : Nat) :
    startOr s ts = o + byteSize (lead ts) ∧ stopOr s' ts = startOr s ts + byteSize (spell ts) := by
  have hstop := h.stopOr_eq hts s'
  rw [spell_cells] at hstop
  change _ = o + byteSize (written ts) at hstop
  rw [written_eq, Text.byteSize_append] at hstop
  obtain ⟨t, ts, rfl⟩ := List.exists_cons_of_ne_nil hts
  have hstart : startOr s (t :: ts) = o + byteSize (lead (t :: ts)) := h.1
  exact ⟨hstart, by omega⟩

theorem spell_ne_nil (hts : ts ≠ []) (htexts : ∀ t ∈ ts, t.text ≠ []) : spell ts ≠ [] := by
  obtain ⟨t, ts, rfl⟩ := List.exists_cons_of_ne_nil hts
  simp [spell, htexts t List.mem_cons_self]

/-- The places of two stretches one behind the other. -/
theorem Placed.extent_append (h : Placed o (as ++ bs)) (has : as ≠ []) (hbs : bs ≠ [])
    (htexts : ∀ t ∈ as ++ bs, t.text ≠ []) :
    startOr 0 (as ++ bs) = startOr 0 as ∧ startOr 0 as < stopOr 0 as ∧
      stopOr 0 as = startOr 0 as + byteSize (spell as) ∧ stopOr 0 as < stopOr 0 (as ++ bs) ∧
      stopOr 0 (as ++ bs) = stopOr 0 as + byteSize (written bs) := by
  obtain ⟨htas, htbs⟩ := List.forall_mem_append.1 htexts
  have hstart : startOr 0 (as ++ bs) = startOr 0 as := by
    obtain ⟨t, ts, rfl⟩ := List.exists_cons_of_ne_nil has
    rfl
  obtain ⟨-, hstop⟩ := h.extent (List.append_ne_nil_of_left_ne_nil has bs) 0 0
  obtain ⟨-, hstop'⟩ := (placed_append_iff.1 h).1.extent has 0 0
  rw [spell_append has, Text.byteSize_append, hstart] at hstop
  have := byteSize_pos (spell_ne_nil has htas)
  have := byteSize_pos (written_ne_nil hbs htbs)
  exact ⟨hstart, by omega, hstop', by omega, by omega⟩

/-- A token stands inside its stretch. -/
theorem Placed.within (h : Placed o ts) (ht : t ∈ ts) (s s' : Nat) :
    startOr s ts ≤ t.start ∧ t.start ≤ t.stop ∧ t.stop ≤ stopOr s' ts := by
  have hts : ts ≠ [] := List.ne_nil_of_mem ht
  obtain ⟨hstart, hstop⟩ := h.extent hts s s'
  obtain ⟨as, bs, rfl⟩ := List.append_of_mem ht
  obtain ⟨-, hfirst, -⟩ := placed_append_iff.1 h
  have hwritten := congrArg byteSize (written_eq (as ++ t :: bs))
  rw [written_append, written_cons] at hwritten
  simp only [Text.byteSize_append] at hwritten
  have hsize : t.stop = t.start + byteSize t.text := rfl
  refine ⟨?_, by omega, by omega⟩
  cases as with
  | nil => exact Nat.le_refl _
  | cons a as =>
    rw [hstart, hfirst, List.cons_append, lead, written_cons, Text.byteSize_append]
    omega

/-- Something may be inserted before and behind every token. -/
theorem Placed.insertsInto (h : Placed 0 ts) (ht : t ∈ ts) (rest s : SqlText) :
    (Edit.insert t.start s).InsertsInto (written ts ++ rest) ∧
      (Edit.insert t.stop s).InsertsInto (written ts ++ rest) := by
  obtain ⟨as, bs, rfl⟩ := List.append_of_mem ht
  obtain ⟨-, hstart, -⟩ := placed_append_iff.1 h
  refine ⟨⟨rfl, written as ++ t.gap, t.text ++ written bs ++ rest, ?_, ?_⟩,
    ⟨rfl, written as ++ t.gap ++ t.text, written bs ++ rest, ?_, ?_⟩⟩
  · simp [written_cons]
  · rw [Text.byteSize_append]
    exact (hstart.trans (by omega)).symm
  · simp [written_cons]
  · rw [Text.byteSize_append, Text.byteSize_append]
    show _ = t.start + byteSize t.text
    omega

end Token

open Token (written lead)

namespace Text

variable {place : Nat} {u : SqlText}

/-- Where something is inserted only at the start of a stretch with its end, it stands before the stretch. -/
theorem weave_closed_of_quiet (h : ∀ p, place < p → p ≤ place + byteSize u → ins p = []) :
    weave ins place u ++ ins (place + byteSize u) = ins place ++ u := by
  cases u with
  | nil => simp [weave]
  | cons c u =>
    have hpos := c.utf8Size_pos
    rw [weave_of_quiet_behind (List.cons_ne_nil c u) fun p hlt hle => h p hlt (Nat.le_of_lt hle),
      h _ (by rw [byteSize_cons]; omega) (Nat.le_refl _), List.append_nil]

end Text

/-! ### Blocks -/

namespace JoinTree

/-- How many operators a block has. -/
def joins : JoinTree → Nat
  | table _ => 0
  | join left _ _ _ _ _ => left.joins + 1

/-- A block nested to the left: one of two joins or more is the shorter block before its last operator, nested and in
parentheses, and the rest. -/
def nested : JoinTree → SqlText
  | table ts => spell ts
  | join left words j operand on condition =>
    if left.joins = 0 then spell (join left words j operand on condition).tokens
    else '(' :: (left.nested ++ ')' :: written (words ++ j :: (operand ++ on :: condition)))

/-- A block as it is rewritten: nested and, where there are more blocks, with a join made a table of its own. -/
def rewritten (isWrapped : Bool) (index : Nat) (b : JoinTree) : SqlText :=
  if isWrapped ∧ 0 < b.joins then
    "(select * from ".toList ++ b.nested ++ ") as alias".toList ++ Decimal.natText index
  else b.nested

/-- A block with a closing parenthesis behind every member before the last one. -/
def closed : JoinTree → SqlText
  | table ts => spell ts
  | join left words j operand on condition =>
    left.closed ++ ((if left.joins = 0 then [] else [')'])
      ++ written (words ++ j :: (operand ++ on :: condition)))

/-- The edits that close the members before the last one. -/
def closings (b : JoinTree) : List Edit :=
  b.links.dropLast.map fun link => Edit.insert (Token.stopOr 0 link.operand) [')']

variable {left b : JoinTree} {words operand condition : List Token} {j on : Token}

theorem length_links (b : JoinTree) : b.links.length = b.joins := by
  induction b with
  | table => rfl
  | join left words j operand on condition ih => rw [links, List.length_append, ih, joins, List.length_singleton]

theorem closed_of_joins_eq_zero (h : b.joins = 0) : b.closed = spell b.tokens := by
  cases b with
  | table => rfl
  | join => cases h

theorem tokens_join (left : JoinTree) (words : List Token) (j : Token) (operand : List Token) (on : Token)
    (condition : List Token) : (join left words j operand on condition).tokens
      = left.tokens ++ (words ++ j :: (operand ++ on :: condition)) :=
  rfl

/-- All opening parentheses stand in front. -/
theorem nested_eq {depth : Nat} (h : b.WellFormed depth) :
    b.nested = List.replicate (b.joins - 1) '(' ++ b.closed := by
  induction h with
  | table => rfl
  | @join left words operand condition j on shorter operator joins named starts parts holds ih =>
    by_cases hzero : left.joins = 0
    · rw [nested, if_pos hzero, closed, if_pos hzero, closed_of_joins_eq_zero hzero, JoinTree.joins, hzero,
        tokens_join, Token.spell_append shorter.tokens_ne_nil]
      rfl
    · obtain ⟨n, hn⟩ := Nat.exists_eq_succ_of_ne_zero hzero
      rw [nested, if_neg hzero, closed, if_neg hzero, ih, JoinTree.joins, hn]
      simp [List.replicate_succ]

/-- The last member before the last operator is closed where the shorter block ends. -/
theorem closings_join : (join left words j operand on condition).closings
    = left.closings ++ (if left.joins = 0 then [] else [Edit.insert (Token.stopOr 0 left.tokens) [')']]) := by
  rw [closings, links, List.dropLast_concat]
  cases left with
  | table => rfl
  | join l ws j' op on' cond =>
    have hne : op ++ on' :: cond ≠ [] := by simp
    have hstop : Token.stopOr 0 (op ++ on' :: cond) = Token.stopOr 0 (join l ws j' op on' cond).tokens := by
      obtain ⟨us, u, hu⟩ : ∃ us u, on' :: cond = us ++ [u] :=
        ⟨_, _, (List.dropLast_append_getLast (List.cons_ne_nil _ _)).symm⟩
      rw [tokens_join, hu]
      have hright : l.tokens ++ (ws ++ j' :: (op ++ (us ++ [u]))) = (l.tokens ++ ws ++ j' :: (op ++ us)) ++ [u] := by
        simp
      rw [hright, ← List.append_assoc, Token.stopOr_concat, Token.stopOr_concat]
    have hjoins : (join l ws j' op on' cond).joins ≠ 0 := Nat.succ_ne_zero _
    rw [if_neg hjoins, closings, links, List.map_append, List.dropLast_concat, List.map_singleton, hstop]

/-- Members before the last one end inside the block. -/
theorem lt_of_mem_closings {depth : Nat} (h : b.WellFormed depth) (hp : Placed o b.tokens)
    (htexts : ∀ t ∈ b.tokens, t.text ≠ []) :
    ∀ e ∈ b.closings, Token.startOr 0 b.tokens < e.span.start ∧ e.span.start < Token.stopOr 0 b.tokens := by
  induction h with
  | table => exact nofun
  | @join left words operand condition j on shorter operator joins named starts parts holds ih =>
    rw [tokens_join] at hp htexts
    obtain ⟨hstart, hlt, -, hlt', -⟩ := hp.extent_append shorter.tokens_ne_nil (by simp) htexts
    rw [closings_join, tokens_join, hstart, List.forall_mem_append]
    refine ⟨fun e he => ?_, fun e he => ?_⟩
    · have := ih (Token.placed_append_iff.1 hp).1 (List.forall_mem_append.1 htexts).1 e he
      omega
    · split at he
      · cases he
      · obtain rfl := List.mem_singleton.1 he
        exact ⟨hlt, hlt'⟩

/-- What closing the members before the last one makes of a block. -/
theorem weave_closings {depth : Nat} (h : b.WellFormed depth) (hp : Placed o b.tokens)
    (htexts : ∀ t ∈ b.tokens, t.text ≠ [])
    (hins : ∀ p, Token.startOr 0 b.tokens < p → p < Token.stopOr 0 b.tokens → ins p = insertedAt b.closings p) :
    weave ins (Token.startOr 0 b.tokens) (spell b.tokens) = ins (Token.startOr 0 b.tokens) ++ b.closed := by
  induction h with
  | @table ts part =>
    have hstop := (hp.extent part.1 0 0).2
    exact Text.weave_of_quiet_behind (Token.spell_ne_nil part.1 htexts) fun p hlt hle =>
      hins p hlt (by rw [hstop]; exact hle)
  | @join left words operand condition j on shorter operator joins named starts parts holds ih =>
    rw [closed]
    rw [tokens_join] at hp htexts hins ⊢
    have hne := shorter.tokens_ne_nil
    obtain ⟨hstart, hlt, hstop, hlt', hstop'⟩ := hp.extent_append hne (by simp) htexts
    have hpleft := (Token.placed_append_iff.1 hp).1
    obtain ⟨htleft, htrest⟩ := List.forall_mem_append.1 htexts
    have hleft := lt_of_mem_closings shorter hpleft htleft
    rw [hstart] at hins ⊢
    have hwritten := Token.written_ne_nil (by simp) htrest
    generalize words ++ j :: (operand ++ on :: condition) = rest at hins hlt' hstop' hwritten
    have hat : ∀ p, insertedAt (join left words j operand on condition).closings p = insertedAt left.closings p
        ++ if left.joins ≠ 0 ∧ Token.stopOr 0 left.tokens = p then [')'] else [] := by
      intro p
      rw [closings_join, Edit.insertedAt_append]
      congr 1
      by_cases hzero : left.joins = 0
      · simp [hzero]
      · simp [hzero, Edit.insertedAt_insert]
    -- Inside the shorter block its own members are closed, where it ends it is, and behind that nothing is.
    have hinside := ih hpleft htleft fun p hlt hle => by
      rw [hins p hlt (by omega), hat, if_neg (by omega), List.append_nil]
    have hend : ins (Token.stopOr 0 left.tokens) = if left.joins = 0 then [] else [')'] := by
      rw [hins _ hlt hlt', hat, Edit.insertedAt_eq_nil fun e he => Nat.ne_of_lt (hleft e he).2, List.nil_append]
      by_cases hzero : left.joins = 0
      · simp [hzero]
      · simp [hzero]
    have hbehind : weave ins (Token.stopOr 0 left.tokens) (written rest)
        = ins (Token.stopOr 0 left.tokens) ++ written rest := by
      refine Text.weave_of_quiet_behind hwritten fun p hlt hle => ?_
      rw [hins p (by omega) (by omega), hat, if_neg (by omega), List.append_nil]
      refine Edit.insertedAt_eq_nil fun e he => ?_
      have := (hleft e he).2
      omega
    rw [Token.spell_append hne, Text.weave_append, ← hstop, hinside, hbehind, hend, List.append_assoc]

/-- What stands before a block that is rewritten. -/
def opening (isWrapped : Bool) (b : JoinTree) : SqlText :=
  if b.joins = 0 then []
  else (if isWrapped then "(select * from ".toList else []) ++ List.replicate (b.joins - 1) '('

/-- What stands behind a block that is rewritten. -/
def ending (isWrapped : Bool) (index : Nat) (b : JoinTree) : SqlText :=
  if b.joins = 0 then []
  else if isWrapped then ") as alias".toList ++ Decimal.natText index else []

theorem rewritten_eq {depth : Nat} (h : b.WellFormed depth) (isWrapped : Bool) (index : Nat) :
    b.rewritten isWrapped index = b.opening isWrapped ++ (b.closed ++ b.ending isWrapped index) := by
  rw [rewritten, opening, ending, nested_eq h]
  by_cases hzero : b.joins = 0
  · simp [hzero]
  · cases isWrapped with
    | false => simp [hzero]
    | true => simp [hzero, Nat.pos_of_ne_zero hzero]

/-- Where the edits of a block insert what. -/
theorem insertedAt_blockEdits (isWrapped : Bool) (index : Nat) (b : JoinTree) (p : Nat) :
    insertedAt (JoinChain.blockEdits isWrapped index b.tokens b.chain) p
      = (if Token.startOr 0 b.tokens = p then b.opening isWrapped else []) ++ (insertedAt b.closings p
        ++ if Token.stopOr 0 b.tokens = p then b.ending isWrapped index else []) := by
  have hlength := length_links b
  have hlinks : b.chain.links = b.links := rfl
  by_cases hzero : b.joins = 0
  · have hnil : b.links = [] := List.eq_nil_of_length_eq_zero (hlength.trans hzero)
    simp [JoinChain.blockEdits, hlinks, hnil, opening, ending, hzero, closings]
  · have hne : b.links ≠ [] := fun hnil => hzero (by rw [← hlength, hnil]; rfl)
    have hmiddle : insertedAt (if b.links.length > 1 then Edit.insert (Token.startOr 0 b.tokens)
        (List.replicate (b.links.length - 1) '(') :: b.closings else []) p
          = (if Token.startOr 0 b.tokens = p then List.replicate (b.joins - 1) '(' else [])
            ++ insertedAt b.closings p := by
      rw [hlength]
      split
      · rw [Edit.insertedAt_cons]
        rfl
      · have hone : b.joins = 1 := by omega
        obtain ⟨z, hz⟩ := List.length_eq_one_iff.1 (hlength.trans hone)
        simp [hone, closings, hz]
    rw [JoinChain.blockEdits, hlinks, if_neg hne, Edit.insertedAt_append, Edit.insertedAt_append]
    change insertedAt _ p ++ insertedAt (if _ then _ :: b.closings else []) p ++ insertedAt _ p = _
    rw [hmiddle, opening, ending, if_neg hzero, if_neg hzero]
    generalize "(select * from ".toList = select
    generalize ") as alias".toList ++ Decimal.natText index = named
    cases isWrapped with
    | false => simp
    | true =>
      simp only [if_true, Edit.insertedAt_insert]
      by_cases hp : Token.startOr 0 b.tokens = p
      · simp only [if_pos hp, List.append_assoc]
      · simp only [if_neg hp, List.nil_append]

/-- **Blocks.**  What the edits of a block make of it. -/
theorem weave_blockEdits {depth : Nat} {isWrapped : Bool} (h : b.WellFormed depth) (hp : Placed o b.tokens)
    (htexts : ∀ t ∈ b.tokens, t.text ≠ [])
    (hins : ∀ p, Token.startOr 0 b.tokens ≤ p → p ≤ Token.stopOr 0 b.tokens →
      ins p = insertedAt (JoinChain.blockEdits isWrapped index b.tokens b.chain) p) :
    weave ins (Token.startOr 0 b.tokens) (spell b.tokens) ++ ins (Token.stopOr 0 b.tokens)
      = b.rewritten isWrapped index := by
  have hne := h.tokens_ne_nil
  obtain ⟨-, hstop⟩ := hp.extent hne 0 0
  have hpos := Token.byteSize_pos (Token.spell_ne_nil hne htexts)
  have hclosings := lt_of_mem_closings h hp htexts
  have hfirst : ins (Token.startOr 0 b.tokens) = b.opening isWrapped := by
    have hnone := Edit.insertedAt_eq_nil fun e he => Nat.ne_of_gt (hclosings e he).1
    rw [hins _ (Nat.le_refl _) (by omega), insertedAt_blockEdits, if_pos rfl, if_neg (by omega), hnone]
    simp
  have hlast : ins (Token.stopOr 0 b.tokens) = b.ending isWrapped index := by
    have hnone := Edit.insertedAt_eq_nil fun e he => Nat.ne_of_lt (hclosings e he).2
    rw [hins _ (by omega) (Nat.le_refl _), insertedAt_blockEdits, if_neg (by omega), if_pos rfl, hnone]
    simp
  have hinside : ∀ p, Token.startOr 0 b.tokens < p → p < Token.stopOr 0 b.tokens →
      ins p = insertedAt b.closings p := by
    intro p hlt hlt'
    rw [hins p (Nat.le_of_lt hlt) (Nat.le_of_lt hlt'), insertedAt_blockEdits, if_neg (by omega), if_neg (by omega),
      List.nil_append, List.append_nil]
  rw [weave_closings h hp htexts hinside, hfirst, hlast, rewritten_eq h, List.append_assoc]

theorem exists_of_mem_links (b : JoinTree) :
    ∀ l ∈ b.links, ∃ t ∈ b.tokens, Token.stopOr 0 l.operand = t.stop := by
  induction b with
  | table => exact nofun
  | join left words j operand on condition ih =>
    rw [links, tokens_join, List.forall_mem_append, List.forall_mem_singleton]
    refine ⟨fun l hl => ?_, ?_⟩
    · obtain ⟨t, ht, hstop⟩ := ih l hl
      exact ⟨t, List.mem_append_left _ ht, hstop⟩
    · obtain ⟨us, u, hu⟩ : ∃ us u, on :: condition = us ++ [u] :=
        ⟨_, _, (List.dropLast_append_getLast (List.cons_ne_nil _ _)).symm⟩
      refine ⟨u, by simp [hu], ?_⟩
      simp only [hu, ← List.append_assoc, Token.stopOr_concat]

/-- The edits of a block insert before and behind its tokens. -/
theorem exists_of_mem_blockEdits {isWrapped : Bool} {e : Edit} (hne : b.tokens ≠ [])
    (he : e ∈ JoinChain.blockEdits isWrapped index b.tokens b.chain) :
    ∃ t ∈ b.tokens, ∃ s, e = .insert t.start s ∨ e = .insert t.stop s := by
  cases JoinChain.inserted_of_mem_blockEdits he with
  | select | opening =>
    obtain ⟨t, ts, ht⟩ := List.exists_cons_of_ne_nil hne
    exact ⟨t, by rw [ht]; exact List.mem_cons_self, _, .inl (by rw [ht]; rfl)⟩
  | closing member =>
    obtain ⟨t, ht, hstop⟩ := exists_of_mem_links b _ member
    exact ⟨t, ht, _, .inr (by rw [hstop])⟩
  | named =>
    have hstop : Token.stopOr 0 b.tokens = (b.tokens.getLast hne).stop := by
      rw [Token.stopOr, List.getLast?_eq_some_getLast hne]
    exact ⟨b.tokens.getLast hne, List.getLast_mem hne, _, .inr (by rw [hstop])⟩

end JoinTree

/-! ### Clauses -/

namespace FromClause

open JoinTree (rewritten)

/-- Blocks and the commas between them, each block written anew by its number. -/
def textFrom (write : Nat → JoinTree → SqlText) (index : Nat) (b : JoinTree) : List (Token × JoinTree) → SqlText
  | [] => lead b.tokens ++ write index b
  | (comma, b') :: others =>
    lead b.tokens ++ (write index b ++ (comma.gap ++ (comma.text ++ textFrom write (index + 1) b' others)))

/-- The text of a clause with every block written anew by its number. -/
def textWith (write : Nat → JoinTree → SqlText) (c : FromClause) : SqlText :=
  textFrom write 0 c.first c.others

theorem textFrom_spell (index : Nat) (b : JoinTree) (others : List (Token × JoinTree)) :
    textFrom (fun _ b => spell b.tokens) index b others = written (⟨b, others⟩ : FromClause).tokens := by
  induction others generalizing index b with
  | nil => rw [textFrom, tokens_single, Token.written_eq]
  | cons p others ih =>
    obtain ⟨comma, b'⟩ := p
    rw [textFrom, ih, tokens_cons, Token.written_append, Token.written_cons, Token.written_eq b.tokens]
    simp

/-- Edits of blocks stand inside the blocks. -/
theorem exists_of_mem_editsFrom {isWrapped : Bool} {bs : List JoinTree} {e : Edit}
    (hbs : ∀ b ∈ bs, b.tokens ≠ []) (he : e ∈ editsFrom isWrapped index bs) :
    ∃ b ∈ bs, ∃ t ∈ b.tokens, ∃ s, e = .insert t.start s ∨ e = .insert t.stop s := by
  induction bs generalizing index with
  | nil => cases he
  | cons b bs ih =>
    obtain ⟨hb, hbs⟩ := List.forall_mem_cons.1 hbs
    rcases List.mem_append.1 he with he | he
    · exact ⟨b, List.mem_cons_self, JoinTree.exists_of_mem_blockEdits hb he⟩
    · obtain ⟨b', hb', hrest⟩ := ih hbs he
      exact ⟨b', List.mem_cons_of_mem _ hb', hrest⟩

variable {c : FromClause} {depth : Nat} {isWrapped : Bool}

theorem WellFormed.tokens_ne_nil_of_mem (h : c.WellFormed depth) : ∀ b ∈ c.blocks, b.tokens ≠ [] := by
  rw [blocks, List.forall_mem_cons, List.forall_mem_map]
  exact ⟨h.first.1.tokens_ne_nil, fun p hp => (h.others p hp).2.1.tokens_ne_nil⟩

theorem mem_tokens {b : JoinTree} (hb : b ∈ c.blocks) (ht : t ∈ b.tokens) : t ∈ c.tokens := by
  rw [tokens, List.mem_append, List.mem_flatMap]
  rcases List.mem_cons.1 hb with rfl | hb
  · exact .inl ht
  · obtain ⟨p, hp, rfl⟩ := List.mem_map.1 hb
    exact .inr ⟨p, hp, List.mem_cons_of_mem _ ht⟩

/-- The edits of a clause insert before and behind its tokens. -/
theorem WellFormed.exists_of_mem_edits (h : c.WellFormed depth) {e : Edit}
    (he : e ∈ editsFrom isWrapped index c.blocks) :
    ∃ t ∈ c.tokens, ∃ s, e = .insert t.start s ∨ e = .insert t.stop s := by
  obtain ⟨b, hb, t, ht, hrest⟩ := exists_of_mem_editsFrom h.tokens_ne_nil_of_mem he
  exact ⟨t, mem_tokens hb ht, hrest⟩

/-- Outside a stretch nothing is inserted before or behind its tokens. -/
theorem insertedAt_outside {es : List Edit} {p : Nat} (hp : Placed o ts)
    (hes : ∀ e ∈ es, ∃ t ∈ ts, ∃ s, e = .insert t.start s ∨ e = .insert t.stop s)
    (hout : p < Token.startOr 0 ts ∨ Token.stopOr 0 ts < p) : insertedAt es p = [] := by
  refine Edit.insertedAt_eq_nil fun e he => ?_
  obtain ⟨t, ht, s, rfl | rfl⟩ := hes e he
  · have := hp.within ht 0 0
    show t.start ≠ p
    omega
  · have := hp.within ht 0 0
    show t.stop ≠ p
    omega

/-- What the edits of a block make of it and of the gap before it. -/
theorem weave_written {b : JoinTree} (h : b.WellFormed depth) (hp : Placed o b.tokens)
    (htexts : ∀ t ∈ b.tokens, t.text ≠ [])
    (hins : ∀ p, o ≤ p → p ≤ o + byteSize (written b.tokens) →
      ins p = insertedAt (JoinChain.blockEdits isWrapped index b.tokens b.chain) p) :
    weave ins o (written b.tokens) ++ ins (o + byteSize (written b.tokens))
      = lead b.tokens ++ b.rewritten isWrapped index := by
  have hne := h.tokens_ne_nil
  obtain ⟨hstart, hstop⟩ := hp.extent hne 0 0
  rw [Token.written_eq, Text.byteSize_append, ← Nat.add_assoc, ← hstart, ← hstop] at hins ⊢
  have hlead : weave ins o (lead b.tokens) = lead b.tokens := by
    refine Text.weave_of_quiet fun p hle hlt => ?_
    rw [hins p hle (by omega)]
    exact insertedAt_outside hp (fun e he => JoinTree.exists_of_mem_blockEdits hne he) (.inl (by omega))
  rw [Text.weave_append, hlead, ← hstart, List.append_assoc,
    JoinTree.weave_blockEdits h hp htexts fun p hle hle' => hins p (by omega) hle']

/-- What the edits of a clause make of it, when its blocks are numbered from `index` on. -/
theorem WellFormed.weave_editsFrom (h : c.WellFormed depth) (hp : Placed o c.tokens)
    (htexts : ∀ t ∈ c.tokens, t.text ≠ [])
    (hins : ∀ p, o ≤ p → p ≤ o + byteSize (written c.tokens) →
      ins p = insertedAt (editsFrom isWrapped index c.blocks) p) :
    weave ins o (written c.tokens) ++ ins (o + byteSize (written c.tokens))
      = textFrom (rewritten isWrapped) index c.first c.others := by
  obtain ⟨b, others⟩ := c
  have hblock : b.WellFormed depth := h.first.1
  induction others generalizing b index o with
  | nil =>
    have hedits : editsFrom isWrapped index (⟨b, []⟩ : FromClause).blocks
        = JoinChain.blockEdits isWrapped index b.tokens b.chain := List.append_nil _
    rw [tokens_single] at hp htexts
    rw [tokens_single, hedits] at hins
    rw [tokens_single, weave_written hblock hp htexts hins]
    rfl
  | cons q others ih =>
    obtain ⟨comma, b'⟩ := q
    have hrest : (⟨b', others⟩ : FromClause).WellFormed depth :=
      ⟨(h.others _ List.mem_cons_self).2, fun p hp => h.others p (List.mem_cons_of_mem _ hp)⟩
    have hedits : editsFrom isWrapped index (⟨b, (comma, b') :: others⟩ : FromClause).blocks
        = JoinChain.blockEdits isWrapped index b.tokens b.chain
          ++ editsFrom isWrapped (index + 1) (⟨b', others⟩ : FromClause).blocks := rfl
    rw [hedits] at hins
    rw [tokens_cons] at hp htexts hins ⊢
    obtain ⟨htb, htrest⟩ := List.forall_mem_append.1 htexts
    obtain ⟨htcomma, htrest⟩ := List.forall_mem_cons.1 htrest
    obtain ⟨hpb, hcomma, hprest⟩ := Token.placed_append_iff.1 hp
    obtain ⟨hstart, hstop⟩ := hpb.extent hblock.tokens_ne_nil 0 0
    have hbedits : ∀ e ∈ JoinChain.blockEdits isWrapped index b.tokens b.chain,
        ∃ t ∈ b.tokens, ∃ s, e = .insert t.start s ∨ e = .insert t.stop s :=
      fun e he => JoinTree.exists_of_mem_blockEdits hblock.tokens_ne_nil he
    have hcommaStop : comma.stop = o + byteSize (written b.tokens) + byteSize (comma.gap ++ comma.text) := by
      rw [Text.byteSize_append, ← Nat.add_assoc, ← hcomma]
      rfl
    have hcommaPos := Token.byteSize_pos htcomma
    have hsize : o + byteSize (written (b.tokens ++ comma :: (⟨b', others⟩ : FromClause).tokens))
        = comma.stop + byteSize (written (⟨b', others⟩ : FromClause).tokens) := by
      simp only [Token.written_append, Token.written_cons, Text.byteSize_append] at hcommaStop ⊢
      omega
    have hplace : Token.stopOr 0 b.tokens = o + byteSize (written b.tokens) := by
      rw [hstop, hstart, Token.written_eq, Text.byteSize_append, Nat.add_assoc]
    have hseparator : 0 < byteSize (comma.gap ++ comma.text) := by
      rw [Text.byteSize_append]
      omega
    rw [hsize] at hins ⊢
    -- What is inserted up to the comma belongs to the first block, and behind the comma to the others.
    have hfirst : ∀ p, o ≤ p → p < comma.stop →
        ins p = insertedAt (JoinChain.blockEdits isWrapped index b.tokens b.chain) p := by
      intro p hle hlt
      have hnone : insertedAt (editsFrom isWrapped (index + 1) (⟨b', others⟩ : FromClause).blocks) p = [] := by
        refine Edit.insertedAt_eq_nil fun e he => ?_
        obtain ⟨t, ht, s, heq⟩ := hrest.exists_of_mem_edits he
        have := hprest.le_start t ht
        have hsize : t.stop = t.start + byteSize t.text := rfl
        rcases heq with rfl | rfl
        · show t.start ≠ p
          omega
        · show t.stop ≠ p
          omega
      rw [hins p hle (by omega), Edit.insertedAt_append, hnone, List.append_nil]
    have hothers : ∀ p, comma.stop ≤ p → p ≤ comma.stop + byteSize (written (⟨b', others⟩ : FromClause).tokens) →
        ins p = insertedAt (editsFrom isWrapped (index + 1) (⟨b', others⟩ : FromClause).blocks) p := by
      intro p hle hle'
      rw [hins p (by omega) hle', Edit.insertedAt_append, insertedAt_outside hpb hbedits (.inr (by omega)),
        List.nil_append]
    have hbetween : weave ins (o + byteSize (written b.tokens)) (comma.gap ++ comma.text)
        = ins (o + byteSize (written b.tokens)) ++ (comma.gap ++ comma.text) := by
      refine Text.weave_of_quiet_behind (by simp [htcomma]) fun p hlt hlt' => ?_
      rw [hfirst p (by omega) (by omega)]
      exact insertedAt_outside hpb hbedits (.inr (by omega))
    have hwritten := weave_written hblock hpb htb fun p hle hle' => hfirst p hle (by omega)
    have htext : written (b.tokens ++ comma :: (⟨b', others⟩ : FromClause).tokens)
        = written b.tokens ++ ((comma.gap ++ comma.text) ++ written (⟨b', others⟩ : FromClause).tokens) := by
      rw [Token.written_append, Token.written_cons, List.append_assoc]
    have htextFrom : textFrom (rewritten isWrapped) index b ((comma, b') :: others)
        = (lead b.tokens ++ b.rewritten isWrapped index) ++ ((comma.gap ++ comma.text)
          ++ textFrom (rewritten isWrapped) (index + 1) b' others) := by
      rw [textFrom]
      simp only [List.append_assoc]
    rw [htext, Text.weave_append, Text.weave_append, hbetween, ← hcommaStop, htextFrom, ← hwritten,
      ← ih b' hrest hprest htrest hothers hrest.first.1]
    simp only [List.append_assoc]

/-- Whether a text is a clause: its tokens are those of a well-formed clause, outside of all parentheses. -/
def IsOf (c : FromClause) (text : SqlText) : Prop :=
  ∃ q, Query.ofText text = .ok q ∧ q.tokens = c.tokens ∧ c.WellFormed 0

end FromClause

namespace Query.IsRead

variable {q : Query} {cells : List Cell}

theorem text_eq (h : q.IsRead cells) : q.text = written q.tokens ++ Cell.spell cells := by
  rw [← h.spell, Cell.spell_append, Token.spell_cells]
  rfl

theorem text_ne_nil (h : q.IsRead cells) : ∀ t ∈ q.tokens, t.text ≠ [] := by
  intro t ht
  obtain ⟨as, bs, hq⟩ := List.append_of_mem ht
  exact (h.fits hq).text_ne_nil

end Query.IsRead

/-! ### Whole texts -/

namespace JoinChain

open JoinTree (rewritten)

/-- A text that is a clause is nested, and its end stays. -/
theorem nestClause_of_isOf {c : FromClause} (h : c.IsOf text) :
    ∃ rest, text = c.textWith (fun _ b => spell b.tokens) ++ rest ∧
      nestClause text = .ok (c.textWith (rewritten c.isWrapped) ++ rest) := by
  obtain ⟨q, hq, htokens, hc⟩ := h
  obtain ⟨rfl, tail, hread⟩ := Query.isRead hq
  have htext := hread.text_eq
  have hplaced := hread.placed
  have htexts := hread.text_ne_nil
  have hedits : clauseEdits 0 q.stop q.tokens = .ok c.edits :=
    clauseEdits_eq_ok_iff.2 ⟨c, hc, htokens.symm, rfl⟩
  rw [htokens] at htext hplaced htexts
  refine ⟨Cell.spell tail, ?_, ?_⟩
  · rw [htext, FromClause.textWith, FromClause.textFrom_spell]
  have hinto : ∀ e ∈ c.edits, e.InsertsInto q.text := by
    intro e he
    obtain ⟨t, ht, s, rfl | rfl⟩ := hc.exists_of_mem_edits he
    · rw [htext]
      exact (hplaced.insertsInto ht _ s).1
    · rw [htext]
      exact (hplaced.insertsInto ht _ s).2
  -- Nothing is inserted behind the last token.
  have hquiet : ∀ p, byteSize (written c.tokens) < p → insertedAt c.edits p = [] := by
    intro p hlt
    refine FromClause.insertedAt_outside hplaced (fun e he => hc.exists_of_mem_edits he) (.inr ?_)
    have hne : c.tokens ≠ [] := List.append_ne_nil_of_left_ne_nil hc.first.1.tokens_ne_nil _
    rw [hplaced.stopOr_eq hne, Token.spell_cells, Nat.zero_add]
    exact hlt
  have hweave : weave (insertedAt c.edits) 0 (written c.tokens) ++ insertedAt c.edits (0 + byteSize (written c.tokens))
      = FromClause.textFrom (rewritten c.isWrapped) 0 c.first c.others :=
    hc.weave_editsFrom hplaced htexts fun p _ _ => rfl
  rw [Nat.zero_add] at hweave
  have hend : weave (insertedAt c.edits) (byteSize (written c.tokens)) (Cell.spell tail)
      ++ insertedAt c.edits (byteSize (written c.tokens) + byteSize (Cell.spell tail))
        = insertedAt c.edits (byteSize (written c.tokens)) ++ Cell.spell tail :=
    Text.weave_closed_of_quiet fun p hlt _ => hquiet p hlt
  have hall : Edit.insertAll c.edits q.text = c.textWith (rewritten c.isWrapped) ++ Cell.spell tail := by
    rw [Edit.insertAll, htext, Text.weave_append, Text.byteSize_append, Nat.zero_add, List.append_assoc, hend,
      ← List.append_assoc, FromClause.textWith, ← hweave]
  rw [nestClause, hq]
  change (clauseEdits 0 q.stop q.tokens >>= fun edits => Edit.applyAll edits q.text) = _
  rw [hedits]
  exact (Edit.applyAll_insertions hinto).trans (congrArg Except.ok hall)

theorem isOf_of_nestClause {g : SqlText} (h : nestClause text = .ok g) : ∃ c : FromClause, c.IsOf text := by
  rw [nestClause] at h
  obtain ⟨q, hq, h⟩ := Except.bind_eq_ok h
  obtain ⟨es, hes, -⟩ := Except.bind_eq_ok h
  obtain ⟨c, hc, htokens, -⟩ := clauseEdits_eq_ok_iff.1 hes
  exact ⟨c, q, hq, htokens.symm, hc⟩

theorem refuses_nestClause (text : SqlText) : Refuses SqlError.IsSyntax (nestClause text) := by
  intro e he
  have hsteps := he
  rw [nestClause] at hsteps
  refine (Query.refuses_ofText text).bind (fun q hq => ?_) e hsteps
  refine (refuses_clauseEdits 0 q.stop q.tokens).bind fun es hes => ?_
  obtain ⟨c, hc, htokens, rfl⟩ := clauseEdits_eq_ok_iff.1 hes
  obtain ⟨rest, -, hok⟩ := nestClause_of_isOf ⟨q, hq, htokens.symm, hc⟩
  rw [hok] at he
  cases he

/-- **Nesting.**  The joins of a text can be nested just if it lexes without a fault, its parentheses match and it is a
well-formed clause; otherwise its syntax is wrong.  Then every block of the clause is nested to the left, and made a
table of its own where there are several blocks, and all else stays. -/
theorem nestClause_grammar (text : SqlText) :
    ((∃ g, nestClause text = .ok g) ↔ (∀ l ∈ lex text, l.kind.isFault = false) ∧
        Balanced ((lex text).map Lexeme.kind) ∧ ∃ c : FromClause, c.IsOf text) ∧
      (∀ e, nestClause text = .error e → e.IsSyntax) ∧
      ∀ c : FromClause, c.IsOf text → ∃ rest, text = c.textWith (fun _ b => spell b.tokens) ++ rest ∧
        nestClause text = .ok (c.textWith (rewritten c.isWrapped) ++ rest) := by
  refine ⟨⟨?_, ?_⟩, refuses_nestClause text, fun c hc => nestClause_of_isOf hc⟩
  · rintro ⟨g, hg⟩
    obtain ⟨c, q, hq, hc⟩ := isOf_of_nestClause hg
    obtain ⟨hfault, hbalanced⟩ := (Query.ofText_isOk_iff text).1 ⟨q, hq⟩
    exact ⟨hfault, hbalanced, c, q, hq, hc⟩
  · rintro ⟨-, -, c, hc⟩
    obtain ⟨rest, -, hok⟩ := nestClause_of_isOf hc
    exact ⟨_, hok⟩

/-- A block with two joins beside a table. -/
theorem nestClause_grammar_beside_table :
    ∃ (c : FromClause) (rest : SqlText), c.IsOf "A join B on x = y left join C on z, D".toList ∧
      "A join B on x = y left join C on z, D".toList = c.textWith (fun _ b => spell b.tokens) ++ rest ∧
      nestClause "A join B on x = y left join C on z, D".toList = .ok (c.textWith (rewritten c.isWrapped) ++ rest) ∧
      c.textWith (rewritten c.isWrapped) ++ rest
        = "(select * from (A join B on x = y) left join C on z) as alias0, D".toList := by
  obtain ⟨haccepted, -, hnested⟩ := nestClause_grammar "A join B on x = y left join C on z, D".toList
  have hok : nestClause "A join B on x = y left join C on z, D".toList
      = .ok "(select * from (A join B on x = y) left join C on z) as alias0, D".toList := by decide +kernel
  obtain ⟨-, -, c, hc⟩ := haccepted.1 ⟨_, hok⟩
  obtain ⟨rest, htext, hrest⟩ := hnested c hc
  exact ⟨c, rest, hc, htext, hrest, Except.ok.inj (hrest.symm.trans hok)⟩

end JoinChain

end JetAdapter
