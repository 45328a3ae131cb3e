import JetAdapter.Proofs.Naming
import JetAdapter.Proofs.CallSwaps
import JetAdapter.Join.Nesting

/-!
# Insertions around joins

Nesting joins replaces nothing: parentheses, and texts that make a table of a block, are put before and behind
stretches.  Only an alias at the end of a block may run into the word behind it (`harmless`).
-/

namespace JetAdapter.JoinChain

open Cell (Sound Settles Replaces Soft Spares spell ofGap)
open Token (stretch)

variable {depth stop : Nat} {ts block : List Token} {links : List JoinLink} {e : Edit}
  {q : Query} {tail : List Cell}

/-! ### Layout of a chain -/

/-- Whether tokens are laid out as the further members of a chain, each with the words of the next operator
behind it. -/
inductive Linked : List Token → List JoinLink → Prop
  | last {join : Token} {operand : List Token} : Linked (join :: operand) [⟨join, operand⟩]
  | cons {join : Token} {operand words ts : List Token} {links : List JoinLink}
      (rest : Linked ts links) :
      Linked (join :: (operand ++ (words ++ ts))) (⟨join, operand⟩ :: links)

/-- What a block is cut into at its `JOIN`s. -/
theorem eq_of_cut (depth : Nat) (ts : List Token) :
    ts = (cut depth ts).1 ++ (cut depth ts).2.flatMap fun l => l.join :: l.operand := by
  induction ts with
  | nil => rfl
  | cons t ts ih =>
    rw [cut]
    simp only
    split
    · rw [List.nil_append, List.flatMap_cons, List.cons_append, ← ih]
    · rw [List.cons_append, ← ih]

theorem eq_of_dropOperator {part rest : List Token} (h : dropOperator part = .ok rest) :
    ∃ words, part = rest ++ words := by
  unfold dropOperator at h
  split at h
  · cases h
    exact ⟨[], (List.append_nil _).symm⟩
  · next last before hrev =>
    have hpart : part = before.reverse ++ [last] := List.reverse_eq_cons_iff.1 hrev
    split at h
    · cases h
    · cases h
    · cases h
      exact ⟨[last], hpart⟩
    · cases h
      exact ⟨[last], hpart⟩
    · cases h
      exact ⟨[last], hpart⟩
    · split at h
      · cases h
      · next side more =>
        split at h
        · cases h
        · cases h
        · cases h
          exact ⟨[side, last], by rw [hpart]; simp⟩
        · cases h
          exact ⟨[side, last], by rw [hpart]; simp⟩
        · cases h
    · cases h
      exact ⟨[], (List.append_nil _).symm⟩

theorem linked_of_dropOperators {link : JoinLink} {others : List JoinLink}
    (h : dropOperators link others = .ok links) :
    Linked ((link :: others).flatMap fun l => l.join :: l.operand) links := by
  induction others generalizing link links with
  | nil =>
    cases h
    simpa using Linked.last
  | cons next others ih =>
    rw [dropOperators] at h
    cases hoperand : dropOperator link.operand with
    | error fault =>
      rw [hoperand] at h
      cases h
    | ok operand =>
      cases hrest : dropOperators next others with
      | error fault =>
        rw [hoperand, hrest] at h
        cases h
      | ok links' =>
        rw [hoperand, hrest] at h
        cases h
        obtain ⟨words, hwords⟩ := eq_of_dropOperator hoperand
        rw [List.flatMap_cons, hwords, List.cons_append, List.append_assoc]
        exact .cons (ih hrest)

theorem forall_of_forM {f : JoinLink → Except SqlError Unit} {ls : List JoinLink}
    (h : ls.forM f = .ok ()) : ∀ l ∈ ls, f l = .ok () := by
  induction ls with
  | nil => exact fun l hl => nomatch hl
  | cons l ls ih =>
    change (f l >>= fun _ => ls.forM f) = _ at h
    cases hl : f l with
    | error fault =>
      rw [hl] at h
      cases h
    | ok _ =>
      rw [hl] at h
      exact List.forall_mem_cons.2 ⟨hl, ih h⟩

/-- A block is the head of its chain, or that and further members with all that is checked of them. -/
theorem linked_of_ofBlock {chain : JoinChain} (h : ofBlock depth block = .ok chain) :
    (chain = ⟨block, []⟩) ∨ ∃ words rest, block = chain.head ++ (words ++ rest) ∧ chain.head ≠ [] ∧
      Linked rest chain.links ∧ ∀ l ∈ chain.links, checkLink depth l = .ok () := by
  have hcut := eq_of_cut depth block
  unfold ofBlock at h
  split at h
  · next head hc =>
    cases h
    rw [hc] at hcut
    left
    rw [hcut]
    simp
  · next part first others hc =>
    rw [hc] at hcut
    right
    cases hhead : dropOperator part with
    | error fault =>
      rw [hhead] at h
      cases h
    | ok head =>
      rw [hhead] at h
      change (if _ then _ else _) = _ at h
      split at h
      · cases h
      next hne =>
      cases hlinks : dropOperators first others with
      | error fault =>
        rw [hlinks] at h
        cases h
      | ok links =>
        rw [hlinks] at h
        cases hcheck : links.forM (checkLink depth) with
        | error fault =>
          change (links.forM (checkLink depth) >>= fun _ => _) = _ at h
          rw [hcheck] at h
          cases h
        | ok _ =>
          change (links.forM (checkLink depth) >>= fun _ => _) = _ at h
          rw [hcheck] at h
          cases h
          obtain ⟨words, hwords⟩ := eq_of_dropOperator hhead
          refine ⟨words, _, ?_, hne, linked_of_dropOperators hlinks, ?_⟩
          · rw [← List.append_assoc, ← hwords]
            exact hcut
          · exact forall_of_forM hcheck

theorem operand_ne_nil {l : JoinLink} (h : checkLink depth l = .ok ()) : l.operand ≠ [] := by
  intro hn
  rw [checkLink, if_pos (.inl hn)] at h
  cases h

/-- The members of a chain are stretches of its block. -/
theorem Linked.infixes {rest : List Token} (h : Linked rest links) :
    ∀ l ∈ links, ∃ us vs, rest = us ++ (l.operand ++ vs) := by
  induction h with
  | @last join operand =>
    intro l hl
    obtain rfl := List.mem_singleton.1 hl
    exact ⟨[join], [], by simp⟩
  | @cons join operand words ts links rest ih =>
    intro l hl
    rcases List.mem_cons.1 hl with rfl | hl
    · exact ⟨[join], words ++ ts, rfl⟩
    · obtain ⟨us, vs, rfl⟩ := ih l hl
      exact ⟨join :: (operand ++ (words ++ us)), vs, by simp⟩

/-! ### The edits -/

/-- The edits of all blocks are those of each one. -/
theorem exists_of_mem_blocksEdits {wrapped : Bool} {index : Nat} {blocks : List Token.Piece}
    {es : List Edit} (h : blocksEdits depth wrapped index blocks = .ok es) (he : e ∈ es) :
    ∃ b ∈ blocks, b.tokens ≠ [] ∧ ∃ i chain, ofBlock depth b.tokens = .ok chain ∧
      e ∈ blockEdits wrapped i b.tokens chain := by
  induction blocks generalizing index es with
  | nil =>
    cases h
    cases he
  | cons b blocks ih =>
    rw [blocksEdits] at h
    split at h
    · cases h
    next hne =>
    cases hchain : ofBlock depth b.tokens with
    | error fault =>
      rw [hchain] at h
      cases h
    | ok chain =>
      cases hrest : blocksEdits depth wrapped (index + 1) blocks with
      | error fault =>
        rw [hchain, hrest] at h
        cases h
      | ok es' =>
        rw [hchain, hrest] at h
        cases h
        rcases List.mem_append.1 he with he | he
        · exact ⟨b, List.mem_cons_self, hne, index, chain, hchain, he⟩
        · obtain ⟨b', hb', hrest⟩ := ih hrest he
          exact ⟨b', List.mem_cons_of_mem _ hb', hrest⟩

/-- The edits of all scopes are those of the blocks of their `FROM` clauses. -/
theorem exists_of_mem_scopesEdits {scopes : List Scope} {es : List Edit}
    (h : scopesEdits scopes = .ok es) (he : e ∈ es) :
    ∃ s ∈ scopes, ∃ clause, s.clause? .tables = some clause ∧
      ∃ b ∈ Token.pieces s.depth clause.stop clause.body, b.tokens ≠ [] ∧
        ∃ wrapped i chain, ofBlock s.depth b.tokens = .ok chain ∧
          e ∈ blockEdits wrapped i b.tokens chain := by
  induction scopes generalizing es with
  | nil =>
    cases h
    cases he
  | cons s scopes ih =>
    rw [scopesEdits] at h
    cases hclause : s.clause? .tables with
    | none =>
      cases hrest : scopesEdits scopes with
      | error fault =>
        rw [hclause, hrest] at h
        cases h
      | ok es' =>
        rw [hclause, hrest] at h
        cases h
        obtain ⟨s', hs', hall⟩ := ih hrest he
        exact ⟨s', List.mem_cons_of_mem _ hs', hall⟩
    | some clause =>
      rw [hclause] at h
      simp only at h
      cases hedits : clauseEdits s.depth clause.stop clause.body with
      | error fault =>
        rw [hedits] at h
        cases h
      | ok es₁ =>
        cases hrest : scopesEdits scopes with
        | error fault =>
          rw [hedits, hrest] at h
          cases h
        | ok es' =>
          rw [hedits, hrest] at h
          cases h
          rcases List.mem_append.1 he with he | he
          · obtain ⟨b, hb, hne, i, chain, hchain⟩ := exists_of_mem_blocksEdits hedits he
            exact ⟨s, List.mem_cons_self, clause, hclause, b, hb, hne, _, i, chain, hchain⟩
          · obtain ⟨s', hs', hall⟩ := ih hrest he
            exact ⟨s', List.mem_cons_of_mem _ hs', hall⟩

/-- What edits of a block insert, and where: at its start, at its end or at the end of a member before the
last one. -/
inductive Inserted (block : List Token) (chain : JoinChain) (index : Nat) : Edit → Prop
  | select : Inserted block chain index (.insert (Token.startOr 0 block) "(select * from ".toList)
  | opening (n : Nat) :
      Inserted block chain index (.insert (Token.startOr 0 block) (List.replicate n '('))
  | closing {l : JoinLink} (member : l ∈ chain.links) :
      Inserted block chain index (.insert (Token.stopOr 0 l.operand) [')'])
  | named : Inserted block chain index
      (.insert (Token.stopOr 0 block) (") as alias".toList ++ Decimal.natText index))

theorem inserted_of_mem_blockEdits {wrapped : Bool} {index : Nat} {chain : JoinChain}
    (h : e ∈ blockEdits wrapped index block chain) : Inserted block chain index e := by
  unfold blockEdits at h
  simp only at h
  split at h
  · cases h
  · rcases List.mem_append.1 h with h | h
    · rcases List.mem_append.1 h with h | h
      · split at h
        · obtain rfl := List.mem_singleton.1 h
          exact .select
        · cases h
      · split at h
        · rcases List.mem_cons.1 h with rfl | h
          · exact .opening _
          · obtain ⟨l, hl, rfl⟩ := List.mem_map.1 h
            exact .closing (List.dropLast_subset _ hl)
        · cases h
    · split at h
      · obtain rfl := List.mem_singleton.1 h
        exact .named
      · cases h

/-! ### Insertions of cells -/

/-- The cells before a block that becomes a table. -/
def selectCells : List Cell :=
  [Cell.sign '(', Cell.word "select".toList, Cell.space, .token (.symbol .star) ['*'], Cell.space,
    Cell.word "from".toList, Cell.space]

/-- The name of a table that is made of a block. -/
def aliasName (index : Nat) : SqlText :=
  "alias".toList ++ Decimal.natText index

/-- The cells behind a block that becomes a table. -/
def aliasCells (index : Nat) : List Cell :=
  [Cell.sign ')', Cell.space, Cell.word "as".toList, Cell.space, Cell.word (aliasName index)]

/-- What is inserted before a token, or behind one. -/
inductive Swapped : List Cell → List Cell → List Cell → List Cell → Prop
  | select {X Y : List Cell} {t : Token} : Swapped X [] (t.cell :: Y) selectCells
  | opening {X Y : List Cell} {t : Token} (n : Nat) :
      Swapped X [] (t.cell :: Y) (List.replicate n (Cell.sign '('))
  | closing {X Y : List Cell} (behind : X.getLast?.any Cell.isGap = false) :
      Swapped X [] Y [Cell.sign ')']
  | named {X Y : List Cell} (index : Nat) (behind : X.getLast?.any Cell.isGap = false)
      (soft : Soft Y) : Swapped X [] Y (aliasCells index)

theorem spell_replicate_sign (n : Nat) :
    spell (List.replicate n (Cell.sign '(')) = List.replicate n '(' := by
  induction n with
  | zero => rfl
  | succ n ih =>
    rw [List.replicate_succ, List.replicate_succ, Cell.spell_cons, ih]
    rfl

theorem isWord_aliasName (index : Nat) : Cell.IsWord (aliasName index) := by
  refine (Cell.isWord_of_isAlpha (t := "alias".toList) (by decide) (by decide)).append fun c hc => ?_
  exact Text.continuesWord_of_isDigit (Decimal.isDigit_of_mem_natText c hc)

theorem settles_selectCells {p : Cell → Bool} {os ss : List Cell} (h : Settles p os ss) :
    ∃ ss', Settles p (selectCells ++ os) (Cell.sign '(' :: ss') := by
  obtain ⟨ss₁, h₁, hs₁⟩ := h.blank
  have hfrom := (Cell.Writable.word (Cell.isWord_of_isAlpha (t := "from".toList) (by decide) (by decide))
    (by decide)).settles h₁ hs₁
  have hstar : Cell.Writable [.token (.symbol .star) ['*']] :=
    .of_fits ⟨rfl, '*', [], rfl, rfl⟩ rfl
  have hspace := hstar.settles (hfrom.space rfl) (Cell.stops_space _)
  have hselect := (Cell.Writable.word (Cell.isWord_of_isAlpha (t := "select".toList) (by decide)
    (by decide)) (by decide)).settles (hspace.space rfl) (Cell.stops_space _)
  exact ⟨_, hselect.sign (.inl rfl)⟩

theorem settles_aliasCells {p : Cell → Bool} (hp : Spares p) {os ss : List Cell} (h : Settles p os ss)
    (soft : Soft ss) (index : Nat) :
    ∃ ss', Settles p (aliasCells index ++ os) (Cell.sign ')' :: ss') := by
  have hword := isWord_aliasName index
  have hfit : (Cell.word (aliasName index)).Fits [] := (Cell.Wordy.word hword).fits rfl rfl
  obtain ⟨ss₁, hj⟩ := soft.joined h.sound hfit (Cell.Wordy.word hword).isFault
  have h₁ := hj.settles hp (fun k u hw hm => hp.word k u hw (by
    rw [hm, Lexeme.wordKind_isMarker])) h
  have hhead : ss₁.head?.any Cell.isGap = false := by
    generalize hk : Lexeme.wordKind (aliasName index) = k at hj
    cases hj with
    | apart fits => rfl
    | meld front back both marker fits => rfl
  have has := (Cell.Writable.word (Cell.isWord_of_isAlpha (t := "as".toList) (by decide) (by decide))
    (by decide)).settles (h₁.space hhead) (Cell.stops_space _)
  exact ⟨_, (has.space rfl).sign (.inr (.inl rfl))⟩

theorem harmless {p : Cell → Bool} (hp : Spares p) : Woven.Harmless p Swapped where
  settles := by
    rintro X D Y N os ss hsw hs hf h hr
    cases hsw with
    | select =>
      obtain ⟨ss', h'⟩ := settles_selectCells h
      exact ⟨_, h', .of_stops (Cell.stops_sign (.inl rfl) ss')⟩
    | opening n =>
      induction n with
      | zero => exact ⟨ss, h, hr⟩
      | succ n ih =>
        obtain ⟨ss', h', -⟩ := ih
        exact ⟨_, h'.sign (.inl rfl), .of_stops (Cell.stops_sign (.inl rfl) ss')⟩
    | closing behind =>
      exact ⟨_, h.sign (.inr (.inl rfl)), .of_stops (Cell.stops_sign (.inr (.inl rfl)) ss)⟩
    | named index behind soft =>
      obtain ⟨ss', h'⟩ := settles_aliasCells hp h (soft.of_replaces hr) index
      exact ⟨_, h', .of_stops (Cell.stops_sign (.inr (.inl rfl)) ss')⟩
  ends := by
    rintro X D Y N hsw hn
    cases hsw with
    | select => cases hn
    | opening n => cases hn
    | closing behind => exact behind
    | named index behind soft => exact behind

theorem Swapped.plain {X D Y N : List Cell} (h : Swapped X D Y N) :
    (∀ c ∈ N, Cell.Plain c) ∧ D = [] := by
  have hspace := Cell.plain_gap [' ']
  have hword : ∀ {w : SqlText}, w ≠ [] → w.all Char.isAlpha = true → Cell.Plain (Cell.word w) :=
    fun hne hw => Cell.plain_word (Cell.isWord_of_isAlpha hne hw)
  cases h with
  | select =>
    refine ⟨?_, rfl⟩
    simp only [selectCells, List.forall_mem_cons]
    exact ⟨Cell.plain_sign (.inl rfl), hword (by decide) (by decide), hspace,
      fun p hp => hp.symbol _ _, hspace, hword (by decide) (by decide), hspace, nofun⟩
  | opening n =>
    refine ⟨fun c hc => ?_, rfl⟩
    rw [List.eq_of_mem_replicate hc]
    exact Cell.plain_sign (.inl rfl)
  | closing behind =>
    refine ⟨fun c hc => ?_, rfl⟩
    rw [List.mem_singleton.1 hc]
    exact Cell.plain_sign (.inr (.inl rfl))
  | named index behind soft =>
    refine ⟨?_, rfl⟩
    simp only [aliasCells, List.forall_mem_cons]
    exact ⟨Cell.plain_sign (.inr (.inl rfl)), hspace, hword (by decide) (by decide), hspace,
      Cell.plain_word (isWord_aliasName index), nofun⟩

/-- A block of a `FROM` clause is a stretch, before a comma or the end of the clause. -/
theorem exists_append_of_block {s : Scope} {clause : Clause} {b : Token.Piece} (h : q.IsRead tail)
    (hs : s ∈ q.scopes) (hclause : s.clause? .tables = some clause)
    (hb : b ∈ Token.pieces s.depth clause.stop clause.body) :
    ∃ as bs, q.tokens = as ++ (b.tokens ++ bs) ∧
      ∀ u ∈ bs.head?, u.EndsItem := by
  have hmem : clause ∈ s.clauses := by
    simpa using List.mem_of_find?_eq_some hclause
  obtain ⟨as, bs, hq, -, hbs⟩ := h.clause hs hmem
  obtain ⟨us, vs, hbody, -, hvs⟩ := Token.mem_pieces hb
  refine ⟨as ++ clause.words ++ us, vs ++ bs, by rw [hq, hbody]; simp, fun u hu => ?_⟩
  rcases hvs with rfl | ⟨c, vs', rfl, hc⟩
  · exact .inl (hbs u hu)
  · obtain rfl : c = u := by simpa using hu
    exact .inr (.inl (Token.isSymbol_of_isSymbolAt hc))

theorem isSwap {es : List Edit} (h : q.IsRead tail) (hes : scopesEdits q.scopes = .ok es)
    (he : e ∈ es) : e.IsSwap Swapped (fun _ => false) (Token.cells q.tokens ++ tail) := by
  obtain ⟨s, hs, clause, hclause, b, hb, hne, wrapped, i, chain, hchain, he⟩ :=
    exists_of_mem_scopesEdits hes he
  obtain ⟨as, bs, hq, hbs⟩ := exists_append_of_block h hs hclause hb
  generalize b.tokens = block at hq hne hchain he
  obtain ⟨t, ts, rfl⟩ := List.exists_cons_of_ne_nil hne
  obtain ⟨hcells, hstart, hstop⟩ := h.split hq
  cases inserted_of_mem_blockEdits he with
  | select =>
    refine .of_eq (D := []) .select hcells hstart ?_ (by simp [Edit.insert, selectCells])
    rwa [List.append_nil]
  | opening n =>
    refine .of_eq (D := []) (.opening n) hcells hstart ?_ ?_
    · rwa [List.append_nil]
    · exact (spell_replicate_sign n).symm
  | @closing l member =>
    rcases linked_of_ofBlock hchain with rfl | ⟨words, rest, hblock, -, hlinked, hcheck⟩
    · cases member
    obtain ⟨us, vs, rfl⟩ := hlinked.infixes l member
    obtain ⟨u, us', hoperand⟩ := List.exists_cons_of_ne_nil (operand_ne_nil (hcheck l member))
    obtain ⟨hcells', -, hstop'⟩ := h.split
      (show q.tokens = (as ++ chain.head ++ words ++ us) ++ (u :: us' ++ (vs ++ bs)) by
        rw [hq, hblock, hoperand]
        simp)
    rw [← List.append_assoc] at hcells'
    refine .of_eq (D := []) (.closing ?_) hcells' ?_ ?_ rfl
    · exact Token.isGap_getLast?_append_stretch _ _ _
    · rw [hoperand]
      exact hstop' 0
    · rw [hoperand, List.append_nil]
      exact hstop' 0
  | named =>
    rw [← List.append_assoc] at hcells
    refine .of_eq (D := []) (.named i ?_ ?_) hcells (hstop 0) ?_ (by simp [Edit.insert, aliasCells, aliasName])
    · exact Token.isGap_getLast?_append_stretch _ _ _
    · exact h.soft (show q.tokens = (as ++ t :: ts) ++ bs by rw [hq]; simp) hbs
    · rw [List.append_nil]
      exact hstop 0

theorem makes {text out : SqlText} (h : nestAll text = .ok out) : Swap.Makes Swapped text out := by
  obtain ⟨q, hq, h⟩ := Except.bind_eq_ok h
  split at h
  · cases h
    exact ⟨Cell.ofText text, .refl _ _, (Cell.spell_ofText text).symm⟩
  · obtain ⟨es, hes, h⟩ := Except.bind_eq_ok h
    exact Query.makes hq (fun _ => false) (fun tail hread e he => isSwap hread hes he) h

end JetAdapter.JoinChain
