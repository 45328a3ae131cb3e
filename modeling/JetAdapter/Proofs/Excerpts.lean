import JetAdapter.Proofs.JoinNesting
import JetAdapter.Proofs.Outlines
import JetAdapter.Proofs.TwinJoins

/-!
# Excerpts

The text of a level stretch is a query by itself: it has the same tokens, by as many places and parentheses less as
stand before the stretch (`Query.IsRead.ofText_spell`).  Nothing is found in another way there, so the text of a
`FROM` clause is nested by itself just if the clause has edits, and what comes out is what these edits make of the
stretch where it stands (`JoinChain.nestClause_spell`).
-/

namespace JetAdapter

open Token (Level Run Placed)

variable {n depth stop : Nat} {ts : List Token} {t : Token}

/-! ### More parentheses around -/

/-- A token with so many more parentheses open around it. -/
def Token.raised (n : Nat) (t : Token) : Token :=
  { t with depth := t.depth + n }

namespace Token

@[simp] theorem raised_kind (t : Token) : (t.raised n).kind = t.kind := rfl

theorem isKeywordAt_raised (k : Keyword) (t : Token) :
    (t.raised n).isKeywordAt (depth + n) k = t.isKeywordAt depth k := by
  rw [Bool.eq_iff_iff]
  simp [isKeywordAt, raised, isKeyword]

theorem isSymbolAt_raised (s : Symbol) (t : Token) :
    (t.raised n).isSymbolAt (depth + n) s = t.isSymbolAt depth s := by
  rw [Bool.eq_iff_iff]
  simp [isSymbolAt, raised, isSymbol]

theorem splitFirst_raised {p p' : Token → Bool} (hp : ∀ t, p' (t.raised n) = p t) (ts : List Token) :
    splitFirst p' (ts.map (raised n))
      = (splitFirst p ts).map fun (as, t, bs) => (as.map (raised n), t.raised n, bs.map (raised n)) := by
  induction ts with
  | nil => rfl
  | cons t ts ih =>
    rw [List.map_cons, splitFirst, splitFirst, hp, ih]
    split
    · rfl
    · cases splitFirst p ts with
      | none => rfl
      | some s => rfl

/-- A piece with so many more parentheses open around it. -/
def Piece.raised (n : Nat) (p : Piece) : Piece :=
  ⟨p.tokens.map (Token.raised n), p.stop⟩

theorem pieces_raised (depth stop : Nat) (ts : List Token) :
    pieces (depth + n) stop (ts.map (raised n)) = (pieces depth stop ts).map (Piece.raised n) := by
  induction ts with
  | nil => rfl
  | cons t ts ih =>
    rw [List.map_cons, pieces, pieces, ih, isSymbolAt_raised]
    split
    · rfl
    · cases pieces depth stop ts with
      | nil => rfl
      | cons p ps => rfl

theorem startOr_raised (s : Nat) (ts : List Token) : startOr s (ts.map (raised n)) = startOr s ts := by
  cases ts with
  | nil => rfl
  | cons t ts => rfl

theorem stopOr_raised (s : Nat) (ts : List Token) : stopOr s (ts.map (raised n)) = stopOr s ts := by
  rw [stopOr, stopOr, List.getLast?_map]
  cases ts.getLast? with
  | none => rfl
  | some t => rfl

end Token

/-- A member of a chain with so many more parentheses open around it. -/
def JoinLink.raised (n : Nat) (link : JoinLink) : JoinLink :=
  ⟨link.join.raised n, link.operand.map (Token.raised n)⟩

namespace JoinChain

/-- A chain with so many more parentheses open around it. -/
def raised (n : Nat) (chain : JoinChain) : JoinChain :=
  ⟨chain.head.map (Token.raised n), chain.links.map (JoinLink.raised n)⟩

theorem cut_raised (depth : Nat) (ts : List Token) : cut (depth + n) (ts.map (Token.raised n))
    = ((cut depth ts).1.map (Token.raised n), (cut depth ts).2.map (JoinLink.raised n)) := by
  induction ts with
  | nil => rfl
  | cons t ts ih =>
    rw [List.map_cons, cut, cut, ih, Token.isKeywordAt_raised]
    simp only
    split
    · rfl
    · rfl

theorem dropOperator_raised (part : List Token) :
    dropOperator (part.map (Token.raised n)) = (dropOperator part).map (List.map (Token.raised n)) := by
  unfold dropOperator
  rw [← List.map_reverse]
  cases part.reverse with
  | nil => rfl
  | cons last before =>
    simp only [List.map_cons, Token.raised_kind]
    split
    · rfl
    · rfl
    · exact congrArg Except.ok (List.map_reverse ..).symm
    · exact congrArg Except.ok (List.map_reverse ..).symm
    · exact congrArg Except.ok (List.map_reverse ..).symm
    · cases before with
      | nil => rfl
      | cons side more =>
        simp only [List.map_cons, Token.raised_kind]
        split
        · rfl
        · rfl
        · exact congrArg Except.ok (List.map_reverse ..).symm
        · exact congrArg Except.ok (List.map_reverse ..).symm
        · rfl
    · rfl

theorem dropOperators_raised (link : JoinLink) (others : List JoinLink) :
    dropOperators (link.raised n) (others.map (JoinLink.raised n))
      = (dropOperators link others).map (List.map (JoinLink.raised n)) := by
  induction others generalizing link with
  | nil => rfl
  | cons next others ih =>
    rw [List.map_cons, dropOperators, dropOperators, ih]
    change (dropOperator (link.operand.map (Token.raised n)) >>= _) = _
    rw [dropOperator_raised]
    cases dropOperator link.operand with
    | error e => rfl
    | ok operand =>
      cases dropOperators next others with
      | error e => rfl
      | ok links => rfl

theorem checkLink_raised (depth : Nat) (link : JoinLink) :
    checkLink (depth + n) (link.raised n) = checkLink depth link := by
  have hhead : (link.operand.map (Token.raised n)).head?.any (fun t => t.isKeyword .ON)
      = link.operand.head?.any fun t => t.isKeyword .ON := by
    cases link.operand with
    | nil => rfl
    | cons t ts => rfl
  unfold checkLink JoinLink.raised
  simp only [List.map_eq_nil_iff, hhead]
  rw [Token.splitFirst_raised (Token.isKeywordAt_raised .ON)]
  split
  · rfl
  · cases Token.splitFirst (Token.isKeywordAt depth .ON) link.operand with
    | none => rfl
    | some found =>
      obtain ⟨table, on, condition⟩ := found
      cases condition with
      | nil => rfl
      | cons t ts => rfl

theorem ofBlock_raised (depth : Nat) (block : List Token) :
    ofBlock (depth + n) (block.map (Token.raised n)) = (ofBlock depth block).map (raised n) := by
  unfold ofBlock
  rw [cut_raised]
  generalize cut depth block = parts
  obtain ⟨part, links⟩ := parts
  cases links with
  | nil => rfl
  | cons first others =>
    simp only [List.map_cons]
    rw [dropOperator_raised, dropOperators_raised]
    cases dropOperator part with
    | error e => rfl
    | ok head =>
      change (if head.map (Token.raised n) = [] then _ else _) = Except.map _ (if head = [] then _ else _)
      simp only [List.map_eq_nil_iff]
      split
      · rfl
      · cases dropOperators first others with
        | error e => rfl
        | ok links =>
          have hchecks : (links.map (JoinLink.raised n)).forM (checkLink (depth + n))
              = links.forM (checkLink depth) := by
            induction links with
            | nil => rfl
            | cons l ls ih =>
              change (checkLink _ (l.raised n) >>= fun _ => _) = (checkLink depth l >>= fun _ => _)
              rw [checkLink_raised, ih]
          change ((links.map (JoinLink.raised n)).forM (checkLink (depth + n)) >>= fun _ => _)
            = Except.map _ (links.forM (checkLink depth) >>= fun _ => _)
          rw [hchecks]
          cases links.forM (checkLink depth) with
          | error e => rfl
          | ok _ => rfl

theorem blockEdits_raised (wrapped : Bool) (index : Nat) (block : List Token) (chain : JoinChain) :
    blockEdits wrapped index (block.map (Token.raised n)) (chain.raised n) = blockEdits wrapped index block chain := by
  have hclosings : (chain.links.map (JoinLink.raised n)).dropLast.map
        (fun link => Edit.insert (Token.stopOr 0 link.operand) [')'])
      = chain.links.dropLast.map fun link => Edit.insert (Token.stopOr 0 link.operand) [')'] := by
    rw [← List.map_dropLast, List.map_map]
    refine List.map_congr_left fun l _ => ?_
    show Edit.insert (Token.stopOr 0 (l.operand.map (Token.raised n))) _ = _
    rw [Token.stopOr_raised]
  unfold blockEdits raised
  simp only [List.map_eq_nil_iff, List.length_map, Token.startOr_raised, Token.stopOr_raised, hclosings]

theorem blocksEdits_raised (depth : Nat) (wrapped : Bool) (index : Nat) (blocks : List Token.Piece) :
    blocksEdits (depth + n) wrapped index (blocks.map (Token.Piece.raised n))
      = blocksEdits depth wrapped index blocks := by
  induction blocks generalizing index with
  | nil => rfl
  | cons b blocks ih =>
    rw [List.map_cons, blocksEdits, blocksEdits]
    simp only [Token.Piece.raised, List.map_eq_nil_iff, ih, ofBlock_raised]
    split
    · rfl
    cases ofBlock depth b.tokens with
    | error e => rfl
    | ok chain =>
      change (blocksEdits depth wrapped (index + 1) blocks >>= fun es => Except.ok (_ ++ es)) = _
      rw [blockEdits_raised]
      rfl

/-- Parentheses around a clause do not matter for its joins. -/
theorem clauseEdits_raised (depth stop : Nat) (clause : List Token) :
    clauseEdits (depth + n) stop (clause.map (Token.raised n)) = clauseEdits depth stop clause := by
  unfold clauseEdits
  simp only [Token.pieces_raised, List.length_map]
  exact blocksEdits_raised _ _ _ _

end JoinChain

/-! ### Reading tokens -/

namespace Query

open Token (written cells stretch)
open Lexeme (placedFrom)
open Cell (Sound)

variable {d e o : Nat} {ls : List Lexeme} {cs : List Cell} {q : Query} {tail : List Cell}

/-- Tokens with the depths of matching parentheses are read as they are, whatever stands behind them. -/
theorem nest_append (h : Run d ts e) (hp : Placed o ts) (hplain : ∀ t ∈ ts, t.kind.isFault = false ∧ t.kind ≠ .eof) :
    nest d (placedFrom o (ts.map (·.toLexeme) ++ ls))
      = (nest e (placedFrom (o + Text.byteSize (written ts)) ls)).map (ts ++ ·) := by
  -- Whatever the token is, what is read behind it follows it.
  have hstep : ∀ {d e d' o : Nat} {t : Token} {ts : List Token}, Placed o (t :: ts) → t.depth = d' →
      nest d (placedFrom t.stop (ts.map (·.toLexeme) ++ ls))
        = (nest e (placedFrom (t.stop + Text.byteSize (written ts)) ls)).map (ts ++ ·) →
      (nest d (placedFrom (o + Text.byteSize t.gap + Text.byteSize t.text) (ts.map (·.toLexeme) ++ ls))).map
          ((⟨⟨t.toLexeme, o + Text.byteSize t.gap⟩, d'⟩ : Token) :: ·)
        = (nest e (placedFrom (o + Text.byteSize (written (t :: ts))) ls)).map (t :: ts ++ ·) := by
    intro d e d' o t ts hp hd h
    have hstop : t.stop = o + Text.byteSize t.gap + Text.byteSize t.text := by
      rw [PlacedLexeme.stop, hp.1]
    have hsize : o + Text.byteSize (written (t :: ts)) = t.stop + Text.byteSize (written ts) := by
      rw [hstop, Token.written_cons, Text.byteSize_append, Text.byteSize_append]
      omega
    rw [← hstop, h, hsize, ← hp.1, ← hd]
    cases nest e (placedFrom (t.stop + Text.byteSize (written ts)) ls) with
    | error _ => rfl
    | ok us => rfl
  induction h generalizing o with
  | @nil d =>
    rw [List.map_nil, List.nil_append]
    show _ = (nest d (placedFrom (o + 0) ls)).map _
    cases nest d (placedFrom o ls) with
    | error e => rfl
    | ok us => rfl
  | @opening d e t ts paren depth rest ih =>
    obtain ⟨⟨-, -⟩, hplain⟩ := List.forall_mem_cons.1 hplain
    have hk := Kind.isSymbol_iff.1 paren
    rw [List.map_cons, List.cons_append, placedFrom, nest.eq_def]
    simp only [hk]
    exact hstep hp depth (ih hp.2 hplain)
  | @closing d e t ts paren depth rest ih =>
    obtain ⟨⟨-, -⟩, hplain⟩ := List.forall_mem_cons.1 hplain
    have hk := Kind.isSymbol_iff.1 paren
    rw [List.map_cons, List.cons_append, placedFrom, nest.eq_def]
    simp only [hk]
    exact hstep hp depth (ih hp.2 hplain)
  | @plain d e t ts left right depth rest ih =>
    obtain ⟨⟨hfault, heof⟩, hplain⟩ := List.forall_mem_cons.1 hplain
    rw [List.map_cons, List.cons_append, placedFrom, nest.eq_def]
    simp only
    split
    · next hk =>
      rw [hk] at hfault
      cases hfault
    · next hk => exact absurd hk heof
    · next hk => simp [Token.isSymbol, Kind.isSymbol, hk] at left
    · next hk => simp [Token.isSymbol, Kind.isSymbol, hk] at right
    · exact hstep hp depth (ih hp.2 hplain)

theorem nest_append_eq_ok_iff {us : List Token} (h : Run d ts e) (hp : Placed o ts)
    (hplain : ∀ t ∈ ts, t.kind.isFault = false ∧ t.kind ≠ .eof) :
    nest d (placedFrom o (ts.map (·.toLexeme) ++ ls)) = .ok (ts ++ us)
      ↔ nest e (placedFrom (o + Text.byteSize (written ts)) ls) = .ok us := by
  rw [nest_append h hp hplain]
  cases nest e (placedFrom (o + Text.byteSize (written ts)) ls) with
  | error _ => exact ⟨nofun, nofun⟩
  | ok vs =>
    refine ⟨fun h => ?_, fun h => congrArg (Except.map (ts ++ ·)) h⟩
    rw [List.append_cancel_left (Except.ok.inj h)]

theorem lexemes_cells (ts : List Token) (cs : List Cell) :
    Cell.lexemes [] (cells ts ++ cs) = ts.map (·.toLexeme) ++ Cell.lexemes [] cs := by
  induction ts with
  | nil => rfl
  | cons t ts ih =>
    rw [Token.cells_cons, List.append_assoc, Cell.lexemes_ofGap_append, List.nil_append, List.cons_append, Token.cell,
      Cell.lexemes, ih]
    rfl

namespace IsRead

/-- The lexemes of a query are its tokens and the end. -/
theorem lex_eq (h : q.IsRead tail) :
    lex q.text = q.tokens.map (·.toLexeme) ++ [⟨.eof, Cell.spell tail, []⟩] := by
  have hspell := h.sound.lex_spell
  rw [← h.cells, Cell.spell_ofText, h.cells, lexemes_cells] at hspell
  rw [hspell]
  rcases h.tail with rfl | ⟨g, rfl⟩
  · rfl
  · simp [Cell.lexemes]

theorem kind_ne_eof (h : q.IsRead tail) : ∀ t ∈ q.tokens, t.kind ≠ .eof := by
  intro t ht
  obtain ⟨as, bs, hq⟩ := List.append_of_mem ht
  have hfit : Lexeme.Fits ⟨t.kind, [], t.text⟩ _ := h.fits hq
  exact hfit.kind_ne_eof

/-- Neither faults nor the end of the text are among the tokens. -/
theorem proper (h : q.IsRead tail) : ∀ t ∈ q.tokens, t.kind.isFault = false ∧ t.kind ≠ .eof :=
  fun t ht => ⟨h.plain t ht, h.kind_ne_eof t ht⟩

end IsRead

end Query

/-! ### A stretch as a text of its own -/

namespace Token

variable {as bs us : List Token} {o d e d' e' place : Nat}

/-- A token with fewer places before it and fewer parentheses around it. -/
def lowered (depth place : Nat) (t : Token) : Token :=
  { t with start := t.start - place, depth := t.depth - depth }

/-- A stretch of a depth as it is read by itself, without the gap before it. -/
def excerpt (depth : Nat) : List Token → List Token
  | [] => []
  | t :: ts => { t.lowered depth t.start with gap := [] } :: ts.map (lowered depth t.start)

/-- The same parentheses with fewer around them. -/
theorem Run.alike (h : Run d' ts e')
    (halike : List.Forall₂ (fun t u : Token => u.kind = t.kind ∧ t.depth = u.depth + n) ts us) (hd : d' = d + n) :
    ∃ e, e' = e + n ∧ Run d us e := by
  induction h generalizing us d with
  | nil =>
    cases halike
    exact ⟨d, hd, .nil⟩
  | opening paren depth _ ih =>
    cases halike with
    | cons hu hus =>
      obtain ⟨hk, hdepth⟩ := hu
      obtain ⟨e, he, hrun⟩ := ih hus (show _ = d + 1 + n by omega)
      exact ⟨e, he, .opening (by rwa [isSymbol, hk]) (by omega) hrun⟩
  | closing paren depth _ ih =>
    cases halike with
    | @cons _ u _ _ hu hus =>
      obtain ⟨hk, hdepth⟩ := hu
      obtain ⟨e, he, hrun⟩ := ih hus (show _ = u.depth + n by omega)
      obtain rfl : d = u.depth + 1 := by omega
      exact ⟨e, he, .closing (by rwa [isSymbol, hk]) rfl hrun⟩
  | plain left right depth _ ih =>
    cases halike with
    | cons hu hus =>
      obtain ⟨hk, hdepth⟩ := hu
      obtain ⟨e, he, hrun⟩ := ih hus hd
      exact ⟨e, he, .plain (by rwa [isSymbol, hk]) (by rwa [isSymbol, hk]) (by omega) hrun⟩

theorem Placed.lowered (h : Placed o ts) (hle : place ≤ o) : Placed (o - place) (ts.map (lowered depth place)) := by
  induction ts generalizing o with
  | nil => trivial
  | cons t ts ih =>
    obtain ⟨hstart, hrest⟩ := h
    have hstop : t.stop = t.start + Text.byteSize t.text := rfl
    have htail := ih hrest (by omega)
    refine ⟨?_, ?_⟩
    · show t.start - place = o - place + Text.byteSize t.gap
      omega
    · have hplace : (t.lowered depth place).stop = t.stop - place := by
        show t.start - place + Text.byteSize t.text = _
        omega
      rwa [hplace]

theorem Placed.excerpt (h : Placed o ts) : Placed 0 (excerpt depth ts) := by
  cases ts with
  | nil => trivial
  | cons t ts =>
    obtain ⟨hstart, hrest⟩ := h
    have hstop : t.stop = t.start + Text.byteSize t.text := rfl
    have htail : Placed _ (ts.map (Token.lowered depth t.start)) := hrest.lowered (by omega)
    refine ⟨?_, ?_⟩
    · show t.start - t.start = 0 + 0
      omega
    · have hplace : ({ t.lowered depth t.start with gap := [] } : Token).stop = t.stop - t.start := by
        show t.start - t.start + Text.byteSize t.text = _
        omega
      rwa [hplace]

theorem Level.excerpt (h : Level depth ts) : Run 0 (excerpt depth ts) 0 := by
  have halike : List.Forall₂ (fun t u : Token => u.kind = t.kind ∧ t.depth = u.depth + depth) ts
      (Token.excerpt depth ts) := by
    cases ts with
    | nil => exact .nil
    | cons t ts =>
      obtain ⟨ht, hts⟩ := List.forall_mem_cons.1 h.le
      refine .cons ⟨rfl, (Nat.sub_add_cancel ht).symm⟩ ?_
      rw [List.forall₂_map_right_iff, List.forall₂_same]
      exact fun u hu => ⟨rfl, (Nat.sub_add_cancel (hts u hu)).symm⟩
  obtain ⟨e, he, hrun⟩ := h.run.alike halike (Nat.zero_add depth).symm
  obtain rfl : e = 0 := by omega
  exact hrun

/-- An excerpt has the tokens of the stretch, at places that are as much less as the stretch starts. -/
theorem Placed.forall₂_excerpt (h : Placed o ts) (hle : ∀ t ∈ ts, depth ≤ t.depth) :
    List.Forall₂ (fun u t => u.Same t ∧ t.start = u.start + startOr 0 ts) ((Token.excerpt depth ts).map (raised depth))
      ts := by
  cases ts with
  | nil => exact .nil
  | cons t ts =>
    obtain ⟨ht, hts⟩ := List.forall_mem_cons.1 hle
    refine .cons ⟨⟨⟨rfl, rfl⟩, (Nat.sub_add_cancel ht).symm⟩, ?_⟩ ?_
    · show t.start = t.start - t.start + t.start
      omega
    · rw [List.forall₂_map_left_iff, List.forall₂_map_left_iff, List.forall₂_same]
      refine fun u hu => ⟨⟨⟨rfl, rfl⟩, (Nat.sub_add_cancel (hts u hu)).symm⟩, ?_⟩
      have hstart := h.2.le_start u hu
      have hstop : t.stop = t.start + Text.byteSize t.text := rfl
      show u.start = u.start - t.start + t.start
      omega

end Token

namespace Query.IsRead

variable {q : Query} {tail : List Cell} {as bs : List Token}

/-- A stretch is sound by itself. -/
theorem sound_stretch (h : q.IsRead tail) (hq : q.tokens = as ++ (ts ++ bs)) : Cell.Sound (Token.stretch ts) := by
  cases ts with
  | nil => exact .nil
  | cons t ts =>
    have hsound := h.sound
    have hfault := h.isFault
    rw [(h.split hq).1] at hsound hfault
    have hend : Text.StandsIn (Cell.spell (Token.cells bs ++ tail)) (Cell.spell []) := .of_stops rfl
    have hpiece := Cell.Settles.piece (p := fun _ => false) hsound.of_append
      (fun c hc => hfault c (List.mem_append_right _ (List.mem_append_left _ hc)))
      (Token.isGap_getLast?_stretch _) .nil hend
    simpa using hpiece.sound

/-- **Excerpts.**  The text of a level stretch is read as the stretch by itself. -/
theorem ofText_spell (h : q.IsRead tail) (hq : q.tokens = as ++ (ts ++ bs)) (hl : Level depth ts) :
    ofText (Token.spell ts) = .ok ⟨Token.spell ts, Token.excerpt depth ts⟩ := by
  refine ofText_eq_ok_iff.2 ⟨rfl, ?_⟩
  have hplaced := h.placed
  rw [hq, Token.placed_append, Token.placed_append] at hplaced
  have hlex : lex (Token.spell ts) = (Token.excerpt depth ts).map (·.toLexeme) ++ [⟨.eof, [], []⟩] := by
    rw [← Token.spell_stretch, (h.sound_stretch hq).lex_spell]
    cases ts with
    | nil => rfl
    | cons t ts =>
      have hcells := lexemes_cells ts []
      rw [List.append_nil] at hcells
      rw [Token.stretch_cons, Token.cell, Cell.lexemes, hcells]
      show _ = _ :: ((ts.map (Token.lowered depth t.start)).map (·.toLexeme) ++ _)
      rw [List.map_map]
      rfl
  have hproper : ∀ t ∈ Token.excerpt depth ts, t.kind.isFault = false ∧ t.kind ≠ .eof := by
    have hts : ∀ t ∈ ts, t.kind.isFault = false ∧ t.kind ≠ .eof := by
      intro t ht
      refine h.proper t ?_
      rw [hq]
      simp [ht]
    cases ts with
    | nil => exact List.forall_mem_nil _
    | cons t ts =>
      obtain ⟨ht, hts⟩ := List.forall_mem_cons.1 hts
      refine List.forall_mem_cons.2 ⟨ht, ?_⟩
      rw [List.forall_mem_map]
      exact hts
  rw [tokenize, hlex, nest_append hl.excerpt hplaced.2.1.excerpt hproper]
  show Except.ok (Token.excerpt depth ts ++ []) = _
  rw [List.append_nil]

end Query.IsRead

/-! ### Edits at other places -/

namespace Edit

variable {es es' : List Edit} {place : Nat → Nat}

/-- Whether two edits insert the same text, the second one at the place that the first one's is moved to. -/
def Moved (place : Nat → Nat) (e e' : Edit) : Prop :=
  ∃ p text, e = insert p text ∧ e' = insert (place p) text

/-- What moved edits insert at a moved place. -/
theorem insertedAt_moved (hinj : Function.Injective place) (h : List.Forall₂ (Moved place) es es') (p : Nat) :
    insertedAt es' (place p) = insertedAt es p := by
  induction h with
  | nil => rfl
  | cons he _ ih =>
    obtain ⟨o, text, rfl, rfl⟩ := he
    rw [insertedAt_cons, insertedAt_cons, ih]
    show (if place o = place p then text else []) ++ _ = (if o = p then text else []) ++ _
    by_cases hp : o = p
    · rw [if_pos (congrArg place hp), if_pos hp]
    · rw [if_neg (hinj.ne hp), if_neg hp]

end Edit

/-- The text of a stretch with all that edits insert from its start to its end. -/
def Token.edited (es : List Edit) (ts : List Token) : SqlText :=
  Text.weave (Edit.insertedAt es) (startOr 0 ts) (spell ts) ++ Edit.insertedAt es (stopOr 0 ts)

namespace JoinChain

open Token (Placed excerpt)
open Edit (insertedAt Moved)
open Text (weave)

variable {q : Query} {tail : List Cell} {as bs : List Token} {o : Nat} {es : List Edit} {text : SqlText}

/-- Where the tokens of a clause stand in the text of the clause does not matter. -/
theorem clauseEdits_excerpt {stop₀ : Nat} (hp : Placed o ts) (htexts : ∀ t ∈ ts, t.text ≠ []) (hl : Level depth ts)
    (hstop : ∀ t ∈ excerpt depth ts, t.start < stop₀) :
    Except.Alike (List.Forall₂ (Moved (· + Token.startOr 0 ts))) (clauseEdits 0 stop₀ (excerpt depth ts))
      (clauseEdits depth stop ts) := by
  have hsame := hp.forall₂_excerpt hl.le
  have hpairwise : ((excerpt depth ts).map (Token.raised depth)).Pairwise fun t u => t.start < u.start := by
    rw [List.pairwise_map]
    refine Token.Placed.pairwise hp.excerpt ?_
    cases ts with
    | nil => exact nofun
    | cons t ts =>
      obtain ⟨ht, hts⟩ := List.forall_mem_cons.1 htexts
      refine List.forall_mem_cons.2 ⟨ht, ?_⟩
      rw [List.forall_mem_map]
      exact hts
  have hstop' : ∀ t ∈ (excerpt depth ts).map (Token.raised depth), t.start < stop₀ := by
    rw [List.forall_mem_map]
    exact hstop
  obtain ⟨l, hlaid, hplace⟩ := Token.exists_layout (hsame.imp fun _ _ h => h.1) hpairwise hstop' stop
  have hmoved : ∀ t ∈ (excerpt depth ts).map (Token.raised depth), l.place t.start = t.start + Token.startOr 0 ts := by
    have hall := hsame.imp fun _ _ h => h.2
    generalize Token.startOr 0 ts = place at hall ⊢
    generalize (excerpt depth ts).map (Token.raised depth) = us at hlaid hall ⊢
    rw [hlaid, List.forall₂_map_right_iff, List.forall₂_same] at hall
    exact hall
  have halike : Except.Alike _ (clauseEdits depth stop₀ ((excerpt depth ts).map (Token.raised depth))) _ :=
    clauseEdits_relaid (l := l) fun t ht => ht
  rw [← hlaid, hplace] at halike
  have hraised := clauseEdits_raised (n := depth) 0 stop₀ (excerpt depth ts)
  rw [Nat.zero_add] at hraised
  rw [hraised] at halike
  refine halike.mono fun es es' hes => hes.imp fun e e' he => ?_
  cases he with
  | @before t text mem opens =>
    refine ⟨t.start, text, rfl, ?_⟩
    show Edit.insert (l.place t.start) text = _
    rw [hmoved t mem]
  | @behind u text mem closes =>
    refine ⟨u.stop, text, rfl, ?_⟩
    show Edit.insert (l.place u.start + Text.byteSize u.text) text
      = .insert (u.start + Text.byteSize u.text + Token.startOr 0 ts) text
    rw [hmoved u mem, Nat.add_right_comm]

/-- The edits of a text that is a clause insert into it. -/
theorem insertsInto_of_clauseEdits (hread : q.IsRead tail) (h : clauseEdits 0 stop q.tokens = .ok es) :
    ∀ e ∈ es, e.InsertsInto q.text := by
  obtain ⟨c, hc, htokens, rfl⟩ := clauseEdits_eq_ok_iff.1 h
  intro e he
  obtain ⟨t, ht, s, heq⟩ := hc.exists_of_mem_edits he
  rw [htokens] at ht
  rw [hread.text_eq]
  rcases heq with rfl | rfl
  · exact (hread.placed.insertsInto ht _ s).1
  · exact (hread.placed.insertsInto ht _ s).2

/-- **Clauses by themselves.**  The text of a level stretch is nested as a clause just if the stretch has edits as one,
and the edits make of it what comes out. -/
theorem nestClause_spell (h : q.IsRead tail) (hq : q.tokens = as ++ (ts ++ bs)) (hne : ts ≠ []) (hl : Level depth ts) :
    (∃ es, clauseEdits depth stop ts = .ok es ∧ nestClause (Token.spell ts) = .ok (Token.edited es ts)) ∨
      ∃ e e', clauseEdits depth stop ts = .error e ∧ nestClause (Token.spell ts) = .error e' := by
  have htext := h.ofText_spell hq hl
  obtain ⟨-, tail₀, hread₀⟩ := Query.isRead htext
  have hplaced := h.placed
  rw [hq, Token.placed_append, Token.placed_append] at hplaced
  have hplaced := hplaced.2.1
  have htexts : ∀ t ∈ ts, t.text ≠ [] := by
    intro t ht
    refine h.text_ne_nil t ?_
    rw [hq]
    simp [ht]
  have halike : Except.Alike _ _ (clauseEdits depth stop ts) :=
    clauseEdits_excerpt hplaced htexts hl hread₀.start_lt_stop
  rw [nestClause, htext]
  change (∃ es, _ ∧ (clauseEdits 0 _ _ >>= fun es => Edit.applyAll es _) = _) ∨
    ∃ e e', _ ∧ (clauseEdits 0 _ _ >>= fun es => Edit.applyAll es _) = _
  generalize hx : clauseEdits 0 _ (excerpt depth ts) = x at halike
  generalize clauseEdits depth stop ts = y at halike
  cases halike with
  | error _ => exact .inr ⟨_, _, rfl, rfl⟩
  | @ok es₀ es hmoved =>
    have hinserted := Edit.insertedAt_moved (fun _ _ => Nat.add_right_cancel) hmoved
    refine .inl ⟨es, rfl, ?_⟩
    change Edit.applyAll es₀ _ = _
    rw [Edit.applyAll_insertions (insertsInto_of_clauseEdits hread₀ hx), Edit.insertAll]
    have hweave : weave (insertedAt es) (0 + Token.startOr 0 ts) (Token.spell ts) = _ :=
      Text.weave_shift (Token.startOr 0 ts) fun p _ _ => hinserted p
    rw [Nat.zero_add] at hweave
    obtain ⟨-, hstop⟩ := hplaced.extent hne 0 0
    have hlast := hinserted (Text.byteSize (Token.spell ts))
    rw [Nat.add_comm, ← hstop] at hlast
    rw [Token.edited, hweave, hlast]

end JoinChain

end JetAdapter
