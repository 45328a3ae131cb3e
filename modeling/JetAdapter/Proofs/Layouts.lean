import Mathlib.Data.List.Forall2
import JetAdapter.Proofs.Stretches
import JetAdapter.Query.Scope

/-!
# Layouts

Two texts with the same tokens differ in the gaps between them, and so in the places of the tokens.  They are read
alike (`Query.ofText_alike`): the tokens of one are those of the other with a new layout, or both are refused for
the same reason.

What is looked for in a query is a matter of kinds, spellings and depths.  So it is found at the same tokens under
every layout: there is a lemma that says so for each function on stretches, calls, clauses and scopes.
-/

namespace JetAdapter

open Cell (ofGap)

/-! ### Errors -/

/-- A construct that cannot be expressed, without the text that is quoted. -/
def ConstructFault.outline : ConstructFault → ConstructFault
  | .extractForm _ => .extractForm []
  | .locateArguments _ => .locateArguments []
  | fault => fault

/-- An error without the places and the texts that are quoted. -/
def SqlError.outline : SqlError → SqlError
  | .syntaxError fault _ => .syntaxError fault ⟨0, 0⟩
  | .unsupportedConstruct fault => .unsupportedConstruct fault.outline
  | .misplacedEdit _ => .misplacedEdit ⟨0, 0⟩
  | e => e

/-- Whether two computations give related results or fail with the same error up to places. -/
inductive Except.Alike {α β : Type} (r : α → β → Prop) : Except SqlError α → Except SqlError β → Prop
  | ok {a : α} {b : β} (related : r a b) : Alike r (.ok a) (.ok b)
  | error {e e' : SqlError} (outline : e'.outline = e.outline) : Alike r (.error e) (.error e')

namespace Except.Alike

variable {α β γ δ : Type} {r : α → β → Prop} {r' : γ → δ → Prop} {x : Except SqlError α} {y : Except SqlError β}

theorem bind {f : α → Except SqlError γ} {g : β → Except SqlError δ} (h : Alike r x y)
    (hfg : ∀ a b, r a b → Alike r' (f a) (g b)) : Alike r' (x >>= f) (y >>= g) := by
  cases h with
  | ok related => exact hfg _ _ related
  | error outline => exact .error outline

theorem mono {r' : α → β → Prop} (h : Alike r x y) (hr : ∀ a b, r a b → r' a b) : Alike r' x y := by
  cases h with
  | ok related => exact .ok (hr _ _ related)
  | error outline => exact .error outline

theorem mapM {f : α → Except SqlError γ} {g : β → Except SqlError δ} {k : α → β} {xs : List α}
    (h : ∀ x ∈ xs, Alike r' (f x) (g (k x))) : Alike (List.Forall₂ r') (xs.mapM f) ((xs.map k).mapM g) := by
  induction xs with
  | nil => exact .ok .nil
  | cons x xs ih =>
    obtain ⟨hx, hxs⟩ := List.forall_mem_cons.1 h
    rw [List.map_cons, List.mapM_cons, List.mapM_cons]
    exact hx.bind fun y y' hy => (ih hxs).bind fun ys ys' hys => .ok (.cons hy hys)

end Except.Alike

/-! ### Texts with the same tokens -/

/-- Whether two texts have tokens of the same spellings. -/
def Text.SameTokens (s s' : SqlText) : Prop :=
  (lex s').map Lexeme.text = (lex s).map Lexeme.text

instance : DecidableRel Text.SameTokens := fun s s' =>
  inferInstanceAs (Decidable ((lex s').map Lexeme.text = (lex s).map Lexeme.text))

namespace Lexeme

/-- The kind of a token with a spelling. -/
def kindOf : SqlText → Kind
  | [] => .eof
  | c :: w => (scan c w).kind

/-- The spelling of a lexeme says of what kind it is. -/
theorem Fits.kind_eq {l : Lexeme} {rest : SqlText} (h : l.Fits rest) : l.kind = kindOf l.text := by
  obtain ⟨-, c, w, hl, hs⟩ := h
  rw [hl] at hs
  have halone : scan c (w ++ []) = ⟨l.kind, c :: w, []⟩ := by
    refine scan_stable hs ?_ (fun _ => .nil) ?_ (fun _ _ => rfl) ?_
    · intro j _ hj
      cases hj
    · intro _ hc
      cases hc
    · intro _ _ hc
      cases hc
  rw [List.append_nil] at halone
  rw [hl, kindOf, halone]

theorem Lexed.kind_eq {ls : List Lexeme} (h : Lexed ls) : ∀ l ∈ ls, l.kind = kindOf l.text := by
  induction h with
  | last ends =>
    rw [List.forall_mem_singleton, ends.1, ends.2.1]
    rfl
  | cons fits rest ih => exact List.forall_mem_cons.2 ⟨fits.kind_eq, ih⟩

end Lexeme

/-- Whether two lexemes have the same kind and spelling. -/
def Lexeme.Same (l l' : Lexeme) : Prop :=
  l'.kind = l.kind ∧ l'.text = l.text

/-- Whether two tokens differ in their places and gaps only. -/
def Token.Same (t t' : Token) : Prop :=
  t.toLexeme.Same t'.toLexeme ∧ t'.depth = t.depth

theorem Text.SameTokens.forall₂ {s s' : SqlText} (h : SameTokens s s') :
    List.Forall₂ Lexeme.Same (lex s) (lex s') := by
  have hk := (Lexeme.lexed_lex s).kind_eq
  have hk' := (Lexeme.lexed_lex s').kind_eq
  rw [SameTokens] at h
  generalize lex s = ls at h hk
  generalize lex s' = ls' at h hk'
  induction ls generalizing ls' with
  | nil =>
    rw [List.map_eq_nil_iff.1 h]
    exact .nil
  | cons l ls ih =>
    obtain ⟨l', ls', rfl, htext, hrest⟩ := List.map_eq_cons_iff.1 h
    rw [List.forall_mem_cons] at hk hk'
    exact .cons ⟨by rw [hk.1, hk'.1, htext], htext⟩ (ih hk.2 _ hrest hk'.2)

theorem Lexeme.forall₂_placedFrom {ls ls' : List Lexeme} (h : List.Forall₂ Same ls ls') (o o' : Nat) :
    List.Forall₂ (fun l l' : PlacedLexeme => l.toLexeme.Same l'.toLexeme) (placedFrom o ls) (placedFrom o' ls') := by
  induction h generalizing o o' with
  | nil => exact .nil
  | cons hl hls ih => exact .cons hl (ih _ _)

theorem Query.nest_alike {ls ls' : List PlacedLexeme}
    (h : List.Forall₂ (fun l l' : PlacedLexeme => l.toLexeme.Same l'.toLexeme) ls ls') (d : Nat) :
    Except.Alike (List.Forall₂ Token.Same) (nest d ls) (nest d ls') := by
  induction h generalizing d with
  | nil => exact .ok .nil
  | @cons l l' ls ls' hl hls ih =>
    have hstep : ∀ {e depth : Nat}, Except.Alike (List.Forall₂ Token.Same)
        ((nest e ls).map (⟨l, depth⟩ :: ·)) ((nest e ls').map (⟨l', depth⟩ :: ·)) := by
      intro e depth
      exact (ih e).bind fun ts ts' hts => .ok (.cons ⟨hl, rfl⟩ hts)
    rw [nest.eq_def, nest.eq_def]
    simp only [hl.1]
    split
    · exact .error rfl
    · split
      · exact .ok .nil
      · exact .error rfl
    · exact hstep
    · cases d with
      | zero => exact .error rfl
      | succ d => exact hstep
    · exact hstep

/-! ### New layouts -/

/-- New gaps and places for tokens, by their old places. -/
structure Layout where
  gap : Nat → SqlText
  place : Nat → Nat

/-- A token with a new layout. -/
def Token.relaid (l : Layout) (t : Token) : Token :=
  { t with gap := l.gap t.start, start := l.place t.start }

/-- Whether a query is another one with a new layout. -/
structure Query.Relaid (l : Layout) (q q' : Query) : Prop where
  tokens : q'.tokens = q.tokens.map (Token.relaid l)
  stop : q'.stop = l.place q.stop

namespace Token

variable {ts ts' : List Token} {stop : Nat}

theorem exists_layout (h : List.Forall₂ Same ts ts') (hts : ts.Pairwise fun t u => t.start < u.start)
    (hstop : ∀ t ∈ ts, t.start < stop) (stop' : Nat) :
    ∃ l : Layout, ts' = ts.map (relaid l) ∧ l.place stop = stop' := by
  induction h with
  | nil => exact ⟨⟨fun _ => [], fun _ => stop'⟩, rfl, rfl⟩
  | @cons t t' ts ts' ht hrest ih =>
    obtain ⟨hlt, hts⟩ := List.pairwise_cons.1 hts
    obtain ⟨hfirst, hstop⟩ := List.forall_mem_cons.1 hstop
    obtain ⟨l, rfl, hplace⟩ := ih hts hstop
    refine ⟨⟨fun n => if n = t.start then t'.gap else l.gap n,
      fun n => if n = t.start then t'.start else l.place n⟩, ?_, ?_⟩
    · rw [List.map_cons]
      congr 1
      · obtain ⟨⟨hk, htext⟩, hdepth⟩ := ht
        simp only [relaid, if_true]
        obtain ⟨⟨⟨k, g, w⟩, n⟩, d⟩ := t'
        simp only at hk htext hdepth
        rw [hk, htext, hdepth]
      · refine List.map_congr_left fun u hu => ?_
        have hne : u.start ≠ t.start := Nat.ne_of_gt (hlt u hu)
        simp only [relaid, if_neg hne]
    · show (if stop = t.start then _ else _) = stop'
      rw [if_neg (Nat.ne_of_gt hfirst), hplace]

end Token

/-- The end of a query is behind the starts of its tokens. -/
theorem Query.IsRead.start_lt_stop {q : Query} {tail : List Cell} (h : q.IsRead tail) :
    ∀ t ∈ q.tokens, t.start < q.stop := by
  intro t ht
  obtain ⟨as, bs, hq⟩ := List.append_of_mem ht
  obtain ⟨hcells, hstart, -⟩ := h.split_one hq
  obtain ⟨c, w, hc⟩ := List.exists_cons_of_ne_nil (h.fits hq).text_ne_nil
  have := c.utf8Size_pos
  rw [Query.stop, ← h.spell, hcells, hstart, Cell.spell_append _ (t.cell :: _), Cell.spell_cons, hc,
    Text.byteSize_append, Text.byteSize_append, Text.byteSize_cons]
  omega

/-- Texts with the same tokens are read alike. -/
theorem Query.ofText_alike {s s' : SqlText} (h : Text.SameTokens s s') :
    Except.Alike (fun q q' => (∃ l, q.Relaid l q') ∧ ofText s = .ok q ∧ ofText s' = .ok q')
      (ofText s) (ofText s') := by
  have hnest := nest_alike (Lexeme.forall₂_placedFrom h.forall₂ 0 0) 0
  change Except.Alike _ (nest 0 (tokenize s)) (nest 0 (tokenize s')) at hnest
  generalize hx : nest 0 (tokenize s) = x at hnest
  generalize hy : nest 0 (tokenize s') = y at hnest
  cases hnest with
  | error outline =>
    rw [ofText, ofText, hx, hy]
    exact .error outline
  | @ok ts ts' hts =>
    have hs : ofText s = .ok ⟨s, ts⟩ := ofText_eq_ok_iff.2 ⟨rfl, hx⟩
    have hs' : ofText s' = .ok ⟨s', ts'⟩ := ofText_eq_ok_iff.2 ⟨rfl, hy⟩
    obtain ⟨-, tail, hread⟩ := isRead hs
    obtain ⟨l, hl, hstop⟩ := Token.exists_layout hts hread.pairwise_start hread.start_lt_stop
      (Query.stop ⟨s', ts'⟩)
    rw [hs, hs']
    exact .ok ⟨⟨l, hl, hstop.symm⟩, rfl, rfl⟩

/-! ### Stretches -/

variable {l : Layout}

namespace Token

variable {p p' : Token → Bool} {ts : List Token} {t : Token} {depth stop : Nat}

@[simp] theorem relaid_kind (t : Token) : (t.relaid l).kind = t.kind := rfl

@[simp] theorem relaid_text (t : Token) : (t.relaid l).text = t.text := rfl

@[simp] theorem relaid_depth (t : Token) : (t.relaid l).depth = t.depth := rfl

@[simp] theorem relaid_start (t : Token) : (t.relaid l).start = l.place t.start := rfl

@[simp] theorem relaid_isKeyword (t : Token) (k : Keyword) : (t.relaid l).isKeyword k = t.isKeyword k := rfl

@[simp] theorem relaid_isSymbol (t : Token) (s : Symbol) : (t.relaid l).isSymbol s = t.isSymbol s := rfl

@[simp] theorem relaid_isSymbolAt (t : Token) (s : Symbol) (depth : Nat) :
    (t.relaid l).isSymbolAt depth s = t.isSymbolAt depth s := rfl

@[simp] theorem relaid_isKeywordAt (t : Token) (k : Keyword) (depth : Nat) :
    (t.relaid l).isKeywordAt depth k = t.isKeywordAt depth k := rfl

@[simp] theorem relaid_cell (t : Token) : (t.relaid l).cell = t.cell := rfl

/-- A result of a split with a new layout. -/
def relaidSplit (l : Layout) (s : List Token × Token × List Token) : List Token × Token × List Token :=
  (s.1.map (relaid l), s.2.1.relaid l, s.2.2.map (relaid l))

theorem splitFirst_relaid (hp : ∀ t, p (t.relaid l) = p t) (ts : List Token) :
    splitFirst p (ts.map (relaid l)) = (splitFirst p ts).map (relaidSplit l) := by
  induction ts with
  | nil => rfl
  | cons t ts ih =>
    rw [List.map_cons, splitFirst, splitFirst, hp, ih]
    split
    · rfl
    · cases splitFirst p ts with
      | none => rfl
      | some s => rfl

theorem splitLast_relaid (hp : ∀ t, p (t.relaid l) = p t) (ts : List Token) :
    splitLast p (ts.map (relaid l)) = (splitLast p ts).map (relaidSplit l) := by
  rw [splitLast, splitLast, ← List.map_reverse, splitFirst_relaid hp]
  cases splitFirst p ts.reverse with
  | none => rfl
  | some s => simp [relaidSplit]

/-- A piece with a new layout. -/
def Piece.relaid (l : Layout) (p : Piece) : Piece :=
  ⟨p.tokens.map (Token.relaid l), l.place p.stop⟩

theorem pieces_relaid (depth stop : Nat) (ts : List Token) :
    pieces depth (l.place stop) (ts.map (relaid l)) = (pieces depth stop ts).map (Piece.relaid l) := by
  induction ts with
  | nil => rfl
  | cons t ts ih =>
    rw [List.map_cons, pieces, pieces, ih, relaid_isSymbolAt]
    split
    · rfl
    · cases pieces depth stop ts with
      | nil => rfl
      | cons p ps => rfl

/-- Where a stretch ends does not matter for the stretches between its commas. -/
theorem map_tokens_pieces (depth stop : Nat) (ts : List Token) :
    (pieces depth stop ts).map Piece.tokens = splitCommas depth ts := by
  rw [splitCommas]
  induction ts with
  | nil => rfl
  | cons t ts ih =>
    rw [pieces, pieces]
    split
    · rw [List.map_cons, List.map_cons, ih]
    · cases h : pieces depth stop ts with
      | nil => exact absurd h (pieces_ne_nil depth stop ts)
      | cons p ps =>
        cases h' : pieces depth 0 ts with
        | nil => exact absurd h' (pieces_ne_nil depth 0 ts)
        | cons p' ps' =>
          rw [h, h'] at ih
          obtain ⟨hp, hps⟩ := List.cons.inj ih
          show (t :: p.tokens) :: ps.map Piece.tokens = (t :: p'.tokens) :: ps'.map Piece.tokens
          rw [hp, hps]

theorem splitCommas_relaid (depth : Nat) (ts : List Token) :
    splitCommas depth (ts.map (relaid l)) = (splitCommas depth ts).map (List.map (relaid l)) := by
  rw [← map_tokens_pieces depth (l.place 0), pieces_relaid, splitCommas, List.map_map, List.map_map]
  rfl

theorem startOr_relaid (stop : Nat) (ts : List Token) :
    startOr (l.place stop) (ts.map (relaid l)) = l.place (startOr stop ts) := by
  cases ts with
  | nil => rfl
  | cons t ts => rfl

end Token

/-! ### Calls -/

namespace Call

variable {p p' : Token → Bool} {ts : List Token}

/-- A call with a new layout. -/
def relaid (l : Layout) (c : Call) : Call :=
  ⟨c.name.relaid l, c.opening.relaid l, c.args.map (Token.relaid l), c.closing.relaid l⟩

theorem atFront_relaid (hp : ∀ t ∈ ts.head?, p' (t.relaid l) = p t) :
    atFront p' (ts.map (Token.relaid l))
      = (atFront p ts).map fun (c, after) => (c.relaid l, after.map (Token.relaid l)) := by
  cases ts with
  | nil => rfl
  | cons name ts =>
    cases ts with
    | nil => rfl
    | cons opening ts =>
      rw [List.map_cons, List.map_cons, atFront, atFront, hp name rfl, Token.relaid_isSymbol]
      split
      · rw [Token.splitFirst_relaid fun _ => rfl]
        show ((Token.splitFirst (Token.isSymbolAt opening.depth .rightParen) ts).map _).map _ = _
        cases Token.splitFirst (Token.isSymbolAt opening.depth .rightParen) ts with
        | none => rfl
        | some s => rfl
      · rfl

theorem among_relaid (hp : ∀ t, p (t.relaid l) = p t) (afterDot : Bool) (ts : List Token) :
    among p afterDot (ts.map (Token.relaid l)) = (among p afterDot ts).map (relaid l) := by
  induction ts generalizing afterDot with
  | nil => rfl
  | cons t ts ih =>
    have hfront : atFront p ((t :: ts).map (Token.relaid l)) = _ := atFront_relaid fun u _ => hp u
    rw [List.map_cons] at hfront ⊢
    rw [among, among, hfront, Token.relaid_isSymbol, ih]
    cases atFront p (t :: ts) with
    | none => rfl
    | some s =>
      cases afterDot with
      | false => rfl
      | true => rfl

theorem arguments_relaid (c : Call) :
    (c.relaid l).arguments = c.arguments.map (List.map (Token.relaid l)) :=
  Token.splitCommas_relaid _ _

end Call

theorem Query.Relaid.calls {q q' : Query} (h : q.Relaid l q') {p : Token → Bool}
    (hp : ∀ t, p (t.relaid l) = p t) : q'.calls p = (q.calls p).map (Call.relaid l) := by
  rw [Query.calls, h.tokens]
  exact Call.among_relaid hp _ _

/-! ### Clauses and scopes -/

namespace Clause

variable {depth stop : Nat} {ts : List Token}

/-- A clause with a new layout. -/
def relaid (l : Layout) (c : Clause) : Clause :=
  ⟨c.kind, c.words.map (Token.relaid l), c.body.map (Token.relaid l), l.place c.stop⟩

theorem opened?_relaid (t : Token) (ts : List Token) :
    opened? (t.relaid l) (ts.map (Token.relaid l)) = opened? t ts := by
  cases ts with
  | nil => rfl
  | cons u ts => rfl

theorem start_relaid (c : Clause) : (c.relaid l).start = l.place c.start :=
  Token.startOr_relaid _ _

theorem cut_relaid (depth stop : Nat) (ts : List Token) :
    cut depth (l.place stop) (ts.map (Token.relaid l))
      = ((cut depth stop ts).1.map (Token.relaid l), (cut depth stop ts).2.map (relaid l)) := by
  induction ts with
  | nil => rfl
  | cons t ts ih =>
    rw [List.map_cons, cut, cut, ih, opened?_relaid, Token.relaid_depth]
    simp only
    split
    · rfl
    · next kind more hopen =>
      rw [← List.map_take, ← List.map_drop]
      cases (cut depth stop ts).2 with
      | nil => rfl
      | cons c cs =>
        simp only [List.map_cons, relaid, start]
        congr 3
        exact start_relaid c

end Clause

namespace Scope

variable {stop : Nat} {ts : List Token}

/-- A scope with a new layout. -/
def relaid (l : Layout) (s : Scope) : Scope :=
  ⟨s.select.relaid l, s.body.map (Token.relaid l), s.modifiers.map (Token.relaid l),
    s.list.map (Token.relaid l), s.clauses.map (Clause.relaid l)⟩

theorem modifierCount_relaid (body : List Token) :
    modifierCount (body.map (Token.relaid l)) = modifierCount body := by
  have hany : ∀ {p : Token → Bool} (ts : List Token), (∀ t, p (t.relaid l) = p t) →
      (ts.map (Token.relaid l)).head?.any p = ts.head?.any p := by
    intro p ts hp
    cases ts with
    | nil => rfl
    | cons t ts => exact hp t
  unfold modifierCount
  simp only [← List.map_drop]
  rw [hany body fun _ => rfl, hany _ fun _ => rfl]

theorem ofSelect_relaid (stop : Nat) (select : Token) (after : List Token) :
    ofSelect (l.place stop) (select.relaid l) (after.map (Token.relaid l))
      = (ofSelect stop select after).relaid l := by
  have htake : (after.map (Token.relaid l)).takeWhile (reaches select.depth)
      = (after.takeWhile (reaches select.depth)).map (Token.relaid l) := List.takeWhile_map ..
  have hdrop : (after.map (Token.relaid l)).dropWhile (reaches select.depth)
      = (after.dropWhile (reaches select.depth)).map (Token.relaid l) := List.dropWhile_map ..
  unfold ofSelect
  simp only [Token.relaid_depth, htake, hdrop, Token.startOr_relaid, Clause.cut_relaid, modifierCount_relaid,
    relaid, List.map_take, List.map_drop]

theorem among_relaid (stop : Nat) (ts : List Token) :
    among (l.place stop) (ts.map (Token.relaid l)) = (among stop ts).map (relaid l) := by
  induction ts with
  | nil => rfl
  | cons t ts ih =>
    rw [List.map_cons, among, among, Token.relaid_isKeyword, ih, ofSelect_relaid]
    split
    · rfl
    · rfl

theorem clause?_relaid (s : Scope) (kind : ClauseKind) :
    (s.relaid l).clause? kind = (s.clause? kind).map (Clause.relaid l) := by
  show (s.clauses.map (Clause.relaid l)).reverse.find? _ = _
  rw [← List.map_reverse, List.find?_map]
  rfl

theorem items_relaid (s : Scope) : (s.relaid l).items = s.items.map (List.map (Token.relaid l)) :=
  Token.splitCommas_relaid _ _

end Scope

theorem Query.Relaid.scopes {q q' : Query} (h : q.Relaid l q') :
    q'.scopes = q.scopes.map (Scope.relaid l) := by
  rw [Query.scopes, h.tokens, h.stop]
  exact Scope.among_relaid _ _

end JetAdapter
