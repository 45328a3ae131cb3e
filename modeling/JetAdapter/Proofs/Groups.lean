import JetAdapter.Proofs.Readings

/-!
# Groups in parentheses

The tokens of a query are a list of groups in parentheses, of commas and of other tokens (`Grouping`); every query is one
in just one way, so what is said of all calls of a query, however deep, is said by recursion on it.

A call is a token before a group.  Its arguments are the pieces of the group (`Grouping.reads_pieces`), and the calls of a
query are those of its groups and those of what stands behind them, in this order (`Call.among_group`).
-/

namespace JetAdapter

open Token (Level Run Reads)

/-! ### Tokens and groups -/

/-- Where no comma of the depth is, no cut is made. -/
theorem Token.splitCommas_append_of_not {us vs item : List Token} {items : List (List Token)} {d : Nat}
    (hus : ∀ t ∈ us, t.isSymbolAt d .comma = false) (h : splitCommas d vs = item :: items) :
    splitCommas d (us ++ vs) = (us ++ item) :: items := by
  induction us with
  | nil => exact h
  | cons u us ih =>
    obtain ⟨hu, hus⟩ := List.forall_mem_cons.1 hus
    have hrest := ih hus
    rw [splitCommas] at hrest ⊢
    rw [List.cons_append, pieces, if_neg (by simp [hu])]
    split
    · next hp => exact absurd hp (pieces_ne_nil _ _ _)
    · next p ps hp =>
      rw [hp] at hrest
      obtain ⟨hp, hps⟩ := List.cons.inj hrest
      rw [List.map_cons, hps, hp]
      rfl

/-- A token that is no parenthesis and no comma. -/
structure Leaf where
  kind : Kind
  text : SqlText
  left : kind ≠ .symbol .leftParen
  right : kind ≠ .symbol .rightParen
  comma : kind ≠ .symbol .comma

namespace Leaf

instance : DecidableEq Leaf := fun l l' =>
  decidable_of_iff (l.kind = l'.kind ∧ l.text = l'.text) (by cases l; cases l'; simp)

/-- The cell of the token. -/
def cell (l : Leaf) : Cell :=
  .token l.kind l.text

/-- Whether the token is this operator or delimiter. -/
def isSymbol (l : Leaf) (s : Symbol) : Bool :=
  l.kind.isSymbol s

/-- A word as it is written. -/
def word (w : SqlText) : Leaf where
  kind := Lexeme.wordKind w
  text := w
  left := Lexeme.wordKind_ne_symbol w .leftParen
  right := Lexeme.wordKind_ne_symbol w .rightParen
  comma := Lexeme.wordKind_ne_symbol w .comma

end Leaf

/-- Tokens as their parentheses group them. -/
inductive Grouping
  | nil
  | leaf (token : Leaf) (rest : Grouping)
  | comma (rest : Grouping)
  | group (inside rest : Grouping)
deriving DecidableEq

namespace Grouping

/-- The cells of the tokens. -/
def cells : Grouping → List Cell
  | nil => []
  | leaf l rest => l.cell :: rest.cells
  | comma rest => Cell.sign ',' :: rest.cells
  | group inside rest => Cell.sign '(' :: (inside.cells ++ Cell.sign ')' :: rest.cells)

/-- One grouping behind another. -/
def append : Grouping → Grouping → Grouping
  | nil, g => g
  | leaf l rest, g => leaf l (rest.append g)
  | comma rest, g => comma (rest.append g)
  | group inside rest, g => group inside (rest.append g)

/-- Adds something to the front of the first piece. -/
def consPiece (front : Grouping → Grouping) : List Grouping → List Grouping
  | [] => [front nil]
  | p :: ps => front p :: ps

/-- Cuts at the commas outside of all groups. -/
def pieces : Grouping → List Grouping
  | nil => [nil]
  | leaf l rest => consPiece (leaf l) rest.pieces
  | comma rest => nil :: rest.pieces
  | group inside rest => consPiece (group inside) rest.pieces

variable {f g inside rest : Grouping} {ts us : List Token} {t : Token} {d : Nat}

theorem cells_append (f g : Grouping) : (f.append g).cells = f.cells ++ g.cells := by
  induction f with
  | nil => rfl
  | leaf l rest ih => rw [append, cells, ih, cells, List.cons_append]
  | comma rest ih => rw [append, cells, ih, cells, List.cons_append]
  | group inside rest _ ih => simp [append, cells, ih]

@[simp] theorem cells_eq_nil_iff : g.cells = [] ↔ g = nil := by
  cases g <;> simp [cells]

theorem balanced (g : Grouping) : Balanced (Cell.kinds g.cells) := by
  induction g with
  | nil => exact .nil
  | leaf l rest ih => exact .plain l.left l.right ih
  | comma rest ih => exact .plain nofun nofun ih
  | group inside rest ihInside ih =>
    rw [cells, ← List.singleton_append, Cell.kinds_append, Cell.kinds_append]
    exact .group ihInside ih

/-- Cells are those of one grouping at most. -/
theorem cells_injective : Function.Injective cells := by
  -- The induction needs what stands behind a group: nothing, or the parenthesis that closes the next one.
  suffices hends : ∀ {f g : Grouping} {x y : List Cell}, (∀ c ∈ x.head?, c = Cell.sign ')') →
      (∀ c ∈ y.head?, c = Cell.sign ')') → f.cells ++ x = g.cells ++ y → f = g ∧ x = y from
    fun f g h => (hends (x := []) (y := []) nofun nofun (by rw [h])).1
  intro f
  induction f with
  | nil =>
    intro g x y hx _ h
    cases g with
    | nil => exact ⟨rfl, h⟩
    | leaf l rest =>
      obtain rfl : x = _ := h
      exact absurd (Cell.token.inj (hx _ rfl)).1 l.right
    | comma rest =>
      obtain rfl : x = _ := h
      exact absurd (hx _ rfl) (by decide)
    | group inside rest =>
      obtain rfl : x = _ := h
      exact absurd (hx _ rfl) (by decide)
  | leaf l rest ih =>
    intro g x y hx hy h
    cases g with
    | nil =>
      obtain rfl : _ = y := h
      exact absurd (Cell.token.inj (hy _ rfl)).1 l.right
    | leaf l' rest' =>
      obtain ⟨hl, h⟩ := List.cons.inj h
      obtain ⟨rfl, rfl⟩ := ih hx hy h
      obtain ⟨hk, hw⟩ := Cell.token.inj hl
      obtain ⟨k, w, _, _, _⟩ := l
      obtain ⟨k', w', _, _, _⟩ := l'
      obtain rfl : k = k' := hk
      obtain rfl : w = w' := hw
      exact ⟨rfl, rfl⟩
    | comma rest' => exact absurd (Cell.token.inj (List.cons.inj h).1).1 l.comma
    | group inside rest' => exact absurd (Cell.token.inj (List.cons.inj h).1).1 l.left
  | comma rest ih =>
    intro g x y hx hy h
    cases g with
    | nil =>
      obtain rfl : _ = y := h
      exact absurd (hy _ rfl) (by decide)
    | leaf l rest' => exact absurd (Cell.token.inj (List.cons.inj h).1).1.symm l.comma
    | comma rest' =>
      obtain ⟨rfl, rfl⟩ := ih hx hy (List.cons.inj h).2
      exact ⟨rfl, rfl⟩
    | group inside rest' => exact absurd (List.cons.inj h).1 (by decide)
  | group inside rest ihInside ih =>
    intro g x y hx hy h
    cases g with
    | nil =>
      obtain rfl : _ = y := h
      exact absurd (hy _ rfl) (by decide)
    | leaf l rest' => exact absurd (Cell.token.inj (List.cons.inj h).1).1.symm l.left
    | comma rest' => exact absurd (List.cons.inj h).1 (by decide)
    | group inside' rest' =>
      have hinside : inside.cells ++ Cell.sign ')' :: (rest.cells ++ x)
          = inside'.cells ++ Cell.sign ')' :: (rest'.cells ++ y) := by simpa [cells] using h
      obtain ⟨rfl, hrest⟩ := ihInside (fun c hc => by simpa using hc.symm) (fun c hc => by simpa using hc.symm) hinside
      obtain ⟨rfl, rfl⟩ := ih hx hy (List.cons.inj hrest).2
      exact ⟨rfl, rfl⟩

theorem eq_group_or (g : Grouping) :
    (∃ inside rest, g = group inside rest) ∨ ∀ inside rest, g ≠ group inside rest := by
  cases g with
  | group inside rest => exact .inl ⟨inside, rest, rfl⟩
  | nil | leaf | comma => exact .inr nofun

theorem pieces_ne_nil (g : Grouping) : g.pieces ≠ [] := by
  have hcons : ∀ (front : Grouping → Grouping) (ps : List Grouping), consPiece front ps ≠ [] := by
    intro front ps
    cases ps <;> exact List.cons_ne_nil _ _
  cases g with
  | nil => exact List.cons_ne_nil _ _
  | leaf l rest => exact hcons _ _
  | comma rest => exact List.cons_ne_nil _ _
  | group inside rest => exact hcons _ _

/-- What is before the first comma, and the pieces behind it. -/
theorem pieces_eq_cons {p : Grouping} {ps : List Grouping} (h : g.pieces = p :: ps) :
    (ps = [] ∧ g = p) ∨ ∃ behind, g = p.append (comma behind) ∧ behind.pieces = ps := by
  -- What is put before the first piece stands before the whole.
  have hfront : ∀ {rest p : Grouping} {ps : List Grouping} {front : Grouping → Grouping},
      (∀ f b, (front f).append b = front (f.append b)) → (∀ {q qs}, rest.pieces = q :: qs → (qs = [] ∧ rest = q) ∨ ∃ b, rest = q.append (comma b) ∧ b.pieces = qs) →
      consPiece front rest.pieces = p :: ps →
      (ps = [] ∧ front rest = p) ∨ ∃ b, front rest = p.append (comma b) ∧ b.pieces = ps := by
    intro rest p ps front happend ih hcons
    obtain ⟨q, qs, hq⟩ := List.exists_cons_of_ne_nil rest.pieces_ne_nil
    rw [hq] at hcons
    obtain ⟨rfl, rfl⟩ := List.cons.inj hcons
    rcases ih hq with ⟨rfl, rfl⟩ | ⟨b, rfl, hb⟩
    · exact .inl ⟨rfl, rfl⟩
    · exact .inr ⟨b, (happend _ _).symm, hb⟩
  induction g generalizing p ps with
  | nil =>
    obtain ⟨rfl, rfl⟩ := List.cons.inj h
    exact .inl ⟨rfl, rfl⟩
  | leaf l rest ih => exact hfront (fun _ _ => rfl) ih h
  | comma rest ih =>
    obtain ⟨rfl, rfl⟩ := List.cons.inj h
    exact .inr ⟨rest, rfl, rfl⟩
  | group inside rest _ ih => exact hfront (fun _ _ => rfl) ih h

/-! ### Reading groups -/

/-- A leaf is read as a token of the depth. -/
theorem reads_leaf {l : Leaf} (h : Reads d (leaf l rest).cells ts) :
    ∃ t us, ts = t :: us ∧ t.kind = l.kind ∧ t.text = l.text ∧ t.depth = d ∧ Reads d rest.cells us :=
  Reads.cons (k := l.kind) (w := l.text) h l.left l.right

/-- A comma is read as one of the depth. -/
theorem reads_comma (h : Reads d (comma rest).cells ts) :
    ∃ t us, ts = t :: us ∧ t.cell = Cell.sign ',' ∧ t.isSymbolAt d .comma = true ∧ Reads d rest.cells us := by
  obtain ⟨t, us, rfl, hk, hw, hd, hrest⟩ := Reads.cons (k := .symbol .comma) (w := [',']) h nofun nofun
  refine ⟨t, us, rfl, by rw [Token.cell, hk, hw]; rfl, ?_, hrest⟩
  simp [Token.isSymbolAt, Token.isSymbol, Kind.isSymbol, hk, hd]

/-- A group is read as tokens of the next depth between parentheses. -/
theorem reads_group (h : Reads d (group inside rest).cells ts) :
    ∃ opening us closing vs, ts = opening :: (us ++ closing :: vs) ∧ opening.cell = Cell.sign '(' ∧ opening.depth = d ∧
      Reads (d + 1) inside.cells us ∧ closing.cell = Cell.sign ')' ∧ closing.depth = d ∧ Reads d rest.cells vs :=
  Reads.group h inside.balanced

/-- The tokens of a text are grouped by their parentheses. -/
theorem exists_of_isRead {q : Query} {tail : List Cell} (h : q.IsRead tail) :
    ∃ g : Grouping, Reads 0 g.cells q.tokens := by
  have hlevel : Level 0 q.tokens := ⟨Token.nested_iff_run.1 h.nested, fun t _ => Nat.zero_le _⟩
  suffices hgroup : ∀ {ks : List Kind}, Balanced ks → ∀ {us : List Token}, us.map (·.kind) = ks →
      (∀ t ∈ us, ∃ rest, t.cell.Fits rest) → ∃ g : Grouping, g.cells = us.map Token.cell by
    obtain ⟨g, hg⟩ := hgroup hlevel.balanced rfl fun t ht => by
      obtain ⟨as, bs, hq⟩ := List.append_of_mem ht
      exact ⟨_, h.fits hq⟩
    exact ⟨g, hlevel, hg.symm⟩
  intro ks hks
  induction hks with
  | nil =>
    intro us hus _
    obtain rfl := List.map_eq_nil_iff.1 hus
    exact ⟨nil, rfl⟩
  | @plain k ks left right _ ih =>
    intro us hus hfits
    obtain ⟨t, us, rfl, rfl, hrest⟩ := List.map_eq_cons_iff.1 hus
    obtain ⟨g, hg⟩ := ih hrest fun u hu => hfits u (List.mem_cons_of_mem _ hu)
    obtain ⟨_, hfit⟩ := hfits t List.mem_cons_self
    by_cases hcomma : t.kind = .symbol .comma
    · exact ⟨comma g, by rw [cells, hg, ← hfit.eq_sign.2.2 hcomma]; rfl⟩
    · exact ⟨leaf ⟨t.kind, t.text, left, right, hcomma⟩ g, by rw [cells, hg]; rfl⟩
  | group _ _ ihInside ihBehind =>
    intro us hus hfits
    obtain ⟨opening, us, rfl, hopening, hrest⟩ := List.map_eq_cons_iff.1 hus
    obtain ⟨inside, us, rfl, hinside, hrest⟩ := List.map_eq_append_iff.1 hrest
    obtain ⟨closing, behind, rfl, hclosing, hbehind⟩ := List.map_eq_cons_iff.1 hrest
    simp only [List.forall_mem_cons, List.forall_mem_append] at hfits
    obtain ⟨⟨_, hfit⟩, hfitsInside, ⟨_, hfit'⟩, hfitsBehind⟩ := hfits
    obtain ⟨g, hg⟩ := ihInside hinside hfitsInside
    obtain ⟨g', hg'⟩ := ihBehind hbehind hfitsBehind
    have hleft : opening.cell = Cell.sign '(' := hfit.eq_sign.1 hopening
    have hright : closing.cell = Cell.sign ')' := hfit'.eq_sign.2.1 hclosing
    exact ⟨group g g', by simp [cells, hg, hg', hleft, hright]⟩

theorem isSymbol_of_kind {l : Leaf} (h : t.kind = l.kind) (s : Symbol) : t.isSymbol s = l.isSymbol s := by
  rw [Token.isSymbol, Leaf.isSymbol, h]

/-- What is put before a stretch belongs to its first piece, if it holds no comma of the depth. -/
theorem reads_consPiece (f : Grouping → Grouping) {vs : List Token} {ps : List Grouping} {cs : List Cell}
    (hus : ∀ t ∈ us, t.isSymbolAt d .comma = false) (hcs : Reads d cs us) (hf : ∀ p, (f p).cells = cs ++ p.cells)
    (hvs : List.Forall₂ (fun item p => Reads d (Grouping.cells p) item) (Token.splitCommas d vs) ps) :
    List.Forall₂ (fun item p => Reads d (Grouping.cells p) item) (Token.splitCommas d (us ++ vs)) (consPiece f ps) := by
  obtain ⟨item, items, hitems⟩ : ∃ item items, Token.splitCommas d vs = item :: items :=
    List.exists_cons_of_ne_nil (by simp [Token.splitCommas, Token.pieces_ne_nil])
  rw [hitems] at hvs
  rw [Token.splitCommas_append_of_not hus hitems]
  cases hvs with
  | cons hp hps =>
    refine .cons ⟨hcs.level.append hp.level, ?_⟩ hps
    rw [hf, List.map_append, hcs.cells, hp.cells]

/-- The stretches between the commas of a depth are the pieces. -/
theorem reads_pieces (h : Reads d g.cells ts) :
    List.Forall₂ (fun item p : _ => Reads d (Grouping.cells p) item) (Token.splitCommas d ts) g.pieces := by
  induction g generalizing ts with
  | nil =>
    obtain rfl := Reads.nil_iff.1 h
    exact .cons h .nil
  | leaf l rest ih =>
    obtain ⟨t, us, rfl, hk, hw, hd, hrest⟩ := reads_leaf h
    have hone : Reads d [l.cell] [t] := by
      refine ⟨⟨.plain ?_ ?_ hd .nil, List.forall_mem_singleton.2 (Nat.le_of_eq hd.symm)⟩, ?_⟩
      · rw [Token.isSymbol, hk]
        simpa [Kind.isSymbol] using l.left
      · rw [Token.isSymbol, hk]
        simpa [Kind.isSymbol] using l.right
      · rw [List.map_singleton, Token.cell, hk, hw]
        rfl
    refine reads_consPiece (leaf l) (List.forall_mem_singleton.2 ?_) hone (fun _ => rfl) (ih hrest)
    rw [Token.isSymbolAt, Token.isSymbol, hk]
    simpa [Kind.isSymbol] using fun _ => l.comma
  | comma rest ih =>
    obtain ⟨t, us, rfl, -, hcomma, hrest⟩ := reads_comma h
    rw [pieces, Token.splitCommas, Token.pieces, if_pos hcomma]
    exact .cons (Reads.nil_iff.2 rfl) (ih hrest)
  | group inside rest _ ih =>
    obtain ⟨opening, us, closing, vs, rfl, hopening, hd, hus, hclosing, hd', hvs⟩ := reads_group h
    have hleft : opening.kind = .symbol .leftParen := (Cell.token.inj hopening).1
    have hright : closing.kind = .symbol .rightParen := (Cell.token.inj hclosing).1
    have hall : Reads d (Cell.sign '(' :: (inside.cells ++ [Cell.sign ')'])) (opening :: (us ++ [closing])) := by
      refine ⟨⟨.opening ?_ hd (hus.level.run.append (.closing ?_ hd' .nil)), ?_⟩, ?_⟩
      · simp [Token.isSymbol, Kind.isSymbol, hleft]
      · simp [Token.isSymbol, Kind.isSymbol, hright]
      · simp only [List.forall_mem_cons, List.forall_mem_append]
        exact ⟨Nat.le_of_eq hd.symm, fun t ht => Nat.le_of_succ_le (hus.level.le t ht), Nat.le_of_eq hd'.symm, List.forall_mem_nil _⟩
      · simp [hopening, hclosing, hus.cells]
    have hnot : ∀ t ∈ opening :: (us ++ [closing]), t.isSymbolAt d .comma = false := by
      simp only [List.forall_mem_cons, List.forall_mem_append]
      refine ⟨?_, fun t ht => ?_, ?_, List.forall_mem_nil _⟩
      · simp [Token.isSymbolAt, Token.isSymbol, Kind.isSymbol, hleft]
      · have hne : t.depth ≠ d := by
          have := hus.level.le t ht
          omega
        simp [Token.isSymbolAt, hne]
      · simp [Token.isSymbolAt, Token.isSymbol, Kind.isSymbol, hright]
    have hgroup := reads_consPiece (group inside) hnot hall (fun p => by simp [cells]) (ih hvs)
    rw [pieces]
    simpa using hgroup

end Grouping

/-! ### Calls in groups -/

namespace Token

variable {as : List Token} {t : Token} {d e : Nat}

/-- Where the depth falls, a parenthesis closes. -/
theorem Run.exists_closing (h : Run e as d) (hlt : d ≤ t.depth) (hle : t.depth < e) :
    ∃ x, splitFirst (isSymbolAt t.depth .rightParen) as = some x := by
  suffices hmem : ∃ u ∈ as, u.isSymbolAt t.depth .rightParen = true by
    obtain ⟨u, hu, hp⟩ := hmem
    cases hs : splitFirst (isSymbolAt t.depth .rightParen) as with
    | some x => exact ⟨x, rfl⟩
    | none => simp [splitFirst_eq_none hs u hu] at hp
  induction h with
  | nil => omega
  | opening _ _ _ ih =>
    obtain ⟨u, hu, hp⟩ := ih hlt (by omega)
    exact ⟨u, List.mem_cons_of_mem _ hu, hp⟩
  | @closing d' e' u us paren depth _ ih =>
    by_cases heq : d' = t.depth
    · refine ⟨u, List.mem_cons_self, ?_⟩
      rw [isSymbolAt, depth, heq, beq_self_eq_true, paren]
      rfl
    · obtain ⟨u, hu, hp⟩ := ih hlt (by omega)
      exact ⟨u, List.mem_cons_of_mem _ hu, hp⟩
  | plain _ _ _ _ ih =>
    obtain ⟨u, hu, hp⟩ := ih hlt hle
    exact ⟨u, List.mem_cons_of_mem _ hu, hp⟩

end Token

namespace Call

variable {p : Token → Bool} {ts us vs ins : List Token} {t next name opening closing : Token} {d e : Nat} {afterDot : Bool}

/-- The front of a stretch that ends before no opening parenthesis is a call just if it is one with all that stands behind. -/
theorem atFront_append (h : Run d ts e) (hle : ∀ t ∈ ts, e ≤ t.depth) (hnext : next.isSymbol .leftParen = false)
    (hne : ts ≠ []) : atFront p (ts ++ next :: vs) = (atFront p ts).map fun (c, after) => (c, after ++ next :: vs) := by
  match ts, hne with
  | [t], _ => simp [atFront, hnext]
  | t :: o :: us, _ =>
    rw [List.cons_append, List.cons_append, atFront, atFront]
    split
    · next hp =>
      obtain ⟨-, ho, -⟩ : e ≤ t.depth ∧ e ≤ o.depth ∧ _ := by simpa using hle
      obtain ⟨f, hrun⟩ : ∃ f, Run f (o :: us) e := by
        cases h with
        | opening _ _ rest | closing _ _ rest | plain _ _ _ rest => exact ⟨_, rest⟩
      obtain ⟨x, hx⟩ : ∃ x, Token.splitFirst (Token.isSymbolAt o.depth .rightParen) us = some x := by
        cases hrun with
        | opening _ hd rest => exact rest.exists_closing ho (by omega)
        | closing paren => simp [Token.isSymbol_eq_false_of_isSymbol hp.2] at paren
        | plain left => simp [hp.2] at left
      obtain ⟨args, found, after⟩ := x
      rw [Token.splitFirst_append hx, hx]
      rfl
    · rfl

/-- The calls in a stretch that ends before a token which makes no call, and those behind. -/
theorem among_append (h : Run d ts e) (hle : ∀ t ∈ ts, e ≤ t.depth) (hnext : next.isSymbol .leftParen = false)
    (hdot : next.isSymbol .dot = false) (hp : p next = false) (afterDot : Bool) :
    among p afterDot (ts ++ next :: vs) = among p afterDot ts ++ among p false vs := by
  induction ts generalizing d afterDot with
  | nil =>
    have hnone : atFront p (next :: vs) = none := by
      cases vs <;> simp [atFront, hp]
    have hnil : among p afterDot [] = [] := rfl
    rw [List.nil_append, hnil, List.nil_append, among, hnone, hdot]
  | cons t ts ih =>
    obtain ⟨f, hrun⟩ : ∃ f, Run f ts e := by
      cases h with
      | opening _ _ rest | closing _ _ rest | plain _ _ _ rest => exact ⟨_, rest⟩
    have hfront : atFront p (t :: ts ++ next :: vs) = _ := atFront_append h hle hnext (List.cons_ne_nil _ _)
    rw [List.cons_append] at hfront ⊢
    rw [among, among, ih hrun (List.forall_mem_cons.1 hle).2, hfront]
    cases atFront p (t :: ts) with
    | none => rfl
    | some x =>
      obtain ⟨c, after⟩ := x
      show (if afterDot = true then _ else _) = (if afterDot = true then _ else _) ++ _
      split
      · rfl
      · rfl

/-- The calls of a group and of what stands behind it. -/
theorem among_group (hus : Level (d + 1) us) (hleft : opening.isSymbol .leftParen = true)
    (hright : closing.isSymbol .rightParen = true) (hopening : p opening = false) (hclosing : p closing = false)
    (afterDot : Bool) :
    among p afterDot (opening :: (us ++ closing :: vs)) = among p false us ++ among p false vs := by
  have hdot : opening.isSymbol .dot = false := Token.isSymbol_eq_false_of_isSymbol hleft (by decide)
  have hnone : atFront p (opening :: (us ++ closing :: vs)) = none := by
    cases us <;> simp [atFront, hopening]
  rw [among, hnone, hdot, among_append hus.run hus.le (Token.isSymbol_eq_false_of_isSymbol hright (by decide))
    (Token.isSymbol_eq_false_of_isSymbol hright (by decide)) hclosing]

/-- A token before a group. -/
theorem atFront_group (hus : Level (d + 1) us) (hleft : opening.isSymbol .leftParen = true) (hd : opening.depth = d)
    (hright : closing.isSymbol .rightParen = true) (hd' : closing.depth = d) :
    atFront p (name :: opening :: (us ++ closing :: vs))
      = if p name then some (⟨name, opening, us, closing⟩, vs) else none := by
  rw [atFront, hd, Token.splitFirst_closing hus hright hd']
  split
  · next h => rw [if_pos h.1]; rfl
  · next h => rw [if_neg fun hn => h ⟨hn, hleft⟩]

/-- Without a parenthesis behind it a token is no call. -/
theorem atFront_eq_none (h : ∀ u ∈ ts.head?, u.isSymbol .leftParen = false) : atFront p (t :: ts) = none := by
  cases ts with
  | nil => rfl
  | cons u us =>
    rw [atFront, if_neg]
    rintro ⟨-, hu⟩
    simp [h u rfl] at hu

end Call

end JetAdapter
