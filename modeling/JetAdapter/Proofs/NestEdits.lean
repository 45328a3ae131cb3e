import JetAdapter.Proofs.NestReadings

/-!
# The edits of orderings

All edits of a text of selections are made against one text, those of one ordering before those of the selections inside
it.  A copied expression may stand around or beside other selections, but every edit is that of a single name, which is
an item of one ordering only.  So the edits of any choice of scopes are patches of one another in the order of the text,
and make the translation of the nest (`exists_edits`).
-/

namespace JetAdapter

open Edit (Patches)

namespace OrderAlias

open Nest (Reads AreListed)

/-! ### The edits of some scopes -/

/-- The edits of the chosen scopes, the first of which has the number `n`. -/
def chosen (on : Nat → Bool) : Nat → List Scope → List Edit
  | _, [] => []
  | n, s :: ss => (if on n then scopeEdits s else []) ++ chosen on (n + 1) ss

theorem chosen_append (on : Nat → Bool) (n : Nat) (ss ss' : List Scope) :
    chosen on n (ss ++ ss') = chosen on n ss ++ chosen on (n + ss.length) ss' := by
  induction ss generalizing n with
  | nil => rfl
  | cons s ss ih =>
    rw [List.cons_append, chosen, chosen, ih, List.append_assoc, List.length_cons, Nat.add_assoc, Nat.add_comm 1]

theorem chosen_true (n : Nat) (ss : List Scope) : chosen (fun _ => true) n ss = ss.flatMap scopeEdits := by
  induction ss generalizing n with
  | nil => rfl
  | cons s ss ih =>
    rw [chosen, if_pos rfl, ih]
    rfl

theorem chosen_eq_nil {on : Nat → Bool} {n : Nat} (h : ∀ i, n ≤ i → on i = false) (ss : List Scope) :
    chosen on n ss = [] := by
  induction ss generalizing n with
  | nil => rfl
  | cons s ss ih => rw [chosen, h n (Nat.le_refl n), ih fun i hi => h i (by omega)]; rfl

theorem chosen_one (n i : Nat) (ss : List Scope) :
    chosen (fun j => j == n + i) n ss = ss[i]?.toList.flatMap scopeEdits := by
  induction ss generalizing n i with
  | nil => rfl
  | cons s ss ih =>
    cases i with
    | zero =>
      have hrest : chosen (fun j => j == n + 0) (n + 1) ss = [] := by
        refine chosen_eq_nil (fun j hj => ?_) ss
        rw [beq_eq_false_iff_ne]
        omega
      rw [chosen, hrest, Nat.add_zero, beq_self_eq_true, if_pos rfl, List.append_nil]
      simp
    | succ i =>
      have hnot : (n == n + (i + 1)) = false := by simp
      have heq : (fun j => j == n + (i + 1)) = fun j => j == n + 1 + i := by
        funext j
        rw [Nat.add_assoc, Nat.add_comm 1]
      rw [chosen, hnot, if_neg Bool.false_ne_true, List.nil_append, heq, ih]
      rfl

/-- The edits of the items of an ordering that start in a stretch; with `start` one of them starts with the stretch. -/
def itemEdits (d : Nat) (start : Bool) (its : List (List Token)) (ts : List Token) : List Edit :=
  ((Token.splitCommas d ts).drop (if start then 0 else 1)).filterMap (itemEdit? its)

variable {p e rest : Nest} {copies : List Nest} {its : List (List Token)} {item : List Token} {more : List (List Token)}
  {q : Query} {tail : List Cell} {as bs ts us : List Token} {t : Token} {d n : Nat} {name : SqlText} {start : Bool}
  {on : Nat → Bool}

theorem itemEdit?_list_nil (item : List Token) : itemEdit? [] item = none := by
  unfold itemEdit?
  cases bareName? item with
  | none => rfl
  | some x => rfl

theorem itemEdits_nil (d : Nat) (start : Bool) (ts : List Token) : itemEdits d start [] ts = [] := by
  rw [itemEdits, List.filterMap_eq_nil_iff]
  exact fun item _ => itemEdit?_list_nil item

theorem itemEdits_comma (h : t.isSymbolAt d .comma = true) (start : Bool) (its : List (List Token)) (ts : List Token) :
    itemEdits d start its (t :: ts) = itemEdits d true its ts := by
  rw [itemEdits, itemEdits, Nest.splitCommas_comma h]
  cases start <;> rfl

/-- A stretch that holds no comma is the front of an item. -/
theorem itemEdits_append (hts : ∀ t ∈ ts, t.isSymbolAt d .comma = false) (hus : Token.splitCommas d us = item :: more)
    (start : Bool) (its : List (List Token)) :
    itemEdits d start its (ts ++ us) =
      (if start then (itemEdit? its (ts ++ item)).toList else []) ++ itemEdits d false its us := by
  rw [itemEdits, itemEdits, Token.splitCommas_append_of_not hts hus, hus]
  cases start with
  | false => rfl
  | true =>
    simp only [if_pos, List.drop_zero, List.filterMap_cons]
    cases itemEdit? its (ts ++ item) <;> rfl

/-! ### The items of an ordering -/

/-- Whether stretches are the items of a select list. -/
structure Lists (d : Nat) (its : List (List Token)) (copies : List Nest) : Prop where
  reads : List.Forall₂ (fun item x => Reads d x item) its copies
  plain : ∀ x ∈ copies, x.isPlain = true
  listed : AreListed copies

theorem Lists.nil (d : Nat) : Lists d [] [] :=
  ⟨.nil, List.forall_mem_nil _, .nil⟩

/-- The expression of an alias is found in the tokens where it is in the nest. -/
theorem Lists.findSome? (h : Lists d its copies) (name : SqlText) :
    (its.findSome? (aliased? name) = none ∧ copies.findSome? (Nest.aliased? name) = none) ∨
      ∃ us e, its.findSome? (aliased? name) = some us ∧ copies.findSome? (Nest.aliased? name) = some e ∧ us ≠ [] ∧
        Reads d e us ∧ e.isProper = true := by
  obtain ⟨hreads, hplain, hlisted⟩ := h
  induction hreads with
  | nil => exact .inl ⟨rfl, rfl⟩
  | @cons item x its copies hx _ ih =>
    obtain ⟨hxplain, hplain⟩ := List.forall_mem_cons.1 hplain
    obtain ⟨⟨hproper, hkinds⟩, hlisted⟩ := List.forall_mem_cons.1 hlisted
    rw [List.findSome?_cons, List.findSome?_cons]
    rcases hx.aliased? hxplain name with ⟨hitem, hnest⟩ | ⟨us, e, hitem, hnest, hne, he⟩
    · rw [hitem, hnest]
      exact ih hplain hlisted
    · rw [hitem, hnest]
      exact .inr ⟨us, e, rfl, rfl, hne, he, (Nest.of_named? (Nest.aliased?_eq_some hnest).1 hproper hkinds).1⟩

/-- Nothing is left of an item where it ends. -/
theorem endsPiece_iff (h : Reads d rest us) (hp : rest.isPlain = true) (hus : Token.splitCommas d us = item :: more) :
    rest.endsPiece = true ↔ item = [] := by
  have hpieces := h.pieces hp
  rw [hus] at hpieces
  cases h with
  | nil =>
    obtain rfl : [] = item := (List.cons.inj hus).1
    exact ⟨fun _ => rfl, fun _ => rfl⟩
  | @leaf _ p t ts depth _ =>
    cases hcomma : t.toLexeme.isSymbol .comma with
    | true =>
      rw [Nest.splitCommas_comma (by rw [Nest.isSymbolAt_eq depth, hcomma])] at hus
      obtain rfl : [] = item := (List.cons.inj hus).1
      exact ⟨fun _ => rfl, fun _ => hcomma⟩
    | false =>
      rw [Nest.pieces, hcomma, if_neg Bool.false_ne_true] at hpieces
      obtain ⟨first, others, hfirst, -⟩ := p.exists_pieces
      rw [hfirst, List.modifyHead_cons, List.forall₂_cons] at hpieces
      rw [Nest.endsPiece, hcomma]
      refine ⟨fun h => (by cases h), ?_⟩
      rintro rfl
      cases hpieces.1.eq_nil
  | @group _ p r opening closing us vs left right openingDepth closingDepth inside rest =>
    rw [Nest.pieces] at hpieces
    obtain ⟨first, others, hfirst, -⟩ := r.exists_pieces
    rw [hfirst, List.modifyHead_cons, List.forall₂_cons] at hpieces
    refine ⟨fun h => (by cases h), ?_⟩
    rintro rfl
    cases hpieces.1.eq_nil
  | select => cases hp

/-- A token is the name of an item if nothing but a direction follows it. -/
theorem bareName?_cons (h : Reads d rest us) (hp : rest.isPlain = true) (hus : Token.splitCommas d us = item :: more)
    (t : Token) : bareName? (t :: item) = if rest.endsName then t.kind.name?.map (t, ·) else none := by
  have hends := endsPiece_iff h hp hus
  have hlong : ∀ {u v : Token} {vs : List Token}, bareName? (t :: u :: v :: vs) = none := fun {u v vs} => rfl
  cases h with
  | nil =>
    obtain rfl := hends.1 rfl
    rfl
  | @leaf _ p u ts depth hrest =>
    cases hcomma : u.toLexeme.isSymbol .comma with
    | true =>
      obtain rfl := hends.1 hcomma
      rw [Nest.endsName, hcomma]
      rfl
    | false =>
      obtain ⟨piece, others, hsplit⟩ := List.exists_cons_of_ne_nil (Nest.splitCommas_ne_nil d ts)
      have hone : ∀ v ∈ [u], v.isSymbolAt d .comma = false :=
        List.forall_mem_singleton.2 (by rw [Nest.isSymbolAt_eq depth, hcomma])
      rw [← List.singleton_append, Token.splitCommas_append_of_not hone hsplit] at hus
      obtain rfl : u :: piece = item := (List.cons.inj hus).1
      have hpiece := endsPiece_iff hrest hp hsplit
      rw [Nest.endsName, hcomma, Bool.false_or]
      cases piece with
      | nil =>
        rw [hpiece.2 rfl, Bool.and_true, bareName?]
        by_cases hdirection : u.isKeyword .ASC = true ∨ u.isKeyword .DESC = true
        · have hu : u.toLexeme.isDirection = true := by
            rw [Lexeme.isDirection, Bool.or_eq_true]
            exact hdirection
          rw [if_pos hdirection, hu, if_pos rfl]
        · have hu : u.toLexeme.isDirection = false := by
            rw [Bool.eq_false_iff, Ne, Lexeme.isDirection, Bool.or_eq_true]
            exact hdirection
          rw [if_neg hdirection, hu, if_neg Bool.false_ne_true]
      | cons v vs =>
        have hnot : p.endsPiece = false := Bool.eq_false_iff.2 fun h => by cases hpiece.1 h
        rw [hnot, Bool.and_false, if_neg Bool.false_ne_true, hlong]
  | @group _ p r opening closing us vs left right openingDepth closingDepth inside hrest =>
    obtain ⟨piece, others, hsplit⟩ := List.exists_cons_of_ne_nil (Nest.splitCommas_ne_nil d vs)
    have hall : opening :: (us ++ closing :: vs) = (opening :: (us ++ [closing])) ++ vs := by simp
    rw [hall, Token.splitCommas_append_of_not (Nest.not_comma_of_group inside left right) hsplit] at hus
    obtain rfl : opening :: (us ++ [closing]) ++ piece = item := (List.cons.inj hus).1
    have hends : (Nest.group opening.toLexeme p closing.toLexeme r).endsName = false := rfl
    rw [hends, if_neg Bool.false_ne_true]
    cases us with
    | nil => rfl
    | cons u us => rfl
  | select => cases hp

/-- The edit of an item that starts with a token writes what the nest has in its place. -/
theorem itemEdit?_cons (hl : Lists d its copies) (h : Reads d rest us) (hp : rest.isPlain = true)
    (hus : Token.splitCommas d us = item :: more) (t : Token) :
    (itemEdit? its (t :: item) = none ∧ (if rest.endsName then Nest.copy? copies t.toLexeme else none) = none) ∨
      ∃ vs e, itemEdit? its (t :: item) = some ⟨t.span, Token.spell vs⟩ ∧
        (if rest.endsName then Nest.copy? copies t.toLexeme else none) = some (e.regap t.gap) ∧ vs ≠ [] ∧ Reads d e vs := by
  unfold itemEdit? Nest.copy?
  rw [bareName?_cons h hp hus]
  cases rest.endsName with
  | false => exact .inl ⟨rfl, rfl⟩
  | true =>
    cases hname : t.kind.name? with
    | none => exact .inl ⟨rfl, rfl⟩
    | some name =>
      rcases hl.findSome? name with ⟨hits, hcopies⟩ | ⟨vs, e, hits, hcopies, hne, he, hproper⟩
      · refine .inl ⟨?_, ?_⟩
        · simp [hits]
        · simp [hcopies]
      · have hcopy := he.canCopy hproper name
        cases hcopied : Nest.isCopied name e with
        | false =>
          rw [hcopied] at hcopy
          refine .inl ⟨?_, ?_⟩
          · simp [hits, hcopy]
          · simp [hcopies, hcopied]
        | true =>
          rw [hcopied] at hcopy
          refine .inr ⟨vs, e, ?_, ?_, hne, he⟩
          · simp [hits, hcopy]
          · simp [hcopies, hcopied]

theorem itemEdit?_of_name (h : t.kind.name? = none) (its : List (List Token)) (us : List Token) :
    itemEdit? its (t :: us) = none := by
  have hbare : bareName? (t :: us) = none := by
    rcases us with _ | ⟨u, _ | ⟨v, us⟩⟩
    · simp [bareName?, h]
    · simp [bareName?, h]
    · rfl
  rw [itemEdit?, hbare]
  rfl

/-! ### Cells -/

/-- The cells of a nest. -/
def Nest.cells (p : Nest) : List Cell :=
  p.lexemes.flatMap Lexeme.cells

theorem cells_eq (ts : List Token) : Token.cells ts = (ts.map (·.toLexeme)).flatMap Lexeme.cells := by
  rw [List.flatMap_map]
  rfl

/-- A copy starts behind the gap of the name. -/
theorem cells_regap (h : Reads d e us) (hne : us ≠ []) (g : SqlText) :
    (e.regap g).cells = Cell.ofGap g ++ Token.stretch us := by
  obtain ⟨u, us, rfl⟩ := List.exists_cons_of_ne_nil hne
  rw [Nest.cells, Nest.lexemes_regap, ← h.lexemes, List.map_cons, List.modifyHead_cons, List.flatMap_cons, ← cells_eq,
    Lexeme.cells, List.append_assoc]
  rfl

theorem cells_append (h : e.isPlain = true) (p : Nest) : (e.append p).cells = e.cells ++ p.cells := by
  rw [Nest.cells, Nest.lexemes_append h, List.flatMap_append]
  rfl

theorem cells_leaf (t : Token) (p : Nest) : (Nest.leaf t.toLexeme p).cells = Token.cells [t] ++ p.cells := by
  simp [Nest.cells, Nest.lexemes, cells_eq]

theorem cells_group (opening closing : Token) (p r : Nest) :
    (Nest.group opening.toLexeme p closing.toLexeme r).cells =
      Token.cells [opening] ++ (p.cells ++ (Token.cells [closing] ++ r.cells)) := by
  simp [Nest.cells, Nest.lexemes, Lexeme.cells, Token.cell]

theorem cells_select (t : Token) (ms ws : List Token) (list clauses items : Nest) :
    (Nest.select t.toLexeme (ms.map (·.toLexeme)) list clauses (ws.map (·.toLexeme)) items).cells =
      Token.cells (t :: ms) ++ (list.cells ++ (clauses.cells ++ (Token.cells ws ++ items.cells))) := by
  simp [Nest.cells, Nest.lexemes, cells_eq]

/-- Any cells may be replaced. -/
def Replaced : Swap :=
  fun _ D _ _ => D ≠ []

/-- A name makes room for an expression. -/
theorem patches_name (hread : q.IsRead tail) (hq : q.tokens = as ++ t :: bs) (us : List Token) :
    Patches Replaced (Token.cells bs ++ tail) (Token.cells as) (Token.cells [t]) [⟨t.span, Token.spell us⟩]
      (Cell.ofGap t.gap ++ Token.stretch us) := by
  obtain ⟨-, hstart, hstop⟩ := hread.split_one hq
  have hone : Patches Replaced (Token.cells bs ++ tail) (Token.cells as ++ Cell.ofGap t.gap) [t.cell] _
    (Token.stretch us) := .one (List.cons_ne_nil _ _)
  rw [← hstart, ← hstop, Token.spell_stretch] at hone
  rw [Token.cells_cons, Token.cells_nil]
  exact hone.behind

/-! ### All edits -/

theorem among_cons_of_not (h : t.isKeyword .SELECT = false) (stop : Nat) (ts : List Token) :
    Scope.among stop (t :: ts) = Scope.among stop ts := by
  rw [Scope.among, h, if_neg Bool.false_ne_true]

theorem among_append_of_not (h : ∀ t ∈ us, t.isKeyword .SELECT = false) (stop : Nat) (ts : List Token) :
    Scope.among stop (us ++ ts) = Scope.among stop ts := by
  induction us with
  | nil => rfl
  | cons u us ih =>
    obtain ⟨hu, hus⟩ := List.forall_mem_cons.1 h
    rw [List.cons_append, among_cons_of_not hu, ih hus]

/-- What is written for a token in an ordering, and the edit that writes it. -/
theorem exists_itemEdits (hl : Lists d its copies) (h : Reads d p ts) (hp : p.isPlain = true ∨ its = []) (ht : t.depth = d)
    (start : Bool) :
    ∃ eds, itemEdits d start its (t :: ts) = eds ++ itemEdits d (t.toLexeme.isSymbol .comma) its ts ∧
      ((eds = [] ∧ (if start && p.endsName then Nest.copy? copies t.toLexeme else none) = none) ∨
        ∃ us e, eds = [⟨t.span, Token.spell us⟩] ∧
          (if start && p.endsName then Nest.copy? copies t.toLexeme else none) = some (e.regap t.gap) ∧ us ≠ [] ∧
          Reads d e us) := by
  rcases hp with hp | rfl
  · cases hcomma : t.toLexeme.isSymbol .comma with
    | true =>
      refine ⟨[], itemEdits_comma (by rw [Nest.isSymbolAt_eq ht, hcomma]) start its ts, .inl ⟨rfl, ?_⟩⟩
      have hnone : Nest.copy? copies t.toLexeme = none := by
        cases hcopy : Nest.copy? copies t.toLexeme with
        | none => rfl
        | some e =>
          obtain ⟨name, -, -, hname, -⟩ := Nest.exists_of_copy? hcopy
          rw [Lexeme.isSymbol_iff.1 hcomma] at hname
          cases hname
      rw [hnone, ite_self]
    | false =>
      obtain ⟨item, more, hsplit⟩ := List.exists_cons_of_ne_nil (Nest.splitCommas_ne_nil d ts)
      have hone : ∀ u ∈ [t], u.isSymbolAt d .comma = false :=
        List.forall_mem_singleton.2 (by rw [Nest.isSymbolAt_eq ht, hcomma])
      refine ⟨_, itemEdits_append hone hsplit start its, ?_⟩
      cases start with
      | false => exact .inl ⟨rfl, rfl⟩
      | true =>
        rw [if_pos rfl, Bool.true_and]
        rcases itemEdit?_cons hl h hp hsplit t with ⟨hnone, hcopy⟩ | ⟨us, e, hedit, hcopy, hne, he⟩
        · exact .inl ⟨by rw [List.singleton_append, hnone]; rfl, hcopy⟩
        · exact .inr ⟨us, e, by rw [List.singleton_append, hedit]; rfl, hcopy, hne, he⟩
  · obtain rfl : copies = [] := by
      cases hl.reads
      rfl
    refine ⟨[], ?_, .inl ⟨rfl, ?_⟩⟩
    · rw [itemEdits_nil, itemEdits_nil]
      rfl
    · rw [Nest.copy?_nil, ite_self]

/-- **The edits of the chosen scopes make the translation.**  In the ordering around a nest the items are those that start
in it. -/
theorem exists_edits (h : Reads d p ts) (hp : p.isProper = true) (hl : Lists d its copies) (hread : q.IsRead tail)
    (hq : q.tokens = as ++ (ts ++ bs))
    (hends : p.isPlain = true ∨ (its = [] ∧ ∀ u ∈ bs.head?, Scope.reaches d u = false)) (on : Nat → Bool) (start : Bool)
    (n : Nat) :
    ∃ ss es, Scope.among q.stop (ts ++ bs) = ss ++ Scope.among q.stop bs ∧ ss.length = p.selects ∧
      Patches Replaced (Token.cells bs ++ tail) (Token.cells as) (Token.cells ts) es
        (Nest.spelled on copies start n p).cells ∧
      (itemEdits d start its ts ++ chosen on n ss).Perm es := by
  induction h generalizing its copies as bs start n with
  | nil =>
    refine ⟨[], [], rfl, rfl, .nil, ?_⟩
    cases start <;> exact .refl _
  | @leaf d p t ts depth rest ih =>
    obtain ⟨hfree, hrest⟩ := Nest.isProper_leaf_iff.1 hp
    have hselect : t.isKeyword .SELECT = false := by
      obtain ⟨-, -, -, -, hselect, -⟩ := Lexeme.isFree_iff.1 hfree
      simpa [Token.isKeyword, Kind.isKeyword] using hselect
    have hbehind : q.tokens = (as ++ [t]) ++ (ts ++ bs) := by rw [hq]; simp
    obtain ⟨ss, es, hss, hlength, hpatches, hperm⟩ := ih hrest hl hbehind hends (t.toLexeme.isSymbol .comma) n
    rw [Token.cells_append] at hpatches
    obtain ⟨eds, heds, hcases⟩ := exists_itemEdits hl rest (hends.imp_right And.left) depth start
    refine ⟨ss, eds ++ es, ?_, hlength, ?_, ?_⟩
    · rw [List.cons_append, among_cons_of_not hselect, hss]
    · rw [Nest.spelled, ← List.singleton_append, Token.cells_append]
      rcases hcases with ⟨rfl, hnone⟩ | ⟨us, e, rfl, hcopy, hne, he⟩
      · rw [hnone, Nest.written, cells_leaf]
        exact hpatches.behind
      · have hplain : (e.regap t.gap).isPlain = true := by
          rcases Nest.copied_cases copies start t.toLexeme p with ⟨x, hx, -, -, hw⟩ | hw
          · obtain rfl := Option.some.inj (hcopy.symm.trans hw)
            exact Nest.isPlain_of_selects (Nest.selects_of_copy? hx)
          · cases hcopy.symm.trans hw
        rw [hcopy, Nest.written, cells_append hplain, cells_regap he hne]
        refine .append ?_ hpatches
        rw [← List.append_assoc, ← Token.cells_append]
        exact patches_name hread hq us
    · rw [heds, List.append_assoc]
      exact hperm.append_left eds
  | @group d p r opening closing us vs left right openingDepth closingDepth inside rest ihInside ih =>
    obtain ⟨-, -, hinside, hrest⟩ := Nest.isProper_group_iff.1 hp
    have hnot : ∀ {u : Token} {s : Symbol}, u.kind = .symbol s → u.isKeyword .SELECT = false := by
      intro u s hu
      rw [Token.isKeyword, hu]
      rfl
    have hfront : q.tokens = (as ++ [opening]) ++ (us ++ closing :: (vs ++ bs)) := by rw [hq]; simp
    have hback : q.tokens = (as ++ ([opening] ++ (us ++ [closing]))) ++ (vs ++ bs) := by rw [hq]; simp
    have hclosing : ∀ u ∈ (closing :: (vs ++ bs)).head?, Scope.reaches (d + 1) u = false := by
      intro u hu
      obtain rfl : closing = u := by simpa using hu
      simp [Scope.reaches, closingDepth]
    obtain ⟨ss, es, hss, hlength, hpatches, hperm⟩ := ihInside hinside (.nil (d + 1)) hfront (.inr ⟨rfl, hclosing⟩) false n
    obtain ⟨ss', es', hss', hlength', hpatches', hperm'⟩ := ih hrest hl hback hends false (n + p.selects)
    rw [itemEdits_nil, List.nil_append] at hperm
    have hitems : itemEdits d start its (opening :: (us ++ closing :: vs)) = itemEdits d false its vs := by
      obtain ⟨item, more, hsplit⟩ := List.exists_cons_of_ne_nil (Nest.splitCommas_ne_nil d vs)
      have hall : opening :: (us ++ closing :: vs) = (opening :: (us ++ [closing])) ++ vs := by simp
      have hnone : opening.kind.name? = none := by rw [left]; rfl
      rw [hall, itemEdits_append (Nest.not_comma_of_group inside left right) hsplit, List.cons_append,
        itemEdit?_of_name hnone]
      cases start <;> rfl
    refine ⟨ss ++ ss', es ++ es', ?_, ?_, ?_, ?_⟩
    · have hall : opening :: (us ++ closing :: vs) ++ bs = opening :: (us ++ closing :: (vs ++ bs)) := by simp
      rw [hall, among_cons_of_not (hnot left), hss, among_cons_of_not (hnot right), hss', List.append_assoc]
    · rw [List.length_append, hlength, hlength']
      rfl
    · have hall : opening :: (us ++ closing :: vs) = [opening] ++ (us ++ ([closing] ++ vs)) := by simp
      rw [Nest.spelled, cells_group, hall, Token.cells_append, Token.cells_append, Token.cells_append]
      refine Patches.behind (.append ?_ (Patches.behind ?_))
      · simpa using hpatches
      · simpa using hpatches'
    · rw [hitems, chosen_append, hlength]
      calc (itemEdits d false its vs ++ (chosen on n ss ++ chosen on (n + p.selects) ss')).Perm
            (chosen on n ss ++ (itemEdits d false its vs ++ chosen on (n + p.selects) ss')) :=
          List.perm_append_comm_assoc ..
        _ |>.Perm (es ++ es') := hperm.append hperm'
  | @select d list clauses items t ms ls cs ws os depth modifiersDepth wordsDepth reads readsClauses readsItems ih ihClauses
      ihItems =>
    obtain ⟨rfl, hbs⟩ := hends.resolve_left (by simp [Nest.isPlain])
    obtain rfl : copies = [] := by
      cases hl.reads
      rfl
    obtain ⟨hselect, hlist, hclauses, hitems⟩ := Nest.isProper_select_iff.1 hp
    have hword : t.isKeyword .SELECT = true := hselect.word
    have hfree : ∀ {us : List Token}, (∀ l ∈ us.map (·.toLexeme), l.isFree = true) → ∀ u ∈ us, u.isKeyword .SELECT = false := by
      intro us hus u hu
      obtain ⟨-, -, -, -, hne, -⟩ := Lexeme.isFree_iff.1 (hus _ (List.mem_map_of_mem hu))
      simpa [Token.isKeyword, Kind.isKeyword] using hne
    have hms := hfree fun l hl => (Nest.isFree_of_areModifiers hselect.modifiers l hl).1
    have hws := hfree (Nest.isFree_of_areWords hselect.words)
    -- the list, the clauses and the ordering, each with what stands before and behind it
    have hq₁ : q.tokens = (as ++ t :: ms) ++ (ls ++ (cs ++ (ws ++ (os ++ bs)))) := by rw [hq]; simp
    have hq₂ : q.tokens = (as ++ t :: (ms ++ ls)) ++ (cs ++ (ws ++ (os ++ bs))) := by rw [hq]; simp
    have hq₃ : q.tokens = (as ++ t :: (ms ++ (ls ++ (cs ++ ws)))) ++ (os ++ bs) := by rw [hq]; simp
    have hlists : Lists d (if on n then Token.splitCommas d ls else []) (if on n then list.pieces else []) := by
      split
      · exact ⟨reads.pieces hselect.listPlain, Nest.isPlain_pieces hselect.listPlain,
          Nest.areListed_pieces hlist hselect.listKinds⟩
      · exact .nil d
    obtain ⟨ss₁, es₁, hss₁, hlength₁, hpatches₁, hperm₁⟩ := ih hlist (.nil d) hq₁ (.inl hselect.listPlain) false (n + 1)
    obtain ⟨ss₂, es₂, hss₂, hlength₂, hpatches₂, hperm₂⟩ :=
      ihClauses hclauses (.nil d) hq₂ (.inl hselect.clausesPlain) false (n + 1 + list.selects)
    obtain ⟨ss₃, es₃, hss₃, hlength₃, hpatches₃, hperm₃⟩ :=
      ihItems hitems hlists hq₃ (.inl hselect.itemsPlain) true (n + 1 + list.selects + clauses.selects)
    rw [itemEdits_nil, List.nil_append] at hperm₁ hperm₂
    have hedits := Nest.scopeEdits_eq hselect hlist hclauses hitems depth modifiersDepth wordsDepth reads readsClauses
      readsItems hbs q.stop
    generalize hs : Scope.ofSelect q.stop t (ms ++ (ls ++ (cs ++ (ws ++ os))) ++ bs) = s at hedits
    have howns : itemEdits d true (if on n then Token.splitCommas d ls else []) os = if on n then scopeEdits s else [] := by
      split
      · rw [hedits]
        rfl
      · exact itemEdits_nil d true os
    refine ⟨s :: (ss₁ ++ (ss₂ ++ ss₃)), es₁ ++ (es₂ ++ es₃), ?_, ?_, ?_, ?_⟩
    · rw [List.cons_append, Scope.among, hword, if_pos rfl, hs]
      have hall : ms ++ (ls ++ (cs ++ (ws ++ os))) ++ bs = ms ++ (ls ++ (cs ++ (ws ++ (os ++ bs)))) := by simp
      rw [hall, among_append_of_not hms, hss₁, hss₂, among_append_of_not hws, hss₃]
      simp
    · simp only [List.length_cons, List.length_append, hlength₁, hlength₂, hlength₃, Nest.selects]
      omega
    · have hall : t :: (ms ++ (ls ++ (cs ++ (ws ++ os)))) = (t :: ms) ++ (ls ++ (cs ++ (ws ++ os))) := by simp
      rw [Nest.spelled, cells_select, hall, Token.cells_append, Token.cells_append, Token.cells_append, Token.cells_append]
      refine Patches.behind (.append ?_ (.append ?_ (Patches.behind ?_)))
      · simpa using hpatches₁
      · simpa using hpatches₂
      · simpa using hpatches₃
    · rw [itemEdits_nil, List.nil_append, chosen, chosen_append, chosen_append, hlength₁, hlength₂, ← howns]
      -- the edits of the ordering come first in the set, and stand behind the others in the text
      refine (List.perm_append_comm_assoc ..).trans ((hperm₁.append_right _).trans (List.Perm.append_left _ ?_))
      exact (List.perm_append_comm_assoc ..).trans ((hperm₂.append_right _).trans (hperm₃.append_left _))

end OrderAlias

end JetAdapter
