import JetAdapter.Proofs.SelectionReadings
import Mathlib.Data.List.Sublists

/-!
# Scopes of selections

The scope around a call that starts what a `SELECT` selects.  Its parts are those of the phrase behind the `SELECT`
(`Selected`), so the rule finds a reason to refuse it just where the phrase gives one, and otherwise writes the phrase
with the aggregate taken over a table (`Selected.scopeEdit_cases`).
-/

namespace JetAdapter.Distinct

open Cell (Sound Settles Replaces Writable spell ofGap)
open Token (Reads Level stretch)
open Phrase (joined parted? supported? emulated?)

/-! ### Ends of selections -/

/-- Whether a token of the kind may stand behind a selection, where it ends its scope. -/
def isEnding : Cell → Bool
  | .token (.keyword .UNION) _ | .token (.symbol .semicolon) _ => true
  | _ => false

variable {q : Query} {tail : List Cell} {p body behind argument named : Phrase} {l l' : Leaf} {modifiers : List Leaf}
  {word : SqlText} {d : Nat} {ts us vs ms bs front back operand : List Token}
  {t select opening closing name distinct : Token} {cs : List Cell}

theorem isEnding_of_isFree (h : l.isFree = true) : isEnding l.cell = false := by
  unfold isEnding Leaf.cell
  split
  · next h' => simp [Leaf.isFree, Leaf.isKeyword, Kind.isKeyword, (Cell.token.inj h').1] at h
  · next h' => simp [Leaf.isFree, Leaf.isSymbol, Kind.isSymbol, (Cell.token.inj h').1] at h
  · rfl

theorem isEnding_of_modifies (h : Modifies l.kind) : isEnding l.cell = false := by
  unfold isEnding Leaf.cell
  rcases h with h | h | h | ⟨n, h⟩ | ⟨x, h⟩ <;> rw [h]

theorem isEnding_selectionCells (hm : areModifiers modifiers = true) (h : ∀ c ∈ cs, isEnding c = false) :
    ∀ c ∈ selectionCells word modifiers cs, isEnding c = false := by
  rw [selectionCells, List.forall_mem_cons, List.forall_mem_append, List.forall_mem_map]
  exact ⟨rfl, fun l hl => isEnding_of_modifies (modifies_of_areModifiers hm l hl), h⟩

/-- A proper phrase does not end a selection. -/
theorem Phrase.isEnding_cells (h : p.isProper = true) : ∀ c ∈ p.cells, isEnding c = false := by
  induction p with
  | nil => exact nofun
  | leaf l rest ih =>
    rw [isProper, Bool.and_eq_true] at h
    exact List.forall_mem_cons.2 ⟨isEnding_of_isFree h.1, ih h.2⟩
  | comma rest ih => exact List.forall_mem_cons.2 ⟨rfl, ih h⟩
  | group inside rest ihInside ih =>
    rw [isProper, Bool.and_eq_true] at h
    rw [cells, List.forall_mem_cons, List.forall_mem_append, List.forall_mem_cons]
    exact ⟨rfl, ihInside h.1, rfl, ih h.2⟩
  | select word modifiers body rest ihBody ih =>
    simp only [isProper, Bool.and_eq_true] at h
    rw [cells, List.forall_mem_cons, List.forall_mem_append, List.forall_mem_cons]
    exact ⟨rfl, isEnding_selectionCells h.1.1.1.1 (ihBody h.1.2), rfl, ih h.2⟩

/-- The last cell of a selection is no `TOP`. -/
theorem getLast?_selectionCells (hm : areModifiers modifiers = true)
    (h : ∀ w, cs.getLast? ≠ some (.token (.keyword .TOP) w)) (w : SqlText) :
    (selectionCells word modifiers cs).getLast? ≠ some (.token (.keyword .TOP) w) := by
  have hlast : ∀ {l : Leaf}, l.kind ≠ .keyword .TOP → l.cell ≠ .token (.keyword .TOP) w :=
    fun hne heq => hne (Cell.token.inj heq).1
  rw [selectionCells, List.getLast?_cons, List.getLast?_append]
  cases hcs : cs.getLast? with
  | some c =>
    have := h w
    rw [hcs] at this
    simpa using this
  | none =>
    have hnumber : ∀ {n : Leaf}, n.isNumber = true → n.kind ≠ .keyword .TOP := by
      intro n hn heq
      rcases kind_of_isNumber hn with ⟨x, hx⟩ | ⟨x, hx⟩ <;> rw [hx] at heq <;> cases heq
    unfold areModifiers at hm
    split at hm
    · simp
    · next quantifier =>
      have hne : quantifier.kind ≠ .keyword .TOP := by
        intro heq
        simp [Leaf.isQuantifier, Leaf.isKeyword, Kind.isKeyword, heq] at hm
      simpa using hlast hne
    · rw [Bool.and_eq_true] at hm
      simpa using hlast (hnumber hm.2)
    · rw [Bool.and_eq_true, Bool.and_eq_true] at hm
      simpa using hlast (hnumber hm.2.2)
    · cases hm

theorem Phrase.getLast?_cells (h : p.isProper = true) (w : SqlText) :
    p.cells.getLast? ≠ some (.token (.keyword .TOP) w) := by
  have hgroup : ∀ {cs ds : List Cell}, ds.getLast? ≠ some (.token (.keyword .TOP) w) →
      (Cell.sign '(' :: (cs ++ Cell.sign ')' :: ds)).getLast? ≠ some (.token (.keyword .TOP) w) := by
    intro cs ds hds
    rw [List.getLast?_cons, List.getLast?_append, List.getLast?_cons]
    cases hlast : ds.getLast? with
    | none => exact fun h => by cases h
    | some c =>
      rw [hlast] at hds
      simpa using hds
  induction p with
  | nil => exact fun h => by cases h
  | leaf l rest ih =>
    rw [isProper, Bool.and_eq_true] at h
    have hrest := ih h.2
    rw [cells, List.getLast?_cons]
    cases hlast : rest.cells.getLast? with
    | none =>
      intro heq
      have hkind := (Cell.token.inj (Option.some.inj heq)).1
      simp [Leaf.isFree, Leaf.isKeyword, Kind.isKeyword, hkind] at h
    | some c =>
      rw [hlast] at hrest
      simpa using hrest
  | comma rest ih =>
    have hrest := ih h
    rw [cells, List.getLast?_cons]
    cases hlast : rest.cells.getLast? with
    | none => exact fun h => by cases h
    | some c =>
      rw [hlast] at hrest
      simpa using hrest
  | group inside rest _ ih =>
    rw [isProper, Bool.and_eq_true] at h
    exact hgroup (ih h.2)
  | select word modifiers body rest _ ih =>
    rw [isProper, Bool.and_eq_true] at h
    exact hgroup (ih h.2)

/-- What is read as cells that do not end with a `TOP` does not end with one. -/
theorem counted_append (h : ∀ w, cs.getLast? ≠ some (.token (.keyword .TOP) w)) (hts : Reads d cs ts)
    (hfront : Counted front) : Counted (front ++ ts) := by
  intro t ht
  rw [List.getLast?_append] at ht
  cases hlast : ts.getLast? with
  | none =>
    rw [hlast] at ht
    exact hfront t ht
  | some u =>
    rw [hlast] at ht
    obtain rfl : u = t := Option.some.inj ht
    have hcs : cs.getLast? = some u.cell := by
      rw [← hts.cells, List.getLast?_map, hlast]
      rfl
    refine Bool.eq_false_iff.2 fun htop => h u.text ?_
    have hkind : u.kind = .keyword .TOP := Kind.isKeyword_iff.1 htop
    rw [hcs, Token.cell, hkind]

/-! ### The scope of a selection -/

/-- Whether a selection is a part of a query: what stands before and behind it, and how its parts are read. -/
structure Selected (q : Query) (front : List Token) (select : Token) (ms bs back : List Token) (d : Nat)
    (modifiers : List Leaf) (body : Phrase) : Prop where
  tokens : q.tokens = front ++ select :: (ms ++ (bs ++ back))
  word : select.isKeyword .SELECT = true
  depth : select.depth = d
  modify : areModifiers modifiers = true
  readsModifiers : Reads d (modifiers.map Leaf.cell) ms
  readsBody : Reads d body.cells bs
  isProper : body.isProper = true
  ends : ∀ t ∈ back.head?, (t.isSymbol .semicolon = true ∧ t.depth = d) ∨ (t.isSymbol .rightParen = true ∧ t.depth < d)

namespace Selected

/-- The scope of the `SELECT`. -/
theorem exists_scope (h : Selected q front select ms bs back d modifiers body) : ∃ stop s,
    s = Scope.ofSelect q.stop select (ms ++ (bs ++ back)) ∧ s.select = select ∧ s.body = ms ++ bs ∧
      s.modifiers = (ms ++ bs).take (Scope.modifierCount (ms ++ bs)) ∧
      s.list = (Clause.cut d stop (ms ++ bs)).1.drop (Scope.modifierCount (ms ++ bs)) ∧
      s.clauses = (Clause.cut d stop (ms ++ bs)).2 := by
  have hin : ∀ t ∈ ms ++ bs, Scope.reaches select.depth t = true := by
    have hle : ∀ t ∈ ms ++ bs, d ≤ t.depth := by
      rw [List.forall_mem_append]
      exact ⟨h.readsModifiers.level.le, h.readsBody.level.le⟩
    have hnot : ∀ t ∈ ms ++ bs, t.isKeyword .UNION = false ∧ t.isSymbol .semicolon = false := by
      rw [List.forall_mem_append]
      refine ⟨fun t ht => ?_, fun t ht => ?_⟩
      · obtain ⟨-, -, hsemi, -, hunion, -⟩ := (modifies_of_reads h.modify h.readsModifiers t ht).plain
        exact ⟨hunion, hsemi⟩
      · have hcell := Phrase.isEnding_cells h.isProper t.cell (by
          rw [← h.readsBody.cells]
          exact List.mem_map_of_mem ht)
        unfold isEnding Token.cell at hcell
        rw [Token.isKeyword, Token.isSymbol, Kind.isKeyword, Kind.isSymbol, decide_eq_false_iff_not,
          decide_eq_false_iff_not]
        refine ⟨fun hk => ?_, fun hk => ?_⟩ <;> rw [hk] at hcell <;> cases hcell
    intro t ht
    simp [Scope.reaches, h.depth, hle t ht, hnot t ht]
  have hout : ∀ t ∈ back.head?, Scope.reaches select.depth t = false := by
    intro t ht
    rw [h.depth]
    rcases h.ends t ht with ⟨hsemi, hd⟩ | ⟨-, hd⟩
    · simp [Scope.reaches, hd, hsemi]
    · have hnot : ¬ d ≤ t.depth := by omega
      simp [Scope.reaches, hnot]
  have hbody : (ms ++ (bs ++ back)).takeWhile (Scope.reaches select.depth) = ms ++ bs := by
    have hback : back.head?.any (Scope.reaches select.depth) = false := by simpa [Option.any_eq_false] using hout
    rw [← List.append_assoc, (takeWhile_append_of_head? hin hback).1]
  refine ⟨Token.startOr q.stop ((ms ++ (bs ++ back)).dropWhile (Scope.reaches select.depth)), _, rfl, rfl, hbody,
    ?_, ?_, ?_⟩
  · simp only [Scope.ofSelect, hbody]
  · rw [← h.depth]
    simp only [Scope.ofSelect, hbody]
  · rw [← h.depth]
    simp only [Scope.ofSelect, hbody]

end Selected

/-- The scopes of a stretch are behind those that start before it. -/
theorem exists_among_append (stop : Nat) (as bs : List Token) :
    ∃ ss, Scope.among stop (as ++ bs) = ss ++ Scope.among stop bs := by
  induction as with
  | nil => exact ⟨[], rfl⟩
  | cons t as ih =>
    obtain ⟨ss, hss⟩ := ih
    rw [List.cons_append, Scope.among]
    split
    · exact ⟨_ :: ss, by rw [hss]; rfl⟩
    · exact ⟨ss, hss⟩

/-- The list of a scope stands behind its `SELECT`. -/
theorem mem_of_mem_list {s : Scope} {after : List Token} {stop : Nat} (hs : s = Scope.ofSelect stop select after)
    (ht : t ∈ s.list) : t ∈ after := by
  subst hs
  have hmem := List.mem_of_mem_drop ht
  obtain ⟨vs, hvs, -⟩ := Clause.cut_fst select.depth
    (Token.startOr stop (after.dropWhile (Scope.reaches select.depth))) (after.takeWhile (Scope.reaches select.depth))
  have hbody : t ∈ after.takeWhile (Scope.reaches select.depth) := by
    rw [hvs]
    exact List.mem_append_left _ hmem
  exact (List.takeWhile_prefix _).subset hbody

namespace Selected

/-- What a `SELECT` selects first is in the list of no other scope inside. -/
theorem scopeOfListed?_eq (hread : q.IsRead tail) (h : Selected q front select ms (name :: bs) back d modifiers body)
    {s : Scope} (hs : s = Scope.ofSelect q.stop select (ms ++ (name :: bs ++ back))) (hmem : name ∈ s.list)
    (hname : name.isKeyword .SELECT = false) : q.scopeOfListed? name = some s := by
  obtain ⟨ss, hss⟩ := exists_among_append q.stop front (select :: (ms ++ (name :: bs ++ back)))
  have hscopes : q.scopes = ss ++ s :: Scope.among q.stop (ms ++ (name :: bs ++ back)) := by
    rw [Query.scopes, h.tokens, hss, Scope.among, if_pos h.word, hs]
  have hpairs := hread.pairwise_start
  rw [h.tokens, List.pairwise_append, List.pairwise_cons] at hpairs
  have hinner : ∀ s' ∈ Scope.among q.stop (ms ++ (name :: bs ++ back)), name ∉ s'.list := by
    intro s' hs' hlist
    obtain ⟨as, after, hafter, heq, hselect⟩ := Scope.mem_among hs'
    have hin := mem_of_mem_list heq hlist
    have hpairs := hpairs.2.1.2
    have hlt : s'.select.start < name.start := by
      rw [hafter, List.pairwise_append, List.pairwise_cons] at hpairs
      exact hpairs.2.1.1 name hin
    have hmem : s'.select ∈ ms ++ (name :: (bs ++ back)) := by
      have := List.mem_append_right as (List.mem_cons_self (a := s'.select) (l := after))
      rw [← hafter] at this
      exact this
    rw [List.cons_append, List.pairwise_append, List.pairwise_cons] at hpairs
    rcases List.mem_append.1 hmem with hms | hrest
    · rw [(modifies_of_reads h.modify h.readsModifiers _ hms).plain.2.2.2.1] at hselect
      cases hselect
    · rcases List.mem_cons.1 hrest with heq | hrest
      · rw [heq, hname] at hselect
        cases hselect
      · have := hpairs.2.1.1 _ hrest
        omega
  rw [Query.scopeOfListed?, hscopes, List.reverse_append, List.reverse_cons, List.append_assoc, List.find?_append]
  have hnone : (Scope.among q.stop (ms ++ (name :: bs ++ back))).reverse.find? (fun s => decide (name ∈ s.list))
      = none := by
    rw [List.find?_eq_none]
    intro s' hs'
    simpa using hinner s' (List.mem_reverse.1 hs')
  rw [hnone, Option.none_or, List.singleton_append, List.find?_cons_of_pos (by simpa using hmem)]

end Selected

/-! ### Calls in place -/

/-- Whether a call is made of these tokens of a phrase: a name, and in parentheses a word and an argument. -/
structure ReadsCall (d : Nat) (l l' : Leaf) (argument : Phrase) (c : Call) (distinct : Token) (operand : List Token) :
    Prop where
  name : c.name.cell = l.cell
  depth : c.name.depth = d
  opening : c.opening.cell = Cell.sign '('
  openingDepth : c.opening.depth = d
  args : c.args = distinct :: operand
  level : Level (d + 1) c.args
  word : distinct.cell = l'.cell
  operand : Reads (d + 1) argument.cells operand
  closing : c.closing.cell = Cell.sign ')'
  closingDepth : c.closing.depth = d

theorem reads_call (h : Reads d (Phrase.leaf l (.group (.leaf l' argument) p)).cells ts) :
    ∃ c distinct operand vs, ts = c.tokens ++ vs ∧ ReadsCall d l l' argument c distinct operand ∧
      Reads d p.cells vs := by
  obtain ⟨name, us, rfl, -, hname, hd, -, hus⟩ := Phrase.reads_leaf h
  obtain ⟨opening, args, closing, vs, rfl, hopening, hod, hargs, hclosing, hcd, hvs⟩ := Phrase.reads_group hus
  obtain ⟨distinct, operand, rfl, -, hword, -, -, hoperand⟩ := Phrase.reads_leaf hargs
  exact ⟨⟨name, opening, distinct :: operand, closing⟩, distinct, operand, vs, by simp [Call.tokens],
    ⟨hname, hd, hopening, hod, rfl, hargs.level, hword, hoperand, hclosing, hcd⟩, hvs⟩

namespace ReadsCall

variable {c : Call} {k : Keyword}

theorem tokens_eq (h : ReadsCall d l l' argument c distinct operand) (vs : List Token) :
    c.tokens ++ vs = c.name :: c.opening :: (distinct :: operand ++ c.closing :: vs) := by
  simp [Call.tokens, h.args]

theorem isKeyword_word (h : ReadsCall d l l' argument c distinct operand) (k : Keyword) :
    distinct.isKeyword k = l'.isKeyword k := by
  rw [Token.isKeyword, (Cell.token.inj h.word).1, Leaf.isKeyword]

/-- The tokens of a call at its depth are its name and the parentheses. -/
theorem forall_mem (h : ReadsCall d l l' argument c distinct operand) {P : Token → Prop} (hname : P c.name)
    (hopening : P c.opening) (hclosing : P c.closing) : ∀ t ∈ c.tokens, t.depth = d → P t := by
  simp only [Call.tokens, List.forall_mem_cons, List.forall_mem_append]
  refine ⟨fun _ => hname, fun _ => hopening, fun t ht htd => ?_, fun _ => hclosing, List.forall_mem_nil _⟩
  have hle := h.level.le t ht
  omega

/-- A call opens no clause. -/
theorem cut_tokens (h : ReadsCall d l l' argument c distinct operand) (hname : (aggregate? c.name).isSome = true)
    (stop : Nat) (vs : List Token) :
    Clause.cut d stop (c.tokens ++ vs) = (c.tokens ++ (Clause.cut d stop vs).1, (Clause.cut d stop vs).2) := by
  obtain ⟨k, hk⟩ := Option.isSome_iff_exists.1 hname
  obtain ⟨hkind, haggregate⟩ := kind_of_aggregate? hk
  refine Clause.cut_append_of_not
    (h.forall_mem ?_ (Phrase.opened?_of_cell h.opening) (Phrase.opened?_of_cell h.closing)) stop vs
  intro after
  unfold Clause.opened?
  rw [hkind]
  cases k <;> first | rfl | cases haggregate

/-- A call has no comma outside of its parentheses. -/
theorem any_isComma (h : ReadsCall d l l' argument c distinct operand) (hname : (aggregate? c.name).isSome = true) :
    c.tokens.any (Token.isSymbolAt d .comma) = false := by
  obtain ⟨k, hk⟩ := Option.isSome_iff_exists.1 hname
  rw [List.any_eq_false]
  intro t ht hcomma
  have hnot : ∀ t ∈ c.tokens, t.depth = d → t.isSymbol .comma = false := by
    refine h.forall_mem ?_ ?_ ?_
    · rw [Token.isSymbol, (kind_of_aggregate? hk).1]
      rfl
    · rw [Token.isSymbol, (Cell.token.inj h.opening).1]
      rfl
    · rw [Token.isSymbol, (Cell.token.inj h.closing).1]
      rfl
  rw [Token.isSymbolAt, Bool.and_eq_true, beq_iff_eq] at hcomma
  rw [hnot t ht hcomma.1] at hcomma
  cases hcomma.2

theorem atFront (h : ReadsCall d l l' argument c distinct operand) (p : Token → Bool) (vs : List Token) :
    Call.atFront p (c.tokens ++ vs) = if p c.name then some (c, vs) else none := by
  have hcall : Call.atFront p (c.name :: c.opening :: (c.args ++ c.closing :: vs)) = _ :=
    Call.atFront_group h.level (Token.isSymbol_of_cell h.opening) h.openingDepth (Token.isSymbol_of_cell h.closing)
      h.closingDepth
  rw [h.tokens_eq, ← h.args]
  exact hcall

/-- A call over distinct values is the first one of a stretch that starts with it. -/
theorem first?_tokens (h : ReadsCall d l l' argument c distinct operand) (hname : aggregate? c.name = some k)
    (hword : l'.isKeyword .DISTINCT = true) (vs : List Token) :
    first? false (c.tokens ++ vs) = some (k, c, distinct, operand) := by
  have hlevel := h.level
  rw [h.args] at hlevel
  have hfirst := first?_call hlevel h.opening h.openingDepth h.closing h.closingDepth hname
    (by rw [h.isKeyword_word, hword]) vs
  rw [h.tokens_eq, hfirst, ← h.args]

end ReadsCall

/-! ### Supported selections -/

theorem Phrase.isAlias_of_hasComma (h : p.hasComma = true) : p.isAlias = false := by
  unfold isAlias
  split
  · cases h
  · cases h
  · cases h
  · rfl

/-- Where there are tables and no groups, there are at most a filter and an ordering besides. -/
theorem kinds_cases {ks : List ClauseKind} (h : ks.isSublist clauseOrder = true) (htables : .tables ∈ ks)
    (hgroups : .groups ∉ ks) (hfilter : .groupFilter ∉ ks) :
    ks = [.tables] ∨ ks = [.tables, .filter] ∨ ks = [.tables, .ordering] ∨ ks = [.tables, .filter, .ordering] := by
  have hmem : ks ∈ clauseOrder.sublists := List.mem_sublists.2 (List.isSublist_iff_sublist.1 h)
  have hall : ∀ ks ∈ clauseOrder.sublists, .tables ∈ ks → .groups ∉ ks → .groupFilter ∉ ks →
      ks = [.tables] ∨ ks = [.tables, .filter] ∨ ks = [.tables, .ordering] ∨ ks = [.tables, .filter, .ordering] := by
    decide
  exact hall ks hmem htables hgroups hfilter

/-- With its clauses in their order a selection is supported just if nothing but an alias stands behind the call, its
argument is one expression, and there are tables and no groups. -/
theorem Phrase.supported?_isSome_iff (hk : behind.kinds.isSublist clauseOrder = true) :
    (supported? argument behind).isSome = true ↔ behind.cut.1.isAlias = true ∧ argument.isOneExpression = true ∧
      .tables ∈ behind.kinds ∧ .groups ∉ behind.kinds ∧ .groupFilter ∉ behind.kinds := by
  constructor
  · intro h
    obtain ⟨⟨named, rows, ordering⟩, hparts⟩ := Option.isSome_iff_exists.1 h
    obtain ⟨l, tables, filter, rfl, halias, hone, -, ⟨cs, hcut, hparted⟩, -⟩ := supported?_eq_some hparts
    have hothers : .groups ∉ cs.map Prod.fst ∧ .groupFilter ∉ cs.map Prod.fst := by
      unfold parted? at hparted
      split at hparted <;> first | (cases hparted; done) | simp
    rw [kinds, hcut]
    exact ⟨halias, hone, by simpa using hothers⟩
  rintro ⟨hnamed, hone, htables, hgroups, hfilter⟩
  obtain ⟨first, cs, hcut⟩ : ∃ first cs, behind.cut = (first, cs) := ⟨_, _, rfl⟩
  rw [hcut] at hnamed
  have hshape := kinds_cases hk htables hgroups hfilter
  rw [kinds, hcut] at hshape
  -- The first clause is that of the tables, and the others have two parts at most.
  obtain ⟨x, ds, rfl, hparted⟩ : ∃ x ds, cs = (.tables, x) :: ds ∧ parted? ds ≠ none := by
    rcases hshape with h | h | h | h
    · obtain ⟨⟨_, x⟩, ds, rfl, rfl, h'⟩ := List.map_eq_cons_iff.1 h
      obtain rfl := List.map_eq_nil_iff.1 h'
      exact ⟨x, [], rfl, fun h => by cases h⟩
    · obtain ⟨⟨_, x⟩, ds, rfl, rfl, h'⟩ := List.map_eq_cons_iff.1 h
      obtain ⟨⟨_, y⟩, es, rfl, rfl, h''⟩ := List.map_eq_cons_iff.1 h'
      obtain rfl := List.map_eq_nil_iff.1 h''
      exact ⟨x, _, rfl, fun h => by cases h⟩
    · obtain ⟨⟨_, x⟩, ds, rfl, rfl, h'⟩ := List.map_eq_cons_iff.1 h
      obtain ⟨⟨_, y⟩, es, rfl, rfl, h''⟩ := List.map_eq_cons_iff.1 h'
      obtain rfl := List.map_eq_nil_iff.1 h''
      exact ⟨x, _, rfl, fun h => by cases h⟩
    · obtain ⟨⟨_, x⟩, ds, rfl, rfl, h'⟩ := List.map_eq_cons_iff.1 h
      obtain ⟨⟨_, y⟩, es, rfl, rfl, h''⟩ := List.map_eq_cons_iff.1 h'
      obtain ⟨⟨_, z⟩, fs, rfl, rfl, h'''⟩ := List.map_eq_cons_iff.1 h''
      obtain rfl := List.map_eq_nil_iff.1 h'''
      exact ⟨x, _, rfl, fun h => by cases h⟩
  obtain ⟨opener, r, rfl, -⟩ := mem_cut (p := behind) (c := (.tables, x)) (by rw [hcut]; exact List.mem_cons_self)
  unfold supported?
  rw [hcut]
  simp only [hnamed, hone, Bool.and_self, if_true, Option.isSome_map]
  exact Option.isSome_iff_ne_none.2 hparted

/-! ### Clauses of supported selections -/

theorem clause?_isSome {s : Scope} {xs : List (ClauseKind × Phrase)}
    (h : List.Forall₂ (Phrase.ReadsClause d) s.clauses xs) (kind : ClauseKind) :
    (s.clause? kind).isSome = true ↔ kind ∈ xs.map Prod.fst := by
  have hkinds : s.clauses.map (·.kind) = xs.map Prod.fst := by
    generalize s.clauses = cls at h
    induction h with
    | nil => rfl
    | cons hx _ ih => rw [List.map_cons, List.map_cons, hx.kind, ih]
  rw [Scope.clause?, List.find?_isSome, ← hkinds, List.mem_map]
  simp

theorem clause?_eq_none {s : Scope} {xs : List (ClauseKind × Phrase)}
    (h : List.Forall₂ (Phrase.ReadsClause d) s.clauses xs) {kind : ClauseKind} :
    s.clause? kind = none ↔ kind ∉ xs.map Prod.fst := by
  rw [← clause?_isSome h, Option.not_isSome_iff_eq_none]

/-- The filter and the ordering behind the tables. -/
theorem exists_parts {s : Scope} {tables : Clause} {cls : List Clause} {xs : List (ClauseKind × Phrase)}
    {filter ordering : Phrase} (hs : s.clauses = tables :: cls) (hkind : tables.kind = .tables)
    (hcls : List.Forall₂ (Phrase.ReadsClause d) cls xs) (hparted : parted? xs = some (filter, ordering)) :
    ∃ fs, s.clause? .groups = none ∧ s.clause? .groupFilter = none ∧ s.clause? .tables = some tables ∧
      cls.flatMap (fun c => c.words ++ c.body) = fs ++ orderTokens (s.clause? .ordering) ∧ Reads d filter.cells fs ∧
      Reads d ordering.cells (orderTokens (s.clause? .ordering)) ∧
      ∀ o ∈ s.clause? .ordering, Clause.HasWords d .ordering o.words := by
  unfold parted? at hparted
  split at hparted
  · cases hparted
    cases hcls
    have hordering : s.clause? .ordering = none := by simp [Scope.clause?, hs, hkind]
    rw [hordering]
    exact ⟨[], by simp [Scope.clause?, hs, hkind], by simp [Scope.clause?, hs, hkind],
      by simp [Scope.clause?, hs, hkind], rfl, Reads.nil_iff.2 rfl, Reads.nil_iff.2 rfl, fun _ h => by cases h⟩
  · cases hparted
    obtain ⟨f, _, hf, ⟨⟩, rfl⟩ := List.forall₂_cons_right_iff.1 hcls
    have hfk : f.kind = .filter := hf.kind
    have hordering : s.clause? .ordering = none := by simp [Scope.clause?, hs, hkind, hfk]
    rw [hordering]
    exact ⟨f.words ++ f.body, by simp [Scope.clause?, hs, hkind, hfk], by simp [Scope.clause?, hs, hkind, hfk],
      by simp [Scope.clause?, hs, hkind, hfk], by simp [orderTokens], hf.reads, Reads.nil_iff.2 rfl, fun _ h => by cases h⟩
  · cases hparted
    obtain ⟨o, _, ho, ⟨⟩, rfl⟩ := List.forall₂_cons_right_iff.1 hcls
    have hok : o.kind = .ordering := ho.kind
    have hordering : s.clause? .ordering = some o := by simp [Scope.clause?, hs, hok]
    rw [hordering]
    refine ⟨[], by simp [Scope.clause?, hs, hkind, hok], by simp [Scope.clause?, hs, hkind, hok],
      by simp [Scope.clause?, hs, hkind, hok], by simp [orderTokens], Reads.nil_iff.2 rfl, ho.reads, ?_⟩
    rintro _ ⟨⟩
    exact hok ▸ ho.words
  · cases hparted
    obtain ⟨f, _, hf, hos, rfl⟩ := List.forall₂_cons_right_iff.1 hcls
    obtain ⟨o, _, ho, ⟨⟩, rfl⟩ := List.forall₂_cons_right_iff.1 hos
    have hfk : f.kind = .filter := hf.kind
    have hok : o.kind = .ordering := ho.kind
    have hordering : s.clause? .ordering = some o := by simp [Scope.clause?, hs, hok]
    rw [hordering]
    refine ⟨f.words ++ f.body, by simp [Scope.clause?, hs, hkind, hfk, hok],
      by simp [Scope.clause?, hs, hkind, hfk, hok], by simp [Scope.clause?, hs, hkind, hfk, hok],
      by simp [orderTokens], hf.reads, ho.reads, ?_⟩
    rintro _ ⟨⟩
    exact hok ▸ ho.words
  · cases hparted

/-- What moves into the table is what stands behind the `FROM` up to the ordering. -/
theorem innerTokens_eq {s : Scope} {tables : Clause} {as inner : List Token} {f : Token}
    (hp : s.body.Pairwise fun t u => t.start < u.start)
    (hbody : s.body = as ++ f :: (inner ++ orderTokens (s.clause? .ordering))) (hwords : tables.words = [f])
    (hordering : ∀ o ∈ s.clause? .ordering, o.words ≠ []) : innerTokens s tables = inner := by
  have hstart : tables.start = f.start := by
    rw [Clause.start, hwords]
    rfl
  have hfilter : s.body.filter (fun t => tables.start < t.start) = inner ++ orderTokens (s.clause? .ordering) := by
    rw [hbody] at hp ⊢
    rw [hstart]
    exact filter_behind hp
  rw [hbody] at hp
  have hp := (List.pairwise_cons.1 (List.pairwise_append.1 hp).2.1).2
  rw [innerTokens, hfilter]
  cases ho : s.clause? .ordering with
  | none =>
    rw [orderTokens, Option.elim_none, List.append_nil]
    exact takeWhile_all inner
  | some o =>
    rw [ho] at hp hordering
    obtain ⟨first, os, hos⟩ := List.exists_cons_of_ne_nil (hordering o rfl)
    have hostart : o.start = first.start := by
      rw [Clause.start, hos]
      rfl
    have horder : orderTokens (some o) = first :: (os ++ o.body) := by
      rw [orderTokens, Option.elim_some, hos, List.cons_append]
    rw [horder] at hp ⊢
    have hbefore := takeWhile_before hp
    rw [← hostart] at hbefore
    exact hbefore

namespace Selected

/-- What becomes of a selection that starts with a call of an aggregate over distinct values: either it is refused, or
what moves and what stays are the parts of its phrase. -/
theorem scopeEdit_cases {c : Call} (hread : q.IsRead tail)
    (h : Selected q front select ms (c.tokens ++ vs) back d modifiers body)
    (hcall : ReadsCall d l l' argument c distinct operand) (hname : (aggregate? c.name).isSome = true)
    (hvs : Reads d behind.cells vs) (hordered : behind.kinds.isSublist clauseOrder = true) :
    (supported? argument behind = none ∧ ∃ fault, scopeEdit q c operand = .error fault) ∨
      ∃ named rows ordering al f inner order, supported? argument behind = some (named, rows, ordering) ∧
        vs = al ++ f :: (inner ++ order) ∧ Reads d named.cells al ∧ Reads d rows.cells inner ∧
        Reads d ordering.cells order ∧
        scopeEdit q c operand = .ok ⟨⟨select.start, Token.stopOr 0 (select :: (ms ++ (c.tokens ++ vs)))⟩,
          spell (derivedCells (select :: (ms ++ [c.name])) al operand inner order)⟩ := by
  obtain ⟨stop, s, hs, hselect, hbody, hmodifiers, hlist, hclauses⟩ := h.exists_scope
  have hcount : Scope.modifierCount (ms ++ (c.tokens ++ vs)) = ms.length := by
    rw [hcall.tokens_eq]
    exact modifierCount_of_reads h.modify h.readsModifiers hname _
  have hcut : Clause.cut d stop (ms ++ (c.tokens ++ vs))
      = (ms ++ (c.tokens ++ (Clause.cut d stop vs).1), (Clause.cut d stop vs).2) := by
    rw [Clause.cut_append_of_not fun t ht _ => (modifies_of_reads h.modify h.readsModifiers t ht).plain.2.2.2.2.2,
      hcall.cut_tokens hname]
  obtain ⟨hal, hcls⟩ := Phrase.reads_cut hvs stop
  have hall := Phrase.append_flatMap_cut d stop vs
  rw [hcut, hcount, List.drop_left] at hlist
  rw [hcut] at hclauses
  rw [hcount, List.take_left] at hmodifiers
  generalize (Clause.cut d stop vs).1 = al at hlist hal hall
  rw [← hclauses] at hcls hall
  have hdepth : s.depth = d := by rw [Scope.depth, hselect, h.depth]
  have hcomma : s.list.any (Token.isSymbolAt d .comma) = behind.cut.1.hasComma := by
    rw [hlist, List.any_append, hcall.any_isComma hname, Phrase.any_isComma hal, Bool.false_or]
  have hfront : Call.atFront (· = c.name) s.list = some (c, al) := by
    rw [hlist, hcall.atFront, if_pos (decide_eq_true rfl)]
  have hscope : q.scopeOfListed? c.name = some s := by
    have hin : c.name ∈ s.list := by
      rw [hlist]
      exact List.mem_append_left _ List.mem_cons_self
    have hstarts : Selected q front select ms (c.name :: (c.tokens.tail ++ vs)) back d modifiers body := h
    refine hstarts.scopeOfListed?_eq hread hs hin ?_
    obtain ⟨k, hk⟩ := Option.isSome_iff_exists.1 hname
    rw [Token.isKeyword, (kind_of_aggregate? hk).1]
    obtain ⟨-, haggregate⟩ := kind_of_aggregate? hk
    cases k <;> first | rfl | cases haggregate
  have hopening : c.opening.depth + 1 = d + 1 := by rw [hcall.openingDepth]
  cases hsupported : supported? argument behind with
  | none =>
    refine .inl ⟨rfl, ?_⟩
    cases hedit : scopeEdit q c operand with
    | error fault => exact ⟨fault, rfl⟩
    | ok e =>
      obtain ⟨s', item, call, al', tables, hs', hitems, hcall', hgroups, hfilter, htables, halias, hone, -⟩ :=
        scopeEdit_eq_ok_iff.1 hedit
      obtain rfl : s = s' := Option.some.inj (hscope.symm.trans hs')
      rw [Scope.items, hdepth] at hitems
      have hnot : behind.cut.1.hasComma = false := by
        rw [← hcomma]
        exact Bool.eq_false_iff.2 fun hc => Phrase.splitCommas_ne_singleton hc item hitems
      rw [Phrase.splitCommas_of_not (by rw [hcomma, hnot])] at hitems
      obtain rfl := List.singleton_inj.1 hitems
      obtain ⟨rfl, rfl⟩ := Prod.mk.inj (Option.some.inj (hfront.symm.trans hcall'))
      rw [Phrase.isAlias_of_reads hal hnot] at halias
      rw [hopening, Phrase.isOneExpression_of_reads hcall.operand] at hone
      have hsome := (Phrase.supported?_isSome_iff hordered).2 ⟨halias, hone,
        (clause?_isSome hcls .tables).1 (by rw [htables]; rfl), (clause?_eq_none hcls).1 hgroups,
        (clause?_eq_none hcls).1 hfilter⟩
      rw [hsupported] at hsome
      cases hsome
  | some parts =>
    obtain ⟨named, rows, ordering⟩ := parts
    obtain ⟨opener, x, filter, hnamed, halias, hone, -, ⟨xs, hxs, hparted⟩, rfl, -, -, -⟩ :=
      Phrase.supported?_eq_some hsupported
    rw [hnamed] at hal
    have hnot : named.hasComma = false :=
      Bool.eq_false_iff.2 fun hc => by rw [Phrase.isAlias_of_hasComma hc] at halias; cases halias
    rw [hxs] at hcls
    obtain ⟨tables, cls, htables, hcls, hsc⟩ := List.forall₂_cons_right_iff.1 hcls
    have hkind : tables.kind = .tables := htables.kind
    obtain ⟨fs, hgroups, hgroupFilter, hclause, hbehind, hfs, horder, hwords⟩ := exists_parts hsc hkind hcls hparted
    obtain ⟨f, hf⟩ : ∃ f, tables.words = [f] := by
      have := htables.words
      rw [hkind] at this
      revert this
      generalize tables.words = ws
      rintro ⟨⟩
      exact ⟨_, rfl⟩
    have hrows := htables.reads
    rw [hf] at hrows
    obtain ⟨_, us, heq, -, -, -, -, hx⟩ := Phrase.reads_leaf hrows
    obtain ⟨rfl, rfl⟩ := List.cons.inj heq
    rw [hsc, List.flatMap_cons, hbehind, hf] at hall
    have hordering : ∀ o ∈ s.clause? .ordering, o.words ≠ [] := by
      intro o ho
      have := hwords o ho
      revert this
      generalize o.words = ws
      rintro ⟨⟩
      exact List.cons_ne_nil _ _
    have hpairs : s.body.Pairwise fun t u => t.start < u.start := by
      have hp := hread.pairwise_start
      rw [h.tokens, List.pairwise_append, List.pairwise_cons, ← List.append_assoc ms, List.pairwise_append] at hp
      rw [hbody]
      exact hp.2.1.2.1
    have hinner : innerTokens s tables = tables.body ++ fs := by
      have hparts : s.body
          = (ms ++ (c.tokens ++ al)) ++ f :: (tables.body ++ fs ++ orderTokens (s.clause? .ordering)) := by
        rw [hbody, ← hall]
        simp
      exact innerTokens_eq hpairs hparts hf hordering
    refine .inr ⟨named, x.append filter, ordering, al, f, tables.body ++ fs, orderTokens (s.clause? .ordering), rfl,
      ?_, hal, ?_, horder, ?_⟩
    · rw [← hall]
      simp
    · rw [Phrase.cells_append]
      exact hx.concat hfs
    · have htext : derivedText s tables s.list al operand = spell (derivedCells (select :: (ms ++ [c.name])) al operand
          (tables.body ++ fs) (orderTokens (s.clause? .ordering))) := by
        have hhead : s.list.head? = some c.name := by
          rw [hlist]
          rfl
        rw [spell_derivedCells tables al operand hhead hordering, hselect, hmodifiers, hinner]
      refine scopeEdit_eq_ok_iff.2 ⟨s, s.list, c, al, tables, hscope, ?_, hfront, hgroups, hgroupFilter, hclause,
        ?_, ?_, ?_⟩
      · rw [Scope.items, hdepth]
        exact Phrase.splitCommas_of_not (by rw [hcomma, hnamed, hnot])
      · rw [Phrase.isAlias_of_reads hal hnot, halias]
      · rw [hopening, Phrase.isOneExpression_of_reads hcall.operand, hone]
      · rw [htext, hselect, hbody, Token.stopOr_cons]
        simp [Call.tokens]

end Selected

end JetAdapter.Distinct
