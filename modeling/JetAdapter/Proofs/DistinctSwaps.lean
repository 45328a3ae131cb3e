import JetAdapter.Proofs.CallSwaps
import JetAdapter.Rule.Distinct

/-!
# Swaps of aggregates over distinct values

Either the `DISTINCT` of a call goes, or the whole scope around the call makes room for one with the aggregate
taken over a table.  The new scope ends with the ordering of the old one, and this need not have been the last
clause: its last word may run into what stands behind the scope.
-/

namespace JetAdapter.Distinct

open Cell (Sound Settles Replaces Soft Spares Writable spell ofGap)
open Token (stretch)

variable {q : Query} {tail : List Cell} {e : Edit} {c : Call} {distinct : Token}
  {operand : List Token} {aggregate : Keyword}

/-! ### Written cells -/

theorem writable_spaced {P Q : List Cell} (hP : Writable P) (hQ : Writable Q) :
    Writable (P ++ Cell.space :: Q) := by
  refine ⟨?_, fun {p os ss} h hs => ?_⟩
  · obtain ⟨k, t, ds, rfl⟩ := hP.token
    exact ⟨k, t, _, rfl⟩
  · have := hP.settles (h.space_writable hQ hs) (Cell.stops_space _)
    simpa using this

theorem writable_opened {P : List Cell} (hP : Writable P) : Writable (Cell.sign '(' :: P) :=
  ⟨⟨_, _, _, rfl⟩, fun h hs => .sign (.inl rfl) (hP.settles h hs)⟩

theorem writable_call {P Q : List Cell} (hP : Writable P) (hQ : Writable Q) :
    Writable (P ++ Cell.sign '(' :: (Q ++ [Cell.sign ')'])) := by
  refine ⟨?_, fun {p os ss} h hs => ?_⟩
  · obtain ⟨k, t, ds, rfl⟩ := hP.token
    exact ⟨k, t, _, rfl⟩
  · have := hP.settles (hQ.parens.settles h hs) (Cell.stops_sign (.inl rfl) _)
    simpa using this

theorem writable_value : Writable [Cell.word "distinct_value".toList] :=
  .word (Cell.isWord_of_all (by decide) (by decide)) (by decide)

theorem isWord_rows : Cell.IsWord "distinct_rows".toList :=
  Cell.isWord_of_all (by decide) (by decide)

theorem writable_word {w : SqlText} (hw : w.all Char.isAlpha = true) (hne : w ≠ [])
    (hb : w.head?.any Text.isBlank = false) : Writable [Cell.word w] :=
  .word (Cell.isWord_of_isAlpha hne hw) hb

/-- The cells of the aggregate of the values, with an alias behind it. -/
def headCells (front named : List Token) : List Cell :=
  let call := stretch front ++ Cell.sign '(' :: ([Cell.word "distinct_value".toList] ++ [Cell.sign ')'])
  if named = [] then call else call ++ Cell.space :: stretch named

/-- The cells of the scope of the values up to its tables. -/
def innerCells (operand : List Token) : List Cell :=
  [Cell.word "SELECT".toList] ++ Cell.space :: ([Cell.word "DISTINCT".toList] ++ Cell.space ::
    (stretch operand ++ Cell.space :: ([Cell.word "AS".toList] ++ Cell.space ::
      ([Cell.word "distinct_value".toList] ++ Cell.space :: [Cell.word "FROM".toList]))))

/-- The cells of the new scope up to the tables. -/
def valueCells (front named operand : List Token) : List Cell :=
  headCells front named ++ Cell.space :: ([Cell.word "FROM".toList] ++ Cell.space ::
    (Cell.sign '(' :: innerCells operand))

/-- The cells behind the tables, with an ordering. -/
def rowsCells (order : List Token) : List Cell :=
  Cell.sign ')' :: Cell.space :: Cell.word "AS".toList :: Cell.space ::
    Cell.word "distinct_rows".toList :: (if order = [] then [] else Cell.space :: stretch order)

theorem writable_valueCells {front named operand : List Token} (hfront : Writable (stretch front))
    (hnamed : named ≠ [] → Writable (stretch named)) (hoperand : Writable (stretch operand)) :
    Writable (valueCells front named operand) := by
  have hcall := writable_call hfront writable_value
  have hhead : Writable (headCells front named) := by
    unfold headCells
    simp only
    split
    · exact hcall
    · next hne => exact writable_spaced hcall (hnamed hne)
  have hfrom : Writable [Cell.word "FROM".toList] := writable_word (by decide) (by decide) (by decide)
  have has : Writable [Cell.word "AS".toList] := writable_word (by decide) (by decide) (by decide)
  have hselect : Writable [Cell.word "SELECT".toList] := writable_word (by decide) (by decide) (by decide)
  have hdistinct : Writable [Cell.word "DISTINCT".toList] := writable_word (by decide) (by decide) (by decide)
  have hinner : Writable (innerCells operand) :=
    writable_spaced hselect (writable_spaced hdistinct (writable_spaced hoperand
      (writable_spaced has (writable_spaced writable_value hfrom))))
  exact writable_spaced hhead (writable_spaced hfrom (writable_opened hinner))

/-! ### Layout of a scope -/

/-- The name of an aggregate. -/
theorem kind_of_aggregate? {t : Token} {k : Keyword} (h : aggregate? t = some k) :
    t.kind = .keyword k ∧ k.isAggregate = true := by
  obtain ⟨hk, haggregate⟩ := Option.filter_eq_some_iff.1 h
  cases hkind : t.kind with
  | keyword k' =>
    rw [hkind] at hk
    obtain rfl : k' = k := Option.some.inj hk
    exact ⟨rfl, haggregate⟩
  | _ =>
    rw [hkind] at hk
    cases hk

/-- When a scope is changed, and to what. -/
theorem scopeEdit_eq_ok_iff : scopeEdit q c operand = .ok e ↔
    ∃ scope item call aliasTokens tables, q.scopeOfListed? c.name = some scope ∧
      scope.items = [item] ∧ Call.atFront (· = c.name) item = some (call, aliasTokens) ∧
      scope.clause? .groups = none ∧ scope.clause? .groupFilter = none ∧ scope.clause? .tables = some tables ∧
      isAlias aliasTokens = true ∧ isOneExpression (call.opening.depth + 1) operand = true ∧
      e = ⟨⟨scope.select.start, Token.stopOr scope.select.stop scope.body⟩,
        derivedText scope tables item aliasTokens operand⟩ := by
  constructor
  · intro he
    unfold scopeEdit at he
    split at he
    · next scope hscope =>
      split at he
      · next item hitem =>
        split at he
        · next call aliasTokens hcall =>
          change (if _ then _ else _) = _ at he
          split at he
          · cases he
          next hgroups =>
          rw [not_or, Option.not_isSome_iff_eq_none, Option.not_isSome_iff_eq_none] at hgroups
          split at he
          · next tables htables =>
            change (if _ then _ else _) = _ at he
            split at he
            · next halias =>
              change (if _ then _ else _) = _ at he
              split at he
              · next hone =>
                cases he
                exact ⟨scope, item, call, aliasTokens, tables, hscope, hitem, hcall, hgroups.1, hgroups.2, htables, halias,
                  hone, rfl⟩
              · cases he
            · cases he
          · cases he
        · cases he
      · cases he
    · cases he
  · rintro ⟨scope, item, call, aliasTokens, tables, hscope, hitems, hcall, hgroups, hfilter, htables, halias, hone, rfl⟩
    unfold scopeEdit
    simp only [hscope, hitems, hcall, hgroups, hfilter, htables, halias, hone]
    rfl

/-- The parts of a scope that is changed. -/
theorem scopeEdit_eq_ok (he : scopeEdit q c operand = .ok e) :
    ∃ scope item call aliasTokens tables, q.scopeOfListed? c.name = some scope ∧
      scope.items = [item] ∧ Call.atFront (· = c.name) item = some (call, aliasTokens) ∧
      scope.clause? .tables = some tables ∧ isOneExpression (call.opening.depth + 1) operand = true ∧
      e = ⟨⟨scope.select.start, Token.stopOr scope.select.stop scope.body⟩,
        derivedText scope tables item aliasTokens operand⟩ := by
  obtain ⟨scope, item, call, aliasTokens, tables, hscope, hitems, hcall, -, -, htables, -, hone, he⟩ := scopeEdit_eq_ok_iff.1 he
  exact ⟨scope, item, call, aliasTokens, tables, hscope, hitems, hcall, htables, hone, he⟩

theorem filter_behind {as bs : List Token} {t : Token}
    (h : (as ++ t :: bs).Pairwise fun t u => t.start < u.start) :
    ((as ++ t :: bs).filter fun u => t.start < u.start) = bs := by
  rw [List.pairwise_append, List.pairwise_cons] at h
  obtain ⟨-, ⟨hbs, -⟩, has⟩ := h
  rw [List.filter_append, List.filter_eq_nil_iff.2, List.filter_cons_of_neg, List.filter_eq_self.2]
  · rfl
  · exact fun u hu => decide_eq_true (hbs u hu)
  · simp
  · intro u hu
    have := has u hu t List.mem_cons_self
    rw [decide_eq_true_eq]
    omega

theorem takeWhile_before {as bs : List Token} {t : Token}
    (h : (as ++ t :: bs).Pairwise fun t u => t.start < u.start) :
    ((as ++ t :: bs).takeWhile fun u => u.start < t.start) = as := by
  rw [List.pairwise_append] at h
  rw [List.takeWhile_append_of_pos fun u hu => decide_eq_true (h.2.2 u hu t List.mem_cons_self),
    List.takeWhile_cons_of_neg (by simp), List.append_nil]

/-- Of the tokens behind `t`, those before `u` are all up to `u`, or none where `u` is not behind `t`. -/
theorem takeWhile_before_cases {as ts : List Token} {t u : Token} (h : (as ++ t :: ts).Pairwise fun t u => t.start < u.start)
    (hu : u ∈ as ++ t :: ts) :
    (∃ bs cs, ts = bs ++ u :: cs ∧ (ts.takeWhile fun x => x.start < u.start) = bs) ∨
      u ∈ as ++ [t] ∧ (ts.takeWhile fun x => x.start < u.start) = [] := by
  rw [← List.singleton_append, ← List.append_assoc] at h hu
  obtain ⟨-, hts, hbefore⟩ := List.pairwise_append.1 h
  rcases List.mem_append.1 hu with hfront | hbehind
  · refine .inr ⟨hfront, ?_⟩
    cases ts with
    | nil => rfl
    | cons b ts =>
      have hlt := hbefore u hfront b List.mem_cons_self
      rw [List.takeWhile_cons_of_neg]
      rw [decide_eq_true_eq]
      omega
  · obtain ⟨bs, cs, rfl⟩ := List.append_of_mem hbehind
    exact .inl ⟨bs, cs, rfl, takeWhile_before hts⟩

theorem takeWhile_all (ts : List Token) : (ts.takeWhile fun _ => true) = ts := by
  induction ts with
  | nil => rfl
  | cons t ts ih => rw [List.takeWhile_cons_of_pos rfl, ih]

theorem takeWhile_behind {as bs us : List Token} {t : Token}
    (h : (as ++ t :: (us ++ bs)).Pairwise fun t u => t.start < u.start) :
    (bs.takeWhile fun u => u.start < t.start) = [] := by
  rw [List.pairwise_append, List.pairwise_cons] at h
  cases bs with
  | nil => rfl
  | cons b bs =>
    have := h.2.1.1 b (by simp)
    rw [List.takeWhile_cons_of_neg]
    rw [decide_eq_true_eq]
    omega

/-- The parts of a scope that move: what stands behind the `FROM` up to the ordering, and the ordering. -/
inductive Laid : List Token → List Token → List Token → Prop
  | apart {u inner order v : List Token} (rows : inner ≠ [] → ∃ us f, u = us ++ [f] ∧ f.isKeyword .FROM = true)
      (ordered : order ≠ [] → ∃ o os, order = o :: os ∧ o.isKeyword .ORDER = true) :
      Laid (u ++ (inner ++ (order ++ v))) inner order

/-- The tokens of a scope that move into the table: those behind the `FROM`, up to the ordering. -/
def innerTokens (scope : Scope) (tables : Clause) : List Token :=
  (scope.body.filter fun t => tables.start < t.start).takeWhile fun t =>
    (scope.clause? .ordering).all fun o => t.start < o.start

/-- The tokens of an ordering. -/
def orderTokens (ordering : Option Clause) : List Token :=
  ordering.elim [] fun o => o.words ++ o.body

theorem laid {front behind as ts : List Token} {tables : Clause} {ordering : Option Clause} {depth : Nat}
    (hp : (front ++ behind).Pairwise fun t u => t.start < u.start)
    (htables : behind = as ++ (tables.words ++ ts)) (hwords : Clause.HasWords depth .tables tables.words)
    (hordering : ∀ o ∈ ordering, ∃ us vs, behind = us ++ (o.words ++ (o.body ++ vs)) ∧
      Clause.HasWords depth .ordering o.words) :
    Laid behind (((front ++ behind).filter fun t => tables.start < t.start).takeWhile fun t =>
      ordering.all fun o => t.start < o.start) (orderTokens ordering) := by
  have hkind : Clause.HasWords depth ClauseKind.tables tables.words → ∃ f, tables.words = [f] ∧ f.isKeyword .FROM = true := by
    generalize tables.words = ws
    rintro ⟨⟩
    exact ⟨_, rfl, by assumption⟩
  obtain ⟨f, hf, hfrom⟩ := hkind hwords
  have hstart : tables.start = f.start := by
    rw [Clause.start, hf]
    rfl
  rw [hf] at htables
  have hinner : (front ++ behind).filter (fun t => tables.start < t.start) = ts := by
    rw [htables, List.singleton_append, ← List.append_assoc] at hp ⊢
    rw [hstart]
    exact filter_behind hp
  rw [hinner]
  cases ordering with
  | none =>
    have hall : (ts.takeWhile fun t => (none : Option Clause).all fun o => t.start < o.start) = ts :=
      takeWhile_all ts
    rw [hall, htables]
    have := Laid.apart (u := as ++ [f]) (v := []) (fun _ : ts ≠ [] => ⟨as, f, rfl, hfrom⟩)
      (fun hn : ([] : List Token) ≠ [] => absurd rfl hn)
    simpa [orderTokens] using this
  | some o =>
    obtain ⟨us, vs, hbehind, hword⟩ := hordering o rfl
    obtain ⟨o₁, os, ho, horder⟩ : ∃ o₁ os, o.words = o₁ :: os ∧ o₁.isKeyword .ORDER = true := by
      revert hword
      generalize o.words = ws
      rintro ⟨⟩
      exact ⟨_, _, rfl, by assumption⟩
    have hostart : o.start = o₁.start := by
      rw [Clause.start, ho]
      rfl
    have htake : (fun t : Token => (some o).all fun o => decide (t.start < o.start))
        = fun t => decide (t.start < o₁.start) := by
      funext t
      rw [← hostart]
      rfl
    have hordered : orderTokens (some o) ≠ [] →
        ∃ o₂ os, orderTokens (some o) = o₂ :: os ∧ o₂.isKeyword .ORDER = true :=
      fun _ => ⟨o₁, os ++ o.body, by simp [orderTokens, ho], horder⟩
    rw [htake]
    have hboth : as ++ f :: ts = us ++ o₁ :: (os ++ (o.body ++ vs)) := by
      rw [← List.singleton_append (l := ts), ← htables, hbehind, ho]
      rfl
    have hne : f ≠ o₁ := by
      rintro rfl
      have hk : f.kind = .keyword .FROM := Kind.isKeyword_iff.1 hfrom
      simp [Token.isKeyword, Kind.isKeyword, hk] at horder
    have hp' := (List.pairwise_append.1 hp).2.1
    rcases List.append_eq_append_iff.1 hboth with ⟨ws, rfl, hrest⟩ | ⟨ws, rfl, hrest⟩
    · cases ws with
      | nil => exact absurd (List.cons.inj hrest).1 hne
      | cons w ws =>
        obtain ⟨rfl, hts⟩ := List.cons.inj hrest
        rw [htables, List.singleton_append, List.pairwise_append, List.pairwise_cons] at hp'
        have hpts := hp'.2.1.2
        obtain rfl : ts = ws ++ o₁ :: (os ++ (o.body ++ vs)) := hts
        rw [takeWhile_before hpts, htables]
        have := Laid.apart (u := as ++ [f]) (v := vs) (fun _ : ws ≠ [] => ⟨as, f, rfl, hfrom⟩) hordered
        simpa [orderTokens, ho] using this
    · cases ws with
      | nil => exact absurd (List.cons.inj hrest).1.symm hne
      | cons w ws =>
        obtain ⟨rfl, -⟩ := List.cons.inj hrest
        rw [htables] at hp'
        have hp' : (us ++ o₁ :: ((ws ++ [f]) ++ ts)).Pairwise fun t u => t.start < u.start := by
          simpa using hp'
        rw [takeWhile_behind hp', hbehind]
        have := Laid.apart (u := us) (v := vs) (fun hn : ([] : List Token) ≠ [] => absurd rfl hn) hordered
        simpa [orderTokens] using this

/-- The cells of a new scope. -/
def derivedCells (front named operand inner order : List Token) : List Cell :=
  valueCells front named operand ++ Cell.space :: (stretch inner ++ rowsCells order)

theorem spell_derivedCells {scope : Scope} {name : Token} {item : List Token} (tables : Clause)
    (named operand : List Token) (hitem : item.head? = some name) (hwords : ∀ o ∈ scope.clause? .ordering, o.words ≠ []) :
    derivedText scope tables item named operand =
      spell (derivedCells (scope.select :: (scope.modifiers ++ [name])) named operand (innerTokens scope tables)
        (orderTokens (scope.clause? .ordering))) := by
  have hfront : spell (stretch (scope.select :: (scope.modifiers ++ [name])))
      = Token.spell (scope.select :: scope.modifiers) ++ (name.gap ++ name.text) := by
    rw [Token.spell_stretch, Token.spell, Token.spell, List.flatMap_append]
    simp
  have hhead : spell (headCells (scope.select :: (scope.modifiers ++ [name])) named)
      = Token.spell (scope.select :: scope.modifiers) ++ (name.gap ++ name.text)
        ++ "(distinct_value)".toList ++ (if named = [] then [] else ' ' :: Token.spell named) := by
    unfold headCells
    simp only
    split
    · rw [Cell.spell_append, hfront]
      simp
    · rw [Cell.spell_append, Cell.spell_append, hfront]
      simp [Token.spell_stretch]
  unfold derivedText derivedCells valueCells innerCells innerTokens
  simp only [hitem]
  generalize scope.clause? .ordering = ordering at hwords
  have hrows : spell (rowsCells (orderTokens ordering)) = ") AS distinct_rows".toList
      ++ ordering.elim [] fun o => ' ' :: Token.spell (o.words ++ o.body) := by
    unfold rowsCells
    cases ordering with
    | none => rfl
    | some o =>
      have hne : orderTokens (some o) ≠ [] := fun hn => hwords o rfl (List.append_eq_nil_iff.1 hn).1
      rw [if_neg hne]
      simp [Token.spell_stretch, orderTokens]
  cases ordering with
  | none => simp [hhead, hrows, Token.spell_stretch]
  | some o => simp [hhead, hrows, Token.spell_stretch]

/-- The tokens of a scope around a call that is all that is selected. -/
theorem body_eq (h : q.IsRead tail) (hc : c ∈ q.calls fun t => (aggregate? t).isSome) {scope : Scope}
    {item named : List Token} {call : Call} {tables : Clause} (hscope : q.scopeOfListed? c.name = some scope)
    (hitems : scope.items = [item]) (hcall : Call.atFront (· = c.name) item = some (call, named))
    (htables : scope.clause? .tables = some tables) :
    ∃ behind, scope.body = scope.modifiers ++ (c.tokens ++ (named ++ behind)) ∧
      Laid behind (innerTokens scope tables) (orderTokens (scope.clause? .ordering)) ∧ call = c ∧
      item = c.tokens ++ named ∧ (∀ o ∈ scope.clause? .ordering, o.words ≠ []) ∧ Clause.EndsAt scope.depth behind := by
  have hs : scope ∈ q.scopes := by
    simpa using List.mem_of_find?_eq_some hscope
  obtain ⟨as, bs, stop, hq, -, hclauses, hlist, hmodifiers, -⟩ := h.scope hs
  have hclause : ∀ {k cl}, scope.clause? k = some cl → ∃ us vs, scope.body =
      (Clause.cut scope.depth stop scope.body).1 ++ (us ++ (cl.words ++ (cl.body ++ vs))) ∧
      Clause.HasWords scope.depth k cl.words := by
    intro k cl hcl
    have hmem : cl ∈ scope.clauses := by simpa using List.mem_of_find?_eq_some hcl
    have hkind : cl.kind = k := by simpa using List.find?_some hcl
    rw [hclauses] at hmem
    obtain ⟨us, vs, hbody, hwords, -⟩ := Clause.mem_cut hmem
    exact ⟨us, vs, hbody, by rwa [hkind] at hwords⟩
  -- The select list is the single item.
  have hsingle : scope.list = item := by
    rcases Token.splitCommas_eq_cons hitems with ⟨hl, -⟩ | ⟨_, us, -, -, hn⟩
    · exact hl
    · exact absurd hn (by simp [Token.splitCommas, Token.pieces_ne_nil])
  obtain ⟨hitem, hname, hmatched⟩ := Call.atFront_eq_some hcall
  have hname : call.name = c.name := by simpa using hname
  have hfront := List.take_append_drop (Scope.modifierCount scope.body)
    (Clause.cut scope.depth stop scope.body).1
  rw [← hlist, hsingle] at hfront
  have htake : (Clause.cut scope.depth stop scope.body).1.take (Scope.modifierCount scope.body)
      = scope.modifiers := by
    obtain ⟨us, hbody, -⟩ := Clause.cut_fst scope.depth stop scope.body
    generalize (Clause.cut scope.depth stop scope.body).1 = front at hlist hbody
    have hlen : Scope.modifierCount scope.body ≤ front.length := by
      refine Nat.le_of_not_lt fun hlt => ?_
      rw [hlist, List.drop_eq_nil_of_le (by omega)] at hsingle
      rw [← hsingle] at hitem
      simp [Call.tokens] at hitem
    rw [hmodifiers]
    generalize Scope.modifierCount scope.body = n at hlen
    rw [hbody, List.take_append_of_le_length hlen]
  rw [htake] at hfront
  obtain ⟨behind, hbody, hends⟩ := Clause.cut_fst scope.depth stop scope.body
  have hcl : ∀ {k cl}, scope.clause? k = some cl → ∃ us vs,
      behind = us ++ (cl.words ++ (cl.body ++ vs)) ∧ Clause.HasWords scope.depth k cl.words := by
    intro k cl hcl
    obtain ⟨us, vs, heq, hwords⟩ := hclause hcl
    exact ⟨us, vs, List.append_cancel_left (hbody.symm.trans heq), hwords⟩
  rw [← hfront] at hbody
  -- The call of the item is the one that was found.
  obtain ⟨as', bs', hq', hp, hmatched', -⟩ := Call.mem_among hc
  have hsame : call = c := by
    have hq₁ : q.tokens = (as ++ scope.select :: scope.modifiers) ++ c.name :: (call.tokens.tail
        ++ (named ++ (behind ++ bs))) := by
      rw [hq, hbody, hitem, ← hname, Call.tokens]
      simp
    have hq₂ : q.tokens = as' ++ c.name :: (c.tokens.tail ++ bs') := hq'
    have hrest := (h.append_cons_inj hq₁ hq₂).2
    have hboth : call.tokens ++ (named ++ (behind ++ bs)) = c.tokens ++ bs' := by
      rw [Call.tokens, Call.tokens] at *
      rw [hname]
      exact congrArg (c.name :: ·) hrest
    exact hmatched.eq hmatched' hboth
  subst hsame
  have hpairs : (scope.modifiers ++ item ++ behind).Pairwise fun t u => t.start < u.start := by
    have hp := h.pairwise_start
    rw [hq, List.pairwise_append, List.pairwise_cons, List.pairwise_append, hbody] at hp
    exact hp.2.1.2.1
  obtain ⟨us, vs, htab, hwords⟩ := hcl htables
  have hlaid := laid hpairs htab hwords fun o ho => hcl ho
  rw [← hbody] at hlaid
  refine ⟨behind, ?_, hlaid, rfl, hitem, fun o ho => ?_, hends⟩
  · rw [hbody, hitem]
    simp
  · obtain ⟨-, -, -, hw⟩ := hcl ho
    revert hw
    generalize o.words = ws
    rintro ⟨⟩
    exact List.cons_ne_nil _ _

/-- How the tokens of a scope are laid out around a call that is all that it selects. -/
structure Surrounds (q : Query) (c : Call) (scope : Scope) (tables : Clause) (as named behind bs : List Token) : Prop where
  mem : scope ∈ q.scopes
  found : scope.clause? .tables = some tables
  body : scope.body = scope.modifiers ++ (c.tokens ++ (named ++ behind))
  ends : Clause.EndsAt scope.depth behind
  tokens : q.tokens = as ++ (scope.select :: (scope.modifiers ++ (c.tokens ++ (named ++ behind))) ++ bs)

/-- The edit of a scope, with the tokens of the scope laid out. -/
theorem exists_layout (h : q.IsRead tail) (hc : c ∈ q.calls fun t => (aggregate? t).isSome)
    (he : scopeEdit q c operand = .ok e) :
    ∃ scope tables as named behind bs, Surrounds q c scope tables as named behind bs ∧
      scope.select.isKeyword .SELECT = true ∧
      Laid behind (innerTokens scope tables) (orderTokens (scope.clause? .ordering)) ∧ Query.AtEnd bs ∧ operand ≠ [] ∧
      e.span.start = scope.select.start ∧
      e.span.stop = Token.stopOr 0 (scope.select :: (scope.modifiers ++ (c.tokens ++ (named ++ behind)))) ∧
      e.text = spell (derivedCells (scope.select :: (scope.modifiers ++ [c.name])) named operand
        (innerTokens scope tables) (orderTokens (scope.clause? .ordering))) := by
  obtain ⟨scope, item, call, named, tables, hscope, hitems, hcall, htables, hone, rfl⟩ := scopeEdit_eq_ok he
  have hmem : scope ∈ q.scopes := by simpa using List.mem_of_find?_eq_some hscope
  obtain ⟨as, bs, stop, hq, hbs, -, -, -, hselect⟩ := h.scope hmem
  obtain ⟨behind, hbody, hlaid, rfl, hitem, hwords, hends⟩ := body_eq h hc hscope hitems hcall htables
  have hoperand : operand ≠ [] := by
    rintro rfl
    cases hone
  refine ⟨scope, tables, as, named, behind, bs, ⟨hmem, htables, hbody, hends, ?_⟩, hselect, hlaid,
    fun t ht => (hbs t ht).endsClause, hoperand, rfl, ?_, ?_⟩
  · rw [hq, hbody]
    simp
  · rw [← hbody, Token.stopOr_cons]
    rw [hbody, Call.tokens]
    simp
  · refine spell_derivedCells tables named operand ?_ hwords
    rw [hitem]
    rfl

/-! ### Swaps -/

/-- The `DISTINCT` of a call goes, or a scope makes room for one with a table of the distinct values. -/
inductive Swapped : List Cell → List Cell → List Cell → List Cell → Prop
  | plain {X Y : List Cell} {opening distinct next : Token} (left : opening.isSymbol .leftParen = true)
      (word : distinct.isKeyword .DISTINCT = true) :
      Swapped X (opening.cell :: (ofGap distinct.gap ++ distinct.cell :: ofGap next.gap)) (next.cell :: Y)
        (opening.cell :: ofGap distinct.gap)
  | derived {X Y B : List Cell} {select name opening distinct closing : Token}
      {modifiers operand named behind inner order : List Token} (word : select.isKeyword .SELECT = true)
      (unqualified : ∀ t ∈ modifiers.getLast?, t.isSymbol .dot = false)
      (aggregate : (aggregate? name).isSome = true) (left : opening.isSymbol .leftParen = true)
      (distinctWord : distinct.isKeyword .DISTINCT = true) (right : closing.isSymbol .rightParen = true)
      (laid : Laid behind inner order)
      (front : Writable (stretch (select :: (modifiers ++ [name]))))
      (nameable : named ≠ [] → Writable (stretch named)) (value : Writable (stretch operand))
      (rows : inner ≠ [] → Writable (stretch inner)) (context : Sound (stretch order ++ B))
      (soft : Soft Y) (ends : Cell.AtEnd Y) :
      Swapped X (stretch (select :: (modifiers ++ (name :: opening :: distinct ::
          (operand ++ closing :: (named ++ behind)))))) Y
        (derivedCells (select :: (modifiers ++ [name])) named operand inner order)

/-- The last token of the new scope, and how what is before it is read. -/
theorem exists_rowsCells {order : List Token} {B : List Cell} (context : Sound (stretch order ++ B))
    (hf : ∀ c ∈ stretch order, c.isFault = false) :
    ∃ as k w rest, rowsCells order = Cell.sign ')' :: (as ++ [.token k w]) ∧ k.isFault = false ∧
      (Cell.token k w).Fits rest ∧ ∀ {p : Cell → Bool} {os ss ss₁ : List Cell},
        (∀ c, c.isFault = true → p c = false) → Soft ss → Sound ss → Cell.Joined k w ss ss₁ →
          Settles p os ss₁ → ∃ ss', Settles p (Cell.sign ')' :: (as ++ os)) (Cell.sign ')' :: ss') := by
  have has : Writable [Cell.word "AS".toList] := writable_word (by decide) (by decide) (by decide)
  have hrows := isWord_rows
  have hname : ∀ {p : Cell → Bool} {os ss : List Cell}, Settles p os ss →
      ∃ ss', Settles p (Cell.sign ')' :: Cell.space :: Cell.word "AS".toList :: Cell.space :: os)
        (Cell.sign ')' :: ss') := by
    intro p os ss h
    obtain ⟨ss₁, h₁, hs₁⟩ := h.blank
    obtain ⟨ss₂, h₂, -⟩ := (has.settles h₁ hs₁).blank
    exact ⟨ss₂, h₂.sign (.inr (.inl rfl))⟩
  by_cases hne : order = []
  · subst hne
    refine ⟨[Cell.space, Cell.word "AS".toList, Cell.space], _, "distinct_rows".toList, [], rfl,
      (Cell.Wordy.word hrows).isFault, (Cell.Wordy.word hrows).fits (by decide) rfl, ?_⟩
    exact fun _ _ _ _ h => hname h
  · obtain ⟨as, t, hlast, -⟩ := Token.exists_stretch_concat hne
    rw [hlast] at context hf
    rw [List.append_assoc, List.singleton_append] at context
    have hword : Writable [Cell.word "distinct_rows".toList] := .word hrows (by decide)
    refine ⟨Cell.space :: Cell.word "AS".toList :: Cell.space :: Cell.word "distinct_rows".toList ::
      Cell.space :: as, t.kind, t.text, spell B, ?_, hf t.cell (by simp),
      (Cell.sound_cons_iff.1 context.of_append).1, ?_⟩
    · rw [rowsCells, if_neg hne, hlast]
      rfl
    · intro p os ss ss₁ hfault soft hss hj h
      obtain ⟨ss₂, h₂, -⟩ := h.tail context (fun c hc => hf c (by simp [hc])) hfault soft hss hj
      obtain ⟨ss₃, h₃, hs₃⟩ := h₂.blank
      exact hname (hword.settles h₃ hs₃)

/-- The last token of the new cells, and how what is before it is read. -/
theorem exists_derivedCells {front named operand inner order : List Token} {B : List Cell} {t : Token}
    (hfront : Writable (stretch (t :: front))) (hnamed : named ≠ [] → Writable (stretch named))
    (hoperand : Writable (stretch operand)) (hinner : inner ≠ [] → Writable (stretch inner))
    (context : Sound (stretch order ++ B)) (hf : ∀ c ∈ stretch order, c.isFault = false) :
    ∃ as k w rest, derivedCells (t :: front) named operand inner order = as ++ [.token k w] ∧
      k.isFault = false ∧ (Cell.token k w).Fits rest ∧
      ∀ {p : Cell → Bool} {os ss ss₁ : List Cell}, (∀ c, c.isFault = true → p c = false) → Soft ss →
        Sound ss → Cell.Joined k w ss ss₁ → Settles p os ss₁ →
          ∃ ss', Settles p (as ++ os) (t.cell :: ss') := by
  obtain ⟨as, k, w, rest, hrows, hk, hfit, hset⟩ := exists_rowsCells context hf
  refine ⟨valueCells (t :: front) named operand ++ Cell.space :: (stretch inner ++ Cell.sign ')' :: as), k, w,
    rest, ?_, hk, hfit, ?_⟩
  · rw [derivedCells, hrows]
    simp
  · intro p os ss ss₁ hfault soft hss hj h
    obtain ⟨ss₂, h₂⟩ := hset hfault soft hss hj h
    obtain ⟨ss₃, h₃⟩ : ∃ ss₃, Settles p (stretch inner ++ Cell.sign ')' :: (as ++ os)) ss₃ := by
      by_cases hne : inner = []
      · subst hne
        exact ⟨_, h₂⟩
      · exact ⟨_, (hinner hne).settles h₂ (Cell.stops_sign (.inr (.inl rfl)) _)⟩
    obtain ⟨ss₄, h₄, hs₄⟩ := h₃.blank
    have := (writable_valueCells hfront hnamed hoperand).settles h₄ hs₄
    obtain ⟨ds, hds⟩ : ∃ ds, valueCells (t :: front) named operand = t.cell :: ds := by
      unfold valueCells headCells
      simp only
      split
      · exact ⟨_, rfl⟩
      · exact ⟨_, rfl⟩
    rw [hds] at this ⊢
    exact ⟨_, by simpa using this⟩

theorem Laid.mem_cells {behind inner order : List Token} (h : Laid behind inner order) (us : List Token) :
    (∀ c ∈ stretch inner, c ∈ Token.cells (us ++ behind)) ∧
      ∀ c ∈ stretch order, c ∈ Token.cells (us ++ behind) := by
  cases h with
  | @apart u inner order v rows ordered =>
    refine ⟨fun c hc => ?_, fun c hc => ?_⟩
    · have := Token.mem_cells_of_mem_stretch (u := us ++ u) (w := order ++ v) hc
      simpa using this
    · have := Token.mem_cells_of_mem_stretch (u := us ++ (u ++ inner)) (w := v) hc
      simpa using this

/-- A `SELECT` that stays, whatever comes behind it. -/
theorem replaces_select {select : Token} {cs ss : List Cell} {rest : SqlText}
    (hfit : select.cell.Fits rest) (word : select.isKeyword .SELECT = true) :
    Replaces (select.cell :: cs) (select.cell :: ss) := by
  have hkind : select.kind = .keyword .SELECT := Kind.isKeyword_iff.1 word
  rw [Token.cell, hkind] at hfit ⊢
  obtain ⟨c, u, htext, hhead⟩ := Cell.head_of_keyword hfit
  have hword := (Cell.isWord_of_keyword hfit).1
  rw [htext] at hword ⊢
  refine .of_word hword.continues_head (by simpa using hword.1) ?_ ?_
  · rintro rfl
    exact absurd hhead (by decide)
  · rintro rfl
    exact absurd hhead (by decide)

/-! ### How they are read -/

theorem settles_plain {p : Cell → Bool} {X Y os ss : List Cell} {opening distinct next : Token}
    (left : opening.isSymbol .leftParen = true)
    (hs : Sound (X ++ (opening.cell :: (ofGap distinct.gap ++ distinct.cell :: ofGap next.gap)
      ++ next.cell :: Y))) (h : Settles p os ss) :
    ∃ ss', Settles p (opening.cell :: ofGap distinct.gap ++ os) (opening.cell :: ss') ∧
      ∀ cs, Replaces cs (opening.cell :: ss') := by
  have hsound := hs.of_append
  rw [List.cons_append] at hsound
  obtain ⟨hfit, hrest⟩ := Cell.sound_cons_iff.1 hsound
  have hk : opening.kind = .symbol .leftParen := Kind.isSymbol_iff.1 left
  have hcell : opening.cell = Cell.sign '(' := by
    rw [Token.cell, hk] at hfit ⊢
    rw [(Cell.text_of_symbol hfit).1 rfl]
    rfl
  obtain ⟨ss', h'⟩ : ∃ ss', Settles p (ofGap distinct.gap ++ os) ss' := by
    unfold ofGap
    split
    · exact ⟨ss, h⟩
    · next hg =>
      rw [ofGap, if_neg hg] at hrest
      obtain ⟨hgap, hrest⟩ := Cell.sound_cons_iff.1 hrest
      obtain ⟨ss', h', -⟩ := h.gap hgap (Cell.Sound.spell_ne_nil (c := distinct.cell) hrest)
      exact ⟨ss', h'⟩
  rw [hcell]
  exact ⟨ss', h'.sign (.inl rfl), fun cs => .of_stops (Cell.stops_sign (.inl rfl) ss')⟩

/-- How what is swapped in is read: as it stands, or its last token is read with what is behind it. -/
theorem Swapped.settles {X D Y N : List Cell} (h : Swapped X D Y N) (hs : Sound (X ++ (D ++ Y)))
    (hf : ∀ c ∈ X ++ (D ++ Y), c.isFault = false) :
    (∀ {p : Cell → Bool} {os ss : List Cell}, Settles p os ss →
      ∃ ss', Settles p (N ++ os) ss' ∧ Replaces (D ++ Y) ss') ∨
    (Soft Y ∧ Cell.AtEnd Y ∧ ∃ as k v rest, N = as ++ [.token k v] ∧ k.isFault = false ∧
      (Cell.token k v).Fits rest ∧ ∀ {p : Cell → Bool} {os ss ss₁ : List Cell},
        (∀ c, c.isFault = true → p c = false) → Soft ss → Sound ss → Cell.Joined k v ss ss₁ →
          Settles p os ss₁ → ∃ ss', Settles p (as ++ os) ss' ∧ Replaces (D ++ Y) ss') := by
  cases h with
  | plain left word =>
    refine .inl fun h => ?_
    obtain ⟨ss', h', hr'⟩ := settles_plain left hs h
    exact ⟨_, h', hr' _⟩
  | @derived _ B select name opening distinct closing modifiers operand named behind inner order
      word unqualified aggregate left distinctWord right laid front nameable value rows context soft ends =>
    have horder : ∀ c ∈ stretch order, c.isFault = false := by
      intro c hc
      refine hf c ?_
      have := (laid.mem_cells (modifiers ++ (name :: opening :: distinct ::
        (operand ++ closing :: named)))).2 c hc
      rw [Token.stretch_cons]
      simp only [List.mem_append, List.mem_cons]
      refine .inr (.inl (.inr ?_))
      simpa using this
    obtain ⟨as, k, v, rest, hN, hk, hfit, hset⟩ :=
      exists_derivedCells front nameable value rows context horder
    refine .inr ⟨soft, ends, as, k, v, rest, hN, hk, hfit, fun hfault soft' hss hj h => ?_⟩
    obtain ⟨ss', h'⟩ := hset hfault soft' hss hj h
    exact ⟨_, h', replaces_select (Cell.sound_cons_iff.1 hs.of_append).1 word⟩

theorem harmless {p : Cell → Bool} (hp : Spares p) (hfault : ∀ c, c.isFault = true → p c = false)
    (hwordy : ∀ k t, Cell.Wordy k t → p (.token k t) = false) : Woven.Harmless p Swapped where
  settles := by
    rintro X D Y N os ss hsw hs hf h hr
    rcases hsw.settles hs hf with hset | ⟨soft, -, as, k, v, rest, rfl, hk, hfit, hset⟩
    · exact hset h
    · have soft' := soft.of_replaces hr
      obtain ⟨ss₁, hj⟩ := soft'.joined h.sound hfit hk
      rw [List.append_assoc]
      exact hset hfault soft' h.sound hj (hj.settles hp (fun k' u hw _ => hwordy k' u hw) h)
  ends := by
    rintro X D Y N hsw hn
    cases hsw with
    | plain left word => cases hn
    | derived => cases hn

/-! ### Where the cells come from -/

theorem mem_headCells {P : Cell → Prop} {front named : List Token} (hplain : ∀ c, Cell.Plain c → P c)
    (hfront : ∀ c ∈ stretch front, P c) (hnamed : ∀ c ∈ stretch named, P c) :
    ∀ c ∈ headCells front named, P c := by
  have hcall : ∀ c ∈ stretch front ++ Cell.sign '(' ::
      ([Cell.word "distinct_value".toList] ++ [Cell.sign ')']), P c := by
    simp only [List.forall_mem_append, List.forall_mem_cons]
    exact ⟨hfront, hplain _ (Cell.plain_sign (.inl rfl)),
      ⟨hplain _ (Cell.plain_word (Cell.isWord_of_all (by decide) (by decide))), nofun⟩,
      hplain _ (Cell.plain_sign (.inr (.inl rfl))), nofun⟩
  unfold headCells
  simp only
  split
  · exact hcall
  · rw [List.forall_mem_append, List.forall_mem_cons]
    exact ⟨hcall, hplain _ (Cell.plain_gap _), hnamed⟩

theorem mem_derivedCells {P : Cell → Prop} {front named operand inner order : List Token}
    (hplain : ∀ c, Cell.Plain c → P c) (hfront : ∀ c ∈ stretch front, P c)
    (hnamed : ∀ c ∈ stretch named, P c) (hoperand : ∀ c ∈ stretch operand, P c)
    (hinner : ∀ c ∈ stretch inner, P c) (horder : ∀ c ∈ stretch order, P c) :
    ∀ c ∈ derivedCells front named operand inner order, P c := by
  have hspace : P Cell.space := hplain _ (Cell.plain_gap _)
  have hword : ∀ {w : SqlText}, w.head?.any Text.startsWord = true → w.all Text.continuesWord = true →
      P (Cell.word w) := fun hfirst hall => hplain _ (Cell.plain_word (Cell.isWord_of_all hfirst hall))
  have hrows : ∀ c ∈ rowsCells order, P c := by
    unfold rowsCells
    simp only [List.forall_mem_cons]
    refine ⟨hplain _ (Cell.plain_sign (.inr (.inl rfl))), hspace, hword (by decide) (by decide), hspace,
      hword (by decide) (by decide), ?_⟩
    split
    · exact nofun
    · rw [List.forall_mem_cons]
      exact ⟨hspace, horder⟩
  unfold derivedCells valueCells innerCells
  simp only [List.forall_mem_append, List.forall_mem_cons]
  exact ⟨⟨mem_headCells hplain hfront hnamed, hspace, ⟨hword (by decide) (by decide), nofun⟩, hspace,
    hplain _ (Cell.plain_sign (.inl rfl)), ⟨hword (by decide) (by decide), nofun⟩, hspace,
    ⟨hword (by decide) (by decide), nofun⟩, hspace, hoperand, hspace, ⟨hword (by decide) (by decide), nofun⟩,
    hspace, ⟨hword (by decide) (by decide), nofun⟩, hspace, hword (by decide) (by decide), nofun⟩,
    hspace, hinner, hrows⟩

theorem Swapped.source {X D Y N : List Cell} (h : Swapped X D Y N) :
    ∀ c ∈ N, c ∈ X ++ (D ++ Y) ∨ Cell.Plain c := by
  cases h with
  | plain left word =>
    intro c hc
    simp only [List.mem_append, List.mem_cons] at hc ⊢
    rcases hc with rfl | hc
    · simp
    · simp [hc]
  | @derived _ B select name opening distinct closing modifiers operand named behind inner order
      word unqualified aggregate left distinctWord right laid front nameable value rows context soft ends =>
    have hin : ∀ {u v w : List Token}, modifiers ++ (name :: opening :: distinct ::
        (operand ++ closing :: (named ++ behind))) = u ++ (v ++ w) → ∀ c ∈ stretch v,
        c ∈ X ++ (stretch (select :: (modifiers ++ (name :: opening :: distinct ::
          (operand ++ closing :: (named ++ behind))))) ++ Y) ∨ Cell.Plain c := by
      intro u v w heq c hc
      left
      rw [Token.stretch_cons, heq, List.mem_append, List.mem_append]
      exact .inr (.inl (List.mem_cons_of_mem _ (Token.mem_cells_of_mem_stretch hc)))
    have hbehind : ∀ c ∈ Token.cells (modifiers ++ (name :: opening :: distinct ::
        (operand ++ closing :: named)) ++ behind), c ∈ X ++ (stretch (select :: (modifiers ++
          (name :: opening :: distinct :: (operand ++ closing :: (named ++ behind))))) ++ Y) ∨
          Cell.Plain c := by
      intro c hc
      left
      rw [Token.stretch_cons, List.mem_append, List.mem_append]
      refine .inr (.inl (List.mem_cons_of_mem _ ?_))
      simpa using hc
    obtain ⟨hinner, horder⟩ := laid.mem_cells (modifiers ++ (name :: opening :: distinct ::
      (operand ++ closing :: named)))
    refine mem_derivedCells (fun c hc => .inr hc) ?_ ?_ ?_ (fun c hc => hbehind c (hinner c hc))
      fun c hc => hbehind c (horder c hc)
    · intro c hc
      left
      rw [Token.stretch_cons] at hc ⊢
      simp only [List.mem_cons, Token.cells_append, Token.cells_cons, Token.cells_nil, List.mem_append,
        List.not_mem_nil, or_false] at hc ⊢
      grind
    · exact hin (u := modifiers ++ (name :: opening :: distinct :: (operand ++ [closing])))
        (w := behind) (by simp)
    · exact hin (u := modifiers ++ [name, opening, distinct]) (w := closing :: (named ++ behind)) (by simp)

/-! ### The edits -/

theorem firstCall?_eq_some (h : firstCall? q = some (aggregate, c, distinct, operand)) :
    (c ∈ q.calls fun t => (aggregate? t).isSome) ∧ c.args = distinct :: operand ∧
      distinct.isKeyword .DISTINCT = true := by
  obtain ⟨c', hc', hfound⟩ := List.exists_of_findSome?_eq_some h
  split at hfound
  · next a d ops haggregate hargs =>
    split at hfound
    · next hd =>
      cases hfound
      exact ⟨hc', hargs, hd⟩
    · cases hfound
  · cases hfound

/-- Where the first call may do without its `DISTINCT`, this is a swap of each sort that its going is. -/
theorem once_of_plain {R : Swap} {text out : SqlText} (hq : Query.ofText text = .ok q)
    (hcall : firstCall? q = some (aggregate, c, distinct, operand))
    (hR : ∀ {X Y : List Cell} {opening distinct next : Token}, opening.isSymbol .leftParen = true →
      distinct.isKeyword .DISTINCT = true → R X (opening.cell :: (ofGap distinct.gap ++ distinct.cell :: ofGap next.gap))
        (next.cell :: Y) (opening.cell :: ofGap distinct.gap))
    (happ : Edit.applyAll [⟨⟨distinct.start, Token.startOr c.closing.start operand⟩, []⟩] text = .ok out) :
    R.Once text out := by
  obtain ⟨rfl, tail, h⟩ := Query.isRead hq
  obtain ⟨hc, hargs, hd⟩ := firstCall?_eq_some hcall
  obtain ⟨as, bs, htokens, -, hmatched, -⟩ := Call.mem_among hc
  -- The token behind the `DISTINCT`.
  obtain ⟨next, us, hnext, hstart⟩ := Token.exists_startOr_eq operand c.closing bs
  have hall : q.tokens = (as ++ [c.name]) ++ c.opening :: distinct :: next :: us := by
    rw [htokens, Call.tokens, hargs, ← hnext]
    simp
  obtain ⟨hcells, hdstart, -⟩ := h.split_one
    (show q.tokens = (as ++ [c.name, c.opening]) ++ distinct :: next :: us by rw [hall]; simp)
  obtain ⟨-, hnstart, -⟩ := h.split_one
    (show q.tokens = (as ++ [c.name, c.opening, distinct]) ++ next :: us by rw [hall]; simp)
  refine .of_edit (X := Token.cells (as ++ [c.name]) ++ ofGap c.opening.gap)
    (K := c.opening.cell :: ofGap distinct.gap) (D := distinct.cell :: ofGap next.gap)
    (Y := next.cell :: (Token.cells us ++ tail)) (N := []) ?_ ?_ ?_ ?_ rfl happ
  · have hswap := @hR (Token.cells (as ++ [c.name]) ++ ofGap c.opening.gap) (Token.cells us ++ tail) c.opening distinct
      next hmatched.left hd
    simpa using hswap
  · rw [h.cells, hcells]
    simp
  · show distinct.start = _
    rw [hdstart]
    simp
  · show Token.startOr c.closing.start operand = _
    rw [hstart, hnstart]
    simp

/-- Where a scope makes room for one with a table, the edit is a swap of each sort that this is. -/
theorem isSwap_of {R : Swap} (h : q.IsRead tail) (hcall : firstCall? q = some (aggregate, c, distinct, operand))
    (he : scopeEdit q c operand = .ok e)
    (hR : ∀ {scope tables as named behind bs D N}, Surrounds q c scope tables as named behind bs →
      D = stretch (scope.select :: (scope.modifiers ++ (c.tokens ++ (named ++ behind)))) →
      N = derivedCells (scope.select :: (scope.modifiers ++ [c.name])) named operand (innerTokens scope tables)
        (orderTokens (scope.clause? .ordering)) →
      Swapped (Token.cells as ++ ofGap scope.select.gap) D (Token.cells bs ++ tail) N →
      R (Token.cells as ++ ofGap scope.select.gap) D (Token.cells bs ++ tail) N) :
    e.IsSwap R (fun _ => false) (Token.cells q.tokens ++ tail) := by
  obtain ⟨hc, hargs, hd⟩ := firstCall?_eq_some hcall
  obtain ⟨scope, tables, as, named, behind, bs, hscope, hselect, hlaid, hbs, hoperand, hstart, hstop, htext⟩ :=
    exists_layout h hc he
  have htokens := hscope.tokens
  obtain ⟨as', bs', htokens', hname, hmatched, -, hdot⟩ := Call.mem_among hc
  obtain ⟨hcells, hstart', hstop'⟩ := h.split htokens
  have hcall' : c.tokens ++ (named ++ behind) =
      c.name :: c.opening :: distinct :: (operand ++ c.closing :: (named ++ behind)) := by
    rw [Call.tokens, hargs]
    simp
  have hwrite : ∀ {u v w : List Token}, scope.modifiers ++ (c.tokens ++ (named ++ behind)) = u ++ (v ++ w) →
      v ≠ [] → Writable (stretch v) := by
    intro u v w heq hv
    refine h.writable (a := as ++ scope.select :: u) (b := w ++ bs) ?_ hv
    rw [htokens, heq]
    simp
  have hunqualified : ∀ t ∈ scope.modifiers.getLast?, t.isSymbol .dot = false := by
    intro t ht
    refine hdot t ?_
    have hq₁ : q.tokens
        = (as ++ scope.select :: scope.modifiers) ++ c.name :: (c.tokens.tail ++ (named ++ behind) ++ bs) := by
      rw [htokens, Call.tokens]
      simp
    have hq₂ : q.tokens = as' ++ c.name :: (c.tokens.tail ++ bs') := htokens'
    rw [← (h.append_cons_inj hq₁ hq₂).1, List.getLast?_append, List.getLast?_cons, ht]
    rfl
  have hlaidRows : (innerTokens scope tables ≠ [] → Writable (stretch (innerTokens scope tables))) ∧
      ∃ B, Sound (stretch (orderTokens (scope.clause? .ordering)) ++ B) := by
    generalize innerTokens scope tables = inner at hlaid
    generalize orderTokens (scope.clause? .ordering) = order at hlaid
    cases hlaid with
    | @apart u inner order v rows ordered =>
      refine ⟨hwrite (u := scope.modifiers ++ (c.tokens ++ (named ++ u))) (w := order ++ v) (by simp), ?_⟩
      cases order with
      | nil => exact ⟨[], .nil⟩
      | cons o os =>
        obtain ⟨hsplit, -⟩ := h.split (show q.tokens = (as ++ scope.select ::
          (scope.modifiers ++ (c.tokens ++ (named ++ (u ++ inner))))) ++ (o :: os ++ (v ++ bs)) by rw [htokens]; simp)
        have hsound := h.sound
        rw [hsplit] at hsound
        exact ⟨_, hsound.of_append⟩
  obtain ⟨hrows, B, hcontext⟩ := hlaidRows
  have hderived : Swapped (Token.cells as ++ ofGap scope.select.gap) (stretch (scope.select :: (scope.modifiers ++
      (c.name :: c.opening :: distinct :: (operand ++ c.closing :: (named ++ behind)))))) (Token.cells bs ++ tail)
      (derivedCells (scope.select :: (scope.modifiers ++ [c.name])) named operand (innerTokens scope tables)
        (orderTokens (scope.clause? .ordering))) := .derived
    hselect hunqualified hname hmatched.left hd (Token.isSymbol_of_isSymbolAt hmatched.right) hlaid
    (h.writable (a := as) (b := c.opening :: (c.args ++ c.closing :: (named ++ behind)) ++ bs)
      (by rw [htokens, Call.tokens]; simp) (List.cons_ne_nil _ _))
    (hwrite (u := scope.modifiers ++ c.tokens) (w := behind) (by simp))
    (hwrite (u := scope.modifiers ++ [c.name, c.opening, distinct]) (w := c.closing :: (named ++ behind))
      (by rw [hcall']; simp) hoperand)
    hrows hcontext
    (h.soft (show q.tokens = (as ++ scope.select :: (scope.modifiers ++ (c.tokens ++ (named ++ behind)))) ++ bs by
      rw [htokens]; simp) fun t ht => .inl (hbs t ht)) (h.atEnd hbs)
  rw [← hcall'] at hderived
  refine .of_eq (hR hscope rfl rfl hderived) hcells (by rw [hstart, hstart']) ?_ htext
  rw [hstop, hstop' 0]

theorem isSwap (h : q.IsRead tail) (hcall : firstCall? q = some (aggregate, c, distinct, operand))
    (he : scopeEdit q c operand = .ok e) : e.IsSwap Swapped (fun _ => false) (Token.cells q.tokens ++ tail) :=
  isSwap_of h hcall he fun _ _ _ hswap => hswap

/-- What a step makes of a text is a swap of each sort that the swaps of both kinds are. -/
theorem once_of {R : Swap} {text out : SqlText} (hq : Query.ofText text = .ok q)
    (he : step q = .ok (some e)) (happ : Edit.applyAll [e] text = .ok out)
    (hplain : ∀ {X Y : List Cell} {opening distinct next : Token}, opening.isSymbol .leftParen = true →
      distinct.isKeyword .DISTINCT = true → R X (opening.cell :: (ofGap distinct.gap ++ distinct.cell :: ofGap next.gap))
        (next.cell :: Y) (opening.cell :: ofGap distinct.gap))
    (hderived : ∀ {tail aggregate c distinct operand scope tables as named behind bs D N}, q.IsRead tail →
      firstCall? q = some (aggregate, c, distinct, operand) → Surrounds q c scope tables as named behind bs →
      D = stretch (scope.select :: (scope.modifiers ++ (c.tokens ++ (named ++ behind)))) →
      N = derivedCells (scope.select :: (scope.modifiers ++ [c.name])) named operand (innerTokens scope tables)
        (orderTokens (scope.clause? .ordering)) →
      Swapped (Token.cells as ++ ofGap scope.select.gap) D (Token.cells bs ++ tail) N →
      R (Token.cells as ++ ofGap scope.select.gap) D (Token.cells bs ++ tail) N) :
    R.Once text out := by
  unfold step at he
  split at he
  · cases he
  · next aggregate c distinct operand hcall =>
    split at he
    · cases he
      exact once_of_plain hq hcall hplain happ
    · split at he
      · next edit hedit =>
        cases he
        exact Query.once hq (fun _ => false) (fun _ h => isSwap_of h hcall hedit (hderived h hcall)) happ
      · cases he

/-- What a step makes of a text. -/
theorem once {text out : SqlText} (hq : Query.ofText text = .ok q)
    (he : step q = .ok (some e)) (happ : Edit.applyAll [e] text = .ok out) :
    Swap.Once Swapped text out :=
  once_of hq he happ .plain fun _ _ _ _ _ hswap => hswap

end JetAdapter.Distinct
