import JetAdapter.Proofs.DistinctSwaps
import JetAdapter.Proofs.Levels
import JetAdapter.Proofs.Neat
import JetAdapter.Proofs.Progress
import Mathlib.Data.List.Find

/-!
# Twin scopes

Twins have the same aggregates over distinct values, in the same scopes.
-/

namespace JetAdapter

open Cell (Leads IsSpaced Neat NeatTwins)
open Token (stretch row)

variable {free : Bool} {l : Layout} {tail tail' : List Cell} {q q' : Query} {s s' : SqlText}

/-! ### Tokens of twins -/

namespace Query

variable {t u : Token}

/-- A token starts at one place. -/
theorem IsRead.eq_of_start (h : q.IsRead tail) (ht : t ∈ q.tokens) (hu : u ∈ q.tokens) (hstart : t.start = u.start) :
    t = u := by
  have hp : q.tokens.Pairwise fun t u => t.start = u.start → t = u :=
    h.pairwise_start.imp fun hlt heq => absurd heq (Nat.ne_of_lt hlt)
  refine hp.forall_of_forall_of_flip (fun _ _ _ => rfl) ?_ ht hu hstart
  exact h.pairwise_start.imp fun hlt heq => absurd heq (Nat.ne_of_gt hlt)

/-- The tokens come in the same order with both layouts. -/
theorem Twins.start_lt_iff (h : q.Twins free l tail tail' q') (ht : t ∈ q.tokens) (hu : u ∈ q.tokens) :
    (t.relaid l).start < (u.relaid l).start ↔ t.start < u.start := by
  have hp := h.read'.pairwise_start
  rw [h.relaid.tokens, List.pairwise_map] at hp
  have hboth := h.read.pairwise_start.and hp
  refine List.Pairwise.forall_of_forall_of_flip (R := fun t u : Token =>
    (t.relaid l).start < (u.relaid l).start ↔ t.start < u.start) (fun _ _ => by simp) ?_ ?_ ht hu
  · exact hboth.imp fun hlt => iff_of_true hlt.2 hlt.1
  · exact hboth.imp fun hlt => iff_of_false (Nat.lt_asymm hlt.2) (Nat.lt_asymm hlt.1)

theorem Twins.relaid_inj (h : q.Twins free l tail tail' q') (ht : t ∈ q.tokens) (hu : u ∈ q.tokens) :
    t.relaid l = u.relaid l ↔ t = u := by
  refine ⟨fun heq => ?_, fun heq => by rw [heq]⟩
  have hlt := h.start_lt_iff ht hu
  have hgt := h.start_lt_iff hu ht
  rw [heq] at hlt hgt
  exact h.read.eq_of_start ht hu (by omega)

theorem IsRead.mem_of_mem_list {scope : Scope} (h : q.IsRead tail) (hs : scope ∈ q.scopes) (ht : t ∈ scope.list) :
    t ∈ q.tokens := by
  obtain ⟨as, rest, stop, hq, -, -, hlist, -⟩ := h.scope hs
  obtain ⟨bs, hbody, -⟩ := Clause.cut_fst scope.depth stop scope.body
  rw [hlist] at ht
  have hmem := List.mem_of_mem_drop ht
  rw [hq, hbody]
  simp [hmem]

theorem Twins.scopeOfListed?_relaid (h : q.Twins free l tail tail' q') (ht : t ∈ q.tokens) :
    q'.scopeOfListed? (t.relaid l) = (q.scopeOfListed? t).map (Scope.relaid l) := by
  have hmem : ∀ scope ∈ q.scopes.reverse, t.relaid l ∈ (scope.relaid l).list ↔ t ∈ scope.list := by
    intro scope hs
    refine ⟨fun hm => ?_, fun hm => List.mem_map_of_mem hm⟩
    obtain ⟨u, hu, heq⟩ := List.mem_map.1 hm
    obtain rfl := (h.relaid_inj (h.read.mem_of_mem_list (List.mem_reverse.1 hs) hu) ht).1 heq
    exact hu
  rw [scopeOfListed?, scopeOfListed?, h.relaid.scopes, ← List.map_reverse, List.find?_map]
  exact congrArg _ (List.find?_congr fun scope hs => decide_eq_decide.2 (hmem scope hs))

theorem IsRead.exists_start {scope : Scope} {clause : Clause} (h : q.IsRead tail) (hs : scope ∈ q.scopes)
    (hc : clause ∈ scope.clauses) : ∃ t ∈ q.tokens, clause.start = t.start := by
  obtain ⟨as, bs, hq, hwords, -⟩ := h.clause hs hc
  obtain ⟨t, ts, hne⟩ : ∃ t ts, clause.words = t :: ts := by
    revert hwords
    generalize clause.kind = kind
    generalize clause.words = ws
    rintro ⟨⟩
    all_goals exact ⟨_, _, rfl⟩
  refine ⟨t, ?_, ?_⟩
  · rw [hq, hne]
    simp
  · rw [Clause.start, hne]
    rfl

theorem IsRead.mem_of_mem_body {scope : Scope} (h : q.IsRead tail) (hs : scope ∈ q.scopes) (ht : t ∈ scope.body) :
    t ∈ q.tokens := by
  obtain ⟨as, rest, stop, hq, -⟩ := h.scope hs
  rw [hq]
  simp [ht]

end Query

/-! ### Aggregates over distinct values -/

namespace Distinct

theorem isAlias_relaid (ts : List Token) : isAlias (ts.map (Token.relaid l)) = isAlias ts := by
  match ts with
  | [] | [_] | [_, _] | _ :: _ :: _ :: _ => rfl

theorem isOneExpression_relaid (depth : Nat) (operand : List Token) :
    isOneExpression depth (operand.map (Token.relaid l)) = isOneExpression depth operand := by
  cases operand with
  | nil => rfl
  | cons t ts =>
    have hsplit := Token.splitCommas_relaid (l := l) depth (t :: ts)
    rw [List.map_cons] at hsplit
    unfold isOneExpression
    simp only [List.map_cons, hsplit, List.length_map, Token.relaid_isSymbol]

theorem firstCall?_relaid (h : q.Relaid l q') :
    firstCall? q' = (firstCall? q).map fun (aggregate, c, distinct, operand) =>
      (aggregate, c.relaid l, distinct.relaid l, operand.map (Token.relaid l)) := by
  unfold firstCall?
  rw [h.calls fun _ => rfl, List.findSome?_map, List.map_findSome?]
  refine congrArg (fun f => List.findSome? f _) (funext fun c => ?_)
  obtain ⟨name, opening, args, closing⟩ := c
  simp only [Function.comp_apply, Call.relaid]
  rw [show aggregate? (name.relaid l) = aggregate? name from rfl]
  cases aggregate? name with
  | none => rfl
  | some aggregate =>
    cases args with
    | nil => rfl
    | cons distinct operand =>
      simp only [List.map_cons, Token.relaid_isKeyword]
      split
      · rfl
      · rfl

theorem takeWhile_congr {ts : List Token} {p p' : Token → Bool} (h : ∀ t ∈ ts, p t = p' t) :
    ts.takeWhile p = ts.takeWhile p' := by
  induction ts with
  | nil => rfl
  | cons t ts ih =>
    obtain ⟨ht, hts⟩ := List.forall_mem_cons.1 h
    rw [List.takeWhile_cons, List.takeWhile_cons, ht, ih hts]

theorem innerTokens_relaid (h : q.Twins free l tail tail' q') {scope : Scope} {tables : Clause}
    (hs : scope ∈ q.scopes) (htables : tables ∈ scope.clauses) :
    innerTokens (scope.relaid l) (tables.relaid l) = (innerTokens scope tables).map (Token.relaid l) := by
  obtain ⟨f, hf, hstart⟩ := h.read.exists_start hs htables
  have hstart' : (tables.relaid l).start = (f.relaid l).start := by
    rw [Clause.start_relaid, hstart]
    rfl
  have hbehind : ((scope.relaid l).body.filter fun t => (tables.relaid l).start < t.start)
      = (scope.body.filter fun t => tables.start < t.start).map (Token.relaid l) := by
    rw [show (scope.relaid l).body = scope.body.map (Token.relaid l) from rfl, List.filter_map]
    refine congrArg _ (List.filter_congr fun t ht => decide_eq_decide.2 ?_)
    rw [hstart, hstart']
    exact h.start_lt_iff hf (h.read.mem_of_mem_body hs ht)
  unfold innerTokens
  rw [hbehind, List.takeWhile_map, Scope.clause?_relaid]
  refine congrArg _ (takeWhile_congr fun t ht => ?_)
  cases ho : scope.clause? .ordering with
  | none => rfl
  | some o =>
    obtain ⟨f', hf', hordering⟩ := h.read.exists_start hs (by simpa using List.mem_of_find?_eq_some ho)
    have hordering' : (o.relaid l).start = (f'.relaid l).start := by
      rw [Clause.start_relaid, hordering]
      rfl
    refine decide_eq_decide.2 ?_
    rw [hordering, hordering']
    exact h.start_lt_iff (h.read.mem_of_mem_body hs (List.mem_of_mem_filter ht)) hf'

/-- A scope makes room for one with a table in both layouts, or is refused for the same reason. -/
theorem scopeEdit_relaid {c : Call} {operand : List Token} (h : q.Twins free l tail tail' q') (hname : c.name ∈ q.tokens) :
    (∃ fault, scopeEdit q c operand = .error fault ∧
      scopeEdit q' (c.relaid l) (operand.map (Token.relaid l)) = .error fault) ∨
    ∃ scope item named call tables, q.scopeOfListed? c.name = some scope ∧ scope.items = [item] ∧
      Call.atFront (· = c.name) item = some (call, named) ∧ scope.clause? .tables = some tables ∧ operand ≠ [] ∧
      scopeEdit q c operand = .ok ⟨⟨scope.select.start, Token.stopOr scope.select.stop scope.body⟩,
        derivedText scope tables item named operand⟩ ∧
      scopeEdit q' (c.relaid l) (operand.map (Token.relaid l))
        = .ok ⟨⟨(scope.select.relaid l).start,
            Token.stopOr (scope.select.relaid l).stop (scope.body.map (Token.relaid l))⟩,
          derivedText (scope.relaid l) (tables.relaid l) (item.map (Token.relaid l)) (named.map (Token.relaid l))
            (operand.map (Token.relaid l))⟩ := by
  have hlisted : q'.scopeOfListed? (c.relaid l).name = (q.scopeOfListed? c.name).map (Scope.relaid l) :=
    h.scopeOfListed?_relaid hname
  unfold scopeEdit
  rw [hlisted]
  cases hscope : q.scopeOfListed? c.name with
  | none => exact .inl ⟨_, rfl, rfl⟩
  | some scope =>
    have hs : scope ∈ q.scopes := by simpa using List.mem_of_find?_eq_some hscope
    simp only [Option.map_some, Scope.items_relaid]
    cases hitems : scope.items with
    | nil => exact .inl ⟨_, rfl, rfl⟩
    | cons item items =>
      cases items with
      | cons _ _ => exact .inl ⟨_, rfl, rfl⟩
      | nil =>
        have hsame : ∀ t ∈ item.head?, decide (t.relaid l = (c.relaid l).name) = decide (t = c.name) := by
          intro t ht
          refine decide_eq_decide.2 (h.relaid_inj ?_ hname)
          have hne : item ≠ [] := by rintro rfl; cases ht
          obtain ⟨as, bs, hq, -⟩ := h.read.item hs (by rw [hitems]; exact List.mem_cons_self) hne
          rw [hq]
          simp [List.mem_of_mem_head? ht]
        simp only [List.map_cons, List.map_nil]
        rw [Call.atFront_relaid hsame]
        cases hcall : Call.atFront (· = c.name) item with
        | none => exact .inl ⟨_, rfl, rfl⟩
        | some found =>
          obtain ⟨call, named⟩ := found
          simp only [Option.map_some, Scope.clause?_relaid, Option.isSome_map]
          split
          · exact .inl ⟨_, rfl, rfl⟩
          cases htables : scope.clause? .tables with
          | none => exact .inl ⟨_, rfl, rfl⟩
          | some tables =>
            simp only [Option.map_some, isAlias_relaid]
            split
            · rw [show (call.relaid l).opening.depth = call.opening.depth from rfl, isOneExpression_relaid]
              split
              · next hone =>
                refine .inr ⟨scope, item, named, call, tables, rfl, hitems, hcall, htables, ?_, rfl, rfl⟩
                rintro rfl
                cases hone
              · exact .inl ⟨_, rfl, rfl⟩
            · exact .inl ⟨_, rfl, rfl⟩

/-! #### New scopes -/

section Cells

variable {front named operand inner order : List Token}

theorem head_twins {t : Token}
    (hfront : NeatTwins free (stretch (front ++ [t])) (stretch ((front ++ [t]).map (Token.relaid l))))
    (hnamed : named ≠ [] → NeatTwins free (stretch named) (stretch (named.map (Token.relaid l)))) :
    NeatTwins free (headCells (front ++ [t]) named)
      (headCells ((front ++ [t]).map (Token.relaid l)) (named.map (Token.relaid l))) := by
  have hvalue : Neat free [Cell.word "distinct_value".toList] :=
    .word (Cell.isWord_of_all (by decide) (by decide)) (by decide)
  have hlast : (stretch (front ++ [t])).getLast? = some t.cell := by
    rw [Token.getLast?_stretch, List.getLast?_concat]
    rfl
  have hcall := hfront.append (NeatTwins.refl hvalue).parens hlast (Cell.leads_sign (.inl rfl) _ _ _)
  unfold headCells
  simp only [List.map_eq_nil_iff]
  split
  · exact hcall
  · next hne => exact hcall.blank (hnamed hne)

theorem value_twins {t : Token}
    (hfront : NeatTwins free (stretch (front ++ [t])) (stretch ((front ++ [t]).map (Token.relaid l))))
    (hnamed : named ≠ [] → NeatTwins free (stretch named) (stretch (named.map (Token.relaid l))))
    (hoperand : NeatTwins free (stretch operand) (stretch (operand.map (Token.relaid l)))) :
    NeatTwins free (valueCells (front ++ [t]) named operand)
      (valueCells ((front ++ [t]).map (Token.relaid l)) (named.map (Token.relaid l))
        (operand.map (Token.relaid l))) := by
  have hword : ∀ {w : SqlText}, w.head?.any Text.startsWord = true → w.all Text.continuesWord = true →
      w.head?.any Text.isBlank = false → NeatTwins free [Cell.word w] [Cell.word w] :=
    fun hfirst hall hb => .refl (.word (Cell.isWord_of_all hfirst hall) hb)
  have hfrom := hword (w := "FROM".toList) (by decide) (by decide) (by decide)
  have hselect := hword (w := "SELECT".toList) (by decide) (by decide) (by decide)
  have hdistinct := hword (w := "DISTINCT".toList) (by decide) (by decide) (by decide)
  have has := hword (w := "AS".toList) (by decide) (by decide) (by decide)
  have hvalue := hword (w := "distinct_value".toList) (by decide) (by decide) (by decide)
  have hinner : NeatTwins free (innerCells operand) (innerCells (operand.map (Token.relaid l))) :=
    hselect.blank (hdistinct.blank (hoperand.blank (has.blank (hvalue.blank hfrom))))
  have hopened := (NeatTwins.refl (Neat.sign (.inl rfl))).append (d := Cell.sign '(') hinner rfl
    (Cell.left_leads _ _ _)
  exact (head_twins hfront hnamed).blank (hfrom.blank hopened)

theorem rows_twins (horder : order ≠ [] → NeatTwins free (stretch order) (stretch (order.map (Token.relaid l)))) :
    NeatTwins free (rowsCells order) (rowsCells (order.map (Token.relaid l))) := by
  have has : Neat free [Cell.word "AS".toList] :=
    .word (Cell.isWord_of_all (by decide) (by decide)) (by decide)
  have hrows : Neat free [Cell.word "distinct_rows".toList] := .word isWord_rows (by decide)
  have hright : Neat free [Cell.sign ')'] := .sign (.inr (.inl rfl))
  unfold rowsCells
  simp only [List.map_eq_nil_iff]
  split
  · exact .refl (hright.blank (has.blank hrows))
  · next hne =>
    exact (NeatTwins.refl hright).blank ((NeatTwins.refl has).blank ((NeatTwins.refl hrows).blank (horder hne)))

theorem derived_twins {t : Token}
    (hfront : NeatTwins free (stretch (front ++ [t])) (stretch ((front ++ [t]).map (Token.relaid l))))
    (hnamed : named ≠ [] → NeatTwins free (stretch named) (stretch (named.map (Token.relaid l))))
    (hoperand : NeatTwins free (stretch operand) (stretch (operand.map (Token.relaid l))))
    (hinner : inner ≠ [] → NeatTwins free (stretch inner) (stretch (inner.map (Token.relaid l))))
    (horder : order ≠ [] → NeatTwins free (stretch order) (stretch (order.map (Token.relaid l)))) :
    NeatTwins free (derivedCells (front ++ [t]) named operand inner order)
      (derivedCells ((front ++ [t]).map (Token.relaid l)) (named.map (Token.relaid l))
        (operand.map (Token.relaid l)) (inner.map (Token.relaid l)) (order.map (Token.relaid l))) := by
  refine (value_twins hfront hnamed hoperand).blank ?_
  have hrows := rows_twins horder
  cases inner with
  | nil => exact hrows
  | cons u us =>
    have hin := hinner (List.cons_ne_nil u us)
    obtain ⟨k, w, hlast⟩ := hin.neat.last
    exact hin.append hrows hlast (Cell.leads_sign (.inr (.inl rfl)) k w _)

end Cells

/-- Every token may stand before what is behind a scope. -/
theorem leads_behind {scope : Scope} {as rest : List Token} (h : q.IsRead tail)
    (hspaced : IsSpaced false (Token.cells q.tokens ++ tail)) (hs : scope ∈ q.scopes)
    (hq : q.tokens = as ++ ((scope.select :: scope.body) ++ rest)) (k : Kind) (w : SqlText) :
    (Cell.token k w).Leads false (Token.cells rest ++ tail) := by
  obtain ⟨as', after, hq', heq, -⟩ := Scope.mem_among hs
  obtain ⟨-, hafter⟩ := h.append_cons_inj (show q.tokens = as ++ scope.select :: (scope.body ++ rest) from hq) hq'
  have hbody : scope.body = after.takeWhile (Scope.reaches scope.select.depth) := by
    rw [heq]
    rfl
  have hrest : rest = after.dropWhile (Scope.reaches scope.select.depth) := by
    rw [← List.takeWhile_append_dropWhile (p := Scope.reaches scope.select.depth) (l := after), ← hbody] at hafter
    exact List.append_cancel_left hafter
  have hends : ∀ t ∈ rest.head?, t.EndsScope := by
    rw [hrest]
    exact Scope.endsScope_of_dropWhile (hq' ▸ h.nested)
  have hcloses : Token.Closes scope.select.depth rest := by
    rw [hrest]
    exact Query.IsRead.closes_of_dropWhile
  obtain ⟨us, u, hu⟩ := (List.eq_nil_or_concat (scope.select :: scope.body)).resolve_left (List.cons_ne_nil _ _)
  rw [List.concat_eq_append] at hu
  have hdepth : scope.select.depth ≤ u.depth := by
    have hmem : u ∈ scope.select :: scope.body := by
      rw [hu]
      simp
    rcases List.mem_cons.1 hmem with rfl | hmem
    · exact Nat.le_refl _
    · exact Query.IsRead.depth_le_of_mem_body hs u hmem
  have hleft : u.isSymbol .leftParen = false := by
    have hnested := h.nested
    rw [hq, hu] at hnested
    exact (Token.Nested.level_last (show Token.Nested 0 ((as ++ us) ++ u :: rest) by simpa using hnested) hcloses hdepth).2
  refine h.leads_any hspaced hq (by rw [hu, List.getLast?_concat]) (fun v hv => ?_) k w
  rcases hends v hv with hr | hr | hr
  · exact .inl ⟨_, rfl, hr⟩
  · exact .inl ⟨_, rfl, hr⟩
  · have hkind : v.kind = .keyword .UNION := Kind.isKeyword_iff.1 hr
    rw [hkind]
    exact .inr (Kind.not_touches_union hleft)

/-! #### Edits -/

/-- The borders of the one splice that takes a `DISTINCT` away: those around it stay. -/
def cutBorders (stop : Nat) : Borders :=
  ⟨fun _ => False, fun j => j ≠ 0 ∧ j ≠ stop, fun h => h.1 rfl⟩

/-- No cells in the place of a token and the gap behind it, behind an opening parenthesis. -/
theorem makes_cut (free : Bool) {as bs : List Token} {opening distinct next : Token} (h : q.IsRead tail)
    (hq : q.tokens = as ++ opening :: distinct :: next :: bs) (left : opening.isSymbol .leftParen = true) :
    Splice.Makes free (cutBorders (2 * as.length + 5)) (row q.tokens) tail
      ⟨2 * as.length + 3, 2 * as.length + 5, []⟩ ⟨⟨distinct.start, next.start⟩, []⟩ := by
  have hopening : opening.kind = .symbol .leftParen := Kind.isSymbol_iff.1 left
  have hq₁ : q.tokens = (as ++ [opening]) ++ distinct :: next :: bs := by rw [hq]; simp
  have hq₂ : q.tokens = (as ++ [opening, distinct]) ++ next :: bs := by rw [hq]; simp
  have hone : 2 * as.length + 3 = 2 * (as ++ [opening]).length + 1 := by simp; omega
  have htwo : 2 * as.length + 5 = 2 * (as ++ [opening, distinct]).length + 1 := by simp; omega
  have hbetween : Splice.between (row q.tokens) (2 * as.length + 1) (2 * as.length + 3)
      = opening.cell :: Cell.ofGap distinct.gap := by
    rw [hq, Token.between_gap]
  refine ⟨⟨?_, ?_, ?_, fun _ _ => id, fun _ _ => id, fun hk => hk.2 rfl⟩, ⟨List.forall_mem_nil _, Cell.isSpaced_nil, (fun _ h => by cases h), .inr ?_⟩, ?_⟩
  · simp only
    omega
  · rw [Token.length_row, hq]
    simp only [List.length_append, List.length_cons]
    omega
  · intro j hj
    simp only at hj
    omega
  · refine ⟨2 * as.length + 1, by simp only; omega, fun j hj hle => ⟨by omega, ?_⟩, ?_⟩
    · simp only at hle
      omega
    · simp only
      rw [hbetween, htwo, hq₂, Token.back_before]
      unfold Cell.ofGap
      split
      · refine ⟨opening.cell, rfl, Cell.leads_cons.2 ?_⟩
        rw [Token.cell, hopening]
        exact Kind.left_touches _
      · exact ⟨.gap distinct.gap, rfl, Cell.leads_cons.2 rfl⟩
  · rw [Splice.edit]
    simp only
    rw [hone, htwo, h.place_before hq₁, h.place_before hq₂]
    rfl

theorem cut_alike {c : Call} {distinct : Token} {operand : List Token} (h : q.Twins free l tail tail' q')
    (hc : c ∈ q.calls fun t => (aggregate? t).isSome) (hargs : c.args = distinct :: operand) :
    q.EditsAlike free tail q' tail' [⟨⟨distinct.start, Token.startOr c.closing.start operand⟩, []⟩]
      [⟨⟨(distinct.relaid l).start, Token.startOr (c.relaid l).closing.start (operand.map (Token.relaid l))⟩, []⟩] := by
  obtain ⟨as, bs, htokens, -, hmatched, -⟩ := Call.mem_among hc
  obtain ⟨next, us, hnext, hstart, hstart'⟩ : ∃ next us, operand ++ c.closing :: bs = next :: us ∧
      Token.startOr c.closing.start operand = next.start ∧
      Token.startOr (c.relaid l).closing.start (operand.map (Token.relaid l)) = (next.relaid l).start := by
    cases operand with
    | nil => exact ⟨_, _, rfl, rfl, rfl⟩
    | cons t ts => exact ⟨_, _, rfl, rfl, rfl⟩
  have hq : q.tokens = (as ++ [c.name]) ++ c.opening :: distinct :: next :: us := by
    rw [htokens, Call.tokens, hargs, ← hnext]
    simp
  have hq' : q'.tokens = (as ++ [c.name]).map (Token.relaid l) ++ c.opening.relaid l :: distinct.relaid l ::
      next.relaid l :: us.map (Token.relaid l) := by
    rw [h.relaid.tokens, hq]
    simp
  have hmakes' := makes_cut free h.read' hq' hmatched.left
  rw [List.length_map] at hmakes'
  rw [hstart, hstart']
  exact ⟨_, .cons ⟨_, _, ⟨rfl, rfl, rfl⟩, makes_cut free h.read hq hmatched.left, hmakes'⟩ .nil⟩

theorem Laid.exists_eq {behind inner order : List Token} (h : Laid behind inner order) :
    ∃ u v, behind = u ++ (inner ++ (order ++ v)) := by
  cases h with
  | apart rows ordered => exact ⟨_, _, rfl⟩

theorem head?_derivedCells (t : Token) (front named operand inner order : List Token) :
    (derivedCells (t :: front) named operand inner order).head? = some t.cell := by
  unfold derivedCells valueCells headCells
  split
  · rfl
  · rfl

/-- The edits of a scope that makes room for one with a table. -/
theorem derived_alike {c : Call} {distinct : Token} {scope : Scope} {item named operand : List Token} {call : Call}
    {tables : Clause} (h : q.Twins false l tail tail' q') (hc : c ∈ q.calls fun t => (aggregate? t).isSome)
    (hargs : c.args = distinct :: operand) (hscope : q.scopeOfListed? c.name = some scope)
    (hitems : scope.items = [item]) (hcall : Call.atFront (· = c.name) item = some (call, named))
    (htables : scope.clause? .tables = some tables) (hoperand : operand ≠ []) :
    q.EditsAlike false tail q' tail'
      [⟨⟨scope.select.start, Token.stopOr scope.select.stop scope.body⟩, derivedText scope tables item named operand⟩]
      [⟨⟨(scope.select.relaid l).start, Token.stopOr (scope.select.relaid l).stop (scope.body.map (Token.relaid l))⟩,
        derivedText (scope.relaid l) (tables.relaid l) (item.map (Token.relaid l)) (named.map (Token.relaid l))
          (operand.map (Token.relaid l))⟩] := by
  have hs : scope ∈ q.scopes := by simpa using List.mem_of_find?_eq_some hscope
  have hs' : scope.relaid l ∈ q'.scopes := by
    rw [h.relaid.scopes]
    exact List.mem_map_of_mem hs
  obtain ⟨as, rest, stop, hq, -, -, -, -, hselect⟩ := h.read.scope hs
  obtain ⟨behind, hbody, hlaid, rfl, hitem, hwords, -⟩ := body_eq h.read hc hscope hitems hcall htables
  obtain ⟨u, v, hbehind⟩ := hlaid.exists_eq
  have hq' : q'.tokens = as.map (Token.relaid l) ++
      (((scope.relaid l).select :: (scope.relaid l).body) ++ rest.map (Token.relaid l)) := by
    rw [h.relaid.tokens, hq]
    simp [Scope.relaid]
  -- What is taken from the scope.
  have hneat : ∀ us ts vs, scope.select :: scope.body = us ++ (ts ++ vs) → ts ≠ [] →
      NeatTwins false (stretch ts) (stretch (ts.map (Token.relaid l))) := by
    intro us ts vs heq hne
    refine h.neat (show q.tokens = (as ++ us) ++ (ts ++ (vs ++ rest)) from ?_) hne
    rw [hq, ← List.cons_append, heq]
    simp
  have hfront := hneat [] (scope.select :: scope.modifiers ++ [call.name])
    (call.opening :: (call.args ++ [call.closing]) ++ (named ++ behind)) (by rw [hbody, Call.tokens]; simp) (by simp)
  have hnamed := hneat (scope.select :: scope.modifiers ++ call.tokens) named behind (by rw [hbody]; simp)
  have hoperands := hneat (scope.select :: scope.modifiers ++ [call.name, call.opening, distinct]) operand
    (call.closing :: (named ++ behind)) (by rw [hbody, Call.tokens, hargs]; simp) hoperand
  have hinner := hneat (scope.select :: scope.modifiers ++ (call.tokens ++ (named ++ u))) (innerTokens scope tables)
    (orderTokens (scope.clause? .ordering) ++ v) (by rw [hbody, hbehind]; simp)
  have horder := hneat (scope.select :: scope.modifiers ++ (call.tokens ++ (named ++ (u ++ innerTokens scope tables))))
    (orderTokens (scope.clause? .ordering)) v (by rw [hbody, hbehind]; simp)
  have hcells := derived_twins hfront hnamed hoperands hinner horder
  obtain ⟨k, w, hlast⟩ := hcells.neat.last
  obtain ⟨vs, b, hb⟩ := (List.eq_nil_or_concat scope.body).resolve_left (by rw [hbody, Call.tokens]; simp)
  rw [List.concat_eq_append] at hb
  have hsplit : q.tokens = as ++ ((scope.select :: scope.body) ++ rest) := hq
  have hedit := h.editsAlike_before (t := scope.select) (u := b) (B := .behind) hsplit rfl
    (by rw [hb, ← List.cons_append, List.getLast?_concat]) id id hcells (fun d hd c hc => hd c (by rwa [List.cons_append, head?_derivedCells] at hc)) hlast
    (leads_behind h.read h.spaced hs hq k w) (leads_behind h.read' h.spaced' hs' hq' k w)
  have hhead : item.head? = some call.name := by
    rw [hitem]
    rfl
  have htext := spell_derivedCells tables named operand hhead hwords
  have hwords' : ∀ o ∈ (scope.relaid l).clause? .ordering, o.words ≠ [] := by
    intro o ho
    rw [Scope.clause?_relaid] at ho
    obtain ⟨o, ho', rfl⟩ := Option.map_eq_some_iff.1 ho
    simpa [Clause.relaid] using hwords o ho'
  have htext' := spell_derivedCells (tables.relaid l) (named.map (Token.relaid l)) (operand.map (Token.relaid l))
    (show (item.map (Token.relaid l)).head? = some (call.name.relaid l) by rw [List.head?_map, hhead]; rfl) hwords'
  have hordered : orderTokens ((scope.relaid l).clause? .ordering)
      = (orderTokens (scope.clause? .ordering)).map (Token.relaid l) := by
    rw [Scope.clause?_relaid]
    cases scope.clause? .ordering with
    | none => rfl
    | some o => simp [orderTokens, Clause.relaid]
  have hmem : tables ∈ scope.clauses := by simpa using List.mem_of_find?_eq_some htables
  rw [hordered, innerTokens_relaid h hs hmem] at htext'
  refine ⟨.behind, .cons ?_ .nil⟩
  rw [htext, htext', hb, List.map_append, List.map_singleton, Token.stopOr_concat, Token.stopOr_concat]
  simpa [Scope.relaid] using hedit

theorem step_alike (h : q.Twins false l tail tail' q') :
    Except.Alike (Option.Rel fun e e' => q.EditsAlike false tail q' tail' [e] [e']) (step q) (step q') := by
  unfold step
  rw [firstCall?_relaid h.relaid]
  cases hfirst : firstCall? q with
  | none => exact .ok .none
  | some found =>
    obtain ⟨aggregate, c, distinct, operand⟩ := found
    obtain ⟨hc, hargs, -⟩ := firstCall?_eq_some hfirst
    simp only [Option.map_some]
    split
    · exact .ok (.some (cut_alike h hc hargs))
    · have hname : c.name ∈ q.tokens := by
        obtain ⟨as, bs, htokens, -⟩ := Call.mem_among hc
        rw [htokens, Call.tokens]
        simp
      rcases scopeEdit_relaid h hname with ⟨fault, hfault, hfault'⟩ |
        ⟨scope, item, named, call, tables, hscope, hitems, hcall, htables, hoperand, hedit, hedit'⟩
      · rw [hfault, hfault']
        exact .error rfl
      · rw [hedit, hedit']
        exact .ok (.some (derived_alike h hc hargs hscope hitems hcall htables hoperand))

theorem twins (h : Text.Twins false s s') : Except.Alike (Text.Twins false) (convert s) (convert s') :=
  h.exhaust step_alike shrinks

end Distinct

end JetAdapter
