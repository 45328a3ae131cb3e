import JetAdapter.Proofs.Opacity
import JetAdapter.Proofs.Surroundings

/-!
# Clause by clause

All joins of a text are nested with one set of edits, made for the text as it is.  The other way is to nest them clause
by clause: from the last scope to the first one, so that inner scopes come before those around them, the text of the
`FROM` clause is replaced by what `JoinChain.nestClause` makes of it, and the text is read again each time
(`JoinChain.nestEach`).

Both come to the same where no scope holds another `SELECT` of its own depth (`nested_clause_by_clause`).  Where one
does, two scopes share a clause: the set of edits nests it twice, and clause by clause it is nested once
(`not_nested_clause_by_clause`).
-/

namespace JetAdapter

open Token (Level Run Placed written lead)
open Edit (insertedAt insertAll)
open Text (byteSize)

namespace JoinChain

/-- Nests the joins in the `FROM` clause of one scope, and leaves all else as it is. -/
def nestScope (index : Nat) (text : SqlText) : Except SqlError SqlText := do
  let q ← Query.ofText text
  match q.scopes[index]?.bind (Scope.clause? · .tables) with
  | none => return text
  | some clause =>
    let nested ← nestClause (Token.spell clause.body)
    let span := ⟨Token.startOr clause.stop clause.body, Token.stopOr clause.stop clause.body⟩
    Edit.applyAll [⟨span, nested⟩] text

/-- Nests the joins of so many scopes clause by clause, those of the last scope first. -/
def nestEach : Nat → SqlText → Except SqlError SqlText
  | 0, text => .ok text
  | count + 1, text => do nestEach count (← nestScope count text)

end JoinChain

/-! ### Scopes of a query -/

namespace Scope

variable {stop : Nat} {t : Token} {as after : List Token}

theorem among_getElem? (ht : t.isKeyword .SELECT = true) (stop : Nat) (as : List Token) :
    (among stop (as ++ t :: after))[Token.selects as]? = some (ofSelect stop t after) := by
  induction as with
  | nil =>
    rw [List.nil_append, among, if_pos ht]
    rfl
  | cons a as ih =>
    rw [List.cons_append, among, Token.selects, List.countP_cons]
    by_cases ha : a.isKeyword .SELECT = true
    · rw [if_pos ha, if_pos ha, List.getElem?_cons_succ]
      exact ih
    · rw [if_neg ha, if_neg ha]
      exact ih

theorem length_among (stop : Nat) (ts : List Token) : (among stop ts).length = Token.selects ts := by
  induction ts with
  | nil => rfl
  | cons t ts ih =>
    rw [among, Token.selects, List.countP_cons]
    by_cases ht : t.isKeyword .SELECT = true
    · rw [if_pos ht, if_pos ht, List.length_cons, ih]
      rfl
    · rw [if_neg ht, if_neg ht, ih]
      rfl

end Scope

namespace Query.IsRead

variable {q : Query} {tail : List Cell} {as after : List Token} {t : Token} {stop : Nat} {c : Clause}

/-- Where the `FROM` clause of a scope stands. -/
theorem exists_tables (h : q.IsRead tail) (hq : q.tokens = as ++ t :: after) (ht : t.isKeyword .SELECT = true)
    (hc : (Scope.ofSelect stop t after).clause? .tables = some c) :
    ∃ front f bs, after = front ++ f :: (c.body ++ bs) ∧ f.isKeyword .FROM = true ∧ f.depth = t.depth ∧ AtEnd bs ∧
      Level t.depth c.body := by
  have hlevel := Scope.level_of_clause? (h.run_behind hq ht) hc
  have hends := Scope.endsScope_of_dropWhile (hq ▸ h.nested)
  have hafter := List.takeWhile_append_dropWhile (p := Scope.reaches t.depth) (l := after)
  have hmem : c ∈ (Scope.ofSelect stop t after).clauses := by simpa using List.mem_of_find?_eq_some hc
  have hkind : c.kind = .tables := by simpa using List.find?_some hc
  obtain ⟨us, vs, hbody, hwords, hvs⟩ := Clause.mem_cut hmem
  generalize (Clause.cut t.depth (Token.startOr stop (after.dropWhile (Scope.reaches t.depth)))
    (after.takeWhile (Scope.reaches t.depth))).1 = front at hbody
  generalize after.dropWhile (Scope.reaches t.depth) = rest at hends hafter
  rw [hkind] at hwords
  generalize c.words = words at hbody hwords
  cases hwords with
  | @tables f word at_ =>
    refine ⟨front ++ us, f, vs ++ rest, ?_, word, at_, fun v hv => ?_, hlevel⟩
    · rw [← hafter, hbody]
      simp
    · rcases hvs with rfl | ⟨b, ws, rfl, -, hopen⟩
      · exact (hends v hv).endsClause
      · obtain rfl : b = v := by simpa using hv
        exact Clause.endsClause_of_opened? hopen

end Query.IsRead

/-! ### One clause -/

namespace JoinChain

variable {q : Query} {tail : List Cell} {s : Scope} {ss : List Scope} {es : List Edit} {e : Edit} {d : Nat}

theorem Inserts.insertsInto (h : q.IsRead tail) (he : Inserts q d e) : e.InsertsInto q.text := by
  rw [h.text_eq]
  cases he with
  | before tokens => exact (h.placed.insertsInto (by rw [tokens]; simp) _ _).1
  | behind tokens => exact (h.placed.insertsInto (by rw [tokens]; simp) _ _).2

theorem insertsInto_of_scopesEdits (h : q.IsRead tail) (hss : ∀ s ∈ ss, s ∈ q.scopes) (hes : scopesEdits ss = .ok es) :
    ∀ e ∈ es, e.InsertsInto q.text := by
  intro e he
  obtain ⟨s, hs, clause, hclause, b, hb, hne, wrapped, i, chain, hchain, he⟩ := exists_of_mem_scopesEdits hes he
  exact (inserts_of_mem_blockEdits h (hss s hs) hclause hb hne hchain he).insertsInto h

theorem ne_nil_of_clauseEdits {depth stop : Nat} {ts : List Token} (h : clauseEdits depth stop ts = .ok es) :
    ts ≠ [] := by
  rintro rfl
  cases h

/-- **Steps.**  After the clause of one scope was nested, the text is read again with the same tokens before its
`SELECT`, and the scopes that start there are nested to the same text as if all were nested at once. -/
theorem nestScope_eq_ok {as after : List Token} {t : Token} {c : Clause} (h : q.IsRead tail)
    (hread : Query.ofText q.text = .ok q) (hq : q.tokens = as ++ t :: after) (ht : t.isKeyword .SELECT = true)
    (hapart : Apart (as ++ [t])) (hc : (Scope.ofSelect q.stop t after).clause? .tables = some c)
    (hes : clauseEdits t.depth c.stop c.body = .ok es) :
    ∃ q', Query.ofText q'.text = .ok q' ∧ nestScope (Token.selects as) q.text = .ok q'.text ∧
      (∃ rest, q'.tokens = as ++ rest) ∧
      Except.Alike (fun fs fs' => insertAll (fs ++ es) q.text = insertAll fs' q'.text)
        (scopesEdits (q.scopes.take (Token.selects as))) (scopesEdits (q'.scopes.take (Token.selects as))) := by
  have hne := ne_nil_of_clauseEdits hes
  have hscope : (q.scopes[Token.selects as]?.bind (Scope.clause? · .tables)) = some c := by
    rw [Query.scopes, hq, Scope.among_getElem? ht]
    exact hc
  obtain ⟨front, f, bs, rfl, hfrom, hf, hend, hl⟩ := h.exists_tables hq ht hc
  have hsplit : q.tokens = (as ++ t :: (front ++ [f])) ++ (c.body ++ bs) := by simpa using hq
  obtain ⟨ts', bs', n, hbs', hn, hts', text', htext', hread'⟩ := h.ofText_nested hsplit hne hl hend hes
  obtain ⟨-, tail', h'⟩ := Query.isRead hread'
  -- Where the clause stands.
  have hplaced := h.placed
  rw [hsplit] at hplaced
  have hbody := (Token.placed_append_iff.1 (Token.placed_append_iff.1 hplaced).2).1
  obtain ⟨hstart, hsize⟩ := hbody.extent hne 0 c.stop
  obtain ⟨hstart', hsize'⟩ := hbody.extent hne c.stop 0
  have hedits : ∀ e ∈ es, Token.startOr 0 c.body ≤ e.span.start ∧ e.span.start ≤ Token.stopOr 0 c.body := by
    obtain ⟨clause, hclause, htokens, rfl⟩ := clauseEdits_eq_ok_iff.1 hes
    intro e he
    obtain ⟨u, hu, s, rfl | rfl⟩ := hclause.exists_of_mem_edits he
    · obtain ⟨hle, hle', hle''⟩ := hbody.within (htokens ▸ hu) 0 0
      exact ⟨hle, Nat.le_trans hle' hle''⟩
    · obtain ⟨hle, hle', hle''⟩ := hbody.within (htokens ▸ hu) 0 0
      exact ⟨Nat.le_trans hle hle', hle''⟩
  -- The text before the clause, its text and the text behind it.
  obtain ⟨U, W, hU, htext, rfl⟩ : ∃ U W, byteSize U = Token.startOr 0 c.body ∧
      q.text = U ++ (Token.spell c.body ++ W) ∧ text' = U ++ (Token.edited es c.body ++ W) := by
    refine ⟨written (as ++ t :: (front ++ [f])) ++ lead c.body, Cell.spell (Token.cells bs ++ tail), ?_, ?_, ?_⟩
    · rw [Text.byteSize_append, hstart, Nat.zero_add]
    · have hbehind : Cell.spell (Token.cells bs ++ tail) = written bs ++ Cell.spell tail := by
        rw [Cell.spell_append, Token.spell_cells]
        rfl
      rw [h.text_eq, hsplit, Token.written_append, Token.written_append c.body, Token.written_eq c.body, hbehind]
      simp only [List.append_assoc]
    · rw [htext', List.append_assoc]
  have hq' : as ++ t :: (front ++ [f]) ++ (ts' ++ bs'.map (Token.shifted n))
      = as ++ t :: (front ++ f :: (ts' ++ bs'.map (Token.shifted n))) := by simp
  refine ⟨⟨_, _⟩, hread', ?_, ⟨_, hq'⟩, ?_⟩
  · have hnested : nestClause (Token.spell c.body) = .ok (Token.edited es c.body) := by
      have hclause : (∃ es', clauseEdits t.depth c.stop c.body = .ok es' ∧ _) ∨ _ := nestClause_spell h hsplit hne hl
      rw [hes] at hclause
      rcases hclause with ⟨es', hes', hok⟩ | ⟨e, e', herror, -⟩
      · cases hes'
        exact hok
      · cases herror
    rw [nestScope, hread]
    show (match q.scopes[Token.selects as]?.bind (Scope.clause? · .tables) with
      | none => Except.ok q.text
      | some clause => _) = _
    rw [hscope]
    show (nestClause (Token.spell c.body) >>= fun nested => _) = _
    rw [hnested, htext]
    exact Edit.applyAll_replace (by omega) (by omega)
  · have hbs : bs' = bs ∨ ∃ w, bs = w :: bs' ∧ w.depth = t.depth := by
      refine hbs'.imp_right ?_
      rintro ⟨w, k, hw, hk⟩
      refine ⟨w, hw, ?_⟩
      have hclause : q.tokens = (as ++ t :: front) ++ f :: (c.body ++ bs) := by simpa using hq
      have hrun := h.run_behind hclause hfrom
      obtain ⟨e, hrunbody, hrunbs⟩ := hrun.of_append
      rw [hf] at hrunbody
      rw [hrunbody.unique hl.run, hw] at hrunbs
      exact (hrunbs.of_cons (Token.not_paren_of_isKeyword hk).1 (Token.not_paren_of_isKeyword hk).2).1
    have halike := scopesEdits_take_around h h' hq hq' ht hf hne hl.le hts' hbs hapart
    refine halike.mono fun fs fs' hfs => ?_
    rw [htext]
    exact Edit.insertAll_around hfs hedits rfl rfl (by omega) hU hn

theorem exists_of_nestScope {index : Nat} {c : Clause} {out : SqlText} (hread : Query.ofText q.text = .ok q)
    (hc : (q.scopes[index]?.bind (Scope.clause? · .tables)) = some c) (h : nestScope index q.text = .ok out) :
    ∃ nested, nestClause (Token.spell c.body) = .ok nested := by
  rw [nestScope, hread] at h
  change (match q.scopes[index]?.bind (Scope.clause? · .tables) with
    | none => Except.ok q.text
    | some clause => _) = _ at h
  rw [hc] at h
  obtain ⟨nested, hnested, -⟩ := Except.bind_eq_ok h
  exact ⟨nested, hnested⟩

/-- A scope without `FROM` clause stays as it is. -/
theorem nestScope_of_none {as after : List Token} {t : Token} (hread : Query.ofText q.text = .ok q)
    (hq : q.tokens = as ++ t :: after) (ht : t.isKeyword .SELECT = true)
    (hc : (Scope.ofSelect q.stop t after).clause? .tables = none) :
    nestScope (Token.selects as) q.text = .ok q.text := by
  have hscope : (q.scopes[Token.selects as]?.bind (Scope.clause? · .tables)) = none := by
    rw [Query.scopes, hq, Scope.among_getElem? ht]
    exact hc
  rw [nestScope, hread]
  show (match q.scopes[Token.selects as]?.bind (Scope.clause? · .tables) with
    | none => Except.ok q.text
    | some clause => _) = _
  rw [hscope]

/-- A scope has edits just if its `FROM` clause can be nested. -/
theorem exists_scopesEdits_iff (h : q.IsRead tail) (hs : s ∈ q.scopes) : (∃ es, scopesEdits [s] = .ok es) ↔
    ∀ c, s.clause? .tables = some c → ∃ text, nestClause (Token.spell c.body) = .ok text := by
  obtain ⟨as, after, hq, heq, hselect⟩ := Scope.mem_among hs
  cases hc : s.clause? .tables with
  | none => exact ⟨fun _ => nofun, fun _ => ⟨[], scopesEdits_of_none hc⟩⟩
  | some c =>
    rw [scopesEdits_of_some hc]
    have hclause : (∃ es, clauseEdits s.depth c.stop c.body = .ok es) ↔
        ∃ text, nestClause (Token.spell c.body) = .ok text := by
      by_cases hne : c.body = []
      · have hnil : nestClause (Token.spell []) = .error (.syntaxError .emptyTableExpression ⟨0, 0⟩) := by
          decide +kernel
        rw [hne, hnil]
        constructor
        · rintro ⟨es, ⟨⟩⟩
        · rintro ⟨text, ⟨⟩⟩
      · rw [heq] at hc
        obtain ⟨front, f, bs, rfl, -, -, -, hl⟩ := h.exists_tables hq hselect hc
        have hsplit : q.tokens = (as ++ s.select :: (front ++ [f])) ++ (c.body ++ bs) := by simpa using hq
        have hboth : (∃ es, clauseEdits s.depth c.stop c.body = .ok es ∧ _) ∨ _ := nestClause_spell h hsplit hne hl
        rcases hboth with ⟨es, hes, hok⟩ | ⟨e, e', herror, herror'⟩
        · exact ⟨fun _ => ⟨_, hok⟩, fun _ => ⟨es, hes⟩⟩
        · rw [show clauseEdits s.depth c.stop c.body = .error e from herror, herror']
          constructor
          · rintro ⟨es, ⟨⟩⟩
          · rintro ⟨text, ⟨⟩⟩
    rw [hclause]
    exact ⟨fun htext c' hc' => Option.some.inj hc' ▸ htext, fun htext => htext c rfl⟩

theorem exists_scopesEdits_all_iff :
    (∃ es, scopesEdits ss = .ok es) ↔ ∀ s ∈ ss, ∃ es, scopesEdits [s] = .ok es := by
  induction ss with
  | nil => exact ⟨fun _ => nofun, fun _ => ⟨[], rfl⟩⟩
  | cons s ss ih =>
    rw [scopesEdits_cons, List.forall_mem_cons, ← ih]
    constructor
    · rintro ⟨es, h⟩
      obtain ⟨fs, hfs, h⟩ := Except.bind_eq_ok h
      obtain ⟨gs, hgs, -⟩ := Except.bind_eq_ok h
      exact ⟨⟨fs, hfs⟩, gs, hgs⟩
    · rintro ⟨⟨fs, hfs⟩, gs, hgs⟩
      refine ⟨fs ++ gs, ?_⟩
      rw [hfs, hgs]
      rfl

theorem Apart.of_append {as bs : List Token} (h : Apart (as ++ bs)) : Apart as := by
  rintro us vs ws t u rfl
  have hall : us ++ t :: (vs ++ u :: ws) ++ bs = us ++ t :: (vs ++ u :: (ws ++ bs)) := by simp
  exact h hall

/-- **Runs.**  The scopes that start in a stretch are nested one by one to the same text as with one set of edits. -/
theorem nestEach_eq_ok_iff (hread : Query.ofText q.text = .ok q) {as rest : List Token} (hq : q.tokens = as ++ rest)
    (hapart : Apart as) (out : SqlText) :
    nestEach (Token.selects as) q.text = .ok out ↔
      ∃ es, scopesEdits (q.scopes.take (Token.selects as)) = .ok es ∧ insertAll es q.text = out := by
  induction as using List.reverseRecOn generalizing q rest with
  | nil =>
    have hnone : insertAll [] q.text = q.text := by
      have hquiet : Text.weave (insertedAt []) 0 q.text = q.text := Text.weave_of_quiet fun _ _ _ => rfl
      rw [insertAll, hquiet, Edit.insertedAt_nil, List.append_nil]
    show Except.ok q.text = Except.ok out ↔ ∃ es, Except.ok [] = Except.ok es ∧ _
    constructor
    · rintro ⟨⟩
      exact ⟨[], rfl, hnone⟩
    · rintro ⟨es, ⟨⟩, rfl⟩
      rw [hnone]
  | append_singleton as t ih =>
    have hq : q.tokens = as ++ t :: rest := by simpa using hq
    have hselects : Token.selects (as ++ [t]) = Token.selects as + if t.isKeyword .SELECT then 1 else 0 := by
      rw [Token.selects, List.countP_append, List.countP_singleton]
      rfl
    by_cases ht : t.isKeyword .SELECT = true
    · obtain ⟨-, tail, h⟩ := Query.isRead hread
      have hscope : q.scopes[Token.selects as]? = some (Scope.ofSelect q.stop t rest) := by
        rw [Query.scopes, hq, Scope.among_getElem? ht]
      have hmem := List.mem_of_getElem? hscope
      rw [hselects, if_pos ht, List.take_add_one, hscope, Option.toList_some, scopesEdits_append, nestEach]
      cases hc : (Scope.ofSelect q.stop t rest).clause? .tables with
      | none =>
        rw [nestScope_of_none hread hq ht hc, scopesEdits_of_none hc]
        show nestEach (Token.selects as) q.text = .ok out ↔ _
        rw [ih hread hq hapart.of_append]
        cases scopesEdits (q.scopes.take (Token.selects as)) with
        | error e =>
          constructor
          · rintro ⟨es, ⟨⟩, -⟩
          · rintro ⟨es, ⟨⟩, -⟩
        | ok es =>
          show _ ↔ ∃ fs, Except.ok (es ++ []) = Except.ok fs ∧ _
          rw [List.append_nil]
      | some c =>
        have hone : _ = clauseEdits t.depth c.stop c.body := scopesEdits_of_some hc
        cases hes : clauseEdits t.depth c.stop c.body with
        | error e =>
          have hclause := exists_scopesEdits_iff h hmem
          rw [hone, hes] at hclause ⊢
          constructor
          · intro hout
            obtain ⟨text, hstep, -⟩ := Except.bind_eq_ok hout
            have hnested := exists_of_nestScope hread (by rw [hscope]; exact hc) hstep
            obtain ⟨es, ⟨⟩⟩ := hclause.2 fun c' hc' => by
              rw [hc] at hc'
              cases hc'
              exact hnested
          · rintro ⟨es, hes, -⟩
            obtain ⟨fs, -, hes⟩ := Except.bind_eq_ok hes
            cases hes
        | ok es =>
          obtain ⟨q', hread', hstep, ⟨rest', hq'⟩, halike⟩ := nestScope_eq_ok h hread hq ht hapart hc hes
          rw [hstep, hone, hes]
          show nestEach (Token.selects as) q'.text = .ok out ↔ _
          rw [ih hread' hq' hapart.of_append]
          generalize scopesEdits (q.scopes.take (Token.selects as)) = x at halike
          generalize scopesEdits (q'.scopes.take (Token.selects as)) = y at halike
          cases halike with
          | error outline =>
            constructor
            · rintro ⟨es, ⟨⟩, -⟩
            · rintro ⟨es, ⟨⟩, -⟩
          | @ok fs fs' hsame =>
            show _ ↔ ∃ gs, Except.ok (fs ++ es) = Except.ok gs ∧ _
            constructor
            · rintro ⟨gs, ⟨⟩, rfl⟩
              exact ⟨_, rfl, hsame⟩
            · rintro ⟨gs, ⟨⟩, rfl⟩
              exact ⟨_, rfl, hsame.symm⟩
    · rw [hselects, if_neg ht, Nat.add_zero]
      exact ih hread hq hapart.of_append

end JoinChain

open JoinChain (nestClause nestEach)

theorem Adapter.adaptText_eq_ok_iff {q : Query} (limit : Option UInt64) (h : Query.ofText q.text = .ok q)
    (union : ∀ t ∈ q.tokens, t.isKeyword .UNION = false) (out : SqlText) :
    (ofOptions ⟨[], limit, none⟩).adaptText q.text = .ok out ↔
      ∃ es, JoinChain.scopesEdits q.scopes = .ok es ∧ insertAll es q.text = out := by
  obtain ⟨-, tail, hread⟩ := Query.isRead h
  have hunion : ¬ (q.tokens.any fun t => t.isKeyword .UNION) = true := by simpa using union
  rw [adaptText_of_no_rules, JoinChain.nestAll, h]
  show (if (q.tokens.any fun t => t.isKeyword .UNION) = true then _
    else JoinChain.scopesEdits q.scopes >>= fun es => Edit.applyAll es q.text) = _ ↔ _
  rw [if_neg hunion]
  cases hes : JoinChain.scopesEdits q.scopes with
  | error e =>
    constructor
    · rintro ⟨⟩
    · rintro ⟨es, ⟨⟩, -⟩
  | ok es =>
    show Edit.applyAll es q.text = _ ↔ _
    rw [Edit.applyAll_insertions (JoinChain.insertsInto_of_scopesEdits hread (fun s hs => hs) hes)]
    constructor
    · rintro ⟨⟩
      exact ⟨es, rfl, rfl⟩
    · rintro ⟨fs, ⟨⟩, rfl⟩
      rfl

theorem JoinChain.apart_of_scopes {q : Query}
    (h : ∀ s ∈ q.scopes, ∀ t ∈ s.body, t.isKeyword .SELECT = true → s.depth < t.depth) : Apart q.tokens := by
  intro as bs cs t u hq ht hu hreach
  have hscope : Scope.ofSelect q.stop t (bs ++ u :: cs) ∈ q.scopes := by
    rw [Query.scopes, hq]
    exact Scope.ofSelect_mem_among ht _ as
  refine h _ hscope u ?_ hu
  show u ∈ (bs ++ u :: cs).takeWhile (Scope.reaches t.depth)
  rw [List.append_cons, List.takeWhile_append_of_pos hreach]
  simp

/-- **One pass and clause by clause.**  A text without `UNION` whose scopes hold no other `SELECT` of their own depth is
adapted without rules just if the `FROM` clauses of all its scopes can be nested, and then to what comes out when they
are nested one by one, inner scopes first. -/
theorem nested_clause_by_clause (limit : Option UInt64) (text : SqlText) (q : Query) (h : Query.ofText text = .ok q)
    (union : ∀ t ∈ q.tokens, t.isKeyword .UNION = false)
    (apart : ∀ s ∈ q.scopes, ∀ t ∈ s.body, t.isKeyword .SELECT = true → s.depth < t.depth) :
    ((∃ out, (Adapter.ofOptions ⟨[], limit, none⟩).adaptText text = .ok out) ↔
      ∀ s ∈ q.scopes, ∀ c, s.clause? .tables = some c → ∃ nested, nestClause (Token.spell c.body) = .ok nested) ∧
    ∀ out, (Adapter.ofOptions ⟨[], limit, none⟩).adaptText text = .ok out ↔
      nestEach q.scopes.length text = .ok out := by
  obtain ⟨rfl, tail, hread⟩ := Query.isRead h
  have hadapt := Adapter.adaptText_eq_ok_iff limit h union
  constructor
  · have hscopes : (∃ es, JoinChain.scopesEdits q.scopes = .ok es) ↔ _ := JoinChain.exists_scopesEdits_all_iff.trans
      (forall₂_congr fun s hs => JoinChain.exists_scopesEdits_iff hread hs)
    rw [← hscopes, exists_congr hadapt]
    exact ⟨fun ⟨_, es, hes, _⟩ => ⟨es, hes⟩, fun ⟨es, hes⟩ => ⟨_, es, hes, rfl⟩⟩
  · intro out
    have hlength : q.scopes.length = Token.selects q.tokens := Scope.length_among _ _
    have hall : q.tokens = q.tokens ++ [] := (List.append_nil _).symm
    have heach := JoinChain.nestEach_eq_ok_iff h hall (JoinChain.apart_of_scopes apart) out
    rw [← hlength, List.take_length] at heach
    rw [hadapt, heach]

/-- The joins of a single scope. -/
example : nestEach 1 "select a from X join Y on 1 join Z on 2".toList
    = .ok "select a from (X join Y on 1) join Z on 2".toList := by
  decide +kernel

theorem Query.exists_of_ofText {P : Query → Prop} [DecidablePred P] {text : SqlText}
    (h : ((ofText text).toOption.any fun q => decide (P q)) = true) : ∃ q, ofText text = .ok q ∧ P q := by
  cases hq : ofText text with
  | error e =>
    rw [hq] at h
    cases h
  | ok q =>
    rw [hq] at h
    exact ⟨q, rfl, of_decide_eq_true h⟩

/-- A derived table is nested, and the clause that it stands in. -/
theorem nested_clause_by_clause_derived :
    ∃ q,
      Query.ofText "select a from (select b from X join Y on 1 join Z on 2) t join V on 3 join W on 4".toList = .ok q ∧
      ((∀ t ∈ q.tokens, t.isKeyword .UNION = false) ∧
        ∀ s ∈ q.scopes, ∀ t ∈ s.body, t.isKeyword .SELECT = true → s.depth < t.depth) ∧
      nestEach q.scopes.length q.text
        = .ok "select a from ((select b from (X join Y on 1) join Z on 2) t join V on 3) join W on 4".toList := by
  have hread : ∃ q,
      Query.ofText "select a from (select b from X join Y on 1 join Z on 2) t join V on 3 join W on 4".toList = .ok q ∧
      (∀ t ∈ q.tokens, t.isKeyword .UNION = false) ∧
      ∀ s ∈ q.scopes, ∀ t ∈ s.body, t.isKeyword .SELECT = true → s.depth < t.depth :=
    Query.exists_of_ofText (by decide +kernel)
  obtain ⟨q, hq, union, apart⟩ := hread
  refine ⟨q, hq, ⟨union, apart⟩, ?_⟩
  rw [(Query.isRead hq).1]
  exact ((nested_clause_by_clause none _ q hq union apart).2 _).1 (by decide +kernel)

/-- Where two scopes share a clause, it is nested for each of them. -/
theorem not_nested_clause_by_clause :
    ∃ q, Query.ofText "select a select b from X join Y on 1 join Z on 2".toList = .ok q ∧
      (∀ t ∈ q.tokens, t.isKeyword .UNION = false ∧ t.isSymbol .leftParen = false) ∧
      (Adapter.ofOptions ⟨[], none, none⟩).adaptText q.text
        = .ok "select a select b from ((X join Y on 1)) join Z on 2".toList ∧
      nestEach q.scopes.length q.text = .ok "select a select b from (X join Y on 1) join Z on 2".toList :=
  Query.exists_of_ofText (by decide +kernel)

end JetAdapter
