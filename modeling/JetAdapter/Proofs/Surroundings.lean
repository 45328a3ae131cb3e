import JetAdapter.Proofs.Retelling

/-!
# Around a nested clause

When the joins of a scope's `FROM` clause are nested, the scopes whose `SELECT` stands before stay as they are.  Those
that end before the clause have the same tokens.  Those around it have the same outline: the clause is nested deeper
than they are.  So their edits are the same ones, those behind the clause as much further on as the clause grew
(`JoinChain.scopesEdits_take_around`), and it comes to the same whether these are made together with those of the clause
or behind them (`Edit.insertAll_around`).
-/

namespace JetAdapter

open Token (Level Run Placed written lead)
open Edit (insertedAt)
open Text (byteSize weave)

/-! ### Edits around a stretch -/

namespace Edit

variable {first last n p : Nat} {e e' : Edit} {es es' fs : List Edit}

/-- Whether an edit inserts before a stretch, or behind it and then so many places further on. -/
inductive Around (first last n : Nat) : Edit → Edit → Prop
  | before {p : Nat} {text : SqlText} (h : p < first) : Around first last n (.insert p text) (.insert p text)
  | behind {p : Nat} {text : SqlText} (h : last < p) : Around first last n (.insert p text) (.insert (p + n) text)

section

variable (h : List.Forall₂ (Around first last n) es es')
include h

theorem insertedAt_before (hp : p < first) (hle : first ≤ last) : insertedAt es' p = insertedAt es p := by
  induction h with
  | nil => rfl
  | cons he _ ih =>
    rw [insertedAt_cons, insertedAt_cons, ih]
    cases he with
    | before => rfl
    | @behind p' text h =>
      show (if p' + n = p then _ else _) ++ _ = (if p' = p then _ else _) ++ _
      rw [if_neg (by omega), if_neg (by omega)]

theorem insertedAt_behind (hp : last < p) (hle : first ≤ last) : insertedAt es' (p + n) = insertedAt es p := by
  induction h with
  | nil => rfl
  | cons he _ ih =>
    rw [insertedAt_cons, insertedAt_cons, ih]
    cases he with
    | @before p' text h =>
      show (if p' = p + n then _ else _) ++ _ = (if p' = p then _ else _) ++ _
      rw [if_neg (by omega), if_neg (by omega)]
    | @behind p' text h =>
      show (if p' + n = p + n then text else []) ++ _ = (if p' = p then text else []) ++ _
      simp only [Nat.add_right_cancel_iff]

theorem insertedAt_inside (hfirst : first ≤ p) (hlast : p ≤ last) : insertedAt es p = [] := by
  induction h with
  | nil => rfl
  | cons he _ ih =>
    rw [insertedAt_cons, ih, List.append_nil]
    cases he with
    | @before p' text h => exact if_neg (show p' ≠ p by omega)
    | @behind p' text h => exact if_neg (show p' ≠ p by omega)

theorem insertedAt_inside' (hfirst : first ≤ p) (hlast : p ≤ last + n) : insertedAt es' p = [] := by
  induction h with
  | nil => rfl
  | cons he _ ih =>
    rw [insertedAt_cons, ih, List.append_nil]
    cases he with
    | @before p' text h => exact if_neg (show p' ≠ p by omega)
    | @behind p' text h => exact if_neg (show p' + n ≠ p by omega)

end

/-- **Edits around a stretch.**  Insertions inside a stretch and around it can be made one after the other. -/
theorem insertAll_around {ts : List Token} {U W : SqlText} (h : List.Forall₂ (Around first last n) es es')
    (hfs : ∀ e ∈ fs, first ≤ e.span.start ∧ e.span.start ≤ last) (hfirst : Token.startOr 0 ts = first)
    (hlast : Token.stopOr 0 ts = last) (hle : first + byteSize (Token.spell ts) = last) (hU : byteSize U = first)
    (hn : byteSize (Token.edited fs ts) = byteSize (Token.spell ts) + n) :
    insertAll (es ++ fs) (U ++ (Token.spell ts ++ W)) = insertAll es' (U ++ (Token.edited fs ts ++ W)) := by
  have houtside : ∀ {p : Nat}, p < first ∨ last < p → insertedAt fs p = [] := by
    intro p hp
    refine insertedAt_eq_nil fun e he => ?_
    have := hfs e he
    omega
  have hbefore : weave (insertedAt (es ++ fs)) 0 U = weave (insertedAt es') 0 U := by
    refine Text.weave_congr fun p _ hp => ?_
    rw [insertedAt_append, houtside (by omega), List.append_nil, insertedAt_before h (by omega) (by omega)]
  have hstretch : weave (insertedAt (es ++ fs)) first (Token.spell ts)
      = weave (insertedAt fs) first (Token.spell ts) := by
    refine Text.weave_congr fun p hp hp' => ?_
    rw [insertedAt_append, insertedAt_inside h (by omega) (by omega), List.nil_append]
  have hedited : weave (insertedAt es') first (Token.edited fs ts) = Token.edited fs ts := by
    refine Text.weave_of_quiet fun p hp hp' => ?_
    exact insertedAt_inside' h hp (by omega)
  -- At the end of the stretch come the insertions into it, and behind it there are only those around it.
  have hrest : weave (insertedAt (es ++ fs)) last W ++ insertedAt (es ++ fs) (last + byteSize W)
      = insertedAt fs last ++ (weave (insertedAt es') (last + n) W ++ insertedAt es' (last + n + byteSize W)) := by
    have hnone : insertedAt es last = [] := insertedAt_inside h (by omega) (Nat.le_refl _)
    have hnone' : insertedAt es' (last + n) = [] := insertedAt_inside' h (by omega) (Nat.le_refl _)
    cases W with
    | nil => simp [weave, hnone, hnone']
    | cons c W =>
      have hpos := c.utf8Size_pos
      have hmoved : weave (insertedAt es') (last + c.utf8Size + n) W
          = weave (insertedAt (es ++ fs)) (last + c.utf8Size) W := by
        refine Text.weave_shift n fun p hp _ => ?_
        rw [insertedAt_append, houtside (by omega), List.append_nil, insertedAt_behind h (by omega) (by omega)]
      have hend : insertedAt es' (last + byteSize (c :: W) + n) = insertedAt (es ++ fs) (last + byteSize (c :: W)) := by
        rw [insertedAt_append, houtside (by rw [Text.byteSize_cons]; omega), List.append_nil,
          insertedAt_behind h (by rw [Text.byteSize_cons]; omega) (by omega)]
      rw [weave, weave, Nat.add_right_comm last n, Nat.add_right_comm last n, hmoved, hend, insertedAt_append, hnone,
        hnone']
      simp
  have hsize : byteSize (U ++ (Token.spell ts ++ W)) = last + byteSize W := by
    rw [Text.byteSize_append, Text.byteSize_append]
    omega
  have hsize' : byteSize (U ++ (Token.edited fs ts ++ W)) = last + n + byteSize W := by
    rw [Text.byteSize_append, Text.byteSize_append]
    omega
  have hplace : first + byteSize (Token.edited fs ts) = last + n := by omega
  rw [insertAll, insertAll, hsize, hsize', Text.weave_append, Text.weave_append, Text.weave_append, Text.weave_append,
    Nat.zero_add, hU, hle, hplace, hbefore, hstretch, hedited, List.append_assoc, List.append_assoc, hrest,
    Token.edited, hfirst, hlast]
  simp only [List.append_assoc]

end Edit

/-! ### Tokens around a stretch -/

namespace Token

variable {as bs bs' ts ts' : List Token} {t u f : Token} {o d n first last : Nat}

/-- Whether a token stands before a stretch, or behind it and then so many places further on. -/
inductive Around (first last n : Nat) : Token → Token → Prop
  | before {t : Token} (h : t.stop < first) : Around first last n t t
  | behind {t : Token} (h : last ≤ t.start) : Around first last n t (t.shifted n)

/-- What is inserted before or behind the token, but not in the stretch. -/
theorem Around.insert (h : Around first last n t u) (hle : first ≤ last) (text : SqlText) :
    (t.start < first ∨ last < t.start → Edit.Around first last n (.insert t.start text) (.insert u.start text)) ∧
      (t.stop < first ∨ last < t.stop → Edit.Around first last n (.insert t.stop text) (.insert u.stop text)) := by
  have hsize : t.stop = t.start + byteSize t.text := rfl
  cases h with
  | before h => exact ⟨fun _ => .before (by omega), fun _ => .before h⟩
  | behind h =>
    have hstop : (t.shifted n).stop = t.stop + n := by
      show t.start + n + byteSize t.text = _
      omega
    rw [hstop]
    exact ⟨fun hout => .behind (by omega), fun hout => .behind (by omega)⟩

theorem Placed.stop_le (h : Placed o (as ++ bs)) (ht : t ∈ as) (hu : u ∈ bs) : t.stop ≤ u.start := by
  obtain ⟨has, hbs⟩ := placed_append_iff.1 h
  have hlast := (has.within ht 0 0).2.2
  obtain ⟨hstart, hstop⟩ := has.extent (List.ne_nil_of_mem ht) 0 0
  have hle := hbs.le_start u hu
  rw [written_eq, Text.byteSize_append] at hle
  omega

theorem Placed.stop_le_startOr (h : Placed o (as ++ (ts ++ bs))) (hts : ts ≠ []) (ht : t ∈ as) :
    t.stop ≤ startOr 0 ts := by
  obtain ⟨u, us, rfl⟩ := List.exists_cons_of_ne_nil hts
  exact h.stop_le ht (by simp)

theorem Placed.stopOr_le_start (h : Placed o (as ++ (ts ++ bs))) (hts : ts ≠ []) (hu : u ∈ bs) :
    stopOr 0 ts ≤ u.start := by
  rcases List.eq_nil_or_concat ts with rfl | ⟨us, v, rfl⟩
  · exact absurd rfl hts
  rw [List.concat_eq_append, stopOr_concat]
  rw [← List.append_assoc] at h
  exact h.stop_le (by simp) hu

theorem outline_map_shifted (ts : List Token) : outline d (ts.map (shifted n)) = (outline d ts).map (shifted n) :=
  List.filter_map ..

/-- What is not nested as deep as the stretch stays around it. -/
theorem outline_around (has : ∀ t ∈ as, t.stop < first) (hbs : ∀ t ∈ bs, last ≤ t.start) (hf : d < f.depth)
    (hts : ∀ t ∈ ts, d < t.depth) (hts' : ∀ t ∈ ts', d < t.depth)
    (hbs' : bs' = bs ∨ ∃ w, bs = w :: bs' ∧ d < w.depth) :
    List.Forall₂ (Around first last n) (outline d (as ++ f :: (ts ++ bs)))
      (outline d (as ++ f :: (ts' ++ bs'.map (shifted n)))) := by
  have hrest : outline d bs = outline d bs' := by
    rcases hbs' with rfl | ⟨w, rfl, hw⟩
    · rfl
    · exact outline_cons_of_lt hw
  rw [outline_append, outline_append, outline_cons_of_lt hf, outline_cons_of_lt hf, outline_append, outline_append,
    outline_eq_nil hts, outline_eq_nil hts', List.nil_append, List.nil_append, outline_map_shifted, ← hrest]
  refine List.rel_append (List.forall₂_same.2 fun t ht => .before (has t (List.mem_of_mem_filter ht))) ?_
  rw [List.forall₂_map_right_iff, List.forall₂_same]
  exact fun t ht => .behind (hbs t (List.mem_of_mem_filter ht))

/-- How many scopes start in a stretch. -/
def selects (ts : List Token) : Nat :=
  ts.countP fun t => t.isKeyword .SELECT

end Token

theorem Query.IsRead.start_lt {q : Query} {tail : List Cell} (h : q.IsRead tail) :
    ∀ t ∈ q.tokens, t.start < t.stop := by
  intro t ht
  have := Token.byteSize_pos (h.text_ne_nil t ht)
  show t.start < t.start + byteSize t.text
  omega

/-! ### Edits of scopes -/

theorem Scope.mem_of_mem_clause {stop : Nat} {t u : Token} {after : List Token} {kind : ClauseKind} {c : Clause}
    (hc : (ofSelect stop t after).clause? kind = some c) (hu : u ∈ c.body) : u ∈ after.takeWhile (reaches t.depth) := by
  have hmem : c ∈ (ofSelect stop t after).clauses := by simpa using List.mem_of_find?_eq_some hc
  obtain ⟨us, vs, hbody, -⟩ := Clause.mem_cut hmem
  rw [hbody]
  simp [hu]

namespace JoinChain

variable {s s' : Scope} {ss ss' : List Scope} {es : List Edit} {e : Edit} {stop : Nat} {t : Token} {after : List Token}

theorem scopesEdits_cons (s : Scope) (ss : List Scope) : scopesEdits (s :: ss)
    = scopesEdits [s] >>= fun es => scopesEdits ss >>= fun fs => .ok (es ++ fs) := by
  rw [scopesEdits, scopesEdits]
  cases s.clause? .tables with
  | none => rfl
  | some c =>
    show (clauseEdits s.depth c.stop c.body >>= _) = (clauseEdits s.depth c.stop c.body >>= _) >>= _
    cases clauseEdits s.depth c.stop c.body with
    | error e => rfl
    | ok es =>
      show _ = scopesEdits ss >>= fun fs => .ok (es ++ [] ++ fs)
      rw [List.append_nil]
      rfl

theorem scopesEdits_append (ss ss' : List Scope) : scopesEdits (ss ++ ss')
    = scopesEdits ss >>= fun es => scopesEdits ss' >>= fun fs => .ok (es ++ fs) := by
  induction ss with
  | nil =>
    show _ = scopesEdits ss' >>= fun fs => Except.ok fs
    rw [List.nil_append]
    cases scopesEdits ss' with
    | error e => rfl
    | ok fs => rfl
  | cons s ss ih =>
    rw [List.cons_append, scopesEdits_cons, scopesEdits_cons s ss, ih]
    cases scopesEdits [s] with
    | error e => rfl
    | ok es =>
      cases scopesEdits ss with
      | error e => rfl
      | ok fs =>
        cases scopesEdits ss' with
        | error e => rfl
        | ok gs => exact congrArg Except.ok (List.append_assoc ..).symm

theorem scopesEdits_alike {r : Edit → Edit → Prop}
    (h : List.Forall₂ (fun s s' => Except.Alike (List.Forall₂ r) (scopesEdits [s]) (scopesEdits [s'])) ss ss') :
    Except.Alike (List.Forall₂ r) (scopesEdits ss) (scopesEdits ss') := by
  induction h with
  | nil => exact .ok .nil
  | @cons s s' ss ss' hs _ ih =>
    rw [scopesEdits_cons, scopesEdits_cons s']
    exact hs.bind fun es es' hes => ih.bind fun fs fs' hfs => .ok (List.rel_append hes hfs)

theorem scopesEdits_of_none (hc : s.clause? .tables = none) : scopesEdits [s] = .ok [] := by
  rw [scopesEdits, hc]
  rfl

theorem scopesEdits_of_some {c : Clause} (hc : s.clause? .tables = some c) :
    scopesEdits [s] = clauseEdits s.depth c.stop c.body := by
  rw [scopesEdits, hc]
  show clauseEdits s.depth c.stop c.body >>= (fun es => .ok (es ++ [])) = _
  cases clauseEdits s.depth c.stop c.body with
  | error e => rfl
  | ok es => exact congrArg Except.ok (List.append_nil es)

/-- The joins of a scope are found in the outline of what stands behind its `SELECT`. -/
theorem scopesEdits_outline (h : Run t.depth after 0) :
    scopesEdits [Scope.ofSelect stop t (Token.outline t.depth after)] = scopesEdits [Scope.ofSelect stop t after] := by
  have houtline : (Scope.ofSelect stop t (Token.outline t.depth after)).clause? .tables = _ :=
    Scope.clause?_outline h
  cases hc : (Scope.ofSelect stop t after).clause? .tables with
  | none =>
    rw [hc] at houtline
    rw [scopesEdits_of_none hc, scopesEdits_of_none houtline]
  | some c =>
    rw [hc] at houtline
    rw [scopesEdits_of_some hc, scopesEdits_of_some houtline]
    exact clauseEdits_outline c.stop (Scope.level_of_clause? h hc)

/-- The edits of a scope insert before and behind its tokens. -/
theorem exists_of_scopesEdits_one (h : scopesEdits [Scope.ofSelect stop t after] = .ok es) (he : e ∈ es) :
    ∃ u ∈ after.takeWhile (Scope.reaches t.depth), ∃ text, e = .insert u.start text ∨ e = .insert u.stop text := by
  cases hc : (Scope.ofSelect stop t after).clause? .tables with
  | none =>
    rw [scopesEdits_of_none hc] at h
    cases h
    cases he
  | some c =>
    rw [scopesEdits_of_some hc] at h
    obtain ⟨clause, hclause, htokens, rfl⟩ := clauseEdits_eq_ok_iff.1 h
    obtain ⟨u, hu, hinsert⟩ := hclause.exists_of_mem_edits he
    rw [htokens] at hu
    exact ⟨u, Scope.mem_of_mem_clause hc hu, hinsert⟩

variable {q : Query} {tail : List Cell} {as bs ts : List Token} {f : Token} {d : Nat}

/-- What is inserted at a depth is inserted before or behind what is nested deeper. -/
theorem Inserts.outside (h : q.IsRead tail) (hq : q.tokens = as ++ f :: (ts ++ bs)) (hne : ts ≠ []) (hf : d < f.depth)
    (hts : ∀ t ∈ ts, d < t.depth) (he : Inserts q d e) :
    e.span.start < Token.startOr 0 ts ∨ Token.stopOr 0 ts < e.span.start := by
  have hplaced := h.placed
  have hsplit : q.tokens = (as ++ [f]) ++ (ts ++ bs) := by simpa using hq
  have hfront : f.stop ≤ Token.startOr 0 ts := (hsplit ▸ hplaced).stop_le_startOr hne (by simp)
  have hback : ∀ u ∈ bs, Token.stopOr 0 ts ≤ u.start := fun u hu => (hsplit ▸ hplaced).stopOr_le_start hne hu
  rw [hq] at hplaced
  have hsize := h.start_lt
  -- A token of the depth stands before the stretch or behind it.
  have hcases : ∀ u ∈ q.tokens, u.depth = d → u.stop ≤ f.start ∨ u ∈ bs := by
    intro u hu hd
    rw [hq] at hu
    rcases List.mem_append.1 hu with hu | hu
    · exact .inl (hplaced.stop_le hu List.mem_cons_self)
    rcases List.mem_cons.1 hu with rfl | hu
    · omega
    rcases List.mem_append.1 hu with hu | hu
    · have := hts u hu
      omega
    · exact .inr hu
  have hfmem : f ∈ q.tokens := by
    rw [hq]
    simp
  have hfsize := hsize f hfmem
  cases he with
  | @before us vs w t text tokens opens prior level written =>
    have hw : w ∈ q.tokens := by
      rw [tokens]
      simp
    have hstarts := h.pairwise_start
    rw [tokens] at hstarts hfmem
    obtain ⟨-, hstarts, hbefore⟩ := List.pairwise_append.1 hstarts
    obtain ⟨hwt, hstarts⟩ := List.pairwise_cons.1 hstarts
    have hwt := hwt t List.mem_cons_self
    have hwsize := hsize w hw
    rcases hcases w hw prior with hstop | hmem
    · refine .inl (show t.start < _ from ?_)
      rcases List.mem_append.1 hfmem with hmem | hmem
      · have := hbefore f hmem w List.mem_cons_self
        omega
      rcases List.mem_cons.1 hmem with rfl | hmem
      · omega
      rcases List.mem_cons.1 hmem with rfl | hmem
      · omega
      · have := (List.pairwise_cons.1 hstarts).1 f hmem
        omega
    · have := hback w hmem
      exact .inr (show _ < t.start by omega)
  | @behind us vs u text tokens level closes inner goes written =>
    have hu : u ∈ q.tokens := by
      rw [tokens]
      simp
    have husize := hsize u hu
    rcases hcases u hu level with hstop | hmem
    · exact .inl (show u.stop < _ by omega)
    · have := hback u hmem
      exact .inr (show _ < u.stop by omega)

theorem inserts_of_scopesEdits (h : q.IsRead tail) (hs : s ∈ q.scopes) (hes : scopesEdits [s] = .ok es) (he : e ∈ es) :
    Inserts q s.depth e := by
  obtain ⟨s', hs', clause, hclause, b, hb, hne, wrapped, i, chain, hchain, he⟩ := exists_of_mem_scopesEdits hes he
  rw [List.mem_singleton.1 hs'] at hclause hb hchain
  exact inserts_of_mem_blockEdits h hs hclause hb hne hchain he

/-- The edits of a scope with the same outline around a stretch. -/
theorem scopesEdits_around {first last n stop' : Nat} {after' : List Token} (hrun : Run t.depth after 0)
    (hrun' : Run t.depth after' 0) (hstarts : after.Pairwise fun t u => t.start < u.start)
    (hstop : ∀ u ∈ after, u.start < stop)
    (haround : List.Forall₂ (Token.Around first last n) (Token.outline t.depth after) (Token.outline t.depth after'))
    (houtside : ∀ es, scopesEdits [Scope.ofSelect stop t after] = .ok es →
      ∀ e ∈ es, e.span.start < first ∨ last < e.span.start) (hle : first ≤ last) :
    Except.Alike (List.Forall₂ (Edit.Around first last n)) (scopesEdits [Scope.ofSelect stop t after])
      (scopesEdits [Scope.ofSelect stop' t after']) := by
  have hsame : List.Forall₂ Token.Same (Token.outline t.depth after) (Token.outline t.depth after') :=
    haround.imp fun u u' hu => by
      cases hu with
      | before => exact ⟨⟨rfl, rfl⟩, rfl⟩
      | behind => exact ⟨⟨rfl, rfl⟩, rfl⟩
  obtain ⟨l, hlaid, hplace⟩ := Token.exists_layout hsame (hstarts.filter _)
    (fun u hu => hstop u (List.mem_of_mem_filter hu)) stop'
  have hmoved : ∀ u ∈ Token.outline t.depth after, Token.Around first last n u (u.relaid l) := by
    rwa [hlaid, List.forall₂_map_right_iff, List.forall₂_same] at haround
  have halike : Except.Alike (List.Forall₂ (Edit.Relaid l (Token.outline t.depth after)))
      (scopesEdits [Scope.ofSelect stop t (Token.outline t.depth after)])
      (scopesEdits [(Scope.ofSelect stop t (Token.outline t.depth after)).relaid l]) := by
    refine scopesEdits_relaid fun s hs clause hc u hu => ?_
    rw [List.mem_singleton.1 hs] at hc
    exact (List.takeWhile_sublist _).subset (Scope.mem_of_mem_clause hc hu)
  have hselect : scopesEdits [Scope.ofSelect stop' (t.relaid l) (Token.outline t.depth after')]
      = scopesEdits [Scope.ofSelect stop' t (Token.outline t.depth after')] := rfl
  rw [← Scope.ofSelect_relaid, hplace, ← hlaid, hselect, scopesEdits_outline hrun, scopesEdits_outline hrun'] at halike
  generalize hx : scopesEdits [Scope.ofSelect stop t after] = x at halike houtside
  generalize scopesEdits [Scope.ofSelect stop' t after'] = y at halike
  cases halike with
  | error outline => exact .error outline
  | @ok es es' hes =>
    refine .ok ?_
    replace houtside := houtside es rfl
    clear hx
    induction hes with
    | nil => exact .nil
    | @cons e e' es es' he _ ih =>
      obtain ⟨hout, houtside⟩ := List.forall_mem_cons.1 houtside
      refine .cons ?_ (ih houtside)
      cases he with
      | before mem => exact ((hmoved _ mem).insert hle _).1 hout
      | behind mem => exact ((hmoved _ mem).insert hle _).2 hout

end JoinChain

/-! ### Scopes before a stretch -/

namespace Scope

variable {stop stop' : Nat} {t : Token} {as bs bs' after : List Token}

theorem ofSelect_mem_among (ht : t.isKeyword .SELECT = true) (stop : Nat) (as : List Token) :
    ofSelect stop t after ∈ among stop (as ++ t :: after) := by
  induction as with
  | nil =>
    rw [List.nil_append, among, if_pos ht]
    exact List.mem_cons_self
  | cons a as ih =>
    rw [List.cons_append, among]
    split
    · exact List.mem_cons_of_mem _ ih
    · exact ih

/-- Scopes of two queries that start in the same stretch. -/
theorem forall₂_take_among {r : Scope → Scope → Prop} (h : ∀ us t vs, as = us ++ t :: vs → t.isKeyword .SELECT = true →
      r (ofSelect stop t (vs ++ bs)) (ofSelect stop' t (vs ++ bs'))) :
    List.Forall₂ r ((among stop (as ++ bs)).take (Token.selects as)) ((among stop' (as ++ bs')).take (Token.selects as))
    := by
  induction as with
  | nil => exact .nil
  | cons a as ih =>
    have hrest := ih fun us t vs has ht => h (a :: us) t vs (by rw [has]; rfl) ht
    rw [List.cons_append, List.cons_append, among, among, Token.selects, List.countP_cons]
    by_cases ha : a.isKeyword .SELECT = true
    · rw [if_pos ha, if_pos ha, if_pos ha, List.take_succ_cons, List.take_succ_cons]
      exact .cons (h [] a as rfl ha) hrest
    · rw [if_neg ha, if_neg ha, if_neg ha]
      exact hrest

/-- What stands behind the end of a scope does not belong to it. -/
theorem ofSelect_of_ended {us vs : List Token} {v : Token} (hus : ∀ u ∈ us, reaches t.depth u = true)
    (hv : ¬ reaches t.depth v = true) (stop stop' : Nat) (bs bs' : List Token) :
    ofSelect stop t (us ++ v :: (vs ++ bs)) = ofSelect stop' t (us ++ v :: (vs ++ bs')) := by
  unfold ofSelect
  simp only [List.takeWhile_append_of_pos hus, List.dropWhile_append_of_pos hus, List.takeWhile_cons_of_neg hv,
    List.dropWhile_cons_of_neg hv, Token.startOr]

end Scope

namespace JoinChain

variable {q q' : Query} {tail tail' : List Cell} {as front bs bs' ts ts' : List Token} {s f : Token} {n : Nat}

/-- Whether no scope that starts in a stretch and reaches so far shares its depth with another one. -/
def Apart (ts : List Token) : Prop :=
  ∀ ⦃as bs cs t u⦄, ts = as ++ t :: (bs ++ u :: cs) → t.isKeyword .SELECT = true → u.isKeyword .SELECT = true →
    (∀ v ∈ bs ++ [u], Scope.reaches t.depth v = true) → t.depth < u.depth

/-- **Scopes around a nested clause.**  The scopes that start before a `SELECT` have the same edits before and after its
clause was nested, but for the places. -/
theorem scopesEdits_take_around (h : q.IsRead tail) (h' : q'.IsRead tail')
    (hq : q.tokens = as ++ s :: (front ++ f :: (ts ++ bs)))
    (hq' : q'.tokens = as ++ s :: (front ++ f :: (ts' ++ bs'.map (Token.shifted n))))
    (hs : s.isKeyword .SELECT = true) (hf : f.depth = s.depth) (hne : ts ≠ []) (hts : ∀ t ∈ ts, s.depth ≤ t.depth)
    (hts' : ∀ t ∈ ts', s.depth ≤ t.depth) (hbs' : bs' = bs ∨ ∃ w, bs = w :: bs' ∧ w.depth = s.depth)
    (hapart : Apart (as ++ [s])) :
    Except.Alike (List.Forall₂ (Edit.Around (Token.startOr 0 ts) (Token.stopOr 0 ts) n))
      (scopesEdits (q.scopes.take (Token.selects as))) (scopesEdits (q'.scopes.take (Token.selects as))) := by
  rw [Query.scopes, Query.scopes, hq, hq']
  refine scopesEdits_alike (Scope.forall₂_take_among fun us t vs has ht => ?_)
  have hplaced := h.placed
  have hsplit : q.tokens = ((as ++ s :: front) ++ [f]) ++ (ts ++ bs) := by simpa using hq
  have hsize := h.start_lt f (by rw [hsplit]; simp)
  rw [hsplit] at hplaced
  have hback : ∀ u ∈ bs, Token.stopOr 0 ts ≤ u.start := fun u hu => hplaced.stopOr_le_start hne hu
  have hlast : f.stop ≤ Token.startOr 0 ts := hplaced.stop_le_startOr hne (by simp)
  obtain ⟨hbefore, hbehind⟩ := Token.placed_append_iff.1 hplaced
  have hfront : ∀ u ∈ as ++ s :: front, u.stop < Token.startOr 0 ts := by
    intro u hu
    have hle : u.stop ≤ f.start := hbefore.stop_le hu (List.mem_singleton_self f)
    omega
  have hall : q.tokens = us ++ t :: (vs ++ s :: (front ++ f :: (ts ++ bs))) := by
    rw [hq, has]
    simp
  have hall' : q'.tokens = us ++ t :: (vs ++ s :: (front ++ f :: (ts' ++ bs'.map (Token.shifted n)))) := by
    rw [hq', has]
    simp
  by_cases hreach : ∀ u ∈ vs ++ [s], Scope.reaches t.depth u = true
  · -- The scope reaches the other one, which is nested deeper.
    have hd : t.depth < s.depth := hapart (by rw [has, List.append_assoc]; rfl) ht hs hreach
    have hscope : Scope.ofSelect q.stop t (vs ++ s :: (front ++ f :: (ts ++ bs))) ∈ q.scopes := by
      rw [Query.scopes, hall]
      exact Scope.ofSelect_mem_among ht _ us
    have hstarts := h.pairwise_start
    rw [hall] at hstarts
    have hstarts := (List.pairwise_cons.1 (List.pairwise_append.1 hstarts).2.1).2
    have hextent := (Token.placed_append_iff.1 hbehind).1.extent hne 0 0
    refine scopesEdits_around (h.run_behind hall ht) (h'.run_behind hall' ht) hstarts
      (fun u hu => h.start_lt_stop u (by rw [hall]; simp [hu])) ?_ ?_ (by omega)
    · have hmem : ∀ u ∈ vs ++ s :: front, u.stop < Token.startOr 0 ts := by
        intro u hu
        refine hfront u ?_
        rw [has, List.append_assoc, List.cons_append]
        exact List.mem_append_right _ (List.mem_cons_of_mem _ hu)
      have haround := Token.outline_around (n := n) (f := f) hmem hback (by omega)
        (fun u hu => Nat.lt_of_lt_of_le hd (hts u hu)) (fun u hu => Nat.lt_of_lt_of_le hd (hts' u hu))
        (hbs'.imp_right (Exists.imp fun w hw => ⟨hw.1, by omega⟩))
      simpa using haround
    · intro es hes e he
      have hinserts := inserts_of_scopesEdits h hscope hes he
      have hclause : q.tokens = (as ++ s :: front) ++ f :: (ts ++ bs) := by simpa using hq
      exact hinserts.outside h hclause hne (by omega) fun u hu => Nat.lt_of_lt_of_le hd (hts u hu)
  · -- The scope ends before.
    obtain ⟨xs, v, zs, hends, hxs, hv⟩ : ∃ xs v zs, vs ++ [s] = xs ++ v :: zs ∧
        (∀ u ∈ xs, Scope.reaches t.depth u = true) ∧ ¬ Scope.reaches t.depth v = true := by
      cases hfirst : Token.splitFirst (fun u => !Scope.reaches t.depth u) (vs ++ [s]) with
      | none => exact absurd (fun u hu => by simpa using Token.splitFirst_eq_none hfirst u hu) hreach
      | some found =>
        obtain ⟨xs, v, zs⟩ := found
        obtain ⟨hends, hv, hxs⟩ := Token.splitFirst_eq_some hfirst
        exact ⟨xs, v, zs, hends, by simpa using hxs, by simpa using hv⟩
    have hbody : ∀ rest, vs ++ s :: rest = xs ++ v :: (zs ++ rest) := by
      intro rest
      rw [List.append_cons, hends, List.append_assoc, List.cons_append]
    rw [hbody, hbody, Scope.ofSelect_of_ended hxs hv q'.stop q.stop _ (front ++ f :: (ts ++ bs))]
    generalize hx : scopesEdits [Scope.ofSelect q.stop t (xs ++ v :: (zs ++ (front ++ f :: (ts ++ bs))))] = x
    cases x with
    | error e => exact .error rfl
    | ok es =>
      refine .ok (List.forall₂_same.2 fun e he => ?_)
      obtain ⟨u, hu, text, hinsert⟩ := exists_of_scopesEdits_one hx he
      rw [List.takeWhile_append_of_pos hxs, List.takeWhile_cons_of_neg hv, List.append_nil] at hu
      have hmem : u ∈ vs ++ [s] := by
        rw [hends]
        exact List.mem_append_left _ hu
      have hstop := hfront u (by
        rw [has]
        rcases List.mem_append.1 hmem with hmem | hmem
        · simp [hmem]
        · simp [List.mem_singleton.1 hmem])
      have hstart : u.start ≤ u.stop := Nat.le_add_right ..
      rcases hinsert with rfl | rfl
      · exact .before (by omega)
      · exact .before hstop

end JoinChain

end JetAdapter
