import JetAdapter.Proofs.Readings

/-!
# Partners of parentheses

Whoever needs the parenthesis that closes another one takes the next `)` of the same depth (`Token.partner?`).  In a
query this is the partner: what stands between the two is balanced, and before no other `)` it is
(`Token.partner?_eq_some_iff`).

`Query.pairs` has the places of all parentheses with those of their partners.  A token is as deep as the number of pairs
that it stands between (`Token.Level.depth_eq`), and of two pairs one is inside the other or behind it
(`Token.Level.pairwise_pairsFrom`).  Both are shown by induction on the groups of a level stretch
(`Token.Level.induct`).
-/

namespace JetAdapter

namespace Token

variable {opening closing t : Token} {inside rest after as bs ts : List Token} {ks : List Kind} {d e i n : Nat}
  {p : Nat × Nat}

/-! ### Partners -/

/-- The partner of a parenthesis before the tokens that follow it: what is between the two, the partner, and what is
after it. -/
def partner? (opening : Token) (after : List Token) : Option (List Token × Token × List Token) :=
  splitFirst (isSymbolAt opening.depth .rightParen) after

/-- A `)` behind a balanced stretch is the partner. -/
theorem partner?_of_level (hinside : Level (d + 1) inside) (hd : opening.depth = d)
    (hright : closing.isSymbol .rightParen = true) (hd' : closing.depth = d) (rest : List Token) :
    opening.partner? (inside ++ closing :: rest) = some (inside, closing, rest) := by
  rw [partner?, hd]
  exact splitFirst_closing hinside hright hd'

/-- The tokens behind a parenthesis that is closed: a balanced stretch, a `)`, and the rest. -/
theorem Run.exists_inside (h : Run (d + 1) after 0) : ∃ inside closing rest, after = inside ++ closing :: rest ∧
    closing.isSymbol .rightParen = true ∧ Balanced (inside.map (·.kind)) := by
  obtain ⟨ks, ls, hkinds, hks, -⟩ := h.balancedIn rfl
  obtain ⟨inside, ts, rfl, rfl, hts⟩ := List.map_eq_append_iff.1 hkinds
  obtain ⟨closing, rest, rfl, hclosing, -⟩ := List.map_eq_cons_iff.1 hts
  exact ⟨inside, closing, rest, rfl, by simp [isSymbol, Kind.isSymbol, hclosing], hks⟩

/-- Behind a balanced stretch the depth is that of the parenthesis before. -/
theorem Run.depth_closing (h : Run (d + 1) (inside ++ closing :: rest) e) (hright : closing.isSymbol .rightParen = true)
    (hb : Balanced (inside.map (·.kind))) : Level (d + 1) inside ∧ closing.depth = d := by
  obtain ⟨f, hrun, hrest⟩ := h.of_append
  obtain ⟨rfl, hlevel⟩ := hrun.level hb rfl
  cases hrest with
  | opening paren => simp [isSymbol_eq_false_of_isSymbol hright] at paren
  | closing _ hd => exact ⟨hlevel, hd⟩
  | plain _ right => simp [hright] at right

/-- **The partner** of a parenthesis is the one `)` behind it that a balanced stretch leads to. -/
theorem partner?_eq_some_iff (h : Run (opening.depth + 1) after 0) :
    opening.partner? after = some (inside, closing, rest) ↔
      after = inside ++ closing :: rest ∧ closing.isSymbol .rightParen = true ∧ Balanced (inside.map (·.kind)) := by
  have hpartner : ∀ {inside closing rest}, after = inside ++ closing :: rest → closing.isSymbol .rightParen = true →
      Balanced (inside.map (·.kind)) → opening.partner? after = some (inside, closing, rest) := by
    rintro inside closing rest rfl hright hb
    obtain ⟨hlevel, hd⟩ := h.depth_closing hright hb
    exact partner?_of_level hlevel rfl hright hd rest
  constructor
  · intro hsome
    obtain ⟨inside', closing', rest', hafter, hright, hb⟩ := h.exists_inside
    rw [hpartner hafter hright hb] at hsome
    obtain ⟨rfl, rfl, rfl⟩ : inside' = inside ∧ closing' = closing ∧ rest' = rest := by simpa using hsome
    exact ⟨hafter, hright, hb⟩
  · rintro ⟨hafter, hright, hb⟩
    exact hpartner hafter hright hb

/-! ### Pairs -/

/-- The places of the parentheses that open in a stretch, the first token of which has a place, and those of their
partners. -/
def pairsFrom (n : Nat) : List Token → List (Nat × Nat)
  | [] => []
  | t :: ts =>
    (if t.isSymbol .leftParen then (t.partner? ts).toList.map fun (inside, _, _) => (n, n + 1 + inside.length) else [])
      ++ pairsFrom (n + 1) ts

theorem pairsFrom_plain (left : t.isSymbol .leftParen = false) : pairsFrom n (t :: ts) = pairsFrom (n + 1) ts := by
  rw [pairsFrom, if_neg (by simp [left]), List.nil_append]

/-- A level stretch is a list of groups in parentheses and of tokens that are no parentheses. -/
@[elab_as_elim]
theorem Level.induct {motive : {ts : List Token} → {d : Nat} → Level d ts → Prop}
    (nil : ∀ d (h : Level d []), motive h)
    (plain : ∀ d t ts (h : Level d (t :: ts)) (_ : t.isSymbol .leftParen = false) (_ : t.isSymbol .rightParen = false)
      (_ : t.depth = d) (hts : Level d ts), motive hts → motive h)
    (group : ∀ d opening inside closing behind (h : Level d (opening :: (inside ++ closing :: behind)))
      (_ : opening.isSymbol .leftParen = true) (_ : opening.depth = d) (hinside : Level (d + 1) inside)
      (_ : closing.isSymbol .rightParen = true) (_ : closing.depth = d) (hbehind : Level d behind),
      motive hinside → motive hbehind → motive h)
    (h : Level d ts) : motive h := by
  generalize hks : ts.map (·.kind) = ks
  have hb : Balanced ks := hks ▸ h.balanced
  induction hb generalizing ts d with
  | nil =>
    obtain rfl := List.map_eq_nil_iff.1 hks
    exact nil d h
  | plain left right _ ih =>
    obtain ⟨t, ts, rfl, rfl, hrest⟩ := List.map_eq_cons_iff.1 hks
    have hleft : t.isSymbol .leftParen = false := by simpa [isSymbol, Kind.isSymbol] using left
    have hright : t.isSymbol .rightParen = false := by simpa [isSymbol, Kind.isSymbol] using right
    have hts := h.tail hleft hright
    exact plain d t ts h hleft hright h.depth_first hts (ih hts hrest)
  | group inside _ ihInside ihBehind =>
    obtain ⟨opening, us, closing, vs, rfl, hleft, hd, hus, hkus, hright, hd', hvs, hkvs⟩ := h.group hks inside
    exact group d opening us closing vs h hleft hd hus hright hd' hvs (ihInside hus hkus) (ihBehind hvs hkvs)

/-- The pairs of a group, if those inside do not depend on what follows. -/
theorem pairsFrom_group_of_append (hleft : opening.isSymbol .leftParen = true)
    (hpartner : opening.partner? (inside ++ closing :: rest) = some (inside, closing, rest))
    (hright : closing.isSymbol .rightParen = true)
    (happend : ∀ n bs, pairsFrom n (inside ++ bs) = pairsFrom n inside ++ pairsFrom (n + inside.length) bs) (n : Nat) :
    pairsFrom n (opening :: (inside ++ closing :: rest)) = (n, n + 1 + inside.length) ::
      (pairsFrom (n + 1) inside ++ pairsFrom (n + 1 + inside.length + 1) rest) := by
  rw [pairsFrom, if_pos hleft, hpartner, happend, pairsFrom_plain (isSymbol_eq_false_of_isSymbol hright (by decide))]
  rfl

namespace Level

/-- The pairs of a level stretch do not depend on what follows. -/
theorem pairsFrom_append (h : Level d as) (n : Nat) (bs : List Token) :
    pairsFrom n (as ++ bs) = pairsFrom n as ++ pairsFrom (n + as.length) bs := by
  induction h using Level.induct generalizing n bs with
  | nil => rfl
  | plain d t ts _ left _ _ _ ih =>
    rw [List.cons_append, pairsFrom_plain left, pairsFrom_plain left, ih, List.length_cons, Nat.add_assoc n 1,
      Nat.add_comm 1]
  | group d opening inside closing behind _ hleft hd hinside hright hd' _ ihInside ihBehind =>
    have hgroup : ∀ rest, pairsFrom n (opening :: (inside ++ closing :: rest)) = _ := fun rest =>
      pairsFrom_group_of_append hleft (partner?_of_level hinside hd hright hd' rest) hright ihInside n
    have hlength : n + 1 + inside.length + 1 + behind.length
        = n + (opening :: (inside ++ closing :: behind)).length := by
      simp only [List.length_cons, List.length_append]
      omega
    rw [List.cons_append, List.append_assoc, List.cons_append, hgroup, hgroup, ihBehind, hlength]
    simp

theorem pairsFrom_group (hinside : Level (d + 1) inside) (hleft : opening.isSymbol .leftParen = true)
    (hd : opening.depth = d) (hright : closing.isSymbol .rightParen = true) (hd' : closing.depth = d) (n : Nat)
    (behind : List Token) :
    pairsFrom n (opening :: (inside ++ closing :: behind)) = (n, n + 1 + inside.length) ::
      (pairsFrom (n + 1) inside ++ pairsFrom (n + 1 + inside.length + 1) behind) :=
  pairsFrom_group_of_append hleft (partner?_of_level hinside hd hright hd' behind) hright hinside.pairsFrom_append n

/-- The parentheses of a pair stand in the stretch, the partner behind. -/
theorem bounds (h : Level d ts) (n : Nat) : ∀ p ∈ pairsFrom n ts, n ≤ p.1 ∧ p.1 < p.2 ∧ p.2 < n + ts.length := by
  induction h using Level.induct generalizing n with
  | nil => exact List.forall_mem_nil _
  | plain d t ts _ left _ _ _ ih =>
    intro p hp
    rw [pairsFrom_plain left] at hp
    have hbounds := ih (n + 1) p hp
    rw [List.length_cons]
    omega
  | group d opening inside closing behind _ hleft hd hinside hright hd' _ ihInside ihBehind =>
    intro p hp
    rw [hinside.pairsFrom_group hleft hd hright hd'] at hp
    simp only [List.length_cons, List.length_append]
    rcases List.mem_cons.1 hp with rfl | hp
    · dsimp only
      omega
    · rcases List.mem_append.1 hp with hp | hp
      · have hbounds := ihInside (n + 1) p hp
        omega
      · have hbounds := ihBehind _ p hp
        omega

theorem countP_eq_zero (h : Level d ts) (n : Nat) (hi : i ≤ n ∨ n + ts.length ≤ i + 1) :
    (pairsFrom n ts).countP (fun p => p.1 < i ∧ i < p.2) = 0 := by
  refine List.countP_eq_zero.2 fun p hp => ?_
  have hbounds := h.bounds n p hp
  rw [decide_eq_true_eq]
  omega

/-- A token is as deep as the pairs that it stands between. -/
theorem depth_eq (h : Level d ts) (n : Nat) (hi : ts[i]? = some t) :
    t.depth = d + (pairsFrom n ts).countP fun p => p.1 < n + i ∧ n + i < p.2 := by
  induction h using Level.induct generalizing n i with
  | nil => cases hi
  | plain d u ts _ left _ hd hts ih =>
    rw [pairsFrom_plain left]
    cases i with
    | zero =>
      obtain rfl : u = t := by simpa using hi
      rw [hts.countP_eq_zero _ (by omega)]
      exact hd
    | succ i =>
      have hplace : n + 1 + i = n + (i + 1) := by omega
      rw [ih (n + 1) hi, hplace]
  | group d opening inside closing behind _ hleft hd hinside hright hd' hbehind ihInside ihBehind =>
    rw [hinside.pairsFrom_group hleft hd hright hd', List.countP_cons, List.countP_append]
    cases i with
    | zero =>
      obtain rfl : opening = t := by simpa using hi
      rw [hinside.countP_eq_zero _ (by omega), hbehind.countP_eq_zero _ (by omega)]
      simpa using hd
    | succ i =>
      rw [List.getElem?_cons_succ] at hi
      by_cases hlt : i < inside.length
      · rw [List.getElem?_append_left hlt] at hi
        have hplace : n + 1 + i = n + (i + 1) := by omega
        have hbetween : n < n + (i + 1) ∧ n + (i + 1) < n + 1 + inside.length := by omega
        rw [hbehind.countP_eq_zero _ (by omega), ihInside (n + 1) hi, hplace, if_pos (decide_eq_true hbetween)]
        omega
      · have hbetween : ¬ (n < n + (i + 1) ∧ n + (i + 1) < n + 1 + inside.length) := by omega
        rw [hinside.countP_eq_zero _ (by omega), if_neg (by simpa using hbetween)]
        rw [List.getElem?_append_right (by omega)] at hi
        cases hk : i - inside.length with
        | zero =>
          rw [hk] at hi
          obtain rfl : closing = t := by simpa using hi
          rw [hbehind.countP_eq_zero _ (by omega)]
          simpa using hd'
        | succ k =>
          rw [hk, List.getElem?_cons_succ] at hi
          have hplace : n + 1 + inside.length + 1 + k = n + (i + 1) := by omega
          rw [ihBehind (n + 1 + inside.length + 1) hi, hplace]
          omega

/-- Of two pairs, in the order of their opening parentheses, the second is inside the first or behind it. -/
theorem pairwise_pairsFrom (h : Level d ts) (n : Nat) :
    (pairsFrom n ts).Pairwise fun p p' => p.1 < p'.1 ∧ p.2 ≠ p'.2 ∧ (p.2 < p'.1 ∨ p'.2 < p.2) := by
  induction h using Level.induct generalizing n with
  | nil => exact .nil
  | plain d t ts _ left _ _ _ ih =>
    rw [pairsFrom_plain left]
    exact ih (n + 1)
  | group d opening inside closing behind _ hleft hd hinside hright hd' hbehind ihInside ihBehind =>
    rw [hinside.pairsFrom_group hleft hd hright hd', List.pairwise_cons, List.pairwise_append]
    have hinner := hinside.bounds (n + 1)
    have houter := hbehind.bounds (n + 1 + inside.length + 1)
    refine ⟨fun p hp => ?_, ihInside _, ihBehind _, fun p hp p' hp' => ?_⟩
    · rcases List.mem_append.1 hp with hp | hp
      · have := hinner p hp
        omega
      · have := houter p hp
        omega
    · have := hinner p hp
      have := houter p' hp'
      omega

end Level

end Token

/-- The closing parenthesis of a call is the partner of its opening one. -/
theorem Call.atFront_eq_partner? (p : Token → Bool) (name opening : Token) (ts : List Token) :
    atFront p (name :: opening :: ts) = if p name ∧ opening.isSymbol .leftParen then
      (opening.partner? ts).map fun (args, closing, after) => (⟨name, opening, args, closing⟩, after) else none := rfl

namespace Token

variable {opening closing : Token} {inside rest after ts : List Token} {i j n : Nat}

/-- The pairs are those of the parentheses that have a partner. -/
theorem mem_pairsFrom_iff : (i, j) ∈ pairsFrom n ts ↔ ∃ before opening inside closing rest,
    ts = before ++ opening :: (inside ++ closing :: rest) ∧ opening.isSymbol .leftParen = true ∧
      opening.partner? (inside ++ closing :: rest) = some (inside, closing, rest) ∧
      i = n + before.length ∧ j = i + 1 + inside.length := by
  induction ts generalizing n with
  | nil => simp [pairsFrom]
  | cons t ts ih =>
    rw [pairsFrom, List.mem_append, ih]
    constructor
    · rintro (hfirst | ⟨before, opening, inside, closing, rest, rfl, hleft, hpartner, rfl, rfl⟩)
      · split at hfirst
        · next hleft =>
          obtain ⟨⟨inside, closing, rest⟩, hpartner, hplaces⟩ := List.mem_map.1 hfirst
          obtain ⟨rfl, rfl⟩ := Prod.mk.inj hplaces
          have hsome := Option.mem_toList.1 hpartner
          obtain ⟨rfl, -⟩ := splitFirst_eq_some hsome
          exact ⟨[], t, inside, closing, rest, rfl, hleft, hsome, rfl, rfl⟩
        · cases hfirst
      · refine ⟨t :: before, opening, inside, closing, rest, rfl, hleft, hpartner, ?_, rfl⟩
        rw [List.length_cons]
        omega
    · rintro ⟨before, opening, inside, closing, rest, hts, hleft, hpartner, rfl, rfl⟩
      cases before with
      | nil =>
        obtain ⟨rfl, rfl⟩ := List.cons.inj hts
        rw [if_pos hleft, hpartner]
        exact .inl List.mem_cons_self
      | cons b before =>
        obtain ⟨rfl, rfl⟩ := List.cons.inj hts
        refine .inr ⟨before, opening, inside, closing, rest, rfl, hleft, hpartner, ?_, rfl⟩
        rw [List.length_cons]
        omega

end Token

/-! ### Queries -/

namespace Query

/-- The places of the parentheses that open in a query, counted in tokens, and those of their partners. -/
def pairs (q : Query) : List (Nat × Nat) :=
  Token.pairsFrom 0 q.tokens

/-- The tokens of a query are those of the text up to its end. -/
theorem takeWhile_of_nest_eq_ok {ls : List PlacedLexeme} {d : Nat} {ts : List Token} (h : nest d ls = .ok ts) :
    ts.map (·.toPlacedLexeme) = ls.takeWhile fun l => l.kind ≠ .eof := by
  induction ls generalizing d ts with
  | nil =>
    cases h
    rfl
  | cons l ls ih =>
    have hstep : ∀ {d' depth : Nat}, l.kind ≠ .eof → (nest d' ls).map (⟨l, depth⟩ :: ·) = .ok ts →
        ts.map (·.toPlacedLexeme) = (l :: ls).takeWhile fun l => l.kind ≠ .eof := by
      intro d' depth hne hmap
      obtain ⟨us, hus, rfl⟩ : ∃ us, nest d' ls = .ok us ∧ (⟨l, depth⟩ :: us : List Token) = ts := by
        cases hrest : nest d' ls with
        | error e =>
          rw [hrest] at hmap
          cases hmap
        | ok us =>
          rw [hrest] at hmap
          exact ⟨us, rfl, Except.ok.inj hmap⟩
      rw [List.takeWhile_cons_of_pos (by simpa using hne), ← ih hus, List.map_cons]
    rw [nest.eq_def] at h
    simp only at h
    split at h
    · cases h
    · next hk =>
      split at h
      · cases h
        rw [List.takeWhile_cons_of_neg (by simp [hk])]
        rfl
      · cases h
    · next hk => exact hstep (by simp [hk]) h
    · next hk =>
      cases d with
      | zero => cases h
      | succ d => exact hstep (by simp [hk]) h
    · next hk _ _ => exact hstep hk h

/-- **Parentheses match.**  A text without faults is read as a query just if its parentheses are balanced.  The tokens
of the query are those of the text; each is as deep as the number of pairs of parentheses around it.  Every `(` has a
partner of its depth, the one `)` behind it that a balanced stretch leads to.  Of two pairs, in the order of their
opening parentheses, the partners differ, and the second pair is inside the first or behind it. -/
theorem parens_matched (text : SqlText) (hsound : ∀ l ∈ lex text, l.kind.isFault = false) :
    ((∃ q, ofText text = .ok q) ↔ Balanced ((lex text).map Lexeme.kind)) ∧
      ∀ q, ofText text = .ok q →
        q.tokens.map (·.toPlacedLexeme) = ((tokenize text).takeWhile fun l => l.kind ≠ .eof) ∧
        (∀ i t, q.tokens[i]? = some t → t.depth = q.pairs.countP fun p => p.1 < i ∧ i < p.2) ∧
        (∀ before opening after, q.tokens = before ++ opening :: after → opening.isSymbol .leftParen = true →
          ∃ inside closing rest, opening.partner? after = some (inside, closing, rest) ∧
            closing.depth = opening.depth ∧ (before.length, before.length + 1 + inside.length) ∈ q.pairs ∧
            ∀ inside' closing' rest', after = inside' ++ closing' :: rest' ∧ closing'.isSymbol .rightParen = true ∧
              Balanced (inside'.map (·.kind)) ↔ (inside', closing', rest') = (inside, closing, rest)) ∧
        (∀ i j, (i, j) ∈ q.pairs → ∃ before opening inside closing rest,
          q.tokens = before ++ opening :: (inside ++ closing :: rest) ∧ opening.isSymbol .leftParen = true ∧
            opening.partner? (inside ++ closing :: rest) = some (inside, closing, rest) ∧
            i = before.length ∧ j = i + 1 + inside.length) ∧
        q.pairs.Pairwise fun p p' => p.1 < p'.1 ∧ p.2 ≠ p'.2 ∧ (p.2 < p'.1 ∨ p'.2 < p.2) := by
  refine ⟨?_, fun q hq => ?_⟩
  · rw [ofText_isOk_iff, and_iff_right hsound]
  have hlevel : Token.Level 0 q.tokens := (reads hq).level
  refine ⟨takeWhile_of_nest_eq_ok (ofText_eq_ok_iff.1 hq).2, fun i t hi => ?_, fun before opening after htokens hleft => ?_,
    fun i j hmem => ?_, hlevel.pairwise_pairsFrom 0⟩
  · have hdepth := hlevel.depth_eq 0 hi
    rw [pairs]
    simpa only [Nat.zero_add] using hdepth
  · have hrun := hlevel.run
    rw [htokens] at hrun
    obtain ⟨e, -, hrest⟩ := hrun.of_append
    have hafter : Token.Run (opening.depth + 1) after 0 := by
      cases hrest with
      | opening _ hd rest => exact hd ▸ rest
      | closing paren => simp [Token.isSymbol_eq_false_of_isSymbol hleft] at paren
      | plain left => simp [hleft] at left
    obtain ⟨inside, closing, rest, rfl, hright, hb⟩ := hafter.exists_inside
    have hpartner := (Token.partner?_eq_some_iff hafter).2 ⟨rfl, hright, hb⟩
    refine ⟨inside, closing, rest, hpartner, (hafter.depth_closing hright hb).2, ?_, fun inside' closing' rest' => ?_⟩
    · refine Token.mem_pairsFrom_iff.2 ⟨before, opening, inside, closing, rest, htokens, hleft, hpartner, ?_, rfl⟩
      rw [Nat.zero_add]
    · rw [← Token.partner?_eq_some_iff hafter, hpartner, Option.some_inj, eq_comm]
  · obtain ⟨before, opening, inside, closing, rest, htokens, hleft, hpartner, hi, hj⟩ := Token.mem_pairsFrom_iff.1 hmem
    exact ⟨before, opening, inside, closing, rest, htokens, hleft, hpartner, by rw [hi, Nat.zero_add], hj⟩

/-- Two groups, the first of which holds another one. -/
theorem parens_matched_groups : ∃ q, ofText "f(a, (b)) (c)".toList = .ok q ∧ q.pairs = [(1, 7), (4, 6), (8, 10)] ∧
    ∀ i t, q.tokens[i]? = some t → t.depth = [(1, 7), (4, 6), (8, 10)].countP fun p => p.1 < i ∧ i < p.2 := by
  have hsound : ∀ l ∈ lex "f(a, (b)) (c)".toList, l.kind.isFault = false := by decide +kernel
  obtain ⟨q, hq, hpairs⟩ := exists_of_map "f(a, (b)) (c)".toList pairs [(1, 7), (4, 6), (8, 10)] (by decide +kernel)
  obtain ⟨-, hdepth, -⟩ := (parens_matched _ hsound).2 q hq
  exact ⟨q, hq, hpairs, hpairs ▸ hdepth⟩

end Query

end JetAdapter
