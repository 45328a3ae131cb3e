import JetAdapter.Proofs.Levels

/-!
# The grammar of joins

A block of a `FROM` clause is a table, or a shorter block that an operator, a table, an `ON` and a condition
follow.  `JoinTree` has the two cases; `WellFormed` says which stretches stand where, and in particular that an
operator is the longest one that ends at its `JOIN` (`IsOperator`).  A whole clause is one block or more with commas
between them (`FromClause`).

`JoinChain.ofBlock` takes apart just the well-formed blocks (`ofBlock_eq_ok_iff`), and a clause has edits just if it is
well-formed (`clauseEdits_eq_ok_iff`).  Whatever else is refused, is refused for its syntax.
-/

namespace JetAdapter

variable {depth stop index : Nat} {before words part rest ts block : List Token} {j : Token}

/-! ### Operators -/

/-- Whether a stretch ends with these keywords. -/
def Token.EndsWith (ks : List Keyword) (ts : List Token) : Prop :=
  ks.map Kind.keyword <:+ ts.map fun t => t.kind

/-- What may stand before the `JOIN` of an operator. -/
def Keyword.sides : List (List Keyword) :=
  [[], [.INNER], [.LEFT], [.RIGHT], [.LEFT, .OUTER], [.RIGHT, .OUTER]]

/-- What stands before the `JOIN` of the operators that Jet does not know. -/
def Keyword.foreignSides : List (List Keyword) :=
  [[.FULL], [.CROSS], [.FULL, .OUTER], [.CROSS, .OUTER]]

open Token (EndsWith)
open Keyword (sides foreignSides)

/-- Whether some words, standing behind others and before a `JOIN`, make an operator with it, and no longer operator
ends there.  An `OUTER` needs a side, and none of the operators that Jet does not know may end there. -/
structure IsOperator (before words : List Token) : Prop where
  known : ∃ ks ∈ sides, (words.map fun t => t.kind) = ks.map Kind.keyword
  longest : ∀ ks ∈ sides, EndsWith ks (before ++ words) → ks.length ≤ words.length
  sided : EndsWith [.OUTER] (before ++ words) →
    EndsWith [.LEFT, .OUTER] (before ++ words) ∨ EndsWith [.RIGHT, .OUTER] (before ++ words)
  native : ∀ ks ∈ foreignSides, ¬ EndsWith ks (before ++ words)

namespace Token

variable {k k' : Keyword} {ks : List Keyword} {t : Token}

theorem splitFirst_eq_none {p : Token → Bool} (h : splitFirst p ts = none) : ∀ t ∈ ts, p t = false := by
  induction ts with
  | nil => exact nofun
  | cons t ts ih =>
    rw [splitFirst] at h
    split at h
    · cases h
    · next ht => exact List.forall_mem_cons.2 ⟨Bool.eq_false_iff.2 ht, ih (Option.map_eq_none_iff.1 h)⟩

@[simp] theorem endsWith_nil (ts : List Token) : EndsWith [] ts :=
  List.nil_suffix

@[simp] theorem endsWith_of_nil : EndsWith ks [] ↔ ks = [] := by
  simp [EndsWith]

theorem endsWith_concat : EndsWith (ks ++ [k]) (ts ++ [t]) ↔ t.kind = .keyword k ∧ EndsWith ks ts := by
  simp [EndsWith, ← List.reverse_prefix, eq_comm]

@[simp] theorem endsWith_one : EndsWith [k] (ts ++ [t]) ↔ t.kind = .keyword k := by
  have h : EndsWith ([] ++ [k]) (ts ++ [t]) ↔ _ := endsWith_concat
  simpa using h

@[simp] theorem endsWith_two : EndsWith [k', k] (ts ++ [t]) ↔ t.kind = .keyword k ∧ EndsWith [k'] ts := by
  have h : EndsWith ([k'] ++ [k]) (ts ++ [t]) ↔ _ := endsWith_concat
  exact h

@[simp] theorem endsWith_one_pair {s : Token} : EndsWith [k] (ts ++ [s, t]) ↔ t.kind = .keyword k := by
  have h : EndsWith [k] ((ts ++ [s]) ++ [t]) ↔ _ := endsWith_one
  simpa using h

@[simp] theorem endsWith_two_pair {s : Token} :
    EndsWith [k', k] (ts ++ [s, t]) ↔ t.kind = .keyword k ∧ s.kind = .keyword k' := by
  have h : EndsWith [k', k] ((ts ++ [s]) ++ [t]) ↔ _ := endsWith_two
  simpa using h

/-- What stands before a `JOIN` says nothing about what the words behind it end with. -/
theorem endsWith_behind (hj : j.isKeyword .JOIN = true) (hks : Keyword.JOIN ∉ ks) :
    EndsWith ks (before ++ j :: ts) ↔ EndsWith ks ts := by
  have hkind : j.kind = .keyword .JOIN := Kind.isKeyword_iff.1 hj
  have hwhole : ((j :: ts).map fun t => t.kind) <:+ (before ++ j :: ts).map fun t => t.kind := by
    rw [List.map_append]
    exact List.suffix_append _ _
  constructor
  · intro h
    rcases List.suffix_or_suffix_of_suffix h hwhole with hshort | hlong
    · rw [List.map_cons, List.suffix_cons_iff] at hshort
      rcases hshort with heq | hshort
      · refine absurd ?_ hks
        have hmem : Kind.keyword .JOIN ∈ ks.map Kind.keyword := by
          rw [heq, hkind]
          exact List.mem_cons_self
        simpa using hmem
      · exact hshort
    · refine absurd ?_ hks
      have hmem : Kind.keyword .JOIN ∈ ks.map Kind.keyword := by
        refine hlong.subset ?_
        rw [List.map_cons, hkind]
        exact List.mem_cons_self
      simpa using hmem
  · intro h
    refine h.trans ?_
    rw [List.map_append, List.map_cons]
    exact (List.suffix_cons _ _).trans (List.suffix_append _ _)

end Token

namespace IsOperator

/-- What stands before the last `JOIN` has no say in an operator. -/
theorem behind_iff (hj : j.isKeyword .JOIN = true) :
    IsOperator (before ++ j :: ts) words ↔ IsOperator ts words := by
  have hends : ∀ {ks : List Keyword}, Keyword.JOIN ∉ ks →
      (EndsWith ks (before ++ j :: ts ++ words) ↔ EndsWith ks (ts ++ words)) := by
    intro ks hks
    rw [List.append_assoc, List.cons_append]
    exact Token.endsWith_behind hj hks
  have hsides : ∀ ks ∈ sides, Keyword.JOIN ∉ ks := by decide
  have hforeign : ∀ ks ∈ foreignSides, Keyword.JOIN ∉ ks := by decide
  constructor
  · intro h
    refine ⟨h.known, fun ks hks he => h.longest ks hks ((hends (hsides ks hks)).2 he), fun he => ?_,
      fun ks hks he => h.native ks hks ((hends (hforeign ks hks)).2 he)⟩
    rw [← hends (by decide), ← hends (by decide)]
    exact h.sided ((hends (by decide)).2 he)
  · intro h
    refine ⟨h.known, fun ks hks he => h.longest ks hks ((hends (hsides ks hks)).1 he), fun he => ?_,
      fun ks hks he => h.native ks hks ((hends (hforeign ks hks)).1 he)⟩
    rw [hends (by decide), hends (by decide)]
    exact h.sided ((hends (by decide)).1 he)

/-- The operator of a `JOIN` is determined by what stands before it. -/
theorem unique {before' words' : List Token} (h : IsOperator before words) (h' : IsOperator before' words')
    (heq : before ++ words = before' ++ words') : before = before' ∧ words = words' := by
  have hle : ∀ {b w b' w' : List Token}, IsOperator b w → IsOperator b' w' → b ++ w = b' ++ w' →
      w'.length ≤ w.length := by
    intro b w b' w' hb hb' heq
    obtain ⟨ks, hks, hkinds⟩ := hb'.known
    have hends : EndsWith ks (b ++ w) := by
      rw [heq, Token.EndsWith, List.map_append, hkinds]
      exact List.suffix_append _ _
    have hlength : w'.length = ks.length := by
      simpa using congrArg List.length hkinds
    rw [hlength]
    exact hb.longest ks hks hends
  have hlength : words.length = words'.length :=
    Nat.le_antisymm (hle h' h heq.symm) (hle h h' heq)
  exact List.append_inj' heq hlength

end IsOperator

namespace JoinChain

theorem kind_of_keyword? {t : Token} {k : Keyword} (h : t.kind.keyword? = some k) : t.kind = .keyword k := by
  cases hk : t.kind with
  | keyword k' =>
    rw [hk] at h
    obtain rfl : k' = k := by simpa [Kind.keyword?] using h
    rfl
  | _ =>
    rw [hk] at h
    cases h

/-- Dropping the words of an operator leaves what stands before them. -/
theorem isOperator_of_dropOperator (h : dropOperator part = .ok rest) :
    ∃ words, part = rest ++ words ∧ IsOperator rest words := by
  unfold dropOperator at h
  split at h
  · next hrev =>
    obtain rfl : part = [] := by simpa using hrev
    cases h
    refine ⟨[], rfl, ⟨[], by decide, rfl⟩, ?_, ?_, ?_⟩
    · simp [sides]
    · simp
    · simp [foreignSides]
  · next last before hrev =>
    obtain rfl : part = before.reverse ++ [last] := List.reverse_eq_cons_iff.1 hrev
    have hone : ∀ {k : Keyword}, last.kind = .keyword k → (k = .INNER ∨ k = .LEFT ∨ k = .RIGHT) →
        IsOperator before.reverse [last] := by
      rintro k hk (rfl | rfl | rfl)
      · exact ⟨⟨[.INNER], by decide, by simp [hk]⟩, by simp [sides, hk], by simp [hk], by simp [foreignSides, hk]⟩
      · exact ⟨⟨[.LEFT], by decide, by simp [hk]⟩, by simp [sides, hk], by simp [hk], by simp [foreignSides, hk]⟩
      · exact ⟨⟨[.RIGHT], by decide, by simp [hk]⟩, by simp [sides, hk], by simp [hk], by simp [foreignSides, hk]⟩
    split at h
    · cases h
    · cases h
    · next hk =>
      cases h
      exact ⟨[last], rfl, hone (kind_of_keyword? hk) (.inl rfl)⟩
    · next hk =>
      cases h
      exact ⟨[last], rfl, hone (kind_of_keyword? hk) (.inr (.inl rfl))⟩
    · next hk =>
      cases h
      exact ⟨[last], rfl, hone (kind_of_keyword? hk) (.inr (.inr rfl))⟩
    · next hk =>
      have hlast := kind_of_keyword? hk
      split at h
      · cases h
      · next side more =>
        have htwo : ∀ {k : Keyword}, side.kind = .keyword k → (k = .LEFT ∨ k = .RIGHT) →
            IsOperator more.reverse [side, last] := by
          intro k hside hor
          rcases hor with rfl | rfl
          · exact ⟨⟨[.LEFT, .OUTER], by decide, by simp [hside, hlast]⟩, by simp [sides, hside, hlast],
              by simp [hside, hlast], by simp [foreignSides, hside, hlast]⟩
          · exact ⟨⟨[.RIGHT, .OUTER], by decide, by simp [hside, hlast]⟩, by simp [sides, hside, hlast],
              by simp [hside, hlast], by simp [foreignSides, hside, hlast]⟩
        split at h
        · cases h
        · cases h
        · next hs =>
          cases h
          exact ⟨[side, last], by simp, htwo (kind_of_keyword? hs) (.inl rfl)⟩
        · next hs =>
          cases h
          exact ⟨[side, last], by simp, htwo (kind_of_keyword? hs) (.inr rfl)⟩
        · cases h
    · next hfull hcross hinner hleft hright houter =>
      cases h
      have hnot : ∀ {k : Keyword}, (last.kind.keyword? = some k → False) → last.kind ≠ .keyword k := by
        intro k hk hkind
        exact hk (by rw [hkind]; rfl)
      have hfull := hnot hfull
      have hcross := hnot hcross
      have hinner := hnot hinner
      have hleft := hnot hleft
      have hright := hnot hright
      have houter := hnot houter
      refine ⟨[], by simp, ⟨[], by decide, rfl⟩, ?_, ?_, ?_⟩
      · simp [sides, hinner, hleft, hright, houter]
      · simp [houter]
      · simp [foreignSides, hfull, hcross, houter]

/-- Words that are refused before a `JOIN` are those of no operator. -/
theorem not_isOperator_of_dropOperator {e : SqlError} (h : dropOperator part = .error e) :
    (∃ fault span, e = .syntaxError fault span) ∧ ∀ rest words, part = rest ++ words → ¬ IsOperator rest words := by
  have hforeign : ∀ (t : Token) (ks : List Keyword), unknownSide t = e → ks ∈ foreignSides → EndsWith ks part →
      (∃ fault span, e = .syntaxError fault span) ∧
        ∀ rest words, part = rest ++ words → ¬ IsOperator rest words := by
    rintro t ks rfl hks hends
    exact ⟨⟨_, _, rfl⟩, fun rest words hpart hop => hop.native ks hks (hpart ▸ hends)⟩
  unfold dropOperator at h
  split at h
  · cases h
  · next last before hrev =>
    obtain rfl : part = before.reverse ++ [last] := List.reverse_eq_cons_iff.1 hrev
    split at h
    · next hk =>
      cases h
      exact hforeign last [.FULL] rfl (by decide) (by simp [kind_of_keyword? hk])
    · next hk =>
      cases h
      exact hforeign last [.CROSS] rfl (by decide) (by simp [kind_of_keyword? hk])
    · cases h
    · cases h
    · cases h
    · next hk =>
      have hlast := kind_of_keyword? hk
      split at h
      · cases h
        refine ⟨⟨_, _, rfl⟩, fun rest words hpart hop => ?_⟩
        have hsided := hop.sided
        rw [← hpart, Token.endsWith_one, Token.endsWith_two, Token.endsWith_two] at hsided
        simp [hlast] at hsided
      · next side more =>
        have hside : ∀ k, EndsWith [k] (side :: more).reverse ↔ side.kind = .keyword k := by simp
        split at h
        · next hs =>
          cases h
          exact hforeign side [.FULL, .OUTER] rfl (by decide) (by
            rw [Token.endsWith_two, hside]
            exact ⟨hlast, kind_of_keyword? hs⟩)
        · next hs =>
          cases h
          exact hforeign side [.CROSS, .OUTER] rfl (by decide) (by
            rw [Token.endsWith_two, hside]
            exact ⟨hlast, kind_of_keyword? hs⟩)
        · cases h
        · cases h
        · next hleft hright _ =>
          cases h
          refine ⟨⟨_, _, rfl⟩, fun rest words hpart hop => ?_⟩
          have hsided := hop.sided
          rw [← hpart, Token.endsWith_one, Token.endsWith_two, Token.endsWith_two, hside, hside] at hsided
          rcases hsided hlast with ⟨-, hs⟩ | ⟨-, hs⟩
          · simp_all [Kind.keyword?]
          · simp_all [Kind.keyword?]
    · cases h

/-- The words of an operator are dropped, and nothing else is. -/
theorem dropOperator_eq_ok_iff : dropOperator part = .ok rest ↔ ∃ words, part = rest ++ words ∧ IsOperator rest words := by
  refine ⟨isOperator_of_dropOperator, fun ⟨words, hpart, hop⟩ => ?_⟩
  cases hdrop : dropOperator part with
  | error e => exact absurd hop ((not_isOperator_of_dropOperator hdrop).2 rest words hpart)
  | ok rest' =>
    obtain ⟨words', hpart', hop'⟩ := isOperator_of_dropOperator hdrop
    rw [(hop.unique hop' (hpart.symm.trans hpart')).1]

end JoinChain

/-! ### Blocks -/

/-- A block by its last operator: a table, or a shorter block that an operator, a table, an `ON` and a condition
follow.  The operator is its `JOIN` and the words before it. -/
inductive JoinTree
  | table (tokens : List Token)
  | join (left : JoinTree) (words : List Token) (join : Token) (operand : List Token) (on : Token)
      (condition : List Token)

namespace JoinTree

/-- The tokens of a block. -/
def tokens : JoinTree → List Token
  | table ts => ts
  | join left words j operand on condition => left.tokens ++ (words ++ j :: (operand ++ on :: condition))

/-- The table before the first operator. -/
def head : JoinTree → List Token
  | table ts => ts
  | join left _ _ _ _ _ => left.head

/-- The further members of the chain that a block is. -/
def links : JoinTree → List JoinLink
  | table _ => []
  | join left _ j operand on condition => left.links ++ [⟨j, operand ++ on :: condition⟩]

/-- The chain that a block is. -/
def chain (b : JoinTree) : JoinChain :=
  ⟨b.head, b.links⟩

/-- Whether a stretch holds something and no `JOIN` of a depth. -/
def IsPart (depth : Nat) (ts : List Token) : Prop :=
  ts ≠ [] ∧ ∀ t ∈ ts, t.isKeywordAt depth .JOIN = false

/-- Whether the parts of a block of a depth are what their places ask for. -/
inductive WellFormed (depth : Nat) : JoinTree → Prop
  | table {ts : List Token} (part : IsPart depth ts) : WellFormed depth (table ts)
  | join {left : JoinTree} {words operand condition : List Token} {j on : Token} (shorter : WellFormed depth left)
      (operator : IsOperator left.tokens words) (joins : j.isKeywordAt depth .JOIN = true)
      (named : IsPart depth operand) (starts : ∀ t ∈ operand.head?, t.isKeyword .ON = false)
      (parts : on.isKeywordAt depth .ON = true) (holds : IsPart depth condition) :
      WellFormed depth (join left words j operand on condition)

end JoinTree

namespace JoinChain

variable {xs ys : List Token} {head : List Token} {link z : JoinLink} {others links pre ls : List JoinLink}
  {chain : JoinChain} {b : JoinTree}

theorem isKeyword_eq_false_of_ne {t : Token} {k k' : Keyword} (h : t.isKeyword k = true) (hne : k ≠ k') :
    t.isKeyword k' = false := by
  have hk : t.kind = .keyword k := Kind.isKeyword_iff.1 h
  simp [Token.isKeyword, Kind.isKeyword, hk, hne]

/-- No part of a cut holds a `JOIN`. -/
theorem not_join_of_cut (depth : Nat) (ts : List Token) :
    (∀ t ∈ (cut depth ts).1, t.isKeywordAt depth .JOIN = false) ∧
      ∀ l ∈ (cut depth ts).2, ∀ t ∈ l.operand, t.isKeywordAt depth .JOIN = false := by
  induction ts with
  | nil => exact ⟨List.forall_mem_nil _, List.forall_mem_nil _⟩
  | cons t ts ih =>
    rw [cut]
    simp only
    split
    · exact ⟨List.forall_mem_nil _, List.forall_mem_cons.2 ih⟩
    · next hj => exact ⟨List.forall_mem_cons.2 ⟨Bool.eq_false_iff.2 hj, ih.1⟩, ih.2⟩

/-- Without a `JOIN` there is nothing to cut. -/
theorem cut_of_not_join (h : ∀ t ∈ ts, t.isKeywordAt depth .JOIN = false) : cut depth ts = (ts, []) := by
  induction ts with
  | nil => rfl
  | cons t ts ih =>
    obtain ⟨ht, hts⟩ := List.forall_mem_cons.1 h
    rw [cut, ih hts]
    simp [ht]

/-- The last cut. -/
theorem cut_concat (hj : j.isKeywordAt depth .JOIN = true) (h : ∀ t ∈ ys, t.isKeywordAt depth .JOIN = false) :
    cut depth (xs ++ j :: ys) = ((cut depth xs).1, (cut depth xs).2 ++ [⟨j, ys⟩]) := by
  induction xs with
  | nil => simp [cut, cut_of_not_join h, hj]
  | cons x xs ih =>
    simp only [List.cons_append, cut, ih]
    split
    · rfl
    · rfl

theorem exists_of_cut_concat (h : cut depth xs = (part, pre ++ [z])) :
    ∃ ys, xs = ys ++ z.join :: z.operand ∧ cut depth ys = (part, pre) ∧ z.join.isKeywordAt depth .JOIN = true ∧
      ∀ t ∈ z.operand, t.isKeywordAt depth .JOIN = false := by
  have heq := eq_of_cut depth xs
  have hnot := (not_join_of_cut depth xs).2
  have hjoins := isKeywordAt_of_mem_cut depth xs
  rw [h] at heq hnot hjoins
  have hz := hnot z (by simp)
  have hj := hjoins z (by simp)
  refine ⟨part ++ pre.flatMap fun l => l.join :: l.operand, by simpa using heq, ?_, hj, hz⟩
  have hxs : xs = (part ++ pre.flatMap fun l => l.join :: l.operand) ++ z.join :: z.operand := by simpa using heq
  rw [hxs, cut_concat hj hz] at h
  obtain ⟨hpart, hpre⟩ := Prod.mk.inj h
  exact Prod.ext hpart (List.append_inj_left' hpre rfl)

/-- Whether a member is another one with the words of an operator dropped from its end. -/
def Dropped (raw l : JoinLink) : Prop :=
  l.join = raw.join ∧ dropOperator raw.operand = .ok l.operand

theorem forall₂_concat_left (h : List.Forall₂ Dropped (pre ++ [z]) ls) :
    ∃ ls' l, ls = ls' ++ [l] ∧ List.Forall₂ Dropped pre ls' ∧ Dropped z l := by
  rw [← List.forall₂_reverse_iff, List.reverse_append] at h
  generalize hrev : ls.reverse = rs at h
  cases h with
  | @cons _ l _ rs hz hpre =>
    refine ⟨rs.reverse, l, ?_, ?_, hz⟩
    · rw [← List.reverse_reverse ls, hrev, List.reverse_cons]
    · rw [← List.forall₂_reverse_iff, List.reverse_reverse]
      exact hpre

/-- The last member keeps its end. -/
theorem dropOperators_eq_ok_iff : dropOperators link others = .ok links ↔
    ∃ pre z ls, link :: others = pre ++ [z] ∧ List.Forall₂ Dropped pre ls ∧ links = ls ++ [z] := by
  induction others generalizing link links with
  | nil =>
    rw [dropOperators]
    constructor
    · intro h
      cases h
      exact ⟨[], link, [], rfl, .nil, rfl⟩
    · rintro ⟨pre, z, ls, heq, hls, rfl⟩
      obtain ⟨rfl, rfl⟩ : pre = [] ∧ link = z := by
        cases pre with
        | nil => simpa using heq
        | cons p pre => simp at heq
      cases hls
      rfl
  | cons next others ih =>
    rw [dropOperators]
    constructor
    · intro h
      obtain ⟨operand, hoperand, h⟩ := Except.bind_eq_ok h
      obtain ⟨links', hrest, h⟩ := Except.bind_eq_ok h
      cases h
      obtain ⟨pre, z, ls, heq, hls, rfl⟩ := ih.1 hrest
      exact ⟨link :: pre, z, ⟨link.join, operand⟩ :: ls, by rw [heq]; rfl, .cons ⟨rfl, hoperand⟩ hls, rfl⟩
    · rintro ⟨pre, z, ls, heq, hls, rfl⟩
      cases pre with
      | nil => simp at heq
      | cons p pre =>
        obtain ⟨rfl, hrest⟩ := List.cons.inj heq
        cases hls with
        | @cons _ l _ ls hdrop hls =>
          obtain ⟨hjoin, hoperand⟩ := hdrop
          rw [hoperand, ih.2 ⟨pre, z, ls, hrest, hls, rfl⟩, ← hjoin]
          rfl

theorem forM_eq_ok_iff {f : JoinLink → Except SqlError Unit} : ls.forM f = .ok () ↔ ∀ l ∈ ls, f l = .ok () := by
  refine ⟨forall_of_forM, fun h => ?_⟩
  induction ls with
  | nil => rfl
  | cons l ls ih =>
    obtain ⟨hl, hls⟩ := List.forall_mem_cons.1 h
    change (f l >>= fun _ => ls.forM f) = _
    rw [hl]
    exact ih hls

/-- What is checked of a member: its table, its `ON` and its condition. -/
theorem checkLink_eq_ok_iff : checkLink depth link = .ok () ↔
    ∃ operand on condition, link.operand = operand ++ on :: condition ∧ operand ≠ [] ∧
      (∀ t ∈ operand.head?, t.isKeyword .ON = false) ∧ on.isKeywordAt depth .ON = true ∧ condition ≠ [] := by
  rw [checkLink]
  constructor
  · intro h
    split at h
    · cases h
    next hnot =>
    rw [not_or] at hnot
    split at h
    · cases h
    · cases h
    · next operand on c cs hsplit =>
      obtain ⟨heq, hon, -⟩ := Token.splitFirst_eq_some hsplit
      have hstarts : ∀ t ∈ link.operand.head?, t.isKeyword .ON = false := by
        intro t ht
        rw [ht] at hnot
        simpa using hnot.2
      cases operand with
      | nil =>
        have := hstarts on (by rw [heq]; rfl)
        rw [Token.isKeyword_of_isKeywordAt hon] at this
        cases this
      | cons o os =>
        refine ⟨o :: os, on, c :: cs, heq, List.cons_ne_nil _ _, fun t ht => hstarts t ?_, hon, List.cons_ne_nil _ _⟩
        rw [heq]
        exact ht
  · rintro ⟨operand, on, condition, heq, hoperand, hstarts, hon, hcondition⟩
    obtain ⟨o, os, rfl⟩ := List.exists_cons_of_ne_nil hoperand
    have ho : o.isKeyword .ON = false := hstarts o rfl
    have hnot : ¬(link.operand = [] ∨ (link.operand.head?.any fun t => t.isKeyword .ON) = true) := by
      simp [heq, ho]
    rw [if_neg hnot]
    have hmem : on ∈ link.operand := by
      rw [heq]
      simp
    cases hsplit : Token.splitFirst (Token.isKeywordAt depth .ON) link.operand with
    | none => exact absurd hon (by simp [Token.splitFirst_eq_none hsplit on hmem])
    | some found =>
      obtain ⟨before, on', after⟩ := found
      obtain ⟨heq', -, hbefore⟩ := Token.splitFirst_eq_some hsplit
      cases after with
      | cons a as => rfl
      | nil =>
        -- The first `ON` would be the last token, but there is one with a condition behind it.
        refine absurd hon (hbefore on ?_)
        have hlast : (o :: os ++ on :: condition).dropLast = before := by
          rw [← heq, heq', List.dropLast_concat]
        rw [← hlast, List.dropLast_append_of_ne_nil (List.cons_ne_nil _ _)]
        obtain ⟨c, cs, rfl⟩ := List.exists_cons_of_ne_nil hcondition
        simp

/-- A part before a `JOIN` is what the operator follows, and the words of the operator. -/
theorem not_join_of_isOperator (h : IsOperator before words) : ∀ t ∈ words, t.isKeywordAt depth .JOIN = false := by
  obtain ⟨ks, hks, hkinds⟩ := h.known
  have hjoin : Keyword.JOIN ∉ ks := (by decide : ∀ ks ∈ sides, Keyword.JOIN ∉ ks) ks hks
  intro t ht
  have hmem : t.kind ∈ ks.map Kind.keyword := by
    rw [← hkinds]
    exact List.mem_map_of_mem ht
  obtain ⟨k, hk, hkind⟩ := List.mem_map.1 hmem
  have hne : k ≠ .JOIN := fun heq => hjoin (heq ▸ hk)
  simp [Token.isKeywordAt, Token.isKeyword, Kind.isKeyword, ← hkind, hne]

/-- A block and what goes on with a join make a longer block. -/
theorem exists_join {left : JoinTree} (hleft : left.WellFormed depth) (hop : IsOperator left.tokens words)
    (hj : z.join.isKeywordAt depth .JOIN = true) (hnot : ∀ t ∈ z.operand, t.isKeywordAt depth .JOIN = false)
    (hcheck : checkLink depth z = .ok ()) :
    ∃ b : JoinTree, b.WellFormed depth ∧ b.tokens = (left.tokens ++ words) ++ z.join :: z.operand ∧
      b.chain = ⟨left.head, left.links ++ [z]⟩ := by
  obtain ⟨operand, on, condition, heq, hoperand, hstarts, hon, hcondition⟩ := checkLink_eq_ok_iff.1 hcheck
  rw [heq] at hnot
  refine ⟨.join left words z.join operand on condition, ?_, ?_, ?_⟩
  · exact .join hleft hop hj ⟨hoperand, fun t ht => hnot t (by simp [ht])⟩ hstarts hon
      ⟨hcondition, fun t ht => hnot t (by simp [ht])⟩
  · rw [JoinTree.tokens, heq, List.append_assoc]
  · rw [JoinTree.chain, JoinTree.head, JoinTree.links, ← heq]

/-- What goes on with a join in a longer block. -/
theorem of_join {left : JoinTree} {operand condition : List Token} {on : Token}
    (h : (JoinTree.join left words j operand on condition).WellFormed depth) :
    left.WellFormed depth ∧ IsOperator left.tokens words ∧ j.isKeywordAt depth .JOIN = true ∧
      (∀ t ∈ operand ++ on :: condition, t.isKeywordAt depth .JOIN = false) ∧
      checkLink depth ⟨j, operand ++ on :: condition⟩ = .ok () := by
  cases h with
  | join shorter operator joins named starts parts holds =>
    have hon : on.isKeywordAt depth .JOIN = false := by
      rw [Token.isKeywordAt, isKeyword_eq_false_of_ne (Token.isKeyword_of_isKeywordAt parts) (by decide),
        Bool.and_false]
    exact ⟨shorter, operator, joins, List.forall_mem_append.2 ⟨named.2, List.forall_mem_cons.2 ⟨hon, holds.2⟩⟩,
      checkLink_eq_ok_iff.2 ⟨operand, on, condition, rfl, named.1, starts, parts, holds.1⟩⟩

/-- What stands before a `JOIN` can be taken apart just if it is a block and the words of an operator. -/
theorem dropped_iff (hcut : cut depth xs = (part, pre)) :
    (dropOperator part = .ok head ∧ head ≠ [] ∧ List.Forall₂ Dropped pre ls ∧
        ∀ l ∈ ls, checkLink depth l = .ok ()) ↔
      ∃ (b : JoinTree) (words : List Token), xs = b.tokens ++ words ∧ b.WellFormed depth ∧
        IsOperator b.tokens words ∧ b.chain = ⟨head, ls⟩ := by
  constructor
  · rintro ⟨hpart, hhead, hls, hcheck⟩
    -- The members are taken off from the end.
    induction pre using List.reverseRecOn generalizing ls xs with
    | nil =>
      cases hls
      obtain ⟨words, hwords, hop⟩ := dropOperator_eq_ok_iff.1 hpart
      have hxs : xs = part := by
        have := eq_of_cut depth xs
        rwa [hcut, List.flatMap_nil, List.append_nil] at this
      have hnot := (not_join_of_cut depth xs).1
      rw [hcut] at hnot
      refine ⟨.table head, words, hxs.trans hwords, .table ⟨hhead, fun t ht => hnot t ?_⟩, hop, rfl⟩
      rw [hwords]
      exact List.mem_append_left _ ht
    | append_singleton pre z ih =>
      obtain ⟨ys, rfl, hys, hj, hnot⟩ := exists_of_cut_concat hcut
      obtain ⟨ls, last, rfl, hls', hjoin, hdrop⟩ := forall₂_concat_left hls
      obtain ⟨hchecks, hcheck'⟩ := List.forall_mem_append.1 hcheck
      obtain ⟨left, words, rfl, hleft, hop, hchain⟩ := ih hys hls' hchecks
      obtain ⟨rfl, rfl⟩ := JoinChain.mk.inj hchain
      obtain ⟨words', hwords', hop'⟩ := dropOperator_eq_ok_iff.1 hdrop
      rw [hwords'] at hnot
      rw [← hjoin] at hj
      obtain ⟨b, hb, htokens, hbchain⟩ := exists_join hleft hop hj (fun t ht => hnot t (List.mem_append_left _ ht))
        (hcheck' last (List.mem_singleton_self last))
      refine ⟨b, words', ?_, hb, ?_, hbchain⟩
      · rw [htokens, hwords', hjoin, List.append_assoc _ (_ :: _), List.cons_append]
      · rw [htokens, IsOperator.behind_iff (Token.isKeyword_of_isKeywordAt hj)]
        exact hop'
  · rintro ⟨b, words, rfl, hb, hop, hchain⟩
    obtain ⟨rfl, rfl⟩ := JoinChain.mk.inj hchain
    induction b generalizing words part pre with
    | table ts =>
      cases hb with
      | table ispart =>
        rw [cut_of_not_join] at hcut
        · obtain ⟨rfl, rfl⟩ := Prod.mk.inj hcut
          exact ⟨dropOperator_eq_ok_iff.2 ⟨words, rfl, hop⟩, ispart.1, .nil, nofun⟩
        · exact List.forall_mem_append.2 ⟨ispart.2, not_join_of_isOperator hop⟩
    | join left words' j operand on condition ih =>
      obtain ⟨hleft, hoperator, hj, hnot, hlast⟩ := of_join hb
      have hrest : ∀ t ∈ operand ++ on :: condition ++ words, t.isKeywordAt depth .JOIN = false :=
        List.forall_mem_append.2 ⟨hnot, not_join_of_isOperator hop⟩
      have hxs : (JoinTree.join left words' j operand on condition).tokens ++ words
          = (left.tokens ++ words') ++ j :: (operand ++ on :: condition ++ words) := by
        simp [JoinTree.tokens]
      rw [hxs, cut_concat hj hrest] at hcut
      obtain ⟨rfl, rfl⟩ := Prod.mk.inj hcut
      obtain ⟨hpart, hhead, hls, hcheck⟩ := ih words' rfl hleft hoperator rfl
      have hdrop : dropOperator (operand ++ on :: condition ++ words) = .ok (operand ++ on :: condition) := by
        refine dropOperator_eq_ok_iff.2 ⟨words, rfl, ?_⟩
        rw [JoinTree.tokens, ← List.append_assoc, IsOperator.behind_iff (Token.isKeyword_of_isKeywordAt hj)] at hop
        exact hop
      refine ⟨hpart, hhead, List.rel_append hls (.cons ⟨rfl, hdrop⟩ .nil), ?_⟩
      rw [JoinTree.links, List.forall_mem_append]
      exact ⟨hcheck, List.forall_mem_singleton.2 hlast⟩

/-- `ofBlock` by its cut. -/
theorem ofBlock_eq_ok_iff_of_cut (hcut : cut depth block = (part, pre ++ [z])) : ofBlock depth block = .ok chain ↔
    dropOperator part = .ok chain.head ∧ chain.head ≠ [] ∧
      ∃ ls, List.Forall₂ Dropped pre ls ∧ chain.links = ls ++ [z] ∧ ∀ l ∈ chain.links, checkLink depth l = .ok () := by
  obtain ⟨first, others, hraw⟩ : ∃ first others, pre ++ [z] = first :: others :=
    List.exists_cons_of_ne_nil (by simp)
  rw [hraw] at hcut
  rw [ofBlock, hcut]
  constructor
  · intro h
    obtain ⟨head, hhead, h⟩ := Except.bind_eq_ok h
    split at h
    · cases h
    next hne =>
    obtain ⟨links, hlinks, h⟩ := Except.bind_eq_ok h
    obtain ⟨_, hcheck, h⟩ := Except.bind_eq_ok h
    cases h
    obtain ⟨pre', z', ls, heq, hls, rfl⟩ := dropOperators_eq_ok_iff.1 hlinks
    obtain ⟨rfl, hz⟩ := List.append_inj' (hraw.trans heq) rfl
    obtain rfl : z = z' := by simpa using hz
    exact ⟨hhead, hne, ls, hls, rfl, forM_eq_ok_iff.1 hcheck⟩
  · rintro ⟨hhead, hne, ls, hls, hlinks, hcheck⟩
    obtain ⟨head, links⟩ := chain
    simp only at hhead hne hlinks hcheck
    subst hlinks
    have hdrop : dropOperators first others = .ok (ls ++ [z]) :=
      dropOperators_eq_ok_iff.2 ⟨pre, z, ls, hraw.symm, hls, rfl⟩
    simp only [hhead, hdrop, forM_eq_ok_iff.2 hcheck, bind, Except.bind, if_neg hne]
    rfl

/-- **Blocks.**  A block can be taken apart just if it is well-formed, and it is taken apart as it is built. -/
theorem ofBlock_eq_ok_iff (hne : block ≠ []) : ofBlock depth block = .ok chain ↔
    ∃ b : JoinTree, b.WellFormed depth ∧ b.tokens = block ∧ b.chain = chain := by
  rcases hraw : cut depth block with ⟨part, raw⟩
  rcases List.eq_nil_or_concat raw with rfl | ⟨pre, z, rfl⟩
  · have hpart : block = part := by
      have := eq_of_cut depth block
      rwa [hraw, List.flatMap_nil, List.append_nil] at this
    have hnot := (not_join_of_cut depth block).1
    rw [hraw, ← hpart] at hnot
    rw [ofBlock, hraw, ← hpart]
    constructor
    · intro h
      cases h
      exact ⟨.table block, .table ⟨hne, hnot⟩, rfl, rfl⟩
    · rintro ⟨b, hb, hblock, rfl⟩
      cases b with
      | table ts =>
        rw [← hblock]
        rfl
      | join left words j operand on condition =>
        obtain ⟨-, -, hj, -, -⟩ := of_join hb
        have hmem : j ∈ block := by
          rw [← hblock]
          simp [JoinTree.tokens]
        rw [hnot j hmem] at hj
        cases hj
  · rw [List.concat_eq_append] at hraw
    rw [ofBlock_eq_ok_iff_of_cut hraw]
    obtain ⟨ys, rfl, hys, hj, hnot⟩ := exists_of_cut_concat hraw
    constructor
    · rintro ⟨hhead, hne, ls, hls, hlinks, hcheck⟩
      rw [hlinks] at hcheck
      obtain ⟨hchecks, hlast⟩ := List.forall_mem_append.1 hcheck
      obtain ⟨left, words, rfl, hleft, hop, hchain⟩ := (dropped_iff hys).1 ⟨hhead, hne, hls, hchecks⟩
      obtain ⟨hleftHead, hleftLinks⟩ := JoinChain.mk.inj hchain
      obtain ⟨b, hb, htokens, hbchain⟩ := exists_join hleft hop hj hnot (hlast z (List.mem_singleton_self z))
      refine ⟨b, hb, htokens, ?_⟩
      rw [hbchain, hleftHead, hleftLinks, ← hlinks]
    · rintro ⟨b, hb, hblock, rfl⟩
      cases b with
      | table ts =>
        cases hb with
        | table ispart =>
          have hmem : z.join ∈ ts := by
            rw [show ts = ys ++ z.join :: z.operand from hblock]
            simp
          rw [ispart.2 z.join hmem] at hj
          cases hj
      | join left words j operand on condition =>
        obtain ⟨hleft, hoperator, hj', hrest, hlast⟩ := of_join hb
        -- Both ways to take off the last member are the same.
        rw [← hblock, JoinTree.tokens, ← List.append_assoc, cut_concat hj' hrest] at hraw
        obtain ⟨hpart, hlinks⟩ := Prod.mk.inj hraw
        obtain ⟨hpre, hz⟩ := List.append_inj' hlinks rfl
        obtain rfl : ⟨j, operand ++ on :: condition⟩ = z := by simpa using hz
        obtain ⟨hhead, hne, hls, hcheck⟩ :=
          (dropped_iff (Prod.ext hpart hpre)).2 ⟨left, words, rfl, hleft, hoperator, rfl⟩
        refine ⟨hhead, hne, left.links, hls, rfl, ?_⟩
        rw [JoinTree.chain, JoinTree.links, List.forall_mem_append]
        exact ⟨hcheck, List.forall_mem_singleton.2 hlast⟩

end JoinChain

/-! ### Clauses -/

theorem JoinTree.WellFormed.tokens_ne_nil {b : JoinTree} (h : b.WellFormed depth) : b.tokens ≠ [] := by
  cases h with
  | table part => exact part.1
  | join => simp [tokens]

/-- The body of a `FROM` clause: a block, and further blocks with the commas before them. -/
structure FromClause where
  first : JoinTree
  others : List (Token × JoinTree)

namespace FromClause

/-- The tokens of a clause. -/
def tokens (c : FromClause) : List Token :=
  c.first.tokens ++ c.others.flatMap fun p => p.1 :: p.2.tokens

/-- The blocks of a clause. -/
def blocks (c : FromClause) : List JoinTree :=
  c.first :: c.others.map Prod.snd

/-- Whether a block is one between commas of a depth. -/
def IsBlock (depth : Nat) (b : JoinTree) : Prop :=
  b.WellFormed depth ∧ ∀ t ∈ b.tokens, t.isSymbolAt depth .comma = false

/-- Whether the blocks of a clause of a depth are well-formed, and the tokens between them are the commas. -/
structure WellFormed (depth : Nat) (c : FromClause) : Prop where
  first : IsBlock depth c.first
  others : ∀ p ∈ c.others, p.1.isSymbolAt depth .comma = true ∧ IsBlock depth p.2

/-- The edits of blocks that are numbered from `index` on. -/
def editsFrom (wrapped : Bool) (index : Nat) : List JoinTree → List Edit
  | [] => []
  | b :: bs => JoinChain.blockEdits wrapped index b.tokens b.chain ++ editsFrom wrapped (index + 1) bs

/-- Whether there is more than one block. -/
def isWrapped (c : FromClause) : Bool :=
  c.blocks.length > 1

/-- The edits that nest the joins of a clause. -/
def edits (c : FromClause) : List Edit :=
  editsFrom c.isWrapped 0 c.blocks

variable {c : FromClause} {bs : List JoinTree}

theorem tokens_single (b : JoinTree) : (⟨b, []⟩ : FromClause).tokens = b.tokens :=
  List.append_nil _

theorem tokens_cons (b b' : JoinTree) (comma : Token) (others : List (Token × JoinTree)) :
    (⟨b, (comma, b') :: others⟩ : FromClause).tokens
      = b.tokens ++ comma :: (⟨b', others⟩ : FromClause).tokens :=
  rfl

/-- A clause is cut at its commas. -/
theorem WellFormed.map_tokens_pieces (h : c.WellFormed depth) (stop : Nat) :
    (Token.pieces depth stop c.tokens).map Token.Piece.tokens = c.blocks.map JoinTree.tokens := by
  -- Tokens that are no commas stand before the first one.
  have hfront : ∀ {ts us : List Token}, (∀ t ∈ ts, t.isSymbolAt depth .comma = false) →
      (us = [] ∨ ∃ comma vs, us = comma :: vs ∧ comma.isSymbolAt depth .comma = true) →
      (Token.pieces depth stop (ts ++ us)).map Token.Piece.tokens
        = ts :: ((Token.pieces depth stop us).map Token.Piece.tokens).tail := by
    intro ts us hts hus
    induction ts with
    | nil =>
      rcases hus with rfl | ⟨comma, vs, rfl, hcomma⟩
      · rfl
      · rw [List.nil_append, Token.pieces, if_pos hcomma]
        rfl
    | cons t ts ih =>
      obtain ⟨ht, hts⟩ := List.forall_mem_cons.1 hts
      have hrest := ih hts
      rw [List.cons_append, Token.pieces, if_neg (by simp [ht])]
      split
      · next hp => exact absurd hp (Token.pieces_ne_nil _ _ _)
      · next p ps hp =>
        rw [hp] at hrest
        obtain ⟨hp, hps⟩ := List.cons.inj hrest
        rw [List.map_cons, hps, hp]
  obtain ⟨first, others⟩ := c
  obtain ⟨hfirst, hothers⟩ := h
  simp only at hfirst hothers
  induction others generalizing first with
  | nil =>
    have hsingle := hfront hfirst.2 (.inl rfl)
    rw [List.append_nil] at hsingle
    rw [tokens_single, hsingle]
    rfl
  | cons p others ih =>
    obtain ⟨comma, b⟩ := p
    obtain ⟨⟨hcomma, hb⟩, hothers⟩ := List.forall_mem_cons.1 hothers
    have hrest := ih b hb hothers
    rw [tokens_cons, hfront hfirst.2 (.inr ⟨comma, _, rfl, hcomma⟩), Token.pieces, if_pos hcomma, List.map_cons,
      List.tail_cons, hrest]
    rfl

/-- Stretches between commas that are well-formed blocks make a well-formed clause. -/
theorem exists_of_pieces (h : bs.map JoinTree.tokens = (Token.pieces depth stop ts).map Token.Piece.tokens)
    (hbs : ∀ b ∈ bs, b.WellFormed depth) :
    ∃ c : FromClause, c.WellFormed depth ∧ c.tokens = ts ∧ c.blocks = bs := by
  induction bs generalizing ts with
  | nil =>
    rw [List.map_nil, eq_comm, List.map_eq_nil_iff] at h
    exact absurd h (Token.pieces_ne_nil _ _ _)
  | cons b bs ih =>
    obtain ⟨piece, ps, hps⟩ := List.exists_cons_of_ne_nil (Token.pieces_ne_nil depth stop ts)
    obtain ⟨us, rfl, hnot, hus⟩ := Token.pieces_eq_cons hps
    rw [hps, List.map_cons, List.map_cons] at h
    obtain ⟨hpiece, hrest⟩ := List.cons.inj h
    obtain ⟨hb, hbs⟩ := List.forall_mem_cons.1 hbs
    rw [← hpiece] at hnot
    rcases hus with ⟨rfl, rfl⟩ | ⟨comma, us, rfl, hcomma, rfl⟩
    · obtain rfl : bs = [] := by simpa using hrest
      refine ⟨⟨b, []⟩, ⟨⟨hb, hnot⟩, nofun⟩, ?_, rfl⟩
      rw [tokens_single, hpiece, List.append_nil]
    · obtain ⟨c, hc, hus, rfl⟩ := ih hrest hbs
      refine ⟨⟨b, (comma, c.first) :: c.others⟩, ⟨⟨hb, hnot⟩, List.forall_mem_cons.2 ⟨⟨hcomma, hc.first⟩, hc.others⟩⟩,
        ?_, rfl⟩
      rw [tokens_cons, ← hus, ← hpiece]

end FromClause

namespace JoinChain

open FromClause (editsFrom)

variable {blocks : List Token.Piece} {wrapped : Bool} {es : List Edit}

theorem blocksEdits_eq_ok_iff : blocksEdits depth wrapped index blocks = .ok es ↔
    ∃ bs : List JoinTree, bs.map JoinTree.tokens = blocks.map Token.Piece.tokens ∧
      (∀ b ∈ bs, b.WellFormed depth) ∧ editsFrom wrapped index bs = es := by
  induction blocks generalizing index es with
  | nil =>
    rw [blocksEdits]
    constructor
    · intro h
      cases h
      exact ⟨[], rfl, List.forall_mem_nil _, rfl⟩
    · rintro ⟨bs, hbs, -, rfl⟩
      obtain rfl : bs = [] := by simpa using hbs
      rfl
  | cons block blocks ih =>
    rw [blocksEdits]
    constructor
    · intro h
      split at h
      · cases h
      next hne =>
      obtain ⟨chain, hchain, h⟩ := Except.bind_eq_ok h
      obtain ⟨es', hrest, h⟩ := Except.bind_eq_ok h
      cases h
      obtain ⟨b, hb, htokens, rfl⟩ := (ofBlock_eq_ok_iff hne).1 hchain
      obtain ⟨bs, hbs, hwf, rfl⟩ := ih.1 hrest
      refine ⟨b :: bs, ?_, List.forall_mem_cons.2 ⟨hb, hwf⟩, ?_⟩
      · rw [List.map_cons, List.map_cons, htokens, hbs]
      · rw [editsFrom, htokens]
    · rintro ⟨bs, hbs, hwf, rfl⟩
      cases bs with
      | nil => simp at hbs
      | cons b bs =>
        rw [List.map_cons, List.map_cons] at hbs
        obtain ⟨htokens, hbs⟩ := List.cons.inj hbs
        obtain ⟨hb, hwf⟩ := List.forall_mem_cons.1 hwf
        have hne : block.tokens ≠ [] := htokens ▸ hb.tokens_ne_nil
        rw [if_neg hne, (ofBlock_eq_ok_iff hne).2 ⟨b, hb, htokens, rfl⟩, ih.2 ⟨bs, hbs, hwf, rfl⟩, editsFrom, htokens]
        rfl

/-- **Clauses.**  A clause has edits just if it is well-formed. -/
theorem clauseEdits_eq_ok_iff : clauseEdits depth stop ts = .ok es ↔
    ∃ c : FromClause, c.WellFormed depth ∧ c.tokens = ts ∧ c.edits = es := by
  rw [clauseEdits, blocksEdits_eq_ok_iff]
  constructor
  · rintro ⟨bs, hbs, hwf, rfl⟩
    obtain ⟨c, hc, htokens, rfl⟩ := FromClause.exists_of_pieces hbs hwf
    refine ⟨c, hc, htokens, ?_⟩
    have hlength := congrArg List.length hbs
    rw [List.length_map, List.length_map] at hlength
    rw [FromClause.edits, FromClause.isWrapped, hlength]
  · rintro ⟨c, hc, rfl, rfl⟩
    have hpieces := hc.map_tokens_pieces stop
    refine ⟨c.blocks, hpieces.symm, fun b hb => ?_, ?_⟩
    · rcases List.mem_cons.1 hb with rfl | hb
      · exact hc.first.1
      · obtain ⟨p, hp, rfl⟩ := List.mem_map.1 hb
        exact (hc.others p hp).2.1
    · have hlength := congrArg List.length hpieces
      rw [List.length_map, List.length_map] at hlength
      rw [FromClause.edits, FromClause.isWrapped, hlength]

end JoinChain

end JetAdapter
