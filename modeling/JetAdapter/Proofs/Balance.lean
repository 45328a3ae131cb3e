import JetAdapter.Proofs.Stretches

/-!
# Matching parentheses

A text is read as a query just if none of its lexemes is a fault and its parentheses match (`Query.ofText_isOk_iff`).
Reading counts the parentheses that are open; matching is told without a count, by the groups that a list of tokens is
made of (`Balanced`).
-/

namespace JetAdapter

/-- Whether the parentheses in a list of tokens match, by the kinds of the tokens: it is a list of groups in parentheses
and of tokens that are no parentheses. -/
inductive Balanced : List Kind → Prop
  | nil : Balanced []
  | plain {k : Kind} {ks : List Kind} (left : k ≠ .symbol .leftParen) (right : k ≠ .symbol .rightParen)
      (rest : Balanced ks) : Balanced (k :: ks)
  | group {inner rest : List Kind} (inside : Balanced inner) (behind : Balanced rest) :
      Balanced (.symbol .leftParen :: (inner ++ .symbol .rightParen :: rest))

/-- Whether the parentheses match behind so many open ones: each of them is closed behind a balanced list. -/
def BalancedIn : Nat → List Kind → Prop
  | 0, ks => Balanced ks
  | d + 1, ks => ∃ inner rest, ks = inner ++ .symbol .rightParen :: rest ∧ Balanced inner ∧ BalancedIn d rest

variable {d : Nat} {k : Kind} {ks : List Kind}

theorem Balanced.plain_iff (left : k ≠ .symbol .leftParen) (right : k ≠ .symbol .rightParen) :
    Balanced (k :: ks) ↔ Balanced ks := by
  refine ⟨fun h => ?_, .plain left right⟩
  cases h with
  | plain _ _ rest => exact rest
  | group => exact absurd rfl left

theorem Balanced.left_iff : Balanced (.symbol .leftParen :: ks) ↔ BalancedIn 1 ks := by
  constructor
  · intro h
    cases h with
    | plain left => exact absurd rfl left
    | @group inner rest inside behind => exact ⟨inner, rest, rfl, inside, behind⟩
  · rintro ⟨inner, rest, rfl, inside, behind⟩
    exact .group inside behind

theorem Balanced.not_right : ¬ Balanced (.symbol .rightParen :: ks) := by
  intro h
  cases h with
  | plain _ right => exact right rfl

namespace BalancedIn

theorem nil_iff : BalancedIn d [] ↔ d = 0 := by
  cases d with
  | zero => simp [BalancedIn, Balanced.nil]
  | succ d => simp [BalancedIn]

theorem plain_iff (left : k ≠ .symbol .leftParen) (right : k ≠ .symbol .rightParen) :
    BalancedIn d (k :: ks) ↔ BalancedIn d ks := by
  cases d with
  | zero => exact Balanced.plain_iff left right
  | succ d =>
    constructor
    · rintro ⟨inner, rest, heq, inside, behind⟩
      cases inner with
      | nil => exact absurd (List.cons.inj heq).1 right
      | cons i inner =>
        obtain ⟨rfl, rfl⟩ := List.cons.inj heq
        exact ⟨inner, rest, rfl, (Balanced.plain_iff left right).1 inside, behind⟩
    · rintro ⟨inner, rest, rfl, inside, behind⟩
      exact ⟨k :: inner, rest, rfl, .plain left right inside, behind⟩

theorem left_iff : BalancedIn d (.symbol .leftParen :: ks) ↔ BalancedIn (d + 1) ks := by
  cases d with
  | zero => exact Balanced.left_iff
  | succ d =>
    constructor
    · rintro ⟨inner, rest, heq, inside, behind⟩
      cases inner with
      | nil => cases (List.cons.inj heq).1
      | cons i inner =>
        obtain ⟨rfl, rfl⟩ := List.cons.inj heq
        obtain ⟨inner', rest', rfl, inside', behind'⟩ := Balanced.left_iff.1 inside
        exact ⟨inner', rest' ++ .symbol .rightParen :: rest, by simp, inside', rest', rest, rfl, behind', behind⟩
    · rintro ⟨inner, _, rfl, inside, rest', rest, rfl, behind', behind⟩
      refine ⟨.symbol .leftParen :: (inner ++ .symbol .rightParen :: rest'), rest, by simp, .group inside behind',
        behind⟩

theorem right_iff : BalancedIn (d + 1) (.symbol .rightParen :: ks) ↔ BalancedIn d ks := by
  constructor
  · rintro ⟨inner, rest, heq, inside, behind⟩
    cases inner with
    | nil =>
      obtain ⟨-, rfl⟩ := List.cons.inj heq
      exact behind
    | cons i inner =>
      obtain ⟨rfl, rfl⟩ := List.cons.inj heq
      exact absurd inside Balanced.not_right
  · intro h
    exact ⟨[], ks, rfl, .nil, h⟩

end BalancedIn

namespace Query

/-- Depths can be given to lexemes just if none is a fault and the parentheses match. -/
theorem nest_isOk_iff {ls : List Lexeme} (h : Lexeme.Lexed ls) (d o : Nat) :
    (∃ ts, nest d (Lexeme.placedFrom o ls) = .ok ts) ↔
      (∀ l ∈ ls, l.kind.isFault = false) ∧ BalancedIn d (ls.map Lexeme.kind) := by
  induction h generalizing d o with
  | @last l ends =>
    have hbalanced : BalancedIn d ([l].map Lexeme.kind) ↔ d = 0 := by
      rw [List.map_singleton, ends.1, @BalancedIn.plain_iff d .eof [] (by decide) (by decide), BalancedIn.nil_iff]
    rw [Lexeme.placedFrom, Lexeme.placedFrom, nest.eq_def, hbalanced, List.forall_mem_singleton]
    simp only [ends.1]
    constructor
    · rintro ⟨ts, hts⟩
      split at hts
      · next hd => exact ⟨rfl, hd⟩
      · cases hts
    · rintro ⟨-, rfl⟩
      exact ⟨[], rfl⟩
  | @cons l ls fits rest ih =>
    rw [Lexeme.placedFrom, nest.eq_def, List.forall_mem_cons, List.map_cons]
    have hmap : ∀ {α β ε : Type} (f : α → β) (x : Except ε α), (∃ b, x.map f = .ok b) ↔ ∃ a, x = .ok a := by
      intro α β ε f x
      cases x with
      | error e => simp [Except.map]
      | ok a => exact ⟨fun _ => ⟨a, rfl⟩, fun _ => ⟨f a, rfl⟩⟩
    simp only
    split
    · next fault hk =>
      rw [hk]
      simp [Kind.isFault]
    · next hk => exact absurd hk fits.kind_ne_eof
    · next hk =>
      rw [hmap, ih, hk, BalancedIn.left_iff]
      exact ⟨fun h => ⟨⟨rfl, h.1⟩, h.2⟩, fun h => ⟨h.1.2, h.2⟩⟩
    · next hk =>
      rw [hk]
      cases d with
      | zero => exact ⟨fun h => by simp at h, fun h => absurd h.2 Balanced.not_right⟩
      | succ d =>
        simp only
        rw [hmap, ih, BalancedIn.right_iff]
        exact ⟨fun h => ⟨⟨rfl, h.1⟩, h.2⟩, fun h => ⟨h.1.2, h.2⟩⟩
    · next hfault _ hleft hright =>
      have hplain : l.kind.isFault = false := by
        cases hk : l.kind with
        | fault f => exact absurd hk (hfault f)
        | _ => rfl
      rw [hmap, ih, BalancedIn.plain_iff hleft hright, hplain]
      exact ⟨fun h => ⟨⟨rfl, h.1⟩, h.2⟩, fun h => ⟨h.1.2, h.2⟩⟩

/-- **Reading.**  A text is read as a query just if none of its lexemes is a fault and its parentheses match. -/
theorem ofText_isOk_iff (t : SqlText) :
    (∃ q, ofText t = .ok q) ↔ (∀ l ∈ lex t, l.kind.isFault = false) ∧ Balanced ((lex t).map Lexeme.kind) := by
  refine Iff.trans ⟨?_, ?_⟩ (nest_isOk_iff (Lexeme.lexed_lex t) 0 0)
  · rintro ⟨q, hq⟩
    exact ⟨q.tokens, (ofText_eq_ok_iff.1 hq).2⟩
  · rintro ⟨ts, hts⟩
    exact ⟨⟨t, ts⟩, ofText_eq_ok_iff.2 ⟨rfl, hts⟩⟩

end Query

end JetAdapter
