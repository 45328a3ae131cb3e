import JetAdapter.Proofs.Groups

/-!
# Calls by their groups

What the rules look for are calls: a name before a group in parentheses, not behind a dot.  `Grouping.calls` lists them at
all depths, each with its name and what is inside, and `Grouping.reads_calls` says that the calls of a query are just
these, in this order.  Whether a token is a name that counts is a matter of its cell.
-/

namespace JetAdapter

open Token (Level Reads)

/-- Whether no parenthesis and no comma is a name. -/
structure Cell.IsNaming (P : Cell → Bool) : Prop where
  left : P (sign '(') = false
  right : P (sign ')') = false
  comma : P (sign ',') = false

namespace Grouping

/-- The calls of a text at all depths, in the order of their names; a name behind a dot makes no call. -/
def calls : Bool → Grouping → List (Leaf × Grouping)
  | _, nil => []
  | afterDot, leaf l (group inside rest) =>
    (if afterDot then [] else [(l, inside)]) ++ (calls false inside ++ calls false rest)
  | _, leaf l rest => calls (l.isSymbol .dot) rest
  | _, comma rest => calls false rest
  | _, group inside rest => calls false inside ++ calls false rest

variable {g : Grouping} {ts us : List Token} {t : Token} {d : Nat} {c : Char} {s : Symbol}

theorem calls_leaf_of_ne (h : ∀ inside rest, g ≠ group inside rest) (afterDot : Bool) (l : Leaf) :
    calls afterDot (leaf l g) = calls (l.isSymbol .dot) g := by
  cases g with
  | group inside rest => exact absurd rfl (h inside rest)
  | nil | leaf | comma => rfl

theorem append_nil (g : Grouping) : g.append nil = g :=
  cells_injective (by rw [cells_append, cells, List.append_nil])

/-- What is read of no group starts with no parenthesis. -/
theorem head_of_ne_group (h : ∀ inside rest, g ≠ group inside rest) (hg : Reads d g.cells us) :
    ∀ u ∈ us.head?, u.isSymbol .leftParen = false := by
  intro u hu
  cases g with
  | nil =>
    obtain rfl := Reads.nil_iff.1 hg
    cases hu
  | leaf l rest =>
    obtain ⟨t, ts, rfl, hk, -⟩ := reads_leaf hg
    obtain rfl : t = u := by simpa using hu
    rw [isSymbol_of_kind hk]
    simpa [Leaf.isSymbol, Kind.isSymbol] using l.left
  | comma rest =>
    obtain ⟨t, ts, rfl, ht, -⟩ := reads_comma hg
    obtain rfl : t = u := by simpa using hu
    rw [Token.isSymbol, (Cell.token.inj ht).1]
    rfl
  | group inside rest => exact absurd rfl (h inside rest)

/-- The calls before a leaf, and those from it on. -/
theorem calls_append_leaf (f g : Grouping) (l : Leaf) (afterDot : Bool) :
    ∃ b, calls afterDot (f.append (leaf l g)) = calls afterDot f ++ calls b (leaf l g) := by
  induction f generalizing afterDot with
  | nil => exact ⟨afterDot, rfl⟩
  | leaf l' rest ih =>
    rcases rest.eq_group_or with ⟨inside, rest, rfl⟩ | hne
    · obtain ⟨b, hb⟩ := ih false
      exact ⟨b, (congrArg (_ ++ ·) hb).trans (List.append_assoc ..).symm⟩
    · obtain ⟨b, hb⟩ := ih (l'.isSymbol .dot)
      refine ⟨b, ?_⟩
      have hne' : ∀ inside rest', rest.append (leaf l g) ≠ group inside rest' := by
        intro inside rest' h
        cases rest with
        | group inside rest => exact hne inside rest rfl
        | nil | leaf | comma => cases h
      rw [append, calls_leaf_of_ne hne', calls_leaf_of_ne hne, hb]
  | comma rest ih => exact ih false
  | group inside rest _ ih =>
    obtain ⟨b, hb⟩ := ih false
    exact ⟨b, (congrArg (_ ++ ·) hb).trans (List.append_assoc ..).symm⟩

/-- The calls behind a leaf that is no dot; it may name one itself. -/
theorem calls_leaf_of_not_dot {l : Leaf} (h : l.isSymbol .dot = false) (g : Grouping) (afterDot : Bool) :
    ∃ xs, calls afterDot (leaf l g) = xs ++ calls false g ∧ ∀ x ∈ xs, x.1 = l := by
  rcases g.eq_group_or with ⟨inside, rest, rfl⟩ | hne
  · refine ⟨_, rfl, fun x hx => ?_⟩
    split at hx
    · cases hx
    · rw [List.mem_singleton.1 hx]
  · exact ⟨[], by rw [calls_leaf_of_ne hne, h, List.nil_append], List.forall_mem_nil _⟩

end Grouping

namespace Call

open Grouping (calls reads_leaf reads_comma reads_group)

variable {P : Cell → Bool} {p : Token → Bool} {g : Grouping} {l : Leaf} {ts us vs : List Token} {t opening closing : Token}
  {d : Nat}

/-- A token before no parenthesis makes no call. -/
theorem among_cons (h : ∀ u ∈ us.head?, u.isSymbol .leftParen = false) (afterDot : Bool) :
    among p afterDot (t :: us) = among p (t.isSymbol .dot) us := by
  rw [among, atFront_eq_none h]

/-- A token with no name that counts makes no call. -/
theorem among_cons_of_not (h : p t = false) (afterDot : Bool) :
    among p afterDot (t :: us) = among p (t.isSymbol .dot) us := by
  have hnone : atFront p (t :: us) = none := by
    cases us <;> simp [atFront, h]
  rw [among, hnone]

/-- A comma makes no call. -/
theorem among_comma (hP : Cell.IsNaming P) (ht : t.cell = Cell.sign ',') (afterDot : Bool) :
    among (fun u => P u.cell) afterDot (t :: us) = among (fun u => P u.cell) false us := by
  have hdot : t.isSymbol .dot = false := by
    rw [Token.isSymbol, (Cell.token.inj ht).1]
    rfl
  rw [among_cons_of_not (by rw [ht, hP.comma]), hdot]

/-- The calls of a group in parentheses, and of what stands behind it. -/
theorem among_parens (hP : Cell.IsNaming P) (hus : Level (d + 1) us) (hopening : opening.cell = Cell.sign '(')
    (hclosing : closing.cell = Cell.sign ')') (afterDot : Bool) :
    among (fun u => P u.cell) afterDot (opening :: (us ++ closing :: vs))
      = among (fun u => P u.cell) false us ++ among (fun u => P u.cell) false vs := by
  refine among_group hus (Token.isSymbol_of_cell hopening) (Token.isSymbol_of_cell hclosing) ?_ ?_ afterDot
  · rw [hopening, hP.left]
  · rw [hclosing, hP.right]

/-- A token before a group in parentheses makes a call, if it is a name and stands behind no dot. -/
theorem among_call (hP : Cell.IsNaming P) (hus : Level (d + 1) us) (hopening : opening.cell = Cell.sign '(')
    (hd : opening.depth = d) (hclosing : closing.cell = Cell.sign ')') (hd' : closing.depth = d) (afterDot : Bool) :
    among (fun u => P u.cell) afterDot (t :: opening :: (us ++ closing :: vs))
      = (if P t.cell && !afterDot then [⟨t, opening, us, closing⟩] else []) ++
        (among (fun u => P u.cell) false us ++ among (fun u => P u.cell) false vs) := by
  rw [among, atFront_group hus (Token.isSymbol_of_cell hopening) hd (Token.isSymbol_of_cell hclosing) hd',
    among_parens hP hus hopening hclosing]
  cases hname : P t.cell <;> cases afterDot <;> rfl

/-- Whether a call has this name and this inside. -/
structure IsRead (c : Call) (x : Leaf × Grouping) : Prop where
  name : c.name.cell = x.1.cell
  args : Reads (c.opening.depth + 1) x.2.cells c.args

/-- **The calls of tokens are those of their groups.** -/
theorem forall₂_among (hP : Cell.IsNaming P) (h : Reads d g.cells ts) (afterDot : Bool) :
    List.Forall₂ IsRead (among (fun u => P u.cell) afterDot ts)
      ((calls afterDot g).filter fun x => P x.1.cell) := by
  induction g generalizing ts d afterDot with
  | nil =>
    obtain rfl := Reads.nil_iff.1 h
    exact .nil
  | comma rest ih =>
    obtain ⟨t, us, rfl, ht, -, hus⟩ := reads_comma h
    rw [among_comma hP ht, calls]
    exact ih hus false
  | group inside rest ihInside ihRest =>
    obtain ⟨opening, us, closing, vs, rfl, hopening, -, hus, hclosing, -, hvs⟩ := reads_group h
    rw [among_parens hP hus.level hopening hclosing, calls, List.filter_append]
    exact List.rel_append (ihInside hus false) (ihRest hvs false)
  | leaf l rest ih =>
    obtain ⟨t, us, rfl, hk, hw, -, hus⟩ := reads_leaf h
    have ht : t.cell = l.cell := by rw [Token.cell, hk, hw, Leaf.cell]
    have hdot : t.isSymbol .dot = l.isSymbol .dot := Grouping.isSymbol_of_kind hk .dot
    rcases rest.eq_group_or with ⟨inside, rest, rfl⟩ | hne
    · obtain ⟨opening, ins, closing, vs, rfl, hopening, ho, hins, hclosing, hc, hvs⟩ := reads_group hus
      have hbehind := ih hus false
      rw [among_parens hP hins.level hopening hclosing, calls] at hbehind
      rw [among_call hP hins.level hopening ho hclosing hc, calls, List.filter_append]
      refine List.rel_append ?_ hbehind
      cases afterDot with
      | true =>
        rw [Bool.not_true, Bool.and_false]
        exact .nil
      | false =>
        rw [Bool.not_false, Bool.and_true, if_neg Bool.false_ne_true, ht]
        cases hname : P l.cell with
        | false =>
          rw [List.filter_cons_of_neg (by simp [hname])]
          exact .nil
        | true =>
          rw [List.filter_cons_of_pos (by simp [hname])]
          exact .cons ⟨ht, by rwa [ho]⟩ .nil
    · rw [among_cons (Grouping.head_of_ne_group hne hus), Grouping.calls_leaf_of_ne hne, hdot]
      exact ih hus _

/-- Each call is read from one of the groups. -/
theorem exists_of_mem_among {c : Call} {afterDot : Bool} (hP : Cell.IsNaming P) (h : Reads d g.cells ts)
    (hc : c ∈ among (fun u => P u.cell) afterDot ts) : ∃ x ∈ calls afterDot g, P x.1.cell = true ∧ c.IsRead x := by
  have hmem : ∀ {cs : List Call} {xs : List (Leaf × Grouping)}, List.Forall₂ IsRead cs xs → c ∈ cs →
      ∃ x ∈ xs, c.IsRead x := by
    intro cs xs hall hc
    induction hall with
    | nil => cases hc
    | @cons c' x cs xs hcx _ ih =>
      rcases List.mem_cons.1 hc with rfl | hc
      · exact ⟨x, List.mem_cons_self, hcx⟩
      · obtain ⟨y, hy, hcy⟩ := ih hc
        exact ⟨y, List.mem_cons_of_mem _ hy, hcy⟩
  obtain ⟨x, hx, hcx⟩ := hmem (forall₂_among hP h afterDot) hc
  obtain ⟨hx, hname⟩ := List.mem_filter.1 hx
  exact ⟨x, hx, hname, hcx⟩

/-- Each group with a name that counts before it is read as a call. -/
theorem exists_of_mem_calls {x : Leaf × Grouping} {afterDot : Bool} (hP : Cell.IsNaming P) (h : Reads d g.cells ts)
    (hx : x ∈ calls afterDot g) (hname : P x.1.cell = true) : ∃ c ∈ among (fun u => P u.cell) afterDot ts, c.IsRead x := by
  have hmem : ∀ {cs : List Call} {xs : List (Leaf × Grouping)}, List.Forall₂ IsRead cs xs → x ∈ xs →
      ∃ c ∈ cs, c.IsRead x := by
    intro cs xs hall hx
    induction hall with
    | nil => cases hx
    | @cons c y cs xs hcy _ ih =>
      rcases List.mem_cons.1 hx with rfl | hx
      · exact ⟨c, List.mem_cons_self, hcy⟩
      · obtain ⟨c', hc', hcx⟩ := ih hx
        exact ⟨c', List.mem_cons_of_mem _ hc', hcx⟩
  exact hmem (forall₂_among hP h afterDot) (List.mem_filter.2 ⟨hx, hname⟩)

/-- The calls inside a call are calls of the tokens. -/
theorem among_args_subset {c : Call} {afterDot : Bool} (hP : Cell.IsNaming P) (h : Reads d g.cells ts)
    (hc : c ∈ among (fun u => P u.cell) afterDot ts) :
    ∀ c' ∈ among (fun u => P u.cell) false c.args, c' ∈ among (fun u => P u.cell) afterDot ts := by
  intro c' hc'
  induction g generalizing ts d afterDot with
  | nil =>
    obtain rfl := Reads.nil_iff.1 h
    cases hc
  | comma rest ih =>
    obtain ⟨t, us, rfl, ht, -, hus⟩ := reads_comma h
    rw [among_comma hP ht] at hc ⊢
    exact ih hus hc
  | group inside rest ihInside ihRest =>
    obtain ⟨opening, us, closing, vs, rfl, hopening, -, hus, hclosing, -, hvs⟩ := reads_group h
    rw [among_parens hP hus.level hopening hclosing, List.mem_append] at hc ⊢
    exact hc.imp (ihInside hus) (ihRest hvs)
  | leaf l rest ih =>
    obtain ⟨t, us, rfl, -, -, -, hus⟩ := reads_leaf h
    rcases rest.eq_group_or with ⟨inside, rest, rfl⟩ | hne
    · obtain ⟨opening, ins, closing, vs, rfl, hopening, ho, hins, hclosing, hcl, hvs⟩ := reads_group hus
      have hparens : among (fun u => P u.cell) false (opening :: (ins ++ closing :: vs)) = _ :=
        among_parens hP hins.level hopening hclosing false
      rw [among_call hP hins.level hopening ho hclosing hcl, ← hparens, List.mem_append] at hc ⊢
      rcases hc with hc | hc
      · -- the call is the one in front
        right
        rw [hparens]
        split at hc
        · rw [List.mem_singleton.1 hc] at hc'
          exact List.mem_append_left _ hc'
        · cases hc
      · exact .inr (ih hus hc)
    · rw [among_cons (Grouping.head_of_ne_group hne hus)] at hc ⊢
      exact ih hus hc

end Call

end JetAdapter
