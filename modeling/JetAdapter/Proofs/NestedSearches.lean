import JetAdapter.Proofs.Groups

/-!
# Calls of `LOCATE` inside each other

`Locate.located` translates all calls of a text at once: `LOCATE(n, h)` is `InStr(h', n')`, and `LOCATE(n, h, s)` is
`InStr(s', h', n')`, where the arguments are translated likewise.  The rule works otherwise, on the last call of a text as
it stands, and then on the last call of what comes out.  The last call has no other one in its arguments, so each change
leaves the translation of the whole as it is (`Rewrites.located_eq`), and a call whose arguments are no good stays
until it is the last one (`Rewrites.isMalformed_eq`).  In the end no call is left and the text is its own translation.
-/

namespace JetAdapter.Locate

open Token (Reads)
open Grouping (pieces consPiece)

/-! ### The translation -/

/-- Whether the token is spelled like the function that is replaced. -/
def isName (l : Leaf) : Bool :=
  Text.sameWord l.text "locate".toList

/-- The name of the function in Jet. -/
def instr : Leaf :=
  .word "InStr".toList

/-- The arguments in Jet for these ones: two or three, none of them empty. -/
def rearranged? : List Grouping → Option Grouping
  | [needle, haystack] =>
    if needle = .nil ∨ haystack = .nil then none else some (haystack.append (.comma needle))
  | [needle, haystack, start] =>
    if needle = .nil ∨ haystack = .nil ∨ start = .nil then none
    else some (start.append (.comma (haystack.append (.comma needle))))
  | _ => none

/-- A text with every call translated whose arguments are good; a name behind a dot makes no call. -/
def located : Bool → Grouping → Grouping
  | _, .nil => .nil
  | afterDot, .leaf l (.group inside rest) =>
    match if isName l && !afterDot then rearranged? (located false inside).pieces else none with
    | some arguments => .leaf instr (.group arguments (located false rest))
    | none => .leaf l (.group (located false inside) (located false rest))
  | _, .leaf l rest => .leaf l (located (l.isSymbol .dot) rest)
  | _, .comma rest => .comma (located false rest)
  | _, .group inside rest => .group (located false inside) (located false rest)

/-- What is inside the parentheses of all calls, in the order of their names. -/
def calls : Bool → Grouping → List Grouping
  | _, .nil => []
  | afterDot, .leaf l (.group inside rest) =>
    (if isName l && !afterDot then [inside] else []) ++ (calls false inside ++ calls false rest)
  | _, .leaf l rest => calls (l.isSymbol .dot) rest
  | _, .comma rest => calls false rest
  | _, .group inside rest => calls false inside ++ calls false rest

/-- Whether the arguments of some call are not two or three, or one of them is empty. -/
def isMalformed (afterDot : Bool) (g : Grouping) : Bool :=
  (calls afterDot g).any fun inside => (rearranged? inside.pieces).isNone

variable {afterDot : Bool} {f g g' inside rest : Grouping} {l : Leaf} {ts : List Token} {d : Nat}

theorem isName_instr : isName instr = false := by decide

theorem located_leaf_of_not (h : isName l = false) (afterDot : Bool) (g : Grouping) :
    located afterDot (.leaf l g) = .leaf l (located (l.isSymbol .dot) g) := by
  cases g with
  | group inside rest => simp [located, h]
  | nil | leaf | comma => rfl

theorem calls_leaf_of_not (h : isName l = false) (afterDot : Bool) (g : Grouping) :
    calls afterDot (.leaf l g) = calls (l.isSymbol .dot) g := by
  cases g with
  | group inside rest => simp [calls, h]
  | nil | leaf | comma => rfl

theorem located_leaf_of_ne (h : ∀ inside rest, g ≠ .group inside rest) (afterDot : Bool) (l : Leaf) :
    located afterDot (.leaf l g) = .leaf l (located (l.isSymbol .dot) g) := by
  cases g with
  | group inside rest => exact absurd rfl (h inside rest)
  | nil | leaf | comma => rfl

theorem calls_leaf_of_ne (h : ∀ inside rest, g ≠ .group inside rest) (afterDot : Bool) (l : Leaf) :
    calls afterDot (.leaf l g) = calls (l.isSymbol .dot) g := by
  cases g with
  | group inside rest => exact absurd rfl (h inside rest)
  | nil | leaf | comma => rfl

/-- Without calls there is nothing to translate. -/
theorem located_of_calls_eq_nil (h : calls afterDot g = []) : located afterDot g = g := by
  fun_induction located afterDot g with
  | case1 => rfl
  | case2 afterDot l inside rest arguments hfound ihInside ihRest =>
    split at hfound
    · next hname => simp [calls, hname] at h
    · cases hfound
  | case3 afterDot l inside rest hnone ihInside ihRest =>
    rw [calls, List.append_eq_nil_iff, List.append_eq_nil_iff] at h
    rw [ihInside h.2.1, ihRest h.2.2]
  | case4 afterDot l rest hnot ih =>
    rw [calls] at h
    · rw [ih h]
    · exact hnot
  | case5 afterDot rest ih => rw [ih h]
  | case6 afterDot inside rest ihInside ihRest =>
    rw [calls, List.append_eq_nil_iff] at h
    rw [ihInside h.1, ihRest h.2]

/-! ### Arguments -/

/-- What does not start with a group has no group at the start of its first piece. -/
theorem not_group_of_pieces (hg : ∀ inside rest, g ≠ .group inside rest) {p : Grouping} {ps : List Grouping}
    (hp : g.pieces = p :: ps) : ∀ inside rest, p ≠ .group inside rest := by
  rintro inside rest rfl
  cases g with
  | nil => cases hp
  | comma rest' => cases hp
  | leaf l rest' =>
    obtain ⟨q, qs, hq⟩ := List.exists_cons_of_ne_nil rest'.pieces_ne_nil
    rw [pieces, hq] at hp
    cases hp
  | group inside' rest' => exact hg inside' rest' rfl

/-- The pieces of a translation are the translated pieces. -/
theorem pieces_located (afterDot : Bool) (g : Grouping) :
    ∃ p ps, g.pieces = p :: ps ∧ (located afterDot g).pieces = located afterDot p :: ps.map (located false) := by
  fun_induction located afterDot g with
  | case1 => exact ⟨.nil, [], rfl, rfl⟩
  | case2 afterDot l inside rest arguments hfound ihInside ihRest =>
    obtain ⟨p, ps, hp, hlocated⟩ := ihRest
    refine ⟨.leaf l (.group inside p), ps, by simp [pieces, consPiece, hp], ?_⟩
    have hcall : located afterDot (.leaf l (.group inside p)) = .leaf instr (.group arguments (located false p)) := by
      rw [located, hfound]
    simp [pieces, consPiece, hlocated, hcall]
  | case3 afterDot l inside rest hnone ihInside ihRest =>
    obtain ⟨p, ps, hp, hlocated⟩ := ihRest
    refine ⟨.leaf l (.group inside p), ps, by simp [pieces, consPiece, hp], ?_⟩
    have hcall : located afterDot (.leaf l (.group inside p))
        = .leaf l (.group (located false inside) (located false p)) := by
      rw [located, hnone]
    simp [pieces, consPiece, hlocated, hcall]
  | case4 afterDot l rest hnot ih =>
    obtain ⟨p, ps, hp, hlocated⟩ := ih
    refine ⟨.leaf l p, ps, by simp [pieces, consPiece, hp], ?_⟩
    rw [located_leaf_of_ne (not_group_of_pieces hnot hp), pieces, hlocated]
    rfl
  | case5 afterDot rest ih =>
    obtain ⟨p, ps, hp, hlocated⟩ := ih
    exact ⟨.nil, p :: ps, by rw [pieces, hp], by rw [pieces, hlocated]; rfl⟩
  | case6 afterDot inside rest ihInside ihRest =>
    obtain ⟨p, ps, hp, hlocated⟩ := ihRest
    exact ⟨.group inside p, ps, by simp [pieces, consPiece, hp], by simp [pieces, consPiece, hlocated, located]⟩

theorem located_eq_nil_iff : located afterDot g = .nil ↔ g = .nil := by
  fun_cases located afterDot g <;> simp

/-- Whether arguments are good shows in their translations. -/
theorem isNone_rearranged?_located (g : Grouping) :
    (rearranged? (located false g).pieces).isNone = (rearranged? g.pieces).isNone := by
  obtain ⟨p, ps, hp, hlocated⟩ := pieces_located false g
  rw [hp, hlocated]
  match ps with
  | [] => rfl
  | [q] =>
    simp only [List.map_cons, List.map_nil, rearranged?, located_eq_nil_iff]
    split <;> rfl
  | [q, r] =>
    simp only [List.map_cons, List.map_nil, rearranged?, located_eq_nil_iff]
    split <;> rfl
  | q :: r :: s :: qs => rfl

/-- Behind a comma everything starts anew. -/
theorem calls_append_comma (afterDot : Bool) (f g : Grouping) :
    calls afterDot (f.append (.comma g)) = calls afterDot f ++ calls false g := by
  fun_induction calls afterDot f with
  | case1 => rfl
  | case2 afterDot l inside rest ihInside ihRest => simp [Grouping.append, calls, ihRest]
  | case3 afterDot l rest hnot ih =>
    have hne : ∀ i r, rest.append (.comma g) ≠ .group i r := by
      rintro i r hgroup
      cases rest with
      | group inside' rest' => exact hnot inside' rest' rfl
      | nil | leaf | comma => cases hgroup
    rw [Grouping.append, calls_leaf_of_ne hne, ih]
  | case4 afterDot rest ih => exact ih
  | case5 afterDot inside rest ihInside ihRest => simp [Grouping.append, calls, ihRest]

/-- Arguments without calls have none when they are rearranged. -/
theorem calls_eq_nil_of_rearranged? {arguments : Grouping} (h : calls false inside = [])
    (hfound : rearranged? inside.pieces = some arguments) : calls false arguments = [] := by
  obtain ⟨needle, ps, hps⟩ := List.exists_cons_of_ne_nil inside.pieces_ne_nil
  rw [hps] at hfound
  rcases Grouping.pieces_eq_cons hps with ⟨rfl, -⟩ | ⟨behind, rfl, hbehind⟩
  · cases hfound
  obtain ⟨haystack, qs, hqs⟩ := List.exists_cons_of_ne_nil behind.pieces_ne_nil
  rw [← hbehind, hqs] at hfound
  rw [calls_append_comma, List.append_eq_nil_iff] at h
  rcases Grouping.pieces_eq_cons hqs with ⟨rfl, rfl⟩ | ⟨behind', rfl, hbehind'⟩
  · rw [rearranged?] at hfound
    split at hfound
    · cases hfound
    · cases hfound
      rw [calls_append_comma, h.1, h.2, List.append_nil]
  obtain ⟨start, rs, hrs⟩ := List.exists_cons_of_ne_nil behind'.pieces_ne_nil
  rw [← hbehind', hrs] at hfound
  rw [calls_append_comma, List.append_eq_nil_iff] at h
  rcases Grouping.pieces_eq_cons hrs with ⟨rfl, rfl⟩ | ⟨behind'', rfl, hbehind''⟩
  · rw [rearranged?] at hfound
    split at hfound
    · cases hfound
    · cases hfound
      rw [calls_append_comma, calls_append_comma, h.1, h.2.1, h.2.2]
      rfl
  · obtain ⟨more, ms, hms⟩ := List.exists_cons_of_ne_nil behind''.pieces_ne_nil
    rw [← hbehind'', hms] at hfound
    cases hfound

/-! ### One call at a time -/

/-- The rewriting of one call without other ones in its arguments, wherever it stands. -/
inductive Rewrites : Bool → Grouping → Grouping → Prop
  | call {l : Leaf} {inside rest arguments : Grouping} (name : isName l = true)
      (found : rearranged? inside.pieces = some arguments) (innermost : calls false inside = []) :
      Rewrites false (.leaf l (.group inside rest)) (.leaf instr (.group arguments rest))
  | leaf {afterDot : Bool} {l : Leaf} {rest rest' : Grouping} (behind : Rewrites (l.isSymbol .dot) rest rest') :
      Rewrites afterDot (.leaf l rest) (.leaf l rest')
  | comma {afterDot : Bool} {rest rest' : Grouping} (behind : Rewrites false rest rest') :
      Rewrites afterDot (.comma rest) (.comma rest')
  | inside {afterDot : Bool} {inside inside' rest : Grouping} (within : Rewrites false inside inside') :
      Rewrites afterDot (.group inside rest) (.group inside' rest)
  | behind {afterDot : Bool} {inside rest rest' : Grouping} (behind : Rewrites false rest rest') :
      Rewrites afterDot (.group inside rest) (.group inside rest')

namespace Rewrites

/-- A group stays one. -/
theorem exists_group (h : Rewrites afterDot (.group inside rest) g') : ∃ inside' rest', g' = .group inside' rest' := by
  cases h with
  | inside => exact ⟨_, _, rfl⟩
  | behind => exact ⟨_, _, rfl⟩

/-- What is no group stays none. -/
theorem not_group (h : Rewrites afterDot g g') (hg : ∀ inside rest, g ≠ .group inside rest) :
    ∀ inside rest, g' ≠ .group inside rest := by
  cases h with
  | call => exact nofun
  | leaf => exact nofun
  | comma => exact nofun
  | inside => exact absurd rfl (hg _ _)
  | behind => exact absurd rfl (hg _ _)

/-- The rewriting of a call leaves the translation of the whole. -/
theorem located_eq (h : Rewrites afterDot g g') : located afterDot g' = located afterDot g := by
  induction h with
  | @call l inside rest arguments name found innermost =>
    rw [located_leaf_of_not isName_instr, located, located, located_of_calls_eq_nil innermost, if_pos (by simp [name]),
      found, located_of_calls_eq_nil (calls_eq_nil_of_rearranged? innermost found)]
  | @leaf afterDot l rest rest' behind ih =>
    rcases rest.eq_group_or with ⟨inside, rest, rfl⟩ | hne
    · obtain ⟨inside', rest', rfl⟩ := behind.exists_group
      rw [located, located] at ih
      obtain ⟨hinside, hrest⟩ := Grouping.group.inj ih
      rw [located, located, hinside, hrest]
    · rw [located_leaf_of_ne (behind.not_group hne), ih, located_leaf_of_ne hne]
  | comma _ ih => rw [located, located, ih]
  | inside _ ih => rw [located, located, ih]
  | behind _ ih => rw [located, located, ih]

/-- The rewriting of a call whose arguments are good leaves those whose arguments are not. -/
theorem isMalformed_eq (h : Rewrites afterDot g g') : isMalformed afterDot g' = isMalformed afterDot g := by
  induction h with
  | @call l inside rest arguments name found innermost =>
    rw [isMalformed, isMalformed, calls_leaf_of_not isName_instr, calls, calls, innermost,
      calls_eq_nil_of_rearranged? innermost found, if_pos (by simp [name])]
    simp [found]
  | @leaf afterDot l rest rest' behind ih =>
    rcases rest.eq_group_or with ⟨inside, rest, rfl⟩ | hne
    · obtain ⟨inside', rest', rfl⟩ := behind.exists_group
      have hsame : (rearranged? inside'.pieces).isNone = (rearranged? inside.pieces).isNone := by
        have hlocated := behind.located_eq
        rw [located, located] at hlocated
        rw [← isNone_rearranged?_located, (Grouping.group.inj hlocated).1, isNone_rearranged?_located]
      simp only [isMalformed, calls, List.any_append] at ih ⊢
      rw [ih]
      congr 1
      split
      · simp [hsame]
      · rfl
    · rw [isMalformed, calls_leaf_of_ne (behind.not_group hne), ← isMalformed, ih, isMalformed, isMalformed,
        calls_leaf_of_ne hne]
  | comma _ ih => exact ih
  | inside _ ih =>
    simp only [isMalformed, calls, List.any_append] at ih ⊢
    rw [ih]
  | behind _ ih =>
    simp only [isMalformed, calls, List.any_append] at ih ⊢
    rw [ih]

end Rewrites

/-! ### The last call -/

open Call (among)

/-- The name of a call in a query. -/
abbrev isCalled (t : Token) : Bool :=
  t.spells "locate".toList

theorem isCalled_of_text {t : Token} (h : t.text = l.text) : isCalled t = isName l := by
  rw [isCalled, Token.spells, h, isName]

/-- Parentheses and commas are no names. -/
theorem isCalled_of_cell {t : Token} {c : Char} (h : t.cell = Cell.sign c) (hc : c = '(' ∨ c = ')' ∨ c = ',') :
    isCalled t = false := by
  have ht : t.text = [c] := (Cell.token.inj h).2
  rw [isCalled, Token.spells, ht]
  rcases hc with rfl | rfl | rfl <;> decide

/-- The last call of a stretch: none at all, or one that can be rewritten where it stands if its arguments are good. -/
theorem last_call (h : Reads d g.cells ts) (afterDot : Bool) :
    (among isCalled afterDot ts = [] ∧ calls afterDot g = []) ∨
      ∃ c as bs inside, (among isCalled afterDot ts).getLast? = some c ∧ ts = as ++ (c.tokens ++ bs) ∧
        Reads (c.opening.depth + 1) inside.cells c.args ∧ inside ∈ calls afterDot g ∧
        ∀ arguments, rearranged? inside.pieces = some arguments → ∃ g', Rewrites afterDot g g' ∧
          g'.cells = as.map Token.cell ++ ((Grouping.leaf instr (.group arguments .nil)).cells ++ bs.map Token.cell) := by
  -- Of two stretches the last call is that of the second one, if it has calls at all.
  induction g generalizing ts d afterDot with
  | nil =>
    obtain rfl := Reads.nil_iff.1 h
    exact .inl ⟨rfl, rfl⟩
  | comma rest ih =>
    obtain ⟨t, us, rfl, ht, -, hus⟩ := Grouping.reads_comma h
    have hname := isCalled_of_cell ht (.inr (.inr rfl))
    have hdot : t.isSymbol .dot = false := by
      rw [Token.isSymbol, (Cell.token.inj ht).1]
      rfl
    have hnone : Call.atFront isCalled (t :: us) = none := by
      cases us <;> simp [Call.atFront, hname]
    have hall : among isCalled afterDot (t :: us) = among isCalled false us := by rw [among, hnone, hdot]
    rw [hall]
    rcases ih hus false with hnil | ⟨c, as, bs, inside, hc, rfl, hargs, hmem, hrewrite⟩
    · exact .inl hnil
    · refine .inr ⟨c, t :: as, bs, inside, hc, rfl, hargs, hmem, fun arguments hfound => ?_⟩
      obtain ⟨g', hg', hcells⟩ := hrewrite arguments hfound
      exact ⟨.comma g', .comma hg', by simp [Grouping.cells, hcells, ht]⟩
  | leaf l rest ih =>
    obtain ⟨t, us, rfl, hk, hw, hd, hus⟩ := Grouping.reads_leaf h
    have hdot : t.isSymbol .dot = l.isSymbol .dot := Grouping.isSymbol_of_kind hk .dot
    have ht : t.cell = l.cell := by rw [Token.cell, hk, hw, Leaf.cell]
    -- The calls behind the first token, and what they come to with it in front.
    have hbehind : ∀ {front : List Call} {more : List Grouping},
        among isCalled afterDot (t :: us) = front ++ among isCalled (l.isSymbol .dot) us →
        calls afterDot (.leaf l rest) = more ++ calls (l.isSymbol .dot) rest →
        (among isCalled (l.isSymbol .dot) us = [] ∧ calls (l.isSymbol .dot) rest = []) ∨
          ∃ c as bs inside, (among isCalled afterDot (t :: us)).getLast? = some c ∧ t :: us = as ++ (c.tokens ++ bs) ∧
            Reads (c.opening.depth + 1) inside.cells c.args ∧ inside ∈ calls afterDot (.leaf l rest) ∧
            ∀ arguments, rearranged? inside.pieces = some arguments → ∃ g', Rewrites afterDot (.leaf l rest) g' ∧
              g'.cells = as.map Token.cell
                ++ ((Grouping.leaf instr (.group arguments .nil)).cells ++ bs.map Token.cell) := by
      intro front more hfront hmore
      rcases ih hus (l.isSymbol .dot) with hnil | ⟨c, as, bs, inside, hc, rfl, hargs, hmem, hrewrite⟩
      · exact .inl hnil
      · refine .inr ⟨c, t :: as, bs, inside, ?_, rfl, hargs, ?_, fun arguments hfound => ?_⟩
        · rw [hfront, List.getLast?_append, hc]
          rfl
        · rw [hmore]
          exact List.mem_append_right _ hmem
        · obtain ⟨g', hg', hcells⟩ := hrewrite arguments hfound
          exact ⟨.leaf l g', .leaf hg', by simp [Grouping.cells, hcells, ht]⟩
    rcases rest.eq_group_or with ⟨inside, rest, rfl⟩ | hne
    · obtain ⟨opening, ins, closing, vs, rfl, hopening, ho, hins, hclosing, hc, hvs⟩ := Grouping.reads_group hus
      have hleft : opening.isSymbol .leftParen = true := Token.isSymbol_of_cell hopening
      have hright : closing.isSymbol .rightParen = true := Token.isSymbol_of_cell hclosing
      have hfront : Call.atFront isCalled (t :: opening :: (ins ++ closing :: vs)) = _ :=
        Call.atFront_group hins.level hleft ho hright hc
      rw [isCalled_of_text hw] at hfront
      by_cases hname : isName l = true ∧ afterDot = false
      · obtain ⟨hname, rfl⟩ := hname
        have hamong : among isCalled false (t :: opening :: (ins ++ closing :: vs)) = [⟨t, opening, ins, closing⟩]
            ++ among isCalled (l.isSymbol .dot) (opening :: (ins ++ closing :: vs)) := by
          rw [among, hfront, if_pos hname, hdot]
          rfl
        have hcalls : calls false (.leaf l (.group inside rest))
            = [inside] ++ calls (l.isSymbol .dot) (.group inside rest) := by
          rw [calls, calls, if_pos (by simp [hname])]
        rcases hbehind hamong hcalls with ⟨hnone, hnil⟩ | hlast
        · rw [calls, List.append_eq_nil_iff] at hnil
          refine .inr ⟨⟨t, opening, ins, closing⟩, [], vs, inside, ?_, by simp [Call.tokens], by rwa [ho], ?_,
            fun arguments hfound => ⟨_, .call hname hfound hnil.1, ?_⟩⟩
          · rw [hamong, hnone]
            rfl
          · rw [hcalls]
            exact List.mem_cons_self
          · simp [Grouping.cells, hvs.cells]
        · exact .inr hlast
      · have hamong : among isCalled afterDot (t :: opening :: (ins ++ closing :: vs)) = []
            ++ among isCalled (l.isSymbol .dot) (opening :: (ins ++ closing :: vs)) := by
          rw [among, hfront, hdot]
          cases hisName : isName l with
          | false => rfl
          | true =>
            have hafter : afterDot = true := by
              cases afterDot with
              | true => rfl
              | false => exact absurd ⟨hisName, rfl⟩ hname
            rw [hafter]
            rfl
        have hcalls : calls afterDot (.leaf l (.group inside rest))
            = [] ++ calls (l.isSymbol .dot) (.group inside rest) := by
          rw [calls, calls, if_neg (by simpa using hname)]
        rcases hbehind hamong hcalls with ⟨hnone, hnil⟩ | hlast
        · exact .inl ⟨by rw [hamong, hnone]; rfl, by rw [hcalls, hnil]; rfl⟩
        · exact .inr hlast
    · have hhead : ∀ u ∈ us.head?, u.isSymbol .leftParen = false := by
        intro u hu
        cases rest with
        | nil =>
          obtain rfl := Reads.nil_iff.1 hus
          cases hu
        | leaf l' rest' =>
          obtain ⟨t', us', rfl, hk', -⟩ := Grouping.reads_leaf hus
          obtain rfl : t' = u := by simpa using hu
          rw [Token.isSymbol, hk']
          simpa [Kind.isSymbol] using l'.left
        | comma rest' =>
          obtain ⟨t', us', rfl, ht', -⟩ := Grouping.reads_comma hus
          obtain rfl : t' = u := by simpa using hu
          rw [Token.isSymbol, (Cell.token.inj ht').1]
          rfl
        | group inside rest' => exact absurd rfl (hne inside rest')
      have hamong : among isCalled afterDot (t :: us) = [] ++ among isCalled (l.isSymbol .dot) us := by
        rw [among, Call.atFront_eq_none hhead, hdot]
        rfl
      have hcalls : calls afterDot (.leaf l rest) = [] ++ calls (l.isSymbol .dot) rest := calls_leaf_of_ne hne _ _
      rcases hbehind hamong hcalls with ⟨hnone, hnil⟩ | hlast
      · exact .inl ⟨by rw [hamong, hnone]; rfl, by rw [hcalls, hnil]; rfl⟩
      · exact .inr hlast
  | group inside rest ihInside ihRest =>
    obtain ⟨opening, ins, closing, vs, rfl, hopening, ho, hins, hclosing, hc, hvs⟩ := Grouping.reads_group h
    have hleft : opening.isSymbol .leftParen = true := Token.isSymbol_of_cell hopening
    have hright : closing.isSymbol .rightParen = true := Token.isSymbol_of_cell hclosing
    have hamong : among isCalled afterDot (opening :: (ins ++ closing :: vs)) = _ := Call.among_group hins.level hleft hright
      (isCalled_of_cell hopening (.inl rfl)) (isCalled_of_cell hclosing (.inr (.inl rfl))) afterDot
    rw [hamong, calls]
    rcases ihRest hvs false with ⟨hnone, hnil⟩ | ⟨c, as, bs, inner, hlast, rfl, hargs, hmem, hrewrite⟩
    · rw [hnone, hnil, List.append_nil, List.append_nil]
      rcases ihInside hins false with hempty | ⟨c, as, bs, inner, hlast, rfl, hargs, hmem, hrewrite⟩
      · exact .inl hempty
      · refine .inr ⟨c, opening :: as, bs ++ closing :: vs, inner, hlast, by simp, hargs, hmem,
          fun arguments hfound => ?_⟩
        obtain ⟨g', hg', hcells⟩ := hrewrite arguments hfound
        exact ⟨.group g' rest, .inside hg', by simp [Grouping.cells, hcells, hopening, hclosing, hvs.cells]⟩
    · refine .inr ⟨c, opening :: (ins ++ closing :: as), bs, inner, ?_, by simp, hargs, List.mem_append_right _ hmem,
        fun arguments hfound => ?_⟩
      · rw [List.getLast?_append, hlast]
        rfl
      · obtain ⟨g', hg', hcells⟩ := hrewrite arguments hfound
        exact ⟨.group inside g', .behind hg', by simp [Grouping.cells, hcells, hopening, hclosing, hins.cells]⟩

/-! ### One round -/

/-- The arguments of a call are rearranged as the pieces of what is inside its parentheses. -/
theorem replacement?_eq {items : List (List Token)} {ps : List Grouping}
    (h : List.Forall₂ (fun item p => Reads d (Grouping.cells p) item) items ps) :
    (replacement? items = none ∧ rearranged? ps = none) ∨ ∃ text arguments, replacement? items = some text ∧
      rearranged? ps = some arguments ∧
      (callCells items).filter Cell.isToken = (Grouping.leaf instr (.group arguments .nil)).cells := by
  have hnil : ∀ {item : List Token} {p : Grouping}, Reads d p.cells item → (item = [] ↔ p = .nil) := by
    intro item p hp
    rw [← Grouping.cells_eq_nil_iff, ← hp.cells, List.map_eq_nil_iff]
  match items, ps, h with
  | [], _, .nil => exact .inl ⟨rfl, rfl⟩
  | [_], _, .cons _ .nil => exact .inl ⟨rfl, rfl⟩
  | [needle, haystack], [p, q], .cons hp (.cons hq .nil) =>
    simp only [replacement?, rearranged?, hnil hp, hnil hq]
    split
    · exact .inl ⟨rfl, rfl⟩
    · refine .inr ⟨_, _, rfl, rfl, ?_⟩
      simp [callCells, Grouping.cells, Grouping.cells_append, hp.cells, hq.cells, instr, Leaf.cell, Leaf.word,
        Cell.word, Cell.space, Cell.sign, Cell.isToken, Cell.isGap]
  | [needle, haystack, start], [p, q, r], .cons hp (.cons hq (.cons hr .nil)) =>
    simp only [replacement?, rearranged?, hnil hp, hnil hq, hnil hr]
    split
    · exact .inl ⟨rfl, rfl⟩
    · refine .inr ⟨_, _, rfl, rfl, ?_⟩
      simp [callCells, Grouping.cells, Grouping.cells_append, hp.cells, hq.cells, hr.cells, instr, Leaf.cell, Leaf.word,
        Cell.word, Cell.space, Cell.sign, Cell.isToken, Cell.isGap]
  | _ :: _ :: _ :: _ :: _, _, .cons _ (.cons _ (.cons _ (.cons _ _))) => exact .inl ⟨rfl, rfl⟩

/-- A round finds no call, rewrites one, or meets one that cannot be translated. -/
theorem step_cases {text : SqlText} {q : Query} (hq : Query.ofText text = .ok q) (h : Reads 0 g.cells q.tokens) :
    step q = .ok none ∨
      (∃ e out q' g', step q = .ok (some e) ∧ Edit.applyAll [e] text = .ok out ∧ Query.ofText out = .ok q' ∧
        Reads 0 g'.cells q'.tokens ∧ Rewrites false g g') ∨
      ∃ call, step q = .error (.unsupportedConstruct (.locateArguments call)) ∧ isMalformed false g = true := by
  rcases last_call h false with ⟨hnone, -⟩ | ⟨c, as, bs, inside, hlast, htokens, hargs, hmem, hrewrite⟩
  · left
    rw [step, Query.calls, hnone]
    rfl
  right
  obtain ⟨-, -, -, hname, hmatched, -⟩ := Call.mem_among (List.mem_of_getLast? hlast)
  have hstep := step.eq_1 q
  simp only [Query.calls, hlast] at hstep
  rcases replacement?_eq (Grouping.reads_pieces hargs) with ⟨hreplace, hbad⟩ | ⟨_, arguments, hreplace, hgood, hcells⟩
  · refine .inr ⟨_, by rw [hstep, Call.arguments, hreplace], ?_⟩
    exact List.any_eq_true.2 ⟨inside, hmem, by rw [hbad]; rfl⟩
  · left
    obtain ⟨g', hg', hg'cells⟩ := hrewrite arguments hgood
    obtain ⟨rfl, tail, hread⟩ := Query.isRead hq
    obtain ⟨hswap, rfl⟩ := swapped_of_isRead hread htokens hname hmatched hreplace
    obtain ⟨out, q', hout, hq', hreads'⟩ := hread.reads_edited (t := c.name) g'.cells htokens (harmless _) hswap
      (fun hsw => hsw.source) (by rw [hg'cells, Call.arguments, hcells]) g'.balanced
    refine ⟨_, out, q', g', by rw [hstep, Call.arguments, hreplace], ?_, hq', hreads', hg'⟩
    rwa [← List.cons_append, ← List.cons_append, Token.stopOr_concat] at hout

/-- Whether a text comes to this translation, and whether some call in it cannot be translated. -/
def ComesTo (goal : Grouping) (malformed : Bool) (text : SqlText) : Prop :=
  ∃ q g, Query.ofText text = .ok q ∧ Reads 0 (Grouping.cells g) q.tokens ∧ located false g = goal ∧
    isMalformed false g = malformed

/-- A round leaves what a text comes to, or meets a call that cannot be translated. -/
theorem ComesTo.step_cases {goal : Grouping} {malformed : Bool} {text : SqlText} (h : ComesTo goal malformed text) :
    ∃ q, Query.ofText text = .ok q ∧ (step q = .ok none ∨
      (∃ e out, step q = .ok (some e) ∧ Edit.applyAll [e] text = .ok out ∧ ComesTo goal malformed out) ∨
      ∃ err, step q = .error err ∧ (∃ call, err = .unsupportedConstruct (.locateArguments call)) ∧ malformed = true) := by
  obtain ⟨q, g, hq, hreads, rfl, rfl⟩ := h
  refine ⟨q, hq, ?_⟩
  rcases Locate.step_cases hq hreads with hnone | ⟨e, out, q', g', he, hout, hq', hreads', hg'⟩ | ⟨call, herr, hbad⟩
  · exact .inl hnone
  · exact .inr (.inl ⟨e, out, he, hout, q', g', hq', hreads', hg'.located_eq, hg'.isMalformed_eq⟩)
  · exact .inr (.inr ⟨_, herr, ⟨call, rfl⟩, hbad⟩)

/-! ### All calls -/

/-- **Calls are translated however deep they are nested.**  Translating is refused just if some call, at any depth, has
not two or three arguments or an empty one; otherwise the result has no calls, and its tokens are those of the text with
every call translated, its arguments likewise. -/
theorem convert_eq_located {text : SqlText} {q : Query} (hq : Query.ofText text = .ok q) :
    ∃ g : Grouping, (∀ f : Grouping, f.cells = q.tokens.map Token.cell ↔ f = g) ∧
      ((∃ call, convert text = .error (.unsupportedConstruct (.locateArguments call))) ↔ isMalformed false g = true) ∧
      (isMalformed false g = false → ∃ out q', convert text = .ok out ∧ Query.ofText out = .ok q' ∧
        q'.calls isCalled = [] ∧ q'.tokens.map Token.cell = (located false g).cells) := by
  obtain ⟨rfl, tail, hread⟩ := Query.isRead hq
  obtain ⟨g, hg⟩ := Grouping.exists_of_isRead hread
  refine ⟨g, fun f => by rw [hg.cells, Grouping.cells_injective.eq_iff], ?_⟩
  have hall := Query.exhaust_cases (P := ComesTo (located false g) (isMalformed false g))
    (fun {t} ht => ComesTo.step_cases ht) ⟨q, g, hq, hg, rfl, rfl⟩
  rcases hall with ⟨out, hout, q', g', hq', hg', hlocated, hmalformed⟩ | ⟨err, herr, ⟨call, rfl⟩, hmalformed⟩
  · obtain ⟨q'', hq'', hnone⟩ := convert_eq_ok hout
    obtain rfl : q' = q'' := Except.ok.inj (hq'.symm.trans hq'')
    -- Where the rule finds no call, there is none.
    have hcalls : q'.calls isCalled = [] := by
      unfold step at hnone
      split at hnone
      · next hlast => exact List.getLast?_eq_none_iff.1 hlast
      · split at hnone <;> cases hnone
    have hnil : calls false g' = [] := by
      rcases last_call hg' false with ⟨-, hnil⟩ | ⟨c, -, -, -, hlast, -⟩
      · exact hnil
      · rw [← Query.calls, hcalls] at hlast
        cases hlast
    have hgood : isMalformed false g = false := by rw [← hmalformed, isMalformed, hnil]; rfl
    refine ⟨⟨?_, fun h => by rw [hgood] at h; cases h⟩, fun _ => ⟨out, q', hout, hq', hcalls, ?_⟩⟩
    · rintro ⟨call, hcall⟩
      rw [convert, hout] at hcall
      cases hcall
    · rw [hg'.cells, ← hlocated, located_of_calls_eq_nil hnil]
  · refine ⟨⟨fun _ => hmalformed, fun _ => ⟨call, herr⟩⟩, fun h => ?_⟩
    rw [hmalformed] at h
    cases h

theorem convert_eq_located_nested :
    ∃ out q, convert "LOCATE(a, LOCATE(b, c))".toList = .ok out ∧ Query.ofText out = .ok q ∧ q.calls isCalled = [] ∧
      q.tokens.map Token.cell = (Grouping.leaf instr (.group (.leaf instr (.group
        (.leaf (.word ['c']) (.comma (.leaf (.word ['b']) .nil))) (.comma (.leaf (.word ['a']) .nil)))) .nil)).cells := by
  obtain ⟨q, hq, hcells⟩ := Query.exists_of_cells "LOCATE(a, LOCATE(b, c))".toList
    ((Grouping.leaf (.word "LOCATE".toList) (.group (.leaf (.word ['a']) (.comma (.leaf (.word "LOCATE".toList)
      (.group (.leaf (.word ['b']) (.comma (.leaf (.word ['c']) .nil))) .nil)))) .nil)).cells) (by decide +kernel)
  obtain ⟨g, hg, -, h⟩ := convert_eq_located hq
  obtain rfl := (hg _).1 hcells.symm
  exact h (by decide)

end JetAdapter.Locate
