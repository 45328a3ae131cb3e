import JetAdapter.Proofs.GroupedCalls
import JetAdapter.Proofs.Patches

/-!
# Calls that are rewritten at once

Some rules make all their edits against one text.  What they come to is said by a `Rewriting`: what each call is replaced
by, if anything, and which part of what is inside its parentheses is kept.  `Rewriting.translated` replaces all calls of a
text at once, those in the kept parts likewise.

The edits of a call stand around those of the calls in its kept part, so all edits of a text are patches of one another,
in the order of the text (`Rewriting.Handles.patched`), and applying them translates the text (`Rewriting.Handles.applied`).
-/

namespace JetAdapter

open Token (Reads)
open Edit (Patches)

/-- What a call is replaced by: a name, an argument that comes first if there is one, and the part of the old arguments
that is kept, between what is dropped before and behind it. -/
structure Replacement where
  name : Leaf
  first : Option Leaf
  before : Grouping
  kept : Grouping
  behind : Grouping

/-- The arguments of the new call, for a form of the kept part. -/
def Replacement.arguments (r : Replacement) (kept : Grouping) : Grouping :=
  match r.first with
  | none => kept
  | some l => .leaf l (.comma kept)

/-- How calls are rewritten, by their names and what is inside. -/
structure Rewriting where
  replaced? : Leaf → Grouping → Option Replacement
  inside_eq : ∀ {l : Leaf} {inside : Grouping} {r : Replacement},
    replaced? l inside = some r → inside = r.before.append (r.kept.append r.behind)
  calls_kept : ∀ {l : Leaf} {inside : Grouping} {r : Replacement},
    replaced? l inside = some r → ∀ x ∈ r.kept.calls false, x ∈ inside.calls false

namespace Rewriting

theorem length_kept_le (W : Rewriting) {l : Leaf} {inside : Grouping} {r : Replacement}
    (h : W.replaced? l inside = some r) : r.kept.cells.length ≤ inside.cells.length := by
  rw [W.inside_eq h, Grouping.cells_append, Grouping.cells_append, List.length_append, List.length_append]
  omega

/-- A text with all calls replaced, in the kept parts as well; a name behind a dot makes no call. -/
def translated (W : Rewriting) : Bool → Grouping → Grouping
  | _, .nil => .nil
  | afterDot, .leaf l (.group inside rest) =>
    match _h : if afterDot then none else W.replaced? l inside with
    | some r => .leaf r.name (.group (r.arguments (W.translated false r.kept)) (W.translated false rest))
    | none => .leaf l (.group (W.translated false inside) (W.translated false rest))
  | _, .leaf l rest => .leaf l (W.translated (l.isSymbol .dot) rest)
  | _, .comma rest => .comma (W.translated false rest)
  | _, .group inside rest => .group (W.translated false inside) (W.translated false rest)
termination_by _ g => g.cells.length
decreasing_by
  all_goals simp only [Grouping.cells, List.length_cons, List.length_append]
  · have hfound : W.replaced? l inside = some r := by
      split at _h
      · cases _h
      · exact _h
    have := W.length_kept_le hfound
    omega
  all_goals omega

/-- Whether what is dropped behind the kept part of a call holds no call that is replaced. -/
def IsClear (W : Rewriting) (afterDot : Bool) (g : Grouping) : Prop :=
  ∀ x ∈ g.calls afterDot, ∀ r, W.replaced? x.1 x.2 = some r →
    ∀ y ∈ r.behind.calls false, W.replaced? y.1 y.2 = none

variable {W : Rewriting} {P : Cell → Bool} {edits : Call → List Edit} {R : Swap} {q : Query} {tail : List Cell}
  {g inside rest : Grouping} {l : Leaf} {afterDot : Bool} {as bs ts : List Token} {d : Nat} {text : SqlText}

theorem translated_leaf_of_ne (h : ∀ inside rest, g ≠ .group inside rest) (afterDot : Bool) (l : Leaf) :
    W.translated afterDot (.leaf l g) = .leaf l (W.translated (l.isSymbol .dot) g) := by
  cases g with
  | group inside rest => exact absurd rfl (h inside rest)
  | nil | leaf | comma => simp only [translated]

theorem translated_call {r : Replacement} (h : W.replaced? l inside = some r) (rest : Grouping) :
    W.translated false (.leaf l (.group inside rest))
      = .leaf r.name (.group (r.arguments (W.translated false r.kept)) (W.translated false rest)) := by
  rw [translated]
  split
  · next r' hr' =>
    obtain rfl : r = r' := Option.some.inj (h.symm.trans hr')
    rfl
  · next hnone => cases h.symm.trans hnone

theorem translated_kept_call (h : afterDot = true ∨ W.replaced? l inside = none) (rest : Grouping) :
    W.translated afterDot (.leaf l (.group inside rest))
      = .leaf l (.group (W.translated false inside) (W.translated false rest)) := by
  have hnone : (if afterDot then none else W.replaced? l inside) = none := by
    rcases h with rfl | h
    · rfl
    · rw [h, ite_self]
  rw [translated]
  split
  · next r hr => cases hnone.symm.trans hr
  · rfl

/-- Around a leaf that is never replaced and is no dot, the parts are translated one by one. -/
theorem translated_append_leaf {sep : Leaf} (hkept : ∀ inside, W.replaced? sep inside = none)
    (hdot : sep.isSymbol .dot = false) (f g : Grouping) (afterDot : Bool) :
    W.translated afterDot (f.append (.leaf sep g))
      = (W.translated afterDot f).append (.leaf sep (W.translated false g)) := by
  fun_induction W.translated afterDot f with
  | case1 afterDot =>
    rcases g.eq_group_or with ⟨inside, rest, rfl⟩ | hne
    · rw [Grouping.append, translated_kept_call (.inr (hkept inside)), Grouping.append, translated]
    · rw [Grouping.append, translated_leaf_of_ne hne, hdot, Grouping.append]
  | case2 afterDot l inside rest r hr _ ih =>
    obtain ⟨rfl, hr⟩ : afterDot = false ∧ W.replaced? l inside = some r := by simpa using hr
    show W.translated false (.leaf l (.group inside (rest.append (.leaf sep g)))) = _
    rw [translated_call hr, ih]
    rfl
  | case3 afterDot l inside rest hnone _ ih =>
    have hleft : afterDot = true ∨ W.replaced? l inside = none := by
      cases afterDot with
      | true => exact .inl rfl
      | false => exact .inr (by simpa using hnone)
    show W.translated afterDot (.leaf l (.group inside (rest.append (.leaf sep g)))) = _
    rw [translated_kept_call hleft, ih]
    rfl
  | case4 afterDot l rest hne ih =>
    have hne' : ∀ inside rest', rest.append (.leaf sep g) ≠ .group inside rest' := by
      intro inside rest' h
      cases rest with
      | group inside rest => exact hne inside rest rfl
      | nil | leaf | comma => cases h
    rw [Grouping.append, translated_leaf_of_ne hne', ih, Grouping.append]
  | case5 afterDot rest ih => rw [Grouping.append, translated, ih, Grouping.append]
  | case6 afterDot inside rest _ ih => rw [Grouping.append, translated, ih, Grouping.append]

/-- Only a group makes a group. -/
theorem translated_ne_group (h : ∀ inside rest, g ≠ .group inside rest) (inside rest : Grouping) :
    W.translated afterDot g ≠ .group inside rest := by
  cases g with
  | nil | comma =>
    rw [translated]
    exact Grouping.noConfusion
  | leaf l g =>
    rcases g.eq_group_or with ⟨i, r, rfl⟩ | hne
    · rw [translated]
      split <;> exact Grouping.noConfusion
    · rw [translated_leaf_of_ne hne]
      exact Grouping.noConfusion
  | group inside rest => exact absurd rfl (h inside rest)

theorem calls_arguments (r : Replacement) (g : Grouping) : (r.arguments g).calls false = g.calls false := by
  unfold Replacement.arguments
  split
  · rfl
  · rw [Grouping.calls_leaf_of_ne (fun _ _ h => by cases h), Grouping.calls]

/-- A call of the translation is that of a call that is left, or replaces one. -/
theorem exists_of_mem_calls_translated {x : Leaf × Grouping} (h : x ∈ (W.translated afterDot g).calls afterDot) :
    ∃ y ∈ g.calls afterDot, (W.replaced? y.1 y.2 = none ∧ x = (y.1, W.translated false y.2)) ∨
      ∃ r, W.replaced? y.1 y.2 = some r ∧ x = (r.name, r.arguments (W.translated false r.kept)) := by
  fun_induction W.translated afterDot g with
  | case1 afterDot => cases h
  | case2 afterDot l inside rest r hr ihKept ihRest =>
    obtain ⟨rfl, hr⟩ : afterDot = false ∧ W.replaced? l inside = some r := by simpa using hr
    rw [Grouping.calls, if_neg Bool.false_ne_true, List.mem_append, List.mem_append, calls_arguments] at h
    rcases h with h | h | h
    · exact ⟨(l, inside), List.mem_cons_self, .inr ⟨r, hr, List.mem_singleton.1 h⟩⟩
    · obtain ⟨y, hy, hall⟩ := ihKept h
      exact ⟨y, List.mem_append_right _ (List.mem_append_left _ (W.calls_kept hr y hy)), hall⟩
    · obtain ⟨y, hy, hall⟩ := ihRest h
      exact ⟨y, List.mem_append_right _ (List.mem_append_right _ hy), hall⟩
  | case3 afterDot l inside rest hnone ihInside ihRest =>
    rw [Grouping.calls, List.mem_append, List.mem_append] at h
    rcases h with h | h | h
    · cases afterDot with
      | true => cases h
      | false =>
        rw [if_neg Bool.false_ne_true] at h
        exact ⟨(l, inside), List.mem_cons_self, .inl ⟨by simpa using hnone, List.mem_singleton.1 h⟩⟩
    · obtain ⟨y, hy, hall⟩ := ihInside h
      exact ⟨y, List.mem_append_right _ (List.mem_append_left _ hy), hall⟩
    · obtain ⟨y, hy, hall⟩ := ihRest h
      exact ⟨y, List.mem_append_right _ (List.mem_append_right _ hy), hall⟩
  | case4 afterDot l rest hne ih =>
    rw [Grouping.calls_leaf_of_ne (translated_ne_group hne)] at h
    obtain ⟨y, hy, hall⟩ := ih h
    exact ⟨y, by rwa [Grouping.calls_leaf_of_ne hne], hall⟩
  | case5 afterDot rest ih => exact ih h
  | case6 afterDot inside rest ihInside ihRest =>
    rw [Grouping.calls, List.mem_append] at h
    rcases h with h | h
    · obtain ⟨y, hy, hall⟩ := ihInside h
      exact ⟨y, List.mem_append_left _ hy, hall⟩
    · obtain ⟨y, hy, hall⟩ := ihRest h
      exact ⟨y, List.mem_append_right _ hy, hall⟩

/-! ### Parts of clear texts -/

theorem isClear_leaf_iff (hne : ∀ inside rest, g ≠ .group inside rest) :
    W.IsClear afterDot (.leaf l g) ↔ W.IsClear (l.isSymbol .dot) g := by
  rw [IsClear, Grouping.calls_leaf_of_ne hne, IsClear]

theorem isClear_group_iff : W.IsClear afterDot (.group inside rest) ↔ W.IsClear false inside ∧ W.IsClear false rest := by
  rw [IsClear, Grouping.calls, List.forall_mem_append]
  rfl

theorem isClear_call_iff : W.IsClear afterDot (.leaf l (.group inside rest)) ↔
    (afterDot = false → ∀ r, W.replaced? l inside = some r → ∀ y ∈ r.behind.calls false, W.replaced? y.1 y.2 = none) ∧
      W.IsClear false inside ∧ W.IsClear false rest := by
  rw [IsClear, Grouping.calls, List.forall_mem_append, List.forall_mem_append]
  refine and_congr ?_ Iff.rfl
  cases afterDot <;> simp

theorem isClear_kept {r : Replacement} (h : W.IsClear false inside) (hr : W.replaced? l inside = some r) :
    W.IsClear false r.kept :=
  fun x hx => h x (W.calls_kept hr x hx)

end Rewriting

/-! ### Patched tokens -/

/-- Whether edits, in any order, make tokens with the cells `cs` of the tokens `ts`, which stand behind the tokens `as` and
before `bs` and the last cells `tail`. -/
def Patched (R : Swap) (tail : List Cell) (as ts bs : List Token) (es : List Edit) (cs : List Cell) : Prop :=
  ∃ es' os, Patches R (Token.cells bs ++ tail) (Token.cells as) (Token.cells ts) es' os ∧ os.filter Cell.isToken = cs ∧
    es.Perm es'

namespace Patched

variable {R : Swap} {tail cs ds : List Cell} {as bs us vs ws : List Token} {es es' : List Edit} {closing : Token}

theorem nil : Patched R tail as [] bs [] [] :=
  ⟨[], [], .nil, rfl, .refl _⟩

theorem perm (h : Patched R tail as us bs es cs) (hperm : es'.Perm es) : Patched R tail as us bs es' cs := by
  obtain ⟨sorted, os, hp, hos, hsorted⟩ := h
  exact ⟨sorted, os, hp, hos, hperm.trans hsorted⟩

theorem filter_isToken_cells (ts : List Token) : (Token.cells ts).filter Cell.isToken = ts.map Token.cell := by
  induction ts with
  | nil => rfl
  | cons t ts ih =>
    rw [Token.cells_cons, List.filter_append, Cell.filter_isToken_ofGap, List.nil_append, List.filter_cons_of_pos rfl, ih,
      List.map_cons]

/-- Tokens that are kept before patched ones. -/
theorem behind (h : Patched R tail (as ++ us) vs bs es cs) :
    Patched R tail as (us ++ vs) bs es (us.map Token.cell ++ cs) := by
  obtain ⟨es', os, hp, hos, hperm⟩ := h
  rw [Token.cells_append] at hp
  refine ⟨es', Token.cells us ++ os, ?_, ?_, hperm⟩
  · rw [Token.cells_append]
    exact hp.behind
  · rw [List.filter_append, filter_isToken_cells, hos]

theorem kept (ts : List Token) : Patched R tail as ts bs [] (ts.map Token.cell) := by
  have h : Patched R tail as (ts ++ []) bs [] (ts.map Token.cell ++ []) := .behind .nil
  simpa using h

/-- A stretch of a query, replaced as a whole. -/
theorem swap {q : Query} {t : Token} {ts : List Token} {N : List Cell} (hread : q.IsRead tail)
    (hq : q.tokens = as ++ (t :: ts ++ bs))
    (h : R (Token.cells as ++ Cell.ofGap t.gap) (Token.stretch (t :: ts)) (Token.cells bs ++ tail) N) (stop : Nat) :
    Patched R tail as (t :: ts) bs [⟨⟨t.start, Token.stopOr stop (t :: ts)⟩, Cell.spell N⟩] (N.filter Cell.isToken) := by
  obtain ⟨-, hstart, hstop⟩ := hread.split hq
  have hone := Patches.behind (Patches.one h)
  rw [← hstart, ← hstop stop] at hone
  refine ⟨_, Cell.ofGap t.gap ++ N, ?_, ?_, .refl _⟩
  · rw [Token.cells_cons]
    exact hone
  · rw [List.filter_append, Cell.filter_isToken_ofGap, List.nil_append]

/-- Patched tokens, and patched ones behind them. -/
theorem append (h : Patched R tail as us (vs ++ bs) es cs) (h' : Patched R tail (as ++ us) vs bs es' ds) :
    Patched R tail as (us ++ vs) bs (es ++ es') (cs ++ ds) := by
  obtain ⟨first, os, hp, hos, hperm⟩ := h
  obtain ⟨last, os', hp', hos', hperm'⟩ := h'
  rw [Token.cells_append, List.append_assoc] at hp
  rw [Token.cells_append] at hp'
  refine ⟨first ++ last, os ++ os', ?_, ?_, hperm.append hperm'⟩
  · rw [Token.cells_append]
    exact hp.append hp'
  · rw [List.filter_append, hos, hos']

/-- Patched tokens inside parentheses and behind them. -/
theorem parens {front : List Token} (h : Patched R tail (as ++ front) us (closing :: (vs ++ bs)) es cs)
    (h' : Patched R tail (as ++ (front ++ (us ++ [closing]))) vs bs es' ds) :
    Patched R tail as (front ++ (us ++ closing :: vs)) bs (es ++ es')
      (front.map Token.cell ++ (cs ++ closing.cell :: ds)) := by
  have hback : Patched R tail (as ++ front ++ us) ([closing] ++ vs) bs es' ([closing].map Token.cell ++ ds) := by
    refine behind ?_
    simpa using h'
  exact behind (h.append hback)

/-- Tokens patched before others and behind them up to a parenthesis, and patched ones behind it. -/
theorem around {fs : List Token} {first last : List Edit} {cs₁ cs₂ cs₃ : List Cell}
    (hfirst : Patched R tail as fs (us ++ (ws ++ closing :: (vs ++ bs))) first cs₁)
    (hkept : Patched R tail (as ++ fs) us (ws ++ closing :: (vs ++ bs)) es cs₂)
    (hlast : Patched R tail (as ++ (fs ++ us)) (ws ++ [closing]) (vs ++ bs) last cs₃)
    (hrest : Patched R tail (as ++ (fs ++ (us ++ (ws ++ [closing])))) vs bs es' ds) :
    Patched R tail as (fs ++ ((us ++ ws) ++ closing :: vs)) bs (first ++ last ++ (es ++ es'))
      (cs₁ ++ (cs₂ ++ (cs₃ ++ ds))) := by
  have hlast := (show Patched R tail (as ++ fs ++ us) (ws ++ [closing]) (vs ++ bs) last cs₃ by simpa using hlast).append
    (show Patched R tail (as ++ fs ++ us ++ (ws ++ [closing])) vs bs es' ds by simpa using hrest)
  have hkept := (show Patched R tail (as ++ fs) us ((ws ++ [closing] ++ vs) ++ bs) es cs₂ by simpa using hkept).append hlast
  have hall := (show Patched R tail as fs ((us ++ (ws ++ [closing] ++ vs)) ++ bs) first cs₁ by simpa using hfirst).append
    hkept
  refine .perm (by simpa using hall) ?_
  -- the edits behind the kept part come before its own, for they are those of the call
  calc first ++ last ++ (es ++ es') = first ++ ((last ++ es) ++ es') := by simp
    _ |>.Perm (first ++ ((es ++ last) ++ es')) := (List.perm_append_comm.append_right _).append_left _
    _ = first ++ (es ++ (last ++ es')) := by simp

end Patched

/-! ### The edits of all calls -/

theorem Replacement.cells_arguments (r : Replacement) (g : Grouping) :
    (r.arguments g).cells = (r.arguments .nil).cells ++ g.cells := by
  unfold Replacement.arguments
  cases r.first <;> simp [Grouping.cells]

namespace Rewriting

/-- Whether the edits of calls with some names are those of a rewriting: a call that is not replaced has none, and those
of a call that is replaced stand before the kept part and behind it. -/
structure Handles (W : Rewriting) (P : Cell → Bool) (edits : Call → List Edit) (R : Swap) : Prop where
  naming : Cell.IsNaming P
  harmless : Woven.Harmless Cell.isToken R
  plain : ∀ {X D Y N : List Cell}, R X D Y N → ∀ c ∈ N, c.isFault = false
  replaces : ∀ {X D Y N : List Cell}, R X D Y N → D ≠ []
  named : ∀ {l : Leaf} {inside : Grouping} {r : Replacement}, W.replaced? l inside = some r → P l.cell = true
  left : ∀ {c : Call} {x : Leaf × Grouping}, c.IsRead x → P x.1.cell = true → W.replaced? x.1 x.2 = none → edits c = []
  replaced : ∀ {q : Query} {tail : List Cell} {c : Call} {x : Leaf × Grouping} {r : Replacement} {as bs : List Token},
    q.IsRead tail → q.tokens = as ++ (c.tokens ++ bs) → c.IsRead x → c.opening.cell = Cell.sign '(' →
    c.closing.cell = Cell.sign ')' → W.replaced? x.1 x.2 = some r →
    (∀ y ∈ r.behind.calls false, W.replaced? y.1 y.2 = none) →
    ∃ fs ks vs first last, c.args = fs ++ (ks ++ vs) ∧ Reads (c.opening.depth + 1) r.kept.cells ks ∧
      edits c = first ++ last ∧
      (Call.among (fun t => P t.cell) false c.args).flatMap edits
        = (Call.among (fun t => P t.cell) false ks).flatMap edits ∧
      Patched R tail as (c.name :: c.opening :: fs) (ks ++ (vs ++ c.closing :: bs)) first
        (r.name.cell :: Cell.sign '(' :: (r.arguments .nil).cells) ∧
      Patched R tail (as ++ c.name :: c.opening :: (fs ++ ks)) (vs ++ [c.closing]) bs last [Cell.sign ')']

variable {W : Rewriting} {P : Cell → Bool} {edits : Call → List Edit} {R : Swap} {q : Query} {tail : List Cell}
  {g : Grouping} {afterDot : Bool} {as bs ts : List Token} {d : Nat} {text : SqlText}

/-- Calls that are not replaced have no edits. -/
theorem flatMap_eq_nil (hP : Cell.IsNaming P)
    (hleft : ∀ {c : Call} {x : Leaf × Grouping}, c.IsRead x → P x.1.cell = true → W.replaced? x.1 x.2 = none → edits c = [])
    (h : Reads d g.cells ts) (hnone : ∀ x ∈ g.calls afterDot, P x.1.cell = true → W.replaced? x.1 x.2 = none) :
    (Call.among (fun t => P t.cell) afterDot ts).flatMap edits = [] := by
  refine List.flatMap_eq_nil_iff.2 fun c hc => ?_
  obtain ⟨x, hx, hname, hcx⟩ := Call.exists_of_mem_among hP h hc
  exact hleft hcx hname (hnone x hx hname)

/-- **The edits of all calls make the translation.** -/
theorem Handles.patched (hW : W.Handles P edits R) (hread : q.IsRead tail) (hq : q.tokens = as ++ (ts ++ bs))
    (h : Reads d g.cells ts) (hclear : W.IsClear afterDot g) :
    Patched R tail as ts bs ((Call.among (fun t => P t.cell) afterDot ts).flatMap edits)
      (W.translated afterDot g).cells := by
  fun_induction W.translated afterDot g generalizing as ts bs d with
  | case1 afterDot =>
    obtain rfl := Reads.nil_iff.1 h
    exact .nil
  | case2 afterDot l inside rest r hr ihKept ihRest =>
    obtain ⟨rfl, hr⟩ : afterDot = false ∧ W.replaced? l inside = some r := by simpa using hr
    obtain ⟨t, us, rfl, hk, hw, -, hus⟩ := Grouping.reads_leaf h
    have ht : t.cell = l.cell := by rw [Token.cell, hk, hw, Leaf.cell]
    obtain ⟨opening, ins, closing, vs, rfl, hopening, hd, hins, hclosing, hd', hvs⟩ := Grouping.reads_group hus
    obtain ⟨hbehind, hinside, hrest⟩ := isClear_call_iff.1 hclear
    have hsplit : q.tokens = as ++ ((⟨t, opening, ins, closing⟩ : Call).tokens ++ (vs ++ bs)) := by
      rw [hq]
      simp [Call.tokens]
    obtain ⟨fs, ks, ws, first, last, hargs, hks, hedits, hcalls, hfirst, hlast⟩ :=
      hW.replaced (c := ⟨t, opening, ins, closing⟩) (x := (l, inside)) hread hsplit ⟨ht, by rwa [hd]⟩ hopening hclosing hr
        (hbehind rfl r hr)
    obtain rfl : ins = fs ++ (ks ++ ws) := hargs
    have hbefore : q.tokens = (as ++ t :: opening :: fs) ++ (ks ++ (ws ++ closing :: (vs ++ bs))) := by rw [hq]; simp
    have hbehind : q.tokens = (as ++ t :: opening :: (fs ++ (ks ++ (ws ++ [closing])))) ++ (vs ++ bs) := by rw [hq]; simp
    have hkept := ihKept hbefore hks (isClear_kept hinside hr)
    have hrest := ihRest hbehind hvs hrest
    have hcells : (Grouping.leaf r.name (.group (r.arguments (W.translated false r.kept)) (W.translated false rest))).cells =
        (r.name.cell :: Cell.sign '(' :: (r.arguments .nil).cells) ++
          ((W.translated false r.kept).cells ++ ([Cell.sign ')'] ++ (W.translated false rest).cells)) := by
      rw [Grouping.cells, Grouping.cells, r.cells_arguments]
      simp
    have hname : P t.cell = true := by rw [ht, hW.named hr]
    rw [Call.among_call hW.naming hins.level hopening hd hclosing hd', hname, List.flatMap_append, List.flatMap_append,
      hcalls, hcells, Bool.not_false, Bool.and_true, if_pos rfl, List.flatMap_singleton, hedits]
    have hall := Patched.around hfirst hkept hlast hrest
    simpa using hall
  | case3 afterDot l inside rest hnone ihInside ihRest =>
    obtain ⟨t, us, rfl, hk, hw, -, hus⟩ := Grouping.reads_leaf h
    have ht : t.cell = l.cell := by rw [Token.cell, hk, hw, Leaf.cell]
    obtain ⟨opening, ins, closing, vs, rfl, hopening, hd, hins, hclosing, hd', hvs⟩ := Grouping.reads_group hus
    obtain ⟨-, hinside, hrest⟩ := isClear_call_iff.1 hclear
    have hbefore : q.tokens = (as ++ [t, opening]) ++ (ins ++ closing :: (vs ++ bs)) := by rw [hq]; simp
    have hbehind : q.tokens = (as ++ ([t, opening] ++ (ins ++ [closing]))) ++ (vs ++ bs) := by rw [hq]; simp
    have hall := Patched.parens (ihInside hbefore hins hinside) (ihRest hbehind hvs hrest)
    have hcall : (if P t.cell && !afterDot then [(⟨t, opening, ins, closing⟩ : Call)] else []).flatMap edits = [] := by
      split
      · next hname =>
        obtain ⟨hname, hdot⟩ : P t.cell = true ∧ afterDot = false := by simpa using hname
        have hleft := hW.left (c := ⟨t, opening, ins, closing⟩) (x := (l, inside)) ⟨ht, by rwa [hd]⟩ (by rwa [← ht])
          (by simpa [hdot] using hnone)
        rw [List.flatMap_singleton, hleft]
      · rfl
    rw [Call.among_call hW.naming hins.level hopening hd hclosing hd', List.flatMap_append, hcall, List.nil_append,
      List.flatMap_append]
    rw [Grouping.cells, Grouping.cells, ← ht, ← hopening, ← hclosing]
    exact hall
  | case4 afterDot l rest hne ih =>
    obtain ⟨t, us, rfl, hk, hw, -, hus⟩ := Grouping.reads_leaf h
    have ht : t.cell = l.cell := by rw [Token.cell, hk, hw, Leaf.cell]
    have hbehind : q.tokens = (as ++ [t]) ++ (us ++ bs) := by rw [hq]; simp
    have hrest := ih hbehind hus ((isClear_leaf_iff hne).1 hclear)
    rw [Call.among_cons (Grouping.head_of_ne_group hne hus), Grouping.isSymbol_of_kind hk, Grouping.cells, ← ht]
    exact hrest.behind
  | case5 afterDot rest ih =>
    obtain ⟨t, us, rfl, ht, -, hus⟩ := Grouping.reads_comma h
    have hbehind : q.tokens = (as ++ [t]) ++ (us ++ bs) := by rw [hq]; simp
    have hrest := ih hbehind hus hclear
    rw [Call.among_comma hW.naming ht, Grouping.cells, ← ht]
    exact hrest.behind
  | case6 afterDot inside rest ihInside ihRest =>
    obtain ⟨opening, us, closing, vs, rfl, hopening, -, hus, hclosing, -, hvs⟩ := Grouping.reads_group h
    obtain ⟨hinside, hrest⟩ := isClear_group_iff.1 hclear
    have hbefore : q.tokens = (as ++ [opening]) ++ (us ++ closing :: (vs ++ bs)) := by rw [hq]; simp
    have hbehind : q.tokens = (as ++ ([opening] ++ (us ++ [closing]))) ++ (vs ++ bs) := by rw [hq]; simp
    have hall := Patched.parens (ihInside hbefore hus hinside) (ihRest hbehind hvs hrest)
    rw [Call.among_parens hW.naming hus.level hopening hclosing, Grouping.cells, ← hopening, ← hclosing,
      List.flatMap_append]
    exact hall

/-- **All edits can be applied at once, and they translate the text**, if what is dropped holds no call that is replaced. -/
theorem Handles.applied (hW : W.Handles P edits R) (hq : Query.ofText text = .ok q) (h : Reads 0 g.cells q.tokens)
    (hclear : W.IsClear false g) :
    ∃ out q', Edit.applyAll ((q.calls fun t => P t.cell).flatMap edits) text = .ok out ∧ Query.ofText out = .ok q' ∧
      Reads 0 (W.translated false g).cells q'.tokens := by
  obtain ⟨rfl, tail, hread⟩ := Query.isRead hq
  have hall : q.tokens = [] ++ (q.tokens ++ []) := by simp
  obtain ⟨es, os, hp, hos, hperm⟩ := hW.patched hread hall h hclear
  have hp : Edit.Patches R [] [] (Token.cells q.tokens ++ tail) (es ++ []) (os ++ tail) :=
    Patches.append (by simpa using hp) (.refl _ _)
  refine hread.reads_patched hW.harmless hW.plain hW.replaces hp (by rwa [List.append_nil]) ?_ (Grouping.balanced _)
  have htail : tail.filter Cell.isToken = [] := hread.filter_cells []
  rw [List.filter_append, hos, htail, List.append_nil]

end Rewriting

end JetAdapter
