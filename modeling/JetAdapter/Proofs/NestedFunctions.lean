import JetAdapter.Proofs.Rewritings
import JetAdapter.Rule.Chain

/-!
# Functions in one pass

The rules for letter case, for parts of dates and for casts make all their edits against one text, for calls inside one
another as well.  For each rule its `rewriting` says what a call is replaced by, and `handles` that the edits of the rule
are those of the rewriting.  So the rules translate all calls at once (`functions_translated`): none fails where the calls
have the form that it asks for, and in particular no two edits overlap.
-/

namespace JetAdapter

open Cell (ofGap)
open Token (Reads stretch)

theorem Leaf.kind_of_isKeyword {l : Leaf} {k : Keyword} (h : l.kind.isKeyword k = true) : l.kind = .keyword k := by
  simpa [Kind.isKeyword] using h

theorem Leaf.isSymbol_of_isKeyword {l : Leaf} {k : Keyword} (h : l.kind.isKeyword k = true) (s : Symbol) :
    l.isSymbol s = false := by
  rw [Leaf.isSymbol, Leaf.kind_of_isKeyword h]
  rfl

/-- A keyword is the same word as its spelling. -/
theorem Token.sameWord_of_isKeyword {t : Token} {k : Keyword} {rest : SqlText} (hfit : t.cell.Fits rest)
    (h : t.isKeyword k = true) (w : SqlText) : Text.sameWord t.text w = Text.sameWord k.spelling w := by
  have hk : t.kind = .keyword k := Kind.isKeyword_iff.1 h
  rw [cell, hk] at hfit
  rw [Text.sameWord, Text.sameWord, Tally.lower_eq_of_ofWord? (Cell.isWord_of_keyword hfit).2]

/-! ### Letter case functions -/

namespace LetterCase

/-- Whether a cell is spelled like the name of such a function. -/
def isSpelled (c : Cell) : Bool :=
  Text.sameWord c.text "upper".toList || Text.sameWord c.text "lower".toList

/-- The name in Jet: a name in capital letters stays in capital letters. -/
def jetText (w : SqlText) : SqlText :=
  if Text.sameWord w "upper".toList then
    if w.all Char.isUpper then "UCASE".toList else "ucase".toList
  else if w.all Char.isUpper then "LCASE".toList else "lcase".toList

/-- Each call is replaced by one with the name in Jet and the same arguments. -/
def replaced? (l : Leaf) (inside : Grouping) : Option Replacement :=
  if isSpelled l.cell then some ⟨.word (jetText l.text), none, .nil, inside, .nil⟩ else none

variable {l : Leaf} {inside : Grouping} {r : Replacement}

theorem jetName_eq (t : Token) : jetName t = jetText t.text := by
  unfold jetName jetText Token.spells
  dsimp only
  split <;> split <;> rfl

theorem replaced?_eq_some (h : replaced? l inside = some r) :
    isSpelled l.cell = true ∧ r = ⟨.word (jetText l.text), none, .nil, inside, .nil⟩ := by
  unfold replaced? at h
  split at h
  · next hname => exact ⟨hname, (Option.some.inj h).symm⟩
  · cases h

theorem inside_eq (h : replaced? l inside = some r) : inside = r.before.append (r.kept.append r.behind) := by
  obtain ⟨-, rfl⟩ := replaced?_eq_some h
  exact inside.append_nil.symm

theorem calls_kept (h : replaced? l inside = some r) : ∀ x ∈ r.kept.calls false, x ∈ inside.calls false := by
  obtain ⟨-, rfl⟩ := replaced?_eq_some h
  exact fun x hx => hx

/-- The renaming of calls of `upper` and `lower`, whatever is inside. -/
def rewriting : Rewriting where
  replaced? := replaced?
  inside_eq := inside_eq
  calls_kept := calls_kept

theorem isClear (g : Grouping) : rewriting.IsClear false g := by
  intro x _ r hr
  obtain ⟨-, rfl⟩ := replaced?_eq_some hr
  exact List.forall_mem_nil _

theorem handles : rewriting.Handles isSpelled (fun c => [⟨c.name.span, jetName c.name⟩]) Swapped where
  naming := ⟨by decide, by decide, by decide⟩
  harmless := harmless _
  plain := fun h c hc => h.plain c hc _ Cell.spares_isFault
  replaces := by
    rintro X D Y N ⟨t, -, rfl, -⟩
    exact List.cons_ne_nil _ _
  named := fun h => (replaced?_eq_some h).1
  left := by
    intro c x _ hname hnone
    rw [show rewriting.replaced? x.1 x.2 = replaced? x.1 x.2 from rfl, replaced?, if_pos hname] at hnone
    cases hnone
  replaced := by
    intro q tail c x r as bs hread hq hc hopening hclosing hr _
    obtain ⟨hname, rfl⟩ := replaced?_eq_some hr
    have hcell : c.name.cell = x.1.cell := hc.name
    have hq' : q.tokens = as ++ c.name :: ([] ++ c.opening :: (c.args ++ c.closing :: bs)) := by
      rw [hq]
      simp [Call.tokens]
    have hfirst := Patched.swap (R := Swapped) hread hq' ⟨c.name, by rw [← hcell] at hname; exact hname, rfl, rfl⟩ 0
    have hfront := hfirst.append (Patched.kept [c.opening])
    rw [List.map_singleton, hopening, jetName_eq, (Cell.token.inj hcell).2] at hfront
    refine ⟨[], c.args, [], [⟨c.name.span, jetText x.1.text⟩], [], by simp, hc.args, ?_, rfl, ?_, ?_⟩
    · rw [jetName_eq, (Cell.token.inj hcell).2, List.append_nil]
    · have hspell : Cell.spell [Cell.word (jetText x.1.text)] = jetText x.1.text := by simp
      rw [hspell] at hfront
      exact hfront
    · rw [← hclosing]
      exact Patched.kept _

/-- A call gets the name in Jet. -/
theorem translated_call (hname : isSpelled l.cell = true) (inside rest : Grouping) :
    rewriting.translated false (.leaf l (.group inside rest)) = .leaf (.word (jetText l.text))
      (.group (rewriting.translated false inside) (rewriting.translated false rest)) :=
  Rewriting.translated_call (W := rewriting) (if_pos hname) rest

/-- All calls are renamed. -/
theorem rename_eq {text : SqlText} {q : Query} {g : Grouping} (hq : Query.ofText text = .ok q)
    (h : Reads 0 g.cells q.tokens) : ∃ out q', rename text = .ok out ∧ Query.ofText out = .ok q' ∧
      Reads 0 (rewriting.translated false g).cells q'.tokens := by
  obtain ⟨out, q', hout, hq', hreads⟩ := handles.applied hq h (isClear g)
  refine ⟨out, q', ?_, hq', hreads⟩
  rw [rename, hq]
  show Edit.applyAll ((q.calls isName).map fun c => ⟨c.name.span, jetName c.name⟩) text = .ok out
  rwa [List.map_eq_flatMap]

end LetterCase

/-! ### Parts of dates -/

namespace Extract

/-- Whether a cell is spelled like the name of the function. -/
def isSpelled (c : Cell) : Bool :=
  Text.sameWord c.text "extract".toList

/-- An interval in quotes. -/
def intervalLeaf (interval : SqlText) : Leaf where
  kind := .string interval
  text := '\'' :: (interval ++ ['\''])
  left := Kind.noConfusion
  right := Kind.noConfusion
  comma := Kind.noConfusion

/-- Whether a call has a known field, the word `FROM` and something behind it. -/
def isFormed : Grouping → Bool
  | .leaf field (.leaf word e) =>
    field.kind.isIdentifier && word.kind.isKeyword .FROM && (interval? field.text).isSome && decide (e ≠ .nil)
  | _ => false

/-- A call of this form is replaced by one for the interval of the field. -/
def replaced? (l : Leaf) : Grouping → Option Replacement
  | .leaf field (.leaf word e) =>
    if isSpelled l.cell && isFormed (.leaf field (.leaf word e)) then
      (interval? field.text).map fun interval =>
        ⟨.word "DatePart".toList, some (intervalLeaf interval), .leaf field (.leaf word .nil), e, .nil⟩
    else none
  | _ => none

variable {l : Leaf} {inside : Grouping} {r : Replacement} {c : Call} {x : Leaf × Grouping}

theorem replaced?_eq_some (h : replaced? l inside = some r) : isSpelled l.cell = true ∧
    ∃ field word e interval, inside = .leaf field (.leaf word e) ∧ field.kind.isIdentifier = true ∧
      word.kind.isKeyword .FROM = true ∧ interval? field.text = some interval ∧ e ≠ .nil ∧
      r = ⟨.word "DatePart".toList, some (intervalLeaf interval), .leaf field (.leaf word .nil), e, .nil⟩ := by
  unfold replaced? at h
  split at h
  · next field word e =>
    split at h
    · next hform =>
      obtain ⟨interval, hi, hr⟩ := Option.map_eq_some_iff.1 h
      simp only [isFormed, Bool.and_eq_true, decide_eq_true_eq] at hform
      exact ⟨hform.1, field, word, e, interval, rfl, hform.2.1.1.1, hform.2.1.1.2, hi, hform.2.2, hr.symm⟩
    · cases h
  · cases h

theorem isFormed_of_replaced? (h : replaced? l inside = some r) : isFormed inside = true := by
  obtain ⟨-, field, word, e, interval, rfl, hfield, hword, hi, he, -⟩ := replaced?_eq_some h
  simp [isFormed, hfield, hword, hi, he]

theorem exists_replaced? (hname : isSpelled l.cell = true) (h : isFormed inside = true) : ∃ r, replaced? l inside = some r := by
  unfold isFormed at h
  split at h
  · next field word e =>
    have hi : (interval? field.text).isSome = true := by
      simp only [Bool.and_eq_true] at h
      exact h.1.2
    obtain ⟨interval, hi⟩ := Option.isSome_iff_exists.1 hi
    refine ⟨⟨.word "DatePart".toList, some (intervalLeaf interval), .leaf field (.leaf word .nil), e, .nil⟩, ?_⟩
    rw [replaced?, isFormed, hname, h, Bool.and_self, if_pos rfl, hi]
    rfl
  · cases h

theorem inside_eq (h : replaced? l inside = some r) : inside = r.before.append (r.kept.append r.behind) := by
  obtain ⟨-, field, word, e, interval, rfl, -, -, -, -, rfl⟩ := replaced?_eq_some h
  show Grouping.leaf field (.leaf word e) = .leaf field (.leaf word (e.append .nil))
  rw [e.append_nil]

theorem calls_kept (h : replaced? l inside = some r) : ∀ x ∈ r.kept.calls false, x ∈ inside.calls false := by
  obtain ⟨-, field, word, e, interval, rfl, -, hword, -, -, rfl⟩ := replaced?_eq_some h
  intro x hx
  obtain ⟨xs, hcalls, -⟩ := Grouping.calls_leaf_of_not_dot (Leaf.isSymbol_of_isKeyword hword .dot) e (field.isSymbol .dot)
  rw [Grouping.calls_leaf_of_ne (fun _ _ h => by cases h), hcalls]
  exact List.mem_append_right _ hx

/-- The change of calls of `EXTRACT` into calls of `DatePart`, with the field as their first argument. -/
def rewriting : Rewriting where
  replaced? := replaced?
  inside_eq := inside_eq
  calls_kept := calls_kept

/-- The edits of a call, if it has the form. -/
def edits (c : Call) : List Edit :=
  (callEdit c).toOption.toList

theorem exists_error (h : ∀ t u v es, c.args = t :: u :: v :: es → t.kind.isIdentifier = true →
    u.isKeyword .FROM = true → interval? t.text = none) : ∃ err, callEdit c = .error err := by
  unfold callEdit
  split
  · next t u v es hargs =>
    split
    · next hform =>
      rw [h t u v es hargs hform.1 hform.2]
      exact ⟨_, rfl⟩
    · exact ⟨_, rfl⟩
  · exact ⟨_, rfl⟩

/-- A call has an edit just if it has the form: the front up to `FROM` makes room for that of another call. -/
theorem callEdit_cases (hc : c.IsRead x) :
    (isFormed x.2 = false ∧ ∃ err, callEdit c = .error err) ∨
      ∃ (field word : Leaf) (e : Grouping) (interval : SqlText) (t u : Token) (es : List Token),
        x.2 = .leaf field (.leaf word e) ∧ field.kind.isIdentifier = true ∧ word.kind.isKeyword .FROM = true ∧
          interval? field.text = some interval ∧ e ≠ .nil ∧ c.args = t :: u :: es ∧ t.cell = field.cell ∧
          u.cell = word.cell ∧ Reads (c.opening.depth + 1) e.cells es ∧
          callEdit c = .ok ⟨⟨c.name.start, u.stop⟩, "DatePart('".toList ++ interval ++ "',".toList⟩ := by
  obtain ⟨l, inside⟩ := x
  have hargs : Reads (c.opening.depth + 1) inside.cells c.args := hc.args
  -- whether the first two tokens are a name and the word is seen from their cells
  cases inside with
  | nil =>
    rw [Grouping.cells, Reads.nil_iff] at hargs
    refine .inl ⟨rfl, exists_error fun t u v es h _ _ => ?_⟩
    rw [hargs] at h
    cases h
  | comma rest =>
    obtain ⟨t, ts, hts, ht, -⟩ := Grouping.reads_comma hargs
    refine .inl ⟨rfl, exists_error fun t' u v es h hfield _ => ?_⟩
    obtain ⟨rfl, -⟩ := List.cons.inj (hts.symm.trans h)
    rw [(Cell.token.inj ht).1] at hfield
    cases hfield
  | group inner rest =>
    obtain ⟨t, _, _, _, hts, ht, -⟩ := Grouping.reads_group hargs
    refine .inl ⟨rfl, exists_error fun t' u v es h hfield _ => ?_⟩
    obtain ⟨rfl, -⟩ := List.cons.inj (hts.symm.trans h)
    rw [(Cell.token.inj ht).1] at hfield
    cases hfield
  | leaf field rest =>
    obtain ⟨t, ts, hts, hk, hw, -, hrest⟩ := Grouping.reads_leaf hargs
    have ht : t.cell = field.cell := by rw [Token.cell, hk, hw, Leaf.cell]
    cases rest with
    | nil =>
      rw [Grouping.cells, Reads.nil_iff] at hrest
      refine .inl ⟨rfl, exists_error fun t' u v es h _ _ => ?_⟩
      rw [hts, hrest] at h
      cases h
    | comma rest =>
      obtain ⟨u, us, hus, hu, -⟩ := Grouping.reads_comma hrest
      refine .inl ⟨rfl, exists_error fun t' u' v es h _ hword => ?_⟩
      rw [hts, hus] at h
      obtain ⟨rfl, -⟩ := List.cons.inj (List.cons.inj h).2
      rw [Token.isKeyword, (Cell.token.inj hu).1] at hword
      cases hword
    | group inner rest =>
      obtain ⟨u, _, _, _, hus, hu, -⟩ := Grouping.reads_group hrest
      refine .inl ⟨rfl, exists_error fun t' u' v es h _ hword => ?_⟩
      rw [hts, hus] at h
      obtain ⟨rfl, -⟩ := List.cons.inj (List.cons.inj h).2
      rw [Token.isKeyword, (Cell.token.inj hu).1] at hword
      cases hword
    | leaf word e =>
      obtain ⟨u, es, hus, hk', hw', -, hes⟩ := Grouping.reads_leaf hrest
      have hu : u.cell = word.cell := by rw [Token.cell, hk', hw', Leaf.cell]
      have hall : c.args = t :: u :: es := by rw [hts, hus]
      by_cases hform : isFormed (.leaf field (.leaf word e)) = true
      · right
        simp only [isFormed, Bool.and_eq_true, decide_eq_true_eq] at hform
        obtain ⟨⟨⟨hfield, hword⟩, hi⟩, he⟩ := hform
        obtain ⟨interval, hi⟩ := Option.isSome_iff_exists.1 hi
        refine ⟨field, word, e, interval, t, u, es, rfl, hfield, hword, hi, he, hall, ht, hu, hes, ?_⟩
        obtain ⟨v, es, rfl⟩ : ∃ v vs, es = v :: vs := by
          refine List.exists_cons_of_ne_nil fun hnil => he ?_
          rw [hnil] at hes
          exact Grouping.cells_eq_nil_iff.1 hes.cells.symm
        rw [callEdit, hall]
        simp only [hk, hw, hfield, Token.isKeyword, hk', hword, hi, and_self, if_true]
      · refine .inl ⟨Bool.eq_false_iff.2 hform, exists_error fun t' u' v vs h hfield hword => ?_⟩
        rw [hall] at h
        obtain ⟨rfl, hrest⟩ := List.cons.inj h
        obtain ⟨rfl, rfl⟩ := List.cons.inj hrest
        have he : e ≠ .nil := by
          rintro rfl
          rw [Grouping.cells, Reads.nil_iff] at hes
          cases hes
        rw [hk] at hfield
        rw [Token.isKeyword, hk'] at hword
        rw [hw]
        by_contra hi
        exact hform (by simp [isFormed, hfield, hword, Option.isSome_iff_ne_none.2 hi, he])

theorem isClear (g : Grouping) : rewriting.IsClear false g := by
  intro x _ r hr
  obtain ⟨-, field, word, e, interval, -, -, -, -, -, rfl⟩ := replaced?_eq_some hr
  exact List.forall_mem_nil _

theorem handles : rewriting.Handles isSpelled edits Swapped where
  naming := ⟨by decide, by decide, by decide⟩
  harmless := harmless _
  plain := by
    intro X D Y N h c hc
    rcases h.plain_or c hc with hplain | ⟨-, interval, -, rfl⟩
    · exact hplain _ Cell.spares_isFault
    · rfl
  replaces := by
    rintro X D Y N ⟨⟩
    exact List.cons_ne_nil _ _
  named := fun h => (replaced?_eq_some h).1
  left := by
    intro c x hc hname hnone
    rcases callEdit_cases hc with ⟨-, err, herr⟩ | ⟨field, word, e, interval, t, u, es, hx, hfield, hword, hi, he, -⟩
    · rw [edits, herr]
      rfl
    · have hform : isFormed x.2 = true := by simp [hx, isFormed, hfield, hword, hi, he]
      obtain ⟨r, hr⟩ := exists_replaced? hname hform
      cases hr.symm.trans hnone
  replaced := by
    intro q tail c x r as bs hread hq hc hopening hclosing hr _
    rcases callEdit_cases hc with ⟨hform, -⟩ | ⟨field, word, e, interval, t, u, es, hx, hfield, hword, hi, he, hargs, ht, hu, hes, hedit⟩
    · rw [isFormed_of_replaced? hr] at hform
      cases hform
    obtain ⟨hname, field', word', e', interval', hx', -, -, hi', -, rfl⟩ := replaced?_eq_some hr
    obtain ⟨rfl, hrest⟩ := Grouping.leaf.inj (hx.symm.trans hx')
    obtain ⟨rfl, rfl⟩ := Grouping.leaf.inj hrest
    obtain rfl := Option.some.inj (hi.symm.trans hi')
    have hname : c.name.spells "extract".toList = true := by
      rw [← hc.name] at hname
      exact hname
    have hopened : c.opening.isSymbol .leftParen = true := Token.isSymbol_of_cell hopening
    have hkeyword : u.isKeyword .FROM = true := by
      rw [Token.isKeyword, (Cell.token.inj hu).1]
      exact hword
    have hq' : q.tokens = as ++ c.name :: ([c.opening, t, u] ++ (es ++ c.closing :: bs)) := by
      rw [hq, Call.tokens, hargs]
      simp
    have hfirst := Patched.swap (R := Swapped) hread hq'
      (.front hname hopened (by rw [(Cell.token.inj ht).1]; exact hfield) hkeyword (by rw [(Cell.token.inj ht).2]; exact hi)) 0
    -- neither the field nor `FROM` makes a call
    have hsplit : q.tokens = (as ++ [c.name, c.opening, t]) ++ u :: (es ++ c.closing :: bs) := by
      rw [hq, Call.tokens, hargs]
      simp
    have hnot : isSpelled u.cell = false :=
      (Token.sameWord_of_isKeyword (hread.fits hsplit) hkeyword _).trans (by decide)
    have hcalls : Call.among (fun t => isSpelled t.cell) false c.args = Call.among (fun t => isSpelled t.cell) false es := by
      rw [hargs, Call.among_cons, Call.among_cons_of_not hnot, Token.isSymbol_eq_false_of_isKeyword hkeyword]
      rintro v ⟨⟩
      exact Token.isSymbol_eq_false_of_isKeyword hkeyword
    refine ⟨[t, u], es, [], _, [], by rw [hargs]; simp, hes, ?_, by rw [hcalls], hfirst, ?_⟩
    · rw [edits, hedit, List.append_nil]
      show [_] = [_]
      simp [Token.stopOr]
    · rw [← hclosing]
      exact Patched.kept _

/-- A call with a field and an operand is one for the interval of the field. -/
theorem translated_call {field word : Leaf} {e : Grouping} {interval : SqlText} (hname : isSpelled l.cell = true)
    (hform : isFormed (.leaf field (.leaf word e)) = true) (hi : interval? field.text = some interval) (rest : Grouping) :
    rewriting.translated false (.leaf l (.group (.leaf field (.leaf word e)) rest)) = .leaf (.word "DatePart".toList)
      (.group (.leaf (intervalLeaf interval) (.comma (rewriting.translated false e))) (rewriting.translated false rest)) := by
  refine Rewriting.translated_call (W := rewriting) (r := ⟨.word "DatePart".toList, some (intervalLeaf interval),
    .leaf field (.leaf word .nil), e, .nil⟩) ?_ rest
  show replaced? l (.leaf field (.leaf word e)) = _
  rw [replaced?, hname, hform, Bool.and_self, if_pos rfl, hi]
  rfl

theorem mapM_callEdit {cs : List Call} (h : ∀ c ∈ cs, ∃ e, callEdit c = .ok e) :
    cs.mapM callEdit = .ok (cs.flatMap edits) := by
  induction cs with
  | nil => rfl
  | cons c cs ih =>
    obtain ⟨⟨e, he⟩, hcs⟩ := List.forall_mem_cons.1 h
    rw [List.mapM_cons, he, ih hcs, List.flatMap_cons, edits, he]
    rfl

/-- All calls are translated, if all have the form. -/
theorem convert_eq {text : SqlText} {q : Query} {g : Grouping} (hq : Query.ofText text = .ok q)
    (h : Reads 0 g.cells q.tokens)
    (hform : ∀ x ∈ g.calls false, isSpelled x.1.cell = true → isFormed x.2 = true) :
    ∃ out q', convert text = .ok out ∧ Query.ofText out = .ok q' ∧
      Reads 0 (rewriting.translated false g).cells q'.tokens := by
  obtain ⟨out, q', hout, hq', hreads⟩ := handles.applied hq h (isClear g)
  refine ⟨out, q', ?_, hq', hreads⟩
  have hedits : (q.calls fun t => t.spells "extract".toList).mapM callEdit
      = .ok ((q.calls fun t => isSpelled t.cell).flatMap edits) := by
    refine mapM_callEdit fun c hc => ?_
    obtain ⟨x, hx, hname, hcx⟩ := Call.exists_of_mem_among (P := isSpelled) handles.naming h hc
    rcases callEdit_cases hcx with ⟨hnot, -⟩ | ⟨field, word, e, interval, t, u, es, -, -, -, -, -, -, -, -, -, hedit⟩
    · rw [hform x hx hname] at hnot
      cases hnot
    · exact ⟨_, hedit⟩
  rw [convert, hq]
  show ((q.calls fun t => t.spells "extract".toList).mapM callEdit >>= fun edits => Edit.applyAll edits text) = .ok out
  rw [hedits]
  exact hout

end Extract

/-! ### Casts -/

namespace Cast

/-- Whether a cell is the name of a cast. -/
def isName : Cell → Bool
  | .token k _ => k.isKeyword .CAST
  | .gap _ => false

/-- What stands before the last `AS` outside of all groups, the word itself, and what stands behind it. -/
def lastAs? : Grouping → Option (Grouping × Leaf × Grouping)
  | .nil => none
  | .leaf l rest =>
    match lastAs? rest with
    | some (e, word, type) => some (.leaf l e, word, type)
    | none => if l.kind.isKeyword .AS then some (.nil, l, rest) else none
  | .comma rest => (lastAs? rest).map fun (e, word, type) => (.comma e, word, type)
  | .group inside rest => (lastAs? rest).map fun (e, word, type) => (.group inside e, word, type)

/-- The names that a type starts with, up to its length or precision. -/
def names : Grouping → List SqlText
  | .leaf l rest => if l.kind.isIdentifier then l.text :: names rest else []
  | _ => []

/-- The conversion function for a type. -/
def function? (type : Grouping) : Option SqlText :=
  conversion? (Text.joinWith [' '] ((names type).map Text.lower))

/-- A call with an operand, and with a type that some function converts to, is replaced by the call of that function. -/
def replaced? (l : Leaf) (inside : Grouping) : Option Replacement :=
  match lastAs? inside with
  | some (e, word, type) =>
    if isName l.cell && decide (e ≠ .nil) then
      (function? type).map fun function => ⟨.word function, none, .nil, e, .leaf word type⟩
    else none
  | none => none

variable {l word : Leaf} {inside e type g rest : Grouping} {r : Replacement} {c : Call} {x : Leaf × Grouping} {d : Nat}
  {ts : List Token}

theorem lastAs?_eq_some (h : lastAs? g = some (e, word, type)) :
    g = e.append (.leaf word type) ∧ word.kind.isKeyword .AS = true ∧ lastAs? type = none := by
  fun_induction lastAs? g generalizing e with
  | case1 => cases h
  | case2 l rest e' word' type' hrest ih =>
    obtain ⟨rfl, rfl, rfl⟩ : Grouping.leaf l e' = e ∧ word' = word ∧ type' = type := by simpa using h
    obtain ⟨rfl, hword, htype⟩ := ih hrest
    exact ⟨rfl, hword, htype⟩
  | case3 l rest hrest hl ih =>
    obtain ⟨rfl, rfl, rfl⟩ : Grouping.nil = e ∧ l = word ∧ rest = type := by simpa using h
    exact ⟨rfl, hl, hrest⟩
  | case4 => cases h
  | case5 rest ih =>
    obtain ⟨⟨e', word', type'⟩, hrest, heq⟩ := Option.map_eq_some_iff.1 h
    obtain ⟨rfl, rfl, rfl⟩ : Grouping.comma e' = e ∧ word' = word ∧ type' = type := by simpa using heq
    obtain ⟨rfl, hword, htype⟩ := ih hrest
    exact ⟨rfl, hword, htype⟩
  | case6 inside rest ih =>
    obtain ⟨⟨e', word', type'⟩, hrest, heq⟩ := Option.map_eq_some_iff.1 h
    obtain ⟨rfl, rfl, rfl⟩ : Grouping.group inside e' = e ∧ word' = word ∧ type' = type := by simpa using heq
    obtain ⟨rfl, hword, htype⟩ := ih hrest
    exact ⟨rfl, hword, htype⟩

/-- Before a type without `AS`, the word is the last one. -/
theorem lastAs?_append (hword : word.kind.isKeyword .AS = true) (htype : lastAs? type = none) (e : Grouping) :
    lastAs? (e.append (.leaf word type)) = some (e, word, type) := by
  induction e with
  | nil => simp [Grouping.append, lastAs?, htype, hword]
  | leaf l rest ih => simp [Grouping.append, lastAs?, ih]
  | comma rest ih => simp [Grouping.append, lastAs?, ih]
  | group inside rest _ ih => simp [Grouping.append, lastAs?, ih]

theorem not_as_of_reads (h : Reads d g.cells ts) (hnone : lastAs? g = none) :
    ∀ t ∈ ts, t.isKeywordAt d .AS = false := by
  have hsign : ∀ {t : Token} {c : Char}, t.cell = Cell.sign c → (Lexeme.charKind c).isKeyword .AS = false →
      t.isKeywordAt d .AS = false := by
    intro t c ht hc
    rw [Token.isKeywordAt, Token.isKeyword, (Cell.token.inj ht).1, hc, Bool.and_false]
  induction g generalizing ts with
  | nil =>
    obtain rfl := Reads.nil_iff.1 h
    exact List.forall_mem_nil _
  | leaf l rest ih =>
    obtain ⟨t, us, rfl, hk, -, -, hus⟩ := Grouping.reads_leaf h
    rw [lastAs?] at hnone
    split at hnone
    · cases hnone
    · next hrest =>
      refine List.forall_mem_cons.2 ⟨?_, ih hus hrest⟩
      rw [Token.isKeywordAt, Token.isKeyword, hk, Bool.and_eq_false_iff]
      right
      split at hnone
      · cases hnone
      · next hl => exact Bool.eq_false_iff.2 hl
  | comma rest ih =>
    obtain ⟨t, us, rfl, ht, -, hus⟩ := Grouping.reads_comma h
    exact List.forall_mem_cons.2 ⟨hsign ht rfl, ih hus (Option.map_eq_none_iff.1 hnone)⟩
  | group inside rest _ ih =>
    obtain ⟨opening, us, closing, vs, rfl, hopening, -, hus, hclosing, -, hvs⟩ := Grouping.reads_group h
    refine List.forall_mem_cons.2 ⟨hsign hopening rfl, List.forall_mem_append.2 ⟨fun t ht => ?_, List.forall_mem_cons.2
      ⟨hsign hclosing rfl, ih hvs (Option.map_eq_none_iff.1 hnone)⟩⟩⟩
    have hdeep := hus.level.le t ht
    have hne : t.depth ≠ d := by omega
    simp [Token.isKeywordAt, hne]

/-- The last `AS` of a call is found among its tokens. -/
theorem splitLast_cases (h : Reads d g.cells ts) :
    (lastAs? g = none ∧ Token.splitLast (Token.isKeywordAt d .AS) ts = none) ∨
      ∃ (e : Grouping) (word : Leaf) (type : Grouping) (es : List Token) (u : Token) (us : List Token),
        lastAs? g = some (e, word, type) ∧ Token.splitLast (Token.isKeywordAt d .AS) ts = some (es, u, us) ∧
          ts = es ++ u :: us ∧ Reads d e.cells es ∧ u.cell = word.cell ∧ u.isKeyword .AS = true ∧ Reads d type.cells us := by
  cases hlast : lastAs? g with
  | none =>
    refine .inl ⟨rfl, ?_⟩
    rw [Token.splitLast, Token.splitFirst_of_not (by simpa using not_as_of_reads h hlast)]
    rfl
  | some x =>
    obtain ⟨e, word, type⟩ := x
    obtain ⟨rfl, hword, htype⟩ := lastAs?_eq_some hlast
    rw [Grouping.cells_append] at h
    obtain ⟨es, vs, rfl, hes, hvs⟩ := h.append e.balanced
    obtain ⟨u, us, rfl, hk, hw, hd, hus⟩ := Grouping.reads_leaf hvs
    have hu : u.isKeyword .AS = true := by rw [Token.isKeyword, hk, hword]
    refine .inr ⟨e, word, type, es, u, us, rfl, Token.splitLast_append_of_not ?_ (not_as_of_reads hus htype), rfl, hes, ?_,
      hu, hus⟩
    · simp [Token.isKeywordAt, hd, hu]
    · rw [Token.cell, hk, hw, Leaf.cell]

theorem typeName_eq (h : Reads d type.cells ts) : typeName ts = Text.joinWith [' '] ((names type).map Text.lower) := by
  have hnames : ((ts.takeWhile fun t => t.kind.isIdentifier).map fun t => t.text) = names type := by
    induction type generalizing ts with
    | nil =>
      obtain rfl := Reads.nil_iff.1 h
      rfl
    | leaf l rest ih =>
      obtain ⟨t, us, rfl, hk, hw, -, hus⟩ := Grouping.reads_leaf h
      rw [List.takeWhile_cons, hk, names]
      split
      · rw [List.map_cons, hw, ih hus]
      · rfl
    | comma rest =>
      obtain ⟨t, us, rfl, ht, -⟩ := Grouping.reads_comma h
      rw [List.takeWhile_cons, (Cell.token.inj ht).1]
      rfl
    | group inside rest =>
      obtain ⟨t, _, _, _, rfl, ht, -⟩ := Grouping.reads_group h
      rw [List.takeWhile_cons, (Cell.token.inj ht).1]
      rfl
  rw [typeName, ← hnames, List.map_map]
  rfl

theorem replaced?_eq_some (h : replaced? l inside = some r) : isName l.cell = true ∧
    ∃ e word type function, lastAs? inside = some (e, word, type) ∧ e ≠ .nil ∧ function? type = some function ∧
      r = ⟨.word function, none, .nil, e, .leaf word type⟩ := by
  unfold replaced? at h
  split at h
  · next e word type hlast =>
    split at h
    · next hform =>
      obtain ⟨function, hfound, hr⟩ := Option.map_eq_some_iff.1 h
      obtain ⟨hname, he⟩ : isName l.cell = true ∧ e ≠ .nil := by simpa using hform
      exact ⟨hname, e, word, type, function, hlast, he, hfound, hr.symm⟩
    · cases h
  · cases h

theorem replaced?_of_not (h : isName l.cell = false) (inside : Grouping) : replaced? l inside = none := by
  rw [replaced?, h]
  split <;> rfl

theorem replaced?_of_as (h : word.kind.isKeyword .AS = true) (inside : Grouping) : replaced? word inside = none := by
  refine replaced?_of_not ?_ inside
  rw [Leaf.cell, Leaf.kind_of_isKeyword h]
  rfl

theorem inside_eq (h : replaced? l inside = some r) : inside = r.before.append (r.kept.append r.behind) := by
  obtain ⟨-, e, word, type, function, hlast, -, -, rfl⟩ := replaced?_eq_some h
  exact (lastAs?_eq_some hlast).1

theorem calls_kept (h : replaced? l inside = some r) : ∀ x ∈ r.kept.calls false, x ∈ inside.calls false := by
  obtain ⟨-, e, word, type, function, hlast, -, -, rfl⟩ := replaced?_eq_some h
  obtain ⟨rfl, -⟩ := lastAs?_eq_some hlast
  obtain ⟨b, hcalls⟩ := Grouping.calls_append_leaf e type word false
  intro x hx
  rw [hcalls]
  exact List.mem_append_left _ hx

/-- The change of casts into calls of conversion functions, without the type. -/
def rewriting : Rewriting where
  replaced? := replaced?
  inside_eq := inside_eq
  calls_kept := calls_kept

/-- A call has edits just if it is replaced. -/
theorem callEdits_cases (hc : c.IsRead x) (hname : isName x.1.cell = true) :
    (replaced? x.1 x.2 = none ∧ callEdits c = []) ∨
      ∃ (e : Grouping) (word : Leaf) (type : Grouping) (function : SqlText) (es : List Token) (u : Token) (us : List Token),
        replaced? x.1 x.2 = some ⟨.word function, none, .nil, e, .leaf word type⟩ ∧ c.args = es ++ u :: us ∧ es ≠ [] ∧
          Reads (c.opening.depth + 1) e.cells es ∧ word.kind.isKeyword .AS = true ∧ u.isKeyword .AS = true ∧
          Reads (c.opening.depth + 1) type.cells us ∧ conversion? (typeName us) = some function ∧
          callEdits c = [⟨⟨c.name.start, c.opening.stop⟩, function ++ ['(']⟩,
            ⟨⟨Token.stopOr c.opening.stop es, c.closing.start⟩, []⟩] := by
  rcases splitLast_cases hc.args with ⟨hnone, hsplit⟩ | ⟨e, word, type, es, u, us, hlast, hsplit, hargs, hes, -, hu, hus⟩
  · refine .inl ⟨by rw [replaced?, hnone], ?_⟩
    rw [callEdits, hsplit]
  have hempty : es = [] ↔ e = .nil := by rw [← Grouping.cells_eq_nil_iff, ← hes.cells, List.map_eq_nil_iff]
  by_cases he : e = .nil
  · refine .inl ⟨by simp [replaced?, hlast, he], ?_⟩
    rw [callEdits, hsplit]
    exact if_pos (hempty.2 he)
  have hes' : es ≠ [] := fun h => he (hempty.1 h)
  have hfunction : function? type = conversion? (typeName us) := by rw [function?, typeName_eq hus]
  cases hfound : conversion? (typeName us) with
  | none =>
    refine .inl ⟨by simp [replaced?, hlast, hfunction, hfound], ?_⟩
    rw [callEdits, hsplit]
    simp only [if_neg hes', hfound]
  | some function =>
    refine .inr ⟨e, word, type, function, es, u, us, ?_, hargs, hes', hes, (lastAs?_eq_some hlast).2.1, hu, hus, hfound, ?_⟩
    · simp [replaced?, hlast, hname, he, hfunction, hfound]
    · rw [callEdits, hsplit]
      simp only [if_neg hes', hfound]

theorem isNaming : Cell.IsNaming isName :=
  ⟨by decide, by decide, by decide⟩

theorem callEdits_eq_nil (hc : c.IsRead x) (hname : isName x.1.cell = true) (hnone : replaced? x.1 x.2 = none) :
    callEdits c = [] := by
  rcases callEdits_cases hc hname with ⟨-, hedits⟩ | ⟨e, word, type, function, es, u, us, hr, -⟩
  · exact hedits
  · cases hr.symm.trans hnone

/-- The calls in an operand and in a type. -/
theorem among_as {es us : List Token} {u : Token} (hes : Reads d e.cells es) (hu : u.isKeyword .AS = true) :
    Call.among (fun t => isName t.cell) false (es ++ u :: us)
      = Call.among (fun t => isName t.cell) false es ++ Call.among (fun t => isName t.cell) false us := by
  have hk : u.kind = .keyword .AS := Kind.isKeyword_iff.1 hu
  have hnot : isName u.cell = false := by
    rw [Token.cell, hk]
    rfl
  exact Call.among_append hes.level.run hes.level.le (Token.isSymbol_eq_false_of_isKeyword hu)
    (Token.isSymbol_eq_false_of_isKeyword hu) hnot false

/-- The type before the end of a call goes. -/
theorem patched_type {q : Query} {tail : List Cell} {as bs es us : List Token} {u : Token} (hread : q.IsRead tail)
    (hq : q.tokens = as ++ (c.tokens ++ bs)) (hargs : c.args = es ++ u :: us) (hne : es ≠ [])
    (hu : u.isKeyword .AS = true) (hclosing : c.closing.cell = Cell.sign ')') :
    Patched Swapped tail (as ++ c.name :: c.opening :: es) (u :: us ++ [c.closing]) bs
      [⟨⟨Token.stopOr c.opening.stop es, c.closing.start⟩, []⟩] [Cell.sign ')'] := by
  obtain ⟨t, ts, rfl⟩ := List.exists_cons_of_ne_nil hne
  have hfront : q.tokens = (as ++ [c.name, c.opening]) ++ (t :: ts ++ (u :: us ++ c.closing :: bs)) := by
    rw [hq, Call.tokens, hargs]
    simp
  have hback : q.tokens = (as ++ c.name :: c.opening :: (t :: ts ++ u :: us)) ++ c.closing :: bs := by
    rw [hq, Call.tokens, hargs]
    simp
  obtain ⟨-, -, hstop⟩ := hread.split hfront
  obtain ⟨-, hstart, -⟩ := hread.split_one hback
  have hswap := Edit.Patches.swap (R := Swapped) (Z := Token.cells bs ++ tail)
    (X := Token.cells (as ++ c.name :: c.opening :: t :: ts)) (D := Token.cells (u :: us) ++ ofGap c.closing.gap)
    (Y := [c.closing.cell]) (.type hu (Cell.token.inj hclosing).2) (.keep .nil)
  refine ⟨_, [c.closing.cell], ?_, ?_, .refl _⟩
  · rw [hstop, hstart]
    simpa using hswap
  · rw [← hclosing]
    rfl

theorem handles : rewriting.Handles isName callEdits Swapped where
  naming := isNaming
  harmless := harmless _
  plain := fun h c hc => h.plain c hc _ Cell.spares_isFault
  replaces := by
    rintro X D Y N h
    cases h with
    | name => exact List.cons_ne_nil _ _
    | type => simp
  named := fun h => (replaced?_eq_some h).1
  left := callEdits_eq_nil
  replaced := by
    intro q tail c x r as bs hread hq hc hopening hclosing hr hclear
    obtain ⟨hname, -⟩ := replaced?_eq_some hr
    rcases callEdits_cases hc hname with
      ⟨hnone, -⟩ | ⟨e, word, type, function, es, u, us, hr', hargs, hne, hes, hword, hu, hus, hfound, hedits⟩
    · cases hr.symm.trans hnone
    obtain rfl := Option.some.inj (hr.symm.trans hr')
    have hname : c.name.isKeyword .CAST = true := by
      rw [← hc.name] at hname
      exact hname
    have hopened : c.opening.isSymbol .leftParen = true := Token.isSymbol_of_cell hopening
    have hq' : q.tokens = as ++ c.name :: ([c.opening] ++ (es ++ (u :: us ++ c.closing :: bs))) := by
      rw [hq, Call.tokens, hargs]
      simp
    have hfirst := Patched.swap (R := Swapped) hread hq' (.name hname hopened hfound) 0
    have htype : (Call.among (fun t => isName t.cell) false us).flatMap callEdits = [] := by
      refine Rewriting.flatMap_eq_nil (W := rewriting) isNaming callEdits_eq_nil hus fun y hy _ => hclear y ?_
      obtain ⟨xs, hcalls, -⟩ := Grouping.calls_leaf_of_not_dot (Leaf.isSymbol_of_isKeyword hword .dot) type false
      rw [hcalls]
      exact List.mem_append_right _ hy
    have hcalls : (Call.among (fun t => isName t.cell) false c.args).flatMap callEdits
        = (Call.among (fun t => isName t.cell) false es).flatMap callEdits := by
      rw [hargs, among_as hes hu, List.flatMap_append, htype, List.append_nil]
    refine ⟨[], es, u :: us, _, _, by rw [hargs]; rfl, hes, hedits.trans (List.singleton_append ..).symm, hcalls, ?_,
      patched_type hread hq hargs hne hu hclosing⟩
    show Patched Swapped tail as [c.name, c.opening] (es ++ (u :: us ++ c.closing :: bs)) _ _
    exact hfirst

/-- Whether a call has an operand and a type behind `AS`, and no cast in the type. -/
def isFormed (inside : Grouping) : Bool :=
  match lastAs? inside with
  | some (e, _, type) => decide (e ≠ .nil) && (type.calls false).all fun x => !isName x.1.cell
  | none => false

theorem isClear (h : ∀ x ∈ g.calls false, isName x.1.cell = true → isFormed x.2 = true) : rewriting.IsClear false g := by
  intro x hx r hr y hy
  obtain ⟨hname, e, word, type, function, hlast, -, -, rfl⟩ := replaced?_eq_some hr
  have hform := h x hx hname
  rw [isFormed, hlast] at hform
  simp only [Bool.and_eq_true, List.all_eq_true, Bool.not_eq_true'] at hform
  obtain ⟨xs, hcalls, hxs⟩ := Grouping.calls_leaf_of_not_dot (Leaf.isSymbol_of_isKeyword (lastAs?_eq_some hlast).2.1 .dot)
    type false
  have hy : y ∈ xs ++ type.calls false := by rwa [← hcalls]
  rcases List.mem_append.1 hy with hy | hy
  · rw [hxs y hy]
    exact replaced?_of_as (lastAs?_eq_some hlast).2.1 _
  · exact replaced?_of_not (hform.2 y hy) _

/-- A cast is a call of the conversion function, if there is one for the type; otherwise it stays a cast. -/
theorem translated_call (hname : isName l.cell = true) (hword : word.kind.isKeyword .AS = true) (htype : lastAs? type = none)
    (he : e ≠ .nil) (rest : Grouping) :
    rewriting.translated false (.leaf l (.group (e.append (.leaf word type)) rest)) =
      match function? type with
      | some function =>
        .leaf (.word function) (.group (rewriting.translated false e) (rewriting.translated false rest))
      | none =>
        .leaf l (.group ((rewriting.translated false e).append (.leaf word (rewriting.translated false type)))
          (rewriting.translated false rest)) := by
  have hlast := lastAs?_append hword htype e
  have hreplaced : replaced? l (e.append (.leaf word type))
      = (function? type).map fun function => ⟨.word function, none, .nil, e, .leaf word type⟩ := by
    simp [replaced?, hlast, hname, he]
  split
  · next function hfound =>
    rw [hfound] at hreplaced
    exact Rewriting.translated_call (W := rewriting) hreplaced rest
  · next hnone =>
    rw [hnone] at hreplaced
    rw [Rewriting.translated_kept_call (W := rewriting) (.inr hreplaced),
      Rewriting.translated_append_leaf (replaced?_of_as hword) (Leaf.isSymbol_of_isKeyword hword .dot)]

theorem convert_eq {text : SqlText} {q : Query} (hq : Query.ofText text = .ok q)
    (h : Reads 0 g.cells q.tokens) (hclear : rewriting.IsClear false g) :
    ∃ out q', convert text = .ok out ∧ Query.ofText out = .ok q' ∧
      Reads 0 (rewriting.translated false g).cells q'.tokens := by
  obtain ⟨out, q', hout, hq', hreads⟩ := handles.applied hq h hclear
  refine ⟨out, q', ?_, hq', hreads⟩
  rw [convert, hq]
  exact hout

end Cast

/-! ### All three -/

/-- Whether a rule makes of a text one with these tokens. -/
def Rule.Yields (r : Rule) (text : SqlText) (g : Grouping) : Prop :=
  ∃ out q, r.apply text = .ok out ∧ Query.ofText out = .ok q ∧ q.tokens.map Token.cell = g.cells

/-- **Functions are translated however deep they are nested, all at once.**  Letter case functions always, casts where each
has an operand and a type without casts, and parts of dates where each has a known field and an operand: then the rule does
not fail, and the tokens of its result are those of the text with every call replaced, its operand likewise. -/
theorem Rule.functions_translated {text : SqlText} {q : Query} (hq : Query.ofText text = .ok q) :
    ∃ g : Grouping, (∀ f : Grouping, f.cells = q.tokens.map Token.cell ↔ f = g) ∧
      Rule.upperLower.Yields text (LetterCase.rewriting.translated false g) ∧
      ((∀ x ∈ g.calls false, Cast.isName x.1.cell = true → Cast.isFormed x.2 = true) →
        Rule.cast.Yields text (Cast.rewriting.translated false g)) ∧
      ((∀ x ∈ g.calls false, Extract.isSpelled x.1.cell = true → Extract.isFormed x.2 = true) →
        Rule.extract.Yields text (Extract.rewriting.translated false g)) := by
  obtain ⟨rfl, tail, hread⟩ := Query.isRead hq
  obtain ⟨g, hg⟩ := Grouping.exists_of_isRead hread
  refine ⟨g, fun f => by rw [hg.cells, Grouping.cells_injective.eq_iff], ?_, fun hform => ?_, fun hform => ?_⟩
  · obtain ⟨out, q', hout, hq', hreads⟩ := LetterCase.rename_eq hq hg
    exact ⟨out, q', hout, hq', hreads.cells⟩
  · obtain ⟨out, q', hout, hq', hreads⟩ := Cast.convert_eq hq hg (Cast.isClear hform)
    exact ⟨out, q', hout, hq', hreads.cells⟩
  · obtain ⟨out, q', hout, hq', hreads⟩ := Extract.convert_eq hq hg hform
    exact ⟨out, q', hout, hq', hreads.cells⟩

theorem Rule.functions_translated_nested :
    Rule.upperLower.Yields "CAST(upper(EXTRACT(day FROM d)) AS int)".toList
        (.leaf (.word "CAST".toList) (.group (.leaf (.word "ucase".toList) (.group (.leaf (.word "EXTRACT".toList)
          (.group (.leaf (.word "day".toList) (.leaf (.word "FROM".toList) (.leaf (.word "d".toList) .nil))) .nil))
          (.leaf (.word "AS".toList) (.leaf (.word "int".toList) .nil)))) .nil)) ∧
      Rule.cast.Yields "CAST(upper(EXTRACT(day FROM d)) AS int)".toList
        (.leaf (.word "CLng".toList) (.group (.leaf (.word "upper".toList) (.group (.leaf (.word "EXTRACT".toList)
          (.group (.leaf (.word "day".toList) (.leaf (.word "FROM".toList) (.leaf (.word "d".toList) .nil))) .nil))
          .nil)) .nil)) ∧
      Rule.extract.Yields "CAST(upper(EXTRACT(day FROM d)) AS int)".toList
        (.leaf (.word "CAST".toList) (.group (.leaf (.word "upper".toList) (.group (.leaf (.word "DatePart".toList)
          (.group (.leaf (Extract.intervalLeaf ['d']) (.comma (.leaf (.word "d".toList) .nil))) .nil)) (.leaf (.word
          "AS".toList) (.leaf (.word "int".toList) .nil)))) .nil)) := by
  obtain ⟨q, hq, hcells⟩ := Query.exists_of_cells "CAST(upper(EXTRACT(day FROM d)) AS int)".toList
    (Grouping.cells (.leaf (.word "CAST".toList) (.group (.leaf (.word "upper".toList) (.group (.leaf (.word "EXTRACT".toList)
      (.group (.leaf (.word "day".toList) (.leaf (.word "FROM".toList) (.leaf (.word "d".toList) .nil))) .nil)) (.leaf
      (.word "AS".toList) (.leaf (.word "int".toList) .nil)))) .nil))) (by decide +kernel)
  obtain ⟨g, hg, hrenamed, hcast, hextract⟩ := functions_translated hq
  obtain rfl := (hg _).1 hcells.symm
  refine ⟨?_, ?_, ?_⟩
  · convert hrenamed using 1
    decide +kernel
  · convert hcast (by decide) using 1
    decide +kernel
  · convert hextract (by decide) using 1
    decide +kernel

end JetAdapter
