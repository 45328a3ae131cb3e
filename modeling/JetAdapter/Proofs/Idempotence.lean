import JetAdapter.Proofs.NestedFunctions
import JetAdapter.Proofs.Progress
import JetAdapter.Proofs.Session

/-!
# Rules that leave their own output alone

What a rule for functions makes of a text has no call that the rule would change (`Rule.apply_idempotent`).  A call that was
replaced has another name now.  A call that was left has the name still, and what is inside may have changed; for a cast
that has to be looked at, since a cast that was rewritten may stand in its type (`Cast.replaced?_translated`).  A cast in the
type of one that is rewritten makes the rule fail, for the edits of the two overlap (`Cast.isClear_of_convert`).
-/

namespace JetAdapter

open Token (Reads)

/-! ### Letter case functions -/

namespace LetterCase

theorem isSpelled_jetText (w : SqlText) : isSpelled (Leaf.word (jetText w)).cell = false := by
  unfold jetText
  split <;> split <;> decide

/-- What is renamed has no calls of these functions. -/
theorem calls_eq_nil_of_rename {text out : SqlText} (h : rename text = .ok out) :
    ∃ q, Query.ofText out = .ok q ∧ q.calls isName = [] := by
  obtain ⟨q, hq, -⟩ := Except.bind_eq_ok h
  obtain ⟨rfl, tail, hread⟩ := Query.isRead hq
  obtain ⟨g, hg⟩ := Grouping.exists_of_isRead hread
  obtain ⟨out', q', hout, hq', hreads⟩ := rename_eq hq hg
  obtain rfl := Except.ok.inj (h.symm.trans hout)
  refine ⟨q', hq', List.eq_nil_iff_forall_not_mem.2 fun c hc => ?_⟩
  obtain ⟨x, hx, hname, -⟩ := Call.exists_of_mem_among (P := isSpelled) handles.naming hreads hc
  obtain ⟨y, -, ⟨hleft, rfl⟩ | ⟨r, hr, rfl⟩⟩ := Rewriting.exists_of_mem_calls_translated hx
  · cases hleft.symm.trans (if_pos hname)
  · obtain ⟨-, rfl⟩ := replaced?_eq_some hr
    rw [isSpelled_jetText] at hname
    cases hname

/-- Without calls there is nothing to rename. -/
theorem rename_eq_self {text : SqlText} {q : Query} (hq : Query.ofText text = .ok q) (h : q.calls isName = []) :
    rename text = .ok text := by
  rw [rename, hq]
  show Edit.applyAll ((q.calls isName).map _) text = .ok text
  rw [h]
  rfl

theorem rename_again {text out : SqlText} (h : rename text = .ok out) : rename out = .ok out := by
  obtain ⟨q, hq, hnone⟩ := calls_eq_nil_of_rename h
  exact rename_eq_self hq hnone

end LetterCase

/-! ### Parts of dates -/

namespace Extract

theorem ok_of_mapM_eq_ok {α β ε : Type} {f : α → Except ε β} {xs : List α} {ys : List β} (h : xs.mapM f = .ok ys) :
    ∀ x ∈ xs, ∃ y, f x = .ok y := by
  induction xs generalizing ys with
  | nil => exact List.forall_mem_nil _
  | cons x xs ih =>
    rw [List.mapM_cons] at h
    obtain ⟨y, hy, h⟩ := Except.bind_eq_ok h
    obtain ⟨ys', hys, -⟩ := Except.bind_eq_ok h
    exact List.forall_mem_cons.2 ⟨⟨y, hy⟩, ih hys⟩

/-- Where the rule succeeds, all calls have the form. -/
theorem isFormed_of_convert {text out : SqlText} {q : Query} {g : Grouping} (hq : Query.ofText text = .ok q)
    (hg : Reads 0 g.cells q.tokens) (h : convert text = .ok out) :
    ∀ x ∈ g.calls false, isSpelled x.1.cell = true → isFormed x.2 = true := by
  obtain ⟨q', hq', hrest⟩ := Except.bind_eq_ok h
  obtain rfl := Except.ok.inj (hq.symm.trans hq')
  obtain ⟨es, hes, -⟩ := Except.bind_eq_ok hrest
  intro x hx hname
  obtain ⟨c, hc, hcx⟩ := Call.exists_of_mem_calls handles.naming hg hx hname
  obtain ⟨e, he⟩ := ok_of_mapM_eq_ok hes c hc
  rcases callEdit_cases hcx with ⟨-, err, herr⟩ | ⟨field, word, e, interval, t, u, es, hx, hfield, hword, hi, he, -⟩
  · cases herr.symm.trans he
  · simp [hx, isFormed, hfield, hword, hi, he]

/-- What is translated has no calls of the function. -/
theorem calls_eq_nil_of_convert {text out : SqlText} (h : convert text = .ok out) :
    ∃ q, Query.ofText out = .ok q ∧ (q.calls fun t => t.spells "extract".toList) = [] := by
  obtain ⟨q, hq, -⟩ := Except.bind_eq_ok h
  obtain ⟨rfl, tail, hread⟩ := Query.isRead hq
  obtain ⟨g, hg⟩ := Grouping.exists_of_isRead hread
  have hform := isFormed_of_convert hq hg h
  obtain ⟨out', q', hout, hq', hreads⟩ := convert_eq hq hg hform
  obtain rfl := Except.ok.inj (h.symm.trans hout)
  refine ⟨q', hq', List.eq_nil_iff_forall_not_mem.2 fun c hc => ?_⟩
  obtain ⟨x, hx, hname, -⟩ := Call.exists_of_mem_among (P := isSpelled) handles.naming hreads hc
  obtain ⟨y, hy, ⟨hleft, rfl⟩ | ⟨r, hr, rfl⟩⟩ := Rewriting.exists_of_mem_calls_translated hx
  · obtain ⟨r, hr⟩ := exists_replaced? hname (hform y hy hname)
    cases hleft.symm.trans hr
  · obtain ⟨-, field, word, e, interval, -, -, -, -, -, rfl⟩ := replaced?_eq_some hr
    have hnot : isSpelled (Leaf.word "DatePart".toList).cell = false := by decide
    cases hnot.symm.trans hname

/-- Without calls there is nothing to translate. -/
theorem convert_eq_self {text : SqlText} {q : Query} (hq : Query.ofText text = .ok q)
    (h : (q.calls fun t => t.spells "extract".toList) = []) : convert text = .ok text := by
  rw [convert, hq]
  show ((q.calls fun t => t.spells "extract".toList).mapM callEdit >>= fun edits => Edit.applyAll edits text) = .ok text
  rw [h]
  rfl

theorem convert_again {text out : SqlText} (h : convert text = .ok out) : convert out = .ok out := by
  obtain ⟨q, hq, hnone⟩ := calls_eq_nil_of_convert h
  exact convert_eq_self hq hnone

end Extract

/-! ### Casts -/

/-- What stands before another token ends before that one starts. -/
theorem Query.IsRead.stop_le_start {q : Query} {tail : List Cell} {as bs cs : List Token} {t u : Token} (h : q.IsRead tail)
    (hq : q.tokens = as ++ t :: (bs ++ u :: cs)) : t.stop ≤ u.start := by
  obtain ⟨-, -, hstop⟩ := h.split_one hq
  have hq' : q.tokens = (as ++ t :: bs) ++ u :: cs := by rw [hq]; simp
  obtain ⟨-, hstart, -⟩ := h.split_one hq'
  rw [hstop, hstart]
  simp only [Token.cells_append, Token.cells_cons, Cell.spell_append, Cell.spell_cons, Text.byteSize_append,
    Cell.spell_nil, Text.byteSize_nil]
  omega

theorem Query.IsRead.start_lt_token_stop {q : Query} {tail : List Cell} {as bs : List Token} {t : Token} (h : q.IsRead tail)
    (hq : q.tokens = as ++ t :: bs) : t.start < t.stop := by
  obtain ⟨a, w, ha⟩ := List.exists_cons_of_ne_nil (h.fits hq).text_ne_nil
  have ha : t.text = a :: w := ha
  have := a.utf8Size_pos
  rw [PlacedLexeme.stop, ha, Text.byteSize_cons]
  omega

namespace Cast

variable {l word : Leaf} {inside e type g : Grouping} {r : Replacement} {afterDot : Bool}

/-! #### Casts that are left -/

theorem suffix_joinWith (separator last : SqlText) (ts : List SqlText) : last <:+ Text.joinWith separator (ts ++ [last]) := by
  induction ts with
  | nil => simp [Text.joinWith]
  | cons t ts ih =>
    obtain ⟨u, us, hus⟩ := List.exists_cons_of_ne_nil (List.append_ne_nil_of_right_ne_nil ts (List.cons_ne_nil last []))
    rw [hus] at ih
    rw [List.cons_append, hus, Text.joinWith, List.intercalate_cons_cons]
    exact ih.trans (List.suffix_append _ _)

/-- The functions that casts are replaced by are names, and neither `AS` nor casts. -/
theorem of_function? {function : SqlText} (h : function? type = some function) :
    function ∈ conversions.map fun x => x.1.toList := by
  obtain ⟨⟨f, types⟩, hfind, rfl⟩ := Option.map_eq_some_iff.1 h
  exact List.mem_map_of_mem (f := fun x => x.1.toList) (List.mem_of_find?_eq_some hfind)

theorem kind_word_function : ∀ function ∈ conversions.map fun x => x.1.toList,
    (Leaf.word function).kind = .identifier function := by
  decide

theorem lastAs?_leaf_eq_none_iff {rest : Grouping} :
    lastAs? (.leaf l rest) = none ↔ lastAs? rest = none ∧ l.kind.isKeyword .AS = false := by
  rw [lastAs?]
  cases lastAs? rest <;> simp

/-- No new `AS` comes to stand outside of all groups. -/
theorem lastAs?_translated_of_none (h : lastAs? g = none) : lastAs? (rewriting.translated afterDot g) = none := by
  fun_induction rewriting.translated afterDot g with
  | case1 => rfl
  | case2 afterDot l inside rest r hr _ ihRest =>
    obtain ⟨-, hr⟩ : afterDot = false ∧ rewriting.replaced? l inside = some r := by simpa using hr
    obtain ⟨-, e, word, type, function, -, -, hfound, rfl⟩ := replaced?_eq_some hr
    have hrest := ihRest (Option.map_eq_none_iff.1 (lastAs?_leaf_eq_none_iff.1 h).1)
    refine lastAs?_leaf_eq_none_iff.2 ⟨Option.map_eq_none_iff.2 hrest, ?_⟩
    rw [kind_word_function _ (of_function? hfound)]
    rfl
  | case3 afterDot l inside rest _ _ ihRest =>
    obtain ⟨hrest, hl⟩ := lastAs?_leaf_eq_none_iff.1 h
    exact lastAs?_leaf_eq_none_iff.2 ⟨Option.map_eq_none_iff.2 (ihRest (Option.map_eq_none_iff.1 hrest)), hl⟩
  | case4 afterDot l rest _ ih =>
    obtain ⟨hrest, hl⟩ := lastAs?_leaf_eq_none_iff.1 h
    exact lastAs?_leaf_eq_none_iff.2 ⟨ih hrest, hl⟩
  | case5 afterDot rest ih => exact Option.map_eq_none_iff.2 (ih (Option.map_eq_none_iff.1 h))
  | case6 afterDot inside rest _ ih => exact Option.map_eq_none_iff.2 (ih (Option.map_eq_none_iff.1 h))

theorem translated_eq_nil_iff : rewriting.translated afterDot g = .nil ↔ g = .nil := by
  fun_cases rewriting.translated afterDot g <;> simp

/-- The names that a type starts with stay, or the name of a conversion function comes behind them. -/
theorem names_translated (type : Grouping) : names (rewriting.translated afterDot type) = names type ∨
    ∃ function ∈ conversions.map fun x => x.1.toList,
      names (rewriting.translated afterDot type) = names type ++ [function] := by
  fun_induction rewriting.translated afterDot type with
  | case1 => exact .inl rfl
  | case2 afterDot l inside rest r hr _ _ =>
    obtain ⟨-, hr⟩ : afterDot = false ∧ rewriting.replaced? l inside = some r := by simpa using hr
    obtain ⟨hname, e, word, type, function, -, -, hfound, rfl⟩ := replaced?_eq_some hr
    have hmem := of_function? hfound
    have hkind : l.kind.isIdentifier = false := by
      rw [Leaf.kind_of_isKeyword hname]
      rfl
    refine .inr ⟨function, hmem, ?_⟩
    rw [names, names, kind_word_function _ hmem, hkind]
    rfl
  | case3 afterDot l inside rest _ _ _ => exact .inl rfl
  | case4 afterDot l rest _ ih =>
    rw [names, names]
    split
    · rcases ih with h | ⟨function, hmem, h⟩
      · exact .inl (congrArg _ h)
      · exact .inr ⟨function, hmem, congrArg _ h⟩
    · exact .inl rfl
  | case5 | case6 => exact .inl rfl

/-- No name of a type ends with that of a conversion function. -/
theorem not_suffix : ∀ function ∈ conversions.map fun x => x.1.toList, ∀ x ∈ conversions, ∀ name ∈ x.2,
    ¬ (Text.lower function <:+ name.toList) := by
  decide

theorem conversion?_eq_none_of_suffix {w function : SqlText} (hmem : function ∈ conversions.map fun x => x.1.toList)
    (h : Text.lower function <:+ w) : conversion? w = none := by
  rw [conversion?, Option.map_eq_none_iff, List.find?_eq_none]
  intro x hx hany
  obtain ⟨name, hname, heq⟩ := List.any_eq_true.1 hany
  rw [beq_iff_eq] at heq
  exact not_suffix function hmem x hx name hname (heq ▸ h)

theorem function?_translated (h : function? type = none) : function? (rewriting.translated afterDot type) = none := by
  rcases names_translated type with heq | ⟨function, hmem, heq⟩
  · rw [function?, heq]
    exact h
  · rw [function?, heq, List.map_append]
    exact conversion?_eq_none_of_suffix hmem (suffix_joinWith _ _ _)

/-- A cast that is left is left again, whatever was rewritten inside it. -/
theorem replaced?_translated (h : replaced? l inside = none) : replaced? l (rewriting.translated false inside) = none := by
  cases hlast : lastAs? inside with
  | none => rw [replaced?, lastAs?_translated_of_none hlast]
  | some x =>
    obtain ⟨e, word, type⟩ := x
    obtain ⟨rfl, hword, htype⟩ := lastAs?_eq_some hlast
    rw [Rewriting.translated_append_leaf (replaced?_of_as hword) (Leaf.isSymbol_of_isKeyword hword .dot), replaced?,
      lastAs?_append hword (lastAs?_translated_of_none htype)]
    rw [replaced?, hlast] at h
    simp only [ne_eq, translated_eq_nil_iff] at h ⊢
    split
    · next hform =>
      rw [if_pos hform, Option.map_eq_none_iff] at h
      rw [function?_translated h]
      rfl
    · rfl

/-! #### Casts in types -/

/-- Where all edits can be applied, no cast that is rewritten stands in the type of another one. -/
theorem isClear_of_convert {text out : SqlText} {q : Query} (hq : Query.ofText text = .ok q)
    (hg : Reads 0 g.cells q.tokens) (h : convert text = .ok out) : rewriting.IsClear false g := by
  obtain ⟨q', hq', happ⟩ := Except.bind_eq_ok h
  obtain rfl := Except.ok.inj (hq.symm.trans hq')
  obtain ⟨rfl, tail, hread⟩ := Query.isRead hq
  intro x hx r hr y hy
  obtain ⟨hname, -⟩ := replaced?_eq_some hr
  obtain ⟨c, hc, hcx⟩ := Call.exists_of_mem_calls isNaming hg hx hname
  rcases callEdits_cases hcx hname with
    ⟨hnone, -⟩ | ⟨e, word, type, function, es, u, us, hr', hargs, hne, hes, hword, hu, hus, -, hedits⟩
  · cases hr.symm.trans hnone
  obtain rfl := Option.some.inj (hr.symm.trans hr')
  -- a cast in the type that would be rewritten
  by_contra hy'
  obtain ⟨r', hr'⟩ := Option.ne_none_iff_exists'.1 hy'
  obtain ⟨hname', -⟩ := replaced?_eq_some hr'
  have hytype : y ∈ type.calls false := by
    obtain ⟨xs, hcalls, hxs⟩ := Grouping.calls_leaf_of_not_dot (Leaf.isSymbol_of_isKeyword hword .dot) type false
    have hy : y ∈ xs ++ type.calls false := by rwa [← hcalls]
    refine (List.mem_append.1 hy).resolve_left fun hy => ?_
    rw [hxs y hy] at hr'
    cases hr'.symm.trans (replaced?_of_as hword _)
  obtain ⟨c', hc', hcy⟩ := Call.exists_of_mem_calls isNaming hus hytype hname'
  have hmem : c' ∈ q.calls fun t => isName t.cell := by
    refine Call.among_args_subset isNaming hg hc c' ?_
    rw [hargs, among_as hes hu]
    exact List.mem_append_right _ hc'
  rcases callEdits_cases hcy hname' with
    ⟨hnone, -⟩ | ⟨e', word', type', function', es', u', us', -, -, -, -, -, -, -, -, hedits'⟩
  · cases hr'.symm.trans hnone
  -- its front is inside what the outer one drops
  obtain ⟨as, bs, hqs, -⟩ := Call.mem_among hc
  obtain ⟨as', bs', rfl, -⟩ := Call.mem_among hc'
  obtain ⟨zs, z, rfl⟩ := (List.eq_nil_or_concat' es).resolve_left hne
  have hqs : q.tokens = (as ++ c.name :: c.opening :: zs) ++ z :: (u :: as' ++ c'.name :: (c'.opening ::
      (c'.args ++ c'.closing :: bs') ++ c.closing :: bs)) := by
    rw [hqs, Call.tokens, hargs, Call.tokens]
    simp
  have hname : q.tokens = (as ++ c.name :: c.opening :: (zs ++ z :: u :: as')) ++ c'.name :: ([] ++ c'.opening ::
      ((c'.args ++ c'.closing :: bs') ++ c.closing :: bs)) := by
    rw [hqs]
    simp
  have hopening : q.tokens = (as ++ c.name :: c.opening :: (zs ++ z :: u :: (as' ++ [c'.name]))) ++ c'.opening ::
      ((c'.args ++ c'.closing :: bs') ++ c.closing :: bs) := by
    rw [hqs]
    simp
  have hbefore := hread.stop_le_start hqs
  have hinside := hread.stop_le_start hname
  have hbehind := hread.stop_le_start hopening
  have hlt := hread.start_lt_token_stop hname
  have hlt' := hread.start_lt_token_stop hopening
  have hapart := Edit.disjoint_of_applyAll happ
    (List.mem_flatMap.2 ⟨c, hc, by rw [hedits]; exact List.mem_cons_of_mem _ List.mem_cons_self⟩)
    (List.mem_flatMap.2 ⟨c', hmem, by rw [hedits']; exact List.mem_cons_self⟩) (by simp)
  simp only [Token.stopOr_concat] at hapart
  omega

/-- What is rewritten has no cast that the rule would rewrite. -/
theorem convert_again {text out : SqlText} (h : convert text = .ok out) : convert out = .ok out := by
  obtain ⟨q, hq, -⟩ := Except.bind_eq_ok h
  obtain ⟨rfl, tail, hread⟩ := Query.isRead hq
  obtain ⟨g, hg⟩ := Grouping.exists_of_isRead hread
  obtain ⟨out', q', hout, hq', hreads⟩ := convert_eq hq hg (isClear_of_convert hq hg h)
  obtain rfl := Except.ok.inj (h.symm.trans hout)
  have hnone : (q'.calls fun t => t.isKeyword .CAST).flatMap callEdits = [] := by
    refine Rewriting.flatMap_eq_nil (W := rewriting) isNaming callEdits_eq_nil hreads fun x hx hname => ?_
    obtain ⟨y, -, ⟨hleft, rfl⟩ | ⟨r, hr, rfl⟩⟩ := Rewriting.exists_of_mem_calls_translated hx
    · exact replaced?_translated hleft
    · obtain ⟨-, e, word, type, function, -, -, hfound, rfl⟩ := replaced?_eq_some hr
      refine replaced?_of_not ?_ _
      rw [Leaf.cell, kind_word_function _ (of_function? hfound)]
      rfl
  rw [convert, hq']
  show Edit.applyAll ((q'.calls fun t => t.isKeyword .CAST).flatMap callEdits) out = .ok out
  rw [hnone]
  rfl

end Cast

/-! ### All rules -/

/-- **A rule leaves its own output alone**, whatever the text; only aliases may be spelled out one step further. -/
theorem Rule.apply_idempotent {r : Rule} (hr : r ≠ .orderByAlias) {text out : SqlText} (h : r.apply text = .ok out) :
    r.apply out = .ok out := by
  cases r with
  | upperLower => exact LetterCase.rename_again h
  | cast => exact Cast.convert_again h
  | extract => exact Extract.convert_again h
  | locate =>
    obtain ⟨q, hq, hnone⟩ := Locate.convert_eq_ok h
    exact Query.exhaust_of_step_eq_none hq hnone
  | aggregateDistinct =>
    obtain ⟨q, hq, hnone⟩ := Distinct.convert_eq_ok h
    exact Query.exhaust_of_step_eq_none hq hnone
  | orderByAlias => exact absurd rfl hr
  | caseWhen =>
    obtain ⟨q, hq, hnone⟩ := Conditional.convert_eq_ok h
    exact Query.exhaust_of_step_eq_none hq hnone

/-- A cast that is left, with one inside that is rewritten. -/
theorem Rule.apply_idempotent_cast :
    Rule.cast.apply "CAST(CLng(a) AS xml)".toList = .ok "CAST(CLng(a) AS xml)".toList := by
  have h : Rule.cast.apply "CAST(CAST(a AS int) AS xml)".toList = .ok "CAST(CLng(a) AS xml)".toList := by decide +kernel
  exact Rule.apply_idempotent (by decide) h

end JetAdapter
