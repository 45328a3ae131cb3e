import JetAdapter.Proofs.Naming

/-!
# Linearizing and restoring

A parsed statement is written with names, and the parameters are put back where the names are.  If no word
goes on behind a marker `?`, that gives the statement again, with its parameters numbered
(`restore_linearize`).  Otherwise it does not: `=?and` becomes `=@p0and`, and what is read there is another
name.

The text with names is lexed as the parsed one with other markers, which is `Statement.lex_namedSql`.  For
the converse, a name that was read has no word behind it, so if the texts around the markers come out as
they were, no word goes on behind any of them.
-/

namespace JetAdapter

open Marked Lexeme

/-! ### Parsed statements -/

theorem Marked.texts_ofLexemes_congr {α β : Type} {mark? : Kind → Option α} {mark?' : Kind → Option β}
    {ls : List Lexeme} (h : ∀ l ∈ ls, (mark? l.kind).isSome = (mark?' l.kind).isSome) :
    (ofLexemes mark? ls).texts = (ofLexemes mark?' ls).texts := by
  induction ls with
  | nil => rfl
  | cons l ls ih =>
    obtain ⟨hl, hls⟩ := List.forall_mem_cons.1 h
    have ih := List.cons.inj (ih hls)
    cases hm : mark? l.kind with
    | none =>
      have hm' : mark?' l.kind = none := by simpa [hm] using hl.symm
      simp [ofLexemes, hm, hm', texts, prepend, ih.1, ih.2]
    | some a =>
      obtain ⟨b, hm'⟩ : ∃ b, mark?' l.kind = some b := by
        rw [← Option.isSome_iff_exists, ← hl, hm, Option.isSome_some]
      simp [ofLexemes, hm, hm', texts, prepend, Marked.cons, ih.1, ih.2]

namespace Statement

variable {s : Statement} {t : SqlText}

theorem texts_numbered (s : Statement) : (numbered s).texts = s.texts := by
  rw [numbered]
  exact texts_withMarks (by simp [parameters])

/-- Numbering parameters does not change the text with markers `?`. -/
theorem sql_numbered (s : Statement) : (numbered s).sql = s.sql := by
  have hl : (numbered s).marks.length = s.marks.length := by
    simpa [length_texts] using congrArg List.length (texts_numbered s)
  rw [Statement.sql_eq, Statement.sql_eq, hl, withMarks_congr (texts_numbered s)]

theorem namedSql_ne_sql (h : s.marks ≠ []) : s.namedSql ≠ s.sql := by
  intro he
  obtain ⟨head, tail⟩ := s
  cases tail with
  | nil => exact h rfl
  | cons pt tail =>
    simp [namedSql, numbered, sql, render, withMarks, parameters, marks, List.mapIdx_cons,
      namedMarker] at he

end Statement

/-! ### Restoring a linearized statement -/

section Restore

variable {s : Statement} {t : SqlText}

/-- The markers of the text with names, where it is read as such. -/
theorem Statement.marks_cut_namedSql (h : s.CutFrom t) (ha : AtsApart (lex t)) (hw : s.WordsApart)
    (hb : ∀ n ∈ effectiveOrdinals s, n < Marker.ordinalCount) :
    (cut (lex s.namedSql)).marks = (effectiveOrdinals s).map Marker.named := by
  apply (Option.some_injective _).list_map
  rw [map_some_marks_cut, (markers_lex_namedSql h (.inr ha)).2 ⟨hw, ha⟩, names, List.map_map, List.map_map]
  exact List.map_congr_left fun n hn => Kind.ofKind?_ofOrdinal (hb n hn)

theorem Statement.texts_cut_namedSql (h : s.CutFrom t) (ha : AtsApart (lex t))
    (hw : s.WordsApart) : (cut (lex s.namedSql)).texts = s.texts := by
  rw [lex_namedSql h ha hw, texts_cut_respell (Statement.covers_names h) marks_of_mem_names, h]

theorem Tracker.restore_linearize_of_wordsApart (hs : s.Unnumbered) (h : s.CutFrom t)
    (ha : AtsApart (lex t)) (hw : s.WordsApart)
    (hb : (Statement.parameters s).length ≤ Marker.ordinalCount) :
    (linearize s).1.restore (linearize s).2 = .ok s.numbered := by
  have hrange := Statement.effectiveOrdinals_eq_range hs
  have hmarks : (cut (lex s.namedSql)).marks = (Statement.effectiveOrdinals s).map Marker.named := by
    refine Statement.marks_cut_namedSql h ha hw fun n hn => ?_
    rw [hrange, List.mem_range] at hn
    omega
  have hresolve : (linearize s).1.resolve? (cut (lex s.namedSql)).marks
      = some (linearize s).1.parameters := by
    have hsize : (linearize s).1.size = (Statement.effectiveOrdinals s).length := by
      rw [size_linearize, hrange, List.length_range]
    have hd : (Statement.effectiveOrdinals s).Nodup := hrange ▸ List.nodup_range
    rw [hmarks, resolve?_named hsize.symm hd, mapM_get?_ordinals hd (ordinals_linearize s)]
  show restore (linearize s).1 s.namedSql = _
  rw [restore]
  simp only [hresolve]
  rw [withMarks_congr (Statement.texts_cut_namedSql h ha hw)]
  rw [parameters_linearize]
  rfl

/-- Where the statement comes out again, the markers are the names of its parameters. -/
theorem Tracker.marks_of_restore (h : (linearize s).1.restore (linearize s).2 = .ok s.numbered) :
    (cut (lex s.namedSql)).marks = (Statement.effectiveOrdinals s).map Marker.named := by
  have hresolve := parameters_of_restore h
  obtain ⟨hl, ⟨hp, -⟩ | ⟨ordinals, hmarks, -, hm⟩⟩ := eq_of_resolve? hresolve
  · -- With markers `?` alone the text would be that of the statement, which has none of its names.
    have hsql : s.numbered.sql = s.namedSql := by
      refine Statement.sql_eq_of_cutFrom (cutFrom_of_restore h) fun k hk => ?_
      obtain ⟨m, hm, hkm⟩ := exists_marker hk
      rw [hp m hm] at hkm
      exact Marker.eq_placeholder hkm
    rw [Statement.sql_numbered] at hsql
    have hnil : s.marks = [] := by
      by_contra hne
      exact Statement.namedSql_ne_sql hne hsql.symm
    have hsize : (linearize s).1.size = 0 := by
      rw [size_linearize, Statement.parameters, hnil, List.length_nil]
    have hordinals : Statement.effectiveOrdinals s = [] := by
      apply List.length_eq_zero_iff.1
      rw [Statement.length_effectiveOrdinals, hnil, List.length_nil]
    rw [hordinals]
    exact List.length_eq_zero_iff.1 (hl.trans hsize)
  · have ho : ordinals = Statement.effectiveOrdinals s := by
      apply (Option.some_injective _).list_map
      rw [← (eq_of_mapM_get? hm).1]
      exact ordinals_linearize s
    rw [← ho]
    exact hmarks

/-- Where the statement comes out again, no word goes on behind a parameter. -/
theorem Tracker.wordsApart_of_restore
    (h : (linearize s).1.restore (linearize s).2 = .ok s.numbered) : s.WordsApart := by
  have hwords : (cut (lex s.namedSql)).WordsApart := by
    refine (lexed_lex _).wordsApart fun k hk hkp => ?_
    obtain ⟨m, hm, hkm⟩ := exists_marker hk
    rw [hkp] at hkm
    obtain rfl : Marker.positional = m := Option.some.inj hkm
    rw [marks_of_restore h] at hm
    simp at hm
  have hcut : s.numbered.CutFrom s.namedSql := cutFrom_of_restore h
  rw [← wordsApart_congr hcut] at hwords
  rwa [wordsApart_congr (Statement.texts_numbered s)] at hwords

/-- Where the statement comes out again, each parameter has a name of its own. -/
theorem Tracker.length_le_of_restore (hs : s.Unnumbered)
    (h : (linearize s).1.restore (linearize s).2 = .ok s.numbered) :
    (Statement.parameters s).length ≤ Marker.ordinalCount := by
  by_contra hlt
  have hmem : Marker.named Marker.ordinalCount ∈ (cut (lex s.namedSql)).marks := by
    rw [marks_of_restore h, Statement.effectiveOrdinals_eq_range hs]
    exact List.mem_map_of_mem (List.mem_range.2 (by omega))
  obtain ⟨k, -, hk⟩ := exists_kind hmem
  exact Nat.lt_irrefl _ (Marker.lt_of_ofKind? hk)

end Restore

/-- **A linearized statement is restored** if and only if no word goes on behind one of its parameters and
there are no more parameters than ordinals.  Then it is the parsed one, with its parameters numbered: its
text is the one that was parsed, and its values are the given ones in order. -/
theorem restore_linearize (sql : SqlText) (values : List SqlValue)
    (hfault : ∀ l ∈ lex sql, ∀ f, l.kind ≠ .fault f)
    (hname : ∀ l ∈ lex sql, ∀ name, l.kind ≠ .named name)
    (hvalues : values.length = (lex sql).countP fun l => l.kind = .placeholder) :
    ∃ s, Statement.parse sql values = .ok s ∧ s.numbered.sql = sql ∧
      Statement.parameters s.numbered = values.mapIdx (fun i v => ⟨v, some i⟩) ∧
      ((Tracker.linearize s).1.restore (Tracker.linearize s).2 = .ok s.numbered ↔
        s.WordsApart ∧ values.length ≤ Marker.ordinalCount) := by
  obtain ⟨s, hs⟩ := Statement.exists_parse_eq hvalues
  have hparameters := Statement.parameters_of_parse hs
  have hunnumbered := Statement.unnumbered_of_parse hs
  have hmarker : ∀ l ∈ lex sql, l.kind.isMarker = true → l.kind = .placeholder := by
    intro l hl hm
    cases hk : l.kind with
    | placeholder => rfl
    | named name => exact absurd hk (hname l hl name)
    | _ =>
      rw [hk] at hm
      cases hm
  have hcut : s.CutFrom sql := by
    rw [CutFrom, Statement.texts_of_parse hs]
    apply texts_ofLexemes_congr
    intro l hl
    rw [Kind.isSome_ofKind?]
    by_cases hp : l.kind = .placeholder
    · simp [hp, Kind.isMarker]
    · have hm : l.kind.isMarker = false := by
        by_contra hm
        exact hp (hmarker l hl (by simpa using hm))
      simp [hp, hm]
  have hlength : (Statement.parameters s).length = values.length := by
    rw [hparameters, List.length_map]
  refine ⟨s, hs, ?_, ?_, ?_, ?_⟩
  · rw [Statement.sql_numbered]
    refine Statement.sql_eq_of_cutFrom hcut fun k hk => ?_
    obtain ⟨hk, hm⟩ := List.mem_filter.1 hk
    obtain ⟨l, hl, rfl⟩ := List.mem_map.1 hk
    exact hmarker l hl hm
  · rw [Statement.parameters_numbered, hparameters]
    apply List.ext_getElem <;> simp
  · intro h
    exact ⟨Tracker.wordsApart_of_restore h, hlength ▸ Tracker.length_le_of_restore hunnumbered h⟩
  · rintro ⟨hw, hb⟩
    exact Tracker.restore_linearize_of_wordsApart hunnumbered hcut
      ((lexed_lex sql).atsApart_of_no_fault hfault) hw (hlength ▸ hb)

/-- A word behind a marker goes on with the name of the parameter. -/
example : (lex "b=@p0and c=2".toList).map Lexeme.text = ["b", "=", "@p0and", "c", "=", "2", ""].map String.toList := by
  decide +kernel

theorem Lexeme.countP_kind (ls : List Lexeme) (k : Kind) :
    (ls.countP fun l => l.kind = k) = (ls.map Lexeme.kind).countP fun k' => k' = k := by
  rw [List.countP_map]
  rfl

theorem Lexeme.kind_ne_of_not_mem {ls : List Lexeme} {k : Kind} (h : k ∉ ls.map Lexeme.kind) :
    ∀ l ∈ ls, l.kind ≠ k := by
  rintro l hl rfl
  exact h (List.mem_map_of_mem hl)

/-- A search for two values, with a blank behind the first marker. -/
def spacedSql : SqlText :=
  "select a from t where b=? and c=?".toList

theorem kinds_spacedSql : (lex spacedSql).map Lexeme.kind
    = [.keyword .SELECT, .identifier ['a'], .keyword .FROM, .identifier ['t'], .keyword .WHERE,
      .identifier ['b'], .symbol .eq, .placeholder, .keyword .AND, .identifier ['c'], .symbol .eq,
      .placeholder, .eof] := by
  decide +kernel

/-- Both values are put back where they were. -/
theorem restore_linearize_spacedSql :
    ∃ s, Statement.parse spacedSql [.int 1, .text ['x']] = .ok s ∧
      (Tracker.linearize s).1.restore (Tracker.linearize s).2 = .ok s.numbered ∧
      s.numbered.sql = spacedSql := by
  have hkind : ∀ k, (∃ f, k = .fault f) ∨ (∃ name, k = .named name) →
      ∀ l ∈ lex spacedSql, l.kind ≠ k := by
    intro k hk
    apply kind_ne_of_not_mem
    rw [kinds_spacedSql]
    rcases hk with ⟨f, rfl⟩ | ⟨name, rfl⟩ <;> simp
  obtain ⟨s, hs, hsql, -, hiff⟩ := restore_linearize spacedSql [.int 1, .text ['x']]
    (fun l hl f => hkind _ (.inl ⟨f, rfl⟩) l hl) (fun l hl name => hkind _ (.inr ⟨name, rfl⟩) l hl)
    (by rw [countP_kind, kinds_spacedSql]; rfl)
  refine ⟨s, hs, hiff.2 ⟨?_, by decide⟩, hsql⟩
  rw [wordsApart_congr (Statement.texts_of_parse hs)]
  decide +kernel

/-- A search with a marker right before a word. -/
def gluedSql : SqlText :=
  "select a from t where b=?and c=2".toList

theorem kinds_gluedSql : (lex gluedSql).map Lexeme.kind
    = [.keyword .SELECT, .identifier ['a'], .keyword .FROM, .identifier ['t'], .keyword .WHERE,
      .identifier ['b'], .symbol .eq, .placeholder, .keyword .AND, .identifier ['c'], .symbol .eq,
      .integer 2, .eof] := by
  decide +kernel

/-- Not every statement without faults and names is restored. -/
theorem not_restore_linearize_gluedSql :
    ¬ ∀ (sql : SqlText) (values : List SqlValue), (∀ l ∈ lex sql, ∀ f, l.kind ≠ .fault f) →
      (∀ l ∈ lex sql, ∀ name, l.kind ≠ .named name) →
      values.length = ((lex sql).countP fun l => l.kind = .placeholder) →
      ∃ s, Statement.parse sql values = .ok s ∧
        (Tracker.linearize s).1.restore (Tracker.linearize s).2 = .ok s.numbered := by
  intro h
  have hkind : ∀ k, (∃ f, k = .fault f) ∨ (∃ name, k = .named name) →
      ∀ l ∈ lex gluedSql, l.kind ≠ k := by
    intro k hk
    apply kind_ne_of_not_mem
    rw [kinds_gluedSql]
    rcases hk with ⟨f, rfl⟩ | ⟨name, rfl⟩ <;> simp
  obtain ⟨s, hs, hr⟩ := h gluedSql [.int 1] (fun l hl f => hkind _ (.inl ⟨f, rfl⟩) l hl)
    (fun l hl name => hkind _ (.inr ⟨name, rfl⟩) l hl) (by rw [countP_kind, kinds_gluedSql]; rfl)
  have hw := Tracker.wordsApart_of_restore hr
  rw [wordsApart_congr (Statement.texts_of_parse hs)] at hw
  exact absurd hw (by decide +kernel)

end JetAdapter
