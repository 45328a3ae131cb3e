import JetAdapter.Proofs.Marking

/-!
# Parameters named in texts

A statement is written with markers `?` or with markers that name the ordinals of its parameters.  The two
texts are respelled ones of each other (`respelled_namedSql`), so they start with the same keyword.

If the texts around the parameters were cut out of some text at its markers (`Marked.CutFrom`), the
statement can be read back.  With markers `?` it always can, up to an `@` of its own before a marker
(`lex_sql`).  With names it can if moreover no word goes on behind a parameter, and if only one of the two
is the case it cannot (`markers_lex_namedSql`).
-/

namespace JetAdapter

open Marked Lexeme

/-! ### Names of ordinals -/

namespace Decimal

theorem isDigit_of_mem_natText {n : Nat} : ∀ c ∈ natText n, c.isDigit = true := by
  intro c hc
  exact Nat.isDigit_of_mem_toDigits (by decide) (by decide) hc

theorem natText_ne_nil (n : Nat) : natText n ≠ [] :=
  Nat.toDigits_ne_nil

/-- A number is read back from its digits. -/
theorem readNat_natText {bound n : Nat} (h : n < bound) : readNat bound (natText n) = some n := by
  have hlt : ofDigits (natText n) < bound := by rwa [ofDigits_natText]
  rw [readNat, if_pos ⟨natText_ne_nil n, List.all_eq_true.2 isDigit_of_mem_natText, hlt⟩, ofDigits_natText]

theorem readNat_lt {bound n : Nat} {t : SqlText} (h : readNat bound t = some n) : n < bound := by
  rw [readNat] at h
  split at h
  · next hb => exact Option.some.inj h ▸ hb.2.2
  · cases h

end Decimal

namespace Marker

theorem ordinalOfName_natText {n : Nat} (h : n < ordinalCount) :
    ordinalOfName ('p' :: Decimal.natText n) = n := by
  rw [ordinalOfName, Decimal.readNat_natText h]
  rfl

theorem ordinalOfName_lt (name : SqlText) : ordinalOfName name < ordinalCount := by
  have hf : foreignOrdinal < ordinalCount := by decide
  unfold ordinalOfName
  split
  · next digits =>
    cases h : Decimal.readNat ordinalCount digits with
    | none => exact hf
    | some n => exact Decimal.readNat_lt h
  · exact hf

theorem eq_placeholder {k : Kind} (h : ofKind? k = some .positional) :
    k = .placeholder := by
  cases k with
  | placeholder => rfl
  | named name => cases h
  | _ => cases h

theorem lt_of_ofKind? {k : Kind} {n : Nat} (h : ofKind? k = some (.named n)) :
    n < ordinalCount := by
  cases k with
  | named name =>
    cases h
    exact ordinalOfName_lt name
  | _ => cases h

end Marker

namespace Kind

/-- The kind of the marker that names an ordinal. -/
def ofOrdinal (n : Nat) : Kind :=
  .named ('p' :: Decimal.natText n)

theorem marks_ofOrdinal (n : Nat) : (ofOrdinal n).Marks := by
  refine .named (by simp) ?_
  intro c hc
  rcases List.mem_cons.1 hc with rfl | hc
  · decide
  · exact Text.continuesWord_of_isDigit (Decimal.isDigit_of_mem_natText c hc)

theorem ofKind?_ofOrdinal {n : Nat} (h : n < Marker.ordinalCount) :
    Marker.ofKind? (ofOrdinal n) = some (.named n) := by
  rw [ofOrdinal, Marker.ofKind?, Marker.ordinalOfName_natText h]

end Kind

theorem Marked.respelled_render {α β : Type} {write : α → SqlText} {write' : β → SqlText}
    (h : ∀ a, MarkerText (write a)) (h' : ∀ b, MarkerText (write' b)) {m : Marked α} {bs : List β}
    (hl : bs.length = m.marks.length) :
    Respelled (m.render write) ((m.withMarks bs).render write') := by
  obtain ⟨head, tail⟩ := m
  refine .append_left head ?_
  simp only [marks, List.length_map] at hl
  induction tail generalizing bs with
  | nil => exact .nil
  | cons pt tail ih =>
    cases bs with
    | nil => cases hl
    | cons b bs =>
      simp only [withMarks, List.zipWith_cons_cons, List.flatMap_cons, List.append_assoc]
      exact .marker (h pt.1) (h' b) (.append_left _ (ih (Nat.succ.inj hl)))

/-! ### Parsed statements -/

theorem Marked.length_marks_ofLexemes {α : Type} (mark? : Kind → Option α) (ls : List Lexeme) :
    (ofLexemes mark? ls).marks.length = ls.countP fun l => (mark? l.kind).isSome := by
  induction ls with
  | nil => rfl
  | cons l ls ih =>
    cases h : mark? l.kind with
    | none =>
      rw [List.countP_cons_of_neg (by simp [h]), ← ih, ofLexemes, h]
      rfl
    | some a =>
      rw [List.countP_cons_of_pos (by simp [h]), ← ih, ofLexemes, h]
      rfl

namespace Statement

/-- A text can be parsed with as many values as it has markers `?`. -/
theorem exists_parse_eq {t : SqlText} {values : List SqlValue}
    (h : values.length = (lex t).countP fun l => l.kind = .placeholder) :
    ∃ s, parse t values = .ok s := by
  have hl : (placeholders t).tail.length = values.length := by
    rw [h, ← length_marks, placeholders, length_marks_ofLexemes]
    apply List.countP_congr
    intro l hm
    by_cases hk : l.kind = .placeholder <;> simp [hk]
  exact ⟨_, if_pos hl⟩

variable {s : Statement} {t : SqlText} {values : List SqlValue}

theorem eq_of_parse (h : parse t values = .ok s) :
    (values.map fun v => (⟨v, none⟩ : Parameter)).length = (placeholders t).marks.length ∧
      s = (placeholders t).withMarks (values.map fun v => ⟨v, none⟩) := by
  unfold parse at h
  simp only at h
  split at h
  · next hl =>
    cases h
    rw [length_marks, hl, List.length_map]
    exact ⟨rfl, rfl⟩
  · cases h

/-- The values of a parsed statement are its parameters in order. -/
theorem parameters_of_parse (h : parse t values = .ok s) :
    parameters s = values.map fun v => ⟨v, none⟩ := by
  obtain ⟨hl, rfl⟩ := eq_of_parse h
  exact marks_withMarks hl

theorem texts_of_parse (h : parse t values = .ok s) : s.texts = (placeholders t).texts := by
  obtain ⟨hl, rfl⟩ := eq_of_parse h
  exact texts_withMarks hl

theorem unnumbered_of_parse (h : parse t values = .ok s) : s.Unnumbered := by
  intro p hp
  rw [parameters_of_parse h] at hp
  obtain ⟨v, -, rfl⟩ := List.mem_map.1 hp
  rfl

end Statement

/-! ### Texts cut at markers -/

namespace Marked

variable {α : Type} {m : Marked α} {t : SqlText}

/-- Whether the texts around the marks are those around the markers of a text. -/
def CutFrom (m : Marked α) (t : SqlText) : Prop :=
  m.texts = (cut (lex t)).texts

theorem CutFrom.length_markers (h : m.CutFrom t) : (markers (lex t)).length = m.marks.length := by
  have hl := congrArg List.length h
  rw [length_texts, length_texts, length_marks_cut] at hl
  exact (Nat.succ.inj hl).symm

theorem CutFrom.render_eq (h : m.CutFrom t) {ks : List Kind} (hl : ks.length = m.marks.length) :
    (m.withMarks ks).render Kind.markerText = spell (respell (lex t) ks) := by
  rw [withMarks_congr h, spell_respell (covers_of_length ?_)]
  rw [hl, h.length_markers]

theorem CutFrom.covers_replicate (h : m.CutFrom t) :
    Covers (List.replicate m.marks.length .placeholder) (lex t) :=
  covers_of_length (by rw [List.length_replicate, h.length_markers])

end Marked

/-- A text and the statement it is restored to have the same texts around their markers. -/
theorem Tracker.cutFrom_of_restore {t : Tracker} {text : SqlText} {s : Statement}
    (h : t.restore text = .ok s) : s.CutFrom text := by
  obtain ⟨ps, hps, rfl⟩ := eq_of_restore h
  exact texts_withMarks (length_of_resolve? hps)

/-! ### Texts of statements -/

namespace Statement

variable {s : Statement} {t : SqlText}

theorem length_effectiveOrdinals (s : Statement) :
    (effectiveOrdinals s).length = s.marks.length := by
  simp [effectiveOrdinals, parameters]

theorem ordinals_numbered (s : Statement) :
    (numbered s).marks.map (fun p => p.ordinal.getD 0) = effectiveOrdinals s := by
  show (parameters (numbered s)).map _ = _
  rw [parameters_numbered, effectiveOrdinals]
  apply List.ext_getElem <;> simp

/-- The text with markers `?`, each a token of its own. -/
theorem sql_eq (s : Statement) : s.sql
    = (s.withMarks (List.replicate s.marks.length Kind.placeholder)).render Kind.markerText := by
  have h := render_withMarks_map (fun _ => ['?']) Kind.markerText
    (fun _ : Parameter => Kind.placeholder) (fun _ => rfl) s
  rw [List.map_const'] at h
  exact h.symm

/-- The text with names, each a token of its own. -/
theorem namedSql_eq (s : Statement) : s.namedSql
    = (s.withMarks ((effectiveOrdinals s).map Kind.ofOrdinal)).render Kind.markerText := by
  have h := render_withMarks_map (fun p : Parameter => namedMarker (p.ordinal.getD 0))
    Kind.markerText (Kind.ofOrdinal ∘ fun p : Parameter => p.ordinal.getD 0) (fun _ => rfl)
    s.numbered
  rw [← List.map_map, ordinals_numbered, numbered, withMarks_withMarks (by simp [parameters])] at h
  exact h.symm

/-- The two texts of a statement differ in their markers alone. -/
theorem respelled_namedSql (s : Statement) : Respelled s.sql s.namedSql := by
  rw [namedSql, numbered, sql]
  refine respelled_render (fun _ => .placeholder) (fun p => ?_) (by simp [parameters])
  exact (Kind.marks_ofOrdinal _).markerText

/-- Whether a statement is a `SELECT` can be seen from its text with names. -/
theorem isSelect_eq (s : Statement) :
    s.isSelect = (lex s.namedSql).head?.any fun l => l.kind.isKeyword .SELECT :=
  isKeyword_respelled (respelled_namedSql s) .SELECT

theorem marks_of_mem_replicate {n : Nat} : ∀ k ∈ List.replicate n Kind.placeholder, k.Marks := by
  intro k hk
  rw [(List.mem_replicate.1 hk).2]
  exact .placeholder

/-- A statement that was cut out of a text with markers `?` has it as its text. -/
theorem sql_eq_of_cutFrom (h : s.CutFrom t) (hp : ∀ k ∈ markers (lex t), k = .placeholder) :
    s.sql = t := by
  have hm : markers (lex t) = List.replicate s.marks.length .placeholder := by
    rw [← h.length_markers]
    exact List.eq_replicate_of_mem hp
  rw [sql_eq, h.render_eq List.length_replicate, ← hm, (lexed_lex t).respell_markers,
    spell_lex]

/-- With markers `?` the text is read as the one that the statement was cut out of, but for the
markers. -/
theorem lex_sql (h : s.CutFrom t) (ha : AtsApart (lex t)) :
    lex s.sql = respell (lex t) (List.replicate s.marks.length .placeholder) := by
  rw [sql_eq, h.render_eq List.length_replicate]
  refine Lexed.lex_spell ((lexed_lex t).respell h.covers_replicate marks_of_mem_replicate ha ?_)
  exact .inl fun k hk => (List.mem_replicate.1 hk).2

/-- The markers of a text with markers `?` are the parameters. -/
theorem markers_lex_sql (h : s.CutFrom t) (ha : AtsApart (lex t)) :
    markers (lex s.sql) = List.replicate s.marks.length .placeholder := by
  rw [lex_sql h ha, markers_respell h.covers_replicate marks_of_mem_replicate]

/-- The markers that name the parameters in order. -/
def names (s : Statement) : List Kind :=
  (effectiveOrdinals s).map Kind.ofOrdinal

theorem covers_names (h : s.CutFrom t) : Covers s.names (lex t) :=
  covers_of_length (by rw [names, List.length_map, length_effectiveOrdinals, h.length_markers])

theorem marks_of_mem_names : ∀ k ∈ s.names, k.Marks := by
  intro k hk
  obtain ⟨n, -, rfl⟩ := List.mem_map.1 hk
  exact Kind.marks_ofOrdinal n

theorem namedSql_eq_spell (h : s.CutFrom t) : s.namedSql = spell (respell (lex t) s.names) := by
  rw [namedSql_eq, ← names, h.render_eq (by simp [names, length_effectiveOrdinals])]

/-- With names the text is read as the one that the statement was cut out of, but for the markers, if no
word goes on behind a parameter. -/
theorem lex_namedSql (h : s.CutFrom t) (ha : AtsApart (lex t)) (hw : s.WordsApart) :
    lex s.namedSql = respell (lex t) s.names := by
  rw [namedSql_eq_spell h]
  refine Lexed.lex_spell ((lexed_lex t).respell (covers_names h) marks_of_mem_names ha ?_)
  exact .inr ((wordsApart_congr h).1 hw)

theorem ne_placeholder_of_mem_names : ∀ k ∈ s.names, k ≠ .placeholder := by
  intro k hk
  obtain ⟨n, -, rfl⟩ := List.mem_map.1 hk
  simp [Kind.ofOrdinal]

/-- The markers of a text with names are the parameters if no word goes on behind a parameter and no `@`
stands before one, and not if only one of the two is the case. -/
theorem markers_lex_namedSql (h : s.CutFrom t) (hwa : s.WordsApart ∨ AtsApart (lex t)) :
    markers (lex s.namedSql) = s.names ↔ s.WordsApart ∧ AtsApart (lex t) := by
  constructor
  · intro hm
    rw [namedSql_eq_spell h] at hm
    rcases hwa with hw | ha
    · refine ⟨hw, ?_⟩
      rcases (lexed_lex t).atsApart_or_length_lt (covers_names h) marks_of_mem_names
        ne_placeholder_of_mem_names ((wordsApart_congr h).1 hw) with ha | hlt
      · exact ha
      · rw [hm] at hlt
        exact absurd hlt (Nat.lt_irrefl _)
    · refine ⟨?_, ha⟩
      have hlex := (lexed_lex t).lex_eq_respell (covers_names h) marks_of_mem_names ha hm
      have hcut := (lexed_lex (spell (respell (lex t) s.names))).wordsApart (by
        rw [hm]
        exact ne_placeholder_of_mem_names)
      rw [hlex, wordsApart_congr (texts_cut_respell (covers_names h) marks_of_mem_names)] at hcut
      exact (wordsApart_congr h).2 hcut
  · rintro ⟨hw, ha⟩
    rw [lex_namedSql h ha hw, markers_respell (covers_names h) marks_of_mem_names]

end Statement

end JetAdapter
