import JetAdapter.Proofs.Linearization
import JetAdapter.Proofs.Restoring

/-!
# Restored statements written with names

A name may spell its ordinal in more than one way, `@p007` or `@p7`, and a foreign name counts for the greatest
ordinal.  A statement that was restored from names is written with the canonical ones (`Lexeme.canonical`), each in
its place.  That text is read as the one it was restored from, but for the spelling of the markers, and it restores to
the same statement (`restore_namedSql`).

Nothing runs together when the names change.  A name that was read has no word behind it, so a canonical name in its
place ends where it does; and no lexeme before a marker takes in an `@` that it did not take in before.
-/

namespace JetAdapter

open Marked Lexeme

/-! ### Canonical names -/

/-- A named marker becomes the one that names the same ordinal. -/
def Kind.canonical : Kind → Kind
  | .named name => .ofOrdinal (Marker.ordinalOfName name)
  | k => k

/-- The lexeme with the canonical name, if it is a named marker. -/
def Lexeme.canonical (l : Lexeme) : Lexeme :=
  match l.kind with
  | .named _ => ⟨l.kind.canonical, l.gap, l.kind.canonical.markerText⟩
  | _ => l

theorem Kind.canonical_of_standsFor {k : Kind} {n : Nat} (h : k.StandsFor n) : k.canonical = .ofOrdinal n := by
  obtain ⟨name, rfl, hn⟩ := h
  rw [canonical, Marker.standsFor_iff.1 hn]

namespace Lexeme

variable {l : Lexeme} {ls : List Lexeme}

theorem canonical_of_marker (hm : l.kind.isMarker = true) (hn : l.kind ≠ .placeholder) :
    l.canonical = ⟨l.kind.canonical, l.gap, l.kind.canonical.markerText⟩ := by
  obtain ⟨kind, gap, text⟩ := l
  cases kind with
  | named name => rfl
  | placeholder => exact absurd rfl hn
  | _ => cases hm

theorem canonical_of_other (hm : l.kind.isMarker = false) : l.canonical = l := by
  obtain ⟨kind, gap, text⟩ := l
  cases kind with
  | named name => cases hm
  | _ => rfl

/-- Respelling all markers by their canonical names. -/
theorem respell_map_canonical (hn : ∀ k ∈ markers ls, k ≠ .placeholder) :
    respell ls ((markers ls).map Kind.canonical) = ls.map canonical := by
  induction ls with
  | nil => rfl
  | cons l ls ih =>
    rw [List.map_cons]
    cases h : l.kind.isMarker with
    | true =>
      rw [markers_cons_marker h] at hn ⊢
      obtain ⟨hl, hls⟩ := List.forall_mem_cons.1 hn
      rw [List.map_cons, respell_cons_marker h, ih hls, canonical_of_marker h hl]
    | false =>
      rw [markers_cons_other h] at hn ⊢
      rw [respell_cons_other h, ih hn, canonical_of_other h]

/-- Where no marker is a `?`, each stands for an ordinal. -/
theorem exists_namedBy {text : SqlText} (hn : ∀ l ∈ markerTokens text, l.kind ≠ .placeholder) :
    ∃ ordinals, NamedBy (markerTokens text) ordinals := by
  have named : ∀ ms : List PlacedLexeme, (∀ m ∈ ms, m.kind.isMarker = true) →
      (∀ m ∈ ms, m.kind ≠ .placeholder) → ∃ ordinals, NamedBy ms ordinals := by
    intro ms
    induction ms with
    | nil => intro _ _; exact ⟨[], .nil⟩
    | cons m ms ih =>
      intro hm hn
      obtain ⟨hm, hms⟩ := List.forall_mem_cons.1 hm
      obtain ⟨hn, hns⟩ := List.forall_mem_cons.1 hn
      obtain ⟨ordinals, hordinals⟩ := ih hms hns
      cases hk : m.kind with
      | named name =>
        exact ⟨Marker.ordinalOfName name :: ordinals,
          .cons ⟨name, hk, Marker.standsFor_iff.2 rfl⟩ hordinals⟩
      | placeholder => exact absurd hk hn
      | _ =>
        rw [hk] at hm
        cases hm
  refine named _ (fun m hm => ?_) hn
  exact (List.mem_filter.1 hm).2

end Lexeme

/-! ### Statements whose parameters have ordinals -/

namespace Statement

variable {s : Statement} {ordinals : List Nat}

/-- Parameters that have ordinals go by these. -/
theorem effectiveOrdinals_eq (h : (parameters s).map Parameter.ordinal = ordinals.map some) :
    effectiveOrdinals s = ordinals := by
  have hsome : ∀ p ∈ parameters s, p.ordinal ≠ none := by
    intro p hp hnone
    have hmem := List.mem_map_of_mem (f := Parameter.ordinal) hp
    rw [h, hnone] at hmem
    obtain ⟨n, -, hn⟩ := List.mem_map.1 hmem
    cases hn
  apply (Option.some_injective _).list_map
  rw [← Tracker.ordinals_linearize, Tracker.parameters_linearize_eq_self hsome, h]

end Statement

/-! ### Restoring what is written -/

/-- Restoring sees of a text its markers and what is around them. -/
theorem Tracker.restore_congr {t : Tracker} {text text' : SqlText}
    (hm : (cut (lex text)).marks = (cut (lex text')).marks)
    (ht : (cut (lex text)).texts = (cut (lex text')).texts) : t.restore text = t.restore text' := by
  have hcut : cut (lex text) = cut (lex text') := by
    rw [← withMarks_marks (cut (lex text)), withMarks_congr ht, hm, withMarks_marks]
  rw [restore, restore]
  simp only [hcut]

/-- **Restoring is stable.**  If a text whose markers are all named is restored to a statement, the text of that
statement with names is the restored one with each name made canonical.  It is read as such, and restores to the same
statement. -/
theorem restore_namedSql (t : Tracker) (text : SqlText) (s : Statement)
    (hn : ∀ l ∈ markerTokens text, l.kind ≠ .placeholder) (h : t.restore text = .ok s) :
    s.namedSql = spell ((lex text).map canonical) ∧ lex s.namedSql = (lex text).map canonical ∧
      t.restore s.namedSql = .ok s := by
  obtain ⟨ordinals, hnamed⟩ := exists_namedBy hn
  have hordinals := Statement.effectiveOrdinals_eq (Tracker.ordinals_of_namedBy h hnamed)
  have hkinds : ∀ k ∈ markers (lex text), k ≠ .placeholder := by
    rw [← kinds_markerTokens, List.forall_mem_map]
    exact hn
  have hcut := Tracker.cutFrom_of_restore h
  have hwords : s.WordsApart := (wordsApart_congr hcut).2 ((lexed_lex text).wordsApart hkinds)
  have hats := (lexed_lex text).atsApart hkinds
  have hcanonical : s.names = (markers (lex text)).map Kind.canonical := by
    rw [Statement.names, hordinals, ← List.forall₂_eq_eq_eq, List.forall₂_map_left_iff,
      List.forall₂_map_right_iff]
    exact ((namedBy_iff.1 hnamed).imp fun k n hk => (Kind.canonical_of_standsFor hk).symm).flip
  have hlex : lex s.namedSql = (lex text).map canonical := by
    rw [Statement.lex_namedSql hcut hats hwords, hcanonical, respell_map_canonical hkinds]
  have hmarks : (cut (lex s.namedSql)).marks = (cut (lex text)).marks := by
    rw [marks_eq_map_named_iff.2 hnamed, ← hordinals]
    apply Statement.marks_cut_namedSql hcut hats hwords
    rw [hordinals]
    exact hnamed.lt
  have htexts : (cut (lex s.namedSql)).texts = (cut (lex text)).texts :=
    (Statement.texts_cut_namedSql hcut hats hwords).trans hcut
  refine ⟨?_, hlex, ?_⟩
  · rw [← hlex, spell_lex]
  · rw [← h]
    exact Tracker.restore_congr hmarks htexts

/-- A text with two markers that are not spelled by canonical names. -/
def looselyNamedSql : SqlText :=
  "select @p007'a',@x".toList

/-- A tracker with their ordinals. -/
def looselyNamedTracker : Tracker :=
  ⟨[⟨.int 1, some Marker.foreignOrdinal⟩, ⟨.int 2, some 7⟩]⟩

/-- Zeros are dropped, and the foreign name is replaced by the ordinal that it counts for. -/
theorem restore_namedSql_looselyNamedSql :
    ∃ s, looselyNamedTracker.restore looselyNamedSql = .ok s ∧
      s.namedSql = "select @p7'a',@p18446744073709551615".toList ∧
      looselyNamedTracker.restore s.namedSql = .ok s := by
  have hn : ∀ l ∈ markerTokens looselyNamedSql, l.kind ≠ .placeholder := by decide +kernel
  have h : looselyNamedTracker.restore looselyNamedSql = .ok ⟨"select ".toList,
      [(⟨.int 2, some 7⟩, "'a',".toList), (⟨.int 1, some Marker.foreignOrdinal⟩, [])]⟩ := by
    decide +kernel
  obtain ⟨hwritten, -, hagain⟩ := restore_namedSql _ _ _ hn h
  refine ⟨_, h, ?_, hagain⟩
  rw [hwritten]
  decide +kernel

end JetAdapter
