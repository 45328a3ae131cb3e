import JetAdapter.Proofs.Naming
import JetAdapter.Proofs.Partition

/-!
# When parameters can be put back

`Tracker.restore` is told here in terms of the tokens of a text.  The markers are the tokens `?` and `@name`.  A
name of the form `p` and digits names an ordinal; every other name counts for the greatest ordinal
(`Marker.StandsFor`).  The parameters can be put back if and only if there are as many markers as tracked
parameters and either all of them are `?`, or all are named and their ordinals are distinct and tracked
(`Tracker.Resolves`).  The texts of the statement that comes out are what the markers leave of the text, byte for
byte, and its parameters are the tracked ones as they come, or for each name the first one with its ordinal
(`Tracker.Restored`).

`restore_as_marked` puts this together with what `Tracker.verify` accepts: statements that bind each ordinal as
often as it is tracked.  Restored statements do, so the check after restoring never fails.
-/

namespace JetAdapter

open Marked Lexeme

/-! ### Names -/

theorem Decimal.readNat_eq_some_iff {bound n : Nat} {t : SqlText} : readNat bound t = some n ↔
    t ≠ [] ∧ (∀ c ∈ t, c.isDigit = true) ∧ ofDigits t = n ∧ n < bound := by
  rw [readNat]
  constructor
  · intro h
    split at h
    · next hb =>
      obtain ⟨hne, hd, hlt⟩ := hb
      obtain rfl := Option.some.inj h
      exact ⟨hne, List.all_eq_true.1 hd, rfl, hlt⟩
    · cases h
  · rintro ⟨hne, hd, rfl, hlt⟩
    rw [if_pos ⟨hne, List.all_eq_true.2 hd, hlt⟩]

namespace Marker

variable {name : SqlText} {n : Nat}

/-- Whether a name is that of an ordinal: `p` and the digits of a number in range. -/
def Names (name : SqlText) (n : Nat) : Prop :=
  ∃ digits, name = 'p' :: digits ∧ digits ≠ [] ∧ (∀ c ∈ digits, c.isDigit = true) ∧
    Decimal.ofDigits digits = n ∧ n < ordinalCount

/-- Whether a name is that of no ordinal. -/
def IsForeign (name : SqlText) : Prop :=
  ∀ n, ¬ Names name n

/-- The ordinal by which a name is looked up: its own, or the greatest one if it has none. -/
def StandsFor (name : SqlText) (n : Nat) : Prop :=
  Names name n ∨ IsForeign name ∧ n = foreignOrdinal

theorem names_iff : Names name n ↔
    ∃ digits, name = 'p' :: digits ∧ Decimal.readNat ordinalCount digits = some n := by
  simp only [Names, Decimal.readNat_eq_some_iff]

theorem ordinalOfName_of_names (h : Names name n) : ordinalOfName name = n := by
  obtain ⟨digits, rfl, hd⟩ := names_iff.1 h
  rw [ordinalOfName, hd]
  rfl

theorem ordinalOfName_of_isForeign (h : IsForeign name) : ordinalOfName name = foreignOrdinal := by
  unfold ordinalOfName
  split
  · next digits =>
    cases hd : Decimal.readNat ordinalCount digits with
    | none => rfl
    | some n => exact absurd (names_iff.2 ⟨digits, rfl, hd⟩) (h n)
  · rfl

theorem standsFor_iff : StandsFor name n ↔ ordinalOfName name = n := by
  constructor
  · rintro (h | ⟨h, rfl⟩)
    · exact ordinalOfName_of_names h
    · exact ordinalOfName_of_isForeign h
  · intro h
    by_cases hf : IsForeign name
    · exact .inr ⟨hf, h.symm.trans (ordinalOfName_of_isForeign hf)⟩
    · obtain ⟨m, hm⟩ : ∃ m, Names name m := by simpa [IsForeign] using hf
      obtain rfl : m = n := (ordinalOfName_of_names hm).symm.trans h
      exact .inl hm

theorem StandsFor.lt (h : StandsFor name n) : n < ordinalCount := by
  rw [← standsFor_iff.1 h]
  exact ordinalOfName_lt name

end Marker

/-- Whether a token is a named marker that stands for an ordinal. -/
def Kind.StandsFor (k : Kind) (n : Nat) : Prop :=
  ∃ name, k = .named name ∧ Marker.StandsFor name n

theorem Marker.ofKind?_eq_positional_iff {k : Kind} : ofKind? k = some .positional ↔ k = .placeholder := by
  constructor
  · exact eq_placeholder
  · rintro rfl
    rfl

theorem Marker.ofKind?_eq_named_iff {k : Kind} {n : Nat} :
    ofKind? k = some (.named n) ↔ k.StandsFor n := by
  constructor
  · intro h
    cases k with
    | named name =>
      refine ⟨name, rfl, standsFor_iff.2 ?_⟩
      exact Marker.named.inj (Option.some.inj h)
    | _ => cases h
  · rintro ⟨name, rfl, h⟩
    rw [ofKind?, standsFor_iff.1 h]

/-! ### Markers among tokens -/

/-- The tokens of a text that mark parameters, in order. -/
def markerTokens (text : SqlText) : List PlacedLexeme :=
  (tokenize text).filter fun l => l.kind.isMarker

theorem Lexeme.kinds_markerTokens (text : SqlText) :
    (markerTokens text).map (fun l => l.kind) = markers (lex text) := by
  have placed : ∀ (ls : List Lexeme) (offset : Nat), ((placedFrom offset ls).filter fun l =>
      l.kind.isMarker).map (fun l => l.kind) = markers ls := by
    intro ls
    induction ls with
    | nil => intro offset; rfl
    | cons l ls ih =>
      intro offset
      rw [placedFrom]
      cases h : l.kind.isMarker with
      | true =>
        rw [markers_cons_marker h, List.filter_cons_of_pos (by exact h), List.map_cons, ih]
      | false =>
        rw [markers_cons_other h, List.filter_cons_of_neg (by simp [h]), ih]
  exact placed (lex text) 0

/-- Whether a stretch of a text holds another text. -/
def Span.Holds (text : SqlText) (g : Span) (u : SqlText) : Prop :=
  Text.between g.start g.stop text = some u

theorem Span.holds_rightUnique {text : SqlText} : Relator.RightUnique (Span.Holds text) := by
  intro g u v hu hv
  exact Option.some.inj (hu.symm.trans hv)

/-- The stretches that some tokens leave: from a place up to the first token, between each two, and behind the last
one up to the end. -/
def stretchesFrom (offset stop : Nat) : List PlacedLexeme → List Span
  | [] => [⟨offset, stop⟩]
  | p :: ps => ⟨offset, p.start⟩ :: stretchesFrom p.stop stop ps

theorem Marked.texts_prepend_cons {α : Type} (t : SqlText) (a : α) (m : Marked α) :
    ((m.cons a).prepend t).texts = t :: (m.prepend []).texts := by
  simp [texts, prepend, Marked.cons]

/-- The texts around what is cut out are what it leaves.  In the middle of a text some text is pending: it stands
behind the last marker and before the lexemes that are still to come. -/
theorem Lexeme.forall₂_holds_stretchesFrom {α : Type} (mark? : Kind → Option α) (before pending : SqlText)
    (ls : List Lexeme) :
    List.Forall₂ (Span.Holds (before ++ (pending ++ spell ls)))
      (stretchesFrom (Text.byteSize before) (Text.byteSize (before ++ (pending ++ spell ls)))
        ((placedFrom (Text.byteSize (before ++ pending)) ls).filter fun l => (mark? l.kind).isSome))
      ((ofLexemes mark? ls).prepend pending).texts := by
  induction ls generalizing before pending with
  | nil =>
    have h := Text.between_append before pending []
    rw [List.append_nil, ← Text.byteSize_append] at h
    refine .cons ?_ .nil
    show Text.between (Text.byteSize before) (Text.byteSize (before ++ (pending ++ [])))
      (before ++ (pending ++ [])) = some (pending ++ [])
    rw [List.append_nil]
    exact h
  | cons l ls ih =>
    rw [placedFrom]
    cases h : mark? l.kind with
    | some a =>
      have hcut : ofLexemes mark? (l :: ls) = ((ofLexemes mark? ls).cons a).prepend l.gap := by
        rw [ofLexemes, h]
      have hstart : Text.byteSize (before ++ pending) + Text.byteSize l.gap
          = Text.byteSize before + Text.byteSize (pending ++ l.gap) := by
        simp [Nat.add_assoc]
      have hstop : Text.byteSize before + Text.byteSize (pending ++ l.gap) + Text.byteSize l.text
          = Text.byteSize (before ++ (pending ++ l.gap) ++ l.text) := by
        simp [Nat.add_assoc]
      have hall : before ++ (pending ++ spell (l :: ls))
          = before ++ (pending ++ l.gap) ++ l.text ++ ([] ++ spell ls) := by simp
      rw [List.filter_cons_of_pos (by simp [h]), hcut, prepend_prepend, texts_prepend_cons, stretchesFrom]
      refine .cons ?_ ?_
      · show Text.between _ _ _ = _
        rw [hstart, spell_cons, ← List.append_assoc pending]
        exact Text.between_append before (pending ++ l.gap) _
      · have hrest := ih (before ++ (pending ++ l.gap) ++ l.text) []
        rw [List.append_nil] at hrest
        rw [hstart, hall]
        show List.Forall₂ _ (stretchesFrom (_ + Text.byteSize l.text) _ _) _
        rw [hstop]
        exact hrest
    | none =>
      have hcut : ofLexemes mark? (l :: ls) = (ofLexemes mark? ls).prepend (l.gap ++ l.text) := by
        rw [ofLexemes, h]
      have hstart : Text.byteSize (before ++ pending) + Text.byteSize l.gap + Text.byteSize l.text
          = Text.byteSize (before ++ (pending ++ (l.gap ++ l.text))) := by
        simp [Nat.add_assoc]
      have hall : pending ++ spell (l :: ls) = pending ++ (l.gap ++ l.text) ++ spell ls := by simp
      rw [List.filter_cons_of_neg (by simp [h]), hcut, prepend_prepend, hstart, hall]
      exact ih before (pending ++ (l.gap ++ l.text))

/-- A text holds what is left of it in the stretches that its marks leave. -/
theorem Marked.forall₂_holds_texts {α : Type} (mark? : Kind → Option α) (text : SqlText) :
    List.Forall₂ (Span.Holds text)
      (stretchesFrom 0 (Text.byteSize text) ((tokenize text).filter fun l => (mark? l.kind).isSome))
      (ofLexemes mark? (lex text)).texts := by
  have h := forall₂_holds_stretchesFrom mark? [] [] (lex text)
  simp only [List.nil_append, spell_lex] at h
  exact h

theorem Lexeme.map_some_marks_markerTokens (text : SqlText) : (cut (lex text)).marks.map some
    = (markerTokens text).map fun l => Marker.ofKind? l.kind := by
  rw [map_some_marks_cut, ← kinds_markerTokens, List.map_map]
  rfl

theorem Lexeme.length_marks_markerTokens (text : SqlText) :
    (cut (lex text)).marks.length = (markerTokens text).length := by
  simpa using congrArg List.length (map_some_marks_markerTokens text)

theorem Lexeme.marks_positional_iff (text : SqlText) : (∀ m ∈ (cut (lex text)).marks, m = .positional)
    ↔ ∀ l ∈ markerTokens text, l.kind = .placeholder := by
  have hsome : (∀ m ∈ (cut (lex text)).marks, m = .positional)
      ↔ ∀ m ∈ (cut (lex text)).marks.map some, m = some .positional := by simp
  rw [hsome, map_some_marks_markerTokens, List.forall_mem_map]
  simp only [Marker.ofKind?_eq_positional_iff]

/-- Whether markers are named and stand for some ordinals, in order. -/
def NamedBy (ms : List PlacedLexeme) (ordinals : List Nat) : Prop :=
  List.Forall₂ (fun m n => m.kind.StandsFor n) ms ordinals

theorem NamedBy.exists_of_mem {ms : List PlacedLexeme} {ordinals : List Nat} (h : NamedBy ms ordinals) :
    (∀ m ∈ ms, ∃ n ∈ ordinals, m.kind.StandsFor n) ∧ ∀ n ∈ ordinals, ∃ m ∈ ms, m.kind.StandsFor n := by
  induction h with
  | nil => simp
  | cons hn rest ih =>
    refine ⟨List.forall_mem_cons.2 ⟨⟨_, List.mem_cons_self, hn⟩, fun m hm => ?_⟩,
      List.forall_mem_cons.2 ⟨⟨_, List.mem_cons_self, hn⟩, fun n hm => ?_⟩⟩
    · obtain ⟨n, hmem, hstands⟩ := ih.1 m hm
      exact ⟨n, List.mem_cons_of_mem _ hmem, hstands⟩
    · obtain ⟨m, hmem, hstands⟩ := ih.2 n hm
      exact ⟨m, List.mem_cons_of_mem _ hmem, hstands⟩

theorem NamedBy.lt {ms : List PlacedLexeme} {ordinals : List Nat} (h : NamedBy ms ordinals) :
    ∀ n ∈ ordinals, n < Marker.ordinalCount := by
  intro n hn
  obtain ⟨m, -, name, -, hstands⟩ := h.exists_of_mem.2 n hn
  exact hstands.lt

theorem Lexeme.namedBy_iff {text : SqlText} {ordinals : List Nat} : NamedBy (markerTokens text) ordinals
    ↔ List.Forall₂ Kind.StandsFor (markers (lex text)) ordinals := by
  rw [← kinds_markerTokens, List.forall₂_map_left_iff, NamedBy]

theorem Lexeme.marks_eq_map_named_iff {text : SqlText} {ordinals : List Nat} :
    (cut (lex text)).marks = ordinals.map Marker.named ↔ NamedBy (markerTokens text) ordinals := by
  rw [← (Option.some_injective _).list_map.eq_iff, map_some_marks_markerTokens, List.map_map,
    ← List.forall₂_eq_eq_eq, List.forall₂_map_left_iff, List.forall₂_map_right_iff, NamedBy]
  simp only [Function.comp_apply, Marker.ofKind?_eq_named_iff]

/-! ### Resolving -/

namespace Tracker

variable {t : Tracker} {text : SqlText} {s : Statement}

/-- Whether markers stand for the tracked parameters one by one: there are as many of them, and all are `?`, or
names of distinct ordinals that are tracked. -/
def Resolves (t : Tracker) (ms : List PlacedLexeme) : Prop :=
  ms.length = t.size ∧
    ((∀ m ∈ ms, m.kind = .placeholder) ∨
      ∃ ordinals : List Nat, NamedBy ms ordinals ∧ ordinals.Nodup ∧ ∀ n ∈ ordinals, t.Tracks n)

/-- Whether a statement is a text with the tracked parameters in the places of its markers. -/
structure Restored (t : Tracker) (text : SqlText) (s : Statement) : Prop where
  /-- The texts are what the markers leave of the text. -/
  texts : List.Forall₂ (Span.Holds text) (stretchesFrom 0 (Text.byteSize text) (markerTokens text)) s.texts
  /-- Markers `?` stand for the tracked parameters as they come. -/
  positional : (∀ m ∈ markerTokens text, m.kind = .placeholder) → Statement.parameters s = t.parameters
  /-- A name stands for the first tracked parameter with its ordinal. -/
  named : ∀ ordinals, NamedBy (markerTokens text) ordinals →
    List.Forall₂ t.IsFirst ordinals (Statement.parameters s)

theorem resolve?_eq_some_iff {markers : List Marker} {ps : List Parameter} :
    t.resolve? markers = some ps ↔ markers.length = t.size ∧
      ((∀ m ∈ markers, m = .positional) ∧ ps = t.parameters ∨
        ∃ ordinals : List Nat, markers = ordinals.map Marker.named ∧ ordinals.Nodup ∧
          List.Forall₂ t.IsFirst ordinals ps) := by
  simp only [← mapM_get?_eq_some_iff]
  constructor
  · exact eq_of_resolve?
  · rintro ⟨hl, ⟨hp, rfl⟩ | ⟨ordinals, rfl, hd, hm⟩⟩
    · exact resolve?_positional hl hp
    · rw [resolve?_named (by simpa using hl) hd, hm]

theorem exists_resolve?_iff :
    (∃ ps, t.resolve? (cut (lex text)).marks = some ps) ↔ t.Resolves (markerTokens text) := by
  rw [Resolves, ← length_marks_markerTokens, ← marks_positional_iff]
  simp only [resolve?_eq_some_iff, ← marks_eq_map_named_iff, ← exists_forall₂_isFirst_iff]
  constructor
  · rintro ⟨ps, hl, ⟨hp, -⟩ | ⟨ordinals, hm, hd, hps⟩⟩
    · exact ⟨hl, .inl hp⟩
    · exact ⟨hl, .inr ⟨ordinals, hm, hd, ps, hps⟩⟩
  · rintro ⟨hl, hp | ⟨ordinals, hm, hd, ps, hps⟩⟩
    · exact ⟨t.parameters, hl, .inl ⟨hp, rfl⟩⟩
    · exact ⟨ps, hl, .inr ⟨ordinals, hm, hd, hps⟩⟩

theorem exists_restore_iff :
    (∃ s, t.restore text = .ok s) ↔ t.Resolves (markerTokens text) := by
  rw [← exists_resolve?_iff]
  constructor
  · rintro ⟨s, hs⟩
    exact ⟨_, parameters_of_restore hs⟩
  · rintro ⟨ps, hps⟩
    refine ⟨(cut (lex text)).withMarks ps, ?_⟩
    simp only [restore, hps]

/-- There is one way to fail. -/
theorem restore_of_not_resolves (h : ¬ t.Resolves (markerTokens text)) :
    t.restore text = .error (.parameterLoss t.size (markerTokens text).length) := by
  have hnone : t.resolve? (cut (lex text)).marks = none := by
    rw [Option.eq_none_iff_forall_ne_some]
    intro ps hps
    exact h (exists_resolve?_iff.1 ⟨ps, hps⟩)
  simp only [restore, hnone, length_marks_markerTokens]

theorem restored_of_restore (h : t.restore text = .ok s) : t.Restored text s := by
  have hresolve := parameters_of_restore h
  obtain ⟨hl, hways⟩ := resolve?_eq_some_iff.1 hresolve
  refine ⟨?_, ?_, ?_⟩
  · have htexts := forall₂_holds_texts Marker.ofKind? text
    simp only [Kind.isSome_ofKind?] at htexts
    rw [cutFrom_of_restore h]
    exact htexts
  · intro hp
    have hall := resolve?_positional hl ((marks_positional_iff text).2 hp)
    exact Option.some.inj (hresolve.symm.trans hall)
  · intro ordinals hn
    have hmarks := marks_eq_map_named_iff.2 hn
    obtain ⟨hp, hparameters⟩ | ⟨others, hothers, hd, hfirst⟩ := hways
    · -- Markers that are all `?` and all named are none.
      cases ordinals with
      | nil =>
        have hnone : t.parameters = [] := by
          apply List.length_eq_zero_iff.1
          rw [← size, ← hl, hmarks]
          rfl
        rw [hparameters, hnone]
        exact .nil
      | cons n ordinals =>
        rw [hmarks, List.map_cons] at hp
        cases hp _ List.mem_cons_self
    · have hinj : Function.Injective Marker.named := fun _ _ => Marker.named.inj
      obtain rfl : others = ordinals := hinj.list_map (hothers.symm.trans hmarks)
      exact hfirst

/-- Names are restored to parameters of their ordinals. -/
theorem ordinals_of_namedBy {ordinals : List Nat} (h : t.restore text = .ok s)
    (hn : NamedBy (markerTokens text) ordinals) :
    (Statement.parameters s).map Parameter.ordinal = ordinals.map some := by
  have hfirst := (restored_of_restore h).named ordinals hn
  rw [← List.forall₂_eq_eq_eq, List.forall₂_map_left_iff, List.forall₂_map_right_iff]
  exact (hfirst.imp fun n p hp => hp.1).flip

theorem isFirst_rightUnique : Relator.RightUnique t.IsFirst := by
  intro n p q hp hq
  rw [← get?_eq_some_iff] at hp hq
  exact Option.some.inj (hp.symm.trans hq)

/-- There is one statement that is a text with the tracked parameters in it. -/
theorem Restored.unique {s' : Statement} (hr : t.Resolves (markerTokens text)) (h : t.Restored text s)
    (h' : t.Restored text s') : s = s' := by
  have htexts : s.texts = s'.texts :=
    List.right_unique_forall₂' Span.holds_rightUnique h.texts h'.texts
  have hparameters : Statement.parameters s = Statement.parameters s' := by
    obtain ⟨-, hp | ⟨ordinals, hn, -, -⟩⟩ := hr
    · rw [h.positional hp, h'.positional hp]
    · exact List.right_unique_forall₂' isFirst_rightUnique (h.named ordinals hn) (h'.named ordinals hn)
  rw [← withMarks_marks s, ← withMarks_marks s', withMarks_congr htexts]
  exact congrArg _ hparameters

theorem restore_eq_ok_iff :
    t.restore text = .ok s ↔ t.Resolves (markerTokens text) ∧ t.Restored text s := by
  constructor
  · intro h
    exact ⟨exists_restore_iff.1 ⟨s, h⟩, restored_of_restore h⟩
  · rintro ⟨hr, h⟩
    obtain ⟨s', hs'⟩ := exists_restore_iff.2 hr
    rw [h.unique hr (restored_of_restore hs')]
    exact hs'

theorem verify_eq_ok_iff : t.verify s = .ok () ↔ ∀ ordinal,
    ((Statement.parameters s).map Parameter.ordinal).count ordinal
      = (t.parameters.map Parameter.ordinal).count ordinal := by
  rw [← List.perm_iff_count, ← List.isPerm_iff, verify]
  constructor
  · intro h
    by_contra hp
    rw [if_neg hp] at h
    cases h
  · intro hp
    rw [if_pos hp]

end Tracker

/-- **Restoring is exact.**  A text is restored if and only if its markers stand for the tracked parameters one by
one; otherwise it is refused with the numbers of parameters and markers.  What comes out is the one statement that
has the texts between the markers and, for each marker, the parameter it stands for.  `Tracker.verify` accepts it, as
it accepts exactly the statements that bind each ordinal as often as it is tracked.  It binds the tracked
parameters, each once, also where tracked ordinals repeat. -/
theorem restore_as_marked (t : Tracker) (text : SqlText) :
    ((∃ s, t.restore text = .ok s) ↔ t.Resolves (markerTokens text)) ∧
    (¬ t.Resolves (markerTokens text) →
      t.restore text = .error (.parameterLoss t.size (markerTokens text).length)) ∧
    (∀ s, t.restore text = .ok s ↔ t.Resolves (markerTokens text) ∧ t.Restored text s) ∧
    (∀ s, t.restore text = .ok s →
      t.verify s = .ok () ∧ (Statement.parameters s).Perm t.parameters) ∧
    ∀ s, t.verify s = .ok () ↔ ∀ ordinal,
      ((Statement.parameters s).map Parameter.ordinal).count ordinal
        = (t.parameters.map Parameter.ordinal).count ordinal := by
  refine ⟨Tracker.exists_restore_iff, Tracker.restore_of_not_resolves, fun s => Tracker.restore_eq_ok_iff,
    fun s h => ?_, fun s => Tracker.verify_eq_ok_iff⟩
  exact ⟨Tracker.verify_of_restore h, Tracker.perm_of_restore h⟩

end JetAdapter
