import JetAdapter.Proofs.Restoring

/-!
# Names of no ordinal

A marker such as `@x` names no ordinal, and a text with one should be refused.  It is looked up with the greatest
ordinal, though, and that is an ordinal like any other: a tracker may hold it.  `foreign_names_refused_iff` says which
trackers refuse every text with a foreign name.  They are all but those whose ordinals are distinct and in range with
the greatest one among them (`Tracker.TakesForeign`).

Such a tracker takes a foreign name for its greatest ordinal.  To see it, a text is written that lists the tracked
ordinals by name, the greatest one as `@x` (`listing`).  Conversely, what is restored binds each tracked parameter
once, so the ordinals of the markers are those of the tracker, and that of a foreign name is the greatest.
-/

namespace JetAdapter

open Marked Lexeme

/-- Whether a text has a marker whose name is that of no ordinal. -/
def HasForeignName (text : SqlText) : Prop :=
  ∃ l ∈ markerTokens text, ∃ name, l.kind = .named name ∧ Marker.IsForeign name

theorem hasForeignName_iff {text : SqlText} : HasForeignName text ↔
    ∃ name, .named name ∈ markers (lex text) ∧ Marker.IsForeign name := by
  rw [← kinds_markerTokens]
  constructor
  · rintro ⟨l, hl, name, hk, hf⟩
    exact ⟨name, List.mem_map.2 ⟨l, hl, hk⟩, hf⟩
  · rintro ⟨name, hk, hf⟩
    obtain ⟨l, hl, hk⟩ := List.mem_map.1 hk
    exact ⟨l, hl, name, hk, hf⟩

/-- Whether the tracked parameters have distinct ordinals in range, the greatest one among them. -/
def Tracker.TakesForeign (t : Tracker) : Prop :=
  ∃ ordinals : List Nat, t.parameters.map Parameter.ordinal = ordinals.map some ∧ ordinals.Nodup ∧
    (∀ n ∈ ordinals, n < Marker.ordinalCount) ∧ Marker.foreignOrdinal ∈ ordinals

/-! ### Listing ordinals -/

/-- The marker that an ordinal is listed by; the greatest one goes by a foreign name. -/
def listedKind (n : Nat) : Kind :=
  if n = Marker.foreignOrdinal then .named ['x'] else Kind.ofOrdinal n

/-- The tokens of a text that lists ordinals, each behind a blank. -/
def listing (ordinals : List Nat) : List Lexeme :=
  ordinals.map (fun n => ⟨listedKind n, [' '], (listedKind n).markerText⟩) ++ [⟨.eof, [], []⟩]

theorem isForeign_x : Marker.IsForeign ['x'] := by
  rintro n ⟨digits, hx, -⟩
  have hc := (List.cons.inj hx).1
  exact absurd hc (by decide)

theorem marks_listedKind (n : Nat) : (listedKind n).Marks := by
  rw [listedKind]
  split
  · refine .named (List.cons_ne_nil _ _) ?_
    intro c hc
    obtain rfl := List.mem_singleton.1 hc
    decide
  · exact Kind.marks_ofOrdinal n

theorem standsFor_listedKind {n : Nat} (h : n < Marker.ordinalCount) : (listedKind n).StandsFor n := by
  rw [listedKind]
  split
  · next hn => exact ⟨['x'], rfl, .inr ⟨isForeign_x, hn⟩⟩
  · exact Marker.ofKind?_eq_named_iff.1 (Kind.ofKind?_ofOrdinal h)

theorem breaksWord_spell_listing (ordinals : List Nat) : Text.BreaksWord (spell (listing ordinals)) := by
  cases ordinals with
  | nil => decide
  | cons n ordinals =>
    intro c hc
    obtain rfl : ' ' = c := by simpa [listing] using hc
    decide

/-- A listing is read as the markers it is made of. -/
theorem lexed_listing (ordinals : List Nat) : Lexed (listing ordinals) := by
  induction ordinals with
  | nil => exact .last ⟨rfl, rfl, rfl⟩
  | cons n ordinals ih =>
    refine .cons ⟨?_, ?_⟩ ih
    · obtain ⟨c, w, hw, hc⟩ := (marks_listedKind n).markerText.eq_cons
      show scanGap .blanks (' ' :: ((listedKind n).markerText ++ spell (listing ordinals)))
        = ([' '], (listedKind n).markerText ++ spell (listing ordinals))
      rw [scanGap_blank (by decide), hw, List.cons_append, scanGap_marker hc]
    · exact scan_marker (marks_listedKind n) fun _ => breaksWord_spell_listing ordinals

theorem markers_listing (ordinals : List Nat) : markers (listing ordinals) = ordinals.map listedKind := by
  induction ordinals with
  | nil => rfl
  | cons n ordinals ih =>
    show markers (_ :: listing ordinals) = _
    rw [markers_cons_marker (marks_listedKind n).isMarker, ih, List.map_cons]

theorem namedBy_listing {ordinals : List Nat} (h : ∀ n ∈ ordinals, n < Marker.ordinalCount) :
    NamedBy (markerTokens (spell (listing ordinals))) ordinals := by
  rw [namedBy_iff, (lexed_listing ordinals).lex_spell, markers_listing, List.forall₂_map_left_iff,
    List.forall₂_same]
  intro n hn
  exact standsFor_listedKind (h n hn)

/-! ### Which trackers refuse them -/

namespace Tracker

variable {t : Tracker} {text : SqlText}

/-- A tracker that takes foreign names restores one. -/
theorem TakesForeign.exists_restore (h : t.TakesForeign) :
    ∃ text, HasForeignName text ∧ ∃ s, t.restore text = .ok s := by
  obtain ⟨ordinals, hordinals, hd, hlt, hf⟩ := h
  have hnamed := namedBy_listing hlt
  refine ⟨spell (listing ordinals), ?_, exists_restore_iff.2 ⟨?_, .inr ⟨ordinals, hnamed, hd, ?_⟩⟩⟩
  · rw [hasForeignName_iff, (lexed_listing ordinals).lex_spell, markers_listing]
    exact ⟨['x'], List.mem_map_of_mem hf, isForeign_x⟩
  · rw [hnamed.length_eq, size]
    simpa using (congrArg List.length hordinals).symm
  · intro n hn
    have hmem : some n ∈ t.parameters.map Parameter.ordinal := by
      rw [hordinals]
      exact List.mem_map_of_mem hn
    obtain ⟨p, hp, ho⟩ := List.mem_map.1 hmem
    exact ⟨p, hp, ho⟩

/-- The ordinals of named markers that are restored are the tracked ones. -/
theorem perm_of_namedBy {s : Statement} {ordinals : List Nat} (h : t.restore text = .ok s)
    (hn : NamedBy (markerTokens text) ordinals) :
    (t.parameters.map Parameter.ordinal).Perm (ordinals.map some) := by
  rw [← ordinals_of_namedBy h hn]
  exact ((perm_of_restore h).map Parameter.ordinal).symm

/-- A tracker that restores a foreign name takes it for its greatest ordinal. -/
theorem takesForeign_of_restore {s : Statement} (hf : HasForeignName text) (h : t.restore text = .ok s) :
    t.TakesForeign := by
  obtain ⟨l, hl, name, hk, hforeign⟩ := hf
  obtain ⟨-, hp | ⟨ordinals, hn, hd, -⟩⟩ := exists_restore_iff.1 ⟨s, h⟩
  · rw [hp l hl] at hk
    cases hk
  · have hperm := perm_of_namedBy h hn
    obtain ⟨tracked, htracked, hsame⟩ := exists_ordinals_of_perm hperm
    refine ⟨tracked, htracked, hsame.nodup_iff.2 hd, ?_, ?_⟩
    · intro n hmem
      exact hn.lt n (hsame.mem_iff.1 hmem)
    · obtain ⟨n, hmem, name', hk', hstands⟩ := hn.exists_of_mem.1 l hl
      obtain rfl : name = name' := Kind.named.inj (hk.symm.trans hk')
      have hgreatest : Marker.foreignOrdinal = n :=
        (Marker.ordinalOfName_of_isForeign hforeign).symm.trans (Marker.standsFor_iff.1 hstands)
      rw [hgreatest]
      exact hsame.mem_iff.2 hmem

end Tracker

/-- **Which trackers refuse foreign names.**  Every text with a foreign name is refused, with the numbers of parameters
and markers, if and only if the tracked ordinals are not distinct, not in range or the greatest one is not among
them. -/
theorem foreign_names_refused_iff (t : Tracker) :
    (∀ text, HasForeignName text →
      t.restore text = .error (.parameterLoss t.size (markerTokens text).length)) ↔ ¬ t.TakesForeign := by
  constructor
  · intro hrefused htakes
    obtain ⟨text, hf, s, hs⟩ := htakes.exists_restore
    rw [hrefused text hf] at hs
    cases hs
  · intro hno text hf
    apply Tracker.restore_of_not_resolves
    intro hr
    obtain ⟨s, hs⟩ := Tracker.exists_restore_iff.2 hr
    exact hno (Tracker.takesForeign_of_restore hf hs)

/-- A statement with one parameter, of the greatest ordinal. -/
def lastOrdinalStatement : Statement :=
  ⟨"select ".toList, [(⟨.int 1, some Marker.foreignOrdinal⟩, [])]⟩

/-- Not every tracked statement of ordinals in range refuses foreign names. -/
theorem not_foreign_names_refused :
    ¬ ∀ s : Statement, (∀ n ∈ s.effectiveOrdinals, n < Marker.ordinalCount) → ∀ text, HasForeignName text →
      (Tracker.linearize s).1.restore text
        = .error (.parameterLoss (Tracker.linearize s).1.size (markerTokens text).length) := by
  intro h
  have hforeign : HasForeignName "select @x".toList := by
    rw [hasForeignName_iff]
    exact ⟨['x'], by decide +kernel, isForeign_x⟩
  have hrefused := h lastOrdinalStatement (by decide) "select @x".toList hforeign
  have hrestored : (Tracker.linearize lastOrdinalStatement).1.restore "select @x".toList
      = .ok lastOrdinalStatement := by decide +kernel
  rw [hrestored] at hrefused
  cases hrefused

end JetAdapter
