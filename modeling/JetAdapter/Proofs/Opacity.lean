import JetAdapter.Proofs.AliasSwaps
import JetAdapter.Proofs.CaseSwaps
import JetAdapter.Proofs.JoinSwaps
import JetAdapter.Proofs.Rounds
import JetAdapter.Adapter

/-!
# Markers of parameters in rewritten texts

Nesting joins and the rules that replace calls and conditional expressions keep the markers of a text up to
their order, whatever the text is.  Replacing names in an ordering does so too, as long as the text that comes
out has no faults and no expression that starts with a digit is written directly behind a `BY`
(`markers_perm`).  It is not so for every text: an expression that ends with `1e` before a comment takes the
first sign of the comment in.
-/

namespace JetAdapter

open Cell (Sound spell)

/-- The markers of a text as they are spelled. -/
def Text.markers (t : SqlText) : List SqlText :=
  ((lex t).filter fun l => l.kind.isMarker).map Lexeme.text

/-! ### Kinds of swaps that keep markers -/

theorem Lexeme.map_text_filter_lexemes {κ : Kind → Bool} {p : Cell → Bool} (heof : κ .eof = false)
    (hgap : ∀ g, p (.gap g) = false) (hp : ∀ k t, p (.token k t) = κ k) (g : SqlText)
    (cs : List Cell) :
    (((Cell.lexemes g cs).filter fun l => κ l.kind).map Lexeme.text) = (cs.filter p).map Cell.text := by
  induction cs generalizing g with
  | nil => simp [Cell.lexemes, heof]
  | cons c cs ih =>
    cases c with
    | gap g' => rw [Cell.lexemes, ih, List.filter_cons_of_neg (by simp [hgap])]
    | token k t =>
      rw [Cell.lexemes, List.filter_cons, List.filter_cons, hp]
      split
      · rw [List.map_cons, List.map_cons, ih]
        rfl
      · rw [ih]

theorem Text.markers_eq (t : SqlText) :
    Text.markers t = ((Cell.ofText t).filter Cell.isMarker).map Cell.text := by
  have h := (Cell.sound_ofText t).lex_spell
  rw [Cell.spell_ofText] at h
  rw [Text.markers, h]
  exact Lexeme.map_text_filter_lexemes rfl (fun _ => rfl) (fun _ _ => rfl) _ _

/-- Whether swaps are harmless, bring in no faults and keep the markers. -/
structure Swap.KeepsMarkers (R : Swap) : Prop where
  marker : Woven.Harmless Cell.isMarker R
  fault : Woven.Harmless Cell.isFault R
  faultless : ∀ {X D Y N : List Cell}, R X D Y N → (∀ c ∈ X ++ (D ++ Y), c.isFault = false) →
    ∀ c ∈ N, c.isFault = false
  perm : ∀ {X D Y N : List Cell}, R X D Y N → Sound (X ++ (D ++ Y)) →
    (∀ c ∈ X ++ (D ++ Y), c.isFault = false) →
      (N.filter Cell.isMarker).Perm (D.filter Cell.isMarker)

/-- Such swaps keep the markers of a text without faults. -/
theorem Swap.KeepsMarkers.perm_markers {R : Swap} (hR : R.KeepsMarkers) {text out : SqlText}
    (h : R.Makes text out) (hf : ∀ c ∈ Cell.ofText text, c.isFault = false) :
    (Text.markers out).Perm (Text.markers text) := by
  have hout := h.isFault hR.fault hR.faultless hf
  have hperm := h.perm_filter (fun _ => rfl) hR.marker hR.perm hf
    fun c hc hfault => by rw [hout c hc] at hfault; cases hfault
  rw [Text.markers_eq, Text.markers_eq]
  exact hperm.map _

theorem Cell.Plain.isFault_of {c : Cell} (h : Cell.Plain c) : c.isFault = false :=
  h _ Cell.spares_isFault

theorem LetterCase.keepsMarkers : Swap.KeepsMarkers LetterCase.Swapped where
  marker := harmless _
  fault := harmless _
  faultless h _ c hc := (h.plain c hc).isFault_of
  perm h hs _ := h.perm_filter Cell.spares_isMarker hs

theorem Extract.keepsMarkers : Swap.KeepsMarkers Extract.Swapped where
  marker := harmless _
  fault := harmless _
  faultless h _ c hc := by
    rcases h.plain_or c hc with hplain | ⟨-, interval, -, rfl⟩
    · exact hplain.isFault_of
    · rfl
  perm h hs _ := by
    rw [(h.unmarked hs).1, (h.unmarked hs).2]

theorem Locate.keepsMarkers : Swap.KeepsMarkers Locate.Swapped where
  marker := harmless _
  fault := harmless _
  faultless h hf c hc := (h.source c hc).elim (hf c) Cell.Plain.isFault_of
  perm h hs _ := h.perm_filter Cell.spares_isMarker hs

theorem Conditional.keepsMarkers : Swap.KeepsMarkers Conditional.Swapped where
  marker := harmless _
  fault := harmless _
  faultless h hf c hc := (h.source c hc).elim (hf c) Cell.Plain.isFault_of
  perm h _ _ := by rw [h.filter_isMarker]

theorem JoinChain.keepsMarkers : Swap.KeepsMarkers JoinChain.Swapped where
  marker := harmless Cell.spares_isMarker
  fault := harmless Cell.spares_isFault
  faultless h _ c hc := (h.plain.1 c hc).isFault_of
  perm {X D Y N} h _ _ := by
    have hN : N.filter Cell.isMarker = [] := by
      refine List.filter_eq_nil_iff.2 fun c hc => ?_
      rw [h.plain.1 c hc _ Cell.spares_isMarker]
      simp
    rw [hN, h.plain.2]
    exact .refl _

/-! ### Steps -/

/-- What reads its text first fails where there are faults. -/
theorem Query.isFault_of_bind {α : Type} {text : SqlText} {f : Query → Except SqlError α} {a : α}
    (h : (ofText text >>= f) = .ok a) : ∀ c ∈ Cell.ofText text, c.isFault = false := by
  obtain ⟨q, hq, -⟩ := Except.bind_eq_ok h
  exact isFault_of_ofText hq

/-- A repeated step that makes such swaps keeps the markers of a text. -/
theorem Swap.KeepsMarkers.perm_markers_exhaust {R : Swap} (hR : R.KeepsMarkers)
    {step : Query → Except SqlError (Option Edit)}
    (hstep : ∀ {t u : SqlText} {q : Query} {e : Edit}, Query.ofText t = .ok q →
      step q = .ok (some e) → Edit.applyAll [e] t = .ok u → R.Once t u)
    {text out : SqlText} (h : Query.exhaust step text = .ok out) :
    (Text.markers out).Perm (Text.markers text) := by
  refine Query.exhaust_induction (P := fun t => (Text.markers t).Perm (Text.markers text))
    (fun {t u q e} hq he hu ht => ?_) h (.refl _)
  exact (hR.perm_markers (hstep hq he hu).makes (Query.isFault_of_ofText hq)).trans ht

theorem Text.isFault_of_mem_ofText {t : SqlText} (h : ∀ l ∈ lex t, l.kind.isFault = false) :
    ∀ c ∈ Cell.ofText t, c.isFault = false := by
  intro c hc
  rcases Lexeme.mem_cellsOf hc with ⟨g, rfl⟩ | ⟨l, hl, rfl⟩
  · rfl
  · exact h l hl

theorem Cell.isMarker_of_isFault {c : Cell} (h : c.isFault = true) : c.isMarker = false := by
  cases c with
  | gap g => rfl
  | token k t => cases k <;> first | rfl | cases h

theorem OrderAlias.perm_markers {text out : SqlText} (h : spellOut text = .ok out)
    (apart : ∀ q, Query.ofText text = .ok q → DigitsApart q)
    (hout : ∀ l ∈ lex out, l.kind.isFault = false) :
    (Text.markers out).Perm (Text.markers text) := by
  have hfaultless := Text.isFault_of_mem_ofText hout
  have hperm := (makes h apart).perm_filter (fun _ => rfl)
    (harmless Cell.spares_isMarker fun c => Cell.isMarker_of_isFault)
    (fun {X D Y N} hsw _ _ => by rw [hsw.unmarked.1, hsw.unmarked.2])
    (Query.isFault_of_bind h) fun c hc hf => by rw [hfaultless c hc] at hf; cases hf
  rw [Text.markers_eq, Text.markers_eq]
  exact hperm.map _

theorem Adapter.adaptText_of_no_rules (limit : Option UInt64) (text : SqlText) :
    (ofOptions ⟨[], limit, none⟩).adaptText text = JoinChain.nestAll text := by
  show (JoinChain.nestAll text >>= fun t => .ok t) = _
  cases JoinChain.nestAll text with
  | error e => rfl
  | ok t => rfl

/-- **Rewriting keeps the markers of parameters.**  Nesting joins and replacing the functions for letter case,
for parts of dates and for searching and the conditional expressions keep the markers up to their order.
Replacing names in an ordering does so if no expression that starts with a digit is written directly behind a
`BY` and the text that comes out has no faults. -/
theorem markers_perm (text out : SqlText) :
    (∀ limit, (Adapter.ofOptions ⟨[], limit, none⟩).adaptText text = .ok out →
      (Text.markers out).Perm (Text.markers text)) ∧
    (∀ r ∈ [Rule.upperLower, .extract, .locate, .caseWhen], r.apply text = .ok out →
      (Text.markers out).Perm (Text.markers text)) ∧
    (Rule.orderByAlias.apply text = .ok out →
      (∀ q, Query.ofText text = .ok q → OrderAlias.DigitsApart q) →
      (∀ l ∈ lex out, l.kind.isFault = false) →
        (Text.markers out).Perm (Text.markers text)) := by
  refine ⟨fun limit h => ?_, fun r hr h => ?_, fun h apart hout => ?_⟩
  · rw [Adapter.adaptText_of_no_rules] at h
    exact JoinChain.keepsMarkers.perm_markers (JoinChain.makes h) (Query.isFault_of_bind h)
  · simp only [List.mem_cons, List.not_mem_nil, or_false] at hr
    rcases hr with rfl | rfl | rfl | rfl
    · exact LetterCase.keepsMarkers.perm_markers (LetterCase.makes h) (Query.isFault_of_bind h)
    · exact Extract.keepsMarkers.perm_markers (Extract.makes h) (Query.isFault_of_bind h)
    · exact Locate.keepsMarkers.perm_markers_exhaust Locate.once h
    · exact Conditional.keepsMarkers.perm_markers_exhaust Conditional.once h
  · exact OrderAlias.perm_markers h apart hout

/-- A search keeps its markers, but not their order. -/
example : Text.markers "select InStr(?, @x) from T".toList ≠ Text.markers "select locate(@x, ?) from T".toList := by
  decide +kernel

theorem Query.forall_of_ofText {P : Query → Prop} [DecidablePred P] {text : SqlText}
    (h : ((ofText text).toOption.all fun q => decide (P q)) = true) :
    ∀ q, ofText text = .ok q → P q := by
  intro q hq
  rw [hq] at h
  exact of_decide_eq_true h

/-- Two parameters trade their places in a call, and an ordering beside a parameter is spelled out. -/
theorem markers_perm_locate_orderByAlias :
    (Text.markers "select InStr(?, @x) from T".toList).Perm
      (Text.markers "select locate(@x, ?) from T".toList) ∧
    (Text.markers "select a+1 as x from T where b=? order by a+1".toList).Perm
      (Text.markers "select a+1 as x from T where b=? order by x".toList) := by
  refine ⟨(markers_perm _ _).2.1 .locate (by decide) (by decide +kernel), ?_⟩
  exact (markers_perm _ _).2.2 (by decide +kernel) (Query.forall_of_ofText (by decide +kernel))
    (by decide +kernel)

/-- An expression that runs into a comment makes a marker of what was in the comment. -/
theorem not_markers_perm :
    ¬ ∀ text out, Rule.orderByAlias.apply text = .ok out →
      (Text.markers out).Perm (Text.markers text) := by
  intro h
  have hperm := h "select 1e as x from T order by x--?\n".toList
    "select 1e as x from T order by 1e--?\n".toList (by decide +kernel)
  exact absurd hperm.length_eq (by decide +kernel)

end JetAdapter
