import JetAdapter.Proofs.Respelling
import JetAdapter.Proofs.Tracker

/-!
# Markers in lexemes

The markers of a text are cut out of its lexemes, and parameters are written into the places with markers of
some other spelling.  What are the lexemes of the text that comes out?  If all goes well, they are the old
ones with other markers (`respell`), and the places are the same as before (`cut_respell`).

It goes well for markers `?`.  A name goes on with the letters and digits behind it, so the text behind a
marker must not start with one (`Marked.WordsApart`).  And in either spelling no `@` that is a token of its
own may get a marker behind it that starts with an `@` (`AtsApart`).  These conditions are enough
(`Lexed.respell`).  For names each of them is also necessary, given the other one: where a word goes on the
marker is read with a longer name (`Lexed.lex_eq_respell`), and behind an `@` it is not read at all
(`Lexed.atsApart_or_length_lt`).
-/

namespace JetAdapter

/-- Whether a word that stands before a text ends there. -/
def Text.BreaksWord (t : SqlText) : Prop :=
  ∀ c ∈ t.head?, continuesWord c = false

instance (t : SqlText) : Decidable (Text.BreaksWord t) :=
  decidable_of_iff ((t.head?.all fun c => !Text.continuesWord c) = true) (by
    cases t <;> simp [Text.BreaksWord])

theorem Text.breaksWord_iff {t : SqlText} : BreaksWord t ↔ t.takeWhile continuesWord = [] := by
  cases t with
  | nil => simp [BreaksWord]
  | cons c t => simp [BreaksWord, List.takeWhile_cons]

theorem Text.breaksWord_append {s t : SqlText} :
    BreaksWord (s ++ t) ↔ BreaksWord s ∧ (s = [] → BreaksWord t) := by
  cases s with
  | nil => simp [BreaksWord]
  | cons c s => simp [BreaksWord]

theorem MarkerText.breaksWord {m : SqlText} (h : MarkerText m) : Text.BreaksWord m := by
  obtain ⟨c, t, rfl, hc⟩ := h.eq_cons
  intro d hd
  obtain rfl : c = d := by simpa using hd
  exact Lexeme.continuesWord_eq_false_of_startsMarker hc

/-! ### Texts around marks -/

namespace Marked

variable {α β : Type}

/-- The texts around the marks. -/
def texts (m : Marked α) : List SqlText :=
  m.head :: m.tail.map Prod.snd

/-- Whether no text behind a mark goes on with a word. -/
def WordsApart (m : Marked α) : Prop :=
  ∀ t ∈ m.texts.tail, Text.BreaksWord t

instance (m : Marked α) : Decidable m.WordsApart :=
  decidable_of_iff ((m.texts.tail.all fun t => decide (Text.BreaksWord t)) = true) (by
    simp [WordsApart])

theorem texts_withMarks {m : Marked α} {bs : List β} (h : bs.length = m.marks.length) :
    (m.withMarks bs).texts = m.texts := by
  rw [length_marks] at h
  rw [withMarks_eq_zip, texts, texts]
  congr 1
  exact List.map_snd_zip (by simp [h])

theorem length_texts (m : Marked α) : m.texts.length = m.marks.length + 1 := by
  simp [texts, marks]

theorem withMarks_congr {γ : Type} {m : Marked α} {n : Marked β} (h : m.texts = n.texts)
    (cs : List γ) : m.withMarks cs = n.withMarks cs := by
  obtain ⟨hh, ht⟩ := List.cons.inj h
  rw [withMarks_eq_zip, withMarks_eq_zip, hh, ht]

theorem wordsApart_congr {m : Marked α} {n : Marked β} (h : m.texts = n.texts) :
    m.WordsApart ↔ n.WordsApart := by
  unfold WordsApart
  rw [h]

/-- Rendering with the marks changed first. -/
theorem render_withMarks_map (write : α → SqlText) (write' : β → SqlText) (f : α → β)
    (h : ∀ a, write' (f a) = write a) (m : Marked α) :
    (m.withMarks (m.marks.map f)).render write' = m.render write := by
  obtain ⟨head, tail⟩ := m
  rw [withMarks_eq_zip, marks, render, render]
  congr 1
  induction tail with
  | nil => rfl
  | cons pt tail ih => simpa [h] using ih

@[simp] theorem render_prepend (write : α → SqlText) (t : SqlText) (m : Marked α) :
    (m.prepend t).render write = t ++ m.render write := by
  simp [render, prepend]

@[simp] theorem render_cons (write : α → SqlText) (a : α) (m : Marked α) :
    (m.cons a).render write = write a ++ m.render write := by
  simp [render, cons]

@[simp] theorem withMarks_prepend (t : SqlText) (m : Marked α) (bs : List β) :
    (m.prepend t).withMarks bs = (m.withMarks bs).prepend t := rfl

@[simp] theorem withMarks_cons (a : α) (b : β) (m : Marked α) (bs : List β) :
    (m.cons a).withMarks (b :: bs) = (m.withMarks bs).cons b := rfl

/-- The places of the markers in a list of lexemes. -/
abbrev cut (ls : List Lexeme) : Marked Marker :=
  ofLexemes Marker.ofKind? ls

end Marked

/-! ### Kinds of markers -/

namespace Kind

/-- The spelling of a marker. -/
def markerText : Kind → SqlText
  | .named name => '@' :: name
  | _ => ['?']

/-- Whether a kind is that of a marker which can be read. -/
inductive Marks : Kind → Prop
  | placeholder : Marks .placeholder
  | named {name : SqlText} (nonempty : name ≠ []) (word : ∀ c ∈ name, Text.continuesWord c = true) :
      Marks (.named name)

theorem Marks.markerText {k : Kind} (h : k.Marks) : MarkerText k.markerText := by
  cases h with
  | placeholder => exact .placeholder
  | named nonempty word => exact .named nonempty word

theorem Marks.isMarker {k : Kind} (h : k.Marks) : k.isMarker = true := by
  cases h with
  | placeholder => rfl
  | named nonempty word => rfl

theorem Marks.markerText_ne_at {k : Kind} (h : k.Marks) : k.markerText ≠ ['@'] := by
  cases h with
  | placeholder => decide
  | named nonempty word => exact fun h => nonempty (List.cons.inj h).2

theorem isSome_ofKind? (k : Kind) : (Marker.ofKind? k).isSome = k.isMarker := by
  cases k <;> rfl

end Kind

open Marked

namespace Lexeme

variable {l : Lexeme} {ls : List Lexeme} {k : Kind} {ks : List Kind}

/-- The kinds of the markers in a list of lexemes. -/
def markers (ls : List Lexeme) : List Kind :=
  (ls.map Lexeme.kind).filter Kind.isMarker

theorem markers_cons_marker (h : l.kind.isMarker = true) :
    markers (l :: ls) = l.kind :: markers ls := by
  simp [markers, h]

theorem markers_cons_other (h : l.kind.isMarker = false) : markers (l :: ls) = markers ls := by
  simp [markers, h]

theorem cut_cons_marker {m : Marker} (h : Marker.ofKind? l.kind = some m) :
    cut (l :: ls) = ((cut ls).cons m).prepend l.gap := by
  simp [cut, ofLexemes, h]

theorem cut_cons_other (h : l.kind.isMarker = false) :
    cut (l :: ls) = (cut ls).prepend (l.gap ++ l.text) := by
  have hn : Marker.ofKind? l.kind = none := by
    rw [← Option.not_isSome_iff_eq_none, Kind.isSome_ofKind?, h]
    exact Bool.false_ne_true
  simp [cut, ofLexemes, hn]

theorem exists_ofKind? (h : k.isMarker = true) : ∃ m, Marker.ofKind? k = some m := by
  rw [← Option.isSome_iff_exists, Kind.isSome_ofKind?, h]

/-- The marks that are cut out are the markers. -/
theorem map_some_marks_cut (ls : List Lexeme) :
    (cut ls).marks.map some = (markers ls).map Marker.ofKind? := by
  induction ls with
  | nil => rfl
  | cons l ls ih =>
    cases h : l.kind.isMarker with
    | true =>
      obtain ⟨m, hm⟩ := exists_ofKind? h
      rw [cut_cons_marker hm, markers_cons_marker h, List.map_cons, hm, ← ih]
      rfl
    | false =>
      rw [cut_cons_other h, markers_cons_other h, ← ih]
      rfl

theorem length_marks_cut (ls : List Lexeme) : (cut ls).marks.length = (markers ls).length := by
  simpa using congrArg List.length (map_some_marks_cut ls)

theorem exists_marker (hk : k ∈ markers ls) :
    ∃ m ∈ (cut ls).marks, Marker.ofKind? k = some m := by
  have hm : Marker.ofKind? k ∈ (markers ls).map Marker.ofKind? := List.mem_map_of_mem hk
  rw [← map_some_marks_cut] at hm
  obtain ⟨m, hm, he⟩ := List.mem_map.1 hm
  exact ⟨m, hm, he.symm⟩

theorem exists_kind {m : Marker} (hm : m ∈ (cut ls).marks) :
    ∃ k ∈ markers ls, Marker.ofKind? k = some m := by
  have hk : some m ∈ (cut ls).marks.map some := List.mem_map_of_mem hm
  rw [map_some_marks_cut] at hk
  exact List.mem_map.1 hk

/-! ### Other markers -/

/-- The lexemes with the markers replaced by others, as long as there are any. -/
def respell : List Lexeme → List Kind → List Lexeme
  | [], _ => []
  | l :: ls, ks =>
    if l.kind.isMarker then
      match ks with
      | [] => l :: ls
      | k :: ks => ⟨k, l.gap, k.markerText⟩ :: respell ls ks
    else l :: respell ls ks

theorem respell_cons_marker (h : l.kind.isMarker = true) :
    respell (l :: ls) (k :: ks) = ⟨k, l.gap, k.markerText⟩ :: respell ls ks := by
  simp [respell, h]

theorem respell_cons_other (h : l.kind.isMarker = false) :
    respell (l :: ls) ks = l :: respell ls ks := by
  simp [respell, h]

/-- Whether there is one kind for each marker. -/
inductive Covers : List Kind → List Lexeme → Prop
  | nil : Covers [] []
  | marker {l : Lexeme} {ls : List Lexeme} {k : Kind} {ks : List Kind}
      (h : l.kind.isMarker = true) (rest : Covers ks ls) : Covers (k :: ks) (l :: ls)
  | other {l : Lexeme} {ls : List Lexeme} {ks : List Kind}
      (h : l.kind.isMarker = false) (rest : Covers ks ls) : Covers ks (l :: ls)

theorem covers_of_length (h : ks.length = (markers ls).length) : Covers ks ls := by
  induction ls generalizing ks with
  | nil =>
    obtain rfl : ks = [] := by simpa [markers] using h
    exact .nil
  | cons l ls ih =>
    cases hl : l.kind.isMarker with
    | true =>
      rw [markers_cons_marker hl] at h
      cases ks with
      | nil => cases h
      | cons k ks => exact .marker hl (ih (Nat.succ.inj h))
    | false =>
      rw [markers_cons_other hl] at h
      exact .other hl (ih h)

/-- The respelled lexemes spell out the text with the other markers in it. -/
theorem spell_respell (h : Covers ks ls) :
    spell (respell ls ks) = ((cut ls).withMarks ks).render Kind.markerText := by
  induction h with
  | nil => rfl
  | marker h rest ih =>
    obtain ⟨m, hm⟩ := exists_ofKind? h
    simp [respell_cons_marker h, cut_cons_marker hm, ih]
  | other h rest ih => simp [respell_cons_other h, cut_cons_other h, ih]

theorem markers_respell (h : Covers ks ls) (hk : ∀ k ∈ ks, k.Marks) :
    markers (respell ls ks) = ks := by
  induction h with
  | nil => rfl
  | @marker l ls k ks h rest ih =>
    obtain ⟨hk, hks⟩ := List.forall_mem_cons.1 hk
    rw [respell_cons_marker h, markers_cons_marker hk.isMarker, ih hks]
  | other h rest ih => rw [respell_cons_other h, markers_cons_other h, ih hk]

/-- The other markers stand in the same places. -/
theorem texts_cut_respell (h : Covers ks ls) (hk : ∀ k ∈ ks, k.Marks) :
    (cut (respell ls ks)).texts = (cut ls).texts := by
  induction h with
  | nil => rfl
  | @marker l ls k ks h rest ih =>
    obtain ⟨hk, hks⟩ := List.forall_mem_cons.1 hk
    obtain ⟨m, hm⟩ := exists_ofKind? h
    obtain ⟨n, hn⟩ := exists_ofKind? hk.isMarker
    rw [respell_cons_marker h, cut_cons_marker hm, cut_cons_marker hn]
    simpa [texts, prepend, Marked.cons] using ih hks
  | other h rest ih =>
    rw [respell_cons_other h, cut_cons_other h, cut_cons_other h]
    simpa [texts, prepend] using ih hk

/-! ### Lexemes that stay apart -/

/-- A marker that fits can be read, and behind a name no word goes on. -/
theorem Fits.marks {rest : SqlText} (h : l.Fits rest) (hm : l.kind.isMarker = true) :
    l.kind.Marks ∧ l.text = l.kind.markerText ∧
      (l.kind ≠ .placeholder → Text.BreaksWord rest) := by
  obtain ⟨-, c, w, -, hs⟩ := h
  have hk : (scan c (w ++ rest)).kind.isMarker = true := by rw [hs]; exact hm
  rcases eq_of_scan_isMarker hk with hp | ⟨name, hne, hname, hn⟩
  · rw [hs] at hp
    obtain ⟨hk, ht, -⟩ := Scan.mk.inj hp
    rw [hk, ht]
    exact ⟨.placeholder, rfl, fun h => absurd rfl h⟩
  · rw [hs] at hn
    obtain ⟨hk, ht, hr⟩ := Scan.mk.inj hn
    rw [hk, ht]
    refine ⟨.named hne ?_, rfl, fun _ => ?_⟩
    · rw [hname]
      exact List.all_eq_true.1 List.all_takeWhile
    · rw [hr, Text.breaksWord_iff]
      exact takeWhile_eq_nil_iff.2 (any_head?_dropWhile _ _)

/-- A list and its respelled one spell out respelled texts. -/
theorem Lexed.respelled (h : Lexed ls) (hc : Covers ks ls) (hk : ∀ k ∈ ks, k.Marks) :
    Respelled (spell ls) (spell (Lexeme.respell ls ks)) := by
  induction h generalizing ks with
  | @last l ends =>
    cases hc with
    | marker h rest =>
      rw [ends.isMarker] at h
      cases h
    | other h rest =>
      cases rest
      rw [respell_cons_other h]
      exact Respelled.refl _
  | @cons l ls fits rest ih =>
    cases hc with
    | @marker _ _ k ks h hc =>
      obtain ⟨hk, hks⟩ := List.forall_mem_cons.1 hk
      obtain ⟨hm, ht, -⟩ := fits.marks h
      rw [respell_cons_marker h, spell_cons, spell_cons, ht]
      exact .append_left _ (.marker hm.markerText hk.markerText (ih hc hks))
    | other h hc =>
      rw [respell_cons_other h, spell_cons, spell_cons]
      exact .append_left _ (.append_left _ (ih hc hk))

/-- Lexemes with their own markers are what they are. -/
theorem Lexed.respell_markers {ls : List Lexeme} (h : Lexed ls) :
    Lexeme.respell ls (markers ls) = ls := by
  induction h with
  | @last l ends =>
    rw [respell_cons_other ends.isMarker]
    rfl
  | @cons l ls fits rest ih =>
    cases h : l.kind.isMarker with
    | true => rw [markers_cons_marker h, respell_cons_marker h, ih, ← (fits.marks h).2.1]
    | false => rw [markers_cons_other h, respell_cons_other h, ih]

/-- Whether no `@` that is a token of its own stands before a `?`. -/
def AtsApart : List Lexeme → Prop
  | [] => True
  | l :: ls => (l.text = ['@'] → (spell ls).head? ≠ some '?') ∧ AtsApart ls

instance decidableAtsApart : (ls : List Lexeme) → Decidable (AtsApart ls)
  | [] => inferInstanceAs (Decidable True)
  | l :: ls =>
    have := decidableAtsApart ls
    inferInstanceAs (Decidable ((l.text = ['@'] → (spell ls).head? ≠ some '?') ∧ AtsApart ls))

/-- Behind an `@` of its own stands no further one. -/
theorem Fits.head?_ne_at {rest : SqlText} (h : l.Fits rest) (hl : l.text = ['@']) :
    rest.head? ≠ some '@' := by
  intro hr
  obtain ⟨u, rfl⟩ := List.head?_eq_some_iff.1 hr
  obtain ⟨-, c, w, ht, hs⟩ := h
  rw [hl] at ht hs
  obtain ⟨rfl, rfl⟩ := List.cons.inj ht
  have htext : (scan '@' ('@' :: u)).text = ['@'] := by
    rw [List.nil_append] at hs
    rw [hs]
  cases htext

/-- Behind an `@` of its own there is no marker in a respelled rest if there is no `?` in the rest. -/
theorem Fits.not_startsMarker {rest rest' : SqlText} (h : l.Fits rest) (hr : Respelled rest rest')
    (hl : l.text = ['@']) (hq : rest.head? ≠ some '?') : ∀ c ∈ rest'.head?, ¬ StartsMarker c := by
  refine hr.not_startsMarker ?_
  rintro c hc (rfl | rfl)
  · exact hq hc
  · exact h.head?_ne_at hl hc

/-- What is not a marker fits also before the respelled lexemes. -/
theorem Fits.before_respell (h : l.Fits (spell ls)) (hls : Lexed ls) (hc : Covers ks ls)
    (hk : ∀ k ∈ ks, k.Marks) (ha : l.text = ['@'] → (spell ls).head? ≠ some '?') :
    l.Fits (spell (Lexeme.respell ls ks)) := by
  have hr := hls.respelled hc hk
  exact h.respelled hr fun hl hat => h.not_startsMarker hr hl (ha hl) '@' hat (.inr rfl)

theorem cut_head_isPrefix (ls : List Lexeme) : (cut ls).head <+: spell ls := by
  induction ls with
  | nil => exact List.prefix_rfl
  | cons l ls ih =>
    rw [spell_cons]
    cases h : l.kind.isMarker with
    | true =>
      obtain ⟨m, hm⟩ := exists_ofKind? h
      rw [cut_cons_marker hm]
      exact (List.prefix_append_right_inj l.gap).2 (List.nil_prefix)
    | false =>
      rw [cut_cons_other h, ← List.append_assoc]
      exact (List.prefix_append_right_inj _).2 ih

theorem wordsApart_cut_cons_marker (h : l.kind.isMarker = true) :
    (cut (l :: ls)).WordsApart ↔ Text.BreaksWord (cut ls).head ∧ (cut ls).WordsApart := by
  obtain ⟨m, hm⟩ := exists_ofKind? h
  rw [cut_cons_marker hm]
  exact List.forall_mem_cons

theorem wordsApart_cut_cons_other (h : l.kind.isMarker = false) :
    (cut (l :: ls)).WordsApart ↔ (cut ls).WordsApart := by
  rw [cut_cons_other h]
  exact Iff.rfl

/-- Where all markers are names, they stand apart from words. -/
theorem Lexed.wordsApart (h : Lexed ls) (hn : ∀ k ∈ markers ls, k ≠ .placeholder) :
    (cut ls).WordsApart := by
  induction h with
  | @last l ends =>
    rw [wordsApart_cut_cons_other ends.isMarker]
    intro t ht
    cases ht
  | @cons l ls fits rest ih =>
    cases h : l.kind.isMarker with
    | true =>
      rw [markers_cons_marker h] at hn
      obtain ⟨hl, hls⟩ := List.forall_mem_cons.1 hn
      rw [wordsApart_cut_cons_marker h]
      refine ⟨?_, ih hls⟩
      obtain ⟨t, ht⟩ := cut_head_isPrefix ls
      have hb := (fits.marks h).2.2 hl
      rw [← ht, Text.breaksWord_append] at hb
      exact hb.1
    | false =>
      rw [markers_cons_other h] at hn
      rw [wordsApart_cut_cons_other h]
      exact ih hn

theorem breaksWord_spell_respell (hc : Covers ks ls) (hk : ∀ k ∈ ks, k.Marks)
    (h : Text.BreaksWord (cut ls).head) : Text.BreaksWord (spell (respell ls ks)) := by
  induction hc with
  | nil => exact h
  | @marker l ls k ks hl rest ih =>
    obtain ⟨hk, -⟩ := List.forall_mem_cons.1 hk
    obtain ⟨m, hm⟩ := exists_ofKind? hl
    rw [cut_cons_marker hm] at h
    rw [respell_cons_marker hl, spell_cons, Text.breaksWord_append]
    refine ⟨(Text.breaksWord_append.1 h).1, fun _ => Text.breaksWord_append.2 ?_⟩
    refine ⟨hk.markerText.breaksWord, fun hn => ?_⟩
    have hpos := hk.markerText.length_pos
    rw [show k.markerText = [] from hn] at hpos
    cases hpos
  | other hl rest ih =>
    rw [cut_cons_other hl] at h
    rw [respell_cons_other hl, spell_cons, ← List.append_assoc, Text.breaksWord_append]
    obtain ⟨hfront, hrest⟩ := Text.breaksWord_append.1 h
    exact ⟨hfront, fun hn => ih hk (hrest hn)⟩

/-! ### Markers of a text written anew -/

/-- A name is read with all that goes on with it. -/
theorem scan_name {name rest : SqlText} (hne : name ≠ [])
    (hw : ∀ c ∈ name, Text.continuesWord c = true) :
    scan '@' (name ++ rest) = ⟨.named (name ++ rest.takeWhile Text.continuesWord),
      '@' :: (name ++ rest.takeWhile Text.continuesWord), rest.dropWhile Text.continuesWord⟩ := by
  show scanAt (name ++ rest) = _
  rw [scanAt]
  · rw [List.takeWhile_append_of_pos hw, List.dropWhile_append_of_pos hw, if_neg (by simp [hne])]
  · intro u hu
    cases name with
    | nil => exact hne rfl
    | cons c name =>
      have hc := hw c List.mem_cons_self
      rw [(List.cons.inj hu).1] at hc
      cases hc

/-- A marker is read back, a name if no word goes on behind it. -/
theorem scan_marker {rest : SqlText} (h : k.Marks)
    (hb : k ≠ .placeholder → Text.BreaksWord rest) :
    ∃ c w, k.markerText = c :: w ∧ scan c (w ++ rest) = ⟨k, k.markerText, rest⟩ := by
  cases h with
  | placeholder => exact ⟨'?', [], rfl, rfl⟩
  | @named name nonempty word =>
    refine ⟨'@', name, rfl, ?_⟩
    have hend := Text.breaksWord_iff.1 (hb (by simp))
    have hrest := List.takeWhile_append_dropWhile (p := Text.continuesWord) (l := rest)
    rw [hend, List.nil_append] at hrest
    rw [scan_name nonempty word, hend, List.append_nil, hrest]
    rfl

/-- In the place of a marker fits any other before the respelled lexemes, a name if no word goes on behind
it. -/
theorem Fits.remarked_before_respell (h : l.Fits (spell ls)) (hl : l.kind.isMarker = true)
    (hls : Lexed ls) (hc : Covers ks ls) (hks : ∀ k ∈ ks, k.Marks) (hk : k.Marks)
    (hb : k ≠ .placeholder → Text.BreaksWord (spell (Lexeme.respell ls ks))) :
    Fits ⟨k, l.gap, k.markerText⟩ (spell (Lexeme.respell ls ks)) := by
  obtain ⟨hm, ht, -⟩ := h.marks hl
  refine h.remarked ?_ hk.markerText (hls.respelled hc hks) (scan_marker hk hb)
  rw [ht]
  exact hm.markerText

/-- **Markers written anew are read.**  A lexed list stays one if its markers are replaced, by names only
where no word goes on behind a marker. -/
theorem Lexed.respell (h : Lexed ls) (hc : Covers ks ls) (hk : ∀ k ∈ ks, k.Marks)
    (ha : AtsApart ls) (hw : (∀ k ∈ ks, k = .placeholder) ∨ (cut ls).WordsApart) :
    Lexed (Lexeme.respell ls ks) := by
  induction h generalizing ks with
  | @last l ends =>
    rw [respell_cons_other ends.isMarker]
    exact .last ends
  | @cons l ls fits rest ih =>
    cases hc with
    | @marker _ _ k ks h hc =>
      obtain ⟨hk, hks⟩ := List.forall_mem_cons.1 hk
      rw [wordsApart_cut_cons_marker h] at hw
      rw [respell_cons_marker h]
      refine .cons ?_ (ih hc hks ha.2 ?_)
      · refine fits.remarked_before_respell h rest hc hks hk fun hp => ?_
        rcases hw with hw | hw
        · exact absurd (hw k List.mem_cons_self) hp
        · exact breaksWord_spell_respell hc hks hw.1
      · exact hw.imp (fun hw k hk => hw k (List.mem_cons_of_mem _ hk)) And.right
    | other h hc =>
      rw [wordsApart_cut_cons_other h] at hw
      rw [respell_cons_other h]
      exact .cons (fits.before_respell rest hc hk ha.1) (ih hc hk ha.2 hw)

/-- Only the markers written anew can be misread: where they are read again, all lexemes are. -/
theorem Lexed.lex_eq_respell (h : Lexed ls) (hc : Covers ks ls) (hk : ∀ k ∈ ks, k.Marks)
    (ha : AtsApart ls) (hm : markers (lex (spell (Lexeme.respell ls ks))) = ks) :
    lex (spell (Lexeme.respell ls ks)) = Lexeme.respell ls ks := by
  induction h generalizing ks with
  | @last l ends =>
    rw [respell_cons_other ends.isMarker]
    exact (Lexed.last ends).lex_spell
  | @cons l ls fits rest ih =>
    cases hc with
    | @marker _ _ k ks h hc =>
      obtain ⟨hk, hks⟩ := List.forall_mem_cons.1 hk
      obtain ⟨hl, ht, -⟩ := fits.marks h
      have hr := rest.respelled hc hks
      rw [respell_cons_marker h, spell_cons] at hm ⊢
      have hb : k ≠ .placeholder → Text.BreaksWord (spell (Lexeme.respell ls ks)) := by
        intro hp
        cases hk with
        | placeholder => exact absurd rfl hp
        | @named name nonempty word =>
          -- What is read is the name with all that goes on with it.
          have hg := scanGap_stable fits.1
            (.marker (ht ▸ hl.markerText) (MarkerText.named nonempty word) hr)
          rw [List.cons_append] at hg
          simp only [Kind.markerText, List.cons_append] at hm
          rw [lex_of_scanGap hg, scan_name nonempty word, markers_cons_marker rfl] at hm
          have hname := (Kind.named.inj (List.cons.inj hm).1)
          rw [Text.breaksWord_iff]
          exact List.append_right_eq_self.1 hname
      have fit := fits.remarked_before_respell h rest hc hks hk hb
      rw [fit.lex_eq, markers_cons_marker hk.isMarker] at hm
      rw [fit.lex_eq, ih hc hks ha.2 (List.cons.inj hm).2]
    | other h hc =>
      have fit := fits.before_respell rest hc hk ha.1
      rw [respell_cons_other h, spell_cons] at hm ⊢
      rw [fit.lex_eq, markers_cons_other h] at hm
      rw [fit.lex_eq, ih hc hk ha.2 hm]

/-! ### Names behind an `@` -/

theorem Lexed.of_cons (h : Lexed (l :: ls)) (hl : l.kind ≠ .eof) : l.Fits (spell ls) ∧ Lexed ls := by
  cases h with
  | last ends => exact absurd ends.1 hl
  | cons fits rest => exact ⟨fits, rest⟩

/-- A `?` in front is the first marker. -/
theorem Lexed.eq_cons_placeholder (h : Lexed ls) (hh : (spell ls).head? = some '?') :
    ∃ ls', ls = ⟨.placeholder, [], ['?']⟩ :: ls' := by
  obtain ⟨t, ht⟩ := List.head?_eq_some_iff.1 hh
  have hg : scanGap .blanks (spell ls) = ([], '?' :: t) := by
    rw [ht]
    exact scanGap_marker (.inl rfl) t
  have hl := h.lex_spell
  rw [lex_of_scanGap hg] at hl
  exact ⟨lex t, hl.symm⟩

theorem Lexed.head?_ne_placeholder (h : Lexed ls) (hn : ∀ k ∈ markers ls, k ≠ .placeholder) :
    (spell ls).head? ≠ some '?' := by
  intro hh
  obtain ⟨ls', rfl⟩ := h.eq_cons_placeholder hh
  exact hn .placeholder List.mem_cons_self rfl

/-- Where all markers are names, no `@` stands before a `?`. -/
theorem Lexed.atsApart (h : Lexed ls) (hn : ∀ k ∈ markers ls, k ≠ .placeholder) : AtsApart ls := by
  induction h with
  | @last l ends => exact ⟨fun _ => by simp, trivial⟩
  | @cons l ls fits rest ih =>
    have hls : ∀ k ∈ markers ls, k ≠ .placeholder := by
      intro k hk
      refine hn k ?_
      cases h : l.kind.isMarker with
      | true =>
        rw [markers_cons_marker h]
        exact List.mem_cons_of_mem _ hk
      | false => rwa [markers_cons_other h]
    exact ⟨fun _ => rest.head?_ne_placeholder hls, ih hls⟩

/-- Also with markers `?` in the place of the names no `@` stands before a `?`. -/
theorem Lexed.atsApart_respell (h : Lexed ls) (hc : Covers ks ls) (hk : ∀ k ∈ ks, k.Marks)
    (hn : ∀ k ∈ markers ls, k ≠ .placeholder) : AtsApart (Lexeme.respell ls ks) := by
  induction h generalizing ks with
  | @last l ends =>
    rw [respell_cons_other ends.isMarker]
    exact ⟨fun _ => by simp [Lexeme.respell], trivial⟩
  | @cons l ls fits rest ih =>
    cases hc with
    | @marker _ _ k ks h hc =>
      obtain ⟨hk, hks⟩ := List.forall_mem_cons.1 hk
      rw [markers_cons_marker h] at hn
      rw [respell_cons_marker h]
      exact ⟨fun ht => absurd ht hk.markerText_ne_at, ih hc hks (List.forall_mem_cons.1 hn).2⟩
    | other h hc =>
      rw [markers_cons_other h] at hn
      rw [respell_cons_other h]
      refine ⟨fun ht hq => ?_, ih hc hk hn⟩
      exact fits.not_startsMarker (rest.respelled hc hk) ht (rest.head?_ne_placeholder hn) '?' hq
        (.inl rfl)

/-- An `@` of its own takes in a name that is written behind it. -/
theorem Fits.lex_before_name {name rest rest' : SqlText} (h : l.Fits rest) (hl : l.text = ['@'])
    (hr : Respelled rest ('@' :: (name ++ rest'))) (hw : ∀ c ∈ name, Text.continuesWord c = true)
    (hb : Text.BreaksWord rest') : ∃ l', l'.kind.isMarker = false ∧
      lex (l.gap ++ (l.text ++ '@' :: (name ++ rest'))) = l' :: lex rest' := by
  have hg := scanGap_stable h.1 (hr.append_left l.text)
  have hend := Text.breaksWord_iff.1 hb
  have hrest := List.takeWhile_append_dropWhile (p := Text.continuesWord) (l := rest')
  rw [hend, List.nil_append] at hrest
  have hs : scan '@' ('@' :: (name ++ rest'))
      = ⟨if name = [] then .fault .variableNameMissing else .identifier ('@' :: '@' :: name),
        '@' :: '@' :: name, rest'⟩ := by
    show scanAt ('@' :: (name ++ rest')) = _
    rw [scanAt, List.takeWhile_append_of_pos hw, List.dropWhile_append_of_pos hw, hend,
      List.append_nil, hrest]
  rw [hl, List.singleton_append] at hg ⊢
  rw [lex_of_scanGap hg, hs]
  refine ⟨_, ?_, rfl⟩
  show Kind.isMarker (if name = [] then _ else _) = false
  split <;> rfl

/-- If an `@` stands before a `?`, the name in the place of the `?` is lost. -/
theorem Fits.length_markers_lt (h : l.Fits (spell ls)) (hls : Lexed ls) (hl : l.text = ['@'])
    (hq : (spell ls).head? = some '?') (hc : Covers ks ls) (hk : ∀ k ∈ ks, k.Marks)
    (hn : ∀ k ∈ ks, k ≠ .placeholder) (hw : (cut ls).WordsApart)
    (hle : (markers (lex (spell (Lexeme.respell ls ks)))).length ≤ ks.length) :
    (markers (lex (l.gap ++ (l.text ++ spell (Lexeme.respell ls ks))))).length < ks.length := by
  have hr := hls.respelled hc hk
  obtain ⟨ls, rfl⟩ := hls.eq_cons_placeholder hq
  obtain ⟨fits, hls⟩ := hls.of_cons (by simp)
  cases hc with
  | other hm hc => cases hm
  | @marker _ _ k ks hm hc =>
    obtain ⟨hk, hks⟩ := List.forall_mem_cons.1 hk
    have hb := breaksWord_spell_respell hc hks ((wordsApart_cut_cons_marker hm).1 hw).1
    have fit := fits.remarked_before_respell hm hls hc hks hk fun _ => hb
    rw [respell_cons_marker hm, spell_cons _ (Lexeme.respell ls ks)] at hr hle ⊢
    rw [fit.lex_eq, markers_cons_marker hk.isMarker] at hle
    cases hk with
    | placeholder => exact absurd rfl (hn _ List.mem_cons_self)
    | @named name nonempty word =>
      obtain ⟨l', hl', he⟩ := h.lex_before_name hl hr word hb
      rw [List.nil_append, Kind.markerText, List.cons_append, he, markers_cons_other hl']
      exact hle

/-- Where names stand apart from words, as many as were written are read only if no `@` stands before a
`?`. -/
theorem Lexed.atsApart_or_length_lt (h : Lexed ls) (hc : Covers ks ls) (hk : ∀ k ∈ ks, k.Marks)
    (hn : ∀ k ∈ ks, k ≠ .placeholder) (hw : (cut ls).WordsApart) :
    AtsApart ls ∨ (markers (lex (spell (Lexeme.respell ls ks)))).length < ks.length := by
  induction h generalizing ks with
  | @last l ends => exact .inl ⟨fun _ => by simp, trivial⟩
  | @cons l ls fits rest ih =>
    cases hc with
    | @marker _ _ k ks h hc =>
      obtain ⟨hk, hks⟩ := List.forall_mem_cons.1 hk
      obtain ⟨hp, hn⟩ := List.forall_mem_cons.1 hn
      obtain ⟨hb, hw⟩ := (wordsApart_cut_cons_marker h).1 hw
      have fit := fits.remarked_before_respell h rest hc hks hk fun _ =>
        breaksWord_spell_respell hc hks hb
      rcases ih hc hks hn hw with ha | hlt
      · obtain ⟨hl, ht, -⟩ := fits.marks h
        exact .inl ⟨fun hat => absurd (ht.symm.trans hat) hl.markerText_ne_at, ha⟩
      · right
        rw [respell_cons_marker h, spell_cons, fit.lex_eq, markers_cons_marker hk.isMarker]
        exact Nat.succ_lt_succ hlt
    | other h hc =>
      rw [wordsApart_cut_cons_other h] at hw
      rw [respell_cons_other h, spell_cons]
      by_cases hat : l.text = ['@'] ∧ (spell ls).head? = some '?'
      · right
        refine fits.length_markers_lt rest hat.1 hat.2 hc hk hn hw ?_
        rcases ih hc hk hn hw with ha | hlt
        · have hlex := (rest.respell hc hk ha (.inr hw)).lex_spell
          exact Nat.le_of_eq (by rw [hlex, markers_respell hc hk])
        · exact Nat.le_of_lt hlt
      · have hat' : l.text = ['@'] → (spell ls).head? ≠ some '?' := fun hl hq => hat ⟨hl, hq⟩
        rcases ih hc hk hn hw with ha | hlt
        · exact .inl ⟨hat', ha⟩
        · right
          rw [(fits.before_respell rest hc hk hat').lex_eq, markers_cons_other h]
          exact hlt

theorem Fits.kind_eq_fault {rest : SqlText} (h : l.Fits rest) (ht : l.text = ['@']) :
    l.kind = .fault .parameterNameMissing := by
  obtain ⟨-, c, w, hl, hs⟩ := h
  rw [ht] at hl hs
  obtain ⟨rfl, rfl⟩ := List.cons.inj hl
  replace hs : scanAt rest = ⟨l.kind, ['@'], rest⟩ := hs
  unfold scanAt at hs
  split at hs
  · cases (Scan.mk.inj hs).2.1
  · obtain ⟨hk, hn, -⟩ := Scan.mk.inj hs
    rw [if_pos (List.cons.inj hn).2] at hk
    exact hk.symm

/-- Where there is no fault, no `@` is a token of its own. -/
theorem Lexed.atsApart_of_no_fault (h : Lexed ls) (hf : ∀ l ∈ ls, ∀ f, l.kind ≠ .fault f) :
    AtsApart ls := by
  induction h with
  | @last l ends => exact ⟨fun _ => by simp, trivial⟩
  | @cons l ls fits rest ih =>
    obtain ⟨hl, hls⟩ := List.forall_mem_cons.1 hf
    exact ⟨fun ht => absurd (fits.kind_eq_fault ht) (hl _), ih hls⟩

end Lexeme

end JetAdapter
