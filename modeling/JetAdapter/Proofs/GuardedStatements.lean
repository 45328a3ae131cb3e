import JetAdapter.Guarded.Adapter
import JetAdapter.Proofs.Cursors
import JetAdapter.Proofs.Marking

/-!
# Guarded statements

Setting parameters into a text makes no step that must not be made: the places of the markers are those of tokens, one
behind the other, so what is between two of them is a stretch of the text (`fillFrom_eq`).  The markers are resolved on
the way, each by what was there before it; that comes to what resolving all of them at once does (`mapFrom_eq`).  The
words that limit the rows go between two tokens.
-/

namespace JetAdapter.Guarded

open Text (byteSize)

/-! ### Setting things into a text -/

variable {σ α β γ : Type} {text kept : SqlText} {last : Nat}

/-- The tokens that mark something, each with its place. -/
def marked (mark? : Kind → Option α) (ls : List PlacedLexeme) : List (Span × α) :=
  ls.filterMap fun l => (mark? l.kind).map (l.span, ·)

theorem marked_cons_some {mark? : Kind → Option α} {l : PlacedLexeme} {ls : List PlacedLexeme} {a : α}
    (h : mark? l.kind = some a) : marked mark? (l :: ls) = (l.span, a) :: marked mark? ls :=
  List.filterMap_cons_some (by rw [h]; rfl)

theorem marked_cons_none {mark? : Kind → Option α} {l : PlacedLexeme} {ls : List PlacedLexeme}
    (h : mark? l.kind = none) : marked mark? (l :: ls) = marked mark? ls :=
  List.filterMap_cons_none (by rw [h]; rfl)

theorem map_snd_marked (mark? : Kind → Option α) (ls : List Lexeme) (offset : Nat) :
    (marked mark? (Lexeme.placedFrom offset ls)).map Prod.snd = (Marked.ofLexemes mark? ls).marks := by
  induction ls generalizing offset with
  | nil => rfl
  | cons l ls ih =>
    rw [Lexeme.placedFrom, Marked.ofLexemes]
    cases hmark : mark? l.kind with
    | none =>
      rw [marked_cons_none hmark]
      exact ih _
    | some a =>
      rw [marked_cons_some hmark]
      exact congrArg (a :: ·) (ih _)

/-- What is set into a text, without the text. -/
def mapFrom (next : σ → α → Except SqlError (β × σ)) (state : σ) : List α → Except SqlError (List β)
  | [] => .ok []
  | a :: as => do
    let (b, state) ← next state a
    return b :: (← mapFrom next state as)

/-- Going over the marked tokens sets things into the text in their place; `kept` is what has been gone over since the
last of them. -/
theorem fillFrom_eq (mark? : Kind → Option α) (next : σ → β → Except SqlError (γ × σ)) {ls : List Lexeme} {bs : List β}
    (state : σ) (h : Stands text last (kept ++ Lexeme.spell ls))
    (hbs : bs.length = (Marked.ofLexemes mark? ls).marks.length) :
    fillFrom next text last state (((marked mark? (Lexeme.placedFrom (last + byteSize kept) ls)).map Prod.fst).zip bs)
      = lift ((mapFrom next state bs).map fun cs => ((Marked.ofLexemes mark? ls).withMarks cs).prepend kept) := by
  induction ls generalizing last kept bs state with
  | nil =>
    obtain rfl : bs = [] := List.length_eq_zero_iff.1 hbs
    rw [Lexeme.spell_nil] at h
    rw [List.zip_nil_right, fillFrom, h.cutFrom_eq]
    rfl
  | cons l ls ih =>
    rw [Lexeme.spell_cons] at h
    rw [Lexeme.placedFrom, Marked.ofLexemes]
    rw [Marked.ofLexemes] at hbs
    cases hmark : mark? l.kind with
    | none =>
      rw [hmark] at hbs
      have hrest := @ih (kept ++ (l.gap ++ l.text)) last _ state (by simpa using h) hbs
      rw [Text.byteSize_append, Text.byteSize_append, ← Nat.add_assoc, ← Nat.add_assoc] at hrest
      rw [marked_cons_none hmark]
      simp only [Marked.withMarks_prepend, Marked.prepend_prepend]
      exact hrest
    | some a =>
      rw [hmark] at hbs
      cases bs with
      | nil => cases hbs
      | cons b bs =>
        rw [← List.append_assoc] at h
        have hbefore := h.cutOut_eq
        rw [Text.byteSize_append, ← Nat.add_assoc] at hbefore
        rw [marked_cons_some hmark, List.map_cons, List.zip_cons_cons, fillFrom, mapFrom]
        cases next state b with
        | error e => rfl
        | ok found =>
          obtain ⟨c, state'⟩ := found
          have hrest := @ih [] _ _ state' h.append.append (Nat.succ.inj hbs)
          rw [Text.byteSize_append, ← Nat.add_assoc, Text.byteSize_nil, Nat.add_zero] at hrest
          simp only [lift_ok, PlacedLexeme.span, PlacedLexeme.stop, hbefore, ok_bind, hrest]
          cases mapFrom next state' bs with
          | error e => rfl
          | ok cs =>
            show Except.ok _ = Except.ok ((((Marked.ofLexemes mark? ls).withMarks cs).cons c).prepend l.gap |>.prepend kept)
            rw [Marked.prepend_prepend]
            rfl

/-- The markers of a whole text. -/
theorem fillFrom_tokenize (mark? : Kind → Option α) (next : σ → β → Except SqlError (γ × σ)) {bs : List β} (state : σ)
    (hbs : bs.length = (Marked.ofLexemes mark? (lex text)).marks.length) :
    fillFrom next text 0 state (((marked mark? (tokenize text)).map Prod.fst).zip bs)
      = lift ((mapFrom next state bs).map (Marked.ofLexemes mark? (lex text)).withMarks) := by
  have hstart : Stands text 0 ([] ++ Lexeme.spell (lex text)) := by
    rw [List.nil_append, spell_lex]
    exact .start text
  exact fillFrom_eq mark? next state hstart hbs

theorem parse_eq (text : SqlText) (values : List SqlValue) : parse text values = lift (Statement.parse text values) := by
  let mark? : Kind → Option Unit := fun k => if k = .placeholder then some () else none
  have hplaces : ∀ ls : List PlacedLexeme, (ls.filter fun l => l.kind = .placeholder).map PlacedLexeme.span
      = (marked mark? ls).map Prod.fst := by
    intro ls
    induction ls with
    | nil => rfl
    | cons l ls ih =>
      by_cases hl : l.kind = .placeholder
      · rw [marked_cons_some (a := ()) (by simp [mark?, hl])]
        simp [hl, ih]
      · rw [marked_cons_none (by simp [mark?, hl])]
        simp [hl, ih]
  have hlength : ((marked mark? (tokenize text)).map Prod.fst).length = (Statement.placeholders text).tail.length := by
    rw [List.length_map, ← Marked.length_marks, Statement.placeholders, ← map_snd_marked mark? (lex text) 0,
      List.length_map]
    rfl
  have hvalues : ∀ vs : List SqlValue, mapFrom (fun (_ : Unit) v => .ok ((⟨v, none⟩ : Parameter), ())) () vs
      = .ok (vs.map fun v => ⟨v, none⟩) := by
    intro vs
    induction vs with
    | nil => rfl
    | cons v vs ih =>
      rw [mapFrom, ok_bind]
      simp only [ih]
      rfl
  rw [parse, Statement.parse, tokens_eq, ok_bind]
  simp only [hplaces, hlength]
  split
  · next heq =>
    rw [fillFrom_tokenize mark? _ _ (by rw [Marked.length_marks]; exact heq.symm), hvalues]
    rfl
  · rfl

/-! ### Restoring -/

section Restoring

variable {t : Tracker} {loss : SqlError} {markers : List Marker}

/-- Markers `?` stand for the tracked parameters that are left. -/
theorem mapFrom_positional {i : Nat} (seen : List Nat) (hp : ∀ m ∈ markers, m = .positional)
    (hi : i + markers.length = t.size) : mapFrom (resolveNext t loss) (i, seen) markers = .ok (t.parameters.drop i) := by
  induction markers generalizing i with
  | nil =>
    rw [mapFrom, List.drop_of_length_le]
    exact Nat.le_of_eq hi.symm
  | cons m markers ih =>
    obtain ⟨rfl, hpositional⟩ := List.forall_mem_cons.1 hp
    rw [List.length_cons] at hi
    have hlt : i < t.parameters.length := by
      rw [← Tracker.size]
      omega
    rw [mapFrom, resolveNext, List.getElem?_eq_getElem hlt]
    simp only [ok_bind, ih hpositional (show i + 1 + markers.length = t.size by omega)]
    rw [List.drop_eq_getElem_cons hlt]
    rfl

/-- Names stand for the parameters with their ordinals, if no ordinal comes twice. -/
theorem mapFrom_named {i : Nat} {seen ordinals : List Nat} :
    mapFrom (resolveNext t loss) (i, seen) (ordinals.map .named)
      = match if ordinals.Nodup ∧ ∀ n ∈ ordinals, n ∉ seen then ordinals.mapM t.get? else none with
        | some ps => .ok ps
        | none => .error loss := by
  induction ordinals generalizing i seen with
  | nil => rfl
  | cons n ordinals ih =>
    rw [List.map_cons, mapFrom, resolveNext]
    by_cases hseen : n ∈ seen
    · rw [if_pos hseen, if_neg fun h => h.2 n List.mem_cons_self hseen]
      rfl
    rw [if_neg hseen]
    have hiff : ((n :: ordinals).Nodup ∧ ∀ m ∈ n :: ordinals, m ∉ seen)
        ↔ ordinals.Nodup ∧ ∀ m ∈ ordinals, m ∉ n :: seen := by
      rw [List.nodup_cons, List.forall_mem_cons]
      simp only [List.mem_cons, not_or]
      constructor
      · rintro ⟨⟨hn, hd⟩, -, hs⟩
        exact ⟨hd, fun m hm => ⟨fun heq => hn (heq ▸ hm), hs m hm⟩⟩
      · rintro ⟨hd, hs⟩
        exact ⟨⟨fun hn => (hs n hn).1 rfl, hd⟩, hseen, fun m hm => (hs m hm).2⟩
    simp only [hiff, List.mapM_cons]
    cases hget : t.get? n with
    | none => split_ifs <;> rfl
    | some p =>
      simp only [ok_bind, ih]
      split_ifs
      · cases ordinals.mapM t.get? <;> rfl
      · rfl

theorem eq_map_named (h : ∀ m ∈ markers, m.ordinal?.isSome = true) :
    ∃ ordinals : List Nat, markers = ordinals.map .named := by
  induction markers with
  | nil => exact ⟨[], rfl⟩
  | cons m markers ih =>
    obtain ⟨hm, hmarkers⟩ := List.forall_mem_cons.1 h
    obtain ⟨ordinals, rfl⟩ := ih hmarkers
    cases m with
    | positional => cases hm
    | named n => exact ⟨n :: ordinals, rfl⟩

/-- Markers of one sort, as many as are tracked, are resolved one after the other; otherwise they are refused at once or
on the way. -/
theorem mapFrom_eq (t : Tracker) (loss : SqlError) (markers : List Marker) :
    (if markers.length ≠ t.size ∨ (markers.countP fun m => m.ordinal?.isSome) ≠ 0
        ∧ (markers.countP fun m => m.ordinal?.isSome) ≠ markers.length then .error loss
      else mapFrom (resolveNext t loss) (0, []) markers)
      = match t.resolve? markers with
        | some ps => .ok ps
        | none => .error loss := by
  by_cases hlength : markers.length = t.size
  · by_cases hpositional : ∀ m ∈ markers, m = .positional
    · have hnone : (markers.countP fun m => m.ordinal?.isSome) = 0 := by
        refine List.countP_eq_zero.2 fun m hm => ?_
        rw [hpositional m hm]
        exact Bool.false_ne_true
      rw [if_neg fun h => h.elim (· hlength) fun h => h.1 hnone,
        mapFrom_positional [] hpositional (by rw [Nat.zero_add, hlength]), Tracker.resolve?_positional hlength hpositional]
      rfl
    · by_cases hnamed : ∀ m ∈ markers, m.ordinal?.isSome = true
      · have hall := List.countP_eq_length.2 hnamed
        obtain ⟨ordinals, rfl⟩ := eq_map_named hnamed
        rw [if_neg fun h => h.elim (· hlength) fun h => h.2 hall, mapFrom_named]
        by_cases hd : ordinals.Nodup
        · rw [if_pos ⟨hd, fun _ _ => List.not_mem_nil⟩, Tracker.resolve?_named (by rwa [List.length_map] at hlength) hd]
        · rw [if_neg fun h => hd h.1]
          cases hr : t.resolve? (ordinals.map .named) with
          | none => rfl
          | some ps =>
            rcases (Tracker.eq_of_resolve? hr).2 with ⟨hp, -⟩ | ⟨ordinals', heq, hd', -⟩
            · exact absurd hp hpositional
            · have := List.map_injective_iff.2 (fun a b h => Marker.named.inj h) heq
              exact absurd (this ▸ hd') hd
      · -- There are markers of both sorts.
        have hsome : (markers.countP fun m => m.ordinal?.isSome) ≠ 0 := by
          intro hzero
          refine hpositional fun m hm => ?_
          have hnot := List.countP_eq_zero.1 hzero m hm
          cases m with
          | positional => rfl
          | named n => exact absurd rfl hnot
        rw [if_pos (.inr ⟨hsome, fun h => hnamed (List.countP_eq_length.1 h)⟩)]
        cases hr : t.resolve? markers with
        | none => rfl
        | some ps =>
          rcases (Tracker.eq_of_resolve? hr).2 with ⟨hp, -⟩ | ⟨ordinals, rfl, -⟩
          · exact absurd hp hpositional
          · exact absurd (fun m hm => by obtain ⟨n, -, rfl⟩ := List.mem_map.1 hm; rfl) hnamed
  · rw [if_pos (.inl hlength), Tracker.resolve?, if_pos hlength]

theorem restore_eq (t : Tracker) (text : SqlText) : restore t text = lift (t.restore text) := by
  have hmarks := map_snd_marked Marker.ofKind? (lex text) 0
  rw [← tokenize] at hmarks
  have hcount : (Marked.ofLexemes Marker.ofKind? (lex text)).marks.length = _ := rfl
  have hfill := fillFrom_tokenize Marker.ofKind?
    (resolveNext t (.parameterLoss t.size (Marked.ofLexemes Marker.ofKind? (lex text)).marks.length)) (0, []) hcount
  have hresolved := mapFrom_eq t (.parameterLoss t.size (Marked.ofLexemes Marker.ofKind? (lex text)).marks.length)
    (Marked.ofLexemes Marker.ofKind? (lex text)).marks
  rw [restore, Tracker.restore, tokens_eq, ok_bind]
  change (let found := marked Marker.ofKind? (tokenize text)
    let named := found.countP fun x => x.2.ordinal?.isSome
    let loss : SqlError := .parameterLoss t.size found.length
    if found.length ≠ t.size ∨ named ≠ 0 ∧ named ≠ found.length then refuse loss
    else fillFrom (resolveNext t loss) text 0 (0, []) found) = _
  generalize marked Marker.ofKind? (tokenize text) = found at hmarks hfill
  generalize Marked.ofLexemes Marker.ofKind? (lex text) = places at hmarks hfill hresolved
  have hlength : found.length = places.marks.length := by rw [← hmarks, List.length_map]
  have hnamed : (found.countP fun x => x.2.ordinal?.isSome) = places.marks.countP fun m => m.ordinal?.isSome := by
    rw [← hmarks, List.countP_map]
    rfl
  rw [← List.zip_of_prod (l := found.map Prod.fst) rfl hmarks] at hfill
  simp only [hlength, hnamed, hfill]
  generalize t.resolve? places.marks = resolved at hresolved
  split at hresolved
  · next href =>
    rw [if_pos href]
    cases resolved with
    | none => rfl
    | some ps => cases hresolved
  · next hnot =>
    rw [if_neg hnot, hresolved]
    cases resolved <;> rfl

end Restoring

/-! ### Limits -/

theorem Stands.nextToken_of_lexed {input : SqlText} {cursor : Nat} {l : Lexeme} {ls : List Lexeme}
    (h : Stands input cursor (Lexeme.spell (l :: ls))) (hls : Lexeme.Lexed (l :: ls)) :
    nextToken input cursor = .ok ⟨l, cursor + byteSize l.gap⟩ := by
  rw [Lexeme.spell_cons] at h
  cases hls with
  | last ends =>
    rw [ends.2.1, Lexeme.spell_nil, List.append_nil, List.append_nil] at h
    exact h.nextToken_of_ends ends
  | cons fits _ => exact h.nextToken_of_fits fits

/-- The words that limit the rows go behind the first token or two, just if the first one is a `SELECT`. -/
theorem topPlace_cases (text : SqlText) : (∃ front behind, text = front ++ behind ∧
      topPlace text = .ok (byteSize front) ∧ ∀ rows, limitText rows text = .ok (front ++ topText rows ++ behind)) ∨
    ∃ e, topPlace text = refuse e ∧ ∀ rows, limitText rows text = .error e := by
  have hlexed := Lexeme.lexed_lex text
  have hspell := spell_lex text
  have hstart : Stands text 0 (Lexeme.spell (lex text)) := by
    rw [hspell]
    exact .start text
  simp only [limitText]
  generalize lex text = ls at hlexed hspell hstart
  cases hlexed with
  | @last l ends =>
    have hnot : l.kind.isKeyword .SELECT = false := by rw [ends.1]; rfl
    refine .inr ⟨.unsupportedClause .notSelect, ?_, fun _ => rfl⟩
    rw [topPlace, hstart.nextToken_of_lexed (.last ends), ok_bind, if_neg (Bool.eq_false_iff.1 hnot)]
  | @cons select ls fits hls =>
    obtain ⟨next, others, rfl⟩ : ∃ next others, ls = next :: others := by
      cases hls <;> exact ⟨_, _, rfl⟩
    have hselect := hstart.nextToken_of_lexed (.cons fits hls)
    rw [Lexeme.spell_cons] at hstart hspell
    have hnext := hstart.append.append.nextToken_of_lexed hls
    rw [topPlace, hselect, ok_bind]
    by_cases hword : select.kind.isKeyword .SELECT = true
    · simp only [hword, if_true, PlacedLexeme.stop, hnext, ok_bind]
      by_cases hdistinct : next.kind.isKeyword .DISTINCT = true
      · refine .inl ⟨Lexeme.spell [select, next], Lexeme.spell others, ?_, ?_, fun rows => ?_⟩
        · rw [← hspell]
          simp [Lexeme.spell]
        · rw [if_pos hdistinct]
          simp [Lexeme.spell, Nat.add_assoc]
        · rw [if_pos hdistinct]
      · refine .inl ⟨Lexeme.spell [select], Lexeme.spell (next :: others), ?_, ?_, fun rows => ?_⟩
        · rw [← hspell]
          simp [Lexeme.spell]
        · rw [if_neg hdistinct]
          simp [Lexeme.spell]
        · rw [if_neg hdistinct]
    · refine .inr ⟨.unsupportedClause .notSelect, if_neg hword, fun _ => ?_⟩
      exact if_neg hword

theorem limitString_eq (text : SqlText) (offset rows : UInt64) :
    limitString text offset rows = lift (JetAdapter.limitString text offset rows) := by
  rw [limitString, JetAdapter.limitString]
  split
  · rfl
  · rcases topPlace_cases text with ⟨front, behind, rfl, hplace, hlimit⟩ | ⟨e, hplace, hlimit⟩
    · rw [hplace, ok_bind, cutTo_append rfl rfl, ok_bind, cutFrom_append rfl rfl, hlimit]
      rfl
    · rw [hplace, hlimit]
      rfl

end JetAdapter.Guarded
