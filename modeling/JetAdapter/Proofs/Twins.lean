import JetAdapter.Proofs.Layouts
import JetAdapter.Proofs.Rounds
import JetAdapter.Proofs.Splices

/-!
# Twins

Twins are spaced texts with the same tokens (`Text.Twins`).  They are read as queries of the same tokens, or
refused alike; and alike edits of such queries make twins again, or overlap in both (`Query.Twins.applyAll`).
-/

namespace JetAdapter

open Cell (Sound Leads IsSpaced IsWhole spell ofGap)

/-- Whether the tokens of a text are set apart. -/
def Text.IsSpaced (free : Bool) (t : SqlText) : Prop :=
  Cell.IsSpaced free (Cell.ofText t)

instance (free : Bool) : DecidablePred (Text.IsSpaced free) := fun t =>
  inferInstanceAs (Decidable (Cell.IsSpaced free (Cell.ofText t)))

/-- Whether two spaced texts have the same tokens. -/
structure Text.Twins (free : Bool) (s s' : SqlText) : Prop where
  tokens : SameTokens s s'
  spaced : IsSpaced free s
  spaced' : IsSpaced free s'

/-! ### Rows of queries -/

namespace Token

variable {as bs ts : List Token} {t : Token}

@[simp] theorem row_nil : row [] = [] := rfl

@[simp] theorem row_cons (t : Token) (ts : List Token) : row (t :: ts) = ofGap t.gap :: [t.cell] :: row ts := rfl

@[simp] theorem row_append (as bs : List Token) : row (as ++ bs) = row as ++ row bs :=
  List.flatMap_append

@[simp] theorem length_row (ts : List Token) : (row ts).length = 2 * ts.length := by
  induction ts with
  | nil => rfl
  | cons t ts ih =>
    simp only [row_cons, List.length_cons, ih]
    omega

@[simp] theorem flatten_row (ts : List Token) : (row ts).flatten = cells ts := by
  induction ts with
  | nil => rfl
  | cons t ts ih => simp [ih]

theorem rowsAlike_relaid (l : Layout) (ts : List Token) :
    Splice.RowsAlike (row ts) (row (ts.map (relaid l))) := by
  have hgap : ∀ g, (ofGap g).filter Cell.isToken = [] := by
    intro g
    unfold ofGap
    split
    · rfl
    · rfl
  rw [Splice.RowsAlike]
  induction ts with
  | nil => rfl
  | cons t ts ih => simp [ih, hgap]

/-! #### Borders -/

theorem back_behind (as bs : List Token) : Splice.back (row (as ++ bs)) (2 * as.length) = cells bs := by
  rw [Splice.back, row_append, ← length_row, List.drop_left, flatten_row]

theorem back_before (as : List Token) (t : Token) (bs : List Token) :
    Splice.back (row (as ++ t :: bs)) (2 * as.length + 1) = t.cell :: cells bs := by
  rw [Splice.back, row_append, ← length_row, List.drop_append, List.drop_eq_nil_of_le (by omega)]
  simp

theorem between_behind (as bs : List Token) : Splice.between (row (as ++ bs)) 0 (2 * as.length) = cells as := by
  rw [Splice.between, Nat.sub_zero, List.drop_zero, row_append, ← length_row, List.take_left, flatten_row]

theorem between_before (as : List Token) (t : Token) (bs : List Token) :
    Splice.between (row (as ++ t :: bs)) 0 (2 * as.length + 1) = cells as ++ ofGap t.gap := by
  rw [Splice.between, Nat.sub_zero, List.drop_zero, row_append, ← length_row, List.take_append,
    List.take_of_length_le (by omega)]
  simp

/-- A token and the gap behind it. -/
theorem between_gap (as : List Token) (u t : Token) (bs : List Token) :
    Splice.between (row (as ++ u :: t :: bs)) (2 * as.length + 1) (2 * as.length + 3) = u.cell :: ofGap t.gap := by
  rw [Splice.between, row_append, ← length_row, List.drop_append, List.drop_eq_nil_of_le (Nat.le_succ _)]
  simp

theorem between_token (as : List Token) (t : Token) (bs : List Token) :
    Splice.between (row (as ++ t :: bs)) (2 * as.length + 1) (2 * as.length + 2) = [t.cell] := by
  rw [Splice.between, row_append, ← length_row, List.drop_append, List.drop_eq_nil_of_le (by omega)]
  simp

end Token

namespace Query.IsRead

open Token (row)

variable {q : Query} {tail : List Cell} {as bs ts : List Token} {t : Token}

theorem place_before (h : q.IsRead tail) (hq : q.tokens = as ++ t :: bs) :
    Splice.place (row q.tokens) (2 * as.length + 1) = t.start := by
  rw [Splice.place, hq, Token.between_before, (h.split_one hq).2.1]

theorem place_behind (h : q.IsRead tail) (hq : q.tokens = as ++ t :: bs) :
    Splice.place (row q.tokens) (2 * as.length + 2) = t.stop := by
  have hq' : q.tokens = (as ++ [t]) ++ bs := by rw [hq]; simp
  have hlength : 2 * as.length + 2 = 2 * (as ++ [t]).length := by simp; omega
  rw [Splice.place, hlength, hq', Token.between_behind, (h.split_one hq).2.2]
  simp

theorem solid (h : q.IsRead tail) : Splice.Solid (row q.tokens) := by
  intro j hj
  rw [Token.length_row] at hj
  have hlt : j < q.tokens.length := by omega
  have hq : q.tokens = q.tokens.take j ++ q.tokens[j] :: q.tokens.drop (j + 1) := by
    rw [List.getElem_cons_drop, List.take_append_drop]
  have hlength : (q.tokens.take j).length = j := by
    rw [List.length_take]
    omega
  have htoken := Token.between_token (q.tokens.take j) q.tokens[j] (q.tokens.drop (j + 1))
  rw [← hq, hlength] at htoken
  rw [htoken]
  simpa using (h.fits hq).text_ne_nil

/-- The cells of a query are cells by themselves, but for the gap at its end. -/
theorem isWhole (h : q.IsRead tail) : ∀ c ∈ Token.cells q.tokens, c.IsWhole := by
  intro c hc
  obtain ⟨t, ht, hc⟩ := List.mem_flatMap.1 hc
  obtain ⟨as, bs, hq⟩ := List.append_of_mem ht
  have hsound := h.sound
  rw [hq, Token.cells_append, Token.cells_cons, List.append_assoc, List.append_assoc] at hsound
  rcases List.mem_append.1 hc with hc | hc
  · unfold ofGap at hc
    split at hc
    · cases hc
    · next hg =>
      obtain rfl := List.mem_singleton.1 hc
      rw [ofGap, if_neg hg] at hsound
      obtain ⟨hfit, hrest⟩ := Cell.sound_cons_iff.1 hsound.of_append
      exact ⟨hg, _, hrest.spell_ne_nil, hfit.2⟩
  · obtain rfl := List.mem_singleton.1 hc
    exact (h.fits hq).alone (h.plain t ht)

end Query.IsRead

/-! ### Twin queries -/

/-- Whether two queries are read from spaced texts, and one is the other with a new layout. -/
structure Query.Twins (free : Bool) (l : Layout) (tail tail' : List Cell) (q q' : Query) : Prop where
  read : q.IsRead tail
  read' : q'.IsRead tail'
  spaced : IsSpaced free (Token.cells q.tokens ++ tail)
  spaced' : IsSpaced free (Token.cells q'.tokens ++ tail')
  relaid : q.Relaid l q'

theorem Text.Twins.ofText {free : Bool} {s s' : SqlText} (h : Twins free s s') :
    Except.Alike (fun q q' => (∃ l tail tail', q.Twins free l tail tail' q') ∧
      Query.ofText s = .ok q ∧ Query.ofText s' = .ok q') (Query.ofText s) (Query.ofText s') := by
  refine (Query.ofText_alike h.tokens).mono ?_
  rintro q q' ⟨⟨l, hl⟩, hq, hq'⟩
  refine ⟨?_, hq, hq'⟩
  obtain ⟨rfl, tail, hread⟩ := Query.isRead hq
  obtain ⟨rfl, tail', hread'⟩ := Query.isRead hq'
  have hspaced := h.spaced
  have hspaced' := h.spaced'
  rw [Text.IsSpaced, hread.cells] at hspaced
  rw [Text.IsSpaced, hread'.cells] at hspaced'
  exact ⟨l, tail, tail', hread, hread', hspaced, hspaced', hl⟩

theorem Cell.map_text_lexemes (g : SqlText) (cs : List Cell) :
    (lexemes g cs).map Lexeme.text = (cs.filter isToken).map Cell.text ++ [[]] := by
  induction cs generalizing g with
  | nil => rfl
  | cons c cs ih =>
    cases c with
    | gap g' => exact ih _
    | token k t =>
      rw [lexemes, List.map_cons, ih]
      rfl

/-- Whether the edits of two queries are alike. -/
def Query.EditsAlike (free : Bool) (q : Query) (tail : List Cell) (q' : Query) (tail' : List Cell)
    (es es' : List Edit) : Prop :=
  ∃ B, List.Forall₂ (Splice.EditsAlike free B (Token.row q.tokens) tail (Token.row q'.tokens) tail') es es'

/-- Alike edits of twins make twins, or overlap in both. -/
theorem Query.Twins.applyAll {free : Bool} {l : Layout} {tail tail' : List Cell} {q q' : Query}
    (h : q.Twins free l tail tail' q') {es es' : List Edit} (hes : q.EditsAlike free tail q' tail' es es') :
    Except.Alike (Text.Twins free) (Edit.applyAll es q.text) (Edit.applyAll es' q'.text) := by
  obtain ⟨B, hes⟩ := hes
  have hrow := Token.rowsAlike_relaid l q.tokens
  rw [← h.relaid.tokens] at hrow
  have happ := Splice.applyAll_alike h.read.solid h.read'.solid hrow (by simpa using h.spaced)
    (by simpa using h.spaced') (by simpa using h.read.isWhole) (by simpa using h.read'.isWhole) hes
  rw [Token.flatten_row, Token.flatten_row, h.read.spell, h.read'.spell] at happ
  rcases happ with ⟨os, os', happ, happ', htokens, hos, hos', hwhole, hwhole'⟩ | ⟨span, span', happ, happ'⟩
  · rw [happ, happ']
    -- What comes out is read as the cells that were woven.
    have htail : ∀ {q : Query} {tail : List Cell}, q.IsRead tail → Sound tail ∧ (∀ c ∈ tail, c.isFault = false) ∧
        tail.filter Cell.isToken = [] := by
      intro q tail hread
      refine ⟨hread.sound.of_append, fun c hc => hread.isFault c (List.mem_append_right _ hc), ?_⟩
      rcases hread.tail with rfl | ⟨g, rfl⟩
      · rfl
      · rfl
    obtain ⟨hs, hf, hnil⟩ := htail h.read
    obtain ⟨hs', hf', hnil'⟩ := htail h.read'
    have hsound := Cell.sound_append hwhole hs hf hos
    have hsound' := Cell.sound_append hwhole' hs' hf' hos'
    refine .ok ⟨?_, ?_, ?_⟩
    · rw [Text.SameTokens, hsound.lex_spell, hsound'.lex_spell, Cell.map_text_lexemes, Cell.map_text_lexemes,
        List.filter_append, List.filter_append, hnil, hnil', htokens]
    · rwa [Text.IsSpaced, hsound.ofText_spell]
    · rwa [Text.IsSpaced, hsound'.ofText_spell]
  · rw [happ, happ']
    exact .error rfl

/-! ### Passes and rounds -/

namespace Text.Twins

variable {free : Bool} {s s' : SqlText}

/-- What alike edits make in one pass. -/
theorem pass {f : Query → Except SqlError (List Edit)}
    (hf : ∀ {l : Layout} {tail tail' : List Cell} {q q' : Query}, q.Twins free l tail tail' q' →
      Except.Alike (q.EditsAlike free tail q' tail') (f q) (f q')) (h : Twins free s s') :
    Except.Alike (Twins free) (do let q ← Query.ofText s; Edit.applyAll (← f q) s)
      (do let q ← Query.ofText s'; Edit.applyAll (← f q) s') := by
  refine h.ofText.bind ?_
  rintro q q' ⟨⟨l, tail, tail', hq⟩, hs, hs'⟩
  refine (hf hq).bind fun es es' hes => ?_
  rw [← (Query.isRead hs).1, ← (Query.isRead hs').1]
  exact hq.applyAll hes

/-- What a step makes in rounds, if its edits are alike. -/
theorem exhaust {step : Query → Except SqlError (Option Edit)} {size : SqlText → Nat}
    (hstep : ∀ {l : Layout} {tail tail' : List Cell} {q q' : Query}, q.Twins free l tail tail' q' →
      Except.Alike (Option.Rel fun e e' => q.EditsAlike free tail q' tail' [e] [e']) (step q) (step q'))
    (hsize : Query.Shrinks step size) (h : Twins free s s') :
    Except.Alike (Twins free) (Query.exhaust step s) (Query.exhaust step s') := by
  -- There are rounds left in both, though not equally many.
  have hrounds : ∀ {n n' : Nat} {t t' : SqlText}, Twins free t t' → 0 < n → 0 < n' →
      (∀ q, Query.ofText t = .ok q → size t < n) → (∀ q, Query.ofText t' = .ok q → size t' < n') →
      Except.Alike (Twins free) (Query.repeatStep step n t) (Query.repeatStep step n' t') := by
    intro n
    induction n with
    | zero => exact fun _ hn => absurd hn (Nat.lt_irrefl 0)
    | succ n ih =>
      intro n' t t' h _ hpos' hlt hlt'
      obtain ⟨n', rfl⟩ := Nat.exists_eq_succ_of_ne_zero (Nat.ne_of_gt hpos')
      rw [Query.repeatStep, Query.repeatStep]
      refine h.ofText.bind ?_
      rintro q q' ⟨⟨l, tail, tail', hq⟩, ht, ht'⟩
      have hfound := hstep hq
      generalize hx : step q = x at hfound
      generalize hy : step q' = y at hfound
      cases hfound with
      | error outline => exact .error outline
      | ok ho =>
        cases ho with
        | none => exact .ok h
        | @some e e' he =>
          have happ := hq.applyAll he
          rw [(Query.isRead ht).1, (Query.isRead ht').1] at happ
          show Except.Alike _ (Edit.applyAll [e] t >>= Query.repeatStep step n)
            (Edit.applyAll [e'] t' >>= Query.repeatStep step n')
          generalize hu : Edit.applyAll [e] t = u at happ
          generalize hu' : Edit.applyAll [e'] t' = u' at happ
          cases happ with
          | error outline => exact .error outline
          | ok hu'' =>
            have hp := hsize.pos ht hx
            have hp' := hsize.pos ht' hy
            have hl := hlt q ht
            have hl' := hlt' q' ht'
            refine ih hu'' (by omega) (by omega) (fun r hr => ?_) fun r hr => ?_
            · have := hsize.less ht hx hu hr
              omega
            · have := hsize.less ht' hy hu' hr
              omega
  exact hrounds h (Nat.succ_pos _) (Nat.succ_pos _) (fun _ _ => Nat.lt_succ_of_le (hsize.le s))
    fun _ _ => Nat.lt_succ_of_le (hsize.le s')

end Text.Twins

end JetAdapter
