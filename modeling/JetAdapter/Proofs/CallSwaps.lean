import JetAdapter.Proofs.Stretches
import JetAdapter.Rule.Cast
import JetAdapter.Rule.Conditional
import JetAdapter.Rule.Extract
import JetAdapter.Rule.LetterCase
import JetAdapter.Rule.Locate

/-!
# Swaps in calls and conditional expressions

The rules for functions and for `CASE` put a call in the place of a stretch that starts with a word, or drop a
stretch before a closing parenthesis.  For each rule `Swapped` says which cells it puts in the place of which,
`isSwap` that each of its edits does so, and `harmless` that the new cells are read as they stand.

What is written is put together of pieces of the query and of fixed texts.  `Writable P` says of such cells
that they keep their form before everything that no token goes on with; a comma, a parenthesis or a blank comes
behind each of them.
-/

namespace JetAdapter

open Cell (Sound Settles Replaces spell ofGap)

namespace Cell

variable {P Q : List Cell}

/-! ### Written cells -/

/-- Whether cells keep their form before everything that no token goes on with, and start with a token. -/
structure Writable (P : List Cell) : Prop where
  token : ∃ k t ds, P = .token k t :: ds
  settles : ∀ {p : Cell → Bool} {os ss : List Cell}, Settles p os ss → Text.Stops (spell ss) →
    Settles p (P ++ os) (P ++ ss)

/-- Written cells behind a blank. -/
theorem Settles.space_writable {p : Cell → Bool} {os ss : List Cell} (hP : Writable P)
    (h : Settles p os ss) (hs : Text.Stops (spell ss)) :
    Settles p (Cell.space :: (P ++ os)) (Cell.space :: (P ++ ss)) := by
  obtain ⟨k, t, ds, hk⟩ := hP.token
  refine .space (hP.settles h hs) ?_
  rw [hk]
  rfl

/-- A token that is one at the end of a text. -/
theorem Writable.of_fits {k : Kind} {t : SqlText} (hfit : (Cell.token k t).Fits [])
    (hk : k.isFault = false) : Writable [.token k t] :=
  ⟨⟨k, t, [], rfl⟩, fun h hs => .written hfit hk h hs⟩

theorem Writable.word {w : SqlText} (hw : IsWord w) (hb : w.head?.any Text.isBlank = false) :
    Writable [Cell.word w] :=
  .of_fits ((Wordy.word hw).fits hb rfl) (Wordy.word hw).isFault

/-- One written text behind the other, with a comma and a blank between them. -/
theorem Writable.comma (hP : Writable P) (hQ : Writable Q) :
    Writable (P ++ sign ',' :: space :: Q) := by
  refine ⟨?_, fun {p os ss} h hs => ?_⟩
  · obtain ⟨k, t, ds, rfl⟩ := hP.token
    exact ⟨k, t, _, rfl⟩
  · have hQ' := Settles.sign (.inr (.inr rfl)) (h.space_writable hQ hs)
    have := hP.settles hQ' (stops_sign (.inr (.inr rfl)) _)
    simpa using this

/-- A written text between parentheses. -/
theorem Writable.parens (hP : Writable P) : Writable (sign '(' :: (P ++ [sign ')'])) := by
  refine ⟨⟨_, _, _, rfl⟩, fun {p os ss} h hs => ?_⟩
  have hP' := hP.settles (Settles.sign (.inr (.inl rfl)) h) (stops_sign (.inr (.inl rfl)) ss)
  have := Settles.sign (.inl rfl) hP'
  simpa using this

/-- A call of a function with written arguments. -/
theorem Writable.call {f : SqlText} (hf : IsWord f) (hb : f.head?.any Text.isBlank = false)
    (hP : Writable P) : Writable (Cell.word f :: sign '(' :: (P ++ [sign ')'])) := by
  refine ⟨⟨_, _, _, rfl⟩, fun {p os ss} h hs => ?_⟩
  exact (Writable.word hf hb).settles (hP.parens.settles h hs) (stops_sign (.inl rfl) _)

/-- A written text that ends with a parenthesis keeps its form before everything. -/
theorem Writable.before_all {p : Cell → Bool} {os ss : List Cell} (hP : Writable P)
    (h : Settles p os ss) : Settles p (P ++ sign ')' :: os) (P ++ sign ')' :: ss) :=
  hP.settles (Settles.sign (.inr (.inl rfl)) h) (stops_sign (.inr (.inl rfl)) ss)

end Cell

namespace Query.IsRead

open Token (stretch)

variable {q : Query} {tail : List Cell} {a b ts : List Token}

/-- A stretch of a query can be written. -/
theorem writable (h : q.IsRead tail) (hq : q.tokens = a ++ (ts ++ b)) (hts : ts ≠ []) :
    Cell.Writable (stretch ts) := by
  obtain ⟨t, ts, rfl⟩ := List.exists_cons_of_ne_nil hts
  refine ⟨⟨_, _, _, rfl⟩, fun {p os ss} hset hs => ?_⟩
  have hsound := h.sound
  rw [(h.split hq).1] at hsound
  refine hset.piece hsound.of_append (fun c hc => ?_) (Token.isGap_getLast?_stretch _) (.of_stops hs)
  refine h.isFault c ?_
  rw [(h.split hq).1]
  exact List.mem_append_right _ (List.mem_append_left _ hc)

end Query.IsRead

/-! ### Calls in the place of words -/

/-- Swaps that put a call of a function in the place of what starts with a word are harmless. -/
theorem Woven.Harmless.of_call {p : Cell → Bool} {R : Swap}
    (hR : ∀ {X D Y N : List Cell}, R X D Y N →
      ∃ k w ds, D = .token k w :: ds ∧ Cell.IsWord w ∧ ∃ c f P,
        N = Cell.word (c :: f) :: Cell.sign '(' :: (P ++ [Cell.sign ')']) ∧ Cell.IsWord (c :: f) ∧
          Text.isBlank c = false ∧ c ≠ 'e' ∧ c ≠ 'E' ∧ Cell.Writable P) : Woven.Harmless p R where
  settles := by
    rintro X D Y N os ss hsw hs - h hr
    obtain ⟨k, w, ds, rfl, hw, c, f, P, rfl, hf, hb, he, hE, hP⟩ := hR hsw
    have hP' := Settles.sign (.inl rfl) (hP.before_all h)
    have hcall := (Cell.Writable.word hf (by simpa using hb)).settles hP' (Cell.stops_sign (.inl rfl) _)
    refine ⟨_, by simpa using hcall, ?_⟩
    exact .of_word hw.continues_head (by simpa using hf.1) he hE
  ends := by
    rintro X D Y N hsw hn
    obtain ⟨k, w, ds, rfl, -⟩ := hR hsw
    cases hn

/-! ### Letter case functions -/

namespace LetterCase

/-- A name is put in the place of one. -/
def Swapped : Swap := fun _ D _ N =>
  ∃ t : Token, isName t = true ∧ D = [t.cell] ∧ N = [Cell.word (jetName t)]

theorem isWord_of_isName {t : Token} (h : isName t = true) : Cell.IsWord t.text := by
  rw [isName, Bool.or_eq_true] at h
  rcases h with h | h
  · exact Cell.isWord_of_sameWord h (by decide) (by decide)
  · exact Cell.isWord_of_sameWord h (by decide) (by decide)

theorem jetName_cases (t : Token) :
    ∃ c w, jetName t = c :: w ∧ Cell.IsWord (c :: w) ∧ Text.isBlank c = false ∧ c ≠ 'e' ∧ c ≠ 'E' := by
  have hword : ∀ {w : SqlText}, w ≠ [] → w.all Char.isAlpha = true → Cell.IsWord w :=
    fun hne h => Cell.isWord_of_isAlpha hne h
  unfold jetName
  simp only
  split
  · split
    · exact ⟨_, _, rfl, hword (by decide) (by decide), by decide, by decide, by decide⟩
    · exact ⟨_, _, rfl, hword (by decide) (by decide), by decide, by decide, by decide⟩
  · split
    · exact ⟨_, _, rfl, hword (by decide) (by decide), by decide, by decide, by decide⟩
    · exact ⟨_, _, rfl, hword (by decide) (by decide), by decide, by decide, by decide⟩

theorem harmless (p : Cell → Bool) : Woven.Harmless p Swapped where
  settles := by
    rintro X D Y N os ss ⟨t, ht, rfl, rfl⟩ hs - h hr
    have hfit : t.cell.Fits (spell Y) := (Cell.sound_cons_iff.1 hs.of_append).1
    have hword := isWord_of_isName ht
    have hend : (spell ss).head?.any Text.continuesWord = false := by
      refine Bool.eq_false_iff.2 fun hc => ?_
      have := hr.text.word hc
      rw [hword.ends hfit] at this
      cases this
    obtain ⟨c, w, hname, hname', hb, he, hE⟩ := jetName_cases t
    refine ⟨Cell.word (jetName t) :: ss, .keep ?_ h, ?_⟩
    · refine (Cell.Wordy.word ?_).fits ?_ hend
      · rwa [hname]
      · rw [hname]
        simpa using hb
    · rw [Cell.word, hname]
      exact .of_word hword.continues_head (by simpa using hname'.1) he hE
  ends := by
    rintro X D Y N ⟨t, ht, rfl, rfl⟩ hn
    cases hn

variable {X D Y N : List Cell}

theorem Swapped.plain (h : Swapped X D Y N) : ∀ c ∈ N, Cell.Plain c := by
  obtain ⟨t, -, rfl, rfl⟩ := h
  obtain ⟨c, w, hname, hword, -⟩ := jetName_cases t
  intro d hd
  obtain rfl := List.mem_singleton.1 hd
  rw [Cell.word, hname]
  exact Cell.plain_word hword

theorem Swapped.perm_filter {p : Cell → Bool} (hp : Cell.Spares p) (h : Swapped X D Y N)
    (hs : Sound (X ++ (D ++ Y))) : (N.filter p).Perm (D.filter p) := by
  have hN := h.plain
  obtain ⟨t, ht, rfl, rfl⟩ := h
  have hfit : t.cell.Fits (spell Y) := (Cell.sound_cons_iff.1 hs.of_append).1
  rw [List.filter_cons_of_neg (by simp [hN _ List.mem_cons_self p hp]),
    List.filter_cons_of_neg (by simp [Token.plain_of_isWord hfit (isWord_of_isName ht) p hp])]

theorem isSwap {q : Query} {tail : List Cell} (h : q.IsRead tail) {c : Call}
    (hc : c ∈ q.calls isName) :
    (⟨c.name.span, jetName c.name⟩ : Edit).IsSwap Swapped (fun _ => false)
      (Token.cells q.tokens ++ tail) := by
  obtain ⟨as, bs, hq, hname, -⟩ := Call.mem_among hc
  obtain ⟨hcells, hstart, hstop⟩ := h.split_one (t := c.name) (by rw [hq]; rfl)
  refine .of_eq ⟨c.name, hname, rfl, rfl⟩ hcells hstart hstop ?_
  simp

theorem makes {text out : SqlText} (h : rename text = .ok out) : Swap.Makes Swapped text out := by
  obtain ⟨q, hq, h⟩ := Except.bind_eq_ok h
  refine Query.makes hq (fun _ => false) (fun tail hread e he => ?_) h
  obtain ⟨c, hc, rfl⟩ := List.mem_map.1 he
  exact isSwap hread hc

end LetterCase

/-! ### Parts of dates -/

namespace Extract

open Token (stretch)

/-- The front of a call up to its `FROM` makes room for the front of another call. -/
inductive Swapped : List Cell → List Cell → List Cell → List Cell → Prop
  | front {X Y : List Cell} {name opening field fromWord : Token} {interval : SqlText}
      (found : name.spells "extract".toList = true) (left : opening.isSymbol .leftParen = true)
      (named : field.kind.isIdentifier = true) (word : fromWord.isKeyword .FROM = true)
      (known : interval? field.text = some interval) :
      Swapped X (stretch [name, opening, field, fromWord]) Y
        [Cell.word "DatePart".toList, Cell.sign '(',
          .token (.string interval) ('\'' :: (interval ++ ['\''])), Cell.sign ',']

theorem fits_interval {field interval : SqlText} (h : interval? field = some interval) :
    (Cell.token (.string interval) ('\'' :: (interval ++ ['\'']))).Fits [] := by
  obtain ⟨⟨name, i⟩, hfind, rfl⟩ := Option.map_eq_some_iff.1 h
  have hmem := List.mem_of_find?_eq_some hfind
  simp only [intervals, List.mem_cons, Prod.mk.injEq, List.not_mem_nil, or_false] at hmem
  rcases hmem with ⟨-, rfl⟩ | ⟨-, rfl⟩ | ⟨-, rfl⟩ | ⟨-, rfl⟩ | ⟨-, rfl⟩ | ⟨-, rfl⟩ | ⟨-, rfl⟩ |
    ⟨-, rfl⟩ | ⟨-, rfl⟩ | ⟨-, rfl⟩ | ⟨-, rfl⟩
  all_goals exact ⟨rfl, _, _, rfl, rfl⟩

theorem harmless (p : Cell → Bool) : Woven.Harmless p Swapped where
  settles := by
    rintro X D Y N os ss hsw - - h -
    obtain ⟨hname, -, -, -, hi⟩ := hsw
    have hword := Cell.isWord_of_sameWord hname (by decide) (by decide)
    have hcomma := Settles.sign (.inr (.inr rfl)) h
    have hstring := Settles.written (fits_interval hi) rfl hcomma
      (Cell.stops_sign (.inr (.inr rfl)) ss)
    have hparen := Settles.sign (.inl rfl) hstring
    have hcall := (Cell.Writable.word (w := "DatePart".toList)
      (Cell.isWord_of_isAlpha (by decide) (by decide)) (by decide)).settles hparen
        (Cell.stops_sign (.inl rfl) _)
    refine ⟨_, hcall, ?_⟩
    exact .of_word (c := 'D') hword.continues_head (by decide) (by decide) (by decide)
  ends := by
    rintro X D Y N ⟨⟩ hn
    cases hn

variable {X D Y N : List Cell}

/-- Only the interval is new. -/
theorem Swapped.plain_or (h : Swapped X D Y N) :
    ∀ c ∈ N, Cell.Plain c ∨ ∃ field interval, interval? field = some interval ∧
      c = .token (.string interval) ('\'' :: (interval ++ ['\''])) := by
  cases h with
  | front found left named word known =>
    simp only [List.forall_mem_cons]
    exact ⟨.inl (Cell.plain_word (Cell.isWord_of_isAlpha (by decide) (by decide))),
      .inl (Cell.plain_sign (.inl rfl)), .inr ⟨_, _, known, rfl⟩,
      .inl (Cell.plain_sign (.inr (.inr rfl))), nofun⟩

theorem Swapped.unmarked (h : Swapped X D Y N) (hs : Sound (X ++ (D ++ Y))) :
    N.filter Cell.isMarker = [] ∧ D.filter Cell.isMarker = [] := by
  have hN := h.plain_or
  cases h with
  | @front _ name opening field fromWord interval found left named word known =>
    refine ⟨List.filter_eq_nil_iff.2 fun c hc => ?_, ?_⟩
    · rcases hN c hc with hplain | ⟨-, interval, -, rfl⟩
      · simp [hplain _ Cell.spares_isMarker]
      · simp [Cell.isMarker, Kind.isMarker]
    · have hfit := (Cell.sound_cons_iff.1 hs.of_append).1
      have hname := Token.plain_of_isWord hfit (Cell.isWord_of_sameWord found (by decide) (by decide))
      have hfield : Cell.isMarker field.cell = false := by
        show field.kind.isMarker = false
        cases hk : field.kind with
        | identifier n => rfl
        | _ => rw [hk] at named; cases named
      rw [Token.filter_stretch Cell.spares_isMarker.gap]
      simp [hname _ Cell.spares_isMarker, hfield,
        Token.plain_of_isSymbol left _ Cell.spares_isMarker,
        Token.plain_of_isKeyword word _ Cell.spares_isMarker]

theorem isSwap {q : Query} {tail : List Cell} (h : q.IsRead tail) {c : Call} {e : Edit}
    (hc : c ∈ q.calls fun t => t.spells "extract".toList) (he : callEdit c = .ok e) :
    e.IsSwap Swapped (fun _ => false) (Token.cells q.tokens ++ tail) := by
  obtain ⟨as, bs, hq, hname, hmatched, -⟩ := Call.mem_among hc
  unfold callEdit at he
  split at he
  · next field fromWord third more hargs =>
    split at he
    · next hform =>
      split at he
      · next interval hi =>
        cases he
        have hsplit : q.tokens = as ++ ((c.name :: [c.opening, field, fromWord])
            ++ (third :: more ++ c.closing :: bs)) := by
          rw [hq, Call.tokens, hargs]
          simp
        obtain ⟨hcells, hstart, hstop⟩ := h.split hsplit
        refine .of_eq (.front hname hmatched.left hform.1 hform.2 hi) hcells hstart (hstop 0) ?_
        simp
      · cases he
    · cases he
  · cases he

theorem makes {text out : SqlText} (h : convert text = .ok out) : Swap.Makes Swapped text out := by
  obtain ⟨q, hq, h⟩ := Except.bind_eq_ok h
  obtain ⟨es, hes, h⟩ := Except.bind_eq_ok h
  refine Query.makes hq (fun _ => false) (fun tail hread e he => ?_) h
  obtain ⟨c, hc, he⟩ := Except.mem_of_mapM_eq_ok hes e he
  exact isSwap hread hc he

end Extract

/-! ### Casts -/

namespace Cast

open Token (stretch)

/-- The front of a call makes room for that of another one, and the type before its end goes. -/
inductive Swapped : List Cell → List Cell → List Cell → List Cell → Prop
  | name {X Y : List Cell} {name opening : Token} {function : SqlText} {type : List Token}
      (word : name.isKeyword .CAST = true) (left : opening.isSymbol .leftParen = true)
      (found : conversion? (typeName type) = some function) :
      Swapped X (stretch [name, opening]) Y [Cell.word function, Cell.sign '(']
  | type {X Y : List Cell} {as_ closing : Token} {t : List Token}
      (word : as_.isKeyword .AS = true) (paren : closing.text = [')']) :
      Swapped X (Token.cells (as_ :: t) ++ ofGap closing.gap) (closing.cell :: Y) []

theorem conversion_cases {type function : SqlText} (h : conversion? type = some function) :
    ∃ w, function = 'C' :: w ∧ Cell.IsWord function := by
  obtain ⟨⟨f, types⟩, hfind, heq⟩ := Option.map_eq_some_iff.1 h
  obtain rfl : f.toList = function := heq
  have hmem := List.mem_of_find?_eq_some hfind
  simp only [conversions, List.mem_cons, Prod.mk.injEq, List.not_mem_nil, or_false] at hmem
  rcases hmem with ⟨rfl, -⟩ | ⟨rfl, -⟩ | ⟨rfl, -⟩ | ⟨rfl, -⟩ | ⟨rfl, -⟩ | ⟨rfl, -⟩ | ⟨rfl, -⟩ |
    ⟨rfl, -⟩ | ⟨rfl, -⟩
  all_goals exact ⟨_, rfl, Cell.isWord_of_isAlpha (by decide) (by decide)⟩

theorem harmless (p : Cell → Bool) : Woven.Harmless p Swapped where
  settles := by
    rintro X D Y N os ss hsw hs - h hr
    cases hsw with
    | @name _ name opening function type word left found =>
      obtain ⟨w, hf, hw⟩ := conversion_cases found
      have hname : name.cell.Fits (spell (Token.cells [opening] ++ Y)) :=
        (Cell.sound_cons_iff.1 hs.of_append).1
      have hkind : name.kind = .keyword .CAST := Kind.isKeyword_iff.1 word
      have hb : function.head?.any Text.isBlank = false := by
        rw [hf]
        rfl
      have hcall := (Cell.Writable.word hw hb).settles (Settles.sign (.inl rfl) h)
        (Cell.stops_sign (.inl rfl) ss)
      refine ⟨_, hcall, ?_⟩
      rw [Token.cell, hkind] at hname
      rw [hf]
      exact .of_word (c := 'C') (Cell.isWord_of_keyword hname).1.continues_head (by decide)
        (by decide) (by decide)
    | @type Y as_ closing type word paren =>
      have hquiet : Text.StandsIn [] (spell ss) := by
        refine .quiet_of_stops ?_ hr.text
        show Text.Stops (closing.text ++ spell Y)
        rw [paren]
        exact (by decide : Text.isStop ')' = true)
      exact ⟨ss, h, .of_quiet hquiet _, fun _ => .inr hquiet⟩
  ends := by
    rintro X D Y N hsw hn
    cases hsw with
    | name word left found => cases hn
    | type word paren => simp at hn

theorem Swapped.plain {X D Y N : List Cell} (h : Swapped X D Y N) : ∀ c ∈ N, Cell.Plain c := by
  cases h with
  | name word left found =>
    obtain ⟨w, -, hw⟩ := conversion_cases found
    simp only [List.forall_mem_cons]
    exact ⟨Cell.plain_word hw, Cell.plain_sign (.inl rfl), nofun⟩
  | type word paren => exact nofun

theorem isSwap {q : Query} {tail : List Cell} (h : q.IsRead tail) {c : Call} {e : Edit}
    (hc : c ∈ q.calls fun t => t.isKeyword .CAST) (he : e ∈ callEdits c) :
    e.IsSwap Swapped (fun _ => false) (Token.cells q.tokens ++ tail) := by
  obtain ⟨as, bs, hq, hname, hmatched, -⟩ := Call.mem_among hc
  unfold callEdits at he
  split at he
  · cases he
  · next operand as_ type hlast =>
    obtain ⟨hargs, has, -⟩ := Token.splitLast_eq_some hlast
    rw [Token.isKeywordAt, Bool.and_eq_true] at has
    split at he
    · cases he
    · next hoperand =>
      split at he
      · cases he
      · next function hfound =>
        simp only [List.mem_cons, List.not_mem_nil, or_false] at he
        rcases he with rfl | rfl
        · have hsplit : q.tokens = as ++ ((c.name :: [c.opening])
              ++ (c.args ++ c.closing :: bs)) := by
            rw [hq, Call.tokens]
            simp
          obtain ⟨hcells, hstart, hstop⟩ := h.split hsplit
          refine .of_eq (.name hname hmatched.left hfound) hcells hstart (hstop 0) ?_
          simp
        · have hsplit : q.tokens = (as ++ c.name :: c.opening :: (operand ++ as_ :: type))
              ++ (c.closing :: bs) := by
            rw [hq, Call.tokens, hargs]
            simp
          have hfront : q.tokens = (as ++ [c.name, c.opening]) ++ (operand
              ++ (as_ :: type ++ c.closing :: bs)) := by
            rw [hq, Call.tokens, hargs]
            simp
          obtain ⟨t, ts, rfl⟩ := List.exists_cons_of_ne_nil hoperand
          obtain ⟨hcells, -, hstop⟩ := h.split hfront
          obtain ⟨-, hstart, -⟩ := h.split_one hsplit
          have hfit := h.fits hsplit
          have hkind : c.closing.kind = .symbol .rightParen :=
            Kind.isSymbol_iff.1 (Token.isSymbol_of_isSymbolAt hmatched.right)
          rw [Token.cell, hkind] at hfit
          refine .of_eq (X := Token.cells (as ++ [c.name, c.opening]) ++ ofGap t.gap
              ++ stretch (t :: ts)) (Y := c.closing.cell :: (Token.cells bs ++ tail))
            (.type (t := type) has.2 ((Cell.text_of_symbol hfit).2.1 rfl)) ?_
            (hstop c.opening.stop) ?_ rfl
          · rw [hcells]
            simp
          · rw [hstart]
            simp

theorem makes {text out : SqlText} (h : convert text = .ok out) : Swap.Makes Swapped text out := by
  obtain ⟨q, hq, h⟩ := Except.bind_eq_ok h
  refine Query.makes hq (fun _ => false) (fun tail hread e he => ?_) h
  obtain ⟨c, hc, he⟩ := List.mem_flatMap.1 he
  exact isSwap hread hc he

end Cast

/-! ### Searching in texts -/

namespace Locate

open Token (stretch)

/-- A call makes room for one with its arguments from the last to the first. -/
inductive Swapped : List Cell → List Cell → List Cell → List Cell → Prop
  | two {X Y : List Cell} {name opening comma closing : Token} {needle haystack : List Token}
      (found : name.spells "locate".toList = true) (left : opening.isSymbol .leftParen = true)
      (sep : comma.isSymbol .comma = true) (right : closing.isSymbol .rightParen = true)
      (one : Cell.Writable (stretch needle)) (other : Cell.Writable (stretch haystack)) :
      Swapped X (stretch (name :: opening :: (needle ++ comma :: haystack ++ [closing]))) Y
        (Cell.word "InStr".toList :: Cell.sign '(' ::
          (stretch haystack ++ Cell.sign ',' :: Cell.space :: stretch needle ++ [Cell.sign ')']))
  | three {X Y : List Cell} {name opening comma comma' closing : Token}
      {needle haystack start : List Token}
      (found : name.spells "locate".toList = true) (left : opening.isSymbol .leftParen = true)
      (sep : comma.isSymbol .comma = true) (sep' : comma'.isSymbol .comma = true)
      (right : closing.isSymbol .rightParen = true) (one : Cell.Writable (stretch needle))
      (other : Cell.Writable (stretch haystack)) (third : Cell.Writable (stretch start)) :
      Swapped X
        (stretch (name :: opening :: (needle ++ comma :: (haystack ++ comma' :: start) ++ [closing])))
        Y (Cell.word "InStr".toList :: Cell.sign '(' ::
          (stretch start ++ Cell.sign ',' :: Cell.space ::
            (stretch haystack ++ Cell.sign ',' :: Cell.space :: stretch needle) ++ [Cell.sign ')']))

theorem harmless (p : Cell → Bool) : Woven.Harmless p Swapped := by
  refine .of_call fun {X D Y N} hsw => ?_
  have hI : Cell.IsWord "InStr".toList := Cell.isWord_of_isAlpha (by decide) (by decide)
  cases hsw with
  | two found left sep right one other =>
    exact ⟨_, _, _, rfl, Cell.isWord_of_sameWord found (by decide) (by decide), _, _, _, rfl, hI,
      by decide, by decide, by decide, other.comma one⟩
  | three found left sep sep' right one other third =>
    exact ⟨_, _, _, rfl, Cell.isWord_of_sameWord found (by decide) (by decide), _, _, _, rfl, hI,
      by decide, by decide, by decide, third.comma (other.comma one)⟩

theorem Swapped.source {X D Y N : List Cell} (h : Swapped X D Y N) :
    ∀ c ∈ N, c ∈ X ++ (D ++ Y) ∨ Cell.Plain c := by
  have hin : ∀ {n o : Token} {u v w : List Token} {c : Cell}, c ∈ stretch v →
      c ∈ X ++ (stretch (n :: o :: (u ++ (v ++ w))) ++ Y) ∨ Cell.Plain c := by
    intro n o u v w c hc
    left
    rw [List.mem_append, List.mem_append, Token.stretch_cons]
    refine .inr (.inl (List.mem_cons_of_mem _ ?_))
    exact Token.mem_cells_of_mem_stretch (u := o :: u) hc
  have hname := Cell.plain_word (Cell.isWord_of_isAlpha (t := "InStr".toList) (by decide) (by decide))
  cases h with
  | @two _ name opening comma closing needle haystack found left sep right one other =>
    simp only [List.forall_mem_cons, List.forall_mem_append]
    refine ⟨.inr hname, .inr (Cell.plain_sign (.inl rfl)), ⟨fun c hc => ?_,
      .inr (Cell.plain_sign (.inr (.inr rfl))), .inr (Cell.plain_gap _), fun c hc => ?_⟩,
      .inr (Cell.plain_sign (.inr (.inl rfl))), nofun⟩
    · have := hin (n := name) (o := opening) (u := needle ++ [comma]) (w := [closing]) hc
      simpa using this
    · have := hin (n := name) (o := opening) (u := []) (w := comma :: haystack ++ [closing]) hc
      simpa using this
  | @three _ name opening comma comma' closing needle haystack start found left sep sep' right one other
      third =>
    simp only [List.forall_mem_cons, List.forall_mem_append]
    refine ⟨.inr hname, .inr (Cell.plain_sign (.inl rfl)), ⟨fun c hc => ?_,
      .inr (Cell.plain_sign (.inr (.inr rfl))), .inr (Cell.plain_gap _), fun c hc => ?_,
      .inr (Cell.plain_sign (.inr (.inr rfl))), .inr (Cell.plain_gap _), fun c hc => ?_⟩,
      .inr (Cell.plain_sign (.inr (.inl rfl))), nofun⟩
    · have := hin (n := name) (o := opening)
        (u := needle ++ comma :: (haystack ++ [comma'])) (w := [closing]) hc
      simpa using this
    · have := hin (n := name) (o := opening) (u := needle ++ [comma])
        (w := comma' :: start ++ [closing]) hc
      simpa using this
    · have := hin (n := name) (o := opening) (u := [])
        (w := comma :: (haystack ++ comma' :: start) ++ [closing]) hc
      simpa using this

theorem Swapped.perm_filter {X D Y N : List Cell} {p : Cell → Bool} (hp : Cell.Spares p)
    (h : Swapped X D Y N) (hs : Sound (X ++ (D ++ Y))) : (N.filter p).Perm (D.filter p) := by
  have hword := Cell.plain_word (Cell.isWord_of_isAlpha (t := "InStr".toList) (by decide) (by decide))
  have hsign : ∀ {c : Char}, c = '(' ∨ c = ')' ∨ c = ',' → p (Cell.sign c) = false :=
    fun hc => Cell.plain_sign hc p hp
  cases h with
  | @two _ name opening comma closing needle haystack found left sep right one other =>
    have hfit := (Cell.sound_cons_iff.1 hs.of_append).1
    have hname := Token.plain_of_isWord hfit (Cell.isWord_of_sameWord found (by decide) (by decide))
    rw [Token.filter_stretch hp.gap]
    simp only [List.filter_cons, List.filter_append, List.map_cons, List.map_append, List.map_nil,
      List.filter_nil, Token.filter_stretch hp.gap, hname p hp, Token.plain_of_isSymbol left p hp,
      Token.plain_of_isSymbol sep p hp, Token.plain_of_isSymbol right p hp, Cell.word, hword p hp,
      hsign (.inl rfl), hsign (.inr (.inl rfl)), hsign (.inr (.inr rfl)), Cell.space, hp.gap,
      Bool.false_eq_true, if_false, List.append_nil]
    exact List.perm_append_comm
  | @three _ name opening comma comma' closing needle haystack start found left sep sep' right one other
      third =>
    have hfit := (Cell.sound_cons_iff.1 hs.of_append).1
    have hname := Token.plain_of_isWord hfit (Cell.isWord_of_sameWord found (by decide) (by decide))
    rw [Token.filter_stretch hp.gap]
    simp only [List.filter_cons, List.filter_append, List.map_cons, List.map_append, List.map_nil,
      List.filter_nil, Token.filter_stretch hp.gap, hname p hp, Token.plain_of_isSymbol left p hp,
      Token.plain_of_isSymbol sep p hp, Token.plain_of_isSymbol sep' p hp,
      Token.plain_of_isSymbol right p hp, Cell.word, hword p hp, hsign (.inl rfl),
      hsign (.inr (.inl rfl)), hsign (.inr (.inr rfl)), Cell.space, hp.gap, Bool.false_eq_true,
      if_false, List.append_nil]
    refine List.perm_append_comm.trans ?_
    rw [List.append_assoc]
    exact List.perm_append_comm.trans (by rw [List.append_assoc]; exact (List.perm_append_comm.append_left _))

/-- The cells of the call of `InStr` for a call with these arguments. -/
def callCells : List (List Token) → List Cell
  | [needle, haystack] => Cell.word "InStr".toList :: Cell.sign '(' ::
      (stretch haystack ++ Cell.sign ',' :: Cell.space :: stretch needle ++ [Cell.sign ')'])
  | [needle, haystack, start] => Cell.word "InStr".toList :: Cell.sign '(' ::
      (stretch start ++ Cell.sign ',' :: Cell.space ::
        (stretch haystack ++ Cell.sign ',' :: Cell.space :: stretch needle) ++ [Cell.sign ')'])
  | _ => []

/-- The arguments of calls, with what can be written. -/
theorem swapped {c : Call} {text : SqlText} (hname : c.name.spells "locate".toList = true)
    (hopening : c.opening.isSymbol .leftParen = true)
    (hclosing : c.closing.isSymbol .rightParen = true)
    (hwrite : ∀ {u v w : List Token}, c.args = u ++ (v ++ w) → v ≠ [] → Cell.Writable (stretch v))
    (htext : replacement? c.arguments = some text) (X Y : List Cell) :
    Swapped X (stretch c.tokens) Y (callCells c.arguments) ∧ text = spell (callCells c.arguments) := by
  unfold replacement? at htext
  split at htext
  · next needle haystack hargs =>
    split at htext
    · cases htext
    next hne =>
    rw [not_or] at hne
    obtain ⟨comma, us, heq, hcomma, hrest⟩ := (Token.splitCommas_eq_cons hargs).resolve_left (by simp)
    rcases Token.splitCommas_eq_cons hrest with ⟨rfl, -⟩ | ⟨_, vs, -, -, hn⟩
    · have hone := hwrite (u := []) heq hne.1
      have hother := hwrite (u := needle ++ [comma]) (w := []) (by simp [heq]) hne.2
      have hswap := Swapped.two (X := X) (Y := Y) hname hopening (Token.isSymbol_of_isSymbolAt hcomma)
        hclosing hone hother
      rw [← heq] at hswap
      rw [hargs]
      refine ⟨hswap, ?_⟩
      cases htext
      simp [callCells, Text.joinWith, Token.spell_stretch]
    · exact absurd hn (by simp [Token.splitCommas, Token.pieces_ne_nil])
  · next needle haystack start hargs =>
    split at htext
    · cases htext
    next hne =>
    rw [not_or, not_or] at hne
    obtain ⟨comma, us, heq, hcomma, hrest⟩ := (Token.splitCommas_eq_cons hargs).resolve_left (by simp)
    obtain ⟨comma', vs, heq', hcomma', hrest'⟩ :=
      (Token.splitCommas_eq_cons hrest).resolve_left (by simp)
    subst heq'
    rcases Token.splitCommas_eq_cons hrest' with ⟨rfl, -⟩ | ⟨_, ws, -, -, hn⟩
    · have hone := hwrite (u := []) heq hne.1
      have hother := hwrite (u := needle ++ [comma]) (v := haystack)
        (w := comma' :: vs) (by simp [heq]) hne.2.1
      have hthird := hwrite (u := needle ++ comma :: (haystack ++ [comma'])) (w := [])
        (by simp [heq]) hne.2.2
      have hswap := Swapped.three (X := X) (Y := Y) hname hopening
        (Token.isSymbol_of_isSymbolAt hcomma) (Token.isSymbol_of_isSymbolAt hcomma') hclosing hone
        hother hthird
      rw [← heq] at hswap
      rw [hargs]
      refine ⟨hswap, ?_⟩
      cases htext
      simp [callCells, Text.joinWith, Token.spell_stretch]
    · exact absurd hn (by simp [Token.splitCommas, Token.pieces_ne_nil])
  · cases htext

/-- A call in a text makes room for the call of `InStr`. -/
theorem swapped_of_isRead {q : Query} {tail : List Cell} {as bs : List Token} {c : Call} {text : SqlText}
    (h : q.IsRead tail) (hq : q.tokens = as ++ (c.tokens ++ bs)) (hname : c.name.spells "locate".toList = true)
    (hmatched : c.Matched) (htext : replacement? c.arguments = some text) :
    Swapped (Token.cells as ++ ofGap c.name.gap) (stretch c.tokens) (Token.cells bs ++ tail) (callCells c.arguments) ∧
      text = spell (callCells c.arguments) := by
  refine swapped hname hmatched.left (Token.isSymbol_of_isSymbolAt hmatched.right) (fun {u v w} hargs hv => ?_) htext _ _
  refine h.writable (a := as ++ c.name :: c.opening :: u) (b := w ++ c.closing :: bs) ?_ hv
  rw [hq, Call.tokens, hargs]
  simp

theorem isSwap {q : Query} {tail : List Cell} (h : q.IsRead tail) {e : Edit}
    (he : step q = .ok (some e)) :
    e.IsSwap Swapped (fun _ => false) (Token.cells q.tokens ++ tail) := by
  unfold step at he
  split at he
  · cases he
  · next c hlast =>
    split at he
    · next text htext =>
      cases he
      obtain ⟨as, bs, hq, hname, hmatched, -⟩ := Call.mem_among (List.mem_of_getLast? hlast)
      obtain ⟨hcells, hstart, hstop⟩ := h.split (t := c.name) hq
      obtain ⟨hswap, rfl⟩ := swapped_of_isRead h hq hname hmatched htext
      refine .of_eq hswap hcells hstart ?_ rfl
      have hlast := hstop 0
      rwa [← List.cons_append, ← List.cons_append, Token.stopOr_concat] at hlast
    · cases he

/-- What a step makes of a text. -/
theorem once {text out : SqlText} {q : Query} {e : Edit} (hq : Query.ofText text = .ok q)
    (he : step q = .ok (some e)) (happ : Edit.applyAll [e] text = .ok out) :
    Swap.Once Swapped text out :=
  Query.once hq (fun _ => false) (fun _ hread => isSwap hread he) happ

end Locate

end JetAdapter
