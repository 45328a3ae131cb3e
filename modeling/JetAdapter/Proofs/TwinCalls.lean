import JetAdapter.Proofs.Neat
import JetAdapter.Proofs.Progress

/-!
# Twin calls

The rules for functions make twins of twins: the calls are found at the same tokens, and what is written in their
place is neat.
-/

namespace JetAdapter

open Cell (Neat NeatTwins)
open Token (stretch row)

variable {free : Bool} {l : Layout} {tail tail' : List Cell} {q q' : Query} {s s' : SqlText}

theorem Cell.IsWord.isWord_kind {k : Kind} {w rest : SqlText} (hw : IsWord w) (hfit : (token k w).Fits rest) :
    k.isWord = true := by
  rw [hw.kind_eq hfit]
  rcases Lexeme.wordKind_eq w with h | ⟨_, -, h⟩
  · rw [h]
    rfl
  · rw [h]
    rfl

theorem forall₂_flatMap {α β γ : Type} {r : β → γ → Prop} {f : α → List β} {g : α → List γ} {xs : List α}
    (h : ∀ x ∈ xs, List.Forall₂ r (f x) (g x)) : List.Forall₂ r (xs.flatMap f) (xs.flatMap g) := by
  induction xs with
  | nil => exact .nil
  | cons x xs ih =>
    obtain ⟨hx, hxs⟩ := List.forall_mem_cons.1 h
    exact List.rel_append hx (ih hxs)

/-! ### Letter case functions -/

namespace LetterCase

theorem ofWord?_jetName (t : Token) : Keyword.ofWord? (jetName t) = none := by
  unfold jetName
  simp only
  split
  · split
    · decide
    · decide
  · split
    · decide
    · decide

theorem twins (h : Text.Twins free s s') : Except.Alike (Text.Twins free) (rename s) (rename s') := by
  refine h.pass (f := fun q => .ok ((q.calls isName).map fun c => ⟨c.name.span, jetName c.name⟩)) ?_
  intro l tail tail' q q' hq
  rw [hq.relaid.calls fun _ => rfl]
  refine .ok ⟨.behind, ?_⟩
  rw [List.forall₂_map_left_iff, List.forall₂_map_right_iff, List.forall₂_map_right_iff, List.forall₂_same]
  intro c hc
  obtain ⟨as, bs, htokens, hname, -⟩ := Call.mem_among hc
  have hsplit : q.tokens = as ++ ([c.name] ++ (c.opening :: (c.args ++ [c.closing]) ++ bs)) := by
    rw [htokens, Call.tokens]
    simp
  obtain ⟨d, w, hjet, hword, hblank, -⟩ := jetName_cases c.name
  have hneat : Neat free [Cell.word (jetName c.name)] := by
    rw [hjet]
    exact .word hword hblank
  have hkind := (isWord_of_isName hname).isWord_kind (hq.read.fits hsplit)
  have hedit := hq.editsAlike (B := .behind) hsplit rfl rfl id id (.refl hneat)
    (fun _ hd => Cell.leads_word (ofWord?_jetName c.name) hkind hd) rfl
    fun hlead => hlead.word (ofWord?_jetName c.name) (.inr hkind)
  simp only [Cell.spell_cons, Cell.spell_nil, Cell.text_word, List.append_nil] at hedit
  exact hedit

end LetterCase

/-! ### Parts of dates -/

namespace Extract

theorem neat {field interval : SqlText} (h : interval? field = some interval) :
    Neat free [Cell.word "DatePart".toList, Cell.sign '(',
      .token (.string interval) ('\'' :: (interval ++ ['\''])), Cell.sign ','] := by
  have hname : Neat free [Cell.word "DatePart".toList] :=
    .word (Cell.isWord_of_isAlpha (by decide) (by decide)) (by decide)
  have hstring : Neat free [Cell.token (.string interval) ('\'' :: (interval ++ ['\'']))] :=
    .token ⟨rfl, fits_interval h⟩
  exact (hname.then_sign (.inl rfl)).append (d := Cell.sign '(') (hstring.then_sign (.inr (.inr rfl))) rfl
    (Cell.left_leads _ _ _)

theorem callEdit_alike {c : Call} (h : q.Twins free l tail tail' q')
    (hc : c ∈ q.calls fun t => t.spells "extract".toList) :
    Except.Alike (Splice.EditsAlike free .behind (row q.tokens) tail (row q'.tokens) tail')
      (callEdit c) (callEdit (c.relaid l)) := by
  obtain ⟨as, bs, htokens, hname, hmatched, -⟩ := Call.mem_among hc
  obtain ⟨name, opening, args, closing⟩ := c
  match args with
  | [] | [_] | [_, _] => exact .error rfl
  | field :: fromWord :: first :: more =>
    unfold callEdit Call.relaid
    simp only [List.map_cons, Token.relaid_kind, Token.relaid_isKeyword, Token.relaid_text]
    split
    · next hform =>
      split
      · next interval hknown =>
        have hsplit : q.tokens = as ++ ([name, opening, field, fromWord] ++ (first :: more ++ [closing] ++ bs)) := by
          rw [htokens, Call.tokens]
          simp
        have hword := (Cell.isWord_of_sameWord hname (by decide) (by decide)).isWord_kind (h.read.fits hsplit)
        have hfrom : fromWord.kind = .keyword .FROM := Kind.isKeyword_iff.1 hform.2
        have hedit := h.editsAlike (u := fromWord) (d := Cell.sign ',') (B := .behind) hsplit rfl rfl id id (.refl (neat hknown))
          (fun _ hd => Cell.leads_word (by decide) hword hd) rfl fun hlead => by
            rw [Token.cell, hfrom] at hlead
            exact hlead.comma rfl
        refine .ok ?_
        simpa [Cell.word, Cell.sign] using hedit
      · exact .error rfl
    · exact .error rfl

theorem twins (h : Text.Twins free s s') : Except.Alike (Text.Twins free) (convert s) (convert s') := by
  refine h.pass (f := fun q => (q.calls fun t => t.spells "extract".toList).mapM callEdit) ?_
  intro l tail tail' q q' hq
  rw [hq.relaid.calls fun _ => rfl]
  exact (Except.Alike.mapM fun c hc => callEdit_alike hq hc).mono fun es es' hes => ⟨.behind, hes⟩

end Extract

/-! ### Casts -/

namespace Cast

/-- Casts are cut before their `AS`. -/
def borders (ts : List Token) : Borders where
  early j := ts[j]?.any (fun t => t.isKeyword .AS) = true
  kept _ := False
  origin := id

theorem early_iff {as bs : List Token} {t : Token} :
    (borders (as ++ t :: bs)).early as.length ↔ t.isKeyword .AS = true := by
  show (as ++ t :: bs)[as.length]?.any _ = true ↔ _
  rw [List.getElem?_append_right (Nat.le_refl _), Nat.sub_self, List.getElem?_cons_zero, Option.any_some]

theorem typeName_relaid (ts : List Token) : typeName (ts.map (Token.relaid l)) = typeName ts := by
  unfold typeName
  rw [List.takeWhile_map, List.map_map]
  rfl

theorem ofWord?_conversion {type function : SqlText} (h : conversion? type = some function) :
    Keyword.ofWord? function = none := by
  obtain ⟨⟨f, types⟩, hfind, heq⟩ := Option.map_eq_some_iff.1 h
  obtain rfl : f.toList = function := heq
  have hall : ∀ x ∈ conversions, Keyword.ofWord? x.1.toList = none := by decide
  exact hall _ (List.mem_of_find?_eq_some hfind)

theorem callEdits_alike {c : Call} (h : q.Twins free l tail tail' q') (hc : c ∈ q.calls fun t => t.isKeyword .CAST) :
    List.Forall₂ (Splice.EditsAlike free (borders q.tokens) (row q.tokens) tail (row q'.tokens) tail')
      (callEdits c) (callEdits (c.relaid l)) := by
  obtain ⟨as, bs, htokens, hname, hmatched, -⟩ := Call.mem_among hc
  have hsplit := Token.splitLast_relaid (l := l) (p := Token.isKeywordAt (c.opening.depth + 1) .AS) (fun _ => rfl) c.args
  unfold callEdits
  simp only [Call.relaid, Token.relaid_depth] at hsplit ⊢
  rw [hsplit]
  cases hlast : Token.splitLast (Token.isKeywordAt (c.opening.depth + 1) .AS) c.args with
  | none => exact .nil
  | some s =>
    obtain ⟨operand, word, type⟩ := s
    simp only [Option.map_some, Token.relaidSplit, List.map_eq_nil_iff, typeName_relaid]
    split
    · exact .nil
    next hoperand =>
    cases hfound : conversion? (typeName type) with
    | none => exact .nil
    | some function =>
      simp only
      obtain ⟨hargs, hword, -⟩ := Token.splitLast_eq_some hlast
      have hkind : c.name.kind = .keyword .CAST := Kind.isKeyword_iff.1 hname
      have hopening : c.opening.kind = .symbol .leftParen := Kind.isSymbol_iff.1 hmatched.left
      have hclosing : c.closing.kind = .symbol .rightParen :=
        Kind.isSymbol_iff.1 (Token.isSymbol_of_isSymbolAt hmatched.right)
      have hq : q.tokens = as ++ ([c.name, c.opening] ++ (c.args ++ c.closing :: bs)) := by
        rw [htokens, Call.tokens]
        simp
      refine .cons ?_ (.cons ?_ .nil)
      · obtain ⟨w, hw, hisWord⟩ := conversion_cases hfound
        have hofWord := ofWord?_conversion hfound
        have hneat : Neat free [Cell.word function, Cell.sign '('] :=
          (Neat.word hisWord (by rw [hw]; rfl)).then_sign (.inl rfl)
        have hedit := h.editsAlike (u := c.opening) (d := Cell.sign '(') (B := borders q.tokens) hq rfl rfl ?_ id
          (.refl hneat) (fun _ hd => Cell.leads_word hofWord (by rw [hkind]; rfl) hd) rfl fun hlead => by
            rw [Token.cell, hopening] at hlead
            exact hlead.respelled
        · simpa using hedit
        · rw [hq, show [c.name, c.opening] ++ (c.args ++ c.closing :: bs) = c.name :: _ from rfl, early_iff,
            Token.isKeyword, hkind]
          exact Bool.false_ne_true
      · obtain ⟨before, u, rfl⟩ := (List.eq_nil_or_concat operand).resolve_left hoperand
        rw [List.concat_eq_append] at hargs ⊢
        have hAS : word.isKeyword .AS = true := Token.isKeyword_of_isKeywordAt hword
        have hdropped : q.tokens = ((as ++ [c.name, c.opening] ++ before) ++ [u]) ++ (word :: type ++ c.closing :: bs) := by
          rw [hq, hargs]
          simp
        have hedit := h.editsAlike_nil (B := borders q.tokens) hdropped ?_ ?_ id ⟨.rightParen, rfl, hclosing⟩
        · rw [List.map_append, List.map_singleton, Token.stopOr_concat, Token.stopOr_concat]
          exact hedit
        · have hsplit : q.tokens = (as ++ [c.name, c.opening] ++ before ++ [u]) ++ word :: (type ++ c.closing :: bs) := by
            rw [hq, hargs]
            simp
          have hlength : (as ++ [c.name, c.opening] ++ before).length + 1
              = (as ++ [c.name, c.opening] ++ before ++ [u]).length := by
            simp only [List.length_append, List.length_cons, List.length_nil]
          rw [hsplit, hlength, early_iff]
          exact hAS
        · have hsplit : q.tokens = (as ++ [c.name, c.opening] ++ before ++ [u] ++ word :: type) ++ c.closing :: bs := by
            rw [hq, hargs]
            simp
          have hlength : (as ++ [c.name, c.opening] ++ before).length + 1 + (word :: type).length
              = (as ++ [c.name, c.opening] ++ before ++ [u] ++ word :: type).length := by
            simp only [List.length_append, List.length_cons, List.length_nil]
          rw [hsplit, hlength, early_iff, Token.isKeyword, hclosing]
          exact Bool.false_ne_true

theorem twins (h : Text.Twins free s s') : Except.Alike (Text.Twins free) (convert s) (convert s') := by
  refine h.pass (f := fun q => .ok ((q.calls fun t => t.isKeyword .CAST).flatMap callEdits)) ?_
  intro l tail tail' q q' hq
  rw [hq.relaid.calls fun _ => rfl, List.flatMap_map]
  exact .ok ⟨borders q.tokens, forall₂_flatMap fun c hc => callEdits_alike hq hc⟩

end Cast

/-! ### Searching in texts -/

namespace Locate

theorem replacement?_alike {items : List (List Token)}
    (h : ∀ ts ∈ items, ts ≠ [] → NeatTwins free (stretch ts) (stretch (ts.map (Token.relaid l)))) :
    (replacement? items = none ∧ replacement? (items.map (List.map (Token.relaid l))) = none) ∨
      ∃ P P', NeatTwins free P P' ∧
        replacement? items = some ("InStr(".toList ++ Cell.spell P ++ [')']) ∧
        replacement? (items.map (List.map (Token.relaid l))) = some ("InStr(".toList ++ Cell.spell P' ++ [')']) := by
  match items, h with
  | [], _ | [_], _ | _ :: _ :: _ :: _ :: _, _ => exact .inl ⟨rfl, rfl⟩
  | [needle, haystack], h =>
    simp only [replacement?, List.map_cons, List.map_nil, List.map_eq_nil_iff]
    split
    · exact .inl ⟨rfl, rfl⟩
    next hne =>
    rw [not_or] at hne
    refine .inr ⟨_, _, (h haystack (by simp) hne.2).comma (h needle (by simp) hne.1), ?_, ?_⟩
    · simp [Text.joinWith, Token.spell_stretch]
    · simp [Text.joinWith, Token.spell_stretch]
  | [needle, haystack, start], h =>
    simp only [replacement?, List.map_cons, List.map_nil, List.map_eq_nil_iff]
    split
    · exact .inl ⟨rfl, rfl⟩
    next hne =>
    rw [not_or, not_or] at hne
    refine .inr ⟨_, _, (h start (by simp) hne.2.2).comma
      ((h haystack (by simp) hne.2.1).comma (h needle (by simp) hne.1)), ?_, ?_⟩
    · simp [Text.joinWith, Token.spell_stretch]
    · simp [Text.joinWith, Token.spell_stretch]

theorem step_alike (h : q.Twins free l tail tail' q') :
    Except.Alike (Option.Rel fun e e' => q.EditsAlike free tail q' tail' [e] [e']) (step q) (step q') := by
  unfold step
  rw [h.relaid.calls fun _ => rfl, List.getLast?_map]
  cases hlast : (q.calls fun t => t.spells "locate".toList).getLast? with
  | none => exact .ok .none
  | some c =>
    obtain ⟨as, bs, htokens, hname, hmatched, -⟩ := Call.mem_among (List.mem_of_getLast? hlast)
    simp only [Option.map_some, Call.arguments_relaid]
    have hneat : ∀ ts ∈ c.arguments, ts ≠ [] →
        NeatTwins free (stretch ts) (stretch (ts.map (Token.relaid l))) := by
      intro ts hts hne
      obtain ⟨us, vs, hargs, -⟩ := Token.mem_splitCommas hts
      refine h.neat (show q.tokens = (as ++ c.name :: c.opening :: us) ++ (ts ++ (vs ++ c.closing :: bs)) from ?_) hne
      rw [htokens, Call.tokens, hargs]
      simp
    rcases replacement?_alike hneat with ⟨hnone, hnone'⟩ | ⟨P, P', hP, hone, hone'⟩
    · rw [hnone, hnone']
      exact .error rfl
    · rw [hone, hone']
      have hword := (Cell.isWord_of_sameWord hname (by decide) (by decide)).isWord_kind (h.read.fits htokens)
      have hclosing : c.closing.kind = .symbol .rightParen :=
        Kind.isSymbol_iff.1 (Token.isSymbol_of_isSymbolAt hmatched.right)
      have hedit := h.editsAlike (t := c.name) (u := c.closing) (B := .behind) htokens rfl
        (by rw [Call.tokens, List.getLast?_cons, List.getLast?_cons, List.getLast?_concat]; rfl) id id
        (hP.call (w := "InStr".toList) (Cell.isWord_of_isAlpha (by decide) (by decide)) (by decide))
        (fun _ hd => Cell.leads_word (by decide) hword hd) (Cell.getLast?_call _ P)
        fun hlead => by
          rw [Token.cell, hclosing] at hlead
          exact hlead.respelled
      refine .ok (.some ⟨.behind, .cons ?_ .nil⟩)
      simpa [Call.relaid] using hedit

theorem twins (h : Text.Twins free s s') : Except.Alike (Text.Twins free) (convert s) (convert s') :=
  h.exhaust step_alike shrinks

end Locate

end JetAdapter
