import JetAdapter.Dialect.Function
import JetAdapter.Proofs.Marking
import Mathlib.Data.List.FinRange

/-!
# Functions that are written out

Two of the forms in which a function is spelled are more than a name.

The first of some arguments that is not null has no name in Jet.  It is written as a nest of calls
`IIf(IsNull(a), .., a)`, and a nest of such calls is a `NullChoice`: it has a text, given the texts of the arguments, and
a value, given their values.  Which nest is written depends on the number of the arguments alone, and its value is that of
the first argument that is not null (`coalesce_first_not_null`).

Other functions are written by a template, in which a `?` and a number stand for an argument.  A template can be cut in
one way only at its references, a `?` and all digits behind it (`HasReferences`).  What is written is the template with
all references replaced at once, as the arguments are never looked into, and the first reference to an argument that is
not there is what is reported (`expanded_at_once`).
-/

namespace JetAdapter

/-! ### The first argument that is not null -/

/-- A choice among arguments: one of them, or a call `IIf(IsNull(tested), ifNull, otherwise)`. -/
inductive NullChoice (α : Type)
  | argument (a : α)
  | choose (tested ifNull otherwise : NullChoice α)

namespace NullChoice

variable {α β : Type}

/-- The text of a call. -/
def callText (name : String) (args : List SqlText) : SqlText :=
  name.toList ++ '(' :: (Text.joinWith ", ".toList args ++ [')'])

/-- The text of the calls, where the arguments have these texts. -/
def text (write : α → SqlText) : NullChoice α → SqlText
  | .argument a => write a
  | .choose tested ifNull otherwise =>
    callText "IIf" [callText "IsNull" [tested.text write], ifNull.text write, otherwise.text write]

/-- The value of the calls, where the arguments have these values: `IsNull` tests a value for being null, and `IIf` has
the value of its second argument if the test succeeds and that of the third if not. -/
def eval (isNull : β → Bool) (value : α → β) : NullChoice α → β
  | .argument a => value a
  | .choose tested ifNull otherwise =>
    if isNull (tested.eval isNull value) then ifNull.eval isNull value else otherwise.eval isNull value

/-- The nest that picks the first of some arguments that is not null. -/
def firstOf (a : α) : List α → NullChoice α
  | [] => .argument a
  | b :: as => .choose (.argument a) (firstOf b as) (.argument a)

theorem text_firstOf (write : α → SqlText) (a : α) (as : List α) :
    (firstOf a as).text write = FunctionForm.firstNotNull (write a) (as.map write) := by
  induction as generalizing a with
  | nil => rfl
  | cons b as ih =>
    rw [firstOf, text, text, ih, List.map_cons, FunctionForm.firstNotNull_cons]
    simp [callText, Text.joinWith, List.intercalate]

/-- The nest has the value of an argument that only null ones come before, and this one is null only if it is the last
one. -/
theorem exists_eval_firstOf (isNull : β → Bool) (value : α → β) (a : α) (as : List α) :
    ∃ before b after, a :: as = before ++ b :: after ∧ (∀ x ∈ before, isNull (value x) = true) ∧
      (firstOf a as).eval isNull value = value b ∧ (isNull (value b) = true → after = []) := by
  induction as generalizing a with
  | nil => exact ⟨[], a, [], rfl, by simp, rfl, fun _ => rfl⟩
  | cons b as ih =>
    by_cases hnull : isNull (value a) = true
    · obtain ⟨before, c, after, hsplit, hbefore, heval, hlast⟩ := ih b
      refine ⟨a :: before, c, after, by rw [hsplit, List.cons_append], ?_, ?_, hlast⟩
      · intro x hx
        rcases List.mem_cons.1 hx with rfl | hx
        · exact hnull
        · exact hbefore x hx
      · rw [firstOf, eval, eval, if_pos hnull, heval]
    · refine ⟨[], a, b :: as, rfl, by simp, ?_, fun h => absurd h hnull⟩
      rw [firstOf, eval, eval, if_neg hnull]

end NullChoice

/-- **The first argument that is not null.**  For no arguments it is refused.  For every number of arguments there is one
nest of calls that is written, whatever the texts of the arguments are, and whatever values they have, the value of
the nest is that of an argument that only null ones come before and that is not null itself, unless it is the last. -/
theorem coalesce_first_not_null (function : SqlText) :
    FunctionForm.render function [] .coalesce = .error (FunctionForm.missing function 1) ∧
    ∀ n, ∃ choice : NullChoice (Fin (n + 1)),
      (∀ args : Fin (n + 1) → SqlText,
        FunctionForm.render function (List.ofFn args) .coalesce = .ok (choice.text args)) ∧
      ∀ (β : Type) (isNull : β → Bool) (value : Fin (n + 1) → β), ∃ i,
        choice.eval isNull value = value i ∧
        (∀ j < i, isNull (value j) = true) ∧
        (isNull (value i) = true → i = Fin.last n) := by
  refine ⟨rfl, fun n => ⟨.firstOf 0 ((List.finRange n).map Fin.succ), fun args => ?_, fun β isNull value => ?_⟩⟩
  · rw [NullChoice.text_firstOf, List.ofFn_eq_map, List.finRange_succ, List.map_cons]
    rfl
  · obtain ⟨before, i, after, hsplit, hbefore, heval, hlast⟩ :=
      NullChoice.exists_eval_firstOf isNull value 0 ((List.finRange n).map Fin.succ)
    rw [← List.finRange_succ] at hsplit
    have hmem : ∀ j, j ∈ before ++ i :: after := fun j => hsplit ▸ List.mem_finRange j
    have hordered := List.pairwise_lt_finRange (n + 1)
    rw [hsplit, List.pairwise_append, List.pairwise_cons] at hordered
    obtain ⟨-, ⟨hafter, -⟩, hacross⟩ := hordered
    refine ⟨i, heval, fun j hj => ?_, fun hnull => ?_⟩
    · rcases List.mem_append.1 (hmem j) with hj' | hj'
      · exact hbefore j hj'
      · rcases List.mem_cons.1 hj' with rfl | hj'
        · exact absurd hj (lt_irrefl j)
        · exact absurd hj (lt_asymm (hafter j hj'))
    · have hend := hmem (Fin.last n)
      rw [hlast hnull] at hend
      rcases List.mem_append.1 hend with hl | hl
      · exact absurd (hacross _ hl i List.mem_cons_self) (not_lt.2 (Fin.le_last i))
      · exact (List.mem_singleton.1 hl).symm

/-! ### References of a template -/

namespace FunctionForm

open Decimal (ofDigits readNat)

/-- A reference as it is written in a template. -/
def referenceText (digits : SqlText) : SqlText :=
  '?' :: digits

/-- Whether a template is cut at its references: the marks are the digits behind each `?`, as many as there are. -/
structure HasReferences (template : SqlText) (m : Marked SqlText) : Prop where
  text : m.render referenceText = template
  plain : ∀ t ∈ m.texts, '?' ∉ t
  digits : ∀ d ∈ m.marks, ∀ c ∈ d, c.isDigit = true
  longest : ∀ t ∈ m.texts.tail, t.head?.any Char.isDigit = false

/-- Whether digits are the number of an argument, counted from 1; a number has 64 bits. -/
def Names (args : List SqlText) (digits : SqlText) : Prop :=
  1 ≤ ofDigits digits ∧ ofDigits digits ≤ args.length ∧ ofDigits digits < UInt64.size

instance (args : List SqlText) (digits : SqlText) : Decidable (Names args digits) :=
  inferInstanceAs (Decidable (_ ∧ _ ∧ _))

/-- The argument that digits are the number of. -/
def argument (args : List SqlText) (digits : SqlText) : SqlText :=
  args.getD (ofDigits digits - 1) []

/-- The number that is reported for digits: none are number 0, and so are those whose number does not fit. -/
def reported (digits : SqlText) : Nat :=
  if ofDigits digits < UInt64.size then ofDigits digits else 0

variable {function template : SqlText} {args : List SqlText} {m : Marked SqlText} {head d t r : SqlText}
  {tail : List (SqlText × SqlText)}

/-- As there are never that many arguments, a number of an argument fits. -/
theorem names_iff (h : args.length < UInt64.size) (digits : SqlText) :
    Names args digits ↔ 1 ≤ ofDigits digits ∧ ofDigits digits ≤ args.length := by
  unfold Names
  omega

theorem getD_readNat (hd : ∀ c ∈ d, c.isDigit = true) : (readNat UInt64.size d).getD 0 = reported d := by
  have hall : d.all Char.isDigit = true := List.all_eq_true.2 hd
  rw [readNat, reported]
  by_cases hnil : d = []
  · subst hnil
    rfl
  · by_cases hfits : ofDigits d < UInt64.size
    · rw [if_pos ⟨hnil, hall, hfits⟩, if_pos hfits]
      rfl
    · rw [if_neg fun h => hfits h.2.2, if_neg hfits]
      rfl

theorem getElem?_reported (args : List SqlText) (d : SqlText) :
    (if reported d = 0 then none else args[reported d - 1]?) = if Names args d then some (argument args d) else none := by
  by_cases hnames : Names args d
  · have hreported : reported d = ofDigits d := if_pos hnames.2.2
    have hlt : ofDigits d - 1 < args.length := by
      have := hnames.1
      have := hnames.2.1
      omega
    rw [hreported, if_neg (Nat.ne_of_gt hnames.1), if_pos hnames, argument, List.getElem?_eq_getElem hlt,
      List.getD_eq_getElem?_getD, List.getElem?_eq_getElem hlt]
    rfl
  · rw [if_neg hnames]
    unfold Names at hnames
    unfold reported
    by_cases hfits : ofDigits d < UInt64.size
    · rw [if_pos hfits]
      by_cases hzero : ofDigits d = 0
      · rw [if_pos hzero]
      · rw [if_neg hzero]
        exact List.getElem?_eq_none (by omega)
    · rw [if_neg hfits, if_pos rfl]

/-- Where not all digits are numbers of arguments, some are the first that are not. -/
theorem exists_first_not {ds : List SqlText} (h : ¬ ∀ d ∈ ds, Names args d) :
    ∃ before d after, ds = before ++ d :: after ∧ (∀ b ∈ before, Names args b) ∧ ¬ Names args d := by
  cases hfind : ds.find? fun d => !decide (Names args d) with
  | none =>
    refine absurd (fun d hd => ?_) h
    simpa using List.find?_eq_none.1 hfind d hd
  | some d =>
    obtain ⟨hd, before, after, hds, hbefore⟩ := List.find?_eq_some_iff_append.1 hfind
    exact ⟨before, d, after, hds, fun b hb => by simpa using hbefore b hb, by simpa using hd⟩

/-! ### One reference after the other -/

/-- What holds no `?` is kept. -/
theorem expand_append (ht : '?' ∉ t) (r : SqlText) :
    expand function args (t ++ r) = (expand function args r).map (t ++ ·) := by
  induction t with
  | nil =>
    cases h : expand function args r with
    | error e => exact h
    | ok out => exact h
  | cons c t ih =>
    have hc : c ≠ '?' := fun hc => ht (hc ▸ List.mem_cons_self)
    have ht' : '?' ∉ t := fun hmem => ht (List.mem_cons_of_mem c hmem)
    rw [List.cons_append, expand, if_neg hc, ih ht']
    cases expand function args r with
    | error e => rfl
    | ok out => rfl

/-- A reference is replaced, or it is the one that is reported. -/
theorem expand_reference (hd : ∀ c ∈ d, c.isDigit = true) (hr : r.head?.any Char.isDigit = false) :
    expand function args ('?' :: (d ++ r)) = if Names args d then (expand function args r).map (argument args d ++ ·)
      else .error (missing function (reported d)) := by
  obtain ⟨htake, hdrop⟩ := takeWhile_append_of_head? hd hr
  rw [expand, if_pos rfl, htake, hdrop]
  simp only [getD_readNat hd, getElem?_reported]
  by_cases hnames : Names args d
  · simp only [if_pos hnames]
  · simp only [if_neg hnames]

theorem render_reference (write : SqlText → SqlText) (head d t : SqlText) (tail : List (SqlText × SqlText)) :
    Marked.render write ⟨head, (d, t) :: tail⟩ = head ++ (write d ++ Marked.render write ⟨t, tail⟩) := by
  simp [Marked.render]

namespace HasReferences

/-- What follows a reference is cut at its references too. -/
theorem behind (h : HasReferences template ⟨head, (d, t) :: tail⟩) :
    HasReferences (Marked.render referenceText ⟨t, tail⟩) ⟨t, tail⟩ where
  text := rfl
  plain := fun u hu => h.plain u (List.mem_cons_of_mem head hu)
  digits := fun e he => h.digits e (List.mem_cons_of_mem d he)
  longest := fun u hu => h.longest u (List.mem_cons_of_mem t hu)

/-- No digit follows the digits of a reference. -/
theorem any_head?_behind (h : HasReferences template ⟨head, (d, t) :: tail⟩) :
    (Marked.render referenceText ⟨t, tail⟩).head?.any Char.isDigit = false := by
  have ht := h.longest t List.mem_cons_self
  cases t with
  | nil =>
    cases tail with
    | nil => rfl
    | cons p tail => rfl
  | cons c t => exact ht

theorem text_eq (h : HasReferences template ⟨head, (d, t) :: tail⟩) :
    template = head ++ '?' :: (d ++ Marked.render referenceText ⟨t, tail⟩) := by
  rw [← h.text, render_reference, referenceText, List.cons_append]

theorem expand_cons (h : HasReferences template ⟨head, (d, t) :: tail⟩) :
    expand function args template = if Names args d
      then (expand function args (Marked.render referenceText ⟨t, tail⟩)).map
        fun out => head ++ (argument args d ++ out)
      else .error (missing function (reported d)) := by
  rw [h.text_eq, expand_append (h.plain head List.mem_cons_self),
    expand_reference (h.digits d List.mem_cons_self) h.any_head?_behind]
  by_cases hnames : Names args d
  · rw [if_pos hnames, if_pos hnames]
    cases expand function args (Marked.render referenceText ⟨t, tail⟩) with
    | error e => rfl
    | ok out => rfl
  · rw [if_neg hnames, if_neg hnames]
    rfl

/-- If all references are to arguments, all of them are replaced. -/
theorem expand_eq_ok (function : SqlText) (h : HasReferences template m) (hall : ∀ d ∈ m.marks, Names args d) :
    expand function args template = .ok (m.render (argument args)) := by
  obtain ⟨head, tail⟩ := m
  induction tail generalizing head template with
  | nil =>
    rw [← h.text, Marked.render, List.flatMap_nil, expand_append (h.plain head List.mem_cons_self), expand]
    rfl
  | cons p tail ih =>
    obtain ⟨d, t⟩ := p
    obtain ⟨hd, htail⟩ := List.forall_mem_cons.1 hall
    rw [h.expand_cons, if_pos hd, ih t h.behind htail, render_reference]
    rfl

/-- The first reference that is to no argument is reported. -/
theorem expand_eq_error (function : SqlText) (h : HasReferences template m) {before after : List SqlText}
    (hmarks : m.marks = before ++ d :: after) (hbefore : ∀ b ∈ before, Names args b) (hd : ¬ Names args d) :
    expand function args template = .error (missing function (reported d)) := by
  obtain ⟨head, tail⟩ := m
  induction tail generalizing head template before with
  | nil => simp [Marked.marks] at hmarks
  | cons p tail ih =>
    obtain ⟨e, t⟩ := p
    cases before with
    | nil =>
      obtain ⟨rfl, -⟩ := List.cons.inj hmarks
      rw [h.expand_cons, if_neg hd]
    | cons b before =>
      obtain ⟨rfl, htail⟩ := List.cons.inj hmarks
      obtain ⟨hb, hbefore⟩ := List.forall_mem_cons.1 hbefore
      rw [h.expand_cons, if_pos hb, ih hbefore t h.behind htail]
      rfl

/-! ### One way to cut -/

theorem prepend (c : Char) (hc : c ≠ '?') (h : HasReferences template m) :
    HasReferences (c :: template) (m.prepend [c]) where
  text := by rw [Marked.render_prepend, h.text, List.singleton_append]
  plain := by
    refine List.forall_mem_cons.2 ⟨?_, fun t ht => h.plain t (List.mem_cons_of_mem _ ht)⟩
    rw [Marked.prepend, List.singleton_append, List.mem_cons, not_or]
    exact ⟨hc.symm, h.plain m.head List.mem_cons_self⟩
  digits := h.digits
  longest := h.longest

theorem cons (hd : ∀ c ∈ d, c.isDigit = true) (hr : template.head?.any Char.isDigit = false)
    (h : HasReferences template m) : HasReferences ('?' :: (d ++ template)) (m.cons d) where
  text := by rw [Marked.render_cons, h.text, referenceText, List.cons_append]
  plain := List.forall_mem_cons.2 ⟨List.not_mem_nil, h.plain⟩
  digits := List.forall_mem_cons.2 ⟨hd, h.digits⟩
  longest := by
    refine List.forall_mem_cons.2 ⟨?_, h.longest⟩
    rw [← h.text] at hr
    cases hhead : m.head with
    | nil => rfl
    | cons c t =>
      rw [Marked.render, hhead] at hr
      exact hr

theorem exists_of_text (template : SqlText) : ∃ m, HasReferences template m := by
  induction hn : template.length using Nat.strong_induction_on generalizing template with
  | _ n ih =>
    cases template with
    | nil => exact ⟨⟨[], []⟩, rfl, by simp [Marked.texts], by simp [Marked.marks], by simp [Marked.texts]⟩
    | cons c t =>
      rw [List.length_cons] at hn
      by_cases hc : c = '?'
      · have hshort : (t.dropWhile Char.isDigit).length ≤ t.length := (List.dropWhile_sublist _).length_le
        obtain ⟨m, hm⟩ := ih (t.dropWhile Char.isDigit).length (by omega) _ rfl
        have hdigits : ∀ c ∈ t.takeWhile Char.isDigit, c.isDigit = true := List.all_eq_true.1 List.all_takeWhile
        have hcut := hm.cons hdigits (any_head?_dropWhile Char.isDigit t)
        rw [List.takeWhile_append_dropWhile] at hcut
        exact ⟨_, hc ▸ hcut⟩
      · obtain ⟨m, hm⟩ := ih t.length (by omega) t rfl
        exact ⟨_, hm.prepend c hc⟩

/-- A template up to its first reference. -/
theorem takeWhile_eq (h : HasReferences template ⟨head, tail⟩) :
    template.takeWhile (· != '?') = head ∧
      template.dropWhile (· != '?') = tail.flatMap fun p => referenceText p.1 ++ p.2 := by
  rw [← h.text]
  refine takeWhile_append_of_head? (fun c hc => ?_) ?_
  · have hne : c ≠ '?' := fun he => h.plain head List.mem_cons_self (he ▸ hc)
    simpa using hne
  · cases tail with
    | nil => rfl
    | cons p tail => rfl

theorem unique {m' : Marked SqlText} (h : HasReferences template m) (h' : HasReferences template m') : m' = m := by
  obtain ⟨head, tail⟩ := m
  obtain ⟨head', tail'⟩ := m'
  induction tail generalizing head head' tail' template with
  | nil =>
    obtain ⟨rfl, hrest⟩ := h.takeWhile_eq
    obtain ⟨rfl, hrest'⟩ := h'.takeWhile_eq
    rw [hrest] at hrest'
    cases tail' with
    | nil => rfl
    | cons p tail' => cases hrest'
  | cons p tail ih =>
    obtain ⟨d, t⟩ := p
    cases tail' with
    | nil =>
      have hrest := h.takeWhile_eq.2.symm.trans h'.takeWhile_eq.2
      cases hrest
    | cons p' tail' =>
      obtain ⟨d', t'⟩ := p'
      have hhead : head' = head := h'.takeWhile_eq.1.symm.trans h.takeWhile_eq.1
      have htext := h'.text_eq.symm.trans h.text_eq
      rw [hhead] at htext
      have hrest := (List.cons.inj (List.append_cancel_left htext)).2
      obtain ⟨htake, hdrop⟩ := takeWhile_append_of_head? (h.digits d List.mem_cons_self) h.any_head?_behind
      obtain ⟨htake', hdrop'⟩ := takeWhile_append_of_head? (h'.digits d' List.mem_cons_self) h'.any_head?_behind
      rw [hrest, htake] at htake'
      rw [hrest, hdrop] at hdrop'
      have hbehind := h'.behind
      rw [← hdrop'] at hbehind
      have hm := ih t h.behind t' tail' hbehind
      rw [Marked.mk.injEq] at hm
      rw [hhead, htake', hm.1, hm.2]

end HasReferences

end FunctionForm

open FunctionForm

/-- **Templates are expanded at once.**  A template is cut at its references in one way.  It is expanded if and only if
each of them is the number of an argument, and what is written is the template with the arguments in the places of the
references, as they stand.  Otherwise the first reference that is the number of none is reported: by its number, or
by 0 if digits are missing or their number has more than 64 bits. -/
theorem expanded_at_once (function template : SqlText) (args : List SqlText) :
    ∃ m, HasReferences template m ∧ (∀ m', HasReferences template m' → m' = m) ∧
      (∀ out, render function args (.expansion template) = .ok out ↔
        (∀ d ∈ m.marks, Names args d) ∧ out = m.render (argument args)) ∧
      (∀ before d after, m.marks = before ++ d :: after → (∀ b ∈ before, Names args b) → ¬ Names args d →
        render function args (.expansion template) = .error (missing function (reported d))) ∧
      (args.length < UInt64.size → ∀ d, Names args d ↔ 1 ≤ Decimal.ofDigits d ∧ Decimal.ofDigits d ≤ args.length) := by
  obtain ⟨m, hm⟩ := HasReferences.exists_of_text template
  refine ⟨m, hm, fun m' hm' => hm.unique hm', fun out => ⟨fun hout => ?_, ?_⟩,
    fun before d after hmarks hbefore hd => hm.expand_eq_error function hmarks hbefore hd, names_iff⟩
  · have hall : ∀ d ∈ m.marks, Names args d := by
      by_contra hnot
      obtain ⟨before, d, after, hmarks, hbefore, hd⟩ := exists_first_not hnot
      cases hout.symm.trans (hm.expand_eq_error function hmarks hbefore hd)
    have hexpand := hm.expand_eq_ok function hall
    exact ⟨hall, Except.ok.inj (hout.symm.trans hexpand)⟩
  · rintro ⟨hall, rfl⟩
    exact hm.expand_eq_ok function hall

/-- What an argument holds is not expanded. -/
example : render "mod".toList ["?2".toList, "b".toList] (.expansion "(?1 Mod ?2)".toList) = .ok "(?2 Mod b)".toList := by
  decide +kernel

end JetAdapter
