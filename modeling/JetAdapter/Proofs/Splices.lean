import JetAdapter.Proofs.EditSets
import JetAdapter.Proofs.Spacing
import JetAdapter.Proofs.Stretches

/-!
# Splices

The cells of a query are a row: gap, token, gap, token, and so on, where a gap may be empty.  Edits are made
between borders of this row, and where these stand is a matter of tokens, not of bytes.  A `Splice` says which
cells come between two borders, and `Splice.edit` is its edit.

Borders before and behind an empty gap are different ones at one place.  As long as no splice starts before a gap
that another one starts or ends behind (`Splice.Sits`), edits are put in order and applied as their splices are
(`Splice.applyFrom_eq`).  So of two texts with the same tokens, edits at the same borders make texts with the same
tokens (`Splice.applyAll_alike`), if what is brought in is spaced (`Splice.Tidy`).
-/

namespace JetAdapter

open Cell (Sound Leads IsSpaced IsWhole spell ofGap)

/-- A stretch of a text is replaced. -/
theorem Edit.applyAll_replace {first last : Nat} {U M W new : SqlText} (hU : Text.byteSize U = first)
    (hM : first + Text.byteSize M = last) :
    applyAll [⟨⟨first, last⟩, new⟩] (U ++ (M ++ W)) = .ok (U ++ (new ++ W)) := by
  subst hU hM
  show applyFrom 0 _ [_] = _
  rw [applyFrom_cons (Nat.zero_add _).symm rfl, ← List.append_assoc]
  rfl

/-! ### Rows -/

/-- The cells of tokens, each token and the gap before it apart. -/
def Token.row (ts : List Token) : List (List Cell) :=
  ts.flatMap fun t => [ofGap t.gap, [t.cell]]

/-- What splices of one row agree on: the gaps that some may start before, and the borders where none ends. -/
structure Borders where
  early : Nat → Prop
  kept : Nat → Prop
  origin : ¬ kept 0

/-- Splices start behind gaps only. -/
def Borders.behind : Borders :=
  ⟨fun _ => False, fun _ => False, id⟩

/-- New cells between two borders of a row. -/
structure Splice where
  start : Nat
  stop : Nat
  cells : List Cell

namespace Splice

variable {row row' : List (List Cell)} {a b j k : Nat} {tail tail' os : List Cell} {free : Bool}
  {B : Borders} {s s' : Splice} {ss ss' : List Splice}

/-- The cells between two borders. -/
def between (row : List (List Cell)) (a b : Nat) : List Cell :=
  ((row.drop a).take (b - a)).flatten

/-- The cells behind a border. -/
def back (row : List (List Cell)) (a : Nat) : List Cell :=
  (row.drop a).flatten

/-- The place of a border in bytes. -/
def place (row : List (List Cell)) (a : Nat) : Nat :=
  Text.byteSize (spell (between row 0 a))

theorem between_append_between (hab : a ≤ b) (hbk : b ≤ k) :
    between row a b ++ between row b k = between row a k := by
  have hk : k - a = (b - a) + (k - b) := by omega
  have hb : a + (b - a) = b := by omega
  rw [between, between, between, hk, List.take_add, List.drop_drop, hb, List.flatten_append]

theorem between_append_back (hab : a ≤ b) : between row a b ++ back row b = back row a := by
  have hb : a + (b - a) = b := by omega
  have hdrop : row.drop b = (row.drop a).drop (b - a) := by rw [List.drop_drop, hb]
  rw [between, back, back, hdrop, ← List.flatten_append, List.take_append_drop]

@[simp] theorem back_zero : back row 0 = row.flatten :=
  rfl

@[simp] theorem place_zero : place row 0 = 0 := by
  simp [place, between]

theorem place_eq_add (h : a ≤ b) :
    place row b = place row a + Text.byteSize (spell (between row a b)) := by
  rw [place, place, ← between_append_between (Nat.zero_le a) h, Cell.spell_append, Text.byteSize_append]

theorem place_le (h : a ≤ b) : place row a ≤ place row b := by
  rw [place_eq_add h]
  omega

/-- Whether no token of a row is empty. -/
def Solid (row : List (List Cell)) : Prop :=
  ∀ j, 2 * j + 1 < row.length → spell (between row (2 * j + 1) (2 * j + 2)) ≠ []

/-- Between two borders there is more than an empty gap. -/
theorem place_lt (hrow : Solid row) (h : a < b) (hb : b ≤ row.length)
    (hgap : ∀ j, a = 2 * j → b ≠ 2 * j + 1) : place row a < place row b := by
  obtain ⟨j, haj, hjb⟩ : ∃ j, a ≤ 2 * j + 1 ∧ 2 * j + 2 ≤ b := by
    obtain ⟨j, rfl | rfl⟩ : ∃ j, a = 2 * j ∨ a = 2 * j + 1 := ⟨a / 2, by omega⟩
    · have := hgap j rfl
      exact ⟨j, by omega, by omega⟩
    · exact ⟨j, by omega, by omega⟩
  have hne := hrow j (by omega)
  obtain ⟨c, t, hc⟩ := List.exists_cons_of_ne_nil hne
  have hpos := c.utf8Size_pos
  have hstep : place row (2 * j + 2) = _ := place_eq_add (show 2 * j + 1 ≤ 2 * j + 2 by omega)
  rw [hc, Text.byteSize_cons] at hstep
  have : place row a ≤ _ := place_le haj
  have : _ ≤ place row b := place_le hjb
  omega

/-! ### Edits -/

/-- The edit of a splice. -/
def edit (row : List (List Cell)) (s : Splice) : Edit :=
  ⟨⟨place row s.start, place row s.stop⟩, spell s.cells⟩

/-- Whether a splice lies in a row, and starts and ends so that the order of borders is that of places: where one
may start before a gap, none starts or ends behind it. -/
structure Sits (B : Borders) (row : List (List Cell)) (s : Splice) : Prop where
  le : s.start ≤ s.stop
  stop_le : s.stop ≤ row.length
  before : ∀ j, s.start = 2 * j → B.early j
  behind : ∀ j, s.start = 2 * j + 1 → ¬ B.early j
  ends : ∀ j, s.stop = 2 * j + 1 → ¬ B.early j
  kept : ¬ B.kept s.stop

theorem Sits.start_le (h : s.Sits B row) : s.start ≤ row.length :=
  h.le.trans h.stop_le

/-- Splices applied from a border on: the cells that come out, unless splices overlap. -/
def weave (row : List (List Cell)) : Nat → List Splice → Option (List Cell)
  | a, [] => some (back row a)
  | a, s :: ss =>
    if s.start < a then none
    else (weave row s.stop ss).map fun os => between row a s.start ++ (s.cells ++ os)

/-- Edits are applied as their splices are. -/
theorem applyFrom_eq (tail : List Cell) (hrow : Solid row) (hss : ∀ s ∈ ss, s.Sits B row) (ha : a ≤ row.length)
    (hB : ∀ j, a = 2 * j + 1 → ¬ B.early j) :
    (∃ os, weave row a ss = some os ∧
      Edit.applyFrom (place row a) (spell (back row a ++ tail)) (ss.map (edit row))
        = .ok (spell (os ++ tail))) ∨
    (weave row a ss = none ∧ ∃ span,
      Edit.applyFrom (place row a) (spell (back row a ++ tail)) (ss.map (edit row))
        = .error (.syntaxError .overlappingEdits span)) := by
  induction ss generalizing a with
  | nil => exact .inl ⟨_, rfl, rfl⟩
  | cons s ss ih =>
    obtain ⟨hs, hss⟩ := List.forall_mem_cons.1 hss
    rw [weave, List.map_cons]
    by_cases hlt : s.start < a
    · have hplace : (edit row s).span.start < place row a :=
        place_lt hrow hlt ha fun j hj hk => hB j hk (hs.before j hj)
      rw [if_pos hlt, Edit.applyFrom, if_pos hplace]
      exact .inr ⟨rfl, _, rfl⟩
    · have hle : a ≤ s.start := by omega
      have htext : spell (back row a ++ tail) = spell (between row a s.start)
          ++ (spell (between row s.start s.stop) ++ spell (back row s.stop ++ tail)) := by
        rw [← between_append_back hle, ← between_append_back hs.le]
        simp
      rw [if_neg hlt, htext, Edit.applyFrom_cons (e := edit row s) (place_eq_add hle) (place_eq_add hs.le)]
      rcases ih hss hs.stop_le hs.ends with ⟨os, hos, happ⟩ | ⟨hnone, span, happ⟩
      · left
        refine ⟨_, by rw [hos]; rfl, ?_⟩
        change (Edit.applyFrom (place row s.stop) _ _).map _ = _
        rw [happ]
        show Except.ok _ = Except.ok _
        simp [edit]
      · right
        refine ⟨by rw [hnone]; rfl, span, ?_⟩
        change (Edit.applyFrom (place row s.stop) _ _).map _ = _
        rw [happ]
        rfl

/-! ### Spaced cells -/

/-- Whether the new cells of a splice are spaced, among themselves and with the cells around them: they may stand
behind every cell that the old ones may stand behind, or at least behind the one that is there for good. -/
structure Tidy (free : Bool) (B : Borders) (row : List (List Cell)) (tail : List Cell) (s : Splice) : Prop where
  whole : ∀ c ∈ s.cells, c.IsWhole
  inside : IsSpaced free s.cells
  behind : ∀ c ∈ s.cells.getLast?, c.Leads free (back row s.stop ++ tail)
  before : (∀ c : Cell, c.Leads free (back row s.start ++ tail) →
      c.Leads free (s.cells ++ (back row s.stop ++ tail))) ∨
    ∃ b < s.start, (∀ j, b < j → j ≤ s.start → B.kept j) ∧
      ∃ c, (between row b s.start).getLast? = some c ∧ c.Leads free (s.cells ++ (back row s.stop ++ tail))

/-- Tidy splices leave a row spaced. -/
theorem weave_spaced (hrow : IsSpaced free (row.flatten ++ tail)) (hwhole : ∀ c ∈ row.flatten, c.IsWhole)
    (hss : ∀ s ∈ ss, s.Sits B row ∧ s.Tidy free B row tail) (ha : ¬ B.kept a) (h : weave row a ss = some os) :
    IsSpaced free (os ++ tail) ∧
      (∀ c : Cell, c.Leads free (back row a ++ tail) → c.Leads free (os ++ tail)) ∧
      ∀ c ∈ os, c.IsWhole := by
  have hback : ∀ b, row.flatten = between row 0 b ++ back row b := fun b =>
    (between_append_back (Nat.zero_le b)).symm
  induction ss generalizing a os with
  | nil =>
    obtain rfl : back row a = os := Option.some.inj h
    rw [hback a, List.append_assoc] at hrow
    refine ⟨hrow.right, fun _ hc => hc, fun c hc => hwhole c ?_⟩
    rw [hback a]
    exact List.mem_append_right _ hc
  | cons s ss ih =>
    obtain ⟨⟨hsits, htidy⟩, hss⟩ := List.forall_mem_cons.1 hss
    rw [weave] at h
    split at h
    · cases h
    next hle =>
    obtain ⟨os, hos, rfl⟩ := Option.map_eq_some_iff.1 h
    obtain ⟨hspaced, hleads, hnew⟩ := ih hss hsits.kept hos
    have hle : a ≤ s.start := by omega
    -- The new cells before what has been woven behind them.
    have hcells : IsSpaced free (s.cells ++ (os ++ tail)) :=
      Cell.isSpaced_append_iff.2 ⟨htidy.inside, hspaced, fun c hc => hleads c (htidy.behind c hc)⟩
    have hfront : ∀ c : Cell, (between row a s.start = [] ∨ (between row a s.start).getLast? = some c) →
        c.Leads free (back row s.start ++ tail) → c.Leads free (s.cells ++ (os ++ tail)) := by
      intro c hlast hc
      have hc : c.Leads free (s.cells ++ (back row s.stop ++ tail)) := by
        rcases htidy.before with hbefore | ⟨b, hb, hkept, d, hd, hlead⟩
        · exact hbefore c hc
        · have hab : a ≤ b := Nat.le_of_not_lt fun hlt => ha (hkept a hlt hle)
          rw [← between_append_between hab hb.le] at hlast
          have hlast' : (between row a b ++ between row b s.start).getLast? = some d := by
            rw [List.getLast?_append, hd]
            rfl
          rcases hlast with hnil | hlast
          · rw [hnil] at hlast'
            cases hlast'
          · obtain rfl := Option.some.inj (hlast.symm.trans hlast')
            exact hlead
      cases hN : s.cells with
      | nil =>
        rw [hN] at hc
        exact hleads c hc
      | cons d N =>
        rw [hN] at hc
        exact hc
    have hkept : IsSpaced free (between row a s.start ++ (back row s.start ++ tail)) := by
      rw [hback a, ← between_append_back hle, List.append_assoc, List.append_assoc] at hrow
      exact hrow.right
    obtain ⟨hbetween, -, hlast⟩ := Cell.isSpaced_append_iff.1 hkept
    refine ⟨?_, fun c hc => ?_, fun c hc => ?_⟩
    · rw [List.append_assoc, List.append_assoc]
      exact Cell.isSpaced_append_iff.2 ⟨hbetween, hcells, fun c hc => hfront c (.inr hc) (hlast c hc)⟩
    · rw [← between_append_back hle, List.append_assoc] at hc
      rw [List.append_assoc, List.append_assoc]
      cases hbs : between row a s.start with
      | nil =>
        rw [hbs] at hc
        exact hfront c (.inl hbs) hc
      | cons d bs =>
        rw [hbs] at hc
        exact hc
    · rcases List.mem_append.1 hc with hc | hc
      · refine hwhole c ?_
        rw [hback a, ← between_append_back hle]
        simp [hc]
      · rcases List.mem_append.1 hc with hc | hc
        · exact htidy.whole c hc
        · exact hnew c hc

/-! ### Splices in two rows -/

/-- Whether splices bring the same tokens between the same borders. -/
structure Alike (s s' : Splice) : Prop where
  start : s'.start = s.start
  stop : s'.stop = s.stop
  tokens : s'.cells.filter Cell.isToken = s.cells.filter Cell.isToken

/-- Whether two rows have the same tokens. -/
def RowsAlike (row row' : List (List Cell)) : Prop :=
  row'.map (List.filter Cell.isToken) = row.map (List.filter Cell.isToken)

theorem RowsAlike.between (h : RowsAlike row row') (a b : Nat) :
    (between row' a b).filter Cell.isToken = (between row a b).filter Cell.isToken := by
  rw [Splice.between, Splice.between, List.filter_flatten, List.filter_flatten, List.map_take, List.map_take,
    List.map_drop, List.map_drop, h]

theorem RowsAlike.back (h : RowsAlike row row') (a : Nat) :
    (back row' a).filter Cell.isToken = (back row a).filter Cell.isToken := by
  rw [Splice.back, Splice.back, List.filter_flatten, List.filter_flatten, List.map_drop, List.map_drop, h]

theorem weave_alike (hrow : RowsAlike row row') (h : List.Forall₂ Alike ss ss') :
    (weave row' a ss').map (List.filter Cell.isToken) = (weave row a ss).map (List.filter Cell.isToken) := by
  induction h generalizing a with
  | nil => exact congrArg some (hrow.back a)
  | @cons s s' ss ss' hs hss ih =>
    rw [weave, weave, hs.start, hs.stop]
    split
    · rfl
    · have ih := ih (a := s.stop)
      cases hos : weave row s.stop ss with
      | none =>
        rw [hos] at ih
        rw [Option.map_eq_none_iff.1 ih]
        rfl
      | some os =>
        rw [hos] at ih
        obtain ⟨os', hos', htokens⟩ := Option.map_eq_some_iff.1 ih
        rw [hos']
        simp only [Option.map_some, List.filter_append, hrow.between, hs.tokens, htokens]

/-! ### Edits of two texts -/

/-- Whether an edit is that of a splice that sits in a row and is tidy there. -/
structure Makes (free : Bool) (B : Borders) (row : List (List Cell)) (tail : List Cell) (s : Splice) (e : Edit) :
    Prop where
  sits : s.Sits B row
  tidy : s.Tidy free B row tail
  edit : e = s.edit row

/-- Whether two edits are those of splices that are alike, each in its row. -/
def EditsAlike (free : Bool) (B : Borders) (row : List (List Cell)) (tail : List Cell)
    (row' : List (List Cell)) (tail' : List Cell) (e e' : Edit) : Prop :=
  ∃ s s', Alike s s' ∧ s.Makes free B row tail e ∧ s'.Makes free B row' tail' e'

theorem Sits.place_lt_iff (hrow : Solid row) (hs : s.Sits B row) (hs' : s'.Sits B row) :
    place row s.start < place row s'.start ↔ s.start < s'.start := by
  refine ⟨fun h => Nat.lt_of_not_le fun hle => ?_, fun h => ?_⟩
  · have : place row s'.start ≤ _ := place_le hle
    omega
  · exact place_lt hrow h hs'.start_le fun j hj hk => hs'.behind j hk (hs.before j hj)

theorem Sits.place_eq_iff (hrow : Solid row) (hs : s.Sits B row) :
    place row s.start = place row s.stop ↔ s.start = s.stop := by
  refine ⟨fun h => Nat.le_antisymm hs.le (Nat.le_of_not_lt fun hlt => ?_), fun h => by rw [h]⟩
  have := place_lt hrow hlt hs.stop_le fun j hj hk => hs.ends j hk (hs.before j hj)
  omega

/-- The order of edits is that of the borders. -/
theorem comesFirst_edit (hrow : Solid row) (hs : s.Sits B row) (hs' : s'.Sits B row) :
    Edit.comesFirst (s.edit row) (s'.edit row)
      = Edit.comesFirst ⟨⟨s.start, s.stop⟩, []⟩ ⟨⟨s'.start, s'.stop⟩, []⟩ := by
  have hlt := hs.place_lt_iff hrow hs'
  have hgt := hs'.place_lt_iff hrow hs
  have hone := hs.place_eq_iff hrow
  have htwo := hs'.place_eq_iff hrow
  rw [Bool.eq_iff_iff, Edit.comesFirst_iff, Edit.comesFirst_iff]
  simp only [edit, Edit.isInsertion, beq_iff_eq, beq_eq_false_iff_ne, ne_eq, hone, htwo, hlt]
  omega

end Splice

/-! ### Sorted edits -/

namespace Edit

variable {P : Edit → Edit → Prop} {e e' : Edit} {es es' : List Edit}

theorem forall₂_insertSorted
    (hP : ∀ {a a' b b' : Edit}, P a a' → P b b' → comesFirst a' b' = comesFirst a b)
    (he : P e e') (h : List.Forall₂ P es es') : List.Forall₂ P (insertSorted e es) (insertSorted e' es') := by
  induction h with
  | nil => exact .cons he .nil
  | @cons x x' xs xs' hx hxs ih =>
    rw [insertSorted, insertSorted, hP he hx]
    split
    · exact .cons he (.cons hx hxs)
    · exact .cons hx ih

/-- Edits that are ordered alike are alike when sorted. -/
theorem forall₂_sorted
    (hP : ∀ {a a' b b' : Edit}, P a a' → P b b' → comesFirst a' b' = comesFirst a b)
    (h : List.Forall₂ P es es') : List.Forall₂ P (sorted es) (sorted es') := by
  induction h with
  | nil => exact .nil
  | cons hx hxs ih => exact forall₂_insertSorted hP hx ih

end Edit

namespace Splice

variable {row row' : List (List Cell)} {tail tail' : List Cell} {free : Bool} {B : Borders}
  {es es' : List Edit}

theorem exists_of_forall₂ (h : List.Forall₂ (EditsAlike free B row tail row' tail') es es') :
    ∃ ss ss', es = ss.map (edit row) ∧ es' = ss'.map (edit row') ∧ List.Forall₂ Alike ss ss' ∧
      (∀ s ∈ ss, s.Sits B row ∧ s.Tidy free B row tail) ∧ ∀ s ∈ ss', s.Sits B row' ∧ s.Tidy free B row' tail' := by
  induction h with
  | nil => exact ⟨[], [], rfl, rfl, .nil, nofun, nofun⟩
  | cons he hes ih =>
    obtain ⟨s, s', halike, hs, hs'⟩ := he
    obtain ⟨ss, ss', rfl, rfl, hss, hall, hall'⟩ := ih
    exact ⟨s :: ss, s' :: ss', by rw [hs.edit]; rfl, by rw [hs'.edit]; rfl, .cons halike hss,
      List.forall_mem_cons.2 ⟨⟨hs.sits, hs.tidy⟩, hall⟩, List.forall_mem_cons.2 ⟨⟨hs'.sits, hs'.tidy⟩, hall'⟩⟩

/-- Alike edits of rows with the same tokens make cells with the same tokens, or overlap in both. -/
theorem applyAll_alike (hsolid : Solid row) (hsolid' : Solid row') (hrow : RowsAlike row row')
    (hspaced : IsSpaced free (row.flatten ++ tail)) (hspaced' : IsSpaced free (row'.flatten ++ tail'))
    (hwhole : ∀ c ∈ row.flatten, c.IsWhole) (hwhole' : ∀ c ∈ row'.flatten, c.IsWhole)
    (h : List.Forall₂ (EditsAlike free B row tail row' tail') es es') :
    (∃ os os', Edit.applyAll es (spell (row.flatten ++ tail)) = .ok (spell (os ++ tail)) ∧
      Edit.applyAll es' (spell (row'.flatten ++ tail')) = .ok (spell (os' ++ tail')) ∧
      os'.filter Cell.isToken = os.filter Cell.isToken ∧ IsSpaced free (os ++ tail) ∧
      IsSpaced free (os' ++ tail') ∧ (∀ c ∈ os, c.IsWhole) ∧ ∀ c ∈ os', c.IsWhole) ∨
    ∃ span span', Edit.applyAll es (spell (row.flatten ++ tail)) = .error (.syntaxError .overlappingEdits span) ∧
      Edit.applyAll es' (spell (row'.flatten ++ tail')) = .error (.syntaxError .overlappingEdits span') := by
  have hsorted := Edit.forall₂_sorted (P := EditsAlike free B row tail row' tail') (fun {a a' b b'} ha hb => by
    obtain ⟨s, s', halike, hs, hs'⟩ := ha
    obtain ⟨t, t', halike', ht, ht'⟩ := hb
    rw [hs.edit, hs'.edit, ht.edit, ht'.edit, comesFirst_edit hsolid hs.sits ht.sits,
      comesFirst_edit hsolid' hs'.sits ht'.sits, halike.start, halike.stop, halike'.start, halike'.stop]) h
  obtain ⟨ss, ss', hes, hes', halike, hss, hss'⟩ := exists_of_forall₂ hsorted
  have htokens := weave_alike (a := 0) hrow halike
  have happ := applyFrom_eq (a := 0) tail hsolid (fun s hs => (hss s hs).1) (Nat.zero_le _) (by omega)
  have happ' := applyFrom_eq (a := 0) tail' hsolid' (fun s hs => (hss' s hs).1) (Nat.zero_le _) (by omega)
  rw [place_zero, back_zero, ← hes] at happ
  rw [place_zero, back_zero, ← hes'] at happ'
  rcases happ with ⟨os, hos, happ⟩ | ⟨hnone, span, happ⟩
  · rw [hos] at htokens
    obtain ⟨os', hos', heq⟩ := Option.map_eq_some_iff.1 htokens
    rcases happ' with ⟨_, hos'', happ'⟩ | ⟨hnone, -⟩
    · rw [hos'] at hos''
      obtain rfl := Option.some.inj hos''
      have hfine := weave_spaced hspaced hwhole hss B.origin hos
      have hfine' := weave_spaced hspaced' hwhole' hss' B.origin hos'
      exact .inl ⟨os, os', happ, happ', heq, hfine.1, hfine'.1, hfine.2.2, hfine'.2.2⟩
    · rw [hnone] at hos'
      cases hos'
  · rw [hnone] at htokens
    rcases happ' with ⟨os', hos', -⟩ | ⟨-, span', happ'⟩
    · rw [hos'] at htokens
      cases htokens
    · exact .inr ⟨span, span', happ, happ'⟩

end Splice

end JetAdapter
