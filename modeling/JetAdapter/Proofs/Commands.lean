import JetAdapter.Proofs.Naming
import JetAdapter.Proofs.Preservation
import JetAdapter.Provider.Command

/-!
# Commands and their parameters

A command of a `SELECT` binds the values of the parsed statement, each under the name and with the type of
its place, in the order of the adapted statement (`command_parameters`).  Are they also the markers of its
text?  With markers `?` they always are.  With names they are if no word goes on behind a parameter of the
adapted statement and no `@` of its own stands before one.

Every adapted statement is cut out of some text that has markers of one sort (`Marked.Readable`), also if it
was bound by a template, since templates are made of such statements.  If the text had names, they stood
apart from words and so do the names written in their place.  If it had markers `?`, nothing is known about
what stands behind them.
-/

namespace JetAdapter

open Marked Lexeme

/-! ### Readable texts -/

namespace Marked

/-- Whether a text with marks was cut out of one that has markers `?` alone or names alone. -/
def Readable {α : Type} (m : Marked α) : Prop :=
  ∃ t, m.CutFrom t ∧
    ((∀ k ∈ markers (lex t), k = .placeholder) ∨ ∀ k ∈ markers (lex t), k ≠ .placeholder)

theorem Readable.congr {α β : Type} {m : Marked α} {n : Marked β} (h : m.Readable)
    (ht : n.texts = m.texts) : n.Readable := by
  obtain ⟨t, hc, hu⟩ := h
  exact ⟨t, ht.trans hc, hu⟩

end Marked

/-- What is restored is readable. -/
theorem Tracker.readable_of_restore {t : Tracker} {text : SqlText} {s : Statement}
    (h : t.restore text = .ok s) : s.Readable := by
  obtain ⟨ps, hr, rfl⟩ := eq_of_restore h
  refine ⟨text, texts_withMarks (length_of_resolve? hr), ?_⟩
  obtain ⟨-, ⟨hp, -⟩ | ⟨ordinals, hmarks, -⟩⟩ := eq_of_resolve? hr
  · refine .inl fun k hk => ?_
    obtain ⟨m, hm, hkm⟩ := exists_marker hk
    rw [hp m hm] at hkm
    exact Marker.eq_placeholder hkm
  · refine .inr fun k hk hkp => ?_
    obtain ⟨m, hm, hkm⟩ := exists_marker hk
    rw [hkp] at hkm
    obtain rfl : Marker.positional = m := Option.some.inj hkm
    rw [hmarks] at hm
    simp at hm

theorem Template.texts_ofStatement (s : Statement) : (ofStatement s).texts = s.texts := by
  rw [texts, texts, ofStatement, map_snd_slotsFrom]

theorem Template.readable_of_bind {t : Template} {tracker : Tracker} {s : Statement}
    (ht : t.Readable) (h : t.bind tracker = .ok s) : s.Readable := by
  obtain ⟨-, ps, hm, rfl⟩ := eq_of_bind h
  refine ht.congr (texts_withMarks ?_)
  simpa using congrArg List.length (Tracker.eq_of_mapM_get? hm).1

namespace Adapter

theorem keeps_readable (a : Adapter) (s : Statement) : a.Keeps (fun _ t => t.Readable) s := by
  intro out _ h
  obtain ⟨text, -, hr⟩ := eq_of_adaptTracked h
  exact (Tracker.readable_of_restore hr).congr (Template.texts_ofStatement out)

/-- What a `SELECT` is adapted to is readable, if the templates at hand are. -/
theorem readable_of_adapt {a : Adapter} {s : Statement} {c : Cache} {out : Adapted}
    (hc : c.Holds fun _ t => t.Readable) (hs : s.isSelect = true)
    (h : (a.adapt s c).1 = .ok out) : out.statement.Readable := by
  obtain ⟨adapted, rfl, ⟨t, found, hb⟩ | ⟨text, hr⟩⟩ := eq_of_adapt hs h
  · exact Template.readable_of_bind (hc _ t found) hb
  · exact Tracker.readable_of_restore hr

end Adapter

namespace Statement

variable {s : Statement}

/-- The text of a readable statement with markers `?` has its parameters as markers. -/
theorem markers_sql_of_readable (h : s.Readable) :
    markers (lex s.sql) = List.replicate s.marks.length .placeholder := by
  obtain ⟨t, hc, hp | hn⟩ := h
  · rw [sql_eq_of_cutFrom hc hp, ← hc.length_markers]
    exact List.eq_replicate_of_mem hp
  · exact markers_lex_sql hc ((lexed_lex t).atsApart hn)

/-- The text of a readable statement with names has its parameters as markers if no word goes on behind one
of them and no `@` stands before one, and not if only one of the two is the case. -/
theorem markers_namedSql_of_readable (h : s.Readable)
    (hwa : s.WordsApart ∨ AtsApart (lex s.sql)) :
    markers (lex s.namedSql) = s.names ↔ s.WordsApart ∧ AtsApart (lex s.sql) := by
  obtain ⟨t, hc, hp | hn⟩ := h
  · rw [sql_eq_of_cutFrom hc hp] at hwa ⊢
    exact markers_lex_namedSql hc hwa
  · have ha := (lexed_lex t).atsApart hn
    have ha' : AtsApart (lex s.sql) := by
      rw [lex_sql hc ha]
      exact (lexed_lex t).atsApart_respell hc.covers_replicate marks_of_mem_replicate hn
    rw [markers_lex_namedSql hc (.inr ha), and_iff_left ha, and_iff_left ha']

end Statement

/-! ### Names and types -/

namespace Provider

variable {types : List SqlType}

/-- What a command binds for a parameter, if a type is declared for it. -/
def declared? (types : List SqlType) (p : Parameter) : Option BoundParameter :=
  types[p.ordinal.getD 0]?.map fun type =>
    ⟨'p' :: Decimal.natText (p.ordinal.getD 0), type, p.value⟩

/-- The marker of a parameter of a command. -/
def marker (b : BoundParameter) : Kind :=
  .named b.name

theorem bindParameter_eq {p : Parameter} {n : Nat} (h : p.ordinal = some n) (index : Nat) :
    bindParameter types index p = match types[n]? with
      | some type => .ok ⟨'p' :: Decimal.natText n, type, p.value⟩
      | none => .error (.missingType n types.length) := by
  rw [bindParameter, h]
  rfl

/-- The parameters are bound under the names and with the types of their ordinals, or the type of one of them
is missing. -/
theorem bindFrom_spec (types : List SqlType) {ps : List Parameter}
    (h : ∀ p ∈ ps, ∃ n, p.ordinal = some n) (index : Nat) :
    (∃ bound, bindFrom types index ps = .ok bound ∧ bound.map some = ps.map (declared? types) ∧
      bound.map marker = ps.map fun p => Kind.ofOrdinal (p.ordinal.getD 0)) ∨
    ∃ p ∈ ps, ∃ n, p.ordinal = some n ∧ types.length ≤ n ∧
      bindFrom types index ps = .error (.missingType n types.length) := by
  induction ps generalizing index with
  | nil => exact .inl ⟨[], rfl, rfl, rfl⟩
  | cons p ps ih =>
    obtain ⟨⟨n, hn⟩, hps⟩ := List.forall_mem_cons.1 h
    cases ht : types[n]? with
    | none =>
      refine .inr ⟨p, List.mem_cons_self, n, hn, List.getElem?_eq_none_iff.1 ht, ?_⟩
      rw [bindFrom, bindParameter_eq hn, ht]
      rfl
    | some type =>
      rcases ih hps (index + 1) with ⟨bound, hb, hd, hm⟩ | ⟨q, hq, k, hk, hle, he⟩
      · refine .inl ⟨⟨'p' :: Decimal.natText n, type, p.value⟩ :: bound, ?_, ?_, ?_⟩
        · rw [bindFrom, bindParameter_eq hn, ht, hb]
          rfl
        · simp [hd, declared?, hn, ht]
        · simp [hm, marker, hn, Kind.ofOrdinal]
      · refine .inr ⟨q, List.mem_cons_of_mem _ hq, k, hk, hle, ?_⟩
        rw [bindFrom, bindParameter_eq hn, ht, he]
        rfl

/-! ### Making commands -/

variable {p : Provider} {s : Statement} {c : Cache}

theorem prepare_text : (p.prepare .text s types c).1 = match (p.adapter.adapt s c).1 with
    | .error e => .error (.sql e)
    | .ok adapted => commandOf .text types (adapted.statement.text p.style) adapted.parameters := by
  simp only [prepare]
  generalize p.adapter.adapt s c = r
  obtain ⟨r, c⟩ := r
  cases r <;> rfl

theorem cache_prepare_text : (p.prepare .text s types c).2 = (p.adapter.adapt s c).2 := by
  simp only [prepare]
  generalize p.adapter.adapt s c = r
  obtain ⟨r, c⟩ := r
  cases r <;> rfl

section Generate

variable {α : Type} {native : Command → Except String α} {type : CommandType}

theorem cache_generate :
    (p.generate native type s types c).2 = (p.prepare type s types c).2 := by
  rw [generate]
  generalize p.prepare type s types c = r
  obtain ⟨r, c⟩ := r
  cases r with
  | error e => rfl
  | ok command =>
    simp only
    cases native command <;> rfl

theorem eq_of_generate {made : α} (h : (p.generate native type s types c).1 = .ok made) :
    ∃ command, (p.prepare type s types c).1 = .ok command ∧ native command = .ok made := by
  rw [generate] at h
  generalize p.prepare type s types c = r at h ⊢
  obtain ⟨r, c⟩ := r
  cases r with
  | error e => cases h
  | ok command =>
    simp only at h
    cases hn : native command with
    | error message =>
      rw [hn] at h
      cases h
    | ok m =>
      rw [hn] at h
      cases h
      exact ⟨command, rfl, hn⟩

/-- Without a command the native driver is not asked. -/
theorem generate_of_refused {e : ProviderError} (h : (p.prepare type s types c).1 = .error e) :
    (p.generate native type s types c).1 = .error e := by
  rw [generate]
  generalize p.prepare type s types c = r at h ⊢
  obtain ⟨r, c⟩ := r
  cases h
  rfl

end Generate

/-- The caches that making commands of parsed statements can lead to, by any providers that share them. -/
inductive Reachable : Cache → Prop
  | empty (limit : Option Nat) : Reachable (Cache.empty limit)
  | generate {c : Cache} (h : Reachable c) (p : Provider) {α : Type}
      (native : Command → Except String α) {t : SqlText} {values : List SqlValue} {s : Statement}
      (parsed : Statement.parse t values = .ok s) (types : List SqlType) :
      Reachable (p.generate native .text s types c).2

theorem nodup_effectiveOrdinals_of_parse {t : SqlText} {values : List SqlValue}
    (h : Statement.parse t values = .ok s) : (Statement.effectiveOrdinals s).Nodup := by
  rw [Statement.effectiveOrdinals_eq_range (Statement.unnumbered_of_parse h)]
  exact List.nodup_range

/-- All templates at hand have distinct slots and are readable. -/
theorem Reachable.holds (h : Reachable c) :
    c.Holds (fun _ t => t.marks.Nodup) ∧ c.Holds fun _ t => t.Readable := by
  induction h with
  | empty limit => exact ⟨Cache.holds_empty limit, Cache.holds_empty limit⟩
  | generate h p native parsed types ih =>
    obtain ⟨hd, hr⟩ := ih
    rw [cache_generate, cache_prepare_text]
    exact ⟨hd.adapt (p.adapter.keeps_distinct_slots (nodup_effectiveOrdinals_of_parse parsed)),
      hr.adapt (p.adapter.keeps_readable _)⟩

/-- What is known of a parsed `SELECT` that has been adapted: its parameters are the values in some order,
each with the number of its place. -/
theorem perm_of_adapt_parsed (hc : Reachable c) {t : SqlText} {values : List SqlValue}
    (hs : Statement.parse t values = .ok s) (hselect : s.isSelect = true) {a : Adapter}
    {adapted : Adapted} (h : (a.adapt s c).1 = .ok adapted) :
    adapted = Adapter.asAdapted adapted.statement ∧ adapted.statement.Readable ∧
      (Statement.parameters adapted.statement).Perm (values.mapIdx fun i v => ⟨v, some i⟩) := by
  obtain ⟨hd, hr⟩ := hc.holds
  obtain ⟨he, hp⟩ := Adapter.perm_of_adapt hd hselect h
  have hparameters : (Tracker.linearize s).1.parameters = values.mapIdx fun i v => ⟨v, some i⟩ := by
    rw [Tracker.parameters_linearize, Statement.parameters_of_parse hs]
    apply List.ext_getElem <;> simp
  rw [hparameters, he] at hp
  refine ⟨?_, Adapter.readable_of_adapt hr hselect h, hp⟩
  rw [Adapter.asAdapted, ← he]

/-- The command for an adapted statement: its text, and its parameters with their names and types. -/
structure CommandFor (p : Provider) (values : List SqlValue) (types : List SqlType)
    (adapted : Statement) (command : Command) : Prop where
  type : command.type = .text
  text : command.text = adapted.text p.style
  parameters : (command.parameters.map some).Perm
    (values.mapIdx fun k v => types[k]?.map fun type => ⟨'p' :: Decimal.natText k, type, v⟩)
  names : command.parameters.map marker = adapted.names

/-- What can come of a parsed `SELECT`: it is refused, the type of a parameter is missing, or there is a
command. -/
theorem prepare_parsed (p : Provider) (types : List SqlType) (hc : Reachable c) {t : SqlText}
    {values : List SqlValue} (hs : Statement.parse t values = .ok s) (hselect : s.isSelect = true) :
    (∃ e, (p.prepare .text s types c).1 = .error (.sql e)) ∨
    (∃ n, types.length ≤ n ∧ (p.prepare .text s types c).1 = .error (.missingType n types.length)) ∨
    ∃ adapted command, (p.adapter.adapt s c).1 = .ok (Adapter.asAdapted adapted) ∧
      adapted.Readable ∧ (p.prepare .text s types c).1 = .ok command ∧
      CommandFor p values types adapted command := by
  rw [prepare_text]
  cases h : (p.adapter.adapt s c).1 with
  | error e => exact .inl ⟨e, rfl⟩
  | ok out =>
    obtain ⟨hout, hread, hperm⟩ := perm_of_adapt_parsed hc hs hselect h
    have hordinal : ∀ q ∈ Statement.parameters out.statement, ∃ n, q.ordinal = some n := by
      intro q hq
      obtain ⟨i, hi, rfl⟩ := List.mem_mapIdx.1 (hperm.mem_iff.1 hq)
      exact ⟨i, rfl⟩
    have hnames : out.statement.names = (Statement.parameters out.statement).map fun q =>
        Kind.ofOrdinal (q.ordinal.getD 0) := by
      rw [Statement.names, Statement.effectiveOrdinals]
      apply List.ext_getElem
      · simp
      · intro i h1 h2
        obtain ⟨n, hn⟩ := hordinal _ (List.getElem_mem (l := Statement.parameters out.statement)
          (by simpa using h2))
        simp [hn]
    refine .inr ?_
    rw [hout]
    show (∃ n, _ ∧ (bindFrom types 0 (Statement.parameters out.statement)).map _ = _) ∨ _
    rcases bindFrom_spec types hordinal 0 with
      ⟨bound, hb, hd, hm⟩ | ⟨q, -, n, -, hle, he⟩
    · refine .inr ⟨out.statement, ⟨.text, out.statement.text p.style, bound⟩, rfl, hread, ?_, ?_⟩
      · show (bindFrom types 0 (Statement.parameters out.statement)).map _ = _
        rw [hb]
        rfl
      · refine ⟨rfl, rfl, ?_, hm.trans hnames.symm⟩
        rw [hd]
        refine (hperm.map (declared? types)).trans (.of_eq ?_)
        apply List.ext_getElem <;> simp [declared?]
    · refine .inl ⟨n, hle, ?_⟩
      rw [he]
      rfl

theorem CommandFor.length_le {values : List SqlValue} {adapted : Statement} {command : Command}
    (h : CommandFor p values types adapted command) : values.length ≤ types.length := by
  by_contra hlt
  have hk : types.length < values.length := by omega
  have hmem : (none : Option BoundParameter) ∈ values.mapIdx fun k v =>
      types[k]?.map fun type => (⟨'p' :: Decimal.natText k, type, v⟩ : BoundParameter) := by
    refine List.mem_mapIdx.2 ⟨types.length, hk, ?_⟩
    simp
  have hnone := h.parameters.mem_iff.2 hmem
  simp at hnone

/-- **Commands bind the markers of their texts.**  Whatever commands have been made before of parsed
statements, a command of a parsed `SELECT` binds each value under the name and with the type of its place.
The markers of its text are `?` for each parameter, or the names of the parameters in order.  The names are
read if no word goes on behind a parameter of the adapted statement and no `@` of its own stands before one;
if only one of the two is the case they are not.  Without a type for each value there is no command, and the
native driver is not asked. -/
theorem command_parameters (p : Provider) {c : Cache} (hc : Reachable c) {t : SqlText}
    {values : List SqlValue} {s : Statement} (hs : Statement.parse t values = .ok s)
    (hselect : s.isSelect = true) (types : List SqlType) :
    (∀ (α : Type) (native : Command → Except String α) (made : α),
      (p.generate native .text s types c).1 = .ok made →
      ∃ adapted command, (p.adapter.adapt s c).1 = .ok (Adapter.asAdapted adapted) ∧
        (p.prepare .text s types c).1 = .ok command ∧ native command = .ok made ∧
        command.type = .text ∧
        (command.parameters.map some).Perm
          (values.mapIdx fun k v => types[k]?.map fun type => ⟨'p' :: Decimal.natText k, type, v⟩) ∧
        (p.style = .positional →
          markers (lex command.text) = List.replicate values.length .placeholder) ∧
        (p.style = .named → adapted.WordsApart ∨ AtsApart (lex adapted.sql) →
          (markers (lex command.text) = command.parameters.map (fun b => .named b.name) ↔
            adapted.WordsApart ∧ AtsApart (lex adapted.sql)))) ∧
    (types.length < values.length → ∃ e, (p.prepare .text s types c).1 = .error e ∧
      (∀ (α : Type) (native : Command → Except String α),
        (p.generate native .text s types c).1 = .error e) ∧
      ((∃ refusal, e = .sql refusal) ∨ ∃ n, e = .missingType n types.length ∧ types.length ≤ n)) := by
  have hprepare := prepare_parsed p types hc hs hselect
  constructor
  · intro α native made h
    obtain ⟨command, hcommand, hmade⟩ := eq_of_generate h
    rcases hprepare with ⟨e, he⟩ | ⟨n, -, he⟩ | ⟨adapted, command', ha, hread, hc', hfor⟩
    · rw [he] at hcommand
      cases hcommand
    · rw [he] at hcommand
      cases hcommand
    · obtain rfl : command' = command := Except.ok.inj (hc'.symm.trans hcommand)
      refine ⟨adapted, command', ha, hcommand, hmade, hfor.type, hfor.parameters, ?_, ?_⟩
      · intro hstyle
        have hlength : adapted.marks.length = values.length := by
          have hl := (perm_of_adapt_parsed hc hs hselect ha).2.2.length_eq
          rwa [List.length_mapIdx] at hl
        rw [hfor.text, hstyle, ← hlength]
        exact Statement.markers_sql_of_readable hread
      · intro hstyle hwa
        have hnames : command'.parameters.map (fun b => Kind.named b.name) = adapted.names :=
          hfor.names
        rw [hfor.text, hstyle, hnames]
        exact Statement.markers_namedSql_of_readable hread hwa
  · intro hlt
    rcases hprepare with ⟨e, he⟩ | ⟨n, hle, he⟩ | ⟨adapted, command, -, -, -, hfor⟩
    · exact ⟨_, he, fun α native => generate_of_refused he, .inl ⟨e, rfl⟩⟩
    · exact ⟨_, he, fun α native => generate_of_refused he, .inr ⟨n, rfl, hle⟩⟩
    · have hle := hfor.length_le
      omega

/-- A search whose parameters change places when it is adapted. -/
def locateSql : SqlText :=
  "select locate(?, a, ?) from t".toList

/-- A parsed search. -/
def locateIn (needle : SqlText) (start : Int64) : Statement :=
  (Statement.placeholders locateSql).withMarks [⟨.text needle, none⟩, ⟨.int start, none⟩]

/-- The cache after a command for one search. -/
def locateCache : Cache :=
  ((ofConfig .default).generate Except.ok .text (locateIn ['x'] 2) [.memo, .int32]
    (Cache.empty none)).2

theorem reachable_locateCache : Reachable locateCache := by
  have parsed : Statement.parse locateSql [.text ['x'], .int 2] = .ok (locateIn ['x'] 2) := by
    decide +kernel
  exact .generate (.empty none) (ofConfig .default) Except.ok parsed [.memo, .int32]

/-- The command for another search binds its own values, in the order of the markers. -/
theorem command_parameters_locate : ∃ command,
    ((ofConfig .default).prepare .text (locateIn ['y'] 5) [.memo, .int32] locateCache).1
      = .ok command ∧
    (command.parameters.map some).Perm
      [some ⟨['p', '0'], .memo, .text ['y']⟩, some ⟨['p', '1'], .int32, .int 5⟩] ∧
    markers (lex command.text) = command.parameters.map fun b => .named b.name := by
  have hadapt : ((ofConfig .default).adapter.adapt (locateIn ['y'] 5) locateCache).1
      = .ok (Adapter.asAdapted ⟨"select InStr(".toList,
          [(⟨.int 5, some 1⟩, ", a, ".toList), (⟨.text ['y'], some 0⟩, ") from t".toList)]⟩) := by
    decide +kernel
  have parsed : Statement.parse locateSql [.text ['y'], .int 5] = .ok (locateIn ['y'] 5) := by
    decide +kernel
  obtain ⟨adapted, command, ha, hcommand, -, -, hperm, -, hnamed⟩ :=
    (command_parameters (ofConfig .default) reachable_locateCache parsed (by decide +kernel)
      [.memo, .int32]).1 Command Except.ok
      ⟨.text, "select InStr(@p1, a, @p0) from t".toList,
        [⟨['p', '1'], .int32, .int 5⟩, ⟨['p', '0'], .memo, .text ['y']⟩]⟩ (by decide +kernel)
  have he := congrArg Adapted.statement (Except.ok.inj (ha.symm.trans hadapt))
  obtain rfl : adapted = _ := he
  refine ⟨command, hcommand, hperm, (hnamed rfl (.inl ?_)).2 ⟨?_, ?_⟩⟩
  · decide +kernel
  · decide +kernel
  · decide +kernel

/-- A text that is read in another way when its first marker is a name: what was a string is then a
comment and a marker. -/
def shiftedSql : SqlText :=
  "select @?1e--'\n, ?x --'".toList

/-- Not every command with names binds the markers of its text. -/
theorem not_command_parameters_shiftedSql :
    ¬ ∀ (p : Provider) (c : Cache) (t : SqlText) (values : List SqlValue) (s : Statement)
      (types : List SqlType) (command : Command), Reachable c → p.adapter.endMarker = none →
      p.style = .named → Statement.parse t values = .ok s → s.isSelect = true →
      (p.prepare .text s types c).1 = .ok command →
      markers (lex command.text) = command.parameters.map fun b => .named b.name := by
  intro h
  have hm := h (ofConfig .default) (Cache.empty none) shiftedSql [.int 1]
    ⟨"select @".toList, [(⟨.int 1, none⟩, "1e--'\n, ?x --'".toList)]⟩ [.int32]
    ⟨.text, "select @@p01e--'\n, @p0x --'".toList, [⟨['p', '0'], .int32, .int 1⟩]⟩
    (.empty none) rfl rfl (by decide +kernel) (by decide +kernel) (by decide +kernel)
  exact absurd hm (by decide +kernel)

end Provider

end JetAdapter
