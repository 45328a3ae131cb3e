import JetAdapter.Provider.Format
import JetAdapter.Proofs.JsonTexts

/-!
# Configurations that are read back

A configuration is written as an object of objects.  Each field may be left out when it is read, the fields may come in
any order, and fields of other names may stand among them (`Json.IsPart`).  What is read back has the fields that are
there as they were written, and the others at their defaults (`ProviderConfig.keeping`), whichever text is chosen for
the value (`ProviderConfig.read?_of_isPart`).
-/

namespace JetAdapter

namespace Json

variable {keep : String → Bool} {fields : List (String × Json)} {name : String} {value : Json}

/-! ### Parts of a record -/

/-- Whether a value has those fields of a record that are kept, in any order, and beside them fields of other names. -/
def IsPart (keep : String → Bool) (whole part : Json) : Prop :=
  ∃ (fields : List (String × Json)) (members others : List (SqlText × Json)),
    whole = .ofMembers fields ∧ part = .object (members.map fun m => (some m.1, m.2)) ∧
      members.Perm ((fields.filter fun f => keep f.1).map (fun f => (f.1.toList, f.2)) ++ others) ∧
      ∀ m ∈ others, ∀ f ∈ fields, m.1 ≠ f.1.toList

/-- The fields of a record as the members of an object. -/
theorem ofMembers_eq (fields : List (String × Json)) :
    ofMembers fields = .object ((fields.map fun f => (f.1.toList, f.2)).map fun m => (some m.1, m.2)) := by
  simp [ofMembers]

theorem ofMembers_inj {fields fields' : List (String × Json)} (h : ofMembers fields = ofMembers fields') :
    fields = fields' := by
  have hmembers := Json.object.inj h
  refine List.map_injective_iff.2 ?_ hmembers
  rintro ⟨name, value⟩ ⟨name', value'⟩ heq
  obtain ⟨hname, hvalue⟩ := Prod.mk.inj heq
  rw [String.toList_inj.1 (Option.some.inj hname), hvalue]

theorem Prints.ofMembers (h : ∀ f ∈ fields, Prints f.2) : Prints (.ofMembers fields) := by
  rw [ofMembers_eq]
  refine .object fun m hm => ?_
  obtain ⟨f, hf, rfl⟩ := List.mem_map.1 hm
  exact h f hf

theorem IsPart.refl (fields : List (String × Json)) : IsPart (fun _ => true) (.ofMembers fields) (.ofMembers fields) := by
  refine ⟨fields, fields.map fun f => (f.1.toList, f.2), [], rfl, ofMembers_eq fields, ?_, List.forall_mem_nil _⟩
  rw [List.filter_true, List.append_nil]

/-- Only one field has a name. -/
theorem filter_fields (hnames : (fields.map Prod.fst).Nodup) (hfield : (name, value) ∈ fields) :
    fields.filter (fun f => f.1 == name) = [(name, value)] := by
  induction fields with
  | nil => cases hfield
  | cons f fields ih =>
    rw [List.map_cons, List.nodup_cons] at hnames
    obtain ⟨hfirst, hnames⟩ := hnames
    rcases List.mem_cons.1 hfield with rfl | hfield
    · rw [List.filter_cons_of_pos (by simp)]
      have hnone : fields.filter (fun f => f.1 == name) = [] := by
        refine List.filter_eq_nil_iff.2 fun f hf hname => hfirst ?_
        exact List.mem_map.2 ⟨f, hf, beq_iff_eq.1 hname⟩
      rw [hnone]
    · have hne : f.1 ≠ name := by
        rintro rfl
        exact hfirst (List.mem_map.2 ⟨_, hfield, rfl⟩)
      rw [List.filter_cons_of_neg (by simpa using hne), ih hnames hfield]

/-- A field that is kept is found, whatever stands around it. -/
theorem member?_of_perm {members others : List (SqlText × Json)} (hnames : (fields.map Prod.fst).Nodup)
    (hfield : (name, value) ∈ fields)
    (hperm : members.Perm ((fields.filter fun f => keep f.1).map (fun f => (f.1.toList, f.2)) ++ others))
    (hothers : ∀ m ∈ others, ∀ f ∈ fields, m.1 ≠ f.1.toList) :
    member? name.toList members = some (if keep name then some value else none) := by
  have hother : others.filter (fun m => m.1 == name.toList) = [] := by
    refine List.filter_eq_nil_iff.2 fun m hm => ?_
    simpa using hothers m hm _ hfield
  have hkept : ((fields.filter fun f => keep f.1).map (fun f => (f.1.toList, f.2))).filter (fun m => m.1 == name.toList)
      = if keep name then [(name.toList, value)] else [] := by
    have hsame : ((fun m : SqlText × Json => m.1 == name.toList) ∘ fun f : String × Json => (f.1.toList, f.2))
        = fun f => f.1 == name := by
      funext f
      simp [String.toList_inj, Bool.beq_eq_decide_eq]
    have hswap : (fields.filter fun f => keep f.1).filter (fun f => f.1 == name)
        = (fields.filter fun f => f.1 == name).filter fun f => keep f.1 := by
      rw [List.filter_filter, List.filter_filter]
      exact List.filter_congr fun f _ => Bool.and_comm _ _
    rw [List.filter_map, hsame, hswap, filter_fields hnames hfield, List.filter_singleton]
    cases keep name with
    | true => rfl
    | false => rfl
  have hfound := hperm.filter fun m => m.1 == name.toList
  rw [List.filter_append, hother, hkept, List.append_nil] at hfound
  rw [member?]
  by_cases hkeep : keep name = true
  · rw [if_pos hkeep] at hfound ⊢
    rw [List.perm_singleton.1 hfound]
  · rw [if_neg hkeep] at hfound ⊢
    rw [hfound.eq_nil]

/-- The fields of a part of a record, each of them there if it was kept. -/
theorem fields?_of_isPart {part : Json} (hnames : (fields.map Prod.fst).Nodup)
    (h : IsPart keep (.ofMembers fields) part) :
    part.fields? (fields.map Prod.fst) = some (fields.map fun f => if keep f.1 then some f.2 else none) := by
  obtain ⟨fields', members, others, hfields, rfl, hperm, hothers⟩ := h
  obtain rfl := ofMembers_inj hfields
  have hnamed : (members.map fun m => (some m.1, m.2)).mapM (fun m : Option SqlText × Json => m.1.map (·, m.2))
      = some members := by
    rw [mapM_eq_some_map (g := fun m => (m.1.getD [], m.2))]
    · rw [List.map_map]
      exact congrArg some (List.map_id members)
    · intro m hm
      obtain ⟨m', -, rfl⟩ := List.mem_map.1 hm
      rfl
  have hfound : (fields.map Prod.fst).mapM (fun name : String => member? name.toList members)
      = some (fields.map fun f => if keep f.1 then some f.2 else none) := by
    rw [List.mapM_map]
    exact mapM_eq_some_map fun f hf => member?_of_perm hnames hf hperm hothers
  rw [fields?]
  simp only [Option.bind_eq_bind]
  rw [hnamed]
  exact hfound

/-- A field that is read back is there as it was written, or at its default. -/
theorem fieldOr_of_kept {α : Type} {read? : Json → Option α} {a : α} (h : read? value = some a) (default : α)
    (kept : Bool) :
    fieldOr default read? (if kept then some value else none) = some (if kept then a else default) := by
  cases kept with
  | true => exact h
  | false => rfl

/-- What may be missing is written as `null`, and read back if nothing else is. -/
theorem nullable?_getD {α β : Type} {read? : Json → Option β} {write : α → Json} {f : α → β} {a? : Option α}
    (h : ∀ a ∈ a?, write a ≠ .null ∧ read? (write a) = some (f a)) :
    nullable? read? ((a?.map write).getD .null) = some (a?.map f) := by
  cases a? with
  | none => rfl
  | some a =>
    obtain ⟨hnull, hread⟩ := h a rfl
    rw [Option.map_some, Option.getD_some, nullable?]
    · rw [hread]
      rfl
    · exact hnull

end Json

open Json

variable {keep : String → Bool} {part : Json}

/-! ### Parts of a configuration -/

theorem Rule.ofJson?_name (r : Rule) : Rule.ofJson? (.ofString r.name) = some r := by
  cases r <;> rfl

theorem MarkerStyle.ofJson?_name (style : MarkerStyle) : MarkerStyle.ofJson? (.ofString style.name) = some style := by
  cases style <;> rfl

namespace AdapterOptions

/-- The options with those at their defaults that are not kept. -/
def keeping (keep : String → Bool) (o : AdapterOptions) : AdapterOptions where
  rules := if keep "fixes" then o.rules else AdapterOptions.default.rules
  cacheLimit := if keep "cache_max_entries" then o.cacheLimit else AdapterOptions.default.cacheLimit
  endMarker := if keep "end_join_marker" then o.endMarker else AdapterOptions.default.endMarker

/-- The list of rules is read back, repetitions included. -/
theorem items?_rules (rules : List Rule) :
    ((Json.array (rules.map fun r => .ofString r.name)).items?.bind fun items => items.mapM Rule.ofJson?) = some rules := by
  rw [items?, Option.bind_some, List.mapM_map, mapM_eq_some_map (g := id) fun r _ => r.ofJson?_name, List.map_id]

theorem nullable?_limit (limit : Option UInt64) :
    nullable? (nat? UInt64.size) ((limit.map fun n => Json.ofInt n.toNat).getD .null)
      = some (limit.map UInt64.toNat) :=
  nullable?_getD fun n _ => ⟨nofun, nat?_ofInt n.toNat_lt_size (Nat.le_refl _)⟩

theorem nullable?_marker (marker : Option SqlText) :
    nullable? text? ((marker.map Json.ofText).getD .null) = some (marker.map id) :=
  nullable?_getD fun _ _ => ⟨nofun, rfl⟩

theorem ofJson?_of_isPart (o : AdapterOptions) (h : IsPart keep o.toJson part) :
    AdapterOptions.ofJson? part = some (o.keeping keep) := by
  rw [toJson] at h
  have hfields := fields?_of_isPart (by simp) h
  simp only [List.map_cons, List.map_nil] at hfields
  rw [ofJson?, hfields]
  simp only [Option.bind_eq_bind, Option.bind_some]
  rw [fieldOr_of_kept (items?_rules o.rules), fieldOr_of_kept (nullable?_limit o.cacheLimit),
    fieldOr_of_kept (nullable?_marker o.endMarker)]
  have hlimit : (if keep "cache_max_entries" = true then o.cacheLimit.map UInt64.toNat else none).map UInt64.ofNat
      = if keep "cache_max_entries" = true then o.cacheLimit else none := by
    by_cases hkeep : keep "cache_max_entries" = true
    · rw [if_pos hkeep, if_pos hkeep, Option.map_map]
      cases o.cacheLimit with
      | none => rfl
      | some n => exact congrArg some UInt64.ofNat_toNat
    · rw [if_neg hkeep, if_neg hkeep]
      rfl
  simp only [Option.bind_some, hlimit, Option.map_id]
  rfl

end AdapterOptions

namespace JetFeatures

/-- The features with those at their defaults that are not kept. -/
def keeping (keep : String → Bool) (f : JetFeatures) : JetFeatures where
  extendedFunctions := if keep "extended_functions" then f.extendedFunctions else JetFeatures.default.extendedFunctions
  trimFunctions := if keep "trim_emulation" then f.trimFunctions else JetFeatures.default.trimFunctions
  variableLimit := if keep "variable_limit" then f.variableLimit else JetFeatures.default.variableLimit

theorem ofJson?_of_isPart (f : JetFeatures) (h : IsPart keep f.toJson part) :
    JetFeatures.ofJson? part = some (f.keeping keep) := by
  rw [toJson] at h
  have hfields := fields?_of_isPart (by simp) h
  simp only [List.map_cons, List.map_nil] at hfields
  have hread : ∀ b : Bool, Json.bool? (.bool b) = some b := fun _ => rfl
  rw [ofJson?, hfields]
  simp only [Option.bind_eq_bind, Option.bind_some]
  rw [fieldOr_of_kept (hread f.extendedFunctions), fieldOr_of_kept (hread f.trimFunctions),
    fieldOr_of_kept (hread f.variableLimit)]
  rfl

end JetFeatures

namespace ProviderConfig

/-- The configuration with those parts at their defaults that are not kept, and within the others those fields. -/
def keeping (keep keepOptions keepFeatures : String → Bool) (c : ProviderConfig) : ProviderConfig where
  adapter := if keep "rewrite" then c.adapter.keeping keepOptions else ProviderConfig.default.adapter
  features := if keep "dialect" then c.features.keeping keepFeatures else ProviderConfig.default.features
  style := if keep "parameter_style" then c.style else ProviderConfig.default.style

variable {keepOptions keepFeatures : String → Bool} {options features : Json} {t : SqlText}

theorem ofJson?_of_isPart (c : ProviderConfig) (hoptions : IsPart keepOptions c.adapter.toJson options)
    (hfeatures : IsPart keepFeatures c.features.toJson features)
    (h : IsPart keep (.ofMembers
      [("rewrite", options), ("dialect", features), ("parameter_style", .ofString c.style.name)]) part) :
    ProviderConfig.ofJson? part = some (c.keeping keep keepOptions keepFeatures) := by
  have hfields := fields?_of_isPart (by simp) h
  simp only [List.map_cons, List.map_nil] at hfields
  rw [ofJson?, hfields]
  simp only [Option.bind_eq_bind, Option.bind_some]
  rw [fieldOr_of_kept (c.adapter.ofJson?_of_isPart hoptions), fieldOr_of_kept (c.features.ofJson?_of_isPart hfeatures),
    fieldOr_of_kept c.style.ofJson?_name]
  rfl

/-- What is written of a configuration is one of the texts of its value. -/
theorem prints_toJson (c : ProviderConfig) : Prints c.toJson := by
  have hrules : Prints (.array (c.adapter.rules.map fun r => .ofString r.name)) := by
    refine .array fun j hj => ?_
    obtain ⟨r, -, rfl⟩ := List.mem_map.1 hj
    exact .ofString r.name
  have hlimit : Prints ((c.adapter.cacheLimit.map fun n => Json.ofInt n.toNat).getD .null) := by
    cases c.adapter.cacheLimit with
    | none => exact .null
    | some n => exact .ofInt _
  have hmarker : Prints ((c.adapter.endMarker.map Json.ofText).getD .null) := by
    cases c.adapter.endMarker with
    | none => exact .null
    | some marker => exact .ofText marker
  have hoptions : Prints c.adapter.toJson := .ofMembers (by simp [hrules, hlimit, hmarker])
  have hfeatures : Prints c.features.toJson := .ofMembers (by simp [Prints.bool])
  exact .ofMembers (by simp [hoptions, hfeatures, Prints.ofString])

/-- **Configurations are read back.**  The text that is written of a configuration, on one line or on many, is read as
the configuration.  Any text of a value that has only some of its fields, in any order and with other fields among
them, is read as the configuration with the fields that were left out at their defaults. -/
theorem read?_of_isPart (c : ProviderConfig) :
    ProviderConfig.read? c.toJson.compact = some c ∧ ProviderConfig.read? c.toJson.pretty = some c ∧
      ∀ (keep keepOptions keepFeatures : String → Bool) (options features part : Json) (t : SqlText),
        IsPart keepOptions c.adapter.toJson options → IsPart keepFeatures c.features.toJson features →
        IsPart keep (.ofMembers
          [("rewrite", options), ("dialect", features), ("parameter_style", .ofString c.style.name)]) part →
        part.IsText t → ProviderConfig.read? t = some (c.keeping keep keepOptions keepFeatures) := by
  have hread : ∀ (keep keepOptions keepFeatures : String → Bool) (options features part : Json) (t : SqlText),
      IsPart keepOptions c.adapter.toJson options → IsPart keepFeatures c.features.toJson features →
      IsPart keep (.ofMembers
        [("rewrite", options), ("dialect", features), ("parameter_style", .ofString c.style.name)]) part →
      part.IsText t → ProviderConfig.read? t = some (c.keeping keep keepOptions keepFeatures) := by
    intro keep keepOptions keepFeatures options features part t hoptions hfeatures hpart ht
    rw [read?, read?_of_isText ht]
    exact ofJson?_of_isPart c hoptions hfeatures hpart
  have hwhole : ∀ t, c.toJson.IsText t → ProviderConfig.read? t = some c := fun t ht =>
    hread (fun _ => true) (fun _ => true) (fun _ => true) c.adapter.toJson c.features.toJson c.toJson t
      (.refl _) (.refl _) (.refl _) ht
  exact ⟨hwhole _ c.prints_toJson.isText_compact, hwhole _ c.prints_toJson.isText_pretty, hread⟩

/-- A rule named twice, an escape and a field of another name; the limit and the features are left out. -/
theorem read?_some_fields :
    ProviderConfig.read? ("\x7b\"parameter_style\":\"positional\",\"rewrite\":\x7b\"end_join_marker\":\"\\\"\"," ++
        "\"fixes\":[\"cast\",\"cast\"]\x7d,\"comment\":[-1]\x7d").toList
      = some ⟨⟨[.cast, .cast], none, some ['"']⟩, .default, .positional⟩ := by
  have hoptions : IsPart (· != "cache_max_entries") (AdapterOptions.toJson ⟨[.cast, .cast], some 7, some ['"']⟩)
      (.ofMembers [("end_join_marker", .ofString "\""), ("fixes", .array [.ofString "cast", .ofString "cast"])]) :=
    ⟨_, [("end_join_marker".toList, .ofString "\""), ("fixes".toList, .array [.ofString "cast", .ofString "cast"])], [],
      rfl, rfl, .swap _ _ _, List.forall_mem_nil _⟩
  have hpart : ∀ options features, IsPart (· != "dialect")
      (.ofMembers [("rewrite", options), ("dialect", features), ("parameter_style", .ofString "positional")])
      (.ofMembers [("parameter_style", .ofString "positional"), ("rewrite", options), ("comment", .array [.ofInt (-1)])]) :=
    fun options features => ⟨_, [("parameter_style".toList, .ofString "positional"), ("rewrite".toList, options),
      ("comment".toList, .array [.ofInt (-1)])], [("comment".toList, .array [.ofInt (-1)])],
      rfl, rfl, .swap _ _ _, by simp⟩
  have hrules : Prints (.array [.ofString "cast", .ofString "cast"]) := .array (by simp [Prints.ofString])
  have hcomment : Prints (.array [.ofInt (-1)]) := .array (by simp [Prints.ofInt])
  have hprints : Prints (.ofMembers [("end_join_marker", .ofString "\""),
      ("fixes", .array [.ofString "cast", .ofString "cast"])]) := .ofMembers (by simp [hrules, Prints.ofString])
  exact (read?_of_isPart ⟨⟨[.cast, .cast], some 7, some ['"']⟩, .default, .positional⟩).2.2 _ _ _ _ _ _ _ hoptions
    (.refl _) (hpart _ _) (Prints.isText_compact (.ofMembers (by simp [hprints, hcomment, Prints.ofString])))

end ProviderConfig

end JetAdapter
