import TokenCatalog.Catalog.Document
import TokenCatalog.Proofs.Except
import TokenCatalog.Proofs.Json.RoundTrip

/-!
# Catalogs as JSON and back

The JSON form of a part of a catalog is read back as that part, whatever its fields hold: members
that are left out are those that the reading takes for null, and a table is kept as it is. Main
statements:

* `Token.ofJson_toJson` and `HardCodedValue.ofJson_toJson`, and from them the same for groups,
  catalogs and extractions.
* `Extraction.toJson_plain`: the JSON form of an extraction survives being written as text, if the
  fields in it do.
-/

namespace TokenCatalog

/-! ## Members by name -/

theorem member?_record (name : String) (members : List (String × Json)) :
    member? name (members.map fun m => (Key.text m.1, m.2)) = members.lookup name := by
  induction members with
  | nil => rfl
  | cons m ms ih =>
      rw [List.map_cons, List.lookup_cons, ← ih, member?, member?, List.find?_cons]
      by_cases h : m.1 = name
      · simp [h]
      · have hname : (name == m.1) = false := by simpa using Ne.symm h
        simp [h, hname]

/-- A member of a record, or a value in its place. -/
theorem getOr_record (name : String) (members : List (String × Json)) (fallback : Json) :
    (record members).getOr name fallback = .ok ((members.lookup name).getD fallback) := by
  rw [record, Json.getOr, member?_record]

def Json.unlessNull : Json → Option Json
  | .null => none
  | value => some value

theorem Json.getD_unlessNull (value : Json) : value.unlessNull.getD .null = value := by
  cases value <;> rfl

theorem lookup_optionalMember (name name' : String) (value : Json) :
    (optionalMember name' value).lookup name = if name = name' then value.unlessNull else none := by
  by_cases h : name = name'
  · subst h
    cases value <;> simp [optionalMember, Json.unlessNull]
  · have hname : (name == name') = false := by simpa using h
    cases value <;> simp [optionalMember, List.lookup_cons, h, hname]

/-! ## Words -/

theorem SourceType.ofJson_word (type : SourceType) :
    SourceType.ofJson (.str type.word) = .ok type := by
  cases type <;> rfl

theorem ValueKind.ofJson_word (kind : ValueKind) :
    ValueKind.ofJson (.str kind.word) = .ok kind := by
  cases kind <;> rfl

/-! ## Parts of a catalog -/

theorem SourceLocation.ofJson_toJson (l : SourceLocation) :
    SourceLocation.ofJson l.toJson = .ok l := by
  rfl

theorem HardCodedValue.ofJson_toJson (h : HardCodedValue) :
    HardCodedValue.ofJson h.toJson = .ok h := by
  obtain ⟨value, kind, location, property, selector⟩ := h
  cases kind <;> rfl

/-- The member for a token's metadata, which is left out if there are none. -/
def metadataMember (metadata : List (Key × Json)) : List (String × Json) :=
  if metadata.isEmpty then [] else [("metadata", .obj metadata)]

theorem lookup_metadataMember (name : String) (metadata : List (Key × Json)) :
    (metadataMember metadata).lookup name =
      if name = "metadata" ∧ metadata ≠ [] then some (.obj metadata) else none := by
  by_cases h : name = "metadata"
  · cases metadata <;> simp [metadataMember, h]
  · have hname : (name == "metadata") = false := by simpa using h
    cases metadata <;> simp [metadataMember, List.lookup_cons, h, hname]

def Token.optionalMembers (t : Token) : List (String × Json) :=
  optionalMember "category" t.category ++ optionalMember "presenter" t.presenter ++
    optionalMember "description" t.description ++ optionalMember "aliasOf" t.aliasOf ++
    optionalMember "sourceFile" t.sourceFile ++ metadataMember t.metadata

theorem Token.toJson_eq (t : Token) :
    t.toJson = record ([("name", t.name), ("value", t.value), ("originalValue", t.sourceValue),
      ("kind", .str t.kind.word), ("isAlias", t.isAlias)] ++ t.optionalMembers) := by
  simp [Token.toJson, Token.optionalMembers, metadataMember]

theorem Token.lookup_optionalMembers (t : Token) :
    t.optionalMembers.lookup "category" = t.category.unlessNull ∧
      t.optionalMembers.lookup "presenter" = t.presenter.unlessNull ∧
      t.optionalMembers.lookup "description" = t.description.unlessNull ∧
      t.optionalMembers.lookup "aliasOf" = t.aliasOf.unlessNull ∧
      t.optionalMembers.lookup "sourceFile" = t.sourceFile.unlessNull ∧
      t.optionalMembers.lookup "metadata" = (metadataMember t.metadata).lookup "metadata" := by
  refine ⟨?_, ?_, ?_, ?_, ?_, ?_⟩ <;>
    simp [Token.optionalMembers, List.lookup_append, lookup_optionalMember, lookup_metadataMember]

theorem Token.getOr_optional {t : Token} {name : String} {value? : Option Json} (fallback : Json)
    (hname : name ∉ ["name", "value", "originalValue", "kind", "isAlias"])
    (h : t.optionalMembers.lookup name = value?) :
    t.toJson.getOr name fallback = .ok (value?.getD fallback) := by
  simp only [List.mem_cons, List.not_mem_nil, not_or] at hname
  rw [Token.toJson_eq, getOr_record, List.lookup_append]
  simp [List.lookup_cons, beq_eq_false_iff_ne.mpr, hname, h]

theorem getD_lookup_metadataMember (metadata : List (Key × Json)) :
    ((metadataMember metadata).lookup "metadata").getD (.obj []) = .obj metadata := by
  cases metadata <;> rfl

/-- **A token is read back from its JSON form**, whatever values its fields have. -/
theorem Token.ofJson_toJson (t : Token) : Token.ofJson t.toJson = .ok t := by
  obtain ⟨hcategory, hpresenter, hdescription, haliasOf, hsourceFile, hmetadata⟩ :=
    t.lookup_optionalMembers
  have hname : t.toJson.need "name" = .ok t.name := rfl
  have hvalue : t.toJson.need "value" = .ok t.value := rfl
  have hsource : t.toJson.getOr "originalValue" t.value = .ok t.sourceValue := rfl
  have hkind : t.toJson.getOr "kind" (.str "other") = .ok (.str t.kind.word) := rfl
  have halias : t.toJson.getOr "isAlias" (.bool false) = .ok t.isAlias := rfl
  rw [Token.ofJson, hname, hvalue]
  simp only [bind, Except.bind, hsource, hkind, ValueKind.ofJson_word, halias,
    Token.getOr_optional .null (by decide) hcategory,
    Token.getOr_optional .null (by decide) hpresenter,
    Token.getOr_optional .null (by decide) hdescription,
    Token.getOr_optional .null (by decide) haliasOf,
    Token.getOr_optional .null (by decide) hsourceFile,
    Token.getOr_optional (.obj []) (by decide) hmetadata,
    Json.getD_unlessNull, getD_lookup_metadataMember, Json.table]

/-! ## Lists of parts -/

theorem TokenGroup.ofJson_toJson (g : TokenGroup) : TokenGroup.ofJson g.toJson = .ok g := by
  have htype : g.toJson.need "type" = .ok (.str g.type.word) := rfl
  have htokens : g.toJson.getOr "tokens" (.arr []) = .ok (.arr (g.tokens.map Token.toJson)) := rfl
  rw [TokenGroup.ofJson, htype, htokens]
  simp only [bind, Except.bind, SourceType.ofJson_word, Json.items, Json.items?,
    mapM_map_eq_ok Token.ofJson_toJson]

theorem Catalog.ofJson_record (c : Catalog) (more : List (String × Json)) :
    Catalog.ofJson (record (c.members ++ more)) = .ok c := by
  have hgroups : (record (c.members ++ more)).getOr "tokenGroups" (.arr []) =
      .ok (.arr (c.tokenGroups.map TokenGroup.toJson)) := rfl
  have hvalues : (record (c.members ++ more)).getOr "hardCodedValues" (.arr []) =
      .ok (.arr (c.hardCodedValues.map HardCodedValue.toJson)) := rfl
  have hkeyframes : (record (c.members ++ more)).getOr "keyframes" (.str "") = .ok c.keyframes :=
    rfl
  rw [Catalog.ofJson, hgroups, hvalues, hkeyframes]
  simp only [bind, Except.bind, Json.items, Json.items?, mapM_map_eq_ok TokenGroup.ofJson_toJson,
    mapM_map_eq_ok HardCodedValue.ofJson_toJson]

/-- An extraction is read back as one of the type that it is asked for. -/
theorem Extraction.ofJson_toJson (e : Extraction) (type : SourceType) :
    Extraction.ofJson (some type) e.toJson = .ok ⟨e.toCatalog, type⟩ := by
  rw [Extraction.ofJson, Extraction.toJson, Catalog.ofJson_record]
  rfl

/-! ## Forms that texts determine -/

/-- A token all of whose fields survive being written as text. -/
structure Token.Plain (t : Token) : Prop where
  name : t.name.Plain
  value : t.value.Plain
  sourceValue : t.sourceValue.Plain
  category : t.category.Plain
  presenter : t.presenter.Plain
  description : t.description.Plain
  isAlias : t.isAlias.Plain
  aliasOf : t.aliasOf.Plain
  sourceFile : t.sourceFile.Plain
  metadata : (Json.obj t.metadata).Plain

/-- A literal all of whose fields survive being written as text. -/
structure HardCodedValue.Plain (h : HardCodedValue) : Prop where
  value : h.value.Plain
  filename : h.location.filename.Plain
  line : h.location.line.Plain
  column : h.location.column.Plain
  property : h.property.Plain
  selector : h.selector.Plain

/-- A catalog all of whose parts survive being written as text. -/
structure Catalog.Plain (c : Catalog) : Prop where
  tokens : ∀ g ∈ c.tokenGroups, ∀ t ∈ g.tokens, t.Plain
  hardCodedValues : ∀ h ∈ c.hardCodedValues, h.Plain
  keyframes : c.keyframes.Plain

theorem record_plain {members : List (String × Json)} (hnodup : (members.map (·.1)).Nodup)
    (h : ∀ m ∈ members, m.2.Plain) : (record members).Plain := by
  refine .obj ?_ ?_ ?_
  · intro m hm
    obtain ⟨m, -, rfl⟩ := List.mem_map.mp hm
    exact ⟨m.1, rfl⟩
  · have hkeys : (members.map fun m => (Key.text m.1, m.2)).map (·.1) =
        (members.map (·.1)).map Key.text := by
      rw [List.map_map, List.map_map]
      rfl
    rw [hkeys]
    exact hnodup.map fun _ _ => Key.text.inj
  · intro m hm
    obtain ⟨m', hm', rfl⟩ := List.mem_map.mp hm
    exact h m' hm'

theorem names_optionalMember (name : String) (value : Json) :
    ((optionalMember name value).map (·.1)).Sublist [name] := by
  cases value <;> simp [optionalMember]

theorem names_metadataMember (metadata : List (Key × Json)) :
    ((metadataMember metadata).map (·.1)).Sublist ["metadata"] := by
  cases metadata <;> simp [metadataMember]

theorem optionalMember_plain {value : Json} (h : value.Plain) (name : String) :
    ∀ m ∈ optionalMember name value, m.2.Plain := by
  intro m hm
  cases value <;> simp [optionalMember] at hm <;> rw [hm] <;> exact h

theorem metadataMember_plain {metadata : List (Key × Json)} (h : (Json.obj metadata).Plain) :
    ∀ m ∈ metadataMember metadata, m.2.Plain := by
  intro m hm
  cases metadata <;> simp [metadataMember] at hm
  rw [hm]
  exact h

theorem Token.Plain.toJson {t : Token} (h : t.Plain) : t.toJson.Plain := by
  rw [Token.toJson_eq]
  refine record_plain ?_ ?_
  -- members that are left out leave the others in order, so names stay distinct
  · have hoptional : (t.optionalMembers.map (·.1)).Sublist
        ["category", "presenter", "description", "aliasOf", "sourceFile", "metadata"] := by
      simp only [Token.optionalMembers, List.map_append]
      exact ((((((names_optionalMember _ _).append (names_optionalMember _ _)).append
        (names_optionalMember _ _)).append (names_optionalMember _ _)).append
        (names_optionalMember _ _)).append (names_metadataMember _))
    have hnodup : (["name", "value", "originalValue", "kind", "isAlias"] ++
        ["category", "presenter", "description", "aliasOf", "sourceFile", "metadata"]).Nodup := by
      decide
    rw [List.map_append]
    exact ((List.Sublist.refl _).append hoptional).nodup hnodup
  · rw [List.forall_mem_append]
    constructor
    · rw [List.forall_mem_cons, List.forall_mem_cons, List.forall_mem_cons, List.forall_mem_cons,
        List.forall_mem_singleton]
      exact ⟨h.name, h.value, h.sourceValue, .str _, h.isAlias⟩
    · simp only [Token.optionalMembers, List.forall_mem_append]
      exact ⟨⟨⟨⟨⟨optionalMember_plain h.category _, optionalMember_plain h.presenter _⟩,
        optionalMember_plain h.description _⟩, optionalMember_plain h.aliasOf _⟩,
        optionalMember_plain h.sourceFile _⟩, metadataMember_plain h.metadata⟩

theorem TokenGroup.toJson_plain {g : TokenGroup} (h : ∀ t ∈ g.tokens, t.Plain) :
    g.toJson.Plain := by
  refine record_plain (by simp) ?_
  rw [List.forall_mem_cons, List.forall_mem_singleton]
  refine ⟨.str _, .arr fun x hx => ?_⟩
  obtain ⟨t, ht, rfl⟩ := List.mem_map.mp hx
  exact (h t ht).toJson

theorem HardCodedValue.Plain.toJson {h : HardCodedValue} (hplain : h.Plain) :
    h.toJson.Plain := by
  have hlocation : h.location.toJson.Plain := by
    refine record_plain (by simp) ?_
    rw [List.forall_mem_cons, List.forall_mem_cons, List.forall_mem_singleton]
    exact ⟨hplain.filename, hplain.line, hplain.column⟩
  refine record_plain (by simp) ?_
  rw [List.forall_mem_cons, List.forall_mem_cons, List.forall_mem_cons, List.forall_mem_cons,
    List.forall_mem_singleton]
  exact ⟨hplain.value, .str _, hlocation, hplain.property, hplain.selector⟩

/-- **The JSON form of an extraction survives being written as text**, if its parts do. -/
theorem Extraction.toJson_plain {e : Extraction} (h : e.toCatalog.Plain) : e.toJson.Plain := by
  refine record_plain (by simp [Catalog.members]) ?_
  rw [Catalog.members, List.cons_append, List.cons_append, List.cons_append, List.nil_append,
    List.forall_mem_cons, List.forall_mem_cons, List.forall_mem_cons, List.forall_mem_singleton]
  refine ⟨.arr fun x hx => ?_, .arr fun x hx => ?_, h.keyframes, .str _⟩
  · obtain ⟨g, hg, rfl⟩ := List.mem_map.mp hx
    exact TokenGroup.toJson_plain (h.tokens g hg)
  · obtain ⟨value, hvalue, rfl⟩ := List.mem_map.mp hx
    exact (h.hardCodedValues value hvalue).toJson

end TokenCatalog
