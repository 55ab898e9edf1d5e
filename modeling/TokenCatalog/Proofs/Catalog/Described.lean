import TokenCatalog.Proofs.Catalog.Document

/-!
# What JSON forms are accepted

A document that someone else has written may hold any value in most fields, and leave many of them
out. What it has to hold is described field by field, without saying how it is read; a reading
accepts exactly the values that describe something. Main statements:

* `Token.ofJson_eq_ok_iff`, and the same for each part of a catalog: what is read from a value is
  what the value describes;
* `serialization_stable`: what has been read is read again from its own JSON form.
-/

namespace TokenCatalog

/-! ## Members and words -/

theorem need_eq_ok_iff {name : String} {data value : Json} :
    data.need name = .ok value ↔ data.get? name = some value := by
  cases data with
  | obj members =>
      simp only [Json.need, Json.get?]
      cases member? name members <;> simp
  | _ => simp [Json.need, Json.get?]

def Json.HasMembers (data : Json) : Prop :=
  ∃ members, data = .obj members

theorem getOr_eq_ok_iff {name : String} {data fallback value : Json} :
    data.getOr name fallback = .ok value ↔
      data.HasMembers ∧ (data.get? name).getD fallback = value := by
  cases data with
  | obj members => simp [Json.getOr, Json.get?, Json.HasMembers]
  | _ => simp [Json.getOr, Json.HasMembers]

/-- Only objects have members to ask for. -/
theorem hasMembers_of_get? {name : String} {data value : Json} (h : data.get? name = some value) :
    data.HasMembers := by
  cases data with
  | obj members => exact ⟨members, rfl⟩
  | _ => cases h

theorem member_eq_ok_iff {α : Type} {enumeration : String} {ofWord? : String → Option α}
    {word : α → String} (hword : ∀ s x, ofWord? s = some x ↔ s = word x) {value : Json} {x : α} :
    value.member enumeration ofWord? = .ok x ↔ value = .str (word x) := by
  cases value with
  | str s =>
      rw [Json.str.injEq, ← hword, Json.member]
      cases ofWord? s <;> simp
  | _ => simp [Json.member]

theorem ValueKind.ofJson_eq_ok_iff {value : Json} {kind : ValueKind} :
    ValueKind.ofJson value = .ok kind ↔ value = .str kind.word := by
  refine member_eq_ok_iff fun s kind => ?_
  constructor
  · intro h
    rw [ofWord?] at h
    have hword : kind.word = s := by simpa using List.find?_some h
    exact hword.symm
  · rintro rfl
    cases kind <;> rfl

theorem SourceType.ofJson_eq_ok_iff {value : Json} {type : SourceType} :
    SourceType.ofJson value = .ok type ↔ value = .str type.word := by
  refine member_eq_ok_iff fun s type => ?_
  constructor
  · intro h
    rw [ofWord?] at h
    have hword : type.word = s := by simpa using List.find?_some h
    exact hword.symm
  · rintro rfl
    cases type <;> rfl

/-! ## Tables and lists -/

theorem key?_eq_some_iff {value : Json} {key : Key} :
    value.key? = some key ↔ value = key.toJson := by
  cases value <;> cases key <;> simp [Json.key?, Key.toJson]

def Json.IsEntry (value : Json) (entry : Key × Json) : Prop :=
  value.items? = some [entry.1.toJson, entry.2]

theorem entry_eq_ok_iff {index : Nat} {value : Json} {entry : Key × Json} :
    value.entry index = .ok entry ↔ value.IsEntry entry := by
  obtain ⟨key, content⟩ := entry
  rw [Json.entry, Json.IsEntry]
  cases value.items? with
  | none => simp
  | some items =>
      match items with
      | [] => simp
      | [_] => simp
      | [name, x] =>
          simp only [Option.some.injEq, List.cons.injEq, and_true]
          rw [← key?_eq_some_iff]
          cases name.key? <;> simp
      | _ :: _ :: _ :: _ => simp

/-- A table as a value has it: an object is its own table, and of any other value the items are
entries, each name at its first place and with its last value. -/
inductive Json.Tabulates : Json → List (Key × Json) → Prop
  | object (members : List (Key × Json)) : Tabulates (.obj members) members
  | entries {value : Json} {items : List Json} {entries : List (Key × Json)}
      (hobject : ¬value.HasMembers) (hitems : value.items? = some items)
      (hentries : List.Forall₂ Json.IsEntry items entries) :
      Tabulates value (tableOf Key.same entries)

theorem forall₂_zipIdx {items : List Json} {entries : List (Key × Json)} (i : Nat) :
    List.Forall₂ (fun (x : Json × Nat) e => x.1.entry x.2 = .ok e) (items.zipIdx i) entries ↔
      List.Forall₂ Json.IsEntry items entries := by
  induction items generalizing i entries with
  | nil => simp
  | cons item items ih =>
      cases entries with
      | nil => simp
      | cons e entries =>
          rw [List.zipIdx_cons, List.forall₂_cons, List.forall₂_cons, ih, entry_eq_ok_iff]

theorem items_eq_ok_iff {value : Json} {items : List Json} :
    value.items = .ok items ↔ value.items? = some items := by
  rw [Json.items]
  cases value.items? <;> simp

theorem table_of_not_object {value : Json} (h : ¬value.HasMembers) :
    value.table = value.items >>= fun items =>
      (items.zipIdx.mapM fun (item, index) => item.entry index) >>= fun entries =>
        .ok (tableOf Key.same entries) := by
  cases value with
  | obj members => exact absurd ⟨members, rfl⟩ h
  | _ => rfl

theorem table_eq_ok_iff {value : Json} {table : List (Key × Json)} :
    value.table = .ok table ↔ value.Tabulates table := by
  by_cases hobject : value.HasMembers
  · obtain ⟨members, rfl⟩ := hobject
    constructor
    · rintro ⟨⟩
      exact .object _
    · intro h
      cases h with
      | object => rfl
      | entries hobject => exact absurd ⟨_, rfl⟩ hobject
  · rw [table_of_not_object hobject]
    simp only [bind_eq_ok_iff, items_eq_ok_iff, mapM_eq_ok_iff, forall₂_zipIdx]
    constructor
    · rintro ⟨items, hitems, entries, hentries, ⟨⟩⟩
      exact .entries hobject hitems hentries
    · intro h
      cases h with
      | object => exact absurd ⟨_, rfl⟩ hobject
      | entries _ hitems hentries => exact ⟨_, hitems, _, hentries, rfl⟩

/-- The items of a value describe the elements of a list one by one. -/
def Json.Lists {α : Type} (describes : α → Json → Prop) (value : Json) (xs : List α) : Prop :=
  ∃ items, value.items? = some items ∧ List.Forall₂ describes xs items

theorem lists_iff {α : Type} {read : Json → Except ShapeFault α} {describes : α → Json → Prop}
    (h : ∀ {item x}, read item = .ok x ↔ describes x item) {value : Json} {xs : List α} :
    (∃ items, value.items? = some items ∧ items.mapM read = .ok xs) ↔ value.Lists describes xs := by
  have hitems : ∀ items, items.mapM read = .ok xs ↔ List.Forall₂ describes xs items := by
    intro items
    rw [mapM_eq_ok_iff]
    constructor
    · intro hread
      exact (hread.imp fun _ _ => h.mp).flip
    · intro hdescribed
      exact hdescribed.flip.imp fun _ _ => h.mpr
  simp only [hitems, Json.Lists]

/-! ## Parts of a catalog -/

/-- A location as a value has it. -/
structure SourceLocation.DescribedBy (l : SourceLocation) (data : Json) : Prop where
  filename : data.get? "filename" = some l.filename
  line : (data.get? "line").getD (.int 0) = l.line
  column : (data.get? "column").getD (.int 0) = l.column

theorem SourceLocation.ofJson_eq_ok_iff {data : Json} {l : SourceLocation} :
    SourceLocation.ofJson data = .ok l ↔ l.DescribedBy data := by
  simp only [ofJson, bind_eq_ok_iff, need_eq_ok_iff, getOr_eq_ok_iff]
  constructor
  · rintro ⟨filename, hfilename, line, ⟨-, hline⟩, column, ⟨-, hcolumn⟩, ⟨⟩⟩
    exact ⟨hfilename, hline, hcolumn⟩
  · intro h
    have hmembers := hasMembers_of_get? h.filename
    exact ⟨_, h.filename, _, ⟨hmembers, h.line⟩, _, ⟨hmembers, h.column⟩, rfl⟩

/-- A token as a value has it. Only its name, its value and its kind are looked at, the kind being
optional; a null counts as any other value. -/
structure Token.DescribedBy (t : Token) (data : Json) : Prop where
  name : data.get? "name" = some t.name
  value : data.get? "value" = some t.value
  sourceValue : (data.get? "originalValue").getD t.value = t.sourceValue
  kind : (data.get? "kind").getD (.str "other") = .str t.kind.word
  category : (data.get? "category").getD .null = t.category
  presenter : (data.get? "presenter").getD .null = t.presenter
  description : (data.get? "description").getD .null = t.description
  isAlias : (data.get? "isAlias").getD (.bool false) = t.isAlias
  aliasOf : (data.get? "aliasOf").getD .null = t.aliasOf
  sourceFile : (data.get? "sourceFile").getD .null = t.sourceFile
  metadata : ((data.get? "metadata").getD (.obj [])).Tabulates t.metadata

theorem Token.ofJson_eq_ok_iff {data : Json} {t : Token} :
    Token.ofJson data = .ok t ↔ t.DescribedBy data := by
  simp only [ofJson, bind_eq_ok_iff, need_eq_ok_iff, getOr_eq_ok_iff,
    ValueKind.ofJson_eq_ok_iff, table_eq_ok_iff]
  constructor
  · rintro ⟨name, hname, value, hvalue, sourceValue, ⟨-, hsource⟩, _, ⟨-, rfl⟩, kind, hkind,
      category, ⟨-, hcategory⟩, presenter, ⟨-, hpresenter⟩, description, ⟨-, hdescription⟩,
      isAlias, ⟨-, halias⟩, aliasOf, ⟨-, haliasOf⟩, sourceFile, ⟨-, hfile⟩, _, ⟨-, rfl⟩,
      metadata, hmetadata, ⟨⟩⟩
    exact ⟨hname, hvalue, hsource, hkind, hcategory, hpresenter, hdescription, halias, haliasOf,
      hfile, hmetadata⟩
  · intro h
    have hmembers := hasMembers_of_get? h.name
    exact ⟨_, h.name, _, h.value, _, ⟨hmembers, h.sourceValue⟩, _, ⟨hmembers, rfl⟩, _, h.kind,
      _, ⟨hmembers, h.category⟩, _, ⟨hmembers, h.presenter⟩, _, ⟨hmembers, h.description⟩,
      _, ⟨hmembers, h.isAlias⟩, _, ⟨hmembers, h.aliasOf⟩, _, ⟨hmembers, h.sourceFile⟩,
      _, ⟨hmembers, rfl⟩, _, h.metadata, rfl⟩

/-- A group as a value has it. -/
structure TokenGroup.DescribedBy (g : TokenGroup) (data : Json) : Prop where
  type : data.get? "type" = some (.str g.type.word)
  tokens : ((data.get? "tokens").getD (.arr [])).Lists Token.DescribedBy g.tokens

theorem TokenGroup.ofJson_eq_ok_iff {data : Json} {g : TokenGroup} :
    TokenGroup.ofJson data = .ok g ↔ g.DescribedBy data := by
  simp only [ofJson, bind_eq_ok_iff, need_eq_ok_iff, getOr_eq_ok_iff,
    SourceType.ofJson_eq_ok_iff, items_eq_ok_iff]
  constructor
  · rintro ⟨_, htype, type, rfl, _, ⟨-, rfl⟩, items, hitems, tokens, htokens, ⟨⟩⟩
    exact ⟨htype, (lists_iff Token.ofJson_eq_ok_iff).mp ⟨items, hitems, htokens⟩⟩
  · intro h
    have hmembers := hasMembers_of_get? h.type
    obtain ⟨items, hitems, htokens⟩ := (lists_iff Token.ofJson_eq_ok_iff).mpr h.tokens
    exact ⟨_, h.type, _, rfl, _, ⟨hmembers, rfl⟩, items, hitems, _, htokens, rfl⟩

/-- A literal as a value has it. -/
structure HardCodedValue.DescribedBy (h : HardCodedValue) (data : Json) : Prop where
  value : data.get? "value" = some h.value
  kind : data.get? "kind" = some (.str h.kind.word)
  location : ∃ place, data.get? "location" = some place ∧ h.location.DescribedBy place
  property : (data.get? "property").getD .null = h.property
  selector : (data.get? "selector").getD (.str "") = h.selector

theorem HardCodedValue.ofJson_eq_ok_iff {data : Json} {h : HardCodedValue} :
    HardCodedValue.ofJson data = .ok h ↔ h.DescribedBy data := by
  simp only [ofJson, bind_eq_ok_iff, need_eq_ok_iff, getOr_eq_ok_iff,
    ValueKind.ofJson_eq_ok_iff, SourceLocation.ofJson_eq_ok_iff]
  constructor
  · rintro ⟨value, hvalue, _, hkind, kind, rfl, place, hplace, location, hlocation,
      property, ⟨-, hproperty⟩, selector, ⟨-, hselector⟩, ⟨⟩⟩
    exact ⟨hvalue, hkind, ⟨place, hplace, hlocation⟩, hproperty, hselector⟩
  · intro h
    have hmembers := hasMembers_of_get? h.value
    obtain ⟨place, hplace, hlocation⟩ := h.location
    exact ⟨_, h.value, _, h.kind, _, rfl, place, hplace, _, hlocation,
      _, ⟨hmembers, h.property⟩, _, ⟨hmembers, h.selector⟩, rfl⟩

/-- A catalog as a value has it. -/
structure Catalog.DescribedBy (c : Catalog) (data : Json) : Prop where
  members : data.HasMembers
  tokenGroups :
    ((data.get? "tokenGroups").getD (.arr [])).Lists TokenGroup.DescribedBy c.tokenGroups
  hardCodedValues :
    ((data.get? "hardCodedValues").getD (.arr [])).Lists HardCodedValue.DescribedBy
      c.hardCodedValues
  keyframes : (data.get? "keyframes").getD (.str "") = c.keyframes

theorem Catalog.ofJson_eq_ok_iff {data : Json} {c : Catalog} :
    Catalog.ofJson data = .ok c ↔ c.DescribedBy data := by
  simp only [ofJson, bind_eq_ok_iff, getOr_eq_ok_iff, items_eq_ok_iff]
  constructor
  · rintro ⟨_, ⟨hmembers, rfl⟩, groupItems, hgroupItems, groups, hgroups, _, ⟨-, rfl⟩,
      valueItems, hvalueItems, values, hvalues, keyframes, ⟨-, hkeyframes⟩, ⟨⟩⟩
    exact ⟨hmembers, (lists_iff TokenGroup.ofJson_eq_ok_iff).mp ⟨_, hgroupItems, hgroups⟩,
      (lists_iff HardCodedValue.ofJson_eq_ok_iff).mp ⟨_, hvalueItems, hvalues⟩, hkeyframes⟩
  · intro h
    obtain ⟨groupItems, hgroupItems, hgroups⟩ :=
      (lists_iff TokenGroup.ofJson_eq_ok_iff).mpr h.tokenGroups
    obtain ⟨valueItems, hvalueItems, hvalues⟩ :=
      (lists_iff HardCodedValue.ofJson_eq_ok_iff).mpr h.hardCodedValues
    exact ⟨_, ⟨h.members, rfl⟩, groupItems, hgroupItems, _, hgroups, _, ⟨h.members, rfl⟩,
      valueItems, hvalueItems, _, hvalues, _, ⟨h.members, h.keyframes⟩, rfl⟩

/-- An extraction as a value has it. Where its source type is given, that of the value is not looked
at. -/
structure Extraction.DescribedBy (type? : Option SourceType) (e : Extraction) (data : Json) :
    Prop where
  catalog : e.toCatalog.DescribedBy data
  given : ∀ type ∈ type?, e.sourceType = type
  sourceType : type? = none → (data.get? "sourceType").getD (.str "css") = .str e.sourceType.word

theorem Extraction.ofJson_eq_ok_iff {type? : Option SourceType} {data : Json} {e : Extraction} :
    Extraction.ofJson type? data = .ok e ↔ e.DescribedBy type? data := by
  cases type? with
  | some type =>
      simp only [ofJson, bind_eq_ok_iff, Catalog.ofJson_eq_ok_iff]
      constructor
      · rintro ⟨catalog, hcatalog, ⟨⟩⟩
        refine ⟨hcatalog, fun _ htype => Option.some.inj htype, ?_⟩
        intro hnone
        cases hnone
      · intro h
        have htype := h.given type rfl
        subst htype
        exact ⟨_, h.catalog, rfl⟩
  | none =>
      simp only [ofJson, bind_eq_ok_iff, Catalog.ofJson_eq_ok_iff, getOr_eq_ok_iff,
        SourceType.ofJson_eq_ok_iff]
      constructor
      · rintro ⟨catalog, hcatalog, _, ⟨-, rfl⟩, type, htype, ⟨⟩⟩
        refine ⟨hcatalog, ?_, fun _ => htype⟩
        intro _ hgiven
        cases hgiven
      · intro h
        exact ⟨_, h.catalog, _, ⟨h.catalog.members, rfl⟩, _, h.sourceType rfl, rfl⟩

/-! ## Reading again -/

theorem Catalog.ofJson_toJson (c : Catalog) : Catalog.ofJson c.toJson = .ok c := by
  have h := Catalog.ofJson_record c []
  rwa [List.append_nil] at h

theorem Extraction.ofJson_toJson_own (e : Extraction) :
    Extraction.ofJson none e.toJson = .ok e := by
  have htype : e.toJson.getOr "sourceType" (.str "css") = .ok (.str e.sourceType.word) := rfl
  rw [Extraction.ofJson, htype, Extraction.toJson, Catalog.ofJson_record]
  simp only [bind, Except.bind, SourceType.ofJson_word]

/-- A reading accepts exactly the values that describe something, gives what they describe, and
gives it again for its JSON form; so a second rewriting changes nothing. -/
structure StablyRead {α : Type} (describes : α → Json → Prop) (read : Json → Except ShapeFault α)
    (write : α → Json) : Prop where
  accepts : ∀ data x, read data = .ok x ↔ describes x data
  again : ∀ data x, read data = .ok x → read (write x) = .ok x
  idempotent : ∀ data data', (read data).map write = .ok data' →
    (read data').map write = .ok data'

theorem StablyRead.of {α : Type} {describes : α → Json → Prop} {read : Json → Except ShapeFault α}
    {write : α → Json} (haccepts : ∀ {data x}, read data = .ok x ↔ describes x data)
    (hagain : ∀ {data x}, read data = .ok x → read (write x) = .ok x) :
    StablyRead describes read write where
  accepts _ _ := haccepts
  again _ _ := hagain
  idempotent data data' h := by
    obtain ⟨x, hx, rfl⟩ := exists_of_map_eq_ok h
    rw [hagain hx]
    rfl

/-- **Reading is stable on everything that it accepts.** It takes each part of a catalog from
exactly the values that describe it, whatever they hold in other members, and from its JSON form it
takes the same part again. An extraction may be given a source type of its own or not, and its JSON
form is read as the same extraction without one, too. -/
theorem serialization_stable :
    StablyRead SourceLocation.DescribedBy SourceLocation.ofJson SourceLocation.toJson ∧
    StablyRead Token.DescribedBy Token.ofJson Token.toJson ∧
    StablyRead TokenGroup.DescribedBy TokenGroup.ofJson TokenGroup.toJson ∧
    StablyRead HardCodedValue.DescribedBy HardCodedValue.ofJson HardCodedValue.toJson ∧
    StablyRead Catalog.DescribedBy Catalog.ofJson Catalog.toJson ∧
    ∀ type? : Option SourceType,
      StablyRead (Extraction.DescribedBy type?) (Extraction.ofJson type?) Extraction.toJson ∧
        ∀ data e, Extraction.ofJson type? data = .ok e →
          Extraction.ofJson none e.toJson = .ok e := by
  refine ⟨.of SourceLocation.ofJson_eq_ok_iff fun _ => SourceLocation.ofJson_toJson _,
    .of Token.ofJson_eq_ok_iff fun _ => Token.ofJson_toJson _,
    .of TokenGroup.ofJson_eq_ok_iff fun _ => TokenGroup.ofJson_toJson _,
    .of HardCodedValue.ofJson_eq_ok_iff fun _ => HardCodedValue.ofJson_toJson _,
    .of Catalog.ofJson_eq_ok_iff fun _ => Catalog.ofJson_toJson _, fun type? => ?_⟩
  refine ⟨.of Extraction.ofJson_eq_ok_iff fun {data e} h => ?_, fun _ e _ => e.ofJson_toJson_own⟩
  cases type? with
  | none => exact e.ofJson_toJson_own
  | some type =>
      have htype := (Extraction.ofJson_eq_ok_iff.mp h).given type rfl
      rw [Extraction.ofJson_toJson, ← htype]

/-- An extraction of unusual members: nulls, no original value, a number as a name, pairs for
metadata with a name twice, and empty objects where lists are expected. The source type is none, but
another one is given. -/
theorem serialization_stable_oddMembers :
    let token : Json := record [("name", .int 7), ("value", .null), ("category", .null),
      ("metadata", .arr [.arr [.str "a", .int 1], .str "bc", .arr [.str "a", .null]])]
    let data : Json := record
      [("tokenGroups", .arr [record [("type", .str "svg"), ("tokens", .arr [token])],
        record [("type", .str "css"), ("tokens", .obj [])]]),
        ("hardCodedValues", .obj []), ("keyframes", .null), ("sourceType", .arr [])]
    ∃ e, Extraction.ofJson (some .less) data = .ok e ∧
      Extraction.ofJson (some .less) e.toJson = .ok e ∧
      Extraction.ofJson none e.toJson = .ok e := by
  intro token data
  obtain ⟨e, he⟩ : ∃ e, Extraction.ofJson (some .less) data = .ok e := ⟨_, rfl⟩
  obtain ⟨hstable, hown⟩ := serialization_stable.2.2.2.2.2 (some .less)
  exact ⟨e, he, hstable.again data e he, hown data e he⟩

end TokenCatalog
