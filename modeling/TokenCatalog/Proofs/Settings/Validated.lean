import TokenCatalog.Command.Problem
import TokenCatalog.Proofs.Bytes.WellFormed
import TokenCatalog.Proofs.Settings.Precedence
import TokenCatalog.Proofs.Text.Squeeze

/-!
# What comes of a configuration file

Whatever a configuration file holds, there are settings as they should be, or a fault that says at
which step the file was refused. All faults but one are told as problems of the configuration: bytes
that are no text are not foreseen. Main statements:

* `Settings.valid_of_check`: settings that pass their checks are as they should be;
* `Settings.refused_of_load`: which fault there is, step by step;
* `Settings.load_foreseen`: the outcomes, and the problems that they are told as.
-/

namespace TokenCatalog

/-! ## Settings as they should be -/

def Filled (text : String) : Prop :=
  text.toList ≠ [] ∧ Text.strip text.toList = text.toList

def IsExtension (extension : String) : Prop :=
  (∃ name, extension.toList = '.' :: name) ∧ ∃ text, extension.toList = Text.lower text

/-- A value of a setting as it should be. -/
def Setting.Sound : (s : Setting) → s.Value → Prop
  | tokenGlob, text => Filled text
  | outputFilename, text => Filled text
  | imageExtensions, extensions => ∀ extension ∈ extensions, IsExtension extension
  | maxWorkers, workers => 1 ≤ workers ∧ workers ≤ mostWorkers
  | logLevel, level => level ∈ [Log.Level.debug, .info, .warning, .error, .critical]
  | ignorePatterns, _ => True
  | requireSentinel, _ => True
  | logFormat, _ => True

/-- **Settings as they should be.** -/
def Settings.Valid (settings : Settings) : Prop :=
  ∀ s : Setting, s.Sound (settings.value s)

/-! ## What passes a check -/

theorem filled_of_checkFilled {value : Json} {text : String} (h : checkFilled value = .ok text) :
    Filled text := by
  obtain ⟨given, -, h⟩ := exists_of_bind_eq_ok h
  dsimp only at h
  split at h
  · cases h
  · next hempty =>
      cases h
      rw [List.isEmpty_iff] at hempty
      rw [Filled, String.toList_ofList]
      exact ⟨hempty, Text.strip_strip _⟩

/-- A dot before a text changes nothing in its lower case. -/
theorem lower_dot (cs : List Char) : Text.lower ('.' :: cs) = '.' :: Text.lower cs := by
  have hdot : Text.caseIgnorableRanges.holds '.'.toNat = true := by decide
  simp only [Text.lower, Text.lowerFrom, hdot]
  rfl

theorem isExtension_of_checkExtension {given extension : String}
    (h : checkExtension given = .ok extension) : IsExtension extension := by
  unfold checkExtension at h
  split at h
  · cases h
  · next rest hlower =>
      cases h
      simp only [IsExtension, String.toList_ofList]
      exact ⟨⟨rest, rfl⟩, _, hlower.symm⟩
  · cases h
    simp only [IsExtension, String.toList_ofList]
    exact ⟨⟨_, rfl⟩, _, (lower_dot _).symm⟩

theorem isExtension_of_checkExtensions {value : Json} {extensions : List String}
    (h : checkExtensions value = .ok extensions) :
    ∀ extension ∈ extensions, IsExtension extension := by
  obtain ⟨texts, -, h⟩ := exists_of_bind_eq_ok h
  intro extension hextension
  obtain ⟨given, -, hgiven⟩ := (mem_iff_of_mapM (eq_ok_of_mapError h)).mp hextension
  exact isExtension_of_checkExtension hgiven

theorem bounds_of_checkWorkers {value : Json} {workers : Nat}
    (h : checkWorkers value = .ok workers) :
    1 ≤ workers ∧ workers ≤ mostWorkers := by
  obtain ⟨n, -, h⟩ := exists_of_bind_eq_ok h
  split at h
  · cases h
  · split at h
    · cases h
    · cases h
      omega

theorem mem_of_checkLevel {value : Json} {level : Log.Level} (h : checkLevel value = .ok level) :
    level ∈ [Log.Level.debug, .info, .warning, .error, .critical] := by
  obtain ⟨text, -, h⟩ := exists_of_bind_eq_ok h
  dsimp only at h
  split at h
  · next found hfound =>
      cases h
      have hnamed := List.mem_of_find?_eq_some hfound
      exact List.contains_iff_mem.mp (List.mem_filter.mp hnamed).2
  · cases h

/-- What passes the check of a setting is as it should be. -/
theorem Setting.sound_of_check {s : Setting} {chosen : Json} {value : s.Value}
    (h : s.check chosen = .ok value) : s.Sound value := by
  cases s with
  | tokenGlob => exact filled_of_checkFilled (eq_ok_of_mapError h)
  | outputFilename => exact filled_of_checkFilled (eq_ok_of_mapError h)
  | imageExtensions => exact isExtension_of_checkExtensions h
  | maxWorkers => exact bounds_of_checkWorkers (eq_ok_of_mapError h)
  | logLevel => exact mem_of_checkLevel (eq_ok_of_mapError h)
  | ignorePatterns => exact trivial
  | requireSentinel => exact trivial
  | logFormat => exact trivial

/-- The defaults are as they should be. -/
theorem Settings.default_valid : Settings.default.Valid := by
  intro s
  cases s with
  | tokenGlob => exact ⟨by decide, by decide⟩
  | outputFilename => exact ⟨by decide, by decide⟩
  | imageExtensions =>
      have hall : ∀ extension ∈ default.imageExtensions, extension.toList.head? = some '.' ∧
          extension.toList = Text.lower extension.toList := by decide
      intro extension hextension
      obtain ⟨hdot, hlower⟩ := hall extension hextension
      exact ⟨List.head?_eq_some_iff.mp hdot, _, hlower⟩
  | maxWorkers => exact ⟨by decide, by decide⟩
  | logLevel => exact List.mem_of_elem_eq_true rfl
  | ignorePatterns => exact trivial
  | requireSentinel => exact trivial
  | logFormat => exact trivial

namespace Settings

variable {file : ConfigFile} {environment : List (String × String)}
  {overrides : List (String × Json)}

/-- **Settings that pass their checks are as they should be.** -/
theorem valid_of_check {chosen : Setting → Option Json} {settings : Settings}
    (h : check chosen = .ok settings) : settings.Valid := by
  intro s
  have hs := check_eq_ok_iff.mp h s
  cases hchosen : chosen s with
  | none =>
      rw [hchosen] at hs
      rw [← Except.ok.inj hs]
      exact default_valid s
  | some value =>
      rw [hchosen] at hs
      exact Setting.sound_of_check hs

/-! ## Refusals -/

variable (file environment overrides) in
/-- **Why there are no settings**, in the order in which the file is read: it cannot be read, its
bytes are no text, the text is not JSON or has a number of too many digits, the value is no object,
or a value that counts does not pass. -/
inductive Refused : SettingsFault → Prop
  | unreadable {fault : Project.AccessFault} (h : file = some (.error fault)) :
      Refused (.unreadable fault)
  | undecodable {bytes : List UInt8} {fault : Utf8.Fault} (h : file = some (.ok bytes))
      (hbytes : ¬ Utf8.WellFormed bytes) (hfault : Utf8.decode bytes = .error fault) :
      Refused (.undecodable fault)
  | malformed {text : List Char} {fault : JsonFault} (h : file = some (.ok (Utf8.encode text)))
      (hread : Json.readLimited (some mostDigits) (Text.universalNewlines text) = .error fault)
      (hdigits : ∀ count most, fault.cause ≠ .digits count most) (hpair : fault.cause ≠ .halfPair) :
      Refused (.malformed (Text.universalNewlines text) fault)
  | tooManyDigits {text : List Char} {count most left : Nat}
      (h : file = some (.ok (Utf8.encode text)))
      (hread : Json.readLimited (some mostDigits) (Text.universalNewlines text) =
        .error ⟨.digits count most, left⟩) : Refused (.tooManyDigits count)
  | notObject {text : List Char} {value : Json} (h : file = some (.ok (Utf8.encode text)))
      (hread : Json.readLimited (some mostDigits) (Text.universalNewlines text) = .ok value)
      (hvalue : ∀ members, value ≠ .obj members) : Refused .notObject
  | invalid {members : List (Key × Json)} {faults : List SettingFault}
      (hmembers : file.members = .ok members) (hne : faults ≠ [])
      (htold : ∀ (s : Setting) (chosen : Option Json),
        s.Chosen overrides environment members chosen →
        ((∃ fault ∈ faults, fault.setting = s) ↔ ¬ s.Passes chosen)) : Refused (.invalid faults)

/-- Whether a configuration file has an escape for half of a surrogate pair, before anything else is
wrong with its text. -/
def HalfPair (file : ConfigFile) : Prop :=
  file.members = .error .halfPair

/-- Whether a configuration file has a number of too many digits, before anything else is wrong with
its text. -/
def TooLong (file : ConfigFile) : Prop :=
  ∃ count, file.members = .error (.tooManyDigits count)

theorem refused_of_members {fault : SettingsFault} (hpairs : ¬ HalfPair file)
    (h : file.members = .error fault) : Refused file environment overrides fault := by
  have hfile := h
  unfold ConfigFile.members at h
  split at h
  · cases h
  · next accessFault =>
      cases h
      exact .unreadable rfl
  · next bytes =>
      split at h
      · next found hdecoded =>
          cases h
          refine .undecodable rfl (fun hwellFormed => ?_) hdecoded
          obtain ⟨text, htext⟩ := Utf8.exists_decode_iff.mpr hwellFormed
          cases htext.symm.trans hdecoded
      · next text hdecoded =>
          obtain rfl := Utf8.decode_eq_ok_iff.mp hdecoded
          unfold membersOfText at h
          split at h
          · next fault hread =>
              obtain ⟨cause, left⟩ := fault
              cases h
              cases cause with
              | digits count most => exact .tooManyDigits rfl hread
              | halfPair => exact absurd hfile hpairs
              | _ => exact .malformed rfl hread nofun nofun
          · cases h
          · next value hobject hread =>
              cases h
              exact .notObject rfl hread hobject

theorem refused_of_load {fault : SettingsFault} (hpairs : ¬ HalfPair file)
    (h : load file environment overrides = .error fault) :
    Refused file environment overrides fault := by
  rcases bind_eq_error_iff.mp h with hmembers | ⟨members, hmembers, hcheck⟩
  · exact refused_of_members hpairs hmembers
  · obtain ⟨faults, hfaults, rfl⟩ := exists_of_mapError_eq_error hcheck
    refine .invalid hmembers ?_ ?_
    · obtain ⟨⟨s, hs⟩, -⟩ := check_eq_error_iff.mp hfaults
      obtain ⟨fault, hfault, -⟩ := (told_of_check hfaults s).mpr hs
      exact List.ne_nil_of_mem hfault
    · intro s chosen hchosen
      rw [← Setting.chosen_iff.mp hchosen]
      exact told_of_check hfaults s

/-- Whether there is a configuration file whose bytes are no text. -/
def NoText (file : ConfigFile) : Prop :=
  ∃ bytes, file = some (.ok bytes) ∧ ¬ Utf8.WellFormed bytes

theorem not_noText_of_members {members : List (Key × Json)} (h : file.members = .ok members) :
    ¬ NoText file := by
  rintro ⟨bytes, rfl, hbytes⟩
  unfold ConfigFile.members at h
  dsimp only at h
  split at h
  · cases h
  · next text hdecoded => exact hbytes (Utf8.exists_decode_iff.mp ⟨text, hdecoded⟩)

theorem not_noText_of_encode {text : List Char} : ¬ NoText (some (.ok (Utf8.encode text))) := by
  rintro ⟨bytes, h, hbytes⟩
  cases h
  exact hbytes (Utf8.wellFormed_iff.mpr ⟨text, rfl⟩)

theorem not_tooLong_of_members {members : List (Key × Json)} (h : file.members = .ok members) :
    ¬ TooLong file := by
  rintro ⟨count, hlong⟩
  cases h.symm.trans hlong

/-- A refusal is a problem of the configuration unless the bytes are no text or a number is too
long. -/
theorem Refused.category_iff {fault : SettingsFault} (h : Refused file environment overrides fault)
    (configFile? : Option String) (verbose : Bool) :
    (Command.Problem.ofSettings configFile? verbose fault).category = .configuration ↔
      ¬ NoText file ∧ ¬ TooLong file := by
  cases h with
  | undecodable h hbytes hfault =>
      refine iff_of_false ?_ fun hfine => hfine.1 ⟨_, h, hbytes⟩
      intro hcategory
      cases hcategory
  | unreadable h =>
      subst h
      exact iff_of_true rfl ⟨by rintro ⟨bytes, ⟨⟩, -⟩, by rintro ⟨count, ⟨⟩⟩⟩
  | @malformed text fault h hread hdigits hpair =>
      subst h
      refine iff_of_true rfl ⟨not_noText_of_encode, ?_⟩
      rintro ⟨count, hlong⟩
      rw [members_encode, membersOfText, hread] at hlong
      obtain ⟨cause, left⟩ := fault
      cases cause with
      | digits count most => exact hdigits count most rfl
      | halfPair => exact hpair rfl
      | _ => cases hlong
  | tooManyDigits h hread =>
      subst h
      have hlong : TooLong (some (.ok (Utf8.encode _))) :=
        ⟨_, by rw [members_encode, membersOfText, hread]; rfl⟩
      refine iff_of_false ?_ fun hfine => hfine.2 hlong
      intro hcategory
      cases hcategory
  | @notObject text value h hread hvalue =>
      subst h
      refine iff_of_true rfl ⟨not_noText_of_encode, ?_⟩
      rintro ⟨count, hlong⟩
      rw [members_encode, membersOfText, hread] at hlong
      cases value with
      | obj members => exact hvalue members rfl
      | _ => cases hlong
  | invalid hmembers hne htold =>
      exact iff_of_true rfl ⟨not_noText_of_members hmembers, not_tooLong_of_members hmembers⟩

end Settings

end TokenCatalog
