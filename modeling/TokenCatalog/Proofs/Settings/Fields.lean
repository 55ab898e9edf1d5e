import TokenCatalog.Proofs.Except
import TokenCatalog.Settings.Check

/-!
# Settings field by field

Settings are checked one by one: none looks at the value that is chosen for another. `Setting.check`
is the check of a single setting and `Settings.value` the value that settings have for it, both by
the name of the setting. Main statements:

* `Settings.check_eq_ok_iff`: settings are what every single check makes of the value chosen for it;
* `Settings.check_eq_error_iff`: they are refused when a single check fails, with the faults of all;
* `Setting.check_blames`: a single check that fails has faults, all of them with its own setting;
* `Settings.told_of_check`: the faults tell of the settings that fail.
-/

namespace TokenCatalog

/-! ## Values -/

/-- What the values of a setting are. -/
abbrev Setting.Value : Setting → Type
  | tokenGlob => String
  | ignorePatterns => List String
  | imageExtensions => List String
  | requireSentinel => Bool
  | maxWorkers => Nat
  | outputFilename => String
  | logLevel => Log.Level
  | logFormat => Log.Format

/-- The value that settings have for one of them. -/
def Settings.value (settings : Settings) : (s : Setting) → s.Value
  | .tokenGlob => settings.tokenGlob
  | .ignorePatterns => settings.ignorePatterns
  | .imageExtensions => settings.imageExtensions
  | .requireSentinel => settings.requireSentinel
  | .maxWorkers => settings.maxWorkers
  | .outputFilename => settings.outputFilename
  | .logLevel => settings.logLevel
  | .logFormat => settings.logFormat

namespace Setting

def check : (s : Setting) → Json → Except (List SettingFault) s.Value
  | tokenGlob, value => single .tokenGlob (checkFilled value)
  | ignorePatterns, value => checkTexts .ignorePatterns value
  | imageExtensions, value => checkExtensions value
  | requireSentinel, value => single .requireSentinel (checkTruth value)
  | maxWorkers, value => single .maxWorkers (checkWorkers value)
  | outputFilename, value => single .outputFilename (checkFilled value)
  | logLevel, value => single .logLevel (checkLevel value)
  | logFormat, value => single .logFormat (checkFormat value)

/-- What a setting amounts to: its default if no value is chosen, or else what its check makes of
the value. -/
def settle (s : Setting) : Option Json → Except (List SettingFault) s.Value
  | none => .ok (Settings.default.value s)
  | some value => s.check value

/-- Whether the value chosen for a setting, if there is one, passes the check of the setting. -/
def Passes (s : Setting) (chosen : Option Json) : Prop :=
  ∃ value, s.settle chosen = .ok value

end Setting

/-! ## Whom a fault blames -/

/-- A result that fails only with faults of one setting, and with at least one of them. -/
def Blames {α : Type} (s : Setting) (result : Except (List SettingFault) α) : Prop :=
  ∀ faults, result = .error faults → faults ≠ [] ∧ ∀ fault ∈ faults, fault.setting = s

section Blames

variable {α : Type} {s : Setting}

theorem single_blames (result : Except SettingCause α) : Blames s (single s result) := by
  intro faults h
  obtain ⟨cause, -, rfl⟩ := exists_of_mapError_eq_error h
  simp

theorem itemFaults_blames (items : List Json) :
    ∀ fault ∈ itemFaults s items, fault.setting = s := by
  intro fault h
  simp only [itemFaults, List.mem_filterMap] at h
  obtain ⟨⟨item, i⟩, -, h⟩ := h
  cases item <;> simp at h <;> simp [← h]

theorem checkTexts_blames (value : Json) : Blames s (checkTexts s value) := by
  intro faults h
  cases value with
  | arr items =>
      simp only [checkTexts] at h
      split at h
      · cases h
      · next hfaults =>
          cases h
          exact ⟨hfaults, itemFaults_blames items⟩
  | _ =>
      cases h
      simp

theorem checkExtensions_blames (value : Json) :
    Blames .imageExtensions (checkExtensions value) := by
  intro faults h
  rcases bind_eq_error_iff.mp h with h | ⟨texts, -, h⟩
  · exact checkTexts_blames value faults h
  · exact single_blames _ faults h

/-- **A check blames its own setting.** -/
theorem Setting.check_blames (s : Setting) (value : Json) : Blames s (s.check value) := by
  cases s with
  | ignorePatterns => exact checkTexts_blames value
  | imageExtensions => exact checkExtensions_blames value
  | _ => exact single_blames _

theorem Setting.settle_blames (s : Setting) (chosen : Option Json) :
    Blames s (s.settle chosen) := by
  cases chosen with
  | none => exact nofun
  | some value => exact s.check_blames value

theorem Blames.setting_of_mem {result : Except (List SettingFault) α} (h : Blames s result)
    {fault : SettingFault} (hfault : fault ∈ faultsOf result) : fault.setting = s := by
  cases result with
  | ok value => cases hfault
  | error faults => exact (h faults rfl).2 fault hfault

theorem Blames.faultsOf_eq_nil_iff {result : Except (List SettingFault) α} (h : Blames s result) :
    faultsOf result = [] ↔ ∃ value, result = .ok value := by
  cases result with
  | ok value => simp [faultsOf]
  | error faults => simp [faultsOf, (h faults rfl).1]

end Blames

/-- The faults of a setting, of all faults of a choice. -/
theorem filter_faults (chosen : Setting → Option Json) (s : Setting) :
    (Setting.all.flatMap fun t => faultsOf (t.settle (chosen t))).filter (·.setting = s) =
      faultsOf (s.settle (chosen s)) := by
  have hown : ∀ t : Setting, (faultsOf (t.settle (chosen t))).filter (·.setting = s) =
      if t = s then faultsOf (s.settle (chosen s)) else [] := by
    intro t
    by_cases hts : t = s
    · subst hts
      rw [if_pos rfl, List.filter_eq_self]
      intro fault hfault
      exact decide_eq_true ((t.settle_blames _).setting_of_mem hfault)
    · rw [if_neg hts, List.filter_eq_nil_iff]
      intro fault hfault hsetting
      exact hts (((t.settle_blames _).setting_of_mem hfault).symm.trans
        (of_decide_eq_true hsetting))
  rw [List.filter_flatMap]
  simp only [hown]
  cases s <;> simp [Setting.all]

/-! ## All settings -/

namespace Settings

variable {chosen : Setting → Option Json} {settings : Settings}

/-- All checks, and after them the settings or the faults. -/
theorem check_eq (chosen : Setting → Option Json) :
    check chosen =
      Except.mapError (fun _ => Setting.all.flatMap fun s => faultsOf (s.settle (chosen s))) (do
        let tokenGlob ← Setting.tokenGlob.settle (chosen .tokenGlob)
        let ignorePatterns ← Setting.ignorePatterns.settle (chosen .ignorePatterns)
        let imageExtensions ← Setting.imageExtensions.settle (chosen .imageExtensions)
        let requireSentinel ← Setting.requireSentinel.settle (chosen .requireSentinel)
        let maxWorkers ← Setting.maxWorkers.settle (chosen .maxWorkers)
        let outputFilename ← Setting.outputFilename.settle (chosen .outputFilename)
        let logLevel ← Setting.logLevel.settle (chosen .logLevel)
        let logFormat ← Setting.logFormat.settle (chosen .logFormat)
        .ok ⟨tokenGlob, ignorePatterns, imageExtensions, requireSentinel, maxWorkers,
          outputFilename, logLevel, logFormat⟩) := by
  simp only [Setting.all, List.flatMap_cons, List.flatMap_nil, List.append_nil, ← List.append_assoc]
  rfl

/-- **Settings are what their checks make of the values chosen.** -/
theorem check_eq_ok_iff :
    check chosen = .ok settings ↔ ∀ s : Setting, s.settle (chosen s) = .ok (settings.value s) := by
  rw [check_eq]
  constructor
  · intro h
    have hall := eq_ok_of_mapError h
    simp only [bind_eq_ok_iff] at hall
    obtain ⟨a, ha, b, hb, c, hc, d, hd, e, he, f, hf, g, hg, i, hi, ⟨⟩⟩ := hall
    intro s
    cases s <;> assumption
  · intro h
    rw [h, h, h, h, h, h, h, h]
    rfl

/-- Settings are refused when a check fails, and then with the faults of all checks. -/
theorem check_eq_error_iff {faults : List SettingFault} :
    check chosen = .error faults ↔
      (∃ s : Setting, ¬ s.Passes (chosen s)) ∧
        faults = Setting.all.flatMap fun s => faultsOf (s.settle (chosen s)) := by
  by_cases hall : ∀ s : Setting, s.Passes (chosen s)
  · have hok : ∃ settings, check chosen = .ok settings := by
      choose value hvalue using hall
      refine ⟨⟨value .tokenGlob, value .ignorePatterns, value .imageExtensions,
        value .requireSentinel, value .maxWorkers, value .outputFilename, value .logLevel,
        value .logFormat⟩,
        check_eq_ok_iff.mpr fun s => ?_⟩
      cases s <;> exact hvalue _
    obtain ⟨settings, hsettings⟩ := hok
    simp [hsettings, hall]
  · have hexists : ∃ s : Setting, ¬ s.Passes (chosen s) := not_forall.mp hall
    have hfails : ∀ settings, check chosen ≠ .ok settings := fun settings h =>
      hall fun s => ⟨_, check_eq_ok_iff.mp h s⟩
    cases hresult : check chosen with
    | ok settings => exact absurd hresult (hfails settings)
    | error found =>
        rw [check_eq] at hresult
        obtain ⟨-, -, rfl⟩ := exists_of_mapError_eq_error hresult
        simp only [hexists, true_and, Except.error.injEq]
        exact eq_comm

/-- The faults of a setting are those that its own check finds. -/
theorem filter_of_check {faults : List SettingFault} (h : check chosen = .error faults)
    (s : Setting) :
    faults.filter (·.setting = s) = faultsOf (s.settle (chosen s)) := by
  rw [(check_eq_error_iff.mp h).2]
  exact filter_faults chosen s

/-- The faults tell of the settings that fail, and of no others. -/
theorem told_of_check {faults : List SettingFault} (h : check chosen = .error faults)
    (s : Setting) :
    (∃ fault ∈ faults, fault.setting = s) ↔ ¬ s.Passes (chosen s) := by
  rw [Setting.Passes, ← (s.settle_blames _).faultsOf_eq_nil_iff, ← filter_of_check h,
    List.filter_eq_nil_iff, not_forall]
  simp only [decide_eq_true_eq, Classical.not_imp, not_not]

theorem exists_check_iff :
    (∃ settings, check chosen = .ok settings) ↔ ∀ s : Setting, s.Passes (chosen s) := by
  cases hresult : check chosen with
  | ok settings =>
      simp only [Except.ok.injEq, exists_eq', true_iff]
      exact fun s => ⟨_, check_eq_ok_iff.mp hresult s⟩
  | error faults => simpa using (check_eq_error_iff.mp hresult).1

end Settings

end TokenCatalog
