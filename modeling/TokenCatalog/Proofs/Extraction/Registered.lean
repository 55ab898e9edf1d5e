import Mathlib.Data.List.Basic
import TokenCatalog.Extraction.Registry

/-!
# Registration never disturbs earlier parsers

A registry may hold several parsers of one source type, parsers that handle the same names, and even
equal parsers, so a parser is known by its place alone. A run is described by the places: each file
goes to the first place that handles its name, and each place combines its own files. Main
statements:

* `run_eq_mapIdx`: a run gives one result per place, from the files assigned to it;
* `assigned_perm`: the places share out the files that some parser handles, none lost and none
  twice;
* `run_register`: one more parser adds a result from what the others leave, and changes none of
  theirs;
* `run_registered`: all of this, for every sequence of registrations.
-/

namespace TokenCatalog.Registry

/-- The files that go to the parser at a place, in their order. -/
def assigned (registry : Registry) (i : Nat) (files : List SourceFile) : List SourceFile :=
  files.filter fun file => registry.place? file.filename = some i

/-- The files that no parser handles. -/
def unhandled (registry : Registry) (files : List SourceFile) : List SourceFile :=
  files.filter fun file => !registry.any (·.handles file.filename)

theorem foldl_register (registry parsers : Registry) :
    parsers.foldl register registry = registry ++ parsers := by
  induction parsers generalizing registry with
  | nil => exact (List.append_nil registry).symm
  | cons p ps ih =>
      rw [List.foldl_cons, ih]
      exact List.append_assoc registry [p] ps

/-! ## Places -/

theorem place?_cons (p : Parser) (ps : Registry) (filename : String) :
    place? (p :: ps) filename =
      if p.handles filename then some 0 else (place? ps filename).map (· + 1) :=
  List.findIdx?_cons

/-- The place of a name is the earliest whose parser handles it. -/
theorem place?_eq_some_iff {registry : Registry} {filename : String} {i : Nat} :
    registry.place? filename = some i ↔
      ∃ p, registry[i]? = some p ∧ p.handles filename = true ∧
        ∀ j < i, ∀ q, registry[j]? = some q → q.handles filename = false := by
  rw [place?, List.findIdx?_eq_some_iff_getElem]
  constructor
  · rintro ⟨hi, hhandles, hearlier⟩
    refine ⟨registry[i], List.getElem?_eq_getElem hi, hhandles, ?_⟩
    intro j hj q hq
    obtain ⟨hlt, rfl⟩ := List.getElem?_eq_some_iff.mp hq
    exact eq_false_of_ne_true (hearlier j hj)
  · rintro ⟨p, hp, hhandles, hearlier⟩
    obtain ⟨hi, rfl⟩ := List.getElem?_eq_some_iff.mp hp
    refine ⟨hi, hhandles, ?_⟩
    intro j hj
    have hnot := hearlier j hj _ (List.getElem?_eq_getElem (Nat.lt_trans hj hi))
    exact ne_true_of_eq_false hnot

theorem parser?_eq_place? (registry : Registry) (filename : String) :
    registry.parser? filename = (registry.place? filename).bind (registry[·]?) := by
  rw [parser?, place?, List.find?_eq_bind_findIdx?_getElem?]

theorem assigned_zero (p : Parser) (ps : Registry) (files : List SourceFile) :
    assigned (p :: ps) 0 files = p.own files := by
  refine List.filter_congr fun file _ => ?_
  rw [place?_cons]
  cases p.handles file.filename <;> simp

/-- A later place sees only what the first parser leaves. -/
theorem assigned_succ (p : Parser) (ps : Registry) (i : Nat) (files : List SourceFile) :
    assigned (p :: ps) (i + 1) files =
      assigned ps i (files.filter fun file => !p.handles file.filename) := by
  rw [assigned, assigned, List.filter_filter]
  refine List.filter_congr fun file _ => ?_
  rw [place?_cons]
  cases p.handles file.filename <;> simp

/-! ## Runs -/

/-- What is extracted for a place comes from the files assigned to it. -/
theorem extracted_at [Image.Decoder] {registry : Registry} {i : Nat} {p : Parser}
    (hp : registry[i]? = some p) (files : List SourceFile) :
    ((registry.extracted files).filter (·.1 = i)).map (·.2) =
      (registry.assigned i files).map p.extract := by
  induction files with
  | nil => rfl
  | cons file files ih =>
      rw [extracted, assigned] at ih ⊢
      rw [List.filterMap_cons, parser?_eq_place?]
      cases hplace : registry.place? file.filename with
      | none => simpa [hplace] using ih
      | some j =>
          obtain ⟨q, hq, -⟩ := place?_eq_some_iff.mp hplace
          by_cases hij : j = i
          · subst hij
            obtain rfl := Option.some.inj (hp.symm.trans hq)
            simpa [hplace, hq] using ih
          · simpa [hplace, hq, hij] using ih

/-- **A run gives one result per place**, combined from the files of that place in their order. -/
theorem run_eq_mapIdx [Image.Decoder] (registry : Registry) (files : List SourceFile) :
    registry.run files =
      registry.mapIdx fun i p => p.combine ((registry.assigned i files).map p.extract) := by
  refine List.ext_getElem? fun i => ?_
  rw [run, List.getElem?_mapIdx, List.getElem?_mapIdx]
  cases hp : registry[i]? with
  | none => rfl
  | some p => exact congrArg (some ∘ p.combine) (extracted_at hp files)

@[simp] theorem run_nil [Image.Decoder] (files : List SourceFile) : run [] files = [] := rfl

/-- The first parser reads its own files and leaves the others to the rest. -/
theorem run_cons [Image.Decoder] (p : Parser) (ps : Registry) (files : List SourceFile) :
    run (p :: ps) files =
      p.parse files :: run ps (files.filter fun file => !p.handles file.filename) := by
  rw [run_eq_mapIdx, run_eq_mapIdx, List.mapIdx_cons, assigned_zero]
  simp only [assigned_succ]
  rfl

/-- **No file that a parser handles is lost, and none is shared out twice.** -/
theorem assigned_perm (registry : Registry) (files : List SourceFile) :
    ((List.range registry.length).flatMap (registry.assigned · files)).Perm
      (files.filter fun file => registry.any (·.handles file.filename)) := by
  induction registry generalizing files with
  | nil => simp
  | cons p ps ih =>
      have hlater : ((List.range ps.length).map (· + 1)).flatMap (assigned (p :: ps) · files) =
          (List.range ps.length).flatMap
            (assigned ps · (files.filter fun file => !p.handles file.filename)) := by
        rw [List.flatMap_map]
        simp only [assigned_succ]
      rw [List.length_cons, List.range_succ_eq_map, List.flatMap_cons, assigned_zero, hlater]
      refine ((ih _).append_left (p.own files)).trans ?_
      -- the first parser's files and what later ones take of the others are all that is handled
      have hsplit := List.filter_append_perm (fun file : SourceFile => p.handles file.filename)
        (files.filter fun file => (p :: ps).any (·.handles file.filename))
      rw [List.filter_filter, List.filter_filter] at hsplit
      refine List.Perm.trans (.of_eq ?_) hsplit
      congr 1
      · refine List.filter_congr fun file _ => ?_
        cases h : p.handles file.filename <;> simp [h]
      · rw [List.filter_filter]
        refine List.filter_congr fun file _ => ?_
        cases h : p.handles file.filename <;> simp [h]

/-- **One more parser gets what the others leave, and their results stay.** -/
theorem run_register [Image.Decoder] (registry : Registry) (p : Parser) (files : List SourceFile) :
    (registry.register p).run files =
      registry.run files ++ [p.parse (registry.unhandled files)] := by
  induction registry generalizing files with
  | nil =>
      have hall : unhandled [] files = files := by simp [unhandled]
      have hone : register [] p = [p] := rfl
      rw [hall, hone, run_cons, run_nil, run_nil, List.nil_append]
  | cons q qs ih =>
      have hleft : unhandled qs (files.filter fun file => !q.handles file.filename) =
          unhandled (q :: qs) files := by
        rw [unhandled, unhandled, List.filter_filter]
        refine List.filter_congr fun file _ => ?_
        rw [List.any_cons, Bool.not_or, Bool.and_comm]
      have hstep := ih (files.filter fun file => !q.handles file.filename)
      rw [hleft] at hstep
      have hcons : (register (q :: qs) p) = q :: register qs p := rfl
      rw [hcons, run_cons, run_cons, hstep, List.cons_append]

/-- **Registering a parser never disturbs earlier ones.** After any sequence of registrations a run
gives one result per parser, in order of registration; the result at a place is what its parser
combines from exactly the files whose name no earlier parser handles and it does, in their order.
Each file that some parser handles is taken once. One more registration leaves all results as they
are and adds one, from files that no earlier parser handles. -/
theorem run_registered [Image.Decoder] (parsers : List Parser) (files : List SourceFile) :
    let registry := parsers.foldl register []
    registry.run files =
        parsers.mapIdx (fun i p => p.combine ((registry.assigned i files).map p.extract)) ∧
      (∀ filename i, registry.place? filename = some i ↔
        ∃ p, parsers[i]? = some p ∧ p.handles filename = true ∧
          ∀ j < i, ∀ q, parsers[j]? = some q → q.handles filename = false) ∧
      (∀ filename, registry.parser? filename = (registry.place? filename).bind (parsers[·]?)) ∧
      ((List.range parsers.length).flatMap (registry.assigned · files)).Perm
        (files.filter fun file => parsers.any (·.handles file.filename)) ∧
      ∀ p : Parser, (registry.register p).run files = registry.run files ++
        [p.combine (((registry.unhandled files).filter fun file =>
          p.handles file.filename).map p.extract)] := by
  intro registry
  have hregistry : registry = parsers := foldl_register [] parsers
  rw [hregistry]
  refine ⟨run_eq_mapIdx parsers files, fun _ _ => place?_eq_some_iff, parser?_eq_place? parsers,
    assigned_perm parsers files, ?_⟩
  intro p
  rw [run_register]
  rfl

end TokenCatalog.Registry
