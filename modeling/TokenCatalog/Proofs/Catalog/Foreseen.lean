import TokenCatalog.Proofs.Catalog.Described

/-!
# How reading can fail

Reading a part of a catalog asks a value for members, items, words and tables, and any value may
stand anywhere. One fault stands apart: a value other than an object is asked for a member that may
be absent. No part is read so, since each is first asked for a member that it must have. Main
statements:

* `ShapeFault.mistake?`: the three kinds of mistakes in a document, and the fault that is none;
* `Foreseen`: a reading that fails by such a mistake only, kept by every step (`Foreseen.bind`);
* `Token.ofJson_foreseen`, and the same for each part of a catalog and for merging.
-/

namespace TokenCatalog

/-- What can be wrong in a document. -/
inductive Mistake where
  | missingMember
  /-- A value is of a type that cannot be used where it stands. -/
  | wrongType
  /-- A value is of a type that can be used there, but it is none of the allowed ones. -/
  | wrongValue
  deriving DecidableEq, Repr

/-- The mistake that a fault tells of, if it is one in the document. -/
def ShapeFault.mistake? : ShapeFault → Option Mistake
  | missing _ => some .missingMember
  | notMember _ _ => some .wrongValue
  | noMembers _ => some .wrongType
  | noLookup _ => none
  | noItems _ => some .wrongType
  | notPair _ _ => some .wrongValue
  | noPair _ => some .wrongType
  | notKey _ => some .wrongType
  | notText _ _ => some .wrongType

/-- A reading that gives a value, or fails by a mistake in the document. -/
def Foreseen {α : Type} (x : Except ShapeFault α) : Prop :=
  ∀ fault, x = .error fault → ∃ mistake, fault.mistake? = some mistake

variable {α β : Type}

/-! ## Steps -/

theorem Foreseen.ok (a : α) : Foreseen (.ok a) := by
  intro fault h
  cases h

theorem Foreseen.error {fault : ShapeFault} {mistake : Mistake}
    (h : fault.mistake? = some mistake) : Foreseen (.error fault : Except ShapeFault α) := by
  rintro _ ⟨⟩
  exact ⟨mistake, h⟩

theorem Foreseen.bind {x : Except ShapeFault α} {f : α → Except ShapeFault β} (hx : Foreseen x)
    (hf : ∀ a, x = .ok a → Foreseen (f a)) : Foreseen (x >>= f) := by
  cases hresult : x with
  | error fault =>
      obtain ⟨mistake, hmistake⟩ := hx fault hresult
      exact .error hmistake
  | ok a => exact hf a hresult

theorem Foreseen.map {x : Except ShapeFault α} (hx : Foreseen x) (f : α → β) :
    Foreseen (x.map f) := by
  intro fault h
  exact hx fault (eq_error_of_map h)

theorem Foreseen.mapM {f : α → Except ShapeFault β} {xs : List α} (h : ∀ x ∈ xs, Foreseen (f x)) :
    Foreseen (xs.mapM f) := by
  induction xs with
  | nil => exact .ok []
  | cons x xs ih =>
      obtain ⟨hx, hxs⟩ := List.forall_mem_cons.mp h
      rw [List.mapM_cons]
      exact hx.bind fun y _ => (ih hxs).bind fun ys _ => .ok (y :: ys)

/-! ## Members, words and tables -/

theorem need_foreseen (name : String) (data : Json) : Foreseen (data.need name) := by
  cases data with
  | obj members =>
      rw [Json.need]
      cases member? name members with
      | none => exact .error rfl
      | some value => exact .ok value
  | _ => exact .error rfl

/-- What has members can always be asked for one that may be absent. -/
theorem getOr_bind {data : Json} (h : data.HasMembers) (name : String) (fallback : Json)
    (f : Json → Except ShapeFault β) :
    (data.getOr name fallback >>= f) = f ((data.get? name).getD fallback) := by
  obtain ⟨members, rfl⟩ := h
  rfl

theorem member_foreseen (enumeration : String) (ofWord? : String → Option α) (value : Json) :
    Foreseen (value.member enumeration ofWord?) := by
  cases value with
  | str s =>
      rw [Json.member]
      cases ofWord? s with
      | none => exact .error rfl
      | some x => exact .ok x
  | _ => exact .error rfl

theorem items_foreseen (value : Json) : Foreseen value.items := by
  rw [Json.items]
  cases value.items? with
  | none => exact .error rfl
  | some items => exact .ok items

theorem entry_foreseen (index : Nat) (value : Json) : Foreseen (value.entry index) := by
  unfold Json.entry
  split
  · exact .error rfl
  · split
    · exact .ok _
    · exact .error rfl
  · exact .error rfl

theorem table_foreseen (value : Json) : Foreseen value.table := by
  by_cases h : value.HasMembers
  · obtain ⟨members, rfl⟩ := h
    exact .ok members
  · rw [table_of_not_object h]
    refine (items_foreseen value).bind fun items _ => ?_
    refine Foreseen.bind (.mapM fun item _ => entry_foreseen _ _) fun entries _ => ?_
    exact .ok _

/-! ## Parts of a catalog -/

theorem SourceLocation.ofJson_foreseen (data : Json) : Foreseen (SourceLocation.ofJson data) := by
  refine (need_foreseen _ _).bind fun filename hfilename => ?_
  have hmembers := hasMembers_of_get? (need_eq_ok_iff.mp hfilename)
  simp only [getOr_bind hmembers]
  exact .ok _

/-- **A token is read or there is a mistake in the document**, whatever stands in the place of a
token or of any of its fields. -/
theorem Token.ofJson_foreseen (data : Json) : Foreseen (Token.ofJson data) := by
  refine (need_foreseen _ _).bind fun name hname => ?_
  have hmembers := hasMembers_of_get? (need_eq_ok_iff.mp hname)
  simp only [getOr_bind hmembers]
  refine (need_foreseen _ _).bind fun value _ => ?_
  refine (member_foreseen _ _ _).bind fun kind _ => ?_
  refine (table_foreseen _).bind fun metadata _ => ?_
  exact .ok _

theorem TokenGroup.ofJson_foreseen (data : Json) : Foreseen (TokenGroup.ofJson data) := by
  refine (need_foreseen _ _).bind fun word hword => ?_
  have hmembers := hasMembers_of_get? (need_eq_ok_iff.mp hword)
  simp only [getOr_bind hmembers]
  refine (member_foreseen _ _ _).bind fun type _ => ?_
  refine (items_foreseen _).bind fun items _ => ?_
  refine Foreseen.bind (.mapM fun item _ => Token.ofJson_foreseen item) fun tokens _ => ?_
  exact .ok _

theorem HardCodedValue.ofJson_foreseen (data : Json) : Foreseen (HardCodedValue.ofJson data) := by
  refine (need_foreseen _ _).bind fun value hvalue => ?_
  have hmembers := hasMembers_of_get? (need_eq_ok_iff.mp hvalue)
  simp only [getOr_bind hmembers]
  refine (need_foreseen _ _).bind fun word _ => ?_
  refine (member_foreseen _ _ _).bind fun kind _ => ?_
  refine (need_foreseen _ _).bind fun place _ => ?_
  refine (SourceLocation.ofJson_foreseen place).bind fun location _ => ?_
  exact .ok _

/-- A catalog has no member that it must have, so that only objects can be asked for one. -/
theorem Catalog.ofJson_foreseen {data : Json} (h : data.HasMembers) :
    Foreseen (Catalog.ofJson data) := by
  unfold Catalog.ofJson
  simp only [getOr_bind h]
  refine (items_foreseen _).bind fun groups _ => ?_
  refine Foreseen.bind (.mapM fun item _ => TokenGroup.ofJson_foreseen item) fun tokenGroups _ => ?_
  refine (items_foreseen _).bind fun values _ => ?_
  refine Foreseen.bind (.mapM fun item _ => HardCodedValue.ofJson_foreseen item)
    fun hardCodedValues _ => ?_
  exact .ok _

theorem Extraction.ofJson_foreseen (type : SourceType) {data : Json} (h : data.HasMembers) :
    Foreseen (Extraction.ofJson (some type) data) :=
  (Catalog.ofJson_foreseen h).bind fun _ _ => .ok _

theorem mergeChecked_foreseen (extractions : List Extraction) :
    Foreseen (mergeChecked extractions) := by
  unfold mergeChecked
  split
  · next fault _ =>
      cases fault with
      | name value => exact .error rfl
      | keyframes index value => exact .error rfl
  · exact .ok _

end TokenCatalog
