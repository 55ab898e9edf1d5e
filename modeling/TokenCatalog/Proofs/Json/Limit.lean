import TokenCatalog.Json.Read

/-!
# Reading with a limit

A limit to the digits of whole numbers changes nothing of what is read, except that a text may be
refused for it. Main statements:

* `Json.readLimited_agrees`: a text is read as it is without the limit, or refused for a number that
  has too many digits.
-/

namespace TokenCatalog

/-- A result with a limit: the one without, or a fault for a number of too many digits. -/
def AgreesUpTo (most : Nat) {α : Type} (free within : Except JsonFault α) : Prop :=
  within = free ∨ ∃ count left, most < count ∧ within = .error ⟨.digits count most, left⟩

variable {most : Nat} {α β : Type}

theorem AgreesUpTo.refl (r : Except JsonFault α) : AgreesUpTo most r r := .inl rfl

theorem AgreesUpTo.bind {r r' : Except JsonFault α} (h : AgreesUpTo most r r')
    {f f' : α → Except JsonFault β} (hf : ∀ a, AgreesUpTo most (f a) (f' a)) :
    AgreesUpTo most (r >>= f) (r' >>= f') := by
  rcases h with rfl | ⟨count, left, hcount, rfl⟩
  · cases r' with
    | error fault => exact .inl rfl
    | ok a => exact hf a
  · exact .inr ⟨count, left, hcount, rfl⟩

theorem limited_agrees (left : Nat) (value : Json) :
    AgreesUpTo most (limited none left value) (limited (some most) left value) := by
  cases value with
  | int n =>
      dsimp only [limited]
      split
      · next hlong => exact .inr ⟨_, left, hlong, rfl⟩
      · exact .inl rfl
  | _ => exact .inl rfl

theorem read_agrees (most : Nat) (fuel : Nat) :
    (∀ cs, AgreesUpTo most (readValue none fuel cs) (readValue (some most) fuel cs)) ∧
    (∀ cs, AgreesUpTo most (readItems none fuel cs) (readItems (some most) fuel cs)) ∧
    (∀ cs, AgreesUpTo most (readMembers none fuel cs) (readMembers (some most) fuel cs)) := by
  induction fuel with
  | zero => exact ⟨fun _ => .inl rfl, fun _ => .inl rfl, fun _ => .inl rfl⟩
  | succ fuel ih =>
      obtain ⟨hvalue, hitems, hmembers⟩ := ih
      -- only scalars ask for the limit; the rest hands on what the two readings agree upon
      refine ⟨fun cs => ?_, fun cs => ?_, fun cs => ?_⟩
      · unfold readValue
        split
        · exact .inl rfl
        · exact .inl rfl
        · next heq =>
            cases heq
            split
            · exact .inl rfl
            · exact (hitems _).bind fun _ => .inl rfl
        · next heq =>
            cases heq
            split
            · exact .inl rfl
            · exact (hmembers _).bind fun _ => .inl rfl
        · split
          · exact (limited_agrees _ _).bind fun _ => .inl rfl
          · exact .inl rfl
      · unfold readItems
        refine (hvalue cs).bind fun a => ?_
        dsimp only
        split
        · exact .inl rfl
        · exact (hitems _).bind fun _ => .inl rfl
        · exact .inl rfl
      · unfold readMembers
        split
        · exact .inl rfl
        · next heq =>
            cases heq
            refine (AgreesUpTo.refl _).bind fun a => ?_
            dsimp only
            split
            · refine (hvalue _).bind fun b => ?_
              split
              · exact .inl rfl
              · exact (hmembers _).bind fun _ => .inl rfl
              · exact .inl rfl
            · exact .inl rfl
        · exact .inl rfl

/-- **A limit to the digits of numbers** changes nothing unless it is what a text is refused for. -/
theorem Json.readLimited_agrees (most : Nat) (cs : List Char) :
    AgreesUpTo most (Json.read cs) (Json.readLimited (some most) cs) := by
  unfold Json.read Json.readLimited
  split
  · exact .inl rfl
  · refine ((read_agrees most _).1 _).bind fun a => ?_
    exact .inl rfl

end TokenCatalog
