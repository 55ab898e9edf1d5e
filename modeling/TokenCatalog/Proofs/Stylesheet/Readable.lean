import TokenCatalog.Proofs.Stylesheet.LexicalScope
import TokenCatalog.Proofs.Value.Overflow

/-!
# When values are classified and stylesheets read

A stylesheet without a fault in its tree is read unless one of its values cannot be classified, and
a value can be classified unless a color in it overflows. Main statements:

* `parseFile_ok_iff`: a stylesheet without faults is read exactly if its values are classified;
* `classify_returns`: all that keeps a value from being classified, or a stylesheet without faults
  from being read, is a color function with a number of extreme size in it.
-/

namespace TokenCatalog.Stylesheet

open TokenCatalog.Css (Node Within)
open TokenCatalog.Value (classify bareText Calm Overflows Extreme)

/-- A value holds a color function that overflows, and thus a number of extreme size. -/
def HoldsOverflow (raw : List Char) : Prop :=
  ∃ node, Within node (Css.parse (bareText raw)) ∧ Overflows node ∧ Extreme node

theorem calm_of_not_holdsOverflow {raw : List Char} (h : ¬ HoldsOverflow raw) :
    Calm (Css.parse (bareText raw)) :=
  fun node hnode hoverflows =>
    h ⟨node, hnode, hoverflows, Value.extreme_of_overflows hoverflows⟩

/-- A stylesheet without faults is read exactly if each value it declares in a scope or outside is
classified. -/
theorem parseFile_ok_iff {dialect : Dialect} {file : SourceFile} {text : List Char}
    (htext : file.text = .ok text) (hsound : Css.firstFault? (nodesOf dialect text) = none) :
    (∃ found, parseFile dialect file = .ok found) ↔
      ∀ site ∈ sites dialect text, ∃ c,
        classify site.declaration.value (some (site.name dialect)) = .ok c := by
  have hparse : parseFile dialect file =
      (findings dialect file.filename text).map (·.toExtraction dialect.sourceType) := by
    rw [parseFile, htext]
  rw [hparse, ← findings_eq_ok_iff hsound]
  constructor
  · rintro ⟨extraction, h⟩
    obtain ⟨found, hfound, -⟩ := exists_of_map_eq_ok h
    exact ⟨found, hfound⟩
  · rintro ⟨found, hfound⟩
    exact ⟨found.toExtraction dialect.sourceType, by rw [hfound]; rfl⟩

/-- **Classification returns unless a color overflows.** A value that is not classified holds a
color function whose channels are beyond the end of the number format, and in it a number of more
than ten to the power of 150; whatever else a value holds, it is classified. A value that is nothing
but such a function is in fact not classified. A stylesheet without a fault in its tree is read
unless one of its values holds such a function. -/
theorem classify_returns (raw : List Char) (name : Option (List Char)) (dialect : Dialect)
    (file : SourceFile) (text : List Char) :
    ((∃ c, classify raw name = .ok c) ∨ HoldsOverflow raw) ∧
    (∀ node, Css.parseOne? (bareText raw) = some node → '(' ∈ bareText raw → Overflows node →
      ∃ fault, classify raw name = .error fault) ∧
    (file.text = .ok text → Css.firstFault? (nodesOf dialect text) = none →
      (∃ found, parseFile dialect file = .ok found) ∨
        ∃ site ∈ sites dialect text, HoldsOverflow site.declaration.value) := by
  refine ⟨?_, fun node hone hbracket hoverflows => ?_, fun htext hsound => ?_⟩
  · by_cases h : HoldsOverflow raw
    · exact .inr h
    · exact .inl ((calm_of_not_holdsOverflow h).classify_ok name)
  · exact Value.classify_overflows hone hbracket hoverflows name
  · by_cases h : ∃ site ∈ sites dialect text, HoldsOverflow site.declaration.value
    · exact .inr h
    · refine .inl ((parseFile_ok_iff htext hsound).mpr fun site hsite => ?_)
      exact (calm_of_not_holdsOverflow fun hholds => h ⟨site, hsite, hholds⟩).classify_ok _

/-- A color with a percentage beyond the end of the number format. -/
def extremePercentage : List Char := "rgb(1e999%, 0%, 0%)".toList

def extremeSheet : List Char := "p \x7b width: rgb(1e999%, 0%, 0%) \x7d".toList

theorem classify_returns_extremePercentage :
    (∃ fault, classify extremePercentage none = .error fault) ∧ HoldsOverflow extremePercentage ∧
      Css.firstFault? (nodesOf css extremeSheet) = none ∧
      (¬ ∃ found, parseFile css ⟨"a.css", .text (String.ofList extremeSheet)⟩ = .ok found) ∧
      ∃ site ∈ sites css extremeSheet, HoldsOverflow site.declaration.value := by
  have hbare : bareText extremePercentage = extremePercentage := by decide +kernel
  have hbracket : '(' ∈ bareText extremePercentage := by decide +kernel
  have hcolor : Css.color? extremePercentage =
      .ok (some (.concrete ⟨.infinite false, .zero, .zero, .one⟩)) := by
    decide +kernel
  obtain ⟨node, hone⟩ : ∃ node, Css.parseOne? extremePercentage = some node :=
    Option.isSome_iff_exists.mp (by decide +kernel)
  have hnode : node.color? = Css.color? extremePercentage := by
    rw [Css.color?, hone]
  have hoverflows : Overflows node :=
    .inr ⟨_, .infinite, hnode.trans hcolor, by decide +kernel, by decide +kernel⟩
  rw [← hbare] at hone
  have hreturns := fun name => classify_returns extremePercentage name css
    ⟨"a.css", .text (String.ofList extremeSheet)⟩ extremeSheet
  have hrefused : ∀ name, ∃ fault, classify extremePercentage name = .error fault := fun name =>
    (hreturns name).2.1 node hone hbracket hoverflows
  have hsound : Css.firstFault? (nodesOf css extremeSheet) = none := by decide +kernel
  have htext : (⟨"a.css", .text (String.ofList extremeSheet)⟩ : SourceFile).text =
      .ok extremeSheet :=
    congrArg Except.ok String.toList_ofList
  have hsites : (sites css extremeSheet).map (·.declaration.value) = [extremePercentage] := by
    decide +kernel
  have hunread : ¬ ∃ found, parseFile css ⟨"a.css", .text (String.ofList extremeSheet)⟩ =
      .ok found := by
    intro hread
    obtain ⟨site, hsite, hvalue⟩ := List.mem_map.mp (hsites ▸ List.mem_singleton_self _)
    obtain ⟨c, hc⟩ := (parseFile_ok_iff htext hsound).mp hread site hsite
    obtain ⟨fault, hfault⟩ := hrefused (some (site.name css))
    rw [hvalue, hfault] at hc
    cases hc
  refine ⟨hrefused none, ?_, hsound, hunread, ?_⟩
  · refine (hreturns none).1.resolve_left ?_
    rintro ⟨c, hc⟩
    obtain ⟨fault, hfault⟩ := hrefused none
    cases hc.symm.trans hfault
  · exact ((hreturns none).2.2 htext hsound).resolve_left hunread

end TokenCatalog.Stylesheet
