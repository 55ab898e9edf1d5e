import TokenCatalog.Extraction.Parser
import TokenCatalog.Proofs.Bytes.WellFormed

/-!
# Text and byte contents

A parser sees a file's content through its text or through its bytes, so a text can be given as its
bytes, with or without a byte order mark where the parser reads text. Main statements:

* `dropMark_encode`: only a text that begins with a mark loses one;
* `parseFile_congr`: files with one name, one text and one row of bytes are parsed alike;
* `refusesContent_iff`: bytes are refused as no text exactly if they are not well formed;
* `contents_interchangeable`: all of this, for every parser.
-/

namespace TokenCatalog

namespace Utf8

/-- The byte order mark. -/
def mark : List UInt8 := [0xEF, 0xBB, 0xBF]

theorem dropMark_mark (bytes : List UInt8) : dropMark (mark ++ bytes) = bytes :=
  rfl

/-- Bytes without a mark in front stay as they are. -/
theorem dropMark_of_not_isPrefix {bytes : List UInt8} (h : ¬ mark <+: bytes) :
    dropMark bytes = bytes := by
  unfold dropMark
  split
  · next bytes => exact absurd ⟨bytes, rfl⟩ h
  · rfl

/-- The bytes of a text begin with the mark exactly if the text does. -/
theorem mark_isPrefix_encode {cs : List Char} (h : mark <+: encode cs) :
    cs.head? = some '\ufeff' := by
  obtain ⟨bytes, hbytes⟩ := h
  have hmark : step 0xEF (0xBB :: 0xBF :: bytes) = .char '\ufeff' bytes := rfl
  cases cs with
  | nil => cases hbytes
  | cons c cs =>
      obtain ⟨lead, more, hencode, hstep⟩ := step_encodeChar c
      have hhead : (0xEF : UInt8) :: 0xBB :: 0xBF :: bytes = lead :: (more ++ encode cs) := by
        rw [← List.cons_append, ← hencode]
        exact hbytes
      obtain ⟨rfl, htail⟩ := List.cons.inj hhead
      rw [htail, hstep] at hmark
      cases hmark
      rfl

theorem dropMark_encode {cs : List Char} (h : cs.head? ≠ some '\ufeff') :
    dropMark (encode cs) = encode cs :=
  dropMark_of_not_isPrefix (mt mark_isPrefix_encode h)

end Utf8

namespace SourceFile

theorem text_bytes (filename : String) (bytes : List UInt8) :
    (SourceFile.mk filename (.bytes bytes)).text = Utf8.decode (Utf8.dropMark bytes) :=
  rfl

/-- A text that begins with no mark is read from its bytes. -/
theorem text_encode {s : String} (h : s.toList.head? ≠ some '\ufeff') (filename : String) :
    (SourceFile.mk filename (.bytes (Utf8.encode s.toList))).text =
      (SourceFile.mk filename (.text s)).text := by
  rw [text_bytes, Utf8.dropMark_encode h, Utf8.decode_encode]
  rfl

/-- Any text is read from its bytes behind a mark. -/
theorem text_mark_encode (filename s : String) :
    (SourceFile.mk filename (.bytes (Utf8.mark ++ Utf8.encode s.toList))).text =
      (SourceFile.mk filename (.text s)).text := by
  rw [text_bytes, Utf8.dropMark_mark, Utf8.decode_encode]
  rfl

end SourceFile

namespace Parser

/-- Whether a parser reads text; the others read bytes. -/
def ReadsText : Parser → Prop
  | stylesheets _ => True
  | icons => True
  | images _ => False

inductive Undecodable : ParseFault → Prop
  | stylesheet (fault : Utf8.Fault) : Undecodable (.stylesheet (.undecodable fault))
  | icons (fault : Utf8.Fault) : Undecodable (.icons (.undecodable fault))

/-- A parser refuses a file because its content is no text. -/
def RefusesContent [Image.Decoder] (p : Parser) (file : SourceFile) : Prop :=
  ∃ fault, p.parseFile file = .error fault ∧ Undecodable fault

variable {p : Parser} {file file' : SourceFile}

/-- A parser of text sees no more of a content than its text. -/
theorem parseFile_congr_text [Image.Decoder] (hreads : p.ReadsText)
    (hname : file.filename = file'.filename)
    (htext : file.text = file'.text) : p.parseFile file = p.parseFile file' := by
  cases p with
  | stylesheets dialect =>
      simp only [parseFile, Stylesheet.parseFile]
      rw [hname, htext]
  | icons =>
      simp only [parseFile, Icon.parseFile]
      rw [hname, htext]
  | images extensions => exact hreads.elim

/-- A parser of images sees no more of it than its bytes. -/
theorem parseFile_congr [Image.Decoder] (hname : file.filename = file'.filename)
    (htext : file.text = file'.text)
    (hdata : file.data = file'.data) : p.parseFile file = p.parseFile file' := by
  cases p with
  | stylesheets dialect => exact parseFile_congr_text trivial hname htext
  | icons => exact parseFile_congr_text trivial hname htext
  | images extensions =>
      simp only [parseFile, Image.parseFile, Image.parseFileBy, Image.tokenOf, SourceFile.basename]
      rw [hname, hdata]

/-- **Content is refused exactly if it has no text.** -/
theorem refusesContent_iff [Image.Decoder] (hreads : p.ReadsText) :
    p.RefusesContent file ↔ ∃ fault, file.text = .error fault := by
  cases htext : file.text with
  | error fault =>
      refine iff_of_true ?_ ⟨fault, rfl⟩
      cases p with
      | stylesheets dialect =>
          refine ⟨_, ?_, .stylesheet fault⟩
          simp only [parseFile, Stylesheet.parseFile, htext]
          rfl
      | icons =>
          refine ⟨_, ?_, .icons fault⟩
          simp only [parseFile, Icon.parseFile, htext]
          rfl
      | images extensions => exact hreads.elim
  | ok text =>
      -- a content that is text can still be refused, but for another reason
      refine iff_of_false ?_ nofun
      rintro ⟨fault, hfault, hundecodable⟩
      cases p with
      | stylesheets dialect =>
          obtain ⟨inner, hinner, rfl⟩ := exists_of_mapError_eq_error hfault
          cases hundecodable with
          | stylesheet fault =>
              simp only [Stylesheet.parseFile, htext] at hinner
              have hfindings := eq_error_of_map hinner
              unfold Stylesheet.findings at hfindings
              dsimp only at hfindings
              split at hfindings
              · cases hfindings
              · split at hfindings <;> cases hfindings
      | icons =>
          obtain ⟨inner, hinner, rfl⟩ := exists_of_mapError_eq_error hfault
          cases hundecodable with
          | icons fault =>
              simp only [Icon.parseFile, htext] at hinner
              rcases bind_eq_error_iff.mp hinner with htext | ⟨text', -, hinner⟩
              · cases htext
              rcases bind_eq_error_iff.mp hinner with hicons | ⟨found, -, hinner⟩
              · obtain ⟨rejected, -, hrejected⟩ := exists_of_mapError_eq_error hicons
                cases hrejected
              · split at hinner <;> cases hinner
      | images extensions => exact hreads.elim

/-- **Text and byte contents are interchangeable.** A file with a text that does not begin with a
byte order mark is parsed like one with the bytes of that text, with the same result or the same
fault; a parser of stylesheets or icons also takes the bytes of any text behind one mark for that
text. Such a parser refuses bytes as no text exactly if they are not well formed once one leading
mark is removed. -/
theorem contents_interchangeable [Image.Decoder] (p : Parser) (filename : String) :
    (∀ s : String, s.toList.head? ≠ some '\ufeff' →
      p.parseFile ⟨filename, .bytes (Utf8.encode s.toList)⟩ = p.parseFile ⟨filename, .text s⟩) ∧
    (p.ReadsText →
      (∀ s : String, p.parseFile ⟨filename, .bytes (Utf8.mark ++ Utf8.encode s.toList)⟩ =
        p.parseFile ⟨filename, .text s⟩) ∧
      ∀ bytes, p.RefusesContent ⟨filename, .bytes bytes⟩ ↔
        ¬ Utf8.WellFormed (Utf8.dropMark bytes)) := by
  refine ⟨fun s hs => ?_, fun hreads => ⟨fun s => ?_, fun bytes => ?_⟩⟩
  · exact parseFile_congr rfl (SourceFile.text_encode hs filename) rfl
  · exact parseFile_congr_text hreads rfl (SourceFile.text_mark_encode filename s)
  · rw [refusesContent_iff hreads, SourceFile.text_bytes, ← Utf8.exists_decode_iff]
    cases Utf8.decode (Utf8.dropMark bytes) with
    | error fault => simp
    | ok text => simp

/-- The bytes of NUL in two bytes, which is one more than it needs, behind a mark. -/
def overlongNul : List UInt8 := [0xEF, 0xBB, 0xBF, 0xC0, 0x80]

theorem contents_interchangeable_overlongNul :
    let sheet := "p \x7b --a: 'é😀' \x7d"
    let p := stylesheets Stylesheet.css
    sheet.toList.head? ≠ some '\ufeff' ∧ p.ReadsText ∧
      p.parseFile ⟨"a.css", .bytes (Utf8.encode sheet.toList)⟩ =
        p.parseFile ⟨"a.css", .text sheet⟩ ∧
      p.parseFile ⟨"a.css", .bytes (Utf8.mark ++ Utf8.encode sheet.toList)⟩ =
        p.parseFile ⟨"a.css", .text sheet⟩ ∧
      ¬ Utf8.WellFormed (Utf8.dropMark overlongNul) ∧
      p.RefusesContent ⟨"a.css", .bytes overlongNul⟩ := by
  intro sheet p
  have hmark : sheet.toList.head? ≠ some '\ufeff' := by decide
  have hreads : p.ReadsText := trivial
  have hdecode : Utf8.decode (Utf8.dropMark overlongNul) = .error ⟨0, 0xC0, 1, .startByte⟩ := by
    cbv
  have hmalformed : ¬ Utf8.WellFormed (Utf8.dropMark overlongNul) := by
    rw [← Utf8.exists_decode_iff, hdecode]
    simp
  obtain ⟨hunmarked, htexts⟩ := contents_interchangeable p "a.css"
  obtain ⟨hmarked, hrefused⟩ := htexts hreads
  exact ⟨hmark, hreads, hunmarked sheet hmark, hmarked sheet, hmalformed,
    (hrefused overlongNul).mpr hmalformed⟩

end Parser

end TokenCatalog
