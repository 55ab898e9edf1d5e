import TokenCatalog.Image.Parse
import TokenCatalog.Proofs.Bytes.Base64
import TokenCatalog.Proofs.Bytes.Utf8
import TokenCatalog.Proofs.Except

/-!
# The bytes of an image

The token of an image holds its bytes as they are, whatever decides which bytes are images. Main
statements:

* `dataUri_injective`: data URIs differ where the bytes do, also where the media types differ;
* `payload_untouched`: what the token of an image holds.
-/

namespace TokenCatalog.Image

/-- A letter of base64 text is no comma. -/
theorem comma_not_mem_encode (bytes : List UInt8) : ',' ∉ Base64.encode bytes := by
  intro hcomma
  obtain ⟨letters, values, marks, htext, -, -, hvalues, -⟩ := Base64.spells_encode bytes
  rw [htext, List.mem_append] at hcomma
  rcases hcomma with hcomma | hcomma
  · have hnone : (none : Option Nat) ∈ letters.map Base64.sextet? :=
      List.mem_map.mpr ⟨',', hcomma, by decide⟩
    simp [hvalues] at hnone
  · exact absurd (List.eq_of_mem_replicate hcomma) (by decide)

theorem toList_dataUri (mediaType : String) (bytes : List UInt8) :
    (dataUri mediaType bytes).toList =
      "data:".toList ++ mediaType.toList ++ ";base64".toList ++ ',' :: Base64.encode bytes := by
  simp [dataUri]

/-- **Different bytes have different data URIs.** The last comma of a data URI is the one in front
of the base64 text. -/
theorem dataUri_injective {mediaType mediaType' : String} {bytes bytes' : List UInt8}
    (h : dataUri mediaType bytes = dataUri mediaType' bytes') : bytes = bytes' := by
  have hlast : ∀ (front : List Char) (bytes : List UInt8),
      (front ++ ',' :: Base64.encode bytes).reverse.takeWhile (· != ',') =
        (Base64.encode bytes).reverse := by
    intro front bytes
    rw [List.reverse_append, List.reverse_cons, List.append_assoc, List.takeWhile_append_of_pos]
    · simp
    · intro c hc
      have hne : c ≠ ',' := fun h => comma_not_mem_encode bytes (h ▸ List.mem_reverse.mp hc)
      simpa using hne
  have htext : Base64.encode bytes = Base64.encode bytes' := by
    have hlists := congrArg String.toList h
    rw [toList_dataUri, toList_dataUri] at hlists
    have hreverse := congrArg (fun cs : List Char => cs.reverse.takeWhile (· != ',')) hlists
    simpa only [hlast, List.reverse_inj] using hreverse
  have hspells := Base64.spells_encode bytes
  rw [htext] at hspells
  exact hspells.unique (Base64.spells_encode bytes')

/-- A file that is read yields one token. -/
theorem parseFileBy_eq_ok_iff {read : List UInt8 → Except Fault Header} {file : SourceFile}
    {found : Extraction} :
    parseFileBy read file = .ok found ↔ ∃ header, read file.data = .ok header ∧
      { sourceType := .image, tokenGroups := [⟨.image, [tokenOf file header]⟩] } = found := by
  constructor
  · exact exists_of_map_eq_ok
  · rintro ⟨header, hheader, rfl⟩
    rw [parseFileBy, hheader]
    rfl

/-- **The token of an image holds its bytes untouched**, whatever reads the headers of images. Where
a file is read, it yields one token. The value of the token is a data URI with the media type of the
format and a text that spells the bytes in base64 and is decoded to them, and the value in the
source is the same. Its metadata give the number of bytes. A file that is a text stands for its
bytes in UTF-8. The tokens of files with different bytes have different values. -/
theorem payload_untouched {read : List UInt8 → Except Fault Header} {file : SourceFile}
    {found : Extraction} (h : parseFileBy read file = .ok found) :
    ∃ (header : Header) (token : Token) (text : List Char), read file.data = .ok header ∧
      found = { sourceType := .image, tokenGroups := [⟨.image, [token]⟩] } ∧
      token.value = .str ("data:" ++ header.format.mediaType ++ ";base64," ++ String.ofList text) ∧
      Base64.Spells text file.data ∧ Base64.decode? text = some file.data ∧
      token.sourceValue = token.value ∧
      member? "size_bytes" token.metadata = some (.int file.data.length) ∧
      (∀ s, file.content = .text s → Utf8.decode file.data = .ok s.toList) ∧
      ∀ file' found' token', parseFileBy read file' = .ok found' →
        found'.tokenGroups = [⟨.image, [token']⟩] → token'.value = token.value →
        file'.data = file.data := by
  obtain ⟨header, hheader, rfl⟩ := parseFileBy_eq_ok_iff.mp h
  refine ⟨header, tokenOf file header, Base64.encode file.data, hheader, rfl, rfl,
    Base64.spells_encode _, Base64.decode?_encode _, rfl, rfl, ?_, ?_⟩
  · intro s hs
    simp only [SourceFile.data, hs]
    exact Utf8.decode_encode _
  · intro file' found' token' hfound' hgroups hvalue
    obtain ⟨header', -, rfl⟩ := parseFileBy_eq_ok_iff.mp hfound'
    cases hgroups
    exact dataUri_injective (Json.str.inj hvalue)

def onePixel : List UInt8 :=
  [0x47, 0x49, 0x46, 0x38, 0x39, 0x61, 1, 0, 1, 0, 0, 0, 0, 0x2C, 0, 0, 0, 0, 1, 0, 1, 0, 0, 2]

theorem readHeader_onePixel (rest : List UInt8) :
    readHeader (onePixel ++ rest) = .ok ⟨.gif, 1, 1⟩ := by
  have himage : Gif.image 1 1 (onePixel.drop 14 ++ rest) = .ok (1, 1) := by
    simp [onePixel, Gif.image, Bytes.little16?, need, Gif.skipTable, bind, Except.bind]
  have hblocks : Gif.blocks 1 1 (onePixel.drop 13 ++ rest) = .ok (1, 1) :=
    (Gif.blocks.eq_3 1 1 _).trans himage
  have hread : Gif.read (onePixel.drop 6 ++ rest) = .ok ⟨.gif, 1, 1⟩ := by
    change (Gif.blocks 1 1 (onePixel.drop 13 ++ rest)).bind _ = _
    rw [hblocks]
    rfl
  exact hread

def bytesFile : SourceFile := ⟨"a.gif", .bytes onePixel⟩

/-- An image of one pixel and a byte more in a file that is a text. -/
def textFile : SourceFile :=
  ⟨"b.gif", .text "GIF89a\x01\x00\x01\x00\x00\x00\x00,\x00\x00\x00\x00\x01\x00\x01\x00\x00\x02;"⟩

/-- One image as bytes and one as a text; their numbers of bytes leave different rests by three. -/
theorem payload_untouched_onePixel :
    ∃ (found found' : Extraction) (token token' : Token) (text : List Char),
      parseFile bytesFile = .ok found ∧ parseFile textFile = .ok found' ∧
      found.tokenGroups = [⟨.image, [token]⟩] ∧ found'.tokenGroups = [⟨.image, [token']⟩] ∧
      token.value = .str ("data:" ++ "image/gif" ++ ";base64," ++ String.ofList text) ∧
      Base64.decode? text = some onePixel ∧
      member? "size_bytes" token'.metadata = some (.int 25) ∧ token'.value ≠ token.value := by
  have hheader : readHeader onePixel = .ok ⟨.gif, 1, 1⟩ := readHeader_onePixel []
  have hdata : textFile.data = onePixel ++ [0x3B] := by decide +kernel
  have hheader' : readHeader textFile.data = .ok ⟨.gif, 1, 1⟩ := by
    rw [hdata]
    exact readHeader_onePixel _
  have hfound : parseFileBy readHeader bytesFile = .ok _ :=
    parseFileBy_eq_ok_iff.mpr ⟨_, hheader, rfl⟩
  have hfound' : parseFileBy readHeader textFile = .ok _ :=
    parseFileBy_eq_ok_iff.mpr ⟨_, hheader', rfl⟩
  obtain ⟨header, token, text, hread, htoken, hvalue, -, hdecoded, -, -, -, hdistinct⟩ :=
    payload_untouched hfound
  obtain ⟨-, token', -, -, htoken', -, -, -, -, hsize, -⟩ := payload_untouched hfound'
  cases hheader.symm.trans hread
  have hgroups := congrArg (·.tokenGroups) htoken
  have hgroups' := congrArg (·.tokenGroups) htoken'
  refine ⟨_, _, token, token', text, hfound, hfound', hgroups, hgroups', hvalue, hdecoded, ?_, ?_⟩
  · rw [hsize, hdata]
    rfl
  · intro hsame
    have hbytes := hdistinct _ _ token' hfound' hgroups' hsame
    rw [hdata] at hbytes
    exact absurd hbytes (by decide)

end TokenCatalog.Image
