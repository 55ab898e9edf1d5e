import TokenCatalog.Proofs.Bytes.Utf8
import TokenCatalog.Proofs.Xml.Grammar
import TokenCatalog.Xml.Passage
import TokenCatalog.Xml.Tag

/-!
# Scans of well-formed markup

What the grammar of markup says in a text is what the scans take from it, and they note no lapse of
form. Main statements:

* `takes_value`: the scan of a value;
* `takes_attributes` and `takes_startTag`: the scans of attributes and of start tags;
* `takes_text`, `takes_comment` and `takes_instruction`: the scans of what stands between tags.
-/

namespace TokenCatalog.Xml

variable {α β : Type}

/-! ## Scans without a lapse -/

/-- Whether a scan takes something from the head of a text without a lapse and leaves the rest. -/
def Scan.Takes (scan : Scan α) (cs : List Char) (value : α) (rest : List Char) : Prop :=
  scan cs = ⟨value, rest, true⟩

namespace Scan

theorem Takes.bind {scan : Scan α} {next : α → Scan β} {cs mid rest : List Char} {a : α} {b : β}
    (h : scan.Takes cs a mid) (h' : (next a).Takes mid b rest) :
    (scan >>= next).Takes cs b rest := by
  change { next (scan cs).value (scan cs).rest with
    sound := (scan cs).sound && (next (scan cs).value (scan cs).rest).sound } = _
  rw [h, h']
  rfl

theorem takes_pure (a : α) (cs : List Char) : (pure a : Scan α).Takes cs a cs :=
  rfl

theorem takes_ahead (cs : List Char) : ahead.Takes cs cs cs :=
  rfl

theorem takes_next (c : Char) (cs : List Char) : next?.Takes (c :: cs) (some c) cs :=
  rfl

theorem takes_require {condition : Bool} (h : condition = true) (cs : List Char) :
    (require condition).Takes cs () cs := by
  rw [Takes, require, h]

theorem takes_word (w : String) (rest : List Char) :
    (word w).Takes (w.toList ++ rest) true rest := by
  rw [Takes, word, Text.after?_eq_some_iff.mpr rfl]

theorem takes_no_word {w : String} {cs : List Char} (h : ¬ w.toList <+: cs) :
    (word w).Takes cs false cs := by
  have hnone : Text.after? w.toList cs = none := by
    rw [Option.eq_none_iff_forall_ne_some]
    intro rest hrest
    exact h ⟨rest, (Text.after?_eq_some_iff.mp hrest).symm⟩
  rw [Takes, word, hnone]

theorem takeWhile_stop {p : Char → Bool} {front rest : List Char} (hfront : ∀ c ∈ front, p c = true)
    (hrest : rest.head?.any p = false) :
    (front ++ rest).takeWhile p = front ∧ (front ++ rest).dropWhile p = rest := by
  rw [List.takeWhile_append_of_pos hfront, List.dropWhile_append_of_pos hfront]
  cases rest with
  | nil => exact ⟨List.append_nil _, rfl⟩
  | cons c rest =>
      simp only [List.head?_cons, Option.any_some] at hrest
      simp [hrest]

theorem takes_span {p : Char → Bool} {front rest : List Char} (hfront : ∀ c ∈ front, p c = true)
    (hrest : rest.head?.any p = false) : (span p).Takes (front ++ rest) front rest := by
  obtain ⟨htake, hdrop⟩ := takeWhile_stop hfront hrest
  rw [Takes, span, htake, hdrop]

theorem takes_no_blanks {cs : List Char} (h : cs.head?.any isBlank = false) :
    blanks.Takes cs false cs := by
  rw [Takes, blanks, h]
  have hnil : ∀ c ∈ ([] : List Char), isBlank c = true := nofun
  have hdrop : cs.dropWhile isBlank = cs := (takeWhile_stop hnil h).2
  rw [hdrop]

theorem dropWhile_blank {cs : List Char} (h : cs.head?.any isBlank = false) :
    (' ' :: cs).dropWhile isBlank = cs := by
  have hspace : ∀ c ∈ [' '], isBlank c = true := List.forall_mem_singleton.mpr rfl
  exact (takeWhile_stop hspace h).2

theorem takes_blanks (cs : List Char) :
    blanks.Takes cs (cs.head?.any isBlank) (cs.dropWhile isBlank) :=
  rfl

theorem takes_name {cs rest : List Char} (hstart : cs.head?.any isNameStart = true)
    (hname : ∀ c ∈ cs, isNameChar c = true) (hrest : rest.head?.any isNameChar = false) :
    name.Takes (cs ++ rest) cs rest := by
  cases cs with
  | nil => cases hstart
  | cons c cs =>
      obtain ⟨htake, hdrop⟩ := takeWhile_stop (List.forall_mem_cons.mp hname).2 hrest
      simp only [List.head?_cons, Option.any_some] at hstart
      rw [Takes, List.cons_append, name, if_pos hstart, htake, hdrop]

theorem takes_quote {c : Char} (h : c = '"' ∨ c = '\'') (cs : List Char) :
    quote?.Takes (c :: cs) (some c) cs := by
  rw [Takes, quote?, if_pos (by simpa using h)]

end Scan

/-! ## Names -/

theorem isSimpleName_iff {cs : List Char} :
    isSimpleName cs = true ↔
      cs.head?.any isNameStart = true ∧ ':' ∉ cs ∧ ∀ c ∈ cs, isNameChar c = true := by
  simp [isSimpleName, isPlainName, and_assoc]

/-- A sound name is taken whole, and it is read again as what it is. -/
theorem Name.text_of_isSound {name : Name} (h : name.isSound = true) :
    name.text.head?.any isNameStart = true ∧ (∀ c ∈ name.text, isNameChar c = true) ∧
      Name.read name.text = name := by
  obtain ⟨space, base⟩ := name
  simp only [Name.isSound, Bool.and_eq_true] at h
  obtain ⟨hstart, hcolon, hchars⟩ := isSimpleName_iff.mp h.1
  cases space with
  | none => exact ⟨hstart, hchars, Name.read_plain hcolon⟩
  | some space =>
      have hsimple : isSimpleName space = true := by simpa using h.2
      obtain ⟨hstart', hcolon', hchars'⟩ := isSimpleName_iff.mp hsimple
      simp only [isSimpleName, Bool.and_eq_true] at hsimple h
      refine ⟨?_, ?_, Name.read_prefixed hsimple.1 h.1.1⟩
      · cases space with
        | nil => cases hstart'
        | cons c space => exact hstart'
      · intro c hc
        simp only [Name.text, List.mem_append, List.mem_cons] at hc
        rcases hc with hc | rfl | hc
        · exact hchars' c hc
        · decide
        · exact hchars c hc

theorem takes_name_text {name : Name} (h : name.isSound = true) {rest : List Char}
    (hrest : rest.head?.any isNameChar = false) :
    Scan.name.Takes (name.text ++ rest) name.text rest :=
  let ⟨hstart, hchars, _⟩ := Name.text_of_isSound h
  Scan.takes_name hstart hchars hrest

/-! ## References -/

theorem takes_named {elsewhere : Bool} {c : Char} {name : List Char} (h : entity? name = some c)
    (rest : List Char) : (takeReference elsewhere).Takes (name ++ ';' :: rest) (.named c) rest := by
  obtain ⟨before, after, hentities, -⟩ := List.lookup_eq_some_iff.mp h
  have hmem : (String.ofList name, c) ∈
      [("amp", '&'), ("lt", '<'), ("gt", '>'), ("quot", '"'), ("apos", '\'')] := by
    rw [hentities]
    simp
  have hname : ∀ word : String, String.ofList name = word → name = word.toList := by
    rintro _ rfl
    rw [String.toList_ofList]
  simp only [List.mem_cons, List.not_mem_nil, or_false, Prod.mk.injEq] at hmem
  rcases hmem with ⟨hword, rfl⟩ | ⟨hword, rfl⟩ | ⟨hword, rfl⟩ | ⟨hword, rfl⟩ | ⟨hword, rfl⟩
  all_goals
    rw [hname _ hword]
    rfl

theorem takes_number {elsewhere : Bool} {n : Nat} {digits : List Char}
    (hdigits : ∀ d ∈ digits, Text.isHex d = true)
    (hvalue : Text.ofDigits 16 (digits.filterMap Text.hexValue?) = n)
    (hallowed : isAllowed n = true) (rest : List Char) :
    (takeReference elsewhere).Takes ('#' :: 'x' :: digits ++ ';' :: rest)
      (.number (codePoint n)) rest := by
  subst hvalue
  have hspan : (Scan.span Text.isHex).Takes (digits ++ ';' :: rest) digits (';' :: rest) :=
    Scan.takes_span hdigits rfl
  refine (Scan.takes_word "#x" (digits ++ ';' :: rest)).bind ?_
  refine hspan.bind ?_
  refine (Scan.takes_word ";" rest).bind ?_
  exact (Scan.takes_require hallowed rest).bind rfl

/-- A reference is taken up to its end, and it stands for its character. -/
theorem takes_reference (elsewhere : Bool) {c : Char} {reference : List Char}
    (h : Refers c reference) (rest : List Char) :
    ∃ found, (takeReference elsewhere).Takes (reference ++ ';' :: rest) found rest ∧
      (found = .named c ∨ found = .number c.toNat ∧ c.toNat ≠ 0) := by
  rcases h with hname | ⟨digits, -, hdigits, rfl, hvalue, hallowed⟩
  · exact ⟨.named c, takes_named hname rest, .inl rfl⟩
  · have hcode : codePoint c.toNat = c.toNat := if_pos (Utf8.toNat_lt c)
    refine ⟨.number c.toNat, hcode ▸ takes_number hdigits hvalue hallowed rest, .inr ⟨rfl, ?_⟩⟩
    intro hzero
    rw [hzero] at hallowed
    cases hallowed

/-! ## Values -/

/-- What comes first in what says characters, besides those that stand for themselves. -/
inductive Spells.Next (quote? : Option Char) : List Char → List Char → Prop
  | nil : Next quote? [] []
  | reference {c : Char} {reference text cs : List Char} : Refers c reference →
      Spells quote? text cs →
      Next quote? (c :: text) ('&' :: reference ++ ';' :: cs)
  | blank {c : Char} {text cs : List Char} : quote?.isSome = true → c = '\t' ∨ c = '\n' →
      Spells quote? text cs → Next quote? (' ' :: text) (c :: cs)
  | return {text cs : List Char} : cs.head? ≠ some '\n' → Spells quote? text cs →
      Next quote? (lineEnd quote? :: text) ('\r' :: cs)
  | returnFeed {text cs : List Char} : Spells quote? text cs →
      Next quote? (lineEnd quote? :: text) ('\r' :: '\n' :: cs)

theorem Spells.split {quote? : Option Char} {text cs : List Char} (h : Spells quote? text cs) :
    ∃ plain text' cs', text = plain ++ text' ∧ cs = plain ++ cs' ∧
      (∀ c ∈ plain, isBare quote? c = true) ∧
      Spells.Next quote? text' cs' := by
  induction h with
  | nil => exact ⟨[], [], [], rfl, rfl, nofun, .nil⟩
  | @bare c text cs hc _ ih =>
      obtain ⟨plain, text', cs', rfl, rfl, hplain, hnext⟩ := ih
      exact ⟨c :: plain, text', cs', rfl, rfl, List.forall_mem_cons.mpr ⟨hc, hplain⟩, hnext⟩
  | reference hreference h _ => exact ⟨[], _, _, rfl, rfl, nofun, .reference hreference h⟩
  | blank hquote hc h _ => exact ⟨[], _, _, rfl, rfl, nofun, .blank hquote hc h⟩
  | «return» hfeed h _ => exact ⟨[], _, _, rfl, rfl, nofun, .return hfeed h⟩
  | returnFeed h _ => exact ⟨[], _, _, rfl, rfl, nofun, .returnFeed h⟩

section

variable {elsewhere : Bool} {quote : Char} {plain : List Char} {fuel : Nat}

theorem ne_quote (hquote : quote = '"' ∨ quote = '\'') {c : Char} (hdouble : c ≠ '"')
    (hsingle : c ≠ '\'') :
    c ≠ quote := by
  rintro rfl
  exact hquote.elim hdouble hsingle

theorem standsForItself_of_isBare {c : Char} (h : isBare (some quote) c = true) :
    standsForItself quote c = true := by
  simp only [isBare, Bool.and_eq_true, bne_iff_ne, ne_eq, Bool.or_eq_true, beq_iff_eq,
    Bool.not_eq_true'] at h
  simp only [standsForItself, Bool.and_eq_true, bne_iff_ne, ne_eq, Bool.or_eq_true, beq_iff_eq,
    Bool.not_eq_true']
  tauto

/-- In a value a reference is taken as its character. -/
theorem takes_referenceInValue (hquote : quote = '"' ∨ quote = '\'')
    (hself : ∀ c ∈ plain, standsForItself quote c = true) {c : Char} {reference : List Char}
    (hreference : Refers c reference) {cs rest : List Char} {value : List Nat}
    (hmore : (takeQuoted elsewhere quote fuel).Takes cs (some value) rest) :
    (takeQuoted elsewhere quote (fuel + 1)).Takes (plain ++ '&' :: (reference ++ ';' :: cs))
      (some (plain.map Char.toNat ++ c.toNat :: value)) rest := by
  obtain ⟨found, htakes, hfound⟩ := takes_reference elsewhere hreference cs
  refine (Scan.takes_span hself (by simp [standsForItself])).bind ?_
  refine (Scan.takes_next '&' _).bind ?_
  dsimp only
  rw [if_neg (ne_quote hquote (by decide) (by decide)), if_pos rfl]
  refine htakes.bind ?_
  rcases hfound with rfl | ⟨rfl, hzero⟩
  · exact hmore.bind rfl
  · obtain ⟨n, hn⟩ := Nat.exists_eq_succ_of_ne_zero hzero
    rw [hn]
    exact hmore.bind rfl

/-- In a value a blank is taken as a space, and a return with the feed after it if there is one. -/
theorem takes_blankInValue (hquote : quote = '"' ∨ quote = '\'')
    (hself : ∀ c ∈ plain, standsForItself quote c = true) {c : Char}
    (hc : c = '\t' ∨ c = '\n' ∨ c = '\r')
    {cs mid rest : List Char} {value : List Nat}
    (hline : if c = '\r' then ∃ feed, (Scan.word "\n").Takes cs feed mid else cs = mid)
    (hmore : (takeQuoted elsewhere quote fuel).Takes mid (some value) rest) :
    (takeQuoted elsewhere quote (fuel + 1)).Takes (plain ++ c :: cs)
      (some (plain.map Char.toNat ++ ' '.toNat :: value)) rest := by
  have hblank : isBlank c = true ∧ isAllowed c.toNat = true ∧ c ≠ '"' ∧ c ≠ '\'' ∧
      c ≠ '&' ∧ c ≠ '<' ∧
      c ≠ ' ' := by
    rcases hc with rfl | rfl | rfl <;> decide
  obtain ⟨hblank, hallowed, hdouble, hsingle, hamp, hlt, hspace⟩ := hblank
  have hcode : valueCode c = ' '.toNat := if_pos hblank
  have hstop : (c :: cs).head?.any (standsForItself quote) = false := by
    simp [standsForItself, hblank, hspace]
  refine (Scan.takes_span hself hstop).bind ?_
  refine (Scan.takes_next c cs).bind ?_
  dsimp only
  rw [if_neg (ne_quote hquote hdouble hsingle), if_neg hamp, hcode]
  refine (Scan.takes_require (by simp [hlt, hallowed]) cs).bind ?_
  split at hline
  · next hreturn =>
    obtain ⟨feed, hfeed⟩ := hline
    rw [if_pos hreturn]
    exact hfeed.bind (hmore.bind rfl)
  · next hreturn =>
    subst hline
    rw [if_neg hreturn]
    exact hmore.bind rfl

/-- **A value is taken up to its closing quotation mark.** -/
theorem takes_value (hquote : quote = '"' ∨ quote = '\'') {value inner : List Char}
    (h : Spells (some quote) value inner) (hfuel : inner.length < fuel) (rest : List Char) :
    (takeQuoted elsewhere quote fuel).Takes (inner ++ quote :: rest) (some (value.map Char.toNat))
      rest := by
  induction fuel generalizing value inner with
  | zero => omega
  | succ fuel ih =>
    obtain ⟨plain, value', inner', rfl, rfl, hplain, hnext⟩ := h.split
    have hself : ∀ c ∈ plain, standsForItself quote c = true :=
      fun c hc => standsForItself_of_isBare (hplain c hc)
    rw [List.append_assoc, List.map_append]
    rw [List.length_append] at hfuel
    cases hnext with
    | nil =>
        have hstop : (quote :: rest).head?.any (standsForItself quote) = false := by
          simp [standsForItself]
        rw [List.nil_append, List.map_nil, List.append_nil]
        refine (Scan.takes_span hself hstop).bind ?_
        refine (Scan.takes_next quote rest).bind ?_
        dsimp only
        rw [if_pos rfl]
        exact Scan.takes_pure _ _
    | @reference c reference value'' inner'' hreference hmore =>
        have hlength : inner''.length < fuel := by
          simp only [List.length_append, List.length_cons] at hfuel
          omega
        have htext : '&' :: reference ++ ';' :: inner'' ++ quote :: rest =
            '&' :: (reference ++ ';' :: (inner'' ++ quote :: rest)) := by simp
        rw [htext]
        exact takes_referenceInValue hquote hself hreference (ih hmore hlength)
    | @blank c value'' inner'' _ hc hmore =>
        have hlength : inner''.length < fuel := by
          rw [List.length_cons] at hfuel
          omega
        have hreturn : c ≠ '\r' := by
          rcases hc with rfl | rfl <;> decide
        refine takes_blankInValue hquote hself (hc.imp_right .inl) ?_ (ih hmore hlength)
        simp [hreturn]
    | @«return» value'' inner'' hfeed hmore =>
        have hlength : inner''.length < fuel := by
          rw [List.length_cons] at hfuel
          omega
        have hnoFeed : ¬ "\n".toList <+: inner'' ++ quote :: rest := by
          rintro ⟨more, hmore⟩
          cases inner'' with
          | nil => exact ne_quote hquote (by decide) (by decide) (List.cons.inj hmore).1
          | cons d inner'' => exact hfeed (congrArg some (List.cons.inj hmore).1.symm)
        exact takes_blankInValue hquote hself (.inr (.inr rfl)) ⟨false, Scan.takes_no_word hnoFeed⟩
          (ih hmore hlength)
    | @returnFeed value'' inner'' hmore =>
        have hlength : inner''.length < fuel := by
          rw [List.length_cons, List.length_cons] at hfuel
          omega
        exact takes_blankInValue hquote hself (.inr (.inr rfl)) ⟨true, Scan.takes_word "\n" _⟩
          (ih hmore hlength)

end

theorem takes_assigned (elsewhere : Bool) {fuel : Nat} {value quoted : List Char}
    (h : Quoted value quoted) (hfuel : quoted.length < fuel) (rest : List Char) :
    (takeAssigned elsewhere fuel).Takes ('=' :: quoted ++ rest)
      (some (value.map Char.toNat)) rest := by
  obtain ⟨quote, hquote, inner, rfl, hinner⟩ := h
  have hlength : inner.length < fuel := by
    simp only [List.length_append, List.length_cons] at hfuel
    omega
  have hblank : (quote :: (inner ++ quote :: rest)).head?.any isBlank = false := by
    rcases hquote with rfl | rfl <;> rfl
  have htext : '=' :: (quote :: inner ++ [quote]) ++ rest =
      "=".toList ++ quote :: (inner ++ quote :: rest) := by simp
  rw [htext]
  refine (Scan.takes_word "=" _).bind ?_
  rw [if_pos rfl]
  refine (Scan.takes_no_blanks hblank).bind ?_
  refine (Scan.takes_quote hquote _).bind ?_
  exact takes_value hquote hinner hlength rest

/-! ## Tags -/

def EndsTag (cs : List Char) : Prop :=
  ∃ rest, cs = '>' :: rest ∨ cs = '/' :: '>' :: rest

theorem EndsTag.takes {cs : List Char} (h : EndsTag cs) : atTagEnd.Takes cs true cs := by
  obtain ⟨rest, rfl | rfl⟩ := h <;> rfl

theorem EndsTag.dropWhile {cs : List Char} (h : EndsTag cs) : cs.dropWhile isBlank = cs := by
  obtain ⟨rest, rfl | rfl⟩ := h <;> rfl

theorem takes_no_tagEnd {cs : List Char}
    (h : cs.head?.any (fun c => c == '>' || c == '/') = false) :
    atTagEnd.Takes cs false cs := by
  cases cs with
  | nil => rfl
  | cons c cs =>
      simp only [List.head?_cons, Option.any_some, Bool.or_eq_false_iff, beq_eq_false_iff_ne] at h
      refine (Scan.takes_ahead (c :: cs)).bind ?_
      split
      · next heq => exact absurd (List.cons.inj heq).1 h.1
      · next heq => exact absurd (List.cons.inj heq).1 h.2
      · rfl

theorem not_blank_of_isNameStart {cs : List Char} (h : cs.head?.any isNameStart = true)
    (rest : List Char) :
    (cs ++ rest).head?.any isBlank = false ∧
      (cs ++ rest).head?.any (fun c => c == '>' || c == '/') = false := by
  cases cs with
  | nil => cases h
  | cons c cs =>
      simp only [List.head?_cons, Option.any_some] at h
      have hne : ∀ d, isNameStart d = false → c ≠ d := by
        rintro d hd rfl
        rw [h] at hd
        cases hd
      simp [isBlank, hne ' ' (by decide), hne '\t' (by decide), hne '\n' (by decide),
        hne '\r' (by decide), hne '>' (by decide), hne '/' (by decide)]

def codesOf (attributes : List (List Char × List Char)) : List (List Char × List Nat) :=
  attributes.map fun a => (a.1, a.2.map Char.toNat)

/-- **Attributes are taken up to the end of their tag.** -/
theorem takes_attributes (elsewhere : Bool) {attributes : List (List Char × List Char)}
    {cs : List Char}
    (h : Attributes attributes cs) {fuel : Nat} (hfuel : cs.length < fuel) {rest : List Char}
    (hend : EndsTag rest) :
    (takeAttributes elsewhere fuel).Takes ((cs ++ rest).dropWhile isBlank)
      (codesOf attributes) rest := by
  induction h generalizing fuel with
  | nil =>
      obtain ⟨fuel, rfl⟩ : ∃ n, fuel = n + 1 := ⟨fuel - 1, by simp at hfuel; omega⟩
      rw [List.nil_append, hend.dropWhile]
      refine hend.takes.bind ?_
      exact Scan.takes_pure _ _
  | @cons name value quoted cs attributes hname hvalue hattributes ih =>
      obtain ⟨fuel, rfl⟩ : ∃ n, fuel = n + 1 := ⟨fuel - 1, by simp at hfuel; omega⟩
      obtain ⟨hstart, hchars, -⟩ := Name.text_of_isSound hname
      rw [Name.text_read] at hstart hchars
      simp only [List.length_append, List.length_cons] at hfuel
      obtain ⟨hblank, hnoEnd⟩ := not_blank_of_isNameStart hstart ('=' :: quoted ++ (cs ++ rest))
      have htext : (' ' :: name ++ '=' :: quoted ++ cs) ++ rest =
          ' ' :: (name ++ ('=' :: quoted ++ (cs ++ rest))) := by simp
      have hne : name.isEmpty = false := by
        cases name with
        | nil => cases hstart
        | cons c name => rfl
      rw [htext, Scan.dropWhile_blank hblank]
      refine (takes_no_tagEnd hnoEnd).bind ?_
      rw [if_neg (by simp)]
      refine (Scan.takes_name hstart hchars rfl).bind ?_
      rw [if_neg (by simp [hne])]
      refine (Scan.takes_no_blanks rfl).bind ?_
      refine (takes_assigned elsewhere hvalue (by omega) _).bind ?_
      cases hattributes with
      | nil =>
          refine hend.takes.bind ?_
          rw [if_pos rfl]
          exact Scan.takes_pure _ _
      | @cons name' value' quoted' cs' attributes' hname' hvalue' hattributes' =>
          refine (takes_no_tagEnd rfl).bind ?_
          rw [if_neg (by simp)]
          refine (Scan.takes_blanks _).bind ?_
          rw [if_neg (by simp [isBlank])]
          exact (ih (by omega)).bind (Scan.takes_pure _ _)

theorem Attributes.head? {attributes : List (List Char × List Char)} {cs : List Char}
    (h : Attributes attributes cs) {rest : List Char} (hend : EndsTag rest) :
    (cs ++ rest).head?.any isNameChar = false := by
  cases h with
  | nil => obtain ⟨more, rfl | rfl⟩ := hend <;> rfl
  | cons => rfl

/-- **A start tag is taken up to its end**, with the name and the attributes as they are written. -/
theorem takes_startTag (elsewhere : Bool) {name : Name} {attributes : List (List Char × List Char)}
    {tag : List Char} (hname : name.isSound = true) (htag : Attributes attributes tag) {fuel : Nat}
    (hfuel : tag.length < fuel) (rest : List Char) :
    (takeStartTag elsewhere fuel).Takes (name.text ++ (tag ++ '>' :: rest))
        (some ⟨name.text, codesOf attributes, .opened⟩) rest ∧
      (takeStartTag elsewhere fuel).Takes (name.text ++ (tag ++ '/' :: '>' :: rest))
        (some ⟨name.text, codesOf attributes, .closed⟩) rest := by
  have hne : name.text.isEmpty = false := by
    obtain ⟨hstart, -, -⟩ := Name.text_of_isSound hname
    cases htext : name.text with
    | nil => simp [htext] at hstart
    | cons c cs => rfl
  constructor
  · have hend : EndsTag ('>' :: rest) := ⟨rest, .inl rfl⟩
    refine (takes_name_text hname (htag.head? hend)).bind ?_
    rw [if_neg (by simp [hne])]
    refine (Scan.takes_blanks _).bind ?_
    refine (takes_attributes elsewhere htag hfuel hend).bind ?_
    refine (Scan.takes_word ">" rest).bind ?_
    rw [if_pos rfl]
    exact Scan.takes_pure _ _
  · have hend : EndsTag ('/' :: '>' :: rest) := ⟨rest, .inr rfl⟩
    refine (takes_name_text hname (htag.head? hend)).bind ?_
    rw [if_neg (by simp [hne])]
    refine (Scan.takes_blanks _).bind ?_
    refine (takes_attributes elsewhere htag hfuel hend).bind ?_
    refine (Scan.takes_no_word (w := ">") (by simp)).bind ?_
    rw [if_neg (by simp)]
    refine (Scan.takes_word "/>" rest).bind ?_
    rw [if_pos rfl]
    exact Scan.takes_pure _ _

/-- An end tag is taken where it should be. -/
theorem takes_endTag {name : Name} (h : name.isSound = true) (rest : List Char) :
    (takeEndTag name.text).Takes (name.text ++ '>' :: rest) () rest := by
  refine (takes_name_text h rfl).bind ?_
  refine (Scan.takes_require (by simp) _).bind ?_
  refine (Scan.takes_no_blanks rfl).bind ?_
  refine (Scan.takes_word ">" rest).bind ?_
  exact Scan.takes_require rfl _

/-! ## Text -/

/-- Whether a text has ended where another one goes on: at a tag or at a reference. -/
def EndsText (cs : List Char) : Prop :=
  cs.head?.all (fun c => c == '<' || c == '&') = true

theorem EndsText.cases {rest : List Char} (h : EndsText rest) :
    rest = [] ∨ ∃ c more, rest = c :: more ∧ (c = '<' ∨ c = '&') := by
  cases rest with
  | nil => exact .inl rfl
  | cons c more => exact .inr ⟨c, more, rfl, by simpa [EndsText] using h⟩

/-- Whether a character is one of a run of text without references. -/
def isRun (c : Char) : Bool :=
  isBare none c || c == '\r'

theorem isRun_iff {c : Char} :
    isRun c = true ↔ isAllowed c.toNat = true ∧ c ≠ '<' ∧ c ≠ '&' ∧ c ≠ '>' := by
  simp only [isRun, isBare, Bool.or_eq_true, Bool.and_eq_true, bne_iff_ne, ne_eq, beq_iff_eq]
  constructor
  · rintro (⟨⟨⟨hallowed, hlt⟩, hamp⟩, hgt, -⟩ | rfl)
    · exact ⟨hallowed, hlt, hamp, hgt⟩
    · decide
  · rintro ⟨hallowed, hlt, hamp, hgt⟩
    by_cases hreturn : c = '\r'
    · exact .inr hreturn
    · exact .inl ⟨⟨⟨hallowed, hlt⟩, hamp⟩, hgt, hreturn⟩

/-- What says text begins with a run without references, up to the end or a reference. -/
theorem Spells.splitText {text cs : List Char} (h : Spells none text cs) :
    ∃ run text' cs', text = Text.universalNewlines run ++ text' ∧ cs = run ++ cs' ∧
      (∀ c ∈ run, isRun c = true) ∧ (text' = [] ∧ cs' = [] ∨ ∃ c reference text'' cs'',
        text' = c :: text'' ∧
        cs' = '&' :: reference ++ ';' :: cs'' ∧ Refers c reference ∧ Spells none text'' cs'') := by
  induction h with
  | nil => exact ⟨[], [], [], rfl, rfl, nofun, .inl ⟨rfl, rfl⟩⟩
  | @bare c text cs hc _ ih =>
      obtain ⟨run, text', cs', rfl, rfl, hrun, hnext⟩ := ih
      have hreturn : c ≠ '\r' := by
        rintro rfl
        cases hc
      refine ⟨c :: run, text', cs', ?_, rfl, List.forall_mem_cons.mpr ⟨?_, hrun⟩, hnext⟩
      · rw [Text.universalNewlines, List.cons_append]
        · rintro rest rfl
          exact absurd rfl hreturn
        · exact hreturn
      · rw [isRun, hc, Bool.true_or]
  | @reference c reference text cs hreference h _ =>
      exact ⟨[], _, _, rfl, rfl, nofun, .inr ⟨c, reference, text, cs, rfl, rfl, hreference, h⟩⟩
  | blank hquote => cases hquote
  | @«return» text cs hfeed _ ih =>
      obtain ⟨run, text', cs', rfl, rfl, hrun, hnext⟩ := ih
      refine ⟨'\r' :: run, text', cs', ?_, rfl, List.forall_mem_cons.mpr ⟨rfl, hrun⟩, hnext⟩
      rw [Text.universalNewlines, List.cons_append]
      · rfl
      · rintro rest rfl
        exact hfeed rfl
  | @returnFeed text cs _ ih =>
      obtain ⟨run, text', cs', rfl, rfl, hrun, hnext⟩ := ih
      refine ⟨'\r' :: '\n' :: run, text', cs', rfl, rfl, ?_, hnext⟩
      exact List.forall_mem_cons.mpr ⟨rfl, List.forall_mem_cons.mpr ⟨rfl, hrun⟩⟩

theorem ne_sectionEnd {run rest : List Char} (h : ∀ c ∈ run, isRun c = true)
    (hrest : EndsText rest) (cs : List Char) : run ++ rest ≠ ']' :: ']' :: '>' :: cs := by
  have hstop : ∀ c more, rest = c :: more → c = '<' ∨ c = '&' := by
    rintro c more rfl
    simpa [EndsText] using hrest
  intro heq
  match run with
  | [] => rcases hstop _ _ heq with hc | hc <;> cases hc
  | [a] => rcases hstop _ _ (List.cons.inj heq).2 with hc | hc <;> cases hc
  | [a, b] => rcases hstop _ _ (List.cons.inj (List.cons.inj heq).2).2 with hc | hc <;> cases hc
  | a :: b :: c :: run =>
      have hc := h c (by simp)
      rw [(List.cons.inj (List.cons.inj (List.cons.inj heq).2).2).1] at hc
      cases hc

/-- A return is no line end with a feed where none follows in the run. -/
theorem ne_returnFeed {run rest : List Char} (hrest : EndsText rest)
    (hnext : ∀ run', run = '\n' :: run' → False) (cs : List Char) :
    '\r' :: (run ++ rest) ≠ '\r' :: '\n' :: cs := by
  intro heq
  cases run with
  | nil =>
      rcases hrest.cases with rfl | ⟨c, more, rfl, rfl | rfl⟩
      all_goals cases heq
  | cons c run => exact hnext run (by rw [(List.cons.inj (List.cons.inj heq).2).1])

theorem wideText_step {c : Char} (cs : List Char) (hc : isRun c = true)
    (hsection : ∀ more, c :: cs ≠ ']' :: ']' :: '>' :: more)
    (hfeed : ∀ more, c :: cs ≠ '\r' :: '\n' :: more) :
    takeWideText (c :: cs) = (takeWideText cs).map ((if c = '\r' then '\n' else c) :: ·) := by
  obtain ⟨hallowed, hlt, hamp, -⟩ := isRun_iff.mp hc
  rw [takeWideText.eq_def]
  split
  · next heq => cases heq
  · next heq => exact absurd heq (hsection _)
  · next heq => exact absurd heq (hfeed _)
  · next heq =>
    cases heq
    rw [if_neg (by simp [hlt, hamp]), if_neg (by simp [hallowed])]

theorem takes_wideText {run rest : List Char} (h : ∀ c ∈ run, isRun c = true)
    (hrest : EndsText rest) :
    Scan.Takes takeWideText (run ++ rest) (Text.universalNewlines run) rest := by
  induction run using Text.universalNewlines.induct with
  | case1 => rcases hrest.cases with rfl | ⟨c, more, rfl, rfl | rfl⟩ <;> rfl
  | case2 run ih =>
      have hmore := ih fun c hc => h c (List.mem_cons_of_mem _ (List.mem_cons_of_mem _ hc))
      rw [Text.universalNewlines, Scan.Takes, List.cons_append, List.cons_append,
        takeWideText, hmore]
      rfl
  | case3 run hnext ih =>
      have hmore := ih fun c hc => h c (List.mem_cons_of_mem _ hc)
      have hstep := wideText_step (run ++ rest) (h '\r' List.mem_cons_self) (by simp)
        (ne_returnFeed hrest hnext)
      rw [Text.universalNewlines, Scan.Takes, List.cons_append, hstep, hmore]
      · rfl
      · exact hnext
  | case4 c run hcrlf hcr ih =>
      have hmore := ih fun c hc => h c (List.mem_cons_of_mem _ hc)
      have hstep := wideText_step (run ++ rest) (h c List.mem_cons_self) (ne_sectionEnd h hrest)
        fun more heq => hcr (List.cons.inj heq).1
      rw [Text.universalNewlines, Scan.Takes, List.cons_append, hstep, hmore, if_neg hcr]
      · rfl
      · exact hcrlf
      · exact hcr

theorem takes_plainText {run rest : List Char} (h : ∀ c ∈ run, isRun c = true)
    (hrest : EndsText rest) (met : List Char) :
    Scan.Takes (takePlainText met) (run ++ rest) (met.reverse ++
      Text.universalNewlines run) rest := by
  induction run using Text.universalNewlines.induct generalizing met with
  | case1 =>
      rw [Text.universalNewlines, List.append_nil]
      rcases hrest.cases with rfl | ⟨c, more, rfl, rfl | rfl⟩ <;> rfl
  | case2 run ih =>
      have hrun : ∀ c ∈ run, isRun c = true := fun c hc =>
        h c (List.mem_cons_of_mem _ (List.mem_cons_of_mem _ hc))
      have hwide := takes_wideText
        (List.forall_mem_cons.mpr ⟨(rfl : isRun '\n' = true), hrun⟩) hrest
      have hlines : Text.universalNewlines ('\n' :: run) = '\n' :: Text.universalNewlines run := rfl
      rw [List.cons_append, hlines] at hwide
      rw [Text.universalNewlines, Scan.Takes, List.cons_append, List.cons_append, takePlainText]
      split
      · rw [ih hrun]
        rfl
      · rw [hwide]
        rfl
  | case3 run hnext ih =>
      -- once a reader of wide characters takes over, it reads to the end of the run
      have hwide := takes_wideText h hrest
      rw [List.cons_append] at hwide
      rw [Scan.Takes, List.cons_append, takePlainText.eq_def]
      split
      · next heq => cases heq
      · next heq => cases (List.cons.inj heq).1
      · next heq => exact absurd heq (ne_returnFeed hrest hnext _)
      · next heq =>
        cases heq
        rw [if_neg (by decide), if_neg (by decide), hwide]
        rfl
  | case4 c run hcrlf hcr ih =>
      have hrun : ∀ c ∈ run, isRun c = true := fun c hc => h c (List.mem_cons_of_mem _ hc)
      obtain ⟨-, hlt, hamp, -⟩ := isRun_iff.mp (h c List.mem_cons_self)
      have hsection := ne_sectionEnd h hrest
      have hwide := takes_wideText h hrest
      have hlines : Text.universalNewlines (c :: run) = c :: Text.universalNewlines run := by
        rw [Text.universalNewlines]
        · exact hcrlf
        · exact hcr
      rw [List.cons_append] at hsection hwide
      rw [hlines] at hwide ⊢
      rw [Scan.Takes, List.cons_append, takePlainText.eq_def]
      split
      · next heq => cases heq
      · next heq => exact absurd heq (hsection _)
      · next heq => exact absurd (List.cons.inj heq).1 hcr
      · next heq =>
        cases heq
        rw [if_neg (by simp [hlt, hamp])]
        split
        · rw [ih hrun]
          simp
        · rw [hwide]
          rfl

/-- **Text is taken up to a tag or a reference.** -/
theorem takes_text {run rest : List Char} (h : ∀ c ∈ run, isRun c = true) (hrest : EndsText rest) :
    takeText.Takes (run ++ rest) (Text.universalNewlines run) rest :=
  takes_plainText h hrest []

/-! ## Comments and instructions -/

theorem isRaw_cons {c : Char} {cs : List Char} :
    isRaw (c :: cs) = true ↔ (isAllowed c.toNat = true ∧ c ≠ '\r') ∧ isRaw cs = true := by
  simp [isRaw]

/-- Characters are taken up to the first mark. -/
theorem takes_until {mark cs : List Char} (hmark : mark ≠ []) (hraw : isRaw cs = true)
    {rest : List Char}
    (hfirst : ∀ tail, tail ≠ [] → tail <:+ cs → ¬ mark <+: tail ++ (mark ++ rest)) :
    Scan.Takes (takeUntil mark) (cs ++ (mark ++ rest)) (some cs) rest := by
  induction cs with
  | nil =>
      rw [List.nil_append]
      cases htext : mark ++ rest with
      | nil => exact absurd (List.append_eq_nil_iff.mp htext).1 hmark
      | cons c more =>
          have hafter : Text.after? mark (c :: more) = some rest :=
            Text.after?_eq_some_iff.mpr htext.symm
          rw [Scan.Takes, takeUntil, hafter]
  | cons c cs ih =>
      obtain ⟨⟨hallowed, hreturn⟩, hcs⟩ := isRaw_cons.mp hraw
      have hnone : Text.after? mark (c :: (cs ++ (mark ++ rest))) = none := by
        rw [Option.eq_none_iff_forall_ne_some]
        intro more hmore
        refine hfirst (c :: cs) (List.cons_ne_nil _ _) (List.suffix_refl _) ?_
        exact ⟨more, (Text.after?_eq_some_iff.mp hmore).symm⟩
      have hmore := ih hcs fun tail hne htail =>
        hfirst tail hne (htail.trans (List.suffix_cons _ _))
      rw [List.cons_append, Scan.Takes, takeUntil, hnone]
      dsimp only
      rw [if_neg (by simp [hallowed]), if_neg hreturn, hmore]
      rfl

/-- Whether no two hyphens stand next to each other in a text or where a hyphen follows it. -/
def NoPair (cs : List Char) : Prop :=
  Text.occursIn "--".toList (cs ++ ['-']) = false

theorem NoPair.of_suffix {cs tail : List Char} (h : NoPair cs) (htail : tail <:+ cs) :
    NoPair tail := by
  obtain ⟨front, rfl⟩ := htail
  rw [NoPair, Bool.eq_false_iff, ne_eq, Text.occursIn_iff] at h ⊢
  rw [List.append_assoc] at h
  exact fun hpair => h (hpair.trans (List.suffix_append _ _).isInfix)

theorem NoPair.ne {c : Char} {cs : List Char} (h : NoPair (c :: cs)) (rest more : List Char) :
    c :: (cs ++ '-' :: rest) ≠ '-' :: '-' :: more := by
  intro heq
  obtain ⟨rfl, htail⟩ := List.cons.inj heq
  rw [NoPair, Bool.eq_false_iff, ne_eq, Text.occursIn_iff] at h
  refine h (List.IsPrefix.isInfix ?_)
  cases cs with
  | nil => exact ⟨[], rfl⟩
  | cons d cs => exact ⟨cs ++ ['-'], by rw [(List.cons.inj htail).1]; rfl⟩

theorem takes_wideComment {cs : List Char} (hraw : isRaw cs = true) (hpair : NoPair cs)
    (rest : List Char) : takeWideComment.Takes (cs ++ ("-->".toList ++ rest)) (some cs) rest := by
  have hfirst : ∀ tail, tail ≠ [] → tail <:+ cs →
      ¬ "-->".toList <+: tail ++ ("-->".toList ++ rest) := by
    rintro tail hne htail ⟨more, hmore⟩
    obtain ⟨c, tail, rfl⟩ := List.exists_cons_of_ne_nil hne
    exact (hpair.of_suffix htail).ne ('-' :: '>' :: rest) ('>' :: more) hmore.symm
  refine (takes_until (by decide) hraw hfirst).bind ?_
  refine (Scan.takes_require ?_ rest).bind (Scan.takes_pure _ _)
  rw [Option.any_some, hpair]
  rfl

/-- **A comment is taken up to its end.** -/
theorem takes_comment {cs : List Char} (h : isComment cs = true) (rest : List Char) :
    Scan.Takes takeComment (cs ++ ("-->".toList ++ rest)) (some cs) rest := by
  simp only [isComment, Bool.and_eq_true, Bool.not_eq_true'] at h
  obtain ⟨hraw, hpair⟩ := h
  change NoPair cs at hpair
  induction cs with
  | nil => rfl
  | cons c cs ih =>
      have hwide := takes_wideComment hraw hpair rest
      have hnoPair := hpair.ne ('-' :: '>' :: rest)
      obtain ⟨⟨-, hreturn⟩, hcs⟩ := isRaw_cons.mp hraw
      have hmore := ih hcs (hpair.of_suffix (List.suffix_cons _ _))
      rw [List.cons_append] at hwide ⊢
      rw [Scan.Takes, takeComment.eq_def]
      split
      · next heq => cases heq
      · next heq => exact absurd heq (hnoPair _)
      · next heq => exact absurd heq (hnoPair _)
      · next heq => exact absurd (List.cons.inj heq).1 hreturn
      · next heq =>
        cases heq
        split
        · rw [hmore]
          rfl
        · exact hwide

theorem exists_of_isInstruction {cs : List Char} (h : isInstruction cs = true) :
    ∃ target data, cs = target ++ ' ' :: data ∧ isSimpleName target = true ∧
      target.map Char.toLower ≠ "xml".toList ∧ data.head?.any isBlank = false ∧ isRaw data = true ∧
      ¬ ['?', '>'] <:+: data := by
  have hsplit : cs.takeWhile (· != ' ') ++ cs.dropWhile (· != ' ') = cs :=
    List.takeWhile_append_dropWhile
  unfold isInstruction at h
  dsimp only at h
  split at h
  · next data hdata =>
    rw [hdata] at hsplit
    simp only [Bool.and_eq_true, Bool.not_eq_true', bne_iff_ne, ne_eq] at h
    obtain ⟨⟨⟨⟨htarget, hxml⟩, hblank⟩, hraw⟩, hmark⟩ := h
    refine ⟨_, data, hsplit.symm, htarget, hxml, hblank, hraw, ?_⟩
    rw [Bool.eq_false_iff, ne_eq, Text.occursIn_iff] at hmark
    exact hmark
  · cases h

/-- **An instruction is taken up to its end.** -/
theorem takes_instruction {cs : List Char} (h : isInstruction cs = true) (rest : List Char) :
    takeInstruction.Takes (cs ++ ("?>".toList ++ rest)) (some cs) rest := by
  obtain ⟨target, data, rfl, htarget, hxml, hblank, hraw, hmark⟩ := exists_of_isInstruction h
  obtain ⟨hstart, -, hchars⟩ := isSimpleName_iff.mp htarget
  have hne : target.isEmpty = false := by
    cases target with
    | nil => cases hstart
    | cons c target => rfl
  have hfirst : ∀ tail, tail ≠ [] → tail <:+ data →
      ¬ ['?', '>'] <+: tail ++ (['?', '>'] ++ rest) := by
    rintro tail hne ⟨front, rfl⟩ ⟨more, hmore⟩
    obtain ⟨c, tail, rfl⟩ := List.exists_cons_of_ne_nil hne
    obtain ⟨rfl, htail⟩ := List.cons.inj hmore
    cases tail with
    | nil => cases (List.cons.inj htail).1
    | cons d tail =>
        obtain ⟨rfl, -⟩ := List.cons.inj htail
        exact hmark ⟨front, tail, by simp⟩
  have hdata : (data ++ ("?>".toList ++ rest)).head?.any isBlank = false := by
    cases data with
    | nil => rfl
    | cons d data => exact hblank
  have htext : target ++ ' ' :: data ++ ("?>".toList ++ rest) =
      target ++ ' ' :: (data ++ ("?>".toList ++ rest)) := by simp
  rw [htext]
  refine (Scan.takes_name hstart hchars rfl).bind ?_
  rw [if_neg (by simp [hne])]
  refine (Scan.takes_require (by simpa using hxml) _).bind ?_
  refine (Scan.takes_no_word (w := "?>") (by simp)).bind ?_
  rw [if_neg (by simp)]
  refine (Scan.takes_blanks _).bind ?_
  refine (Scan.takes_require rfl _).bind ?_
  rw [Scan.dropWhile_blank hdata]
  exact (takes_until (by decide) hraw hfirst).bind (Scan.takes_pure _ _)

end TokenCatalog.Xml
