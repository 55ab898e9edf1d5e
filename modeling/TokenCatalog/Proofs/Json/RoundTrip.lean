import TokenCatalog.Proofs.Json.Scalars
import TokenCatalog.Proofs.Json.Table
import TokenCatalog.Text.Lines

/-!
# Reading what was written

A value on one line is read back as it was, whatever its texts hold and in whichever alphabet it is
written. The members of its objects have to be named by texts, each by another one, and its binary
numbers have to be numbers of the format. A plain value has no binary numbers. Main statements:

* `Json.WellFormed.readsBack`: a value is read back, whatever ends it in the text;
* `Json.WellFormed.read_write`: the text of a value is a JSON text of that value;
* `Json.WellFormed.allows_write`: the text stays on one line and in its alphabet.
-/

namespace TokenCatalog

/-- A value that its text determines. -/
inductive Json.Plain : Json → Prop
  | null : Plain .null
  | bool (b : Bool) : Plain (.bool b)
  | int (n : Int) : Plain (.int n)
  | str (s : String) : Plain (.str s)
  | arr {items : List Json} (hitems : ∀ x ∈ items, Plain x) : Plain (.arr items)
  | obj {members : List (Key × Json)} (htexts : ∀ m ∈ members, ∃ s, m.1 = .text s)
      (hnodup : (members.map (·.1)).Nodup) (hvalues : ∀ m ∈ members, Plain m.2) :
      Plain (.obj members)

/-- A value that its text determines, binary numbers included. -/
inductive Json.WellFormed : Json → Prop
  | null : WellFormed .null
  | bool (b : Bool) : WellFormed (.bool b)
  | int (n : Int) : WellFormed (.int n)
  | real {x : Binary64} (hx : x.Canonical) : WellFormed (.real x)
  | str (s : String) : WellFormed (.str s)
  | arr {items : List Json} (hitems : ∀ x ∈ items, WellFormed x) : WellFormed (.arr items)
  | obj {members : List (Key × Json)} (htexts : ∀ m ∈ members, ∃ s, m.1 = .text s)
      (hnodup : (members.map (·.1)).Nodup) (hvalues : ∀ m ∈ members, WellFormed m.2) :
      WellFormed (.obj members)

theorem Json.Plain.wellFormed {value : Json} (h : value.Plain) : value.WellFormed := by
  induction h with
  | null => exact .null
  | bool b => exact .bool b
  | int n => exact .int n
  | str s => exact .str s
  | arr hitems ih => exact .arr ih
  | obj htexts hnodup hvalues ih => exact .obj htexts hnodup ih

variable {alphabet : JsonAlphabet}

/-! ## Beginnings -/

/-- A text begins as a written value does: neither with a blank nor with a byte order mark, nor with
the end of a list. -/
def Begins (cs : List Char) : Prop :=
  ∃ c ∈ cs.head?, isJsonBlank c = false ∧ c ≠ ']' ∧ c ≠ '\ufeff'

theorem Begins.append {cs : List Char} (h : Begins cs) (rest : List Char) :
    Begins (cs ++ rest) := by
  obtain ⟨c, hc, hbegins⟩ := h
  refine ⟨c, ?_, hbegins⟩
  cases cs with
  | nil => cases hc
  | cons d ds => exact hc

theorem Begins.skip {cs : List Char} (h : Begins cs) : skipJsonBlanks cs = cs := by
  obtain ⟨c, hc, hblank, -⟩ := h
  cases cs with
  | nil => cases hc
  | cons d ds =>
      cases hc
      rw [skipJsonBlanks, List.dropWhile_cons_of_neg (by simp [hblank])]

theorem Begins.length_pos {cs : List Char} (h : Begins cs) : 0 < cs.length := by
  obtain ⟨c, hc, -⟩ := h
  cases cs with
  | nil => cases hc
  | cons d ds => exact Nat.succ_pos _

theorem BeginsNumber.begins {cs : List Char} (h : BeginsNumber cs) : Begins cs := by
  obtain ⟨d, ds, hd, rfl | rfl⟩ := h
  · exact ⟨d, rfl, isJsonBlank_of_isDigit hd, ne_of_isDigit hd rfl, ne_of_isDigit hd rfl⟩
  · exact ⟨'-', rfl, by decide⟩

theorem BeginsNumber.head {cs : List Char} (h : BeginsNumber cs) :
    ∀ c ∈ cs.head?, c ≠ '"' ∧ c ≠ '[' ∧ c ≠ '\x7b' := by
  obtain ⟨d, ds, hd, rfl | rfl⟩ := h
  · rintro c ⟨⟩
    exact ⟨ne_of_isDigit hd rfl, ne_of_isDigit hd rfl, ne_of_isDigit hd rfl⟩
  · rintro c ⟨⟩
    decide

theorem beginsNumber_writeReal {negative : Bool} {significand : Nat} {exponent : Int}
    (hx : (Binary64.finite negative significand exponent).Canonical) :
    BeginsNumber (writeReal (.finite negative significand exponent)) := by
  obtain ⟨f, hf, htext, -⟩ := Binary64.figures_shortestText jsonWords hx
  rw [writeReal, htext]
  exact beginsNumber_digits negative hf.whole _

theorem Json.WellFormed.begins (alphabet : JsonAlphabet) {value : Json} (h : value.WellFormed) :
    Begins (value.write alphabet) := by
  cases h with
  | null => exact ⟨'n', rfl, by decide⟩
  | bool b => cases b <;> exact ⟨_, rfl, by decide⟩
  | int n => exact (beginsNumber_textOfInt n).begins
  | @real x hx =>
      cases x with
      | nan => exact ⟨'N', rfl, by decide⟩
      | infinite negative => cases negative <;> exact ⟨_, rfl, by decide⟩
      | finite negative significand exponent => exact (beginsNumber_writeReal hx).begins
  | str s => exact ⟨'"', rfl, by decide⟩
  | arr h => exact ⟨'[', rfl, by decide⟩
  | obj h _ _ => exact ⟨'\x7b', rfl, by decide⟩

/-! ## Values -/

/-- A value is read back, whatever ends it, with as much fuel as its text has characters. -/
def ReadsBack (alphabet : JsonAlphabet) (value : Json) : Prop :=
  ∀ fuel rest, (value.write alphabet).length ≤ fuel → Ends rest →
    readValue none fuel (value.write alphabet ++ rest) = .ok (value, rest)

/-- A value that is neither a string nor a container is read as a scalar. -/
theorem readValue_scalar {fuel : Nat} {value : Json} {cs rest : List Char}
    (hhead : ∀ c ∈ cs.head?, c ≠ '"' ∧ c ≠ '[' ∧ c ≠ '\x7b')
    (h : readScalar? cs = some (value, rest)) :
    readValue none (fuel + 1) cs = .ok (value, rest) := by
  rw [readValue, h]
  · rfl
  · rintro tail rfl
    exact (hhead _ rfl).1 rfl
  · rintro tail rfl
    exact (hhead _ rfl).2.1 rfl
  · rintro tail rfl
    exact (hhead _ rfl).2.2 rfl

theorem readsBack_scalar {value : Json}
    (hhead : ∀ c ∈ (value.write alphabet).head?, c ≠ '"' ∧ c ≠ '[' ∧ c ≠ '\x7b')
    (hbegins : Begins (value.write alphabet))
    (h : ∀ rest, Ends rest →
      readScalar? (value.write alphabet ++ rest) = some (value, rest)) :
        ReadsBack alphabet value := by
  intro fuel rest hfuel hrest
  have hpos := hbegins.length_pos
  obtain ⟨fuel, rfl⟩ : ∃ n, fuel = n + 1 := ⟨fuel - 1, by omega⟩
  refine readValue_scalar ?_ (h rest hrest)
  cases htext : value.write alphabet with
  | nil => rw [htext] at hpos; cases hpos
  | cons c cs => rwa [htext] at hhead

theorem readsBack_str (s : String) : ReadsBack alphabet (.str s) := by
  intro fuel rest hfuel hrest
  have hpos := ((Json.WellFormed.str s).begins alphabet).length_pos
  obtain ⟨fuel, rfl⟩ : ∃ n, fuel = n + 1 := ⟨fuel - 1, by omega⟩
  have htext : (Json.str s).write alphabet ++ rest =
      '"' :: (s.toList.flatMap (writeChar alphabet) ++ '"' :: rest) := by
    simp [Json.write, writeString]
  rw [htext, readValue, readString_of_length]
  show Except.ok _ = _
  rw [String.ofList_toList]

theorem writeItems_cons_cons (x y : Json) (ys : List Json) :
    Json.writeItems alphabet (x :: y :: ys) =
      x.write alphabet ++ ',' :: ' ' :: Json.writeItems alphabet (y :: ys) := by
  rw [Json.writeItems]
  exact List.cons_ne_nil y ys

theorem writeItems_begins (alphabet : JsonAlphabet) {items : List Json} (hne : items ≠ [])
    (h : ∀ x ∈ items, x.WellFormed) :
    Begins (Json.writeItems alphabet items) := by
  cases items with
  | nil => exact absurd rfl hne
  | cons x xs =>
      have hx := (h x List.mem_cons_self).begins alphabet
      cases xs with
      | nil => exact hx
      | cons y ys => exact hx.append _

theorem readItems_write {items : List Json} (hne : items ≠ []) (hplain : ∀ x ∈ items, x.WellFormed)
    (h : ∀ x ∈ items, ReadsBack alphabet x) (rest : List Char) {fuel : Nat}
    (hfuel : (Json.writeItems alphabet items).length < fuel) :
    readItems none fuel (Json.writeItems alphabet items ++ ']' :: rest) = .ok (items, rest) := by
  induction items generalizing fuel with
  | nil => exact absurd rfl hne
  | cons x xs ih =>
      rw [List.forall_mem_cons] at hplain h
      -- one unit is for this item; its text is shorter than the fuel that is left
      obtain ⟨fuel, rfl⟩ : ∃ n, fuel = n + 1 := ⟨fuel - 1, by omega⟩
      cases xs with
      | nil =>
          have hx := h.1 fuel (']' :: rest) (Nat.lt_succ_iff.mp hfuel) (.cons (by simp) rest)
          rw [Json.writeItems, readItems, hx]
          rfl
      | cons y ys =>
          have hys := writeItems_begins alphabet (List.cons_ne_nil y ys) hplain.2
          rw [writeItems_cons_cons, List.length_append, List.length_cons, List.length_cons] at hfuel
          have hx := h.1 fuel (',' :: ' ' :: (Json.writeItems alphabet (y :: ys) ++ ']' :: rest))
            (by omega) (.cons (by simp) _)
          have hlength : (Json.writeItems alphabet (y :: ys)).length < fuel := by omega
          have hrest := ih (List.cons_ne_nil y ys) hplain.2 h.2 hlength
          have hskip : skipJsonBlanks (' ' :: (Json.writeItems alphabet (y :: ys) ++ ']' :: rest)) =
              Json.writeItems alphabet (y :: ys) ++ ']' :: rest := (hys.append _).skip
          rw [writeItems_cons_cons, List.append_assoc, List.cons_append, List.cons_append,
            readItems, hx]
          show (readItems none fuel (skipJsonBlanks _) >>= _) = _
          rw [hskip, hrest]
          rfl

theorem readsBack_arr {items : List Json} (hplain : ∀ x ∈ items, x.WellFormed)
    (h : ∀ x ∈ items, ReadsBack alphabet x) : ReadsBack alphabet (.arr items) := by
  intro fuel rest hfuel hrest
  rw [Json.write, List.length_append, List.length_cons] at hfuel
  obtain ⟨fuel, rfl⟩ : ∃ n, fuel = n + 1 := ⟨fuel - 1, by omega⟩
  cases items with
  | nil => rfl
  | cons x xs =>
      have hbegins := (writeItems_begins alphabet (List.cons_ne_nil x xs) hplain).append
          (']' :: rest)
      have hlength : (Json.writeItems alphabet (x :: xs)).length < fuel := by
        rw [List.length_singleton] at hfuel
        omega
      have hitems := readItems_write (List.cons_ne_nil x xs) hplain h rest hlength
      rw [Json.write, List.append_assoc, List.cons_append, List.singleton_append, readValue,
        hbegins.skip]
      split
      -- the text of an item does not begin with the end of the list
      · next tail heq =>
          obtain ⟨c, hc, -, hne, -⟩ := hbegins
          rw [heq] at hc
          cases hc
          exact absurd rfl hne
      · rw [hitems]
        rfl

/-! ## Objects -/

def writeMember (alphabet : JsonAlphabet) (name : String) (value : Json) : List Char :=
  writeString alphabet name ++ ':' :: ' ' :: value.write alphabet

theorem writeMembers_singleton (m : Key × Json) :
    Json.writeMembers alphabet [m] = writeMember alphabet m.1.name m.2 := by
  rw [Json.writeMembers]
  rfl

theorem writeMembers_cons_cons (m n : Key × Json) (ns : List (Key × Json)) :
    Json.writeMembers alphabet (m :: n :: ns) =
      writeMember alphabet m.1.name m.2 ++ ',' :: ' ' :: Json.writeMembers alphabet (n :: ns) := by
  rw [Json.writeMembers]
  · rfl
  · exact List.cons_ne_nil n ns

theorem writeMembers_head {members : List (Key × Json)} (hne : members ≠ []) :
    ∃ rest, Json.writeMembers alphabet members = '"' :: rest := by
  cases members with
  | nil => exact absurd rfl hne
  | cons m ms =>
      cases ms with
      | nil =>
          rw [writeMembers_singleton]
          exact ⟨_, rfl⟩
      | cons n ns =>
          rw [writeMembers_cons_cons]
          exact ⟨_, rfl⟩

theorem skip_writeMembers (alphabet : JsonAlphabet) {members : List (Key × Json)}
    (hne : members ≠ []) (rest : List Char) :
    skipJsonBlanks (Json.writeMembers alphabet members ++ rest) =
      Json.writeMembers alphabet members ++ rest := by
  obtain ⟨text, htext⟩ := writeMembers_head hne
  rw [htext]
  rfl

theorem writeMember_length (alphabet : JsonAlphabet) (name : String) (value : Json) :
    (value.write alphabet).length < (writeMember alphabet name value).length := by
  simp [writeMember, writeString]
  omega

/-- A member is read back, and then what follows it decides. -/
theorem readMembers_member {name : String} {value : Json} (h : ReadsBack alphabet value)
    (hbegins : Begins (value.write alphabet)) {fuel : Nat}
    (hfuel : (value.write alphabet).length ≤ fuel) (rest : List Char) : Ends rest →
    readMembers none (fuel + 1) (writeMember alphabet name value ++ rest) =
      match rest with
      | '\x7d' :: rest => .ok ([(.text name, value)], rest)
      | ',' :: rest => do
        let (members, rest) ← readMembers none fuel (skipJsonBlanks rest)
        .ok ((.text name, value) :: members, rest)
      | rest => .error ⟨.comma, rest.length⟩ := by
  intro hrest
  have htext : writeMember alphabet name value ++ rest =
      '"' :: (name.toList.flatMap (writeChar alphabet) ++
      '"' :: ':' :: ' ' :: (value.write alphabet ++ rest)) := by
    simp [writeMember, writeString]
  have hskip : skipJsonBlanks (' ' :: (value.write alphabet ++ rest)) =
      value.write alphabet ++ rest := (hbegins.append rest).skip
  rw [htext, readMembers, readString_of_length]
  show (readValue none fuel (skipJsonBlanks _) >>= _) = _
  rw [hskip, h fuel rest hfuel hrest]
  cases rest with
  | nil => rfl
  | cons c cs =>
      rcases hrest c rfl with rfl | rfl | rfl <;> simp only [String.ofList_toList] <;> rfl

theorem readMembers_write {members : List (Key × Json)} (hne : members ≠ [])
    (htexts : ∀ m ∈ members, ∃ s, m.1 = .text s) (hplain : ∀ m ∈ members, m.2.WellFormed)
    (h : ∀ m ∈ members, ReadsBack alphabet m.2) (rest : List Char) {fuel : Nat}
    (hfuel : (Json.writeMembers alphabet members).length < fuel) :
    readMembers none fuel (Json.writeMembers alphabet members ++ '\x7d' :: rest) =
      .ok (members, rest) := by
  induction members generalizing fuel with
  | nil => exact absurd rfl hne
  | cons m ms ih =>
      rw [List.forall_mem_cons] at htexts hplain h
      obtain ⟨fuel, rfl⟩ : ∃ n, fuel = n + 1 := ⟨fuel - 1, by omega⟩
      obtain ⟨key, value⟩ := m
      obtain ⟨name, rfl⟩ := htexts.1
      have hmember := writeMember_length alphabet name value
      have hbegins := hplain.1.begins alphabet
      cases ms with
      | nil =>
          rw [writeMembers_singleton] at hfuel ⊢
          dsimp only [Key.name] at hfuel
          have hlength : (value.write alphabet).length ≤ fuel := by omega
          exact readMembers_member h.1 hbegins hlength _ (.cons (by simp) rest)
      | cons n ns =>
          rw [writeMembers_cons_cons, List.length_append, List.length_cons, List.length_cons]
            at hfuel
          dsimp only [Key.name] at hfuel
          have hlength : (value.write alphabet).length ≤ fuel := by omega
          have hlength' : (Json.writeMembers alphabet (n :: ns)).length < fuel := by omega
          have hrest := ih (List.cons_ne_nil n ns) htexts.2 hplain.2 h.2 hlength'
          have hskip := skip_writeMembers alphabet (List.cons_ne_nil n ns) ('\x7d' :: rest)
          rw [writeMembers_cons_cons, Key.name, List.append_assoc, List.cons_append,
            List.cons_append, readMembers_member h.1 hbegins hlength _ (.cons (by simp) _)]
          show (readMembers none fuel (skipJsonBlanks (Json.writeMembers alphabet (n :: ns) ++
              _)) >>= _) = _
          rw [hskip, hrest]
          rfl

theorem readsBack_obj {members : List (Key × Json)} (htexts : ∀ m ∈ members, ∃ s, m.1 = .text s)
    (hnodup : (members.map (·.1)).Nodup) (hplain : ∀ m ∈ members, m.2.WellFormed)
    (h : ∀ m ∈ members, ReadsBack alphabet m.2) : ReadsBack alphabet (.obj members) := by
  -- reading makes a table of the members, which is what they are
  have htable : tableOf Key.same members = members := by
    refine tableOf_eq_self Key.same_eq ?_
    rwa [List.map_congr_left fun m hm => ?_]
    obtain ⟨s, hs⟩ := htexts m hm
    rw [hs]
    rfl
  intro fuel rest hfuel hrest
  rw [Json.write, List.length_append, List.length_cons, List.length_singleton] at hfuel
  obtain ⟨fuel, rfl⟩ : ∃ n, fuel = n + 1 := ⟨fuel - 1, by omega⟩
  cases members with
  | nil => rfl
  | cons m ms =>
      have hne := List.cons_ne_nil m ms
      have hlength : (Json.writeMembers alphabet (m :: ms)).length < fuel := by omega
      have hmembers := readMembers_write hne htexts hplain h rest hlength
      rw [Json.write, List.append_assoc, List.cons_append, List.singleton_append, readValue,
        skip_writeMembers alphabet hne]
      split
      · next tail heq =>
          obtain ⟨text, htext⟩ := writeMembers_head hne
          rw [htext] at heq
          cases heq
      · rw [hmembers]
        show Except.ok (Json.obj (tableOf Key.same (m :: ms)), rest) = _
        rw [htable]

/-! ## Whole texts -/

/-- **Values are read back.** The induction is over the value; what follows the value in the text is
arbitrary, so that the statement serves for the parts of a list or an object as well. -/
theorem Json.WellFormed.readsBack (alphabet : JsonAlphabet) {value : Json} (h : value.WellFormed) :
    ReadsBack alphabet value := by
  induction h with
  | null =>
      refine readsBack_scalar ?_ (Json.WellFormed.null.begins _) fun rest _ => rfl
      rintro c ⟨⟩
      decide
  | bool b =>
      cases b <;> refine readsBack_scalar ?_ ((Json.WellFormed.bool _).begins _) fun rest _ => rfl
      · rintro c ⟨⟩
        decide
      · rintro c ⟨⟩
        decide
  | int n =>
      exact readsBack_scalar (beginsNumber_textOfInt n).head ((Json.WellFormed.int n).begins _)
        fun rest => readScalar?_textOfInt n
  | @real x hx =>
      refine readsBack_scalar ?_ ((Json.WellFormed.real hx).begins _) fun rest =>
        readScalar?_writeReal hx
      cases x with
      | nan =>
          rintro c ⟨⟩
          decide
      | infinite negative =>
          cases negative
          · rintro c ⟨⟩
            decide
          · rintro c ⟨⟩
            decide
      | finite negative significand exponent => exact (beginsNumber_writeReal hx).head
  | str s => exact readsBack_str s
  | arr hitems ih => exact readsBack_arr hitems ih
  | obj htexts hnodup hvalues ih => exact readsBack_obj htexts hnodup hvalues ih

/-- **The text of a value is read as that value.** -/
theorem Json.WellFormed.read_write (alphabet : JsonAlphabet) {value : Json} (h : value.WellFormed) :
    Json.read (value.write alphabet) = .ok value := by
  have hbegins := h.begins alphabet
  have hvalue := h.readsBack alphabet _ [] (Nat.le_succ _) Ends.nil
  rw [List.append_nil] at hvalue
  rw [Json.read, Json.readLimited, hbegins.skip, hvalue]
  · rfl
  · intro tail htail
    obtain ⟨c, hc, -, -, hmark⟩ := hbegins
    rw [htail] at hc
    cases hc
    exact hmark rfl

theorem Json.read_write {value : Json} (h : value.Plain) :
    Json.read (value.write .unicode) = .ok value :=
  h.wellFormed.read_write .unicode

/-! ## Characters of the text -/

theorem JsonAlphabet.Allows.blank : alphabet.Allows ' ' :=
  .of_range (by decide)

theorem JsonAlphabet.Allows.comma : alphabet.Allows ',' :=
  .of_range (by decide)

theorem allows_writeItems {items : List Json}
    (h : ∀ x ∈ items, ∀ c ∈ x.write alphabet, alphabet.Allows c) :
    ∀ c ∈ Json.writeItems alphabet items, alphabet.Allows c := by
  induction items with
  | nil => rintro c ⟨⟩
  | cons x xs ih =>
      rw [List.forall_mem_cons] at h
      cases xs with
      | nil => exact h.1
      | cons y ys =>
          rw [writeItems_cons_cons, List.forall_mem_append, List.forall_mem_cons,
            List.forall_mem_cons]
          exact ⟨h.1, .comma, .blank, ih h.2⟩

theorem allows_writeMembers {members : List (Key × Json)}
    (h : ∀ m ∈ members, ∀ c ∈ m.2.write alphabet, alphabet.Allows c) :
    ∀ c ∈ Json.writeMembers alphabet members, alphabet.Allows c := by
  have hmember : ∀ m ∈ members, ∀ c ∈ writeMember alphabet m.1.name m.2, alphabet.Allows c := by
    intro m hm
    rw [writeMember, List.forall_mem_append, List.forall_mem_cons, List.forall_mem_cons]
    exact ⟨allows_writeString _, .of_range (by decide), .blank, h m hm⟩
  induction members with
  | nil => rintro c ⟨⟩
  | cons m ms ih =>
      rw [List.forall_mem_cons] at h hmember
      cases ms with
      | nil =>
          rw [writeMembers_singleton]
          exact hmember.1
      | cons n ns =>
          rw [writeMembers_cons_cons, List.forall_mem_append, List.forall_mem_cons,
            List.forall_mem_cons]
          exact ⟨hmember.1, .comma, .blank, ih h.2 hmember.2⟩

/-- **A text stays on one line and in its alphabet.** -/
theorem Json.WellFormed.allows_write {value : Json} (h : value.WellFormed) :
    ∀ c ∈ value.write alphabet, alphabet.Allows c := by
  induction h with
  | null =>
      show ∀ c ∈ "null".toList, alphabet.Allows c
      exact allows_of_all (by decide)
  | bool b =>
      show ∀ c ∈ (if b then "true" else "false").toList, alphabet.Allows c
      cases b <;> exact allows_of_all (by decide)
  | int n => exact allows_textOfInt n
  | real hx => exact allows_writeReal hx
  | str s => exact allows_writeString s
  | arr hitems ih =>
      rw [Json.write, List.cons_append, List.forall_mem_cons, List.forall_mem_append]
      exact ⟨.of_range (by decide), allows_writeItems ih, allows_of_all (by decide)⟩
  | obj htexts hnodup hvalues ih =>
      rw [Json.write, List.cons_append, List.forall_mem_cons, List.forall_mem_append]
      exact ⟨.of_range (by decide), allows_writeMembers ih, allows_of_all (by decide)⟩

/-! ## Carriage returns -/

theorem universalNewlines_eq_self {cs : List Char} (h : '\r' ∉ cs) :
    Text.universalNewlines cs = cs := by
  induction cs with
  | nil => rfl
  | cons c cs ih =>
      rw [List.mem_cons, not_or] at h
      have hne : c ≠ '\r' := Ne.symm h.1
      rw [Text.universalNewlines, ih h.2]
      · rintro tail rfl
        exact absurd rfl hne
      · exact hne

/-- No text holds a carriage return, so none is changed when line ends are made uniform. -/
theorem Json.Plain.no_return {value : Json} (h : value.Plain) : '\r' ∉ value.write .unicode :=
  fun hmem => absurd (h.wellFormed.allows_write _ hmem).1 (by decide)

end TokenCatalog
