import TokenCatalog.Css.Write
import TokenCatalog.Proofs.Css.Slice

/-!
# Text that is written as it was read

A tree is written from the values of its tokens, so what comes out is the text that went in only as
far as the writer spells every token the way the author did. Main statements:

* `Faithful`: a text whose tokens are spelled that way;
* `Spelled.write_eq`: a faithful text is written as it was read, if its brackets are closed and no
  two neighbours of its tree need to be kept apart;
* `faithful_of_plain`: what the writer may spell otherwise are escapes, strings in single quotes,
  unquoted addresses, ranges and units that look like an exponent.
-/

namespace TokenCatalog.Css

/-! ## Tokens and their sources -/

/-- The scans of uniform text one after another, each with the characters that it takes. -/
def pieces : List Char → List (Scan × List Char)
  | [] => []
  | c :: cs =>
    (scan c cs, c :: cs.take (scan c cs).more) :: pieces (cs.drop (scan c cs).more)
termination_by cs => cs.length

/-- The text of a lexeme. -/
def Lexeme.write : Lexeme → List Char
  | .leaf l => l.write
  | .openFunction name => writeIdent name ++ ['(']
  | .openBlock bracket => [bracket.opening]
  | .close bracket => [bracket.closing]

/-- Every token of a text is spelled as the writer would spell it. -/
def Faithful (cs : List Char) : Prop :=
  ∀ piece ∈ pieces cs, ∀ lexeme, piece.1.lexemes = [lexeme] → lexeme.write = piece.2

theorem faithful_cons {c : Char} {cs : List Char} :
    Faithful (c :: cs) ↔
      (∀ lexeme, (scan c cs).lexemes = [lexeme] → lexeme.write = c :: cs.take (scan c cs).more) ∧
        Faithful (cs.drop (scan c cs).more) := by
  rw [Faithful, pieces, List.forall_mem_cons, Faithful]

instance (cs : List Char) : Decidable (Faithful cs) :=
  decidable_of_iff (∀ piece ∈ pieces cs, ∀ lexeme ∈ piece.1.lexemes.head?,
      piece.1.lexemes.tail = [] → lexeme.write = piece.2) <| by
    refine forall₂_congr fun piece _ => ?_
    cases piece.1.lexemes with
    | nil => simp
    | cons lexeme more => cases more <;> simp

/-! ## Neighbours -/

mutual

/-- Whether no two neighbours inside a node need to be kept apart. -/
def Node.isApart : Node → Bool
  | .leaf _ _ => true
  | .function _ _ arguments => isApartFrom none arguments
  | .block _ _ content => isApartFrom none content

/-- Whether no two neighbours among nodes need to be kept apart, given the shape before them. -/
def isApartFrom (previous : Option Shape) : List Node → Bool
  | [] => true
  | node :: nodes =>
    (separator previous node).isEmpty && node.isApart && isApartFrom (some node.shape) nodes

end

/-- After a blank nothing needs to be kept apart. -/
theorem writeFrom_other (nodes : List Node) : writeFrom (some .other) nodes = write nodes := by
  cases nodes with
  | nil => rw [write, writeFrom, writeFrom]
  | cons node nodes => rw [write, writeFrom, writeFrom]; rfl

theorem isApartFrom_cons {previous : Option Shape} {node : Node} {nodes : List Node}
    (h : isApartFrom previous (node :: nodes) = true) :
    separator previous node = [] ∧ node.isApart = true ∧
      isApartFrom (some node.shape) nodes = true := by
  rw [isApartFrom, Bool.and_eq_true, Bool.and_eq_true, List.isEmpty_iff] at h
  exact ⟨h.1.1, h.1.2, h.2⟩

theorem Opener.isApart_node (opener : Opener) (position : Position) (content : List Node) :
    (opener.node position content).isApart = isApartFrom none content := by
  cases opener <;> rw [node, Node.isApart]

theorem Opener.write_node (opener : Opener) (position : Position) (content : List Node) :
    (opener.node position content).write =
      opener.lexeme.write ++ (writeFrom none content ++ [opener.bracket.closing]) := by
  cases opener with
  | function name =>
      rw [node, Node.write, lexeme, Lexeme.write, bracket, Bracket.closing]
      simp
  | block bracket =>
      rw [node, Node.write, lexeme, Lexeme.write, Opener.bracket]
      rfl

/-! ## Rows as they are -/

/-- The text that a closed row was read from is the text of its nodes. -/
theorem SpansClosed.writeFrom_eq {x y : Point} {nodes : List Node} (h : SpansClosed x nodes y) :
    ∀ previous, Faithful x.text → isApartFrom previous nodes = true →
      x.text = writeFrom previous nodes ++ y.text ∧ Faithful y.text := by
  induction h with
  | nil x =>
      intro previous hfaithful _
      exact ⟨by rw [writeFrom, List.nil_append], hfaithful⟩
  | @leaf p c cs leaf more nodes y hscan h ih =>
      intro previous hfaithful hapart
      rw [faithful_cons, hscan] at hfaithful
      obtain ⟨hseparator, -, hnodes⟩ := isApartFrom_cons hapart
      -- the leaf is written as it was read, with nothing between it and what is before
      have hwritten : leaf.write = c :: cs.take more := hfaithful.1 (.leaf leaf) rfl
      obtain ⟨hrow, hy⟩ := ih _ hfaithful.2 hnodes
      have hrow : cs.drop more = writeFrom (some (Node.leaf p leaf).shape) nodes ++ y.text := hrow
      refine ⟨?_, hy⟩
      calc c :: cs
          = (c :: cs.take more) ++ cs.drop more := by
            rw [List.cons_append, List.take_append_drop]
        _ = writeFrom previous (.leaf p leaf :: nodes) ++ y.text := by
            rw [writeFrom, hseparator, Node.write, hwritten, List.nil_append, List.append_assoc,
              hrow]
  | @closed p q c cs rest opener more content nodes y hscan hin h ihin ih =>
      intro previous hfaithful hapart
      rw [faithful_cons, hscan] at hfaithful
      obtain ⟨hseparator, hinside, hnodes⟩ := isApartFrom_cons hapart
      rw [opener.isApart_node] at hinside
      have hwritten : opener.lexeme.write = c :: cs.take more := hfaithful.1 opener.lexeme rfl
      obtain ⟨hcontent, hclosing⟩ := ihin _ hfaithful.2 hinside
      rw [faithful_cons, scan_closing] at hclosing
      obtain ⟨hrow, hy⟩ := ih _ hclosing.2 hnodes
      have hcontent : cs.drop more = writeFrom none content ++ opener.bracket.closing :: rest :=
        hcontent
      have hrow : rest = writeFrom (some (opener.node p content).shape) nodes ++ y.text := hrow
      refine ⟨?_, hy⟩
      calc c :: cs
          = (c :: cs.take more) ++ cs.drop more := by
            rw [List.cons_append, List.take_append_drop]
        _ = opener.lexeme.write ++ (writeFrom none content ++ opener.bracket.closing ::
              (writeFrom (some (opener.node p content).shape) nodes ++ y.text)) := by
            rw [hwritten, hcontent, ← hrow]
        _ = writeFrom previous (opener.node p content :: nodes) ++ y.text := by
            rw [writeFrom, hseparator, opener.write_node]
            simp

/-- A text without faults closes every bracket that it opens. -/
def Closed (position : Position) (cs : List Char) : Prop :=
  ∃ nodes q, SpansClosed ⟨position, cs⟩ nodes ⟨q, []⟩

/-- A text is spelled as its tree is written, open brackets apart. -/
structure Spelled (position : Position) (cs : List Char) : Prop where
  faithful : Faithful cs
  apart : isApartFrom none (parseAt position cs) = true

/-- **A text that is spelled so is written as it was read**, if it is closed. -/
theorem Spelled.write_eq {position : Position} {cs : List Char} (h : Spelled position cs)
    (hclosed : Closed position cs) : write (parseAt position cs) = cs := by
  obtain ⟨nodes, q, hspans⟩ := hclosed
  have hnodes : parseAt position cs = nodes := nest_of_spans hspans.spans rfl
  have hapart := h.apart
  rw [hnodes] at hapart ⊢
  obtain ⟨hwritten, -⟩ := hspans.writeFrom_eq none h.faithful hapart
  rw [write]
  exact (hwritten.trans (List.append_nil _)).symm

example : Spelled .start " 1px solid rgb(0, 0, 0)".toList :=
  ⟨by decide +kernel, by decide +kernel⟩

/-- Two numbers that stand side by side are no longer so when they are written. -/
example : write (parse "1-2".toList) = "1/**/-2".toList := by
  decide +kernel

/-! ## Names as they are -/

theorem flatMap_eq_self {f : Char → List Char} {cs : List Char} (h : ∀ c ∈ cs, f c = [c]) :
    cs.flatMap f = cs := by
  induction cs with
  | nil => rfl
  | cons c cs ih =>
      rw [List.flatMap_cons, h c List.mem_cons_self,
        ih fun d hd => h d (List.mem_cons_of_mem c hd)]
      rfl

/-- Without an escape, a name is what stands there. -/
theorem takeName_of_plain {cs : List Char} (h : '\\' ∉ cs.take (takeName cs).2) :
    (takeName cs).1 = cs.take (takeName cs).2 ∧ ∀ c ∈ (takeName cs).1, isNameChar c = true := by
  induction cs using takeName.induct with
  | case1 =>
      rw [takeName]
      exact ⟨rfl, List.forall_mem_nil _⟩
  | case2 c cs hname _ _ _ ih =>
      rw [takeName_name hname, List.take_succ_cons] at h ⊢
      obtain ⟨hsame, hall⟩ := ih fun hmem => h (List.mem_cons_of_mem c hmem)
      exact ⟨congrArg (c :: ·) hsame, List.forall_mem_cons.mpr ⟨hname, hall⟩⟩
  | case3 c cs hname hescape _ _ _ _ _ _ _ =>
      have hname := eq_false_of_ne_true hname
      rw [takeName_escape hname hescape, List.take_succ_cons] at h
      rw [startsEscape_cons, Bool.and_eq_true, beq_iff_eq] at hescape
      exact absurd List.mem_cons_self (hescape.1 ▸ h)
  | case4 c cs hname hescape =>
      rw [takeName_other (eq_false_of_ne_true hname) (eq_false_of_ne_true hescape)]
      exact ⟨rfl, List.forall_mem_nil _⟩

theorem writeName_eq_self {name : List Char} (h : ∀ c ∈ name, isNameChar c = true) :
    writeName name = name := by
  refine flatMap_eq_self fun c hc => ?_
  have hplain : isPlain c = true := h c hc
  rw [hplain, if_pos rfl]

theorem writeName_takeName {cs : List Char} (h : '\\' ∉ cs.take (takeName cs).2) :
    writeName (takeName cs).1 = cs.take (takeName cs).2 := by
  obtain ⟨hsame, hall⟩ := takeName_of_plain h
  rw [writeName_eq_self hall, hsame]

theorem writeStart_eq_self {c : Char} (h : isNameStart c = true) : writeStart c = [c] := by
  have hplain : isPlainStart c = true := h
  rw [writeStart, hplain, if_pos rfl]

/-- An identifier without a hyphen in front. -/
theorem writeIdent_start {c : Char} {name : List Char} (hc : isNameStart c = true)
    (hname : ∀ d ∈ name, isNameChar d = true) : writeIdent (c :: name) = c :: name := by
  have hhyphen : c ≠ '-' := by
    rintro rfl
    cases hc
  rw [writeIdent, writeStart_eq_self hc, writeName_eq_self hname]
  · rfl
  all_goals simp [hhyphen]

/-- An identifier with a hyphen in front, which a second one may follow. -/
theorem writeIdent_hyphen {d : Char} {name : List Char} (hd : (isNameStart d || d == '-') = true)
    (hname : ∀ e ∈ name, isNameChar e = true) :
    writeIdent ('-' :: d :: name) = '-' :: d :: name := by
  by_cases hhyphen : d = '-'
  · subst hhyphen
    rw [writeIdent, writeName_eq_self hname]
  · have hstart : isNameStart d = true := by simpa [hhyphen] using hd
    rw [writeIdent, writeStart_eq_self hstart, writeName_eq_self hname]
    · rfl
    · exact hhyphen

/-- An identifier is written as it stands, if there is no escape in it. -/
theorem writeIdent_takeName {cs : List Char} (hstarts : startsIdent cs = true)
    (h : '\\' ∉ cs.take (takeName cs).2) :
    writeIdent (takeName cs).1 = cs.take (takeName cs).2 := by
  -- an escape would leave its backslash in the text of the name
  have hescape : ∀ {d ds}, startsEscape (d :: ds) = true →
      '\\' ∈ (d :: ds).take (takeName (d :: ds)).2 := by
    intro d ds hescape
    obtain rfl := startsEscape_iff hescape
    rw [takeName_escape (by decide) hescape, List.take_succ_cons]
    exact List.mem_cons_self
  obtain ⟨hsame, hall⟩ := takeName_of_plain h
  rw [← hsame]
  cases cs with
  | nil => cases hstarts
  | cons c cs =>
      rw [startsIdent_cons] at hstarts
      split at hstarts
      · next hc =>
          subst hc
          rw [takeName_name (by decide)] at h hall ⊢
          rw [List.take_succ_cons] at h
          cases cs with
          | nil => cases hstarts
          | cons d ds =>
              rcases Bool.or_eq_true_iff.mp hstarts with hd | hd
              · have hname : isNameChar d = true := by
                  rcases Bool.or_eq_true_iff.mp hd with hstart | hhyphen
                  · exact isNameChar_of_isNameStart hstart
                  · rw [beq_iff_eq.mp hhyphen]
                    decide
                rw [takeName_name hname] at hall ⊢
                exact writeIdent_hyphen hd fun e he =>
                  hall e (List.mem_cons_of_mem _ (List.mem_cons_of_mem _ he))
              · exact absurd (List.mem_cons_of_mem _ (hescape hd)) h
      · rcases Bool.or_eq_true_iff.mp hstarts with hc | hc
        · rw [takeName_name (isNameChar_of_isNameStart hc)] at hall ⊢
          exact writeIdent_start hc fun e he => hall e (List.mem_cons_of_mem c he)
        · exact absurd (hescape hc) h

/-! ## Strings and comments as they are -/

/-- Without an escape, a string that is closed holds what stands between its quotes. -/
theorem takeString_of_plain {quote : Char} {cs : List Char}
    (hclosed : (takeString quote cs).ending = .closed)
    (h : '\\' ∉ cs.take (takeString quote cs).size) :
    cs.take (takeString quote cs).size = (takeString quote cs).value ++ [quote] ∧
      ∀ c ∈ (takeString quote cs).value, c ≠ quote ∧ c ≠ '\\' ∧ c ≠ '\n' := by
  induction cs using takeString.induct quote with
  | case1 =>
      rw [takeString] at hclosed
      cases hclosed
  | case2 cs =>
      rw [takeString_closed]
      exact ⟨rfl, nofun⟩
  | case3 hslash =>
      rw [takeString.eq_def] at hclosed
      simp [hslash] at hclosed
  | case4 cs hslash _ =>
      rw [takeString_escapedLine _ hslash, Quoted.after, List.take_succ_cons] at h
      exact absurd List.mem_cons_self h
  | case5 c cs hline _ _ _ hslash _ =>
      rw [takeString_escape _ hslash hline, Quoted.after, ← Nat.add_assoc, List.take_succ_cons] at h
      exact absurd List.mem_cons_self h
  | case6 cs hquote _ =>
      rw [takeString_line _ hquote] at hclosed
      cases hclosed
  | case7 c cs hquote hslash hline ih =>
      rw [takeString_plain _ hquote hslash hline] at hclosed h ⊢
      rw [Quoted.after, List.take_succ_cons] at h ⊢
      obtain ⟨hsame, hall⟩ := ih hclosed fun hmem => h (List.mem_cons_of_mem c hmem)
      exact ⟨congrArg (c :: ·) hsame, List.forall_mem_cons.mpr ⟨⟨hquote, hslash, hline⟩, hall⟩⟩

theorem writeString_eq {value : List Char}
    (h : ∀ c ∈ value, c ≠ '"' ∧ c ≠ '\\' ∧ c ≠ '\n' ∧ c ≠ '\r' ∧ c ≠ '\x0c') :
    writeString value = '"' :: (value ++ ['"']) := by
  have hself : value.flatMap (fun c =>
      if c = '"' || c = '\\' || c = '\n' || c = '\r' || c = '\x0c' then escapeChar c else [c]) =
      value :=
    flatMap_eq_self fun c hc => by
      obtain ⟨hquote, hslash, hline, hreturn, hfeed⟩ := h c hc
      simp [hquote, hslash, hline, hreturn, hfeed]
  rw [writeString, hself]
  rfl

/-- A comment that is closed holds what stands between its marks. -/
theorem takeComment_of_closed {cs : List Char} (h : (takeComment cs).2 = true) :
    cs.take ((takeComment cs).1.length + 2) = (takeComment cs).1 ++ ['*', '/'] := by
  induction cs using takeComment.induct with
  | case1 => cases h
  | case2 cs => rfl
  | case3 c cs hopen _ _ _ ih =>
      rw [takeComment.eq_3 _ _ hopen] at h ⊢
      exact congrArg (c :: ·) (ih h)

/-! ## Plain tokens -/

def readsAsExponent : List Char → Bool
  | [c] => c == 'e' || c == 'E'
  | c :: '-' :: _ => c == 'e' || c == 'E'
  | _ => false

/-- Whether the writer has only one spelling for a lexeme of some length, escapes and quotes
apart. -/
def Lexeme.isPlain (length : Nat) : Lexeme → Bool
  | .leaf (.url _) => false
  | .leaf (.unicodeRange _ _) => false
  | .leaf (.fault _) => false
  | .leaf (.dimension _ unit) => !readsAsExponent unit
  | .leaf (.comment text) => length == text.length + 4
  | _ => true

/-- A text in whose tokens there is no escape, no string in single quotes, no unquoted address, no
range, no unit that looks like an exponent, and no comment that is not closed. -/
def Plain (cs : List Char) : Prop :=
  ∀ piece ∈ pieces cs, '\\' ∉ piece.2 ∧ piece.2.head? ≠ some '\'' ∧
    ∀ lexeme ∈ piece.1.lexemes, lexeme.isPlain piece.2.length = true

theorem writeUnit_of_plain {unit : List Char} (h : readsAsExponent unit = false) :
    writeUnit unit = writeIdent unit := by
  unfold writeUnit
  split
  · next c =>
      rw [readsAsExponent, Bool.or_eq_false_iff, beq_eq_false_iff_ne, beq_eq_false_iff_ne] at h
      simp [h.1, h.2]
  · next c cs =>
      rw [readsAsExponent, Bool.or_eq_false_iff, beq_eq_false_iff_ne, beq_eq_false_iff_ne] at h
      simp [h.1, h.2]
  · rfl

/-- The text of a plain lexeme is its source. -/
theorem write_of_reads {c : Char} {cs : List Char} {scanned : Scan} (h : Scan.Reads c cs scanned)
    {lexeme : Lexeme} (hone : scanned.lexemes = [lexeme])
    (hescape : '\\' ∉ c :: cs.take scanned.more) (hquote : c ≠ '\'')
    (hplain : lexeme.isPlain (c :: cs.take scanned.more).length = true)
    (hlines : ∀ d ∈ cs, d ≠ '\r' ∧ d ≠ '\x0c') :
    lexeme.write = c :: cs.take scanned.more := by
  cases h with
  | whitespace h =>
      cases hone
      have hprefix := List.prefix_iff_eq_take.mp (List.takeWhile_prefix (l := cs) isSpace)
      exact congrArg (c :: ·) hprefix
  | literal h =>
      cases hone
      exact h
  | @comment rest hc hrest =>
      cases hone
      subst hc hrest
      cases hclosed : (takeComment rest).2 with
      | true =>
          simp only [Scan.one, if_true, List.take_succ_cons, takeComment_of_closed hclosed]
          rfl
      | false =>
          -- a comment that is not closed lacks its last two characters
          have hshort := List.length_take_le ((takeComment rest).1.length + 1) ('*' :: rest)
          simp only [Scan.one, hclosed, Lexeme.isPlain, List.length_cons, beq_iff_eq,
            Bool.false_eq_true, if_false] at hplain
          omega
  | ident h =>
      cases hone
      have hpos := takeName_pos h
      simp only [Scan.one, ← List.take_cons hpos] at hescape ⊢
      exact writeIdent_takeName h hescape
  | atKeyword hc h =>
      cases hone
      subst hc
      have hname := writeIdent_takeName h fun hmem => hescape (List.mem_cons_of_mem _ hmem)
      exact congrArg ('@' :: ·) hname
  | hash hc =>
      cases hone
      subst hc
      have hescape : '\\' ∉ cs.take (takeName cs).2 :=
        fun hmem => hescape (List.mem_cons_of_mem _ hmem)
      refine congrArg ('#' :: ·) ?_
      split
      · next hident => exact writeIdent_takeName hident hescape
      · exact writeName_takeName hescape
  | @number text hne h =>
      cases hone
      have hpos := List.length_pos_iff.mpr hne
      simp only [Scan.one, ← List.take_cons hpos]
      exact List.prefix_iff_eq_take.mp h
  | @percentage text rest hne h =>
      cases hone
      simp only [Scan.one, ← List.take_succ_cons, h, List.take_length_add_append]
      rfl
  | @dimension text rest hne h hunit =>
      cases hone
      have hpos : 0 < text.length + (takeName rest).2 :=
        Nat.add_pos_left (List.length_pos_iff.mpr hne) _
      simp only [Scan.one, ← List.take_cons hpos, h, List.take_length_add_append] at hescape ⊢
      have hwritten : writeUnit (takeName rest).1 = rest.take (takeName rest).2 := by
        rw [writeUnit_of_plain (by simpa [Lexeme.isPlain] using hplain)]
        exact writeIdent_takeName hunit fun hmem => hescape (List.mem_append_right text hmem)
      exact congrArg (text ++ ·) hwritten
  | string hc h =>
      cases hone
      obtain rfl := hc.resolve_right hquote
      obtain ⟨hsource, hvalue⟩ :=
        takeString_of_plain h fun hmem => hescape (List.mem_cons_of_mem _ hmem)
      simp only [Scan.one, hsource]
      refine writeString_eq fun d hd => ?_
      obtain ⟨hquote, hslash, hline⟩ := hvalue d hd
      have hmem : d ∈ cs := List.mem_of_mem_take (hsource ▸ List.mem_append_left _ hd)
      exact ⟨hquote, hslash, hline, hlines d hmem⟩
  | url value more => cases hone; cases hplain
  | unicodeRange first last more => cases hone; cases hplain
  | fault fault more => cases hone; cases hplain
  | ended leaf fault more => cases hone
  | @openFunction rest h hrest =>
      cases hone
      have hsource : c :: cs.take (takeName (c :: cs)).2 =
          (c :: cs).take (takeName (c :: cs)).2 ++ ['('] := by
        rw [← List.take_succ_cons, List.take_add, hrest]
        rfl
      simp only [hsource] at hescape ⊢
      exact congrArg (· ++ ['('])
        (writeIdent_takeName h fun hmem => hescape (List.mem_append_left _ hmem))
  | openBlock bracket h =>
      cases hone
      rw [h]
      rfl
  | close bracket h =>
      cases hone
      rw [h]
      rfl

/-- **Plain text is faithful**, once its lines end in line feeds. -/
theorem faithful_of_plain {cs : List Char} (hplain : Plain cs)
    (hlines : ∀ c ∈ cs, c ≠ '\r' ∧ c ≠ '\x0c') : Faithful cs := by
  induction cs using pieces.induct with
  | case1 =>
      intro piece hpiece
      rw [pieces] at hpiece
      cases hpiece
  | case2 c cs ih =>
      rw [Plain, pieces, List.forall_mem_cons] at hplain
      obtain ⟨⟨hescape, hquote, hlexemes⟩, hrest⟩ := hplain
      refine faithful_cons.mpr ⟨fun lexeme hone => ?_, ih hrest fun d hd => ?_⟩
      · refine write_of_reads (scan_reads c cs) hone hescape ?_ (hlexemes lexeme ?_) ?_
        · rintro rfl
          exact hquote rfl
        · rw [hone]
          exact List.mem_cons_self
        · exact fun d hd => hlines d (List.mem_cons_of_mem c hd)
      · exact hlines d (List.mem_cons_of_mem c (List.mem_of_mem_drop hd))

example : ¬ Faithful "r\\65 d".toList := by
  decide +kernel

end TokenCatalog.Css
