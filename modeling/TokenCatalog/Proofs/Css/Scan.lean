import TokenCatalog.Css.Lexeme

/-!
# Single scans

What the scan at the first character of a text can give, with the characters that it takes. Main
statement:

* `scan_reads`: the kinds of tokens, each with how it begins and what it holds.
-/

namespace TokenCatalog.Css

/-! ## Numbers -/

theorem isPrefix_append_of_drop {xs ys cs : List Char} (hx : xs <+: cs)
    (hy : ys <+: cs.drop xs.length) : xs ++ ys <+: cs := by
  obtain ⟨rest, rfl⟩ := hx
  rw [List.drop_left] at hy
  exact (List.prefix_append_right_inj xs).mpr hy

theorem ite_isPrefix {p : Prop} [Decidable p] {xs ys cs : List Char} (hx : xs <+: cs)
    (hy : ys <+: cs) : (if p then xs else ys) <+: cs := by
  split
  · exact hx
  · exact hy

theorem takeFraction_isPrefix (cs : List Char) : takeFraction cs <+: cs := by
  cases cs with
  | nil => exact List.nil_prefix
  | cons c cs =>
      by_cases hc : c = '.'
      · subst hc
        rw [takeFraction]
        split
        · exact List.nil_prefix
        · exact List.cons_prefix_cons.mpr ⟨rfl, List.takeWhile_prefix _⟩
      · simp [takeFraction, hc]

theorem takeExponent_isPrefix (cs : List Char) : takeExponent cs <+: cs := by
  cases cs with
  | nil => exact List.nil_prefix
  | cons c cs =>
      unfold takeExponent
      dsimp only
      refine ite_isPrefix (ite_isPrefix List.nil_prefix ?_) List.nil_prefix
      refine List.cons_prefix_cons.mpr ⟨rfl, isPrefix_append_of_drop ?_ (List.takeWhile_prefix _)⟩
      split <;> simp

theorem takeNumeral_isPrefix (cs : List Char) : takeNumeral cs <+: cs := by
  unfold takeNumeral
  dsimp only
  refine ite_isPrefix List.nil_prefix ?_
  rw [List.append_assoc]
  refine isPrefix_append_of_drop ?_ (isPrefix_append_of_drop
    (isPrefix_append_of_drop (List.takeWhile_prefix _) (takeFraction_isPrefix _))
    (takeExponent_isPrefix _))
  split <;> simp

/-! ## The kinds of tokens -/

/-- What the scan of a text can be, by its first character and the rest. -/
inductive Scan.Reads (c : Char) (cs : List Char) : Scan → Prop
  | whitespace (h : isSpace c = true) :
      Reads c cs (.one (.whitespace (c :: cs.takeWhile isSpace)) (cs.takeWhile isSpace).length)
  | literal {text : List Char} {more : Nat} (h : text = c :: cs.take more) :
      Reads c cs (.one (.literal text) more)
  | comment {rest : List Char} (hc : c = '/') (hrest : cs = '*' :: rest) :
      Reads c cs (.one (.comment (takeComment rest).1)
        ((takeComment rest).1.length + if (takeComment rest).2 then 3 else 1))
  | ident (h : startsIdent (c :: cs) = true) :
      Reads c cs (.one (.ident (takeName (c :: cs)).1) ((takeName (c :: cs)).2 - 1))
  | atKeyword (hc : c = '@') (h : startsIdent cs = true) :
      Reads c cs (.one (.atKeyword (takeName cs).1) (takeName cs).2)
  | hash (hc : c = '#') :
      Reads c cs (.one (.hash (takeName cs).1 (startsIdent cs)) (takeName cs).2)
  | number {text : List Char} (hne : text ≠ []) (h : text <+: c :: cs) :
      Reads c cs (.one (.number ⟨text⟩) (text.length - 1))
  | percentage {text rest : List Char} (hne : text ≠ []) (h : c :: cs = text ++ '%' :: rest) :
      Reads c cs (.one (.percentage ⟨text⟩) text.length)
  | dimension {text rest : List Char} (hne : text ≠ []) (h : c :: cs = text ++ rest)
      (hunit : startsIdent rest = true) :
      Reads c cs (.one (.dimension ⟨text⟩ (takeName rest).1)
        (text.length + (takeName rest).2 - 1))
  | string (hc : c = '"' ∨ c = '\'') (h : (takeString c cs).ending = .closed) :
      Reads c cs (.one (.string (takeString c cs).value) (takeString c cs).size)
  | url (value : List Char) (more : Nat) : Reads c cs (.one (.url value) more)
  | unicodeRange (first last more : Nat) : Reads c cs (.one (.unicodeRange first last) more)
  | fault (fault : Fault) (more : Nat) : Reads c cs (.one (.fault fault) more)
  | ended (leaf : Leaf) (fault : Fault) (more : Nat) :
      Reads c cs ⟨[.leaf leaf, .leaf (.fault fault)], more⟩
  | openFunction {rest : List Char} (h : startsIdent (c :: cs) = true)
      (hrest : (c :: cs).drop (takeName (c :: cs)).2 = '(' :: rest) :
      Reads c cs ⟨[.openFunction (takeName (c :: cs)).1], (takeName (c :: cs)).2⟩
  | openBlock (bracket : Bracket) (h : c = bracket.opening) :
      Reads c cs ⟨[.openBlock bracket], 0⟩
  | close (bracket : Bracket) (h : c = bracket.closing) : Reads c cs ⟨[.close bracket], 0⟩

section

variable (c : Char) (cs : List Char)

theorem scanIdent_reads (h : startsIdent (c :: cs) = true) :
    Scan.Reads c cs (scanIdent (c :: cs)) := by
  unfold scanIdent
  dsimp only
  split
  · next rest hrest =>
      unfold scanFunction
      dsimp only
      split
      · split
        · exact .url _ _
        · exact .ended _ _ _
        · exact .fault _ _
      · exact .openFunction h hrest
  · exact .ident h

theorem scanNumeric_reads {text rest : List Char} (hne : text ≠ []) (h : c :: cs = text ++ rest) :
    Scan.Reads c cs (scanNumeric text rest) := by
  unfold scanNumeric
  split
  · next hunit => exact .dimension hne h hunit
  · split
    · next hpercent =>
        cases rest with
        | nil => cases hpercent
        | cons d rest =>
            obtain rfl : d = '%' := Option.some.inj hpercent
            exact .percentage hne h
    · exact .number hne ⟨rest, h.symm⟩

theorem scanString_reads (h : c = '"' ∨ c = '\'') : Scan.Reads c cs (scanString c cs) := by
  unfold scanString
  dsimp only
  split
  · next hending => exact .string h hending
  · exact .ended _ _ _
  · exact .fault _ _

theorem scanMark_reads : Scan.Reads c cs (scanMark c cs) := by
  unfold scanMark
  split
  · split
    · next h => exact .atKeyword rfl h
    · exact .literal (by rw [List.take_zero])
  · split
    · exact .hash rfl
    · exact .literal (by rw [List.take_zero])
  · exact .openBlock .round rfl
  · exact .openBlock .square rfl
  · exact .openBlock .curly rfl
  · exact .close .round rfl
  · exact .close .square rfl
  · exact .close .curly rfl
  · exact scanString_reads _ _ (.inl rfl)
  · exact scanString_reads _ _ (.inr rfl)
  · exact .comment rfl rfl
  · exact .literal rfl
  · exact .literal rfl
  · split
    · exact .literal rfl
    · exact .literal (by rw [List.take_zero])
  · exact .literal (by rw [List.take_zero])

/-- **What a scan can be.** -/
theorem scan_reads : Scan.Reads c cs (scan c cs) := by
  unfold scan
  split
  · next h => exact .whitespace h
  split
  · exact .unicodeRange _ _ _
  split
  · next h => exact .literal h.symm
  split
  · next h => exact scanIdent_reads c cs h
  dsimp only
  split
  · exact scanMark_reads c cs
  · next hempty =>
      obtain ⟨rest, hrest⟩ := takeNumeral_isPrefix (c :: cs)
      have hne : takeNumeral (c :: cs) ≠ [] := fun h => hempty (by rw [h]; rfl)
      have hdrop : (c :: cs).drop (takeNumeral (c :: cs)).length = rest := by
        have h := congrArg (List.drop (takeNumeral (c :: cs)).length) hrest
        rw [List.drop_left] at h
        exact h.symm
      rw [hdrop]
      exact scanNumeric_reads c cs hne hrest.symm

end

end TokenCatalog.Css
