/-!
# Upper case

The upper-case form of a text as far as it consists of ASCII letters, which is all that is needed to
compare it with an ASCII word. A few letters beyond ASCII have such a form as well.
-/

namespace TokenCatalog.Text

def asciiCapitals : List (Char × List Char) :=
  [('ß', ['S', 'S']), ('ı', ['I']), ('ſ', ['S']), ('ﬀ', ['F', 'F']), ('ﬁ', ['F', 'I']),
    ('ﬂ', ['F', 'L']), ('ﬃ', ['F', 'F', 'I']), ('ﬄ', ['F', 'F', 'L']), ('ﬅ', ['S', 'T']),
    ('ﬆ', ['S', 'T'])]

/-- The upper-case form of a letter if that is ASCII; another character stays as it is. -/
def upperChar (c : Char) : List Char :=
  (asciiCapitals.lookup c).getD [c.toUpper]

/-- The text with every letter that has an upper-case form in ASCII in that form. -/
def upper (cs : List Char) : List Char :=
  cs.flatMap upperChar

end TokenCatalog.Text
