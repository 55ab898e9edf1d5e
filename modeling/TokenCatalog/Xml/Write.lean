import TokenCatalog.Xml.Tree

/-!
# Writing markup

The text of a tree: attributes sorted by name, elements without content as empty tags, and the three
characters that cannot stand for themselves escaped.
-/

namespace TokenCatalog.Xml

def escape (c : Char) : List Char :=
  if c = '&' then "&amp;".toList
  else if c = '<' then "&lt;".toList
  else if c = '>' then "&gt;".toList
  else [c]

/-- A value between quotes: double ones, single ones around a value with double quotes, and double
ones with those inside escaped where a value has both. -/
def quoteValue (value : List Char) : List Char :=
  let text := value.flatMap escape
  if !text.contains '"' then '"' :: text ++ ['"']
  else if !text.contains '\'' then '\'' :: text ++ ['\'']
  else '"' :: (text.flatMap fun c => if c = '"' then "&quot;".toList else [c]) ++ ['"']

def writeAttributes (attributes : List (List Char × List Char)) : List Char :=
  (attributes.mergeSort fun a b => !(b.1 < a.1)).flatMap fun a =>
    ' ' :: a.1 ++ '=' :: quoteValue a.2

mutual

def Node.write : Node → List Char
  | .element name attributes children =>
    match children with
    | [] => '<' :: name.text ++ writeAttributes attributes ++ ['/', '>']
    | child :: rest =>
      '<' :: name.text ++ writeAttributes attributes ++ '>' :: writeNodes (child :: rest) ++
        '<' :: '/' :: name.text ++ ['>']
  | .text cs => cs.flatMap escape
  | .comment cs => "<!--".toList ++ cs ++ "-->".toList
  | .instruction cs => "<?".toList ++ cs ++ "?>".toList

def writeNodes : List Node → List Char
  | [] => []
  | node :: nodes => Node.write node ++ writeNodes nodes

end

end TokenCatalog.Xml
