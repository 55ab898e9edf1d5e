import TokenCatalog.Bytes.Utf8
import TokenCatalog.Text.Blank
import TokenCatalog.Text.Lowercase

/-!
# Source files

A file with its content, as text or as bytes. Its name may use either slash; the extension decides
which parser reads it.
-/

namespace TokenCatalog

inductive Content where
  | text (s : String)
  | bytes (bytes : List UInt8)
  deriving DecidableEq, Repr

structure SourceFile where
  filename : String
  content : Content
  deriving DecidableEq, Repr

/-! ## Names -/

/-- The components of a path, without empty ones and those that stay in place. -/
def pathComponents (path : List Char) : List (List Char) :=
  (Text.pieces (· == '/') path).filter fun c => !c.isEmpty && c != ['.']

def forwardSlashes (filename : String) : List Char :=
  filename.toList.map fun c => if c = '\\' then '/' else c

def basenameOf (filename : String) : List Char :=
  (pathComponents (forwardSlashes filename)).getLast?.getD []

/-- A name from its last dot on, unless that dot is its first or its last character. -/
def suffixOf (name : List Char) : List Char :=
  let after := (name.reverse.takeWhile (· != '.')).reverse
  if after.length + 1 < name.length && !after.isEmpty then '.' :: after else []

def extensionOf (filename : String) : List Char :=
  Text.lower (suffixOf (basenameOf filename))

def SourceFile.extension (file : SourceFile) : String :=
  String.ofList (extensionOf file.filename)

def SourceFile.basename (file : SourceFile) : String :=
  String.ofList (basenameOf file.filename)

/-! ## Content -/

/-- The content as text; bytes are UTF-8 and may begin with a byte order mark. -/
def SourceFile.text (file : SourceFile) : Except Utf8.Fault (List Char) :=
  match file.content with
  | .text s => .ok s.toList
  | .bytes bytes => Utf8.decodeMarked bytes

def SourceFile.data (file : SourceFile) : List UInt8 :=
  match file.content with
  | .text s => Utf8.encode s.toList
  | .bytes bytes => bytes

end TokenCatalog
