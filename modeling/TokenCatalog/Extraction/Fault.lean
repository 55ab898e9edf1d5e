import TokenCatalog.Icon.Parse
import TokenCatalog.Image.Parse
import TokenCatalog.Stylesheet.Parse

/-!
# Faults in files

Why a file contributes nothing to a catalog. Most faults are foreseen: the file is malformed, and
the fault says how and, if a place is known, where. The others come from values that no computation
can deal with, such as an infinite color channel.
-/

namespace TokenCatalog

/-- What is wrong with a file. A line of zero means that no place is known. -/
structure FileFault where
  filename : String
  cause : List Char
  line : Int := 0
  column : Int := 0
  deriving DecidableEq, Repr

def FileFault.message (fault : FileFault) : List Char :=
  if fault.line = 0 then fault.cause
  else fault.cause ++ " at ".toList ++ textOfInt fault.line ++ ':' :: textOfInt fault.column

def FileFault.display (fault : FileFault) : List Char :=
  fault.filename.toList ++ ':' :: ' ' :: fault.message

inductive ParseFault where
  | stylesheet (fault : Stylesheet.Fault)
  | icons (fault : Icon.Fault)
  | image (fault : Image.Fault) (wording : String)

/-! ## Wording -/

def undecodableCause (fault : Utf8.Fault) : String :=
  "not valid UTF-8: " ++ fault.message

/-- What is wrong with markup that is rejected: it is tried as text and as bytes, with the same
fault. -/
def rejectionCause (fault : Utf8.Fault) : String :=
  let reason := "\n UnicodeDecodeError: " ++ fault.message
  "The markup you provided was rejected by the parser. Trying a different parser or a " ++
    "different encoding may help.\n\nOriginal exception(s) from parser:" ++ reason ++ reason

def ParseFault.cause : ParseFault → String
  | stylesheet (.undecodable fault) => undecodableCause fault
  | stylesheet (.malformed fault) => fault.fault.message
  | stylesheet (.color fault) => fault.message
  | icons (.undecodable fault) => undecodableCause fault
  | icons (.rejected fault) => rejectionCause fault
  | image .undecodable wording => "cannot decode image: " ++ wording
  | image _ wording => wording

def ParseFault.position? : ParseFault → Option Css.Position
  | stylesheet (.malformed fault) => some fault.position
  | _ => none

/-! ## Foreseen faults -/

def ParseFault.isForeseen : ParseFault → Bool
  | stylesheet (.color _) => false
  | icons (.rejected _) => false
  | image fault _ => fault = .undecodable
  | _ => true

/-- What is wrong with the file of a name, if the fault is a foreseen one. -/
def ParseFault.fileFault? (filename : String) (fault : ParseFault) : Option FileFault :=
  if fault.isForeseen then
    some
      { filename
        cause := fault.cause.toList
        line := (fault.position?.map (·.line)).getD 0
        column := (fault.position?.map (·.column)).getD 0 }
  else none

end TokenCatalog
