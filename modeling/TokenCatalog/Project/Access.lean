import TokenCatalog.Json.Display

/-!
# Access to files

Why a file cannot be looked at, read or written.
-/

namespace TokenCatalog.Project

inductive AccessCause where
  | missing
  | denied
  | notPermitted
  | exists
  | notFolder
  | isFolder
  | tooLong
  | looping
  | other (number : Nat) (phrase : String)
  deriving DecidableEq, Repr

namespace AccessCause

def number : AccessCause → Nat
  | notPermitted => 1
  | missing => 2
  | denied => 13
  | .exists => 17
  | notFolder => 20
  | isFolder => 21
  | tooLong => 36
  | looping => 40
  | other number _ => number

def phrase : AccessCause → String
  | notPermitted => "Operation not permitted"
  | missing => "No such file or directory"
  | denied => "Permission denied"
  | .exists => "File exists"
  | notFolder => "Not a directory"
  | isFolder => "Is a directory"
  | tooLong => "File name too long"
  | looping => "Too many levels of symbolic links"
  | other _ phrase => phrase

def isAbsence : AccessCause → Bool
  | missing => true
  | notFolder => true
  | looping => true
  | _ => false

def isDenial : AccessCause → Bool
  | denied => true
  | notPermitted => true
  | _ => false

end AccessCause

structure AccessFault where
  cause : AccessCause
  path : String
  deriving DecidableEq, Repr

def AccessFault.message (fault : AccessFault) : List Char :=
  "[Errno ".toList ++ digitsOfNat fault.cause.number ++ "] ".toList ++
    fault.cause.phrase.toList ++ ": ".toList ++ quoted fault.path

/-- What is asked about a path, nothing being there counting as no. -/
def orAbsent (answer : Except AccessFault Bool) : Except AccessFault Bool :=
  match answer with
  | .ok b => .ok b
  | .error fault => if fault.cause.isAbsence then .ok false else .error fault

structure Looping where
  path : String
  deriving DecidableEq, Repr

def Looping.message (loop : Looping) : String :=
  "Symlink loop from " ++ String.ofList (quoted loop.path)

end TokenCatalog.Project
