import TokenCatalog.Number.Binary64
import TokenCatalog.Project.Tree

/-!
# Hosts

What a run may ask of the machine that it runs on: what is at a path, the files below a folder,
their bytes, to write a file, and the time. Paths are texts as a user gives them, relative to the
folder in which the run was started or absolute.
-/

namespace TokenCatalog.Project

/-- What a run may ask for, in a monad that says how it is answered. -/
structure Host (m : Type → Type) where
  kind? : List Char → m (Option Kind)
  fullPath : List Char → m (List Char)
  tree : List Char → m Tree
  read : List Char → m (Except AccessFault (List UInt8))
  /-- Writes a file and makes the folders that it lies in. -/
  write : List Char → List UInt8 → m (Except AccessFault Unit)
  seconds : m Binary64

end TokenCatalog.Project
