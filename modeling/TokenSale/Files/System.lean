import TokenSale.Files.Tree

/-!
# File systems

What a program needs of the files around it, in a monad of its choice: in `IO` these are the files of the
machine it runs on, and in the state monad they are those of a file tree.
-/

namespace TokenSale.Files

/-- Questions about files and changes of files in a monad `m`. -/
structure FileSystem (m : Type → Type) where
  /-- Whether a path leads to a file or a directory. -/
  pathExists : Path → m Bool
  /-- The bytes of a file. -/
  read : Path → m (Except FileFault (List UInt8))
  /-- Makes a file, or writes over one. -/
  write : Path → List UInt8 → m (Except FileFault Unit)

def FileTree.system : FileSystem (StateM FileTree) where
  pathExists p := do return (← get).pathExists p
  read p := do return (← get).read p
  write p bytes := do
    match (← get).write p bytes with
    | .ok t =>
      set t
      return .ok ()
    | .error cause => return .error cause

end TokenSale.Files
