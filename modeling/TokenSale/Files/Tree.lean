import TokenSale.Fault
import TokenSale.Files.Path
import TokenSale.Table
import TokenSale.Text.Size

/-!
# File trees

The files and directories of a machine, and the working directory among them. A place is the list of names that
lead to it from the root, the last one first; whatever is in the tree is in a directory of the tree. There are no
links, so that every node has one place.
-/

namespace TokenSale.Files

/-- What is found at a place. -/
inductive Node
  | directory
  | file (bytes : List UInt8)
  /-- A file that is always empty: what is written to it is gone. -/
  | sink
deriving DecidableEq

/-- The names from the root to a node, the last one first. -/
abbrev Place := List Name

/-- The node at a place, if the nodes below the root are given. -/
def nodeIn (nodes : Table Place Node) (place : Place) : Option Node :=
  if place = [] then some .directory else nodes.get? place

/-- Whatever is in a directory of nodes has that directory among them. -/
def Closed (nodes : Table Place Node) : Prop :=
  ∀ name place, nodes.get? (name :: place) ≠ none → nodeIn nodes place = some .directory

/-- The files and directories of a machine. -/
structure FileTree where
  nodes : Table Place Node
  /-- The working directory. -/
  here : Place
  closed : Closed nodes
  here_directory : nodeIn nodes here = some .directory

theorem nodeIn_set_of_ne {nodes : Table Place Node} {place other : Place} {name : Name} (node : Node)
    (h : other ≠ name :: place) :
    nodeIn (nodes.set (name :: place) node) other = nodeIn nodes other := by
  simp only [nodeIn, Table.get?_set, if_neg h]

/-- A node may be put into a directory, unless a directory would be lost. -/
theorem Closed.set {nodes : Table Place Node} (closed : Closed nodes) {place : Place} {name : Name}
    {node : Node} (hd : nodeIn nodes place = some .directory)
    (hn : nodeIn nodes (name :: place) ≠ some .directory) :
    Closed (nodes.set (name :: place) node) := by
  intro other outer h
  rw [Table.get?_set] at h
  split at h
  · next e =>
    cases e
    have hne : place ≠ name :: place := fun e => by simpa using congrArg List.length e
    rw [nodeIn_set_of_ne node hne, hd]
  · have below := closed other outer h
    have hne : outer ≠ name :: place := fun e => hn (e ▸ below)
    rw [nodeIn_set_of_ne node hne, below]

namespace FileTree

/-- Nothing but the root, which is the working directory. -/
def empty : FileTree := ⟨∅, [], fun _ _ h => absurd (Table.get?_empty _) h, rfl⟩

instance : Inhabited FileTree := ⟨empty⟩

/-- What is found at a place. -/
def node? (t : FileTree) (place : Place) : Option Node := nodeIn t.nodes place

/-! ## Paths in a tree -/

/-- The most bytes that a name may have. -/
def maxNameLength : Nat := 255

/-- The most bytes that a path may have. -/
def maxPathLength : Nat := 4095

/-- What is wrong with a path, whatever is in the tree. -/
def pathFault? (p : Path) : Option FileFault :=
  if '\x00' ∈ p.chars then some .nulCharacter
  else if p = .empty then some .notFound
  else if maxPathLength < Text.byteLength p.chars then some .nameTooLong
  else none

def origin (t : FileTree) (p : Path) : Place :=
  match p.start with
  | .root => []
  | .here | .plain => t.here

/-- The place that a name stands for in a directory. Nothing is above the root. -/
def step (place : Place) (name : Name) : Place :=
  if Path.isIdle name then place else if name = ['.', '.'] then place.tail else name :: place

/-- Where a name leads to from a directory, and what is found there. -/
def follow (t : FileTree) (place : Place) (name : Name) : Except FileFault (Place × Node) :=
  if maxNameLength < Text.byteLength name then .error .nameTooLong
  else
    match t.node? (step place name) with
    | some node => .ok (step place name, node)
    | none => .error .notFound

/-- Follows names from a node. Only a directory leads on. -/
def lookup (t : FileTree) : Place × Node → List Name → Except FileFault (Place × Node)
  | found, [] => .ok found
  | (place, .directory), name :: rest => do t.lookup (← t.follow place name) rest
  | (_, .file _), _ :: _ | (_, .sink), _ :: _ => .error .notDirectory

/-- Where a path leads to, and what is found there. -/
def locate (t : FileTree) (p : Path) : Except FileFault (Place × Node) :=
  match pathFault? p with
  | some cause => .error cause
  | none => t.lookup (t.origin p, .directory) p.names

/-- Whether a path leads to a node. -/
def pathExists (t : FileTree) (p : Path) : Bool := (t.locate p).isOk

def read (t : FileTree) (p : Path) : Except FileFault (List UInt8) := do
  match ← t.locate p with
  | (_, .file bytes) => pure bytes
  | (_, .sink) => pure []
  | (_, .directory) => throw .isDirectory

/-! ## Changes -/

/-- Puts a node into a directory, in place of a file of the name. A directory stays, and a sink takes what is
put there. -/
def put (t : FileTree) (place : Place) (name : Name) (node : Node) : Except FileFault FileTree :=
  if maxNameLength < Text.byteLength name then .error .nameTooLong
  else
    match hd : t.node? place with
    | none => .error .notFound
    | some (.file _) | some .sink => .error .notDirectory
    | some .directory =>
      match hn : t.node? (name :: place) with
      | some .directory => .error .isDirectory
      | some .sink => .ok t
      | none | some (.file _) =>
        .ok
          { t with
            nodes := t.nodes.set (name :: place) node
            closed := t.closed.set hd fun e => by
              rw [node?, e] at hn
              cases hn
            here_directory := by
              rw [nodeIn_set_of_ne node fun e => ?_]
              · exact t.here_directory
              · have := t.here_directory
                rw [e] at this
                rw [node?, this] at hn
                cases hn }

/-- Drops the empty names at the end. -/
def dropEmptyEnd (names : List Name) : List Name := (names.reverse.dropWhile (· = [])).reverse

/-- Makes a file, or writes over one. A path that ends in a slash or in dots only ever names a directory. -/
def write (t : FileTree) (p : Path) (bytes : List UInt8) : Except FileFault FileTree :=
  match pathFault? p with
  | some cause => .error cause
  | none =>
    let names := dropEmptyEnd p.names
    match names.getLast? with
    | none => .error .isDirectory
    | some last => do
      let (outer, node) ← t.lookup (t.origin p, .directory) names.dropLast
      if node ≠ .directory then throw .notDirectory
      if names ≠ p.names ∨ last = ['.'] ∨ last = ['.', '.'] then throw .isDirectory
      t.put outer last (.file bytes)

/-- Makes the directories that names lead through, starting from a directory. -/
def makeDirectories (t : FileTree) (place : Place) : List Name → Except FileFault FileTree
  | [] => .ok t
  | name :: rest =>
    match t.node? (name :: place) with
    | some .directory => t.makeDirectories (name :: place) rest
    | some (.file _) | some .sink => .error .notDirectory
    | none => do (← t.put place name .directory).makeDirectories (name :: place) rest

/-- Makes a directory the working directory. -/
def enter (t : FileTree) (place : Place) : Except FileFault FileTree :=
  match h : t.node? place with
  | some .directory => .ok { t with here := place, here_directory := h }
  | some (.file _) | some .sink => .error .notDirectory
  | none => .error .notFound

/-- The files below the working directory, each with its path from there and its bytes. -/
def files (t : FileTree) : List (Path × List UInt8) :=
  t.nodes.entries.filterMap fun (place, node) =>
    match node with
    | .file bytes =>
      if t.here.isSuffixOf place then
        some (⟨.plain, (place.take (place.length - t.here.length)).reverse⟩, bytes)
      else none
    | .directory | .sink => none

end FileTree

end TokenSale.Files
