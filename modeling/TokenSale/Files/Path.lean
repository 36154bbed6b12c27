/-!
# Paths

A path is a list of names with slashes between them, which starts at the root, at the working directory, or at
nothing in particular. Reading a path keeps all of its names, the empty ones included, so that the text of a
path is the text it was read from.
-/

namespace TokenSale.Files

abbrev Name := List Char

/-- Where a path starts. -/
inductive Start
  /-- A slash: the root of the file system. -/
  | root
  /-- A dot: the working directory. -/
  | here
  /-- Its first name. -/
  | plain
deriving DecidableEq

/-- Where a file or a directory is found. -/
structure Path where
  start : Start
  names : List Name
deriving DecidableEq

namespace Path

/-- The characters before the first slash, and the names after it. -/
def splitNames : List Char → Name × List Name
  | [] => ([], [])
  | c :: cs =>
    let (first, rest) := splitNames cs
    if c = '/' then ([], first :: rest) else (c :: first, rest)

/-- Puts slashes between names. -/
def joinNames (names : List Name) : List Char := List.intercalate ['/'] names

def empty : Path := ⟨.plain, []⟩

def ofChars (cs : List Char) : Path :=
  match splitNames cs with
  | ([], []) => empty
  | ([], names) => ⟨.root, names⟩
  | (['.'], names) => ⟨.here, names⟩
  | (first, names) => ⟨.plain, first :: names⟩

def ofText (text : String) : Path := ofChars text.toList

def chars (p : Path) : List Char :=
  match p.start, p.names with
  | .root, names => '/' :: joinNames names
  | .here, [] => ['.']
  | .here, names => '.' :: '/' :: joinNames names
  | .plain, names => joinNames names

def text (p : Path) : String := String.ofList p.chars

theorem joinNames_cons (name : Name) {names : List Name} (h : names ≠ []) :
    joinNames (name :: names) = name ++ '/' :: joinNames names := by
  cases names with
  | nil => exact absurd rfl h
  | cons next names => simp [joinNames, List.intercalate, List.intersperse]

/-- Names that were split are joined again. -/
theorem joinNames_splitNames (cs : List Char) :
    joinNames ((splitNames cs).1 :: (splitNames cs).2) = cs := by
  induction cs with
  | nil => rfl
  | cons c cs ih =>
    unfold splitNames
    dsimp only
    split
    · next h => rw [joinNames_cons _ (List.cons_ne_nil _ _), ih, h]; rfl
    · next h =>
      rcases hs : (splitNames cs).2 with _ | ⟨name, names⟩
      · rw [hs] at ih
        exact congrArg (c :: ·) ih
      · rw [hs, joinNames_cons _ (List.cons_ne_nil _ _)] at ih
        rw [joinNames_cons _ (List.cons_ne_nil _ _), List.cons_append, ih]

/-- The characters of a path are those it was read from. -/
theorem chars_ofChars (cs : List Char) : (ofChars cs).chars = cs := by
  have h := joinNames_splitNames cs
  unfold ofChars
  rcases hs : splitNames cs with ⟨first, names⟩
  rw [hs] at h
  rcases first with _ | ⟨c, first⟩
  · rcases names with _ | ⟨name, names⟩
    · exact h
    · rw [joinNames_cons _ (List.cons_ne_nil _ _)] at h
      exact h
  · by_cases hd : c = '.' ∧ first = []
    · obtain ⟨rfl, rfl⟩ := hd
      rcases names with _ | ⟨name, names⟩
      · exact h
      · rw [joinNames_cons _ (List.cons_ne_nil _ _)] at h
        exact h
    · split
      · next e => cases e
      · next e => cases e
      · next e => cases e; exact absurd ⟨rfl, rfl⟩ hd
      · next e => cases e; exact h

/-- The text of a path is the text it was read from. -/
@[simp] theorem text_ofText (s : String) : (ofText s).text = s := by
  simp [text, ofText, chars_ofChars]

/-! ## Parts of a path -/

/-- Whether a name stays where it is: the empty one and the dot. -/
def isIdle (name : Name) : Bool := name = [] ∨ name = ['.']

/-- Drops the names at the end that stay where they are. -/
def trimEnd (names : List Name) : List Name := (names.reverse.dropWhile isIdle).reverse

/-- What contains the last name of a path. The root and the empty path are contained in nothing. -/
def parent? (p : Path) : Option Path :=
  match trimEnd p.names with
  | [] => if p.start = .here then some empty else none
  | names => some { p with names := trimEnd names.dropLast }

/-- The last name of a path, unless it is the double dot. -/
def fileName? (p : Path) : Option Name := (trimEnd p.names).getLast?.filter (· ≠ ['.', '.'])

/-- The part of a name before its last dot. A name without a dot, or with one at its start only, is taken
whole. -/
def stem (name : Name) : Name :=
  match name.reverse.dropWhile (· ≠ '.') with
  | [] | [_] => name
  | _ :: before => before.reverse

/-- The path of a name in a directory. -/
def child (p : Path) (name : Name) : Path := { p with names := p.names ++ [name] }

/-- The path beside a given one whose name has another extension. -/
def withExtension (p : Path) (extension : String) : Path :=
  (p.parent?.getD ⟨.here, []⟩).child (stem (p.fileName?.getD []) ++ '.' :: extension.toList)

end Path

end TokenSale.Files
