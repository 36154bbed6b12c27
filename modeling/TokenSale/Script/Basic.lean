import TokenSale.Fault

/-!
# Scripts

A script is a list of sources and the constants they use. A source is code: pairs of an opcode and an operand.
The first source is where a script is entered. A raw script is of any shape; it can be identified, analysed, listed and
run all the same. A script proper has at least one source, whole instructions only, and no more constants than an
operand can name.
-/

namespace TokenSale

/-- The most constants that an operand byte can name. -/
def maxConstants : Nat := 256

/-- Sources and the constants they use, of any shape. -/
structure RawScript where
  sources : List (List UInt8)
  constants : List Word
deriving DecidableEq

/-- The source with an index. -/
def RawScript.source (s : RawScript) (index : Nat) : Except Fault (List UInt8) :=
  match s.sources[index]? with
  | some code => .ok code
  | none => .error (.missingSource index s.sources.length)

/-- A raw script of the right shape. -/
@[ext] structure Script extends RawScript where
  sources_ne_nil : sources ≠ []
  length_even : ∀ code ∈ sources, code.length % 2 = 0
  length_constants_le : constants.length ≤ maxConstants
deriving DecidableEq

namespace Script

instance : Coe Script RawScript := ⟨toRawScript⟩

/-- The index of the source where a script is entered. -/
def entry : Nat := 0

/-- The first source that ends in the middle of an instruction; `index` counts the sources before. -/
def oddSource? (index : Nat) : List (List UInt8) → Option Fault
  | [] => none
  | code :: rest =>
    if code.length % 2 = 0 then oddSource? (index + 1) rest
    else some (.unexpectedEnd index (code.length - code.length % 2))

/-- What is wrong with the shape of sources and constants. -/
def shapeFault? (sources : List (List UInt8)) (constants : List Word) : Option Fault :=
  if sources = [] then some (.missingSource entry 0)
  else if maxConstants < constants.length then some (.tooManyConstants constants.length maxConstants)
  else oddSource? 0 sources

theorem oddSource?_eq_none_iff {index : Nat} {sources : List (List UInt8)} :
    oddSource? index sources = none ↔ ∀ code ∈ sources, code.length % 2 = 0 := by
  induction sources generalizing index with
  | nil => simp [oddSource?]
  | cons code rest ih =>
    unfold oddSource?
    split
    · next h => simp [ih, h]
    · next h => simp [h]

/-- Nothing is wrong with a shape exactly when it is the shape of a script. -/
theorem shapeFault?_eq_none_iff {sources : List (List UInt8)} {constants : List Word} :
    shapeFault? sources constants = none ↔
      sources ≠ [] ∧ (∀ code ∈ sources, code.length % 2 = 0) ∧ constants.length ≤ maxConstants := by
  unfold shapeFault?
  split
  · next h => simp [h]
  · next h =>
    split
    · next hc =>
      simp only [reduceCtorEq, false_iff]
      exact fun ⟨_, _, hle⟩ => Nat.not_lt.2 hle hc
    · next hc => simp [oddSource?_eq_none_iff, h, Nat.not_lt.1 hc]

/-- The script with given sources and constants, if their shape is right. -/
def ofParts (sources : List (List UInt8)) (constants : List Word) : Except Fault Script :=
  match h : shapeFault? sources constants with
  | some fault => .error fault
  | none =>
    have shaped := shapeFault?_eq_none_iff.1 h
    .ok ⟨⟨sources, constants⟩, shaped.1, shaped.2.1, shaped.2.2⟩

/-- The parts of a script make it up again. -/
theorem ofParts_parts (s : Script) : ofParts s.sources s.constants = .ok s := by
  have hs : shapeFault? s.sources s.constants = none :=
    shapeFault?_eq_none_iff.2 ⟨s.sources_ne_nil, s.length_even, s.length_constants_le⟩
  unfold ofParts
  split
  · next fault h => simp [hs] at h
  · rfl

theorem parts_of_ofParts {sources : List (List UInt8)} {constants : List Word} {s : Script}
    (h : ofParts sources constants = .ok s) : s.sources = sources ∧ s.constants = constants := by
  unfold ofParts at h
  split at h
  · cases h
  · cases h
    exact ⟨rfl, rfl⟩

end Script

end TokenSale
