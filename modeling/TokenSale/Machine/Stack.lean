import TokenSale.Action
import TokenSale.Fault

/-!
# The bounded stack

At most 256 values, the last one in first out. Positions are counted from the bottom. A call that fails leaves
the stack as it was.
-/

namespace TokenSale

/-- The most values that a stack holds. -/
def Stack.limit : Nat := 256

/-- A stack of words. -/
@[ext] structure Stack where
  /-- The values, the top first. -/
  topFirst : List Word
  length_le : topFirst.length ≤ Stack.limit
deriving DecidableEq

namespace Stack

def empty : Stack := ⟨[], Nat.zero_le _⟩

instance : Inhabited Stack := ⟨empty⟩

/-- The values, the bottom first. -/
def toList (s : Stack) : List Word := s.topFirst.reverse

def depth (s : Stack) : Nat := s.topFirst.length

/-- The value at a position counted from the bottom. -/
def get? (s : Stack) (i : Nat) : Option Word := s.toList[i]?

def push (site : Site) (w : Word) : Action Stack Fault Unit :=
  .ofFunction fun s =>
    if h : s.topFirst.length < limit then (.ok (), ⟨w :: s.topFirst, h⟩)
    else (.error (.stackOverflow site limit), s)

def pop (site : Site) : Action Stack Fault Word :=
  .ofFunction fun s =>
    match s with
    | ⟨[], _⟩ => (.error (.stackUnderflow site 1 0), s)
    | ⟨w :: rest, h⟩ => (.ok w, ⟨rest, Nat.le_of_succ_le h⟩)

/-- Takes `n` values off the top, and gives them in the order in which they were pushed. -/
def popMany (site : Site) (n : Nat) : Action Stack Fault (List Word) :=
  .ofFunction fun s =>
    if s.depth < n then (.error (.stackUnderflow site n s.depth), s)
    else
      (.ok (s.topFirst.take n).reverse,
        ⟨s.topFirst.drop n, Nat.le_trans (by simp) s.length_le⟩)

end Stack

end TokenSale
