/-!
# The Keccak permutation

The permutation of 1600 bits on which the SHA-3 functions are built. A state is 25 lanes of 64 bits; the lane
in column `x` and row `y` has the index `5 * y + x`.
-/

namespace TokenSale.Keccak

abbrev State := Vector UInt64 25

def State.zero : State := Vector.replicate 25 0

/-- The lane in a column and a row, both taken modulo five. -/
def State.lane (s : State) (x y : Nat) : UInt64 :=
  s[5 * (y % 5) + x % 5]

/-- The state whose lane in column `x` and row `y` is `f x y`. -/
def State.ofLanes (f : (x y : Nat) → UInt64) : State :=
  Vector.ofFn fun i : Fin 25 => f (i.val % 5) (i.val / 5)

/-- Moves every bit of a lane up by `k` places, the uppermost to the bottom. -/
def rotate (lane : UInt64) (k : Nat) : UInt64 :=
  (lane <<< UInt64.ofNat (k % 64)) ||| (lane >>> UInt64.ofNat ((64 - k % 64) % 64))

/-- The sum of a column. -/
def parity (s : State) (x : Nat) : UInt64 :=
  s.lane x 0 ^^^ s.lane x 1 ^^^ s.lane x 2 ^^^ s.lane x 3 ^^^ s.lane x 4

/-- Adds to every lane the sum of the column before it and of the rotated column after it. -/
def theta (s : State) : State :=
  let sums : Vector UInt64 5 := Vector.ofFn fun x : Fin 5 => parity s x.val
  let sum (x : Nat) : UInt64 := sums[x % 5]
  State.ofLanes fun x y => s.lane x y ^^^ sum (x + 4) ^^^ rotate (sum (x + 1)) 1

/-- By how many places the lanes are rotated, row after row. -/
def rotations : Vector Nat 25 :=
  #v[0, 1, 62, 28, 27, 36, 44, 6, 55, 20, 3, 10, 43, 25, 39, 41, 45, 15, 21, 8, 18, 2, 61, 56, 14]

/-- Rotates every lane by its own number of places. -/
def rho (s : State) : State :=
  Vector.ofFn fun i : Fin 25 => rotate s[i] rotations[i]

/-- Moves the lane in column `x` and row `y` to column `y` and row `2 * x + 3 * y`. -/
def pi (s : State) : State :=
  State.ofLanes fun x y => s.lane (x + 3 * y) x

/-- Adds to every lane the next lane but one of its row where the next lane has a zero. -/
def chi (s : State) : State :=
  State.ofLanes fun x y => s.lane x y ^^^ (~~~ s.lane (x + 1) y &&& s.lane (x + 2) y)

def roundConstants : List UInt64 :=
  [0x0000000000000001, 0x0000000000008082, 0x800000000000808a, 0x8000000080008000,
    0x000000000000808b, 0x0000000080000001, 0x8000000080008081, 0x8000000000008009,
    0x000000000000008a, 0x0000000000000088, 0x0000000080008009, 0x000000008000000a,
    0x000000008000808b, 0x800000000000008b, 0x8000000000008089, 0x8000000000008003,
    0x8000000000008002, 0x8000000000000080, 0x000000000000800a, 0x800000008000000a,
    0x8000000080008081, 0x8000000000008080, 0x0000000080000001, 0x8000000080008008]

/-- Adds a round constant to the first lane. -/
def iota (c : UInt64) (s : State) : State := s.set 0 (s[0] ^^^ c)

/-- One round. -/
def round (s : State) (c : UInt64) : State := iota c (chi (pi (rho (theta s))))

/-- The permutation: 24 rounds. -/
def permute (s : State) : State := roundConstants.foldl round s

end TokenSale.Keccak
