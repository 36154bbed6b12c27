import TokenSale.Address
import TokenSale.Instruction.Slot
import TokenSale.Table

/-!
# Storage

What a script can read of a sale: its counters, and how many units an account ever minted. A read may change
the state it is answered from, so that storage which drifts from one read to the next is storage too. A
snapshot remembers the first answer to every question.
-/

namespace TokenSale

/-- Answers to the reads of a script, from a state `σ`. -/
structure Storage (σ : Type) where
  /-- The value of a slot. -/
  read : Slot → σ → Word × σ
  /-- The units ever minted to an account. -/
  minted : Address → σ → Word × σ

namespace Storage

variable {σ : Type}

/-- Storage that always gives the same answers. -/
def fixed (slot : Slot → Word) (minted : Address → Word) : Storage Unit where
  read s u := (slot s, u)
  minted a u := (minted a, u)

/-- Storage that counts its reads: each answer is the number of reads so far. -/
def drifting : Storage UInt64 where
  read _ n := (.ofUInt64 (n + 1), n + 1)
  minted _ n := (.ofUInt64 (n + 1), n + 1)

end Storage

/-- Plain values for the slots and for the accounts. -/
structure Counters where
  supplyLimit : Word
  totalSupply : Word
  totalMinted : Word
  minted : Table Address Word

namespace Counters

def zero : Counters := ⟨0, 0, 0, ∅⟩

def slot (c : Counters) : Slot → Word
  | .supplyLimit => c.supplyLimit
  | .totalSupply => c.totalSupply
  | .totalMinted => c.totalMinted

def storage (c : Counters) : Storage Unit := .fixed c.slot fun a => c.minted.getD a 0

end Counters

/-- A state and the answers that were drawn from it. -/
structure Snapshot (σ : Type) where
  base : σ
  slots : Table Slot Word
  minted : Table Address Word

namespace Snapshot

variable {σ : Type}

/-- Nothing remembered yet. -/
def ofBase (base : σ) : Snapshot σ := ⟨base, ∅, ∅⟩

/-- Storage that asks for each slot and each account once and remembers the answer. -/
def storage (base : Storage σ) : Storage (Snapshot σ) where
  read slot s :=
    match s.slots.get? slot with
    | some w => (w, s)
    | none =>
      let (w, b) := base.read slot s.base
      (w, { s with base := b, slots := s.slots.set slot w })
  minted account s :=
    match s.minted.get? account with
    | some w => (w, s)
    | none =>
      let (w, b) := base.minted account s.base
      (w, { s with base := b, minted := s.minted.set account w })

end Snapshot

end TokenSale
