import Mathlib.Order.Interval.Finset.Nat
import TokenSale.Sale.Registry

/-!
# The roll of tokens

The registry as one would keep it without any thought of space: an owner for every id, if it has one, in numbers
without bound. What an account holds and what is in circulation is counted over all ids.

* `count_issue`, `count_revoke`: what issuing and revoking tokens does to the counts.
-/

namespace TokenSale

/-- Who owns which token, id by id. -/
structure Roll where
  /-- How many tokens were ever issued; their ids are those from one on. -/
  issued : Nat
  owner : Nat → Option Address
  /-- How many tokens were ever issued to an account. -/
  received : Address → Nat

namespace Roll

def empty : Roll := ⟨0, fun _ => none, fun _ => 0⟩

/-- How many ids have an owner or none, as `p` demands. -/
def count (a : Roll) (p : Option Address → Bool) : Nat :=
  ((Finset.Icc 1 a.issued).filter fun id => p (a.owner id)).card

/-- How many tokens an account owns. -/
def balance (a : Roll) (account : Address) : Nat := a.count (· = some account)

/-- How many tokens anyone owns. -/
def totalSupply (a : Roll) : Nat := a.count Option.isSome

/-- The roll with `n` more tokens of an account. -/
def issue (a : Roll) (account : Address) (n : Nat) : Roll where
  issued := a.issued + n
  owner id := if a.issued < id ∧ id ≤ a.issued + n then some account else a.owner id
  received := fun other => if other = account then a.received account + n else a.received other

/-- The roll with one owner less. -/
def revoke (a : Roll) (id : Nat) : Roll :=
  { a with owner := fun other => if other = id then none else a.owner other }

theorem owner_issue_of_le (a : Roll) (account : Address) (n : Nat) {id : Nat} (hid : id ≤ a.issued) :
    (a.issue account n).owner id = a.owner id :=
  if_neg fun h => Nat.not_le.mpr h.1 hid

theorem owner_issue_of_lt (a : Roll) (account : Address) (n : Nat) {id : Nat} (hid : a.issued < id)
    (hle : id ≤ a.issued + n) : (a.issue account n).owner id = some account :=
  if_pos ⟨hid, hle⟩

/-! ## Counts -/

theorem count_le_issued (a : Roll) (p : Option Address → Bool) : a.count p ≤ a.issued := by
  refine (Finset.card_filter_le _ _).trans ?_
  rw [Nat.card_Icc, Nat.add_sub_cancel]

theorem count_issue (a : Roll) (account : Address) (n : Nat) (p : Option Address → Bool) :
    (a.issue account n).count p = a.count p + if p (some account) then n else 0 := by
  have hsplit : Finset.Icc 1 (a.issued + n) =
      Finset.Icc 1 a.issued ∪ Finset.Ioc a.issued (a.issued + n) := by
    ext id
    simp only [Finset.mem_union, Finset.mem_Icc, Finset.mem_Ioc]
    omega
  have hdisjoint : Disjoint (Finset.Icc 1 a.issued) (Finset.Ioc a.issued (a.issued + n)) := by
    rw [Finset.disjoint_left]
    intro id hold hnew
    rw [Finset.mem_Icc] at hold
    rw [Finset.mem_Ioc] at hnew
    omega
  have hold : (Finset.Icc 1 a.issued).filter (fun id => p ((a.issue account n).owner id)) =
      (Finset.Icc 1 a.issued).filter fun id => p (a.owner id) := by
    refine Finset.filter_congr fun id hid => ?_
    rw [owner_issue_of_le a account n (Finset.mem_Icc.mp hid).2]
  have hnew : (Finset.Ioc a.issued (a.issued + n)).filter (fun id => p ((a.issue account n).owner id)) =
      (Finset.Ioc a.issued (a.issued + n)).filter fun _ => p (some account) := by
    refine Finset.filter_congr fun id hid => ?_
    obtain ⟨hlt, hle⟩ := Finset.mem_Ioc.mp hid
    rw [owner_issue_of_lt a account n hlt hle]
  rw [count, show (a.issue account n).issued = a.issued + n from rfl, hsplit, Finset.filter_union,
    Finset.card_union_of_disjoint (Finset.disjoint_filter_filter hdisjoint), hold, hnew, count]
  congr 1
  split
  · rename_i hp
    simp [hp]
  · rename_i hp
    simp [hp]

theorem count_revoke (a : Roll) {id : Nat} (hid : 1 ≤ id ∧ id ≤ a.issued)
    {p : Option Address → Bool} (hp : p none = false) :
    (a.revoke id).count p + (if p (a.owner id) then 1 else 0) = a.count p := by
  have herase : (Finset.Icc 1 a.issued).filter (fun other => p ((a.revoke id).owner other)) =
      ((Finset.Icc 1 a.issued).filter fun other => p (a.owner other)).erase id := by
    ext other
    rw [Finset.mem_filter, Finset.mem_erase, Finset.mem_filter]
    by_cases hother : other = id
    · simp [revoke, hother, hp]
    · simp [revoke, hother]
  rw [count, show (a.revoke id).issued = a.issued from rfl, herase]
  split
  · rename_i howner
    have hmem : id ∈ (Finset.Icc 1 a.issued).filter fun other => p (a.owner other) :=
      Finset.mem_filter.mpr ⟨Finset.mem_Icc.mpr hid, howner⟩
    exact Finset.card_erase_add_one hmem
  · rename_i howner
    have hmem : id ∉ (Finset.Icc 1 a.issued).filter fun other => p (a.owner other) :=
      fun hmem => howner (Finset.mem_filter.mp hmem).2
    rw [Finset.erase_eq_of_notMem hmem]
    rfl

end Roll

/-! ## Calls -/

/-- What can be asked of a registry that changes it. -/
inductive TokenCall
  | mint (account : Address) (quantity : UInt64)
  | burn (caller : Address) (id : UInt64)

/-- What is answered if the call succeeds. -/
inductive TokenReply
  /-- The new ids are those from `first` on and before `stop`. -/
  | minted (first stop : Nat)
  | burned

/-- Answers calls one after the other, from the state that the calls before have left. -/
def TokenCall.answerAll {σ ρ : Type} (answer : TokenCall → σ → ρ × σ) :
    List TokenCall → σ → List ρ × σ
  | [], s => ([], s)
  | call :: rest, s =>
    let (reply, t) := answer call s
    let (replies, u) := answerAll answer rest t
    (reply :: replies, u)

/-- Answers a call by the registry. -/
def Registry.answer : TokenCall → Registry → Except TokenError TokenReply × Registry
  | .mint account quantity, r =>
    (do
      let ids ← mint account quantity
      pure (.minted ids.first.toNat ids.stop.toNat) : Action Registry TokenError TokenReply).perform r
  | .burn caller id, r =>
    (do
      burn caller id
      pure .burned : Action Registry TokenError TokenReply).perform r

namespace Roll

def ownerOf (a : Roll) (id : UInt64) : Except TokenError Address :=
  match a.owner id.toNat with
  | some account => .ok account
  | none => .error (.invalidToken id)

/-- Answers a call by the roll. The next ids are given out as long as the last of them is followed by an id. -/
def answer : TokenCall → Roll → Except TokenError TokenReply × Roll
  | .mint account quantity, a =>
    let stop := 1 + a.issued + quantity.toNat
    if stop ≤ UInt64.size - 1 then (.ok (.minted (1 + a.issued) stop), a.issue account quantity.toNat)
    else (.error (.idsExhausted quantity), a)
  | .burn caller id, a =>
    match a.ownerOf id with
    | .error e => (.error e, a)
    | .ok account =>
      if account = caller then (.ok .burned, a.revoke id.toNat) else (.error (.notOwner caller id), a)

end Roll

end TokenSale
