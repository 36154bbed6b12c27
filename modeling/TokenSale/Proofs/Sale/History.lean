import TokenSale.Proofs.Sale.Calls

/-!
# Histories

A history is what was asked of a sale, call after call, and how it was answered. Each call may find another ledger and
another tier oracle, since neither is the sale's. What every call adds to and keeps of a history holds of all of it:
`trade_induction`.
-/

namespace TokenSale

/-- A call, and the ledger and the tier oracle that it finds. -/
structure Turn where
  request : Request
  ledger : Ledger
  tiers : TierOracle

/-- A call and how it was answered. -/
structure Entry where
  request : Request
  reply : Except SaleError Reply

namespace Sale

/-- The market that a call finds. -/
def met (s : Sale) (turn : Turn) : Market := ⟨{ s with tiers := turn.tiers }, turn.ledger, []⟩

def answer (s : Sale) (turn : Turn) : Entry × Sale :=
  let (reply, m) := (Market.serve turn.request).perform (s.met turn)
  (⟨turn.request, reply⟩, m.sale)

/-- Answers calls one after the other, each by the sale that the calls before have left. -/
def trade (s : Sale) : List Turn → List Entry × Sale
  | [] => ([], s)
  | turn :: rest =>
    let (entry, t) := s.answer turn
    let (entries, u) := t.trade rest
    (entry :: entries, u)

variable {s : Sale}

-- The history grows at its end, and the calls are taken from the front: what is kept is said of the past so far.
theorem trade_induction {P : List Entry → Sale → Prop}
    (hstep : ∀ past s turn, P past s → P (past ++ [(s.answer turn).1]) (s.answer turn).2)
    {past : List Entry} (h : P past s) (turns : List Turn) :
    P (past ++ (s.trade turns).1) (s.trade turns).2 := by
  induction turns generalizing past s with
  | nil =>
    rw [trade, List.append_nil]
    exact h
  | cons turn rest ih =>
    have hrest := ih (hstep past s turn h)
    rw [List.append_assoc] at hrest
    exact hrest

/-- What every call keeps of a sale holds after any of them. -/
theorem trade_invariant {P : Sale → Prop} (hstep : ∀ t turn, P t → P (answer t turn).2) (h : P s)
    (turns : List Turn) : P (s.trade turns).2 :=
  @trade_induction s (fun _ => P) (fun _ => hstep) [] h turns

theorem InStock.met (hs : s.InStock) (turn : Turn) : (s.met turn).sale.InStock :=
  ⟨hs.minted_le, hs.limit_le⟩

theorem effect_answer (hs : s.InStock) (turn : Turn) :
    ∃ l, (s.met turn).Effect (s.answer turn).1.request (s.answer turn).1.reply
      (s.answer turn).2 l :=
  ⟨_, Market.effect_serve (hs.met turn) turn.request⟩

theorem inStock_answer (hs : s.InStock) (turn : Turn) : (s.answer turn).2.InStock :=
  Market.inStock_serve (hs.met turn) turn.request

end Sale

end TokenSale
