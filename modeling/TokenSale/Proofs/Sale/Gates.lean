import TokenSale.Proofs.Sale.Compiled

/-!
# Gates

A gate is an expression that lets a buyer have units only where it holds, that is, where it has a value other than
zero. A sale that is priced behind a gate (`Expr.gated`) sells to nobody for whom the gate does not hold when the call
comes (`Sale.holds_of_minted`): for the closed gate the script allows no units, and no purchase is of none. For the
gates of a script's time and tiers this says that no unit is sold outside the window or below the tier.
-/

namespace TokenSale

namespace Expr

/-- A value other than zero. -/
def Holds (e : Expr) (s : Surroundings) : Prop := ∃ w, e.denote s = some w ∧ w ≠ 0

/-- The most units that a buyer may take, behind a gate. -/
def gated (gate most : Expr) : Expr := ifElse gate most (constant 0)

variable {s : Surroundings}

theorem holds_of_gated {gate most : Expr} {w : Word} (h : (gated gate most).denote s = some w)
    (hw : w ≠ 0) : gate.Holds s := by
  simp only [gated, denote] at h
  cases hgate : gate.denote s with
  | none =>
    rw [hgate] at h
    cases h
  | some x =>
    refine ⟨x, hgate, ?_⟩
    rintro rfl
    rw [hgate] at h
    cases hmost : most.denote s with
    | none =>
      rw [hmost] at h
      cases h
    | some y =>
      rw [hmost] at h
      have hzero : (0 : Word) = w := Option.some.inj h
      exact hw hzero.symm

theorem holds_iff_of_denote {e : Expr} {b : Bool} (h : e.denote s = some (.ofBool b)) :
    e.Holds s ↔ b = true := by
  constructor
  · rintro ⟨w, hw, hne⟩
    rw [h] at hw
    obtain rfl := Option.some.inj hw
    exact (Aggregate.ofBool_ne_zero b).mp hne
  · intro hb
    exact ⟨_, h, (Aggregate.ofBool_ne_zero b).mpr hb⟩

theorem holds_timeCmp_iff {time : UInt64} {c : Comparator} :
    (timeCmp time c).Holds s ↔ c.holds (.ofUInt64 s.time) (.ofUInt64 time) = true := by
  apply holds_iff_of_denote
  rw [denote]

theorem holds_between_iff {first last : UInt64} :
    (between first last).Holds s ↔ first ≤ s.time ∧ s.time ≤ last := by
  rw [holds_iff_of_denote (b := decide (first ≤ s.time ∧ s.time ≤ last)) (by rw [denote])]
  exact decide_eq_true_iff

theorem holds_hasMinTier_iff {source buyer : Address} {units : Word} {least : UInt8}
    (h : s.context = Pricing.buyContext buyer units) :
    (hasMinTier source account least).Holds s ↔ least.toNat ≤ (s.tier source buyer).toNat := by
  have hdenote : (hasMinTier source account least).denote s =
      some (.ofBool (least.toNat ≤ (s.tier source buyer).toNat)) := by
    rw [denote, denote_account h, Option.bind_eq_bind, Option.bind_some, Address.ofWord_toWord]
    rfl
  rw [holds_iff_of_denote hdenote]
  exact decide_eq_true_iff

end Expr

namespace Sale

variable {config : Config} {pricing : Pricing} {tiers : TierOracle} {s : Sale} {gate most unitPrice : Expr}

/-- **Gates are kept.** Whatever calls a sale that is priced behind a gate has answered, a purchase that goes through
finds the gate holding for its buyer, for the units that are asked for and in stock, at the time of the call, on the
counters and tiers that the call finds. So where the gate is a time or a window, the call comes in time, and where it is
a tier, the buyer has at least that tier. -/
theorem holds_of_minted (hpricing : pricing.CompiledFrom (.gated gate most) unitPrice)
    (hdeploy : (deploy config pricing tiers).1 = .ok s) (turns : List Turn) {turn : Turn} {call : Call}
    {order : Order} {receipt : MintReceipt} (hrequest : turn.request = .mint call order)
    (hreply : ((s.trade turns).2.answer turn).1.reply = .ok (.minted receipt)) :
    let found := ((s.trade turns).2.met turn).sale
    let seen := found.surroundings call.caller (found.wanted order) call.time
    gate.Holds seen ∧
      (∀ time c, gate = .timeCmp time c → c.holds (.ofUInt64 call.time) (.ofUInt64 time) = true) ∧
      (∀ first last, gate = .between first last → first ≤ call.time ∧ call.time ≤ last) ∧
      ∀ source least, gate = .hasMinTier source .account least →
        least.toNat ≤ (seen.tier source call.caller).toNat := by
  intro found seen
  have hdeployed : s.pricing = pricing := by
    obtain ⟨rfl, -⟩ := deploy_eq_ok hdeploy
    rfl
  have hstock := inStock_trade (inStock_of_deploy hdeploy) turns
  have hfound : found.pricing.CompiledFrom (.gated gate most) unitPrice := by
    have hkept : found.pricing = s.pricing := pricing_trade (inStock_of_deploy hdeploy) turns
    rw [hkept, hdeployed]
    exact hpricing
  obtain ⟨p, records, hassess, -⟩ := assess_of_minted hstock hrequest hreply
  obtain ⟨units, hunits, hle, hpos⟩ := assess_of_compiled hfound hassess
  have hunits_ne : units ≠ 0 := by
    rintro rfl
    rw [Word.le_def, Word.toNat_zero] at hle
    exact hpos (Word.ext (Nat.le_zero.mp hle))
  have hholds : gate.Holds seen := Expr.holds_of_gated hunits hunits_ne
  refine ⟨hholds, ?_, ?_, ?_⟩
  · rintro time c rfl
    exact Expr.holds_timeCmp_iff.mp hholds
  · rintro first last rfl
    exact Expr.holds_between_iff.mp hholds
  · rintro source least rfl
    exact (Expr.holds_hasMinTier_iff rfl).mp hholds

/-- As many units as asked for, from ten to twenty, at a price of three. -/
def windowPricing : Pricing where
  script :=
    { sources := [[Instruction.constant.opcode, 0, Instruction.constant.opcode, 1,
        Instruction.betweenTimestamps.opcode, 0, Instruction.context.opcode, 1,
        Instruction.constant.opcode, 2, Instruction.eagerIf.opcode, 0, Instruction.constant.opcode, 3]]
      constants := [.ofUInt64 10, .ofUInt64 20, 0, .ofUInt64 3] }
  summary := ⟨7, 2, 3, 2⟩
  maxSteps := 7
  analyzed := by decide
  finalDepth_eq := rfl
  instructions_le := Nat.le_refl 7

theorem compiledFrom_windowPricing :
    windowPricing.CompiledFrom (.gated (.between 10 20) .targetUnits) (.constant (.ofUInt64 3)) where
  script := by rfl
  maxUnits_stackFree := by decide
  unitPrice_stackFree := by decide

def windowSale : Sale := ⟨flatConfig, windowPricing, .empty, .none, 0, 0⟩

/-- A purchase of two tokens at a given time. -/
def turnAt (time : UInt64) : Turn where
  request := .mint ⟨.truncate 2, .ofUInt64 6, time⟩ ⟨1, .ofUInt64 2, .ofUInt64 3⟩
  ledger := Ledger.empty.credit .native (.truncate 2) (.ofUInt64 6)
  tiers := .none

/-- Too early, the buyer gets nothing; when the window closes, two tokens. -/
theorem holds_of_minted_windowSale :
    windowPricing.CompiledFrom (.gated (.between 10 20) .targetUnits) (.constant (.ofUInt64 3)) ∧
      (deploy flatConfig windowPricing .none).1 = .ok windowSale ∧
      (windowSale.answer (turnAt 9)).1.reply = .error (.insufficientStock 1 0) ∧
      ∃ receipt, ((windowSale.trade [turnAt 9]).2.answer (turnAt 20)).1.reply = .ok (.minted receipt) ∧
        (10 : UInt64) ≤ 20 ∧ (20 : UInt64) ≤ 20 := by
  have hdeploy : (deploy flatConfig windowPricing .none).1 = .ok windowSale := by rfl
  have hearly : (windowSale.answer (turnAt 9)).1.reply = .error (.insufficientStock 1 0) := by rfl
  have hreply : ((windowSale.trade [turnAt 9]).2.answer (turnAt 20)).1.reply =
      .ok (.minted ⟨1, 2, .ofUInt64 3, .ofUInt64 6, 0⟩) := by rfl
  have hrequest : (turnAt 20).request =
      .mint ⟨.truncate 2, .ofUInt64 6, 20⟩ ⟨1, .ofUInt64 2, .ofUInt64 3⟩ := by rfl
  obtain ⟨-, -, hwindow, -⟩ :=
    holds_of_minted compiledFrom_windowPricing hdeploy [turnAt 9] hrequest hreply
  exact ⟨compiledFrom_windowPricing, hdeploy, hearly, _, hreply, hwindow 10 20 rfl⟩

end Sale

end TokenSale
