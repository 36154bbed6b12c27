import TokenSale.Proofs.Script.Analysis
import TokenSale.Proofs.Sale.Calls

/-!
# What buyers meet of a malformed script

What can be wrong with the instructions of a script is found before the sale is deployed: a pricing has an analysed script
that leaves two values and fits its step limit, and a sale is deployed only if the script reads no more of the context
than a purchase has. The calls of a sale keep both (`Effect.pricing_eq`, `Reachable.admitted`). So a script that is asked
for a quote runs to its end and leaves the two values, or it overflows or divides by zero.

One thing is not found. The analysis leaves out a byte alone at the end of the entry source, and a raw script may have one.
Such a sale is deployed, but no quote of it ever comes to its end (`runOnce_of_stray`). The main statement,
`Sale.Reachable.quote_sound`, has both; `quote_fails_unendedScript` shows a sale of the second kind.
-/

namespace TokenSale

namespace Machine

variable {σ : Type}

/-- An analysed source that is whole and has its context and its steps leaves as many values as the analysis says, unless
some arithmetic fails. -/
theorem evaluate_of_analyze {script : RawScript} {source : Nat} {t : Summary}
    (h : script.analyze source = .ok t) (hwhole : script.IsWhole source) {scene : Scene σ}
    (hcontext : t.contextLen ≤ scene.context.length) {limit : Nat} (hlimit : t.instructions ≤ limit) (m : Machine σ) :
    (∃ values, ((evaluate script limit scene source t.finalDepth).perform m).1 = .ok values ∧
        values.length = t.finalDepth) ∨
      ∃ fault, ((evaluate script limit scene source t.finalDepth).perform m).1 = .error fault ∧
        fault.IsArithmetic := by
  have hend := foretold_run h hwhole scene limit m
  rw [evaluate]
  rcases hrun : (run script limit scene source).perform m with ⟨fault | _, m'⟩
  · rw [hrun] at hend
    rw [Action.perform_bind_of_error hrun]
    exact Or.inr ⟨fault, rfl, hend.2.isArithmetic hcontext hlimit⟩
  · rw [hrun] at hend
    have hdepth : m'.stack.depth = t.finalDepth := hend.depth
    rw [Action.perform_bind_of_ok hrun, outputs,
      Action.perform_bind_of_ok (Action.perform_get m'), if_pos hdepth]
    refine Or.inl ⟨m'.stack.toList, rfl, ?_⟩
    rw [Stack.toList, List.length_reverse]
    exact hdepth

end Machine

namespace Pricing

variable {σ : Type}

/-- How a script ends whose entry source is not whole, when all the instructions of it were executed. -/
def strayFault (p : Pricing) : Fault :=
  if p.summary.instructions < p.maxSteps then
    .unexpectedEnd Script.entry (Instruction.width * p.summary.instructions)
  else .stepLimitExceeded p.maxSteps

/-- The faults that a script still has when it is asked for a quote: those of its arithmetic, and that of an entry source
that is not whole. -/
def LeavesOpen (p : Pricing) (fault : Fault) : Prop :=
  fault.IsArithmetic ∨ ¬ p.script.IsWhole Script.entry ∧ fault = p.strayFault

theorem runOnce_of_isWhole (p : Pricing) (hwhole : p.script.IsWhole Script.entry) {scene : Scene σ}
    (hcontext : p.contextLen ≤ scene.context.length) (store : σ) :
    (∃ a b, (p.runOnce scene store).1 = .ok [a, b]) ∨
      ∃ fault, (p.runOnce scene store).1 = .error fault ∧ fault.IsArithmetic := by
  have hcontext' : p.summary.contextLen ≤
      ({ scene with storage := Snapshot.storage scene.storage } : Scene (Snapshot σ)).context.length :=
    hcontext
  have hend := Machine.evaluate_of_analyze p.analyzed hwhole hcontext' p.instructions_le
    (.idle (.ofBase store))
  rw [p.finalDepth_eq] at hend
  rcases hend with ⟨values, hvalues, hlength⟩ | hfault
  · obtain ⟨a, b, rfl⟩ := List.length_eq_two.mp hlength
    exact Or.inl ⟨a, b, hvalues⟩
  · exact Or.inr hfault

theorem runOnce_of_stray (p : Pricing) (hstray : ¬ p.script.IsWhole Script.entry) {scene : Scene σ}
    (hcontext : p.contextLen ≤ scene.context.length) (store : σ) :
    ∃ fault, (p.runOnce scene store).1 = .error fault ∧ (fault.IsArithmetic ∨ fault = p.strayFault) := by
  obtain ⟨fault, m, hrun, hfault⟩ := Machine.run_of_stray p.analyzed hstray
    { scene with storage := Snapshot.storage scene.storage } p.maxSteps (.idle (.ofBase store))
  refine ⟨fault, ?_, hfault.imp_left fun hopen => hopen.isArithmetic hcontext p.instructions_le⟩
  rw [runOnce, Machine.evaluate, Action.perform_bind_of_error hrun]

theorem runOnce_cases (p : Pricing) {scene : Scene σ} (hcontext : p.contextLen ≤ scene.context.length)
    (store : σ) :
    (p.script.IsWhole Script.entry ∧ ∃ a b, (p.runOnce scene store).1 = .ok [a, b]) ∨
      ∃ fault, (p.runOnce scene store).1 = .error fault ∧ p.LeavesOpen fault := by
  by_cases hwhole : p.script.IsWhole Script.entry
  · rcases p.runOnce_of_isWhole hwhole hcontext store with hvalues | ⟨fault, hfault, harith⟩
    · exact Or.inl ⟨hwhole, hvalues⟩
    · exact Or.inr ⟨fault, hfault, Or.inl harith⟩
  · obtain ⟨fault, hfault, hopen⟩ := p.runOnce_of_stray hwhole hcontext store
    exact Or.inr ⟨fault, hfault, hopen.imp_right fun hstray => ⟨hwhole, hstray⟩⟩

theorem evaluate_of_runOnce {p : Pricing} {scene : Scene σ} {store : σ} {result : Except Fault (List Word)}
    (h : (p.runOnce scene store).1 = result) (log : List Record) :
    ((p.evaluate scene).perform (store, log)).1 =
      result.map fun values => ⟨values.getD 0 0, values.getD 1 0⟩ := by
  subst h
  rw [evaluate, Action.perform_ofFunction]
  dsimp only
  rcases p.runOnce scene store with ⟨fault | values, m⟩
  · rfl
  · rfl

end Pricing

/-! ## Sales -/

namespace Market

theorem Effect.pricing_eq {m : Market} {r : Request} {reply : Except SaleError Reply} {s : Sale}
    {l : Ledger} (h : m.Effect r reply s l) : s.pricing = m.sale.pricing := by
  cases h with
  | refused _ => rfl
  | minted _ _ => rfl
  | withdrawn _ _ => rfl
  | burned _ => rfl
  | recipientSet _ => rfl
  | ownerSet _ => rfl

end Market

namespace Sale

theorem Reachable.quote_cases {s : Sale} (hs : s.Reachable) (account : Address) (units : Word)
    (time : UInt64) :
    (s.pricing.script.IsWhole Script.entry ∧
        ∃ a b, (s.pricing.runOnce (s.scene account units time) ()).1 = .ok [a, b] ∧
          (s.quote account units time).1 = .ok ⟨a, b⟩) ∨
      ∃ fault, (s.quote account units time).1 = .error fault ∧ s.pricing.LeavesOpen fault := by
  have hcontext : s.pricing.contextLen ≤ (s.scene account units time).context.length :=
    hs.admitted.contextLen_le
  rcases s.pricing.runOnce_cases hcontext () with ⟨hwhole, a, b, hrun⟩ | ⟨fault, hrun, hfault⟩
  · exact Or.inl ⟨hwhole, a, b, hrun, Pricing.evaluate_of_runOnce hrun []⟩
  · exact Or.inr ⟨fault, Pricing.evaluate_of_runOnce hrun [], hfault⟩

end Sale

namespace Market

/-- A purchase that the script is blamed for is one that the script has no quote for. -/
theorem quote_of_mint_script {m : Market} (hm : m.sale.InStock) {call : Call} {order : Order}
    {fault : Fault} {t : Market} (h : (mint call order).perform m = (.error (.script fault), t)) :
    ∃ wanted, (m.sale.quote call.caller wanted call.time).1 = .error fault := by
  rw [perform_mint] at h
  rcases hassess : m.sale.assess call order with ⟨e | p, records⟩
  · rw [hassess] at h
    cases h
    cases Sale.declines_of_assess hassess with
    | script hquote => exact ⟨_, congrArg Prod.fst hquote⟩
  · rw [hassess] at h
    have hids := hm.ids_suffice (Sale.units_le_remaining hassess)
    rcases settle_cases call p (m.logged records) hids with ⟨e, hpayment, hsettle⟩ | ⟨l, -, hsettle⟩
    · dsimp only at h
      rw [hsettle] at h
      cases h
      rcases hpayment with ⟨value, cost, hvalue⟩ | ⟨cause, hcause⟩
      · cases hvalue
      · cases hcause
    · dsimp only at h
      rw [hsettle] at h
      cases h

end Market

namespace Sale

/-- **What buyers meet of a malformed script.** On every sale that calls lead to, whatever the pricing it was deployed
with, a quote comes to the two values that the script leaves, or is refused for one of the faults that are left open: the
script overflows or divides by zero, or its entry source is not whole and it ends for want of the last operand or of a
step for it. A purchase that is refused for the script is refused for one of these, and what is not whole sells nothing. -/
theorem Reachable.quote_sound {s : Sale} (hs : s.Reachable) (l : Ledger) (log : List Record) :
    (∀ account units time,
      (s.pricing.script.IsWhole Script.entry ∧
          ∃ a b t, (s.pricing.runOnce (s.scene account units time) ()).1 = .ok [a, b] ∧
            (Market.quote account units time).perform ⟨s, l, log⟩ = (.ok ⟨a, b⟩, t)) ∨
        ∃ fault t,
          (Market.quote account units time).perform ⟨s, l, log⟩ = (.error (.script fault), t) ∧
          s.pricing.LeavesOpen fault) ∧
      (∀ call order fault t,
        (Market.mint call order).perform ⟨s, l, log⟩ = (.error (.script fault), t) →
          s.pricing.LeavesOpen fault) ∧
      ∀ call order receipt t,
        (Market.mint call order).perform ⟨s, l, log⟩ = (.ok receipt, t) →
          s.pricing.script.IsWhole Script.entry := by
  refine ⟨?_, ?_, ?_⟩
  · intro account units time
    have hcases := hs.quote_cases account units time
    rcases hquoted : s.quote account units time with ⟨result, records⟩
    rw [hquoted] at hcases
    have hperform := Market.perform_quote (m := ⟨s, l, log⟩) hquoted
    rcases hcases with ⟨hwhole, a, b, hrun, hquote⟩ | ⟨fault, hquote, hfault⟩
    · obtain rfl : result = .ok ⟨a, b⟩ := hquote
      exact Or.inl ⟨hwhole, a, b, _, hrun, hperform⟩
    · obtain rfl : result = .error fault := hquote
      exact Or.inr ⟨fault, _, hperform, hfault⟩
  · intro call order fault t h
    obtain ⟨wanted, hquote⟩ := Market.quote_of_mint_script (m := ⟨s, l, log⟩) hs.inStock h
    rcases hs.quote_cases call.caller wanted call.time with ⟨-, a, b, -, hok⟩ | ⟨fault', hfault, hopen⟩
    · rw [hok] at hquote
      cases hquote
    · rw [hfault] at hquote
      cases hquote
      exact hopen
  · intro call order receipt t h
    rcases Market.mint_cases (m := ⟨s, l, log⟩) hs.inStock call order with
      ⟨e, records, -, hmint⟩ | ⟨p, l', records, hassess, -⟩
    · rw [hmint] at h
      cases h
    · obtain ⟨-, -, q, hquote, -⟩ := assess_eq_ok hassess
      rcases hs.quote_cases call.caller (min order.desired (.ofUInt64 s.remaining)) call.time with
        ⟨hwhole, -⟩ | ⟨fault, hfault, -⟩
      · exact hwhole
      · rw [hquote] at hfault
        cases hfault

/-- As many units as asked for, at ten shared among them. -/
def sharePricing : Pricing where
  script :=
    { sources := [[Instruction.context.opcode, 1, Instruction.constant.opcode, 0,
        Instruction.context.opcode, 1, (Instruction.aggregate .div).opcode, 2]]
      constants := [.ofUInt64 10] }
  summary := ⟨4, 2, 3, 2⟩
  maxSteps := 4
  analyzed := by decide
  finalDepth_eq := rfl
  instructions_le := Nat.le_refl 4

def shareSale : Sale := ⟨flatConfig, sharePricing, .empty, .none, 0, 0⟩

/-- Ten cannot be shared among no units. -/
theorem quote_sound_shareSale :
    shareSale.Reachable ∧ ∃ fault t,
      (Market.quote .zero 0 0).perform ⟨shareSale, .empty, []⟩ = (.error (.script fault), t) ∧
        fault.IsArithmetic := by
  have hs : shareSale.Reachable :=
    .deployed (show (deploy flatConfig sharePricing .none).1 = .ok shareSale from rfl)
  have hresult : ((Market.quote .zero 0 0).perform ⟨shareSale, .empty, []⟩).1 =
      .error (.script (.divisionByZero ⟨"DIV", 6⟩)) := by rfl
  rcases (hs.quote_sound .empty []).1 .zero 0 0 with ⟨-, a, b, t, -, hok⟩ | ⟨fault, t, hquote, hopen⟩
  · rw [hok] at hresult
    cases hresult
  · refine ⟨hs, fault, t, hquote, hopen.resolve_right ?_⟩
    rintro ⟨hstray, -⟩
    exact hstray (by decide)

/-- Two reads of the time, and a byte alone. -/
def unendedScript : RawScript where
  sources := [[Instruction.blockTimestamp.opcode, 0, Instruction.blockTimestamp.opcode, 0, 9]]
  constants := []

/-- What the codec reads as the script. -/
def unendedBytes : List UInt8 :=
  [1, 0, 0, 0, 0, 0, 0, 0] ++ [5, 0, 0, 0, 0, 0, 0, 0] ++ [4, 0, 4, 0, 9] ++ List.replicate 8 0

/-- The codec reads a script that is not whole, though no script proper has its parts. It passes as a pricing, under the
default limit and under one that has no step to spare, and both sales are deployed. The first has no quote for want of an
operand, the second for want of a step. -/
theorem quote_fails_unendedScript :
    RawScript.codec.decode unendedBytes = .ok (unendedScript, []) ∧
      Script.ofParts unendedScript.sources unendedScript.constants = .error (.unexpectedEnd 0 4) ∧
      ∃ p q s t, Pricing.ofScript unendedScript = .ok p ∧ p.withLimit 2 = .ok q ∧
        (deploy flatConfig p .none).1 = .ok s ∧ (deploy flatConfig q .none).1 = .ok t ∧
        ((Market.quote .zero 0 0).perform ⟨s, .empty, []⟩).1 = .error (.script (.unexpectedEnd 0 4)) ∧
        ((Market.quote .zero 0 0).perform ⟨t, .empty, []⟩).1 = .error (.script (.stepLimitExceeded 2)) :=
  ⟨by rfl, by rfl, _, _, _, _, by rfl, by rfl, by rfl, by rfl, by rfl, by rfl⟩

end Sale

end TokenSale
