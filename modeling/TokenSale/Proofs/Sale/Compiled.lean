import TokenSale.Proofs.Expr.Scripts
import TokenSale.Proofs.Sale.Evaluation
import TokenSale.Proofs.Sale.History

/-!
# Sales priced by expressions

A pricing may be compiled from two expressions, one for the most units that a buyer may take and one for the price. What
it quotes are their values (`Pricing.evaluate_eq_ok_iff`): the snapshot makes no difference, since the counters of a
sale stay as they are while it quotes. So what a purchase comes to is known from the expressions and from the sale
that it finds (`Sale.assess_of_compiled`), and that is so in all of a history, for the pricing never changes.
-/

namespace TokenSale

/-! ## Evaluation -/

namespace Machine

theorem toOption_evaluate {script : Script} {exprs : List Expr} (h : Script.ofExprs exprs = .ok script)
    (hfree : ∀ e ∈ exprs, e.stackFree = true) (s : Surroundings) {limit : Nat}
    (hlimit : script.instructionCount Script.entry ≤ limit) (m : Machine Unit) :
    ((evaluate script limit s.scene Script.entry exprs.length).perform m).1.toOption =
      Expr.denoteAll s exprs := by
  have hvalues := valuesLeft_run h hfree s hlimit m
  unfold evaluate
  rcases hrun : (run script limit s.scene Script.entry).perform m with ⟨fault | _, m'⟩
  · rw [hrun] at hvalues
    have hnone := Option.map_eq_none_iff.mp hvalues.symm
    rw [Action.perform_bind_of_error hrun, hnone]
    rfl
  · rw [hrun] at hvalues
    obtain ⟨ws, hws, hstack⟩ := Option.map_eq_some_iff.mp hvalues.symm
    have htop : ws.reverse = m'.stack.topFirst := hstack
    have hlist : m'.stack.toList = ws := by rw [Stack.toList, ← htop, List.reverse_reverse]
    have hdepth : m'.stack.depth = exprs.length := by
      have hlength := congrArg List.length (Expr.denoteAll_eq_some_iff.mp hws)
      rw [List.length_map, List.length_map] at hlength
      rw [Stack.depth, ← htop, List.length_reverse, hlength]
    rw [Action.perform_bind_of_ok hrun, outputs, Action.perform_bind_of_ok (Action.perform_get m'),
      if_pos hdepth, hlist, hws]
    rfl

end Machine

/-- The answer of a storage that does not change. -/
def Surroundings.answer (s : Surroundings) : Question → Word
  | .slot slot => s.slot slot
  | .minted account => s.minted account

theorem Quote.values_injective : Function.Injective Quote.values := by
  intro q q' h
  simp only [values, List.cons.injEq, and_true] at h
  obtain ⟨hunits, hprice⟩ := h
  cases q
  cases q'
  cases hunits
  cases hprice
  rfl

namespace Pricing

/-- A pricing compiled from two expressions that do not read the stack. -/
structure CompiledFrom (maxUnits unitPrice : Expr) (p : Pricing) : Prop where
  script : (Script.ofPair maxUnits unitPrice).map Script.toRawScript = .ok p.script
  maxUnits_stackFree : maxUnits.stackFree = true
  unitPrice_stackFree : unitPrice.stackFree = true

theorem CompiledFrom.exists_script {p : Pricing} {maxUnits unitPrice : Expr} (h : p.CompiledFrom maxUnits unitPrice) :
    ∃ script, Script.ofPair maxUnits unitPrice = .ok script ∧ script.toRawScript = p.script := by
  have hscript := h.script
  cases hpair : Script.ofPair maxUnits unitPrice with
  | error fault =>
    rw [hpair] at hscript
    cases hscript
  | ok script =>
    rw [hpair] at hscript
    exact ⟨script, rfl, Except.ok.inj hscript⟩

theorem lookup_journal (p : Pricing) (s : Surroundings) (q : Question) (w : Word)
    (h : (p.journal s.scene ()).lookup q = some w) : s.answer q = w := by
  have hanswers := (p.faithful_memory s.scene ()).interview
  have hstorage : s.scene.storage = .ofAnswers s.answer := rfl
  rw [← journal_eq, hstorage, Storage.interview_ofAnswers, List.map_map] at hanswers
  have hentries := List.map_inj_left.mp (Prod.mk.inj hanswers).1
  obtain ⟨before, after, hjournal, -⟩ := List.lookup_eq_some_iff.mp h
  have hmem : (q, w) ∈ p.journal s.scene () := by
    rw [hjournal]
    exact List.mem_append_right _ List.mem_cons_self
  exact hentries _ hmem

theorem map_values_evaluate_scene (p : Pricing) (s : Surroundings) (log : List Record) :
    ((p.evaluate s.scene).perform ((), log)).1.map Quote.values =
      ((Machine.evaluate p.script p.maxSteps s.scene Script.entry outputWidth).perform (.idle ())).1 := by
  have hanswers := p.lookup_journal s
  rw [map_values_evaluate, ← runOver_ofAnswers hanswers]
  rfl

/-- A compiled pricing quotes the values of its expressions. -/
theorem evaluate_eq_ok_iff {p : Pricing} {maxUnits unitPrice : Expr}
    (h : p.CompiledFrom maxUnits unitPrice) (s : Surroundings) (log : List Record) {q : Quote} :
    ((p.evaluate s.scene).perform ((), log)).1 = .ok q ↔
      maxUnits.denote s = some q.maxUnits ∧ unitPrice.denote s = some q.unitPrice := by
  have hfree : ∀ e ∈ [maxUnits, unitPrice], e.stackFree = true := by
    intro e he
    rcases List.mem_pair.mp he with rfl | rfl
    · exact h.maxUnits_stackFree
    · exact h.unitPrice_stackFree
  have hlimit : p.script.instructionCount Script.entry ≤ p.maxSteps := by
    rw [← RawScript.instructions_of_analyze p.analyzed]
    exact p.instructions_le
  obtain ⟨script, hscript, hraw⟩ := h.exists_script
  rw [← hraw] at hlimit
  have hvalues := Machine.toOption_evaluate hscript hfree s hlimit (.idle ())
  rw [hraw] at hvalues
  have hquote := congrArg Except.toOption (p.map_values_evaluate_scene s log)
  have hdenote := hquote.trans hvalues
  have hpair : Expr.denoteAll s [maxUnits, unitPrice] = some q.values ↔
      maxUnits.denote s = some q.maxUnits ∧ unitPrice.denote s = some q.unitPrice := by
    rw [Expr.denoteAll_eq_some_iff]
    simp only [Quote.values, List.map_cons, List.map_nil, List.cons.injEq, and_true]
  rw [← hpair, ← hdenote]
  rcases ((p.evaluate s.scene).perform ((), log)).1 with fault | q'
  · exact iff_of_false nofun nofun
  · constructor
    · intro heq
      exact congrArg (fun r => (r.map Quote.values).toOption) heq
    · intro heq
      have hlist : q'.values = q.values := Option.some.inj heq
      exact congrArg Except.ok (Quote.values_injective hlist)

end Pricing

/-! ## Purchases -/

theorem Expr.denote_account {s : Surroundings} {buyer : Address} {units : Word}
    (h : s.context = Pricing.buyContext buyer units) : account.denote s = some buyer.toWord := by
  rw [account, denote, h]
  rfl

namespace Sale

/-- What the expressions of a pricing see of a purchase. -/
def surroundings (s : Sale) (account : Address) (units : Word) (time : UInt64) : Surroundings where
  slot := s.slot
  minted := s.numberMinted
  tiers := s.tiers
  time := time
  context := Pricing.buyContext account units

/-- The units that an order comes to as far as the stock goes. -/
def wanted (s : Sale) (order : Order) : Word := min order.desired (.ofUInt64 s.remaining)

variable {s : Sale} {maxUnits unitPrice : Expr}

/-- A purchase is of at least one unit, and of no more than the first expression says. -/
theorem assess_of_compiled (h : s.pricing.CompiledFrom maxUnits unitPrice) {call : Call} {order : Order}
    {p : Purchase} {records : List Record} (hassess : s.assess call order = (.ok p, records)) :
    ∃ most, maxUnits.denote (s.surroundings call.caller (s.wanted order) call.time) = some most ∧
      p.units ≤ most ∧ p.units ≠ 0 := by
  obtain ⟨hmin, -, q, hquote, hunits, hle, -⟩ := assess_eq_ok hassess
  have hok : (s.quote call.caller (s.wanted order) call.time).1 = .ok q := congrArg Prod.fst hquote
  have hdenote := (Pricing.evaluate_eq_ok_iff h
    (s.surroundings call.caller (s.wanted order) call.time) []).mp hok
  refine ⟨q.maxUnits, hdenote.1, ?_, ?_⟩
  · rw [hunits, Word.le_def, Word.toNat_min]
    exact Nat.min_le_right _ _
  · intro hzero
    rw [hzero, Word.le_def, Word.toNat_zero] at hle
    apply hmin
    apply Word.ext
    exact Nat.le_zero.mp hle

/-! ## Histories -/

theorem inStock_trade (hs : s.InStock) (turns : List Turn) : (s.trade turns).2.InStock :=
  trade_invariant (P := InStock) (fun _ turn ht => inStock_answer ht turn) hs turns

theorem pricing_answer (hs : s.InStock) (turn : Turn) : (s.answer turn).2.pricing = s.pricing := by
  obtain ⟨l, heffect⟩ := effect_answer hs turn
  have hpricing := heffect.pricing_eq
  exact hpricing

theorem pricing_trade (hs : s.InStock) (turns : List Turn) : (s.trade turns).2.pricing = s.pricing := by
  have hstep : ∀ t turn, InStock t ∧ t.pricing = s.pricing →
      (answer t turn).2.InStock ∧ (answer t turn).2.pricing = s.pricing := by
    intro t turn ht
    have hpricing := pricing_answer ht.1 turn
    exact ⟨inStock_answer ht.1 turn, hpricing.trans ht.2⟩
  exact (trade_invariant (P := fun t => t.InStock ∧ t.pricing = s.pricing) hstep ⟨hs, rfl⟩ turns).2

/-- A purchase that goes through has been assessed by the sale that it finds. -/
theorem assess_of_minted (hs : s.InStock) {turn : Turn} {call : Call} {order : Order}
    {receipt : MintReceipt} (hrequest : turn.request = .mint call order)
    (hreply : (s.answer turn).1.reply = .ok (.minted receipt)) :
    ∃ p records, (s.met turn).sale.assess call order = (.ok p, records) ∧
      receipt = (s.met turn).sale.receipt call p := by
  obtain ⟨l, heffect⟩ := effect_answer hs turn
  have hasked : (s.answer turn).1.request = .mint call order := hrequest
  rw [hasked, hreply] at heffect
  generalize (s.answer turn).2 = t at heffect
  cases heffect with
  | minted hassess _ => exact ⟨_, _, hassess, rfl⟩

end Sale

end TokenSale
