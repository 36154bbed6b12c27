import Mathlib.Order.MinMax
import TokenSale.Proofs.Expr.Acceptance

/-!
# Ramps

A ramp is meant to move linearly from its first price to its last while its window lasts, and to stay there:
`linearPrice`. What its script charges is `rampPrice`. The script first multiplies the time that has passed by the
difference of the prices, and a product stops at the greatest word. So a price never moves by more than
`(2 ^ 256 - 1) / duration`, its `reach`.

* `exists_charges`: every ramp is accepted, and every run of its script leaves `rampPrice`.
* `charges_ramp_ordered`: the price stays between the two prices, and it moves in one direction only.
* `charges_ramp_linear_iff`: the price is the linear one throughout exactly if the difference of the prices times the
  duration is a word. If it is not, then the price never gets to the last one.
-/

namespace TokenSale

namespace Word

/-! ## Moving from one word towards another -/

/-- How far apart two words are. -/
def distance (a b : Word) : Nat := if a ≤ b then b.toNat - a.toNat else a.toNat - b.toNat

/-- Where a move by `n` from `a` in the direction of `b` leads. -/
def towards (a b : Word) (n : Nat) : Nat := if a ≤ b then a.toNat + n else a.toNat - n

variable {a b : Word} {n n' : Nat}

theorem distance_of_le (h : a ≤ b) : a.distance b = b.toNat - a.toNat := if_pos h
theorem distance_of_not_le (h : ¬ a ≤ b) : a.distance b = a.toNat - b.toNat := if_neg h
theorem towards_of_le (h : a ≤ b) (n : Nat) : a.towards b n = a.toNat + n := if_pos h
theorem towards_of_not_le (h : ¬ a ≤ b) (n : Nat) : a.towards b n = a.toNat - n := if_neg h

theorem towards_zero (a b : Word) : a.towards b 0 = a.toNat := by
  unfold towards
  split <;> rfl

theorem towards_distance (a b : Word) : a.towards b (a.distance b) = b.toNat := by
  by_cases h : a ≤ b
  · rw [distance_of_le h, towards_of_le h]
    exact Nat.add_sub_cancel' h
  · rw [distance_of_not_le h, towards_of_not_le h]
    exact Nat.sub_sub_self (Nat.le_of_not_le h)

theorem towards_mono (hab : a ≤ b) (h : n ≤ n') : a.towards b n ≤ a.towards b n' := by
  rw [towards_of_le hab, towards_of_le hab]
  exact Nat.add_le_add_left h _

theorem towards_anti (hab : ¬ a ≤ b) (h : n ≤ n') : a.towards b n' ≤ a.towards b n := by
  rw [towards_of_not_le hab, towards_of_not_le hab]
  exact Nat.sub_le_sub_left h _

/-- A move that is no longer than the distance stays between the two words. -/
theorem towards_between (h : n ≤ a.distance b) :
    min a.toNat b.toNat ≤ a.towards b n ∧ a.towards b n ≤ max a.toNat b.toNat := by
  have hzero := towards_zero a b
  have hdistance := towards_distance a b
  by_cases hab : a ≤ b
  · have hfrom := towards_mono hab (Nat.zero_le n)
    have hto := towards_mono hab h
    omega
  · have hfrom := towards_anti hab (Nat.zero_le n)
    have hto := towards_anti hab h
    omega

theorem towards_lt_size (h : n ≤ a.distance b) : a.towards b n < size :=
  (towards_between h).2.trans_lt (max_lt a.toNat_lt b.toNat_lt)

theorem towards_inj (h : n ≤ a.distance b) (h' : n' ≤ a.distance b) :
    a.towards b n = a.towards b n' ↔ n = n' := by
  by_cases hab : a ≤ b
  · rw [towards_of_le hab, towards_of_le hab]
    omega
  · rw [distance_of_not_le hab] at h h'
    rw [towards_of_not_le hab, towards_of_not_le hab]
    omega

end Word

/-! ## What is covered of a difference -/

/-- What is covered of a difference `delta` after a part of the duration: as much of it, rounded down. -/
def covered (delta elapsed duration : Nat) : Nat := delta * min elapsed duration / duration

/-- The farthest that a ramp moves. -/
def reach (duration : Nat) : Nat := (Word.size - 1) / duration

section Covered

variable {delta elapsed elapsed' duration : Nat}

theorem covered_le (delta elapsed duration : Nat) : covered delta elapsed duration ≤ delta := by
  refine Nat.div_le_of_le_mul ?_
  rw [Nat.mul_comm duration]
  exact Nat.mul_le_mul_left _ (Nat.min_le_right _ _)

theorem covered_mono (h : elapsed ≤ elapsed') : covered delta elapsed duration ≤ covered delta elapsed' duration :=
  Nat.div_le_div_right (Nat.mul_le_mul_left _ (min_le_min_right _ h))

theorem covered_of_le (hduration : 0 < duration) (h : duration ≤ elapsed) :
    covered delta elapsed duration = delta := by
  rw [covered, Nat.min_eq_right h, Nat.mul_div_cancel _ hduration]

theorem covered_zero (delta duration : Nat) : covered delta 0 duration = 0 := by
  rw [covered, Nat.zero_min, Nat.mul_zero, Nat.zero_div]

/-- The product may be formed of all the time that has passed, and the quotient cut off at the difference. -/
theorem min_div_eq_covered (hduration : 0 < duration) :
    min (elapsed * delta / duration) delta = covered delta elapsed duration := by
  by_cases h : duration ≤ elapsed
  · have hle : delta ≤ elapsed * delta / duration := by
      rw [Nat.le_div_iff_mul_le hduration, Nat.mul_comm]
      exact Nat.mul_le_mul_right _ h
    rw [covered_of_le hduration h, Nat.min_eq_right hle]
  · have hlt : elapsed ≤ duration := Nat.le_of_not_le h
    have hcovered : covered delta elapsed duration = elapsed * delta / duration := by
      rw [covered, Nat.min_eq_left hlt, Nat.mul_comm]
    rw [hcovered]
    exact Nat.min_eq_left (hcovered ▸ covered_le delta elapsed duration)

theorem le_reach_iff (hduration : 0 < duration) : delta ≤ reach duration ↔ delta * duration < Word.size := by
  rw [reach, Nat.le_div_iff_mul_le hduration]
  exact Nat.le_sub_one_iff_lt (by decide)

end Covered

/-! ## The prices of a ramp -/

namespace Expr

variable {startPrice endPrice : Word} {startTime endTime time time' : UInt64}

/-- The price that a ramp stands for: the first price until the window opens, the last price once it is over, and
between them the first price moved by what is covered of the difference. -/
def linearPrice (startPrice endPrice : Word) (startTime endTime time : UInt64) : Nat :=
  startPrice.towards endPrice
    (covered (startPrice.distance endPrice) (time.toNat - startTime.toNat) (endTime.toNat - startTime.toNat))

/-- How far a ramp has moved. Without a duration it moves all at once, at the end. -/
def progress (delta : Nat) (startTime endTime time : UInt64) : Nat :=
  if endTime ≤ startTime then if endTime ≤ time then delta else 0
  else min (covered delta (time.toNat - startTime.toNat) (endTime.toNat - startTime.toNat))
    (reach (endTime.toNat - startTime.toNat))

/-- The price that a ramp comes to. -/
def rampPrice (startPrice endPrice : Word) (startTime endTime time : UInt64) : Word :=
  .clamp (startPrice.towards endPrice (progress (startPrice.distance endPrice) startTime endTime time))

theorem progress_of_lt (hwindow : startTime < endTime) (delta : Nat) (time : UInt64) :
    progress delta startTime endTime time =
      min (covered delta (time.toNat - startTime.toNat) (endTime.toNat - startTime.toNat))
        (reach (endTime.toNat - startTime.toNat)) :=
  if_neg (UInt64.not_le.mpr hwindow)

theorem progress_le (delta : Nat) (startTime endTime time : UInt64) :
    progress delta startTime endTime time ≤ delta := by
  unfold progress
  split_ifs
  · exact Nat.le_refl delta
  · exact Nat.zero_le delta
  · exact (Nat.min_le_left _ _).trans (covered_le _ _ _)

theorem progress_mono (delta : Nat) (h : time ≤ time') :
    progress delta startTime endTime time ≤ progress delta startTime endTime time' := by
  by_cases hwindow : endTime ≤ startTime
  · rw [progress, if_pos hwindow]
    split_ifs with htime
    · rw [progress, if_pos hwindow, if_pos (UInt64.le_trans htime h)]
    · exact Nat.zero_le _
  · rw [progress_of_lt (UInt64.not_le.mp hwindow), progress_of_lt (UInt64.not_le.mp hwindow)]
    exact min_le_min_right _ (covered_mono (Nat.sub_le_sub_right (UInt64.le_iff_toNat_le.mp h) _))

theorem progress_of_le (hwindow : startTime < endTime) (delta : Nat) (h : time ≤ startTime) :
    progress delta startTime endTime time = 0 := by
  rw [progress_of_lt hwindow, Nat.sub_eq_zero_of_le (UInt64.le_iff_toNat_le.mp h), covered_zero, Nat.zero_min]

theorem toNat_rampPrice (startPrice endPrice : Word) (startTime endTime time : UInt64) :
    (rampPrice startPrice endPrice startTime endTime time).toNat =
      startPrice.towards endPrice (progress (startPrice.distance endPrice) startTime endTime time) := by
  have hlt := Word.towards_lt_size (progress_le (startPrice.distance endPrice) startTime endTime time)
  rw [rampPrice, Word.toNat_clamp]
  exact Nat.min_eq_left (Nat.le_sub_one_of_lt hlt)

theorem rampPrice_of_le (hwindow : startTime < endTime) (h : time ≤ startTime) :
    rampPrice startPrice endPrice startTime endTime time = startPrice := by
  refine Word.ext ?_
  rw [toNat_rampPrice, progress_of_le hwindow _ h, Word.towards_zero]

theorem rampPrice_eq_linearPrice_iff (hwindow : startTime < endTime) :
    (rampPrice startPrice endPrice startTime endTime time).toNat =
        linearPrice startPrice endPrice startTime endTime time ↔
      covered (startPrice.distance endPrice) (time.toNat - startTime.toNat) (endTime.toNat - startTime.toNat) ≤
        reach (endTime.toNat - startTime.toNat) := by
  rw [toNat_rampPrice, linearPrice, Word.towards_inj (progress_le _ _ _ _) (covered_le _ _ _),
    progress_of_lt hwindow]
  exact min_eq_left_iff

theorem linearPrice_of_le (hwindow : startTime < endTime) (h : endTime ≤ time) :
    linearPrice startPrice endPrice startTime endTime time = endPrice.toNat := by
  have hduration : 0 < endTime.toNat - startTime.toNat := Nat.sub_pos_of_lt (UInt64.lt_iff_toNat_lt.mp hwindow)
  rw [linearPrice, covered_of_le hduration (Nat.sub_le_sub_right (UInt64.le_iff_toNat_le.mp h) _),
    Word.towards_distance]

/-- At the end of the window, and at any time after it, the last price is charged exactly if it is within reach. -/
theorem rampPrice_eq_endPrice_iff (hwindow : startTime < endTime) (h : endTime ≤ time) :
    rampPrice startPrice endPrice startTime endTime time = endPrice ↔
      startPrice.distance endPrice * (endTime.toNat - startTime.toNat) < Word.size := by
  have hduration : 0 < endTime.toNat - startTime.toNat := Nat.sub_pos_of_lt (UInt64.lt_iff_toNat_lt.mp hwindow)
  have hcovered : covered (startPrice.distance endPrice) (time.toNat - startTime.toNat)
      (endTime.toNat - startTime.toNat) = startPrice.distance endPrice :=
    covered_of_le hduration (Nat.sub_le_sub_right (UInt64.le_iff_toNat_le.mp h) _)
  have hlast : linearPrice startPrice endPrice startTime endTime time = endPrice.toNat := linearPrice_of_le hwindow h
  rw [Word.ext_iff, ← hlast, rampPrice_eq_linearPrice_iff hwindow, hcovered, le_reach_iff hduration]

/-! ## What a ramp means -/

theorem denote_constant (s : Surroundings) (w : Word) : (constant w).denote s = some w := by
  rw [denote]

theorem denote_aggregate_pair (op : Aggregate) {s : Surroundings} {a b : Expr} {x y : Word}
    (ha : a.denote s = some x) (hb : b.denote s = some y) :
    (aggregate op [a, b]).denote s = op.step? (op.start x) y := by
  simp [denote, denoteAll, ha, hb, Aggregate.fold?]

/-- The quotient that a ramp computes is how far it has moved, except that it may pass the difference. -/
theorem exists_denote_quotient (hwindow : startTime < endTime) (s : Surroundings) (delta : Word) :
    ∃ q : Word,
      (aggregate .div [aggregate .saturatingMul
        [aggregate .sub [blockTimestamp, constant (.ofUInt64 startTime)], constant delta],
          constant (.ofUInt64 (endTime - startTime))]).denote s = some q ∧
      min q.toNat delta.toNat = progress delta.toNat startTime endTime s.time := by
  have hlt : startTime.toNat < endTime.toNat := UInt64.lt_iff_toNat_lt.mp hwindow
  have hduration : (Word.ofUInt64 (endTime - startTime)).toNat = endTime.toNat - startTime.toNat :=
    UInt64.toNat_sub_of_le _ _ (UInt64.le_of_lt hwindow)
  have hne : Word.ofUInt64 (endTime - startTime) ≠ 0 := by
    intro hzero
    rw [hzero, Word.toNat_zero] at hduration
    omega
  have htime : blockTimestamp.denote s = some (.ofUInt64 s.time) := by rw [denote]
  have helapsed := denote_aggregate_pair .sub htime (denote_constant s (.ofUInt64 startTime))
  have hproduct := denote_aggregate_pair .saturatingMul helapsed (denote_constant s delta)
  have hquotient := denote_aggregate_pair .div hproduct (denote_constant s (.ofUInt64 (endTime - startTime)))
  have htoNat : (Word.clamp (s.time.toNat - startTime.toNat)).toNat = s.time.toNat - startTime.toNat :=
    Word.toNat_satSub (.ofUInt64 s.time) (.ofUInt64 startTime)
  rw [progress_of_lt hwindow]
  have hpositive : 0 < endTime.toNat - startTime.toNat := Nat.sub_pos_of_lt hlt
  -- the duration of the window and the literal in the script are one number from here on
  generalize endTime.toNat - startTime.toNat = duration at hpositive hduration ⊢
  let product : Word := .clamp ((s.time.toNat - startTime.toNat) * delta.toNat)
  let q : Word := ⟨product.toNat / duration, (Nat.div_le_self _ _).trans_lt product.toNat_lt⟩
  refine ⟨q, ?_, ?_⟩
  · rw [hquotient]
    simp only [Aggregate.start, Aggregate.step?, if_neg hne, hduration]
    refine Word.ofNat?_eq_some_iff.mpr ?_
    simp only [q, product, Word.toNat_ofUInt64, htoNat]
  · have hq : q.toNat = min ((s.time.toNat - startTime.toNat) * delta.toNat / duration) (reach duration) :=
      Monotone.map_min (fun _ _ h => Nat.div_le_div_right h)
    rw [hq, min_right_comm, min_div_eq_covered hpositive]

theorem denote_ramp (s : Surroundings) :
    (ramp startPrice endPrice startTime endTime).denote s =
      some (rampPrice startPrice endPrice startTime endTime s.time) := by
  have hramp := toNat_rampPrice startPrice endPrice startTime endTime s.time
  unfold ramp
  by_cases hwindow : endTime ≤ startTime
  · -- a window without duration is compiled to a switch
    have hholds : Comparator.gte.holds (.ofUInt64 s.time) (.ofUInt64 endTime) = decide (endTime ≤ s.time) :=
      decide_eq_decide.mpr (ofUInt64_le_iff _ _)
    simp only [if_pos hwindow, denote, hholds]
    rw [progress, if_pos hwindow] at hramp
    refine congrArg some (Word.ext ?_)
    by_cases htime : endTime ≤ s.time
    · rw [hramp, decide_eq_true htime, if_pos htime, Word.towards_distance]
      rfl
    · rw [hramp, decide_eq_false htime, if_neg htime, Word.towards_zero]
      rfl
  · have hwindow' : startTime < endTime := UInt64.not_le.mp hwindow
    rw [if_neg hwindow]
    by_cases hprice : startPrice ≤ endPrice
    · obtain ⟨q, hq, hprogress⟩ := exists_denote_quotient hwindow' s (endPrice.satSub startPrice)
      have hsum := denote_aggregate_pair .saturatingAdd (denote_constant s startPrice) hq
      have hmin := denote_aggregate_pair .min hsum (denote_constant s endPrice)
      rw [Word.toNat_satSub] at hprogress
      rw [Word.distance_of_le hprice, Word.towards_of_le hprice, ← hprogress] at hramp
      simp only [if_pos hprice, hmin, Aggregate.start, Aggregate.step?]
      refine congrArg some (Word.ext ?_)
      have := endPrice.toNat_lt
      have : startPrice.toNat ≤ endPrice.toNat := hprice
      rw [hramp, Word.toNat_min, Word.toNat_clamp]
      omega
    · obtain ⟨q, hq, hprogress⟩ := exists_denote_quotient hwindow' s (startPrice.satSub endPrice)
      have hdifference := denote_aggregate_pair .sub (denote_constant s startPrice) hq
      have hmax := denote_aggregate_pair .max hdifference (denote_constant s endPrice)
      rw [Word.toNat_satSub] at hprogress
      rw [Word.distance_of_not_le hprice, Word.towards_of_not_le hprice, ← hprogress] at hramp
      simp only [if_neg hprice, hmax, Aggregate.start, Aggregate.step?]
      refine congrArg some (Word.ext ?_)
      have := startPrice.toNat_lt
      have : endPrice.toNat < startPrice.toNat := Nat.lt_of_not_le hprice
      rw [hramp, Word.toNat_max, Word.toNat_clamp]
      omega

end Expr

/-! ## The script of a ramp -/

/-- A script that runs to its end whatever it sees, and leaves a price that depends on the time alone. -/
def Script.Charges (script : Script) (price : UInt64 → Word) : Prop :=
  script.instructionCount Script.entry ≤ defaultMaxSteps ∧
    ∀ (s : Surroundings) (limit : Nat) (m : Machine Unit), script.instructionCount Script.entry ≤ limit →
      ∃ m', (Machine.run script limit s.scene Script.entry).perform m = (.ok (), m') ∧
        m'.stack.toList = [price s.time]

theorem Machine.perform_of_valuesLeft {r : Except Fault Unit × Machine Unit} {ws : List Word}
    (h : valuesLeft r = some ws.reverse) : ∃ m', r = (.ok (), m') ∧ m'.stack.toList = ws := by
  rcases r with ⟨fault | _, m'⟩
  · cases h
  · have htop : m'.stack.topFirst = ws.reverse := Option.some.inj h
    exact ⟨m', rfl, by rw [Stack.toList, htop, List.reverse_reverse]⟩

namespace Expr

/-- A ramp is accepted whatever its window is. -/
theorem exists_charges (startPrice endPrice : Word) (startTime endTime : UInt64) :
    ∃ script, Script.ofExprs [ramp startPrice endPrice startTime endTime] = .ok script ∧
      script.Charges (rampPrice startPrice endPrice startTime endTime) := by
  have hfree : ∀ e ∈ [ramp startPrice endPrice startTime endTime], e.stackFree = true := by
    rw [List.forall_mem_singleton, ramp]
    split_ifs <;> rfl
  obtain ⟨t, hfold, hliterals, hsteps⟩ : ∃ t,
      (fragments [ramp startPrice endPrice startTime endTime]).flatten.foldlM Operation.extend? .empty = some t ∧
      (literals (fragments [ramp startPrice endPrice startTime endTime]).flatten).length ≤ maxConstants ∧
      t.instructions ≤ defaultMaxSteps := by
    unfold ramp
    split_ifs
    all_goals exact ⟨_, rfl, Nat.le_of_ble_eq_true rfl, by decide⟩
  obtain ⟨script, hscript, hanalyze⟩ := exists_ofExprs hfold hliterals
  have hcount := RawScript.instructions_of_analyze hanalyze
  refine ⟨script, hscript, hcount ▸ hsteps, fun s limit m hlimit => ?_⟩
  have hvalues : denoteAll s [ramp startPrice endPrice startTime endTime] =
      some [rampPrice startPrice endPrice startTime endTime s.time] := by
    simp only [denoteAll, denote_ramp, Option.pure_def, Option.bind_eq_bind, Option.bind_some]
  have hleft := Machine.valuesLeft_run hscript hfree s hlimit m
  rw [hvalues] at hleft
  exact Machine.perform_of_valuesLeft hleft

/-- **A ramp stays in its range and moves in one direction.** Every ramp is accepted, whatever its prices are and
however the ends of its window stand to each other, and every run of its script leaves a price. This price lies between
the two prices, and the later one of two times has no price that is farther from the last one. If the window has a
duration, then the price is the first one until it opens. -/
theorem charges_ramp_ordered (startPrice endPrice : Word) (startTime endTime : UInt64) :
    ∃ script, Script.ofExprs [ramp startPrice endPrice startTime endTime] = .ok script ∧
      ∃ price : UInt64 → Word, script.Charges price ∧
        (∀ time, min startPrice.toNat endPrice.toNat ≤ (price time).toNat ∧
          (price time).toNat ≤ max startPrice.toNat endPrice.toNat) ∧
        (∀ time time', time ≤ time' →
          if startPrice ≤ endPrice then price time ≤ price time' else price time' ≤ price time) ∧
        (startTime < endTime → ∀ time ≤ startTime, price time = startPrice) := by
  obtain ⟨script, hscript, hcharges⟩ := exists_charges startPrice endPrice startTime endTime
  refine ⟨script, hscript, _, hcharges, fun time => ?_, fun time time' h => ?_, fun hwindow time h => ?_⟩
  · rw [toNat_rampPrice]
    exact Word.towards_between (progress_le _ _ _ _)
  · split_ifs with hprice
    · rw [Word.le_def, toNat_rampPrice, toNat_rampPrice]
      exact Word.towards_mono hprice (progress_mono _ h)
    · rw [Word.le_def, toNat_rampPrice, toNat_rampPrice]
      exact Word.towards_anti hprice (progress_mono _ h)
  · exact rampPrice_of_le hwindow h

/-- **A ramp is linear as far as the product of time and difference is a word.** Let the window have a duration. Then
every run of the script leaves the first price moved by what is covered of the difference, but by no more than
`reach`; until the window opens this is the first price. It is the linear price at all times exactly if the
difference times the duration is a word, and if it is not, then the last price is not charged at the end either. -/
theorem charges_ramp_linear_iff (startPrice endPrice : Word) (hwindow : startTime < endTime) :
    ∃ script, Script.ofExprs [ramp startPrice endPrice startTime endTime] = .ok script ∧
      ∃ price : UInt64 → Word, script.Charges price ∧
        (∀ time, (price time).toNat = startPrice.towards endPrice
          (min (covered (startPrice.distance endPrice) (time.toNat - startTime.toNat)
              (endTime.toNat - startTime.toNat))
            (reach (endTime.toNat - startTime.toNat)))) ∧
        (∀ time ≤ startTime, price time = startPrice) ∧
        ((∀ time, (price time).toNat = linearPrice startPrice endPrice startTime endTime time) ↔
          startPrice.distance endPrice * (endTime.toNat - startTime.toNat) < Word.size) ∧
        ∀ time ≥ endTime, price time = endPrice ↔
          startPrice.distance endPrice * (endTime.toNat - startTime.toNat) < Word.size := by
  have hduration : 0 < endTime.toNat - startTime.toNat := Nat.sub_pos_of_lt (UInt64.lt_iff_toNat_lt.mp hwindow)
  obtain ⟨script, hscript, hcharges⟩ := exists_charges startPrice endPrice startTime endTime
  refine ⟨script, hscript, _, hcharges, fun time => ?_, fun time h => rampPrice_of_le hwindow h,
    ⟨fun h => ?_, fun h time => ?_⟩, fun time h => rampPrice_eq_endPrice_iff hwindow h⟩
  · rw [toNat_rampPrice, progress_of_lt hwindow]
  · have hend := h endTime
    rw [linearPrice_of_le hwindow (UInt64.le_refl _)] at hend
    exact (rampPrice_eq_endPrice_iff hwindow (UInt64.le_refl _)).mp (Word.ext hend)
  · exact (rampPrice_eq_linearPrice_iff hwindow).mpr
      ((covered_le _ _ _).trans ((le_reach_iff hduration).mpr h))

/-- A ramp from 100 to 500 between the times 1000 and 2000 is linear. -/
theorem charges_ramp_linear_iff_smallRamp :
    (1000 : UInt64) < 2000 ∧
      ∃ script, Script.ofExprs [ramp (.ofUInt64 100) (.ofUInt64 500) 1000 2000] = .ok script ∧
        ∃ price : UInt64 → Word, script.Charges price ∧
          (∀ time, (price time).toNat = linearPrice (.ofUInt64 100) (.ofUInt64 500) 1000 2000 time) ∧
          (price 1500).toNat = 300 ∧ ∀ time ≥ 2000, price time = .ofUInt64 500 := by
  have hwindow : (1000 : UInt64) < 2000 := by decide
  obtain ⟨script, hscript, price, hcharges, -, -, hlinear, hend⟩ :=
    charges_ramp_linear_iff (.ofUInt64 100) (.ofUInt64 500) hwindow
  have hproduct : (Word.ofUInt64 100).distance (.ofUInt64 500) * ((2000 : UInt64).toNat - (1000 : UInt64).toNat) <
      Word.size := by decide
  have hprice := hlinear.mpr hproduct
  exact ⟨hwindow, script, hscript, price, hcharges, hprice, (hprice 1500).trans (by decide),
    fun time h => (hend time h).mpr hproduct⟩

/-- A ramp over the whole range of prices, in two units of time, comes only half the way. -/
theorem steepRamp_stops_short :
    ∃ script, Script.ofExprs [ramp 0 .greatest 0 2] = .ok script ∧
      ∃ price : UInt64 → Word, script.Charges price ∧
        (price 2).toNat = (Word.size - 1) / 2 ∧
        linearPrice 0 .greatest 0 2 2 = Word.size - 1 ∧
        ∀ time ≥ 2, price time ≠ .greatest := by
  obtain ⟨script, hscript, hcharges⟩ := exists_charges 0 .greatest 0 2
  have hproduct : ¬ (0 : Word).distance .greatest * ((2 : UInt64).toNat - (0 : UInt64).toNat) < Word.size := by decide
  exact ⟨script, hscript, _, hcharges, by decide, by decide, fun time h hend =>
    hproduct ((rampPrice_eq_endPrice_iff (by decide) h).mp hend)⟩

end Expr

end TokenSale
