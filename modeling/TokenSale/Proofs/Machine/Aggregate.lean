import Mathlib.Algebra.BigOperators.Ring.List
import Mathlib.Algebra.Order.Ring.Nat
import Mathlib.Data.List.TakeWhile
import TokenSale.Proofs.Machine.Instruction

/-!
# Aggregates in closed form

An aggregate folds its values one by one and checks, clamps or rounds down at every step. For most of them this comes to
one formula on the exact numbers: a sum or a product that is clamped at the end is the one that is clamped on the way, and
a quotient of quotients is the quotient by the product. The exception is `mul`, which gives up at the first product that is
no word, and does so even if a factor zero would have come after it.

* `Aggregation.ends_of_eval`: an aggregate leaves what lies below its values alone.
* `Aggregation.closed_forms`: the formulas.
* `Aggregation.ends_mul`: a product of words stops at the first zero.
-/

namespace TokenSale

namespace Word

/-- The exact sum of words. -/
def total (ws : List Word) : Nat := (ws.map Word.toNat).sum

/-- The exact product of words. -/
def product (ws : List Word) : Nat := (ws.map Word.toNat).prod

@[simp] theorem total_nil : total [] = 0 := rfl

@[simp] theorem total_cons (w : Word) (ws : List Word) : total (w :: ws) = w.toNat + total ws := by
  rw [total, List.map_cons, List.sum_cons, total]

@[simp] theorem product_nil : product [] = 1 := rfl

@[simp] theorem product_cons (w : Word) (ws : List Word) : product (w :: ws) = w.toNat * product ws := by
  rw [product, List.map_cons, List.prod_cons, product]

theorem toNat_pos {w : Word} (h : w ≠ 0) : 0 < w.toNat :=
  Nat.pos_of_ne_zero fun hzero => h (Word.ext hzero)

theorem product_eq_zero_iff {ws : List Word} : product ws = 0 ↔ 0 ∈ ws := by
  rw [product, List.prod_eq_zero_iff, List.mem_map]
  constructor
  · rintro ⟨w, hw, hzero⟩
    rwa [show w = 0 from Word.ext hzero] at hw
  · intro h
    exact ⟨0, h, rfl⟩

theorem product_pos {ws : List Word} (h : 0 ∉ ws) : 0 < product ws :=
  Nat.pos_of_ne_zero (mt product_eq_zero_iff.mp h)

theorem product_takeWhile_pos (ws : List Word) : 0 < product (ws.takeWhile (· ≠ 0)) :=
  product_pos fun hzero => by simpa using List.mem_takeWhile_imp hzero

theorem product_append (ws rest : List Word) : product (ws ++ rest) = product ws * product rest := by
  rw [product, List.map_append, List.prod_append, product, product]

theorem product_perm {ws ws' : List Word} (h : ws.Perm ws') : product ws = product ws' := (h.map toNat).prod_eq

/-- What follows the first zero can only raise the product of the other words. -/
theorem product_takeWhile_le (ws : List Word) :
    product (ws.takeWhile (· ≠ 0)) ≤ product (ws.filter (· ≠ 0)) := by
  have hfilter : ws.filter (· ≠ 0) =
      ws.takeWhile (· ≠ 0) ++ (ws.dropWhile (· ≠ 0)).filter (· ≠ 0) := by
    conv_lhs => rw [← List.takeWhile_append_dropWhile (p := (· ≠ 0)) (l := ws), List.filter_append]
    rw [List.filter_eq_self.mpr fun _ => List.mem_takeWhile_imp]
  rw [hfilter, product_append]
  exact Nat.le_mul_of_pos_right _ (product_pos fun hzero => by simp at hzero)

theorem product_le_takeWhile_append {front : List Word} (h : 0 ∉ front) (rest : List Word) :
    product front ≤ product ((front ++ rest).takeWhile (· ≠ 0)) := by
  rw [List.takeWhile_append_of_pos fun w hw => by simpa using ne_of_mem_of_not_mem hw h, product_append]
  exact Nat.le_mul_of_pos_right _ (product_takeWhile_pos rest)

theorem product_le_filter (ws : List Word) : product ws ≤ product (ws.filter (· ≠ 0)) := by
  by_cases hzero : 0 ∈ ws
  · rw [product_eq_zero_iff.mpr hzero]
    exact Nat.zero_le _
  · rw [List.filter_eq_self.mpr fun w hw => by simpa using ne_of_mem_of_not_mem hw hzero]

/-! ## Folds that always have a value -/

theorem toNat_foldl_satAdd (rest : List Word) (first : Word) :
    (rest.foldl satAdd first).toNat = min (first.toNat + total rest) (Word.size - 1) := by
  induction rest generalizing first with
  | nil =>
    have := first.toNat_lt
    rw [List.foldl_nil, total_nil]
    omega
  | cons w rest ih =>
    rw [List.foldl_cons, ih, toNat_satAdd, total_cons]
    omega

theorem toNat_foldl_satSub (rest : List Word) (first : Word) :
    (rest.foldl satSub first).toNat = first.toNat - total rest := by
  induction rest generalizing first with
  | nil => rfl
  | cons w rest ih =>
    rw [List.foldl_cons, ih, toNat_satSub, total_cons]
    omega

/-- A product may be clamped before it is multiplied on: by zero it comes to zero, and otherwise it stays too great. -/
theorem min_mul_min (n k bound : Nat) : min (min n bound * k) bound = min (n * k) bound := by
  rcases Nat.eq_zero_or_pos k with rfl | hk
  · rw [Nat.mul_zero, Nat.mul_zero]
  · rcases Nat.le_total n bound with hn | hn
    · rw [Nat.min_eq_left hn]
    · have hclamped : bound ≤ bound * k := Nat.le_mul_of_pos_right bound hk
      have hexact : bound ≤ n * k := hclamped.trans (Nat.mul_le_mul_right k hn)
      rw [Nat.min_eq_right hn, Nat.min_eq_right hclamped, Nat.min_eq_right hexact]

theorem toNat_foldl_satMul (rest : List Word) (first : Word) :
    (rest.foldl satMul first).toNat = min (first.toNat * product rest) (Word.size - 1) := by
  induction rest generalizing first with
  | nil =>
    have := first.toNat_lt
    rw [List.foldl_nil, product_nil]
    omega
  | cons w rest ih =>
    rw [List.foldl_cons, ih, toNat_satMul, min_mul_min, product_cons, Nat.mul_assoc]

/-- What is chosen again and again, by an order that the choice respects, is a member that stands before all members. -/
theorem foldl_choice {f : Word → Word → Word} {r : Word → Word → Prop} (hrefl : ∀ a, r a a)
    (htrans : ∀ {a b c}, r a b → r b c → r a c)
    (hf : ∀ a b, (f a b = a ∨ f a b = b) ∧ r (f a b) a ∧ r (f a b) b) (rest : List Word) (first : Word) :
    rest.foldl f first ∈ first :: rest ∧ ∀ v ∈ first :: rest, r (rest.foldl f first) v := by
  induction rest generalizing first with
  | nil =>
    refine ⟨List.mem_cons_self, fun v hv => ?_⟩
    rw [List.mem_singleton.mp hv]
    exact hrefl first
  | cons w rest ih =>
    obtain ⟨hmem, hbest⟩ := ih (f first w)
    obtain ⟨hchoice, hfirst, hw⟩ := hf first w
    have hstep := hbest (f first w) List.mem_cons_self
    constructor
    · rcases List.mem_cons.mp hmem with heq | hrest
      · rw [List.foldl_cons, heq]
        rcases hchoice with h | h
        · rw [h]
          exact List.mem_cons_self
        · rw [h]
          exact List.mem_cons_of_mem first List.mem_cons_self
      · exact List.mem_cons_of_mem first (List.mem_cons_of_mem w hrest)
    · intro v hv
      rcases List.mem_cons.mp hv with rfl | hv
      · exact htrans hstep hfirst
      · rcases List.mem_cons.mp hv with rfl | hv
        · exact htrans hstep hw
        · exact hbest v (List.mem_cons_of_mem _ hv)

theorem foldl_min (rest : List Word) (first : Word) :
    rest.foldl min first ∈ first :: rest ∧ ∀ v ∈ first :: rest, rest.foldl min first ≤ v := by
  refine foldl_choice (r := (· ≤ ·)) (fun a => Nat.le_refl a.toNat) (fun h h' => Nat.le_trans h h') ?_ rest first
  intro a b
  simp only [le_def, Word.ext_iff, toNat_min]
  omega

theorem foldl_max (rest : List Word) (first : Word) :
    rest.foldl max first ∈ first :: rest ∧ ∀ v ∈ first :: rest, v ≤ rest.foldl max first := by
  refine foldl_choice (r := fun a b => b ≤ a) (fun a => Nat.le_refl a.toNat) (fun h h' => Nat.le_trans h' h) ?_ rest
    first
  intro a b
  simp only [le_def, Word.ext_iff, toNat_max]
  omega

end Word

namespace Aggregate

open Word (total product total_cons product_nil product_cons product_takeWhile_pos toNat_pos)

/-! ## Folds that may have none -/

theorem map_foldlM_add (rest : List Word) (first : Word) :
    (rest.foldlM (fun a b => orMishap .overflow (a.add? b)) first).map Word.toNat =
      if first.toNat + total rest < Word.size then .ok (first.toNat + total rest) else .error .overflow := by
  induction rest generalizing first with
  | nil => exact (if_pos first.toNat_lt).symm
  | cons w rest ih =>
    rw [List.foldlM_cons, total_cons, ← Nat.add_assoc]
    cases hsum : first.add? w with
    | none =>
      have hle := Word.ofNat?_eq_none_iff.mp hsum
      rw [if_neg (by omega)]
      rfl
    | some sum =>
      rw [← Word.ofNat?_eq_some_iff.mp hsum]
      exact ih sum

theorem map_foldlM_div (rest : List Word) (first : Word) :
    (rest.foldlM (fun a b => orMishap .zeroDivisor (a.div? b)) first).map Word.toNat =
      if 0 ∈ rest then .error .zeroDivisor else .ok (first.toNat / product rest) := by
  induction rest generalizing first with
  | nil => exact congrArg Except.ok (Nat.div_one _).symm
  | cons w rest ih =>
    rw [List.foldlM_cons, product_cons, ← Nat.div_div_eq_div_mul]
    by_cases hw : w = 0
    · have hnone : first.div? w = none := Word.div?_eq_none_iff.mpr hw
      rw [hnone, if_pos (hw ▸ List.mem_cons_self)]
      rfl
    · have hmem : 0 ∈ w :: rest ↔ 0 ∈ rest := by
        rw [List.mem_cons, or_iff_right (Ne.symm hw)]
      obtain ⟨q, hq⟩ := Option.ne_none_iff_exists'.mp (mt Word.div?_eq_none_iff.mp hw : first.div? w ≠ none)
      have hdiv := hq
      rw [Word.div?, if_neg hw, Word.ofNat?_eq_some_iff] at hdiv
      simp only [hq, hmem, ← hdiv]
      exact ih q

theorem foldlM_mul_zero (rest : List Word) :
    rest.foldlM (fun a b => orMishap .overflow (a.mul? b)) 0 = .ok 0 := by
  induction rest with
  | nil => rfl
  | cons w rest ih =>
    have hzero : (0 : Word).mul? w = some 0 := Word.ofNat?_eq_some_iff.mpr (Nat.zero_mul w.toNat).symm
    rw [List.foldlM_cons, hzero]
    exact ih

-- Up to the first zero the products only grow, and from there on they are zero.
theorem map_foldlM_mul (rest : List Word) {first : Word} (hfirst : first ≠ 0) :
    (rest.foldlM (fun a b => orMishap .overflow (a.mul? b)) first).map Word.toNat =
      if first.toNat * product (rest.takeWhile (· ≠ 0)) < Word.size then .ok (first.toNat * product rest)
      else .error .overflow := by
  induction rest generalizing first with
  | nil =>
    rw [List.takeWhile_nil, product_nil, Nat.mul_one, if_pos first.toNat_lt]
    rfl
  | cons w rest ih =>
    rw [List.foldlM_cons]
    by_cases hw : w = 0
    · subst hw
      have hzero : first.mul? 0 = some 0 := Word.ofNat?_eq_some_iff.mpr (Nat.mul_zero first.toNat).symm
      rw [List.takeWhile_cons_of_neg (by simp), product_nil, Nat.mul_one, if_pos first.toNat_lt, product_cons,
        Word.toNat_zero, Nat.zero_mul, Nat.mul_zero, hzero]
      exact congrArg (Except.map Word.toNat) (foldlM_mul_zero rest)
    · rw [List.takeWhile_cons_of_pos (by simpa using hw), product_cons, product_cons, ← Nat.mul_assoc,
        ← Nat.mul_assoc]
      cases hproduct : first.mul? w with
      | none =>
        have hle := Word.ofNat?_eq_none_iff.mp hproduct
        -- No later zero can save the product: the factors before it are positive.
        have hgreat := hle.trans (Nat.le_mul_of_pos_right _ (product_takeWhile_pos rest))
        rw [if_neg (Nat.not_lt.mpr hgreat)]
        rfl
      | some v =>
        have hv := Word.ofNat?_eq_some_iff.mp hproduct
        have hne : v ≠ 0 := by
          rintro rfl
          exact (Nat.mul_pos (toNat_pos hfirst) (toNat_pos hw)).ne hv
        rw [← hv]
        exact ih hne

/-- A product is computed up to the first zero. -/
theorem map_eval_mul {values : List Word} (hne : values ≠ []) :
    (eval .mul values).map Word.toNat =
      if product (values.takeWhile (· ≠ 0)) < Word.size then .ok (product values) else .error .overflow := by
  obtain ⟨first, rest, rfl⟩ := List.exists_cons_of_ne_nil hne
  by_cases hfirst : first = 0
  · subst hfirst
    rw [List.takeWhile_cons_of_neg (by simp), product_nil, if_pos (by decide), product_cons, Word.toNat_zero,
      Nat.zero_mul]
    exact congrArg (Except.map Word.toNat) (foldlM_mul_zero rest)
  · rw [List.takeWhile_cons_of_pos (by simpa using hfirst), product_cons, product_cons]
    exact map_foldlM_mul rest hfirst

end Aggregate

namespace Machine

variable {σ : Type}

/-! ## Executing an aggregate -/

/-- A machine that is about to execute an aggregate. -/
structure Aggregation (σ : Type) where
  scene : Scene σ
  constants : List Word
  /-- How many values the aggregate is to take. -/
  operand : UInt8
  offset : Nat
  machine : Machine σ
  /-- What lies on the stack below the values. -/
  base : Stack

namespace Aggregation

/-- The values lie above the base, and there are as many as the operand says. -/
structure Takes (a : Aggregation σ) (values : List Word) : Prop where
  toList_stack : a.machine.stack.toList = a.base.toList ++ values
  length_eq : values.length = a.operand.toNat

def perform (a : Aggregation σ) (op : Aggregate) : Except Fault Unit × Machine σ :=
  (exec a.scene a.constants (.aggregate op) a.operand a.offset).perform a.machine

/-- How an aggregate ends: with a number on top of the base, or with a mishap. Nothing else changes. -/
def Ends (a : Aggregation σ) (op : Aggregate) : Except Mishap Nat → Prop
  | .ok n => ∃ (w : Word) (s : Stack), w.toNat = n ∧ s.toList = a.base.toList ++ [w] ∧
      a.perform op = (.ok (), a.machine.withStack s)
  | .error mishap =>
      a.perform op = (.error (.ofMishap ⟨(Instruction.aggregate op).mnemonic, a.offset⟩ mishap),
        a.machine.withStack a.base)

variable {a : Aggregation σ} {values : List Word} {op : Aggregate} {outcome : Except Mishap Nat}

theorem Takes.topFirst_eq (h : a.Takes values) :
    a.machine.stack.topFirst = values.reverse ++ a.base.topFirst := by
  have hreverse := congrArg List.reverse h.toList_stack
  rw [List.reverse_append, Stack.toList, Stack.toList, List.reverse_reverse, List.reverse_reverse] at hreverse
  exact hreverse

theorem ends_of_eval (h : a.Takes values) (hne : values ≠ []) (heval : (op.eval values).map Word.toNat = outcome) :
    a.Ends op outcome := by
  have hstack := h.topFirst_eq
  have hlegal : LegalOperand (.aggregate op) a.operand := by
    refine ⟨fun hzero => hne (List.eq_nil_of_length_eq_zero ?_), nofun⟩
    rw [h.length_eq, hzero.2]
    rfl
  -- The result takes the place of a value, so it finds room.
  have hroom : a.base.depth < Stack.limit := by
    have hle := a.machine.stack.length_le
    have hpos := List.length_pos_iff.mpr hne
    rw [hstack, List.length_append, List.length_reverse] at hle
    unfold Stack.depth
    omega
  have hexec : a.perform op = _ := perform_exec hlegal h.length_eq hstack a.offset
  simp only [Machine.outcome, settle_quiet] at hexec
  subst heval
  cases hvalue : op.eval values with
  | ok w =>
    rw [hvalue] at hexec
    refine ⟨w, ⟨w :: a.base.topFirst, hroom⟩, rfl, List.reverse_cons, hexec.trans ?_⟩
    exact perform_push (m := a.machine.withStack a.base) hroom _ w
  | error mishap =>
    rw [hvalue] at hexec
    exact hexec

theorem ofMishap_inj {site : Site} {mishap mishap' : Mishap}
    (h : Fault.ofMishap site mishap = Fault.ofMishap site mishap') : mishap = mishap' := by
  cases mishap with
  | overflow =>
    cases mishap' with
    | overflow => rfl
    | zeroDivisor => cases h
  | zeroDivisor =>
    cases mishap' with
    | overflow => cases h
    | zeroDivisor => rfl

/-- An aggregate ends in one way. -/
theorem Ends.unique {outcome' : Except Mishap Nat} (h : a.Ends op outcome) (h' : a.Ends op outcome') :
    outcome = outcome' := by
  cases outcome with
  | ok n =>
    obtain ⟨w, s, rfl, hs, hperform⟩ := h
    cases outcome' with
    | ok n' =>
      obtain ⟨w', s', rfl, hs', hperform'⟩ := h'
      have hstack : s = s' := congrArg (fun r => r.2.stack) (hperform.symm.trans hperform')
      rw [hstack, hs'] at hs
      rw [List.singleton_inj.mp (List.append_cancel_left hs)]
    | error mishap => cases congrArg Prod.fst (hperform.symm.trans h')
  | error mishap =>
    cases outcome' with
    | ok n' =>
      obtain ⟨w', s', -, -, hperform'⟩ := h'
      cases congrArg Prod.fst (h.symm.trans hperform')
    | error mishap' =>
      have hfault := congrArg Prod.fst (h.symm.trans h')
      rw [ofMishap_inj (Except.error.inj hfault)]

/-! ## The formulas -/

theorem toNat_ofBool (b : Bool) : (Word.ofBool b).toNat = if b then 1 else 0 := by
  cases b <;> rfl

/-- **An aggregate comes to one formula on the exact numbers.** On any stack with values above a base, an aggregate leaves
the base as it is and puts one number on it, or fails. `add` gives the sum and fails exactly if that is no word, and the
saturating aggregates give the nearest word to the sum and to the product. `sub` takes all later values from the first and
stops at zero. `div` gives the quotient by the product of the later values, rounded down once, and fails exactly if one
of them is zero. `min` and `max` give the least and the greatest value, and `every` and `any` say by one or zero whether
all values, or some, are not zero. -/
theorem closed_forms {first : Word} {rest : List Word} (h : a.Takes (first :: rest)) :
    a.Ends .add (if Word.total (first :: rest) < Word.size then .ok (Word.total (first :: rest))
        else .error .overflow) ∧
      a.Ends .saturatingAdd (.ok (min (Word.total (first :: rest)) (Word.size - 1))) ∧
      a.Ends .saturatingMul (.ok (min (Word.product (first :: rest)) (Word.size - 1))) ∧
      a.Ends .sub (.ok (first.toNat - Word.total rest)) ∧
      a.Ends .div (if 0 ∈ rest then .error .zeroDivisor else .ok (first.toNat / Word.product rest)) ∧
      (∃ least ∈ first :: rest, (∀ v ∈ first :: rest, least ≤ v) ∧ a.Ends .min (.ok least.toNat)) ∧
      (∃ greatest ∈ first :: rest, (∀ v ∈ first :: rest, v ≤ greatest) ∧ a.Ends .max (.ok greatest.toNat)) ∧
      a.Ends .every (.ok (if ∀ v ∈ first :: rest, v ≠ 0 then 1 else 0)) ∧
      a.Ends .any (.ok (if ∃ v ∈ first :: rest, v ≠ 0 then 1 else 0)) := by
  have ends {op : Aggregate} {outcome : Except Mishap Nat}
      (heval : (op.eval (first :: rest)).map Word.toNat = outcome) : a.Ends op outcome :=
    ends_of_eval h (List.cons_ne_nil first rest) heval
  have hmin := Word.foldl_min rest first
  have hmax := Word.foldl_max rest first
  refine ⟨?add, ?saturatingAdd, ?saturatingMul, ?sub, ?div, ⟨_, hmin.1, hmin.2, ?min⟩, ⟨_, hmax.1, hmax.2, ?max⟩,
    ?every, ?any⟩
  case add =>
    rw [Word.total_cons]
    exact ends (Aggregate.map_foldlM_add rest first)
  case saturatingAdd =>
    rw [Word.total_cons, ← Word.toNat_foldl_satAdd]
    exact ends (congrArg (Except.map Word.toNat) List.foldlM_pure)
  case saturatingMul =>
    rw [Word.product_cons, ← Word.toNat_foldl_satMul]
    exact ends (congrArg (Except.map Word.toNat) List.foldlM_pure)
  case sub =>
    rw [← Word.toNat_foldl_satSub]
    exact ends (congrArg (Except.map Word.toNat) List.foldlM_pure)
  case div => exact ends (Aggregate.map_foldlM_div rest first)
  case min => exact ends (congrArg (Except.map Word.toNat) List.foldlM_pure)
  case max => exact ends (congrArg (Except.map Word.toNat) List.foldlM_pure)
  case every =>
    refine ends (congrArg Except.ok ((toNat_ofBool _).trans ?_))
    simp only [List.all_eq_true, decide_eq_true_eq]
  case any =>
    refine ends (congrArg Except.ok ((toNat_ofBool _).trans ?_))
    simp only [List.any_eq_true, decide_eq_true_eq]

/-- Values above a base, in front of an aggregate that takes them all. -/
def ofValues (base values : List Word) (hle : (base ++ values).length ≤ Stack.limit) : Aggregation Unit where
  scene := ⟨Counters.zero.storage, .none, 0, []⟩
  constants := []
  operand := UInt8.ofNat values.length
  offset := 0
  machine := (idle ()).withStack ⟨(base ++ values).reverse, List.length_reverse.trans_le hle⟩
  base := ⟨base.reverse, by
    rw [List.length_append] at hle
    rw [List.length_reverse]
    exact Nat.le_of_add_right_le hle⟩

theorem takes_ofValues {base values : List Word} (hle : (base ++ values).length ≤ Stack.limit)
    (hcount : values.length < UInt8.size) : (ofValues base values hle).Takes values where
  toList_stack := by
    show (base ++ values).reverse.reverse = base.reverse.reverse ++ values
    rw [List.reverse_reverse, List.reverse_reverse]
  length_eq := (UInt8.toNat_ofNat_of_lt hcount).symm

/-- The values 2, 3 and 0, with the greatest word among them. -/
def mixedValues : List Word := [.ofUInt64 2, .greatest, .ofUInt64 3, 0]

/-- Above 7 the mixed values have no sum, but their clamped product is 0. -/
theorem closed_forms_mixedValues :
    let a := ofValues [.ofUInt64 7] mixedValues (by decide)
    a.Takes mixedValues ∧
      a.Ends .add (.error .overflow) ∧
      a.Ends .saturatingAdd (.ok (Word.size - 1)) ∧
      a.Ends .saturatingMul (.ok 0) ∧
      a.Ends .sub (.ok 0) ∧
      a.Ends .div (.error .zeroDivisor) ∧
      a.Ends .every (.ok 0) ∧
      a.Ends .any (.ok 1) := by
  intro a
  have h : a.Takes mixedValues := takes_ofValues _ (by decide)
  obtain ⟨hadd, hsatAdd, hsatMul, hsub, hdiv, -, -, hevery, hany⟩ := closed_forms h
  exact ⟨h, hadd, hsatAdd, hsatMul, hsub, hdiv, hevery, hany⟩

/-! ## The order of factors -/

/-- The same machine with other values, as many, in place of its own. -/
theorem exists_takes (h : a.Takes values) {values' : List Word} (hlen : values'.length = values.length) :
    ∃ b : Aggregation σ, b.Takes values' := by
  have hle : (values'.reverse ++ a.base.topFirst).length ≤ Stack.limit := by
    have hlimit := a.machine.stack.length_le
    rw [h.topFirst_eq, List.length_append, List.length_reverse] at hlimit
    rwa [List.length_append, List.length_reverse, hlen]
  refine ⟨{ a with machine := a.machine.withStack ⟨_, hle⟩ }, ?_, hlen.trans h.length_eq⟩
  show (values'.reverse ++ a.base.topFirst).reverse = a.base.topFirst.reverse ++ values'
  rw [List.reverse_append, List.reverse_reverse]

theorem ends_mul_of_takes (h : a.Takes values) (hne : values ≠ []) :
    a.Ends .mul (if Word.product (values.takeWhile (· ≠ 0)) < Word.size then .ok (Word.product values)
      else .error .overflow) :=
  ends_of_eval h hne (Aggregate.map_eval_mul hne)

/-- Factors for which `mul` gives their product, or gives up over it, in every order. -/
theorem ends_mul_of_perm (hsafe : 0 ∉ values ∨ Word.product (values.filter (· ≠ 0)) < Word.size)
    {values' : List Word} (hperm : values'.Perm values) (h : a.Takes values') (hne : values' ≠ []) :
    a.Ends .mul (if Word.product values < Word.size then .ok (Word.product values) else .error .overflow) := by
  have hends := ends_mul_of_takes h hne
  rw [Word.product_perm hperm] at hends
  rcases hsafe with hzero | hsmall
  · have hall : values'.takeWhile (· ≠ 0) = values' := by
      refine List.takeWhile_eq_self_iff.mpr fun v hv => ?_
      simpa using ne_of_mem_of_not_mem (hperm.mem_iff.mp hv) hzero
    rwa [hall, Word.product_perm hperm] at hends
  · have htake := Word.product_takeWhile_le values'
    rw [Word.product_perm (hperm.filter _)] at htake
    rw [if_pos (htake.trans_lt hsmall)] at hends
    rwa [if_pos ((Word.product_le_filter values).trans_lt hsmall)]

/-- **A product stops at the first zero.** On any stack with values above a base, `mul` puts their exact product on the
base, or it overflows; it overflows exactly if the product of the values before the first zero, which is the product of
all of them if none is zero, is no word. All orders of the values end alike exactly if none of them is zero or the
product of those that are not is a word. -/
theorem ends_mul (h : a.Takes values) (hne : values ≠ []) :
    a.Ends .mul (if Word.product (values.takeWhile (· ≠ 0)) < Word.size then .ok (Word.product values)
        else .error .overflow) ∧
      ((∃ outcome, ∀ (b : Aggregation σ) (values' : List Word), values'.Perm values → b.Takes values' →
          b.Ends .mul outcome) ↔
        0 ∉ values ∨ Word.product (values.filter (· ≠ 0)) < Word.size) := by
  refine ⟨ends_mul_of_takes h hne, ?_, ?_⟩
  · rintro ⟨outcome, hends⟩
    by_contra hunsafe
    obtain ⟨hzero, hgreat⟩ := not_or.mp hunsafe
    -- With a zero in front the product is zero; with the other values in front it overflows before any zero.
    have hfront : (0 :: values.erase 0).Perm values := (List.perm_cons_erase (not_not.mp hzero)).symm
    obtain ⟨b, hb⟩ := exists_takes h hfront.length_eq
    have hok := ends_mul_of_takes hb (List.cons_ne_nil _ _)
    rw [List.takeWhile_cons_of_neg (by simp), Word.product_nil, if_pos (by decide)] at hok
    have hback := List.filter_append_perm (fun v => decide (v ≠ 0)) values
    obtain ⟨c, hc⟩ := exists_takes h hback.length_eq
    have hover : ¬ Word.product ((values.filter (· ≠ 0) ++ values.filter fun v => !decide (v ≠ 0)).takeWhile
        (· ≠ 0)) < Word.size := fun hlt =>
      hgreat ((Word.product_le_takeWhile_append (by simp) _).trans_lt hlt)
    have herror := ends_mul_of_takes hc fun hnil => hne (hnil ▸ hback).symm.eq_nil
    rw [if_neg hover] at herror
    have heq := (hends b _ hfront hb).unique hok
    rw [heq] at hends
    cases (hends c _ hback hc).unique herror
  · intro hsafe
    refine ⟨_, fun b values' hperm hb => ends_mul_of_perm hsafe hperm hb ?_⟩
    rintro rfl
    exact hne hperm.symm.eq_nil

/-- Three factors whose product is a word. -/
def wordFactors : List Word := [.ofUInt64 3, .clamp (Word.size / 4), 1]

theorem ends_mul_wordFactors :
    let a := ofValues [] wordFactors (by decide)
    a.Takes wordFactors ∧ wordFactors ≠ [] ∧ a.Ends .mul (.ok (3 * (Word.size / 4))) ∧
      ∃ outcome, ∀ (b : Aggregation Unit) (values' : List Word), values'.Perm wordFactors → b.Takes values' →
        b.Ends .mul outcome := by
  intro a
  have h : a.Takes wordFactors := takes_ofValues _ (by decide)
  have hne : wordFactors ≠ [] := List.cons_ne_nil _ _
  obtain ⟨hends, horder⟩ := ends_mul h hne
  exact ⟨h, hne, hends, horder.mpr (.inl (by decide))⟩

/-- Three factors whose product is zero, as only the last of them tells. -/
def lateZero : List Word := [.clamp (Word.size / 2), .ofUInt64 2, 0]

/-- A product of zero overflows, and is zero in the reverse order. -/
theorem mul_lateZero_overflows :
    let a := ofValues [] lateZero (by decide)
    let b := ofValues [] lateZero.reverse (by decide)
    a.Takes lateZero ∧ Word.product lateZero = 0 ∧ a.Ends .mul (.error .overflow) ∧ ¬ a.Ends .mul (.ok 0) ∧
      b.Takes lateZero.reverse ∧ b.Ends .mul (.ok 0) := by
  intro a b
  have ha : a.Takes lateZero := takes_ofValues _ (by decide)
  have hb : b.Takes lateZero.reverse := takes_ofValues _ (by decide)
  have herror : a.Ends .mul (.error .overflow) := ends_of_eval ha (by decide) (by decide)
  have hok : b.Ends .mul (.ok 0) := ends_of_eval hb (by decide) (by decide)
  refine ⟨ha, by decide, herror, fun h => ?_, hb, hok⟩
  cases herror.unique h

end Aggregation

end Machine

end TokenSale
