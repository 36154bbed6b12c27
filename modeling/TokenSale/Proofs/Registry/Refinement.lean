import TokenSale.Proofs.Registry.Operations
import TokenSale.Proofs.Registry.Roll

/-!
# The registry is the roll

The registry keeps one owner a batch and counts what it holds as it goes. `Registry.Represents` says that it
nevertheless stands for a roll, which keeps an owner for every id. Minting and burning keep this
(`represents_addBatch`, `represents_removeToken`), so that from the empty registry on all calls are answered and all
questions decided as by the roll: `answerAll_empty`.
-/

namespace TokenSale.Registry

/-! ## Ids and batches -/

theorem contains_iff {r : Registry} {id : UInt64} :
    r.contains id = true ↔
      1 ≤ id.toNat ∧ id.toNat ≤ r.totalMinted.toNat ∧ id ∉ r.burnedIds := by
  simp only [contains, Bool.and_eq_true, decide_eq_true_eq, Bool.not_eq_true', List.contains_eq_mem,
    decide_eq_false_iff_not, and_assoc]
  by_cases hfirst : firstId ≤ id
  · have hle : 1 ≤ id.toNat := UInt64.le_iff_toNat_le.mp hfirst
    have hsub : (id - firstId).toNat = id.toNat - 1 := UInt64.toNat_sub_of_le _ _ hfirst
    rw [UInt64.lt_iff_toNat_lt, hsub]
    constructor
    · rintro ⟨-, hlt, hburned⟩
      exact ⟨hle, by omega, hburned⟩
    · rintro ⟨-, hlt, hburned⟩
      exact ⟨hfirst, by omega, hburned⟩
  · have hlt : ¬ 1 ≤ id.toNat := fun hle => hfirst (UInt64.le_iff_toNat_le.mpr hle)
    exact iff_of_false (fun h => hfirst h.1) fun h => hlt h.1

theorem batchOwner?_addBatch (r : Registry) (account : Address) (quantity id : UInt64) :
    (r.addBatch account quantity).batchOwner? id =
      if 0 < quantity ∧ firstId + r.totalMinted ≤ id then some account else r.batchOwner? id := by
  rw [batchOwner?, addBatch]
  by_cases hquantity : 0 < quantity
  · simp only [hquantity, if_true, true_and, List.find?_cons]
    by_cases hid : firstId + r.totalMinted ≤ id
    · simp only [hid, decide_true, if_true, Option.map_some]
    · simp only [hid, decide_false, if_false]
      rfl
  · simp only [hquantity, false_and, if_false]
    rfl

/-- A registry that stands for a roll. -/
structure Represents (a : Roll) (r : Registry) : Prop where
  issued : r.totalMinted.toNat = a.issued
  /-- There is an id after the last one issued. -/
  issued_lt : 1 + a.issued < UInt64.size
  /-- The batches cover all ids issued. -/
  batch : ∀ id : UInt64, 1 ≤ id.toNat → id.toNat ≤ a.issued → (r.batchOwner? id).isSome
  owner : ∀ id : UInt64, a.owner id.toNat = if r.contains id then r.batchOwner? id else none
  burned_le : ∀ id ∈ r.burnedIds, id.toNat ≤ a.issued
  balance : ∀ account, (r.balance account).toNat = a.balance account
  numberMinted : ∀ account, (r.numberMinted account).toNat = a.received account
  received_le : ∀ account, a.received account ≤ a.issued
  supply : a.totalSupply + r.burned.toNat = a.issued

theorem represents_empty : Represents .empty .empty where
  issued := rfl
  issued_lt := by decide
  batch id hid hle := absurd hid (Nat.not_le.mpr (Nat.lt_succ_of_le hle))
  owner id := by
    rw [if_neg fun hid => ?_]
    · rfl
    · obtain ⟨hpos, hle, -⟩ := contains_iff.mp hid
      exact Nat.not_le.mpr (Nat.lt_succ_of_le hle) hpos
  burned_le := nofun
  balance _ := rfl
  numberMinted _ := rfl
  received_le _ := Nat.le_refl 0
  supply := rfl

variable {a : Roll} {r : Registry}

/-! ## Minting -/

theorem Represents.toNat_firstId_add (h : Represents a r) :
    (firstId + r.totalMinted).toNat = 1 + a.issued := by
  rw [Registry.toNat_firstId_add (by rw [h.issued]; exact h.issued_lt), h.issued]

theorem Represents.firstId_add_le_iff (h : Represents a r) (id : UInt64) :
    firstId + r.totalMinted ≤ id ↔ a.issued < id.toNat := by
  rw [UInt64.le_iff_toNat_le, h.toNat_firstId_add, Nat.add_comm]
  exact Iff.rfl

variable {account : Address} {quantity : UInt64}

theorem Represents.toNat_totalMinted_add (h : Represents a r)
    (hids : 1 + a.issued + quantity.toNat < UInt64.size) :
    (r.totalMinted + quantity).toNat = a.issued + quantity.toNat := by
  rw [toNat_add_of_lt (by rw [h.issued]; omega), h.issued]

theorem Represents.toNat_balance_add (h : Represents a r)
    (hids : 1 + a.issued + quantity.toNat < UInt64.size) (account : Address) :
    (r.balance account + quantity).toNat = a.balance account + quantity.toNat := by
  have hle : a.balance account ≤ a.issued := a.count_le_issued _
  rw [toNat_add_of_lt (by rw [h.balance]; omega), h.balance]

theorem Represents.toNat_numberMinted_add (h : Represents a r)
    (hids : 1 + a.issued + quantity.toNat < UInt64.size) (account : Address) :
    (r.numberMinted account + quantity).toNat = a.received account + quantity.toNat := by
  have hle := h.received_le account
  rw [toNat_add_of_lt (by rw [h.numberMinted]; omega), h.numberMinted]

theorem Represents.contains_iff_owner (h : Represents a r) (id : UInt64) :
    r.contains id = true ↔ (a.owner id.toNat).isSome := by
  rw [h.owner]
  by_cases hid : r.contains id
  · obtain ⟨hpos, hle, -⟩ := contains_iff.mp hid
    simp only [hid, if_true, h.batch id hpos (hle.trans_eq h.issued)]
  · simp only [hid, Bool.false_eq_true, if_false, Option.isSome_none]

theorem Represents.owner_addBatch (h : Represents a r) (account : Address)
    (hids : 1 + a.issued + quantity.toNat < UInt64.size) (id : UInt64) :
    (a.issue account quantity.toNat).owner id.toNat =
      if (r.addBatch account quantity).contains id then (r.addBatch account quantity).batchOwner? id
      else none := by
  have hcontains : (r.addBatch account quantity).contains id = true ↔
      1 ≤ id.toNat ∧ id.toNat ≤ a.issued + quantity.toNat ∧ id ∉ r.burnedIds := by
    rw [contains_iff, ← h.toNat_totalMinted_add hids]
    exact Iff.rfl
  have hbatch := batchOwner?_addBatch r account quantity id
  simp only [h.firstId_add_le_iff] at hbatch
  by_cases hold : id.toNat ≤ a.issued
  · -- an id issued before is below the new batch
    have hsame : (r.addBatch account quantity).contains id = r.contains id := by
      rw [Bool.eq_iff_iff, hcontains, contains_iff, h.issued]
      constructor
      · rintro ⟨hpos, -, hburned⟩
        exact ⟨hpos, hold, hburned⟩
      · rintro ⟨hpos, -, hburned⟩
        exact ⟨hpos, hold.trans (Nat.le_add_right _ _), hburned⟩
    rw [if_neg fun hnew => Nat.not_lt.mpr hold hnew.2] at hbatch
    rw [Roll.owner_issue_of_le a account _ hold, h.owner, hsame, hbatch]
  · have hlt : a.issued < id.toNat := Nat.not_le.mp hold
    by_cases hnew : id.toNat ≤ a.issued + quantity.toNat
    · have hunburned : id ∉ r.burnedIds := fun hburned => hold (h.burned_le id hburned)
      have hquantity : 0 < quantity := UInt64.lt_iff_toNat_lt.mpr (Nat.pos_of_lt_add_right (hlt.trans_le hnew))
      rw [if_pos ⟨hquantity, hlt⟩] at hbatch
      rw [Roll.owner_issue_of_lt a account _ hlt hnew, hbatch,
        if_pos (hcontains.mpr ⟨Nat.one_le_of_lt hlt, hnew, hunburned⟩)]
    · have hnone : ¬ r.contains id = true := fun hid =>
        hold ((contains_iff.mp hid).2.1.trans_eq h.issued)
      have howner : (a.issue account quantity.toNat).owner id.toNat = a.owner id.toNat :=
        if_neg fun h' => hnew h'.2
      rw [howner, h.owner, if_neg hnone, if_neg fun hid => hnew (hcontains.mp hid).2.1]

theorem represents_addBatch (h : Represents a r) (account : Address)
    (hids : 1 + a.issued + quantity.toNat < UInt64.size) :
    Represents (a.issue account quantity.toNat) (r.addBatch account quantity) where
  issued := h.toNat_totalMinted_add hids
  issued_lt := by
    show 1 + (a.issued + quantity.toNat) < UInt64.size
    omega
  batch id hid hle := by
    simp only [batchOwner?_addBatch, h.firstId_add_le_iff]
    split
    · rfl
    · rename_i hold
      refine h.batch id hid (Nat.not_lt.mp fun hlt => hold ⟨?_, hlt⟩)
      rw [UInt64.lt_iff_toNat_lt]
      exact Nat.pos_of_lt_add_right (hlt.trans_le hle)
  owner := h.owner_addBatch account hids
  burned_le id hid := (h.burned_le id hid).trans (Nat.le_add_right _ _)
  balance other := by
    rw [balance, addBatch, Table.getD_set, Roll.balance, Roll.count_issue]
    by_cases hother : other = account
    · subst hother
      simp only [if_true, decide_true]
      exact h.toNat_balance_add hids other
    · have hne : ¬ account = other := fun heq => hother heq.symm
      simp only [if_neg hother, Option.some.injEq, hne, decide_false]
      exact h.balance other
  numberMinted other := by
    rw [numberMinted, addBatch, Table.getD_set, Roll.issue]
    by_cases hother : other = account
    · simp only [if_pos hother]
      exact h.toNat_numberMinted_add hids account
    · simp only [if_neg hother]
      exact h.numberMinted other
  received_le other := by
    rw [Roll.issue]
    dsimp only
    split
    · exact Nat.add_le_add_right (h.received_le account) _
    · exact (h.received_le other).trans (Nat.le_add_right _ _)
  supply := by
    have hsupply := h.supply
    rw [Roll.totalSupply, Roll.count_issue]
    show a.totalSupply + quantity.toNat + r.burned.toNat = a.issued + quantity.toNat
    omega

/-! ## Burning -/

theorem Represents.owner_eq (h : Represents a r) (id : UInt64) : r.owner id = a.ownerOf id := by
  rw [Registry.owner, Roll.ownerOf, h.owner]
  by_cases hid : r.contains id = true
  · obtain ⟨hpos, hle, -⟩ := contains_iff.mp hid
    obtain ⟨account, haccount⟩ := Option.isSome_iff_exists.mp (h.batch id hpos (hle.trans_eq h.issued))
    simp only [hid, if_true, haccount]
  · simp only [hid, Bool.false_eq_true, if_false]

/-- The ids of a new batch have its owner, and all other ids have the one that they had. -/
theorem Represents.owner_addBatch_eq (h : Represents a r) (account : Address)
    (hids : 1 + a.issued + quantity.toNat < UInt64.size) (id : UInt64) :
    (r.addBatch account quantity).owner id =
      if a.issued < id.toNat ∧ id.toNat ≤ a.issued + quantity.toNat then .ok account else r.owner id := by
  have hnew := represents_addBatch h account hids
  rw [hnew.owner_eq, h.owner_eq, Roll.ownerOf, Roll.ownerOf, Roll.issue]
  by_cases hid : a.issued < id.toNat ∧ id.toNat ≤ a.issued + quantity.toNat
  · simp only [if_pos hid]
  · simp only [if_neg hid]

theorem Represents.of_owner (h : Represents a r) {id : UInt64} {caller : Address}
    (howner : r.owner id = .ok caller) :
    (1 ≤ id.toNat ∧ id.toNat ≤ a.issued) ∧ a.owner id.toNat = some caller := by
  rw [h.owner_eq, Roll.ownerOf] at howner
  split at howner
  · rename_i account haccount
    cases howner
    have hid : r.contains id = true := by
      rw [h.contains_iff_owner, haccount]
      rfl
    obtain ⟨hpos, hle, -⟩ := contains_iff.mp hid
    exact ⟨⟨hpos, hle.trans_eq h.issued⟩, haccount⟩
  · cases howner

theorem Represents.exists_balance (h : Represents a r) {id : UInt64} {caller : Address}
    (howner : r.owner id = .ok caller) :
    ∃ n, r.balances.get? caller = some n ∧ (n - 1).toNat = (a.revoke id.toNat).balance caller ∧
      (n - 1).toNat + 1 = n.toNat := by
  obtain ⟨hrange, haccount⟩ := h.of_owner howner
  have hcount := a.count_revoke hrange (p := (· = some caller)) rfl
  simp only [haccount, decide_true, if_true] at hcount
  have hbalance := h.balance caller
  rw [Registry.balance, Table.getD] at hbalance
  cases hget : r.balances.get? caller with
  | none =>
    rw [hget] at hbalance
    have hzero : a.count (· = some caller) = 0 := hbalance.symm
    omega
  | some n =>
    rw [hget] at hbalance
    have hn : n.toNat = (a.revoke id.toNat).balance caller + 1 := hbalance.trans hcount.symm
    have hone : (1 : UInt64) ≤ n := by
      rw [UInt64.le_iff_toNat_le, hn]
      exact Nat.le_add_left 1 _
    have hsub : (n - 1).toNat = (a.revoke id.toNat).balance caller := by
      rw [UInt64.toNat_sub_of_le _ _ hone, hn]
      rfl
    exact ⟨n, rfl, hsub, by rw [hsub, hn]⟩

theorem Represents.toNat_burned_add (h : Represents a r) : (r.burned + 1).toNat = r.burned.toNat + 1 := by
  have hle := h.supply
  have hlt := h.issued_lt
  refine toNat_add_of_lt ?_
  simp only [UInt64.reduceToNat]
  omega

theorem contains_removeToken (r : Registry) (caller : Address) (id other : UInt64) :
    (r.removeToken caller id).contains other = true ↔ r.contains other = true ∧ other ≠ id := by
  rw [contains_iff, contains_iff]
  simp only [removeToken, List.mem_cons, not_or]
  constructor
  · rintro ⟨hpos, hle, hne, hburned⟩
    exact ⟨⟨hpos, hle, hburned⟩, hne⟩
  · rintro ⟨⟨hpos, hle, hburned⟩, hne⟩
    exact ⟨hpos, hle, hne, hburned⟩

theorem represents_removeToken (h : Represents a r) {id : UInt64} {caller : Address}
    (howner : r.owner id = .ok caller) :
    Represents (a.revoke id.toNat) (r.removeToken caller id) := by
  obtain ⟨hrange, haccount⟩ := h.of_owner howner
  obtain ⟨n, hget, hn, -⟩ := h.exists_balance howner
  have hsupply : (a.revoke id.toNat).totalSupply + 1 = a.totalSupply := by
    have hcount := a.count_revoke hrange (p := Option.isSome) rfl
    simp only [haccount, Option.isSome_some, if_true] at hcount
    exact hcount
  have hburned := h.toNat_burned_add
  refine ⟨h.issued, h.issued_lt, h.batch, fun other => ?_, ?_, fun account => ?_, h.numberMinted,
    h.received_le, ?_⟩
  · by_cases hother : other = id
    · subst hother
      rw [if_neg fun hid => ((contains_removeToken r caller other other).mp hid).2 rfl]
      exact if_pos rfl
    · have hne : other.toNat ≠ id.toNat := fun heq => hother (UInt64.toNat_inj.mp heq)
      have hsame : (r.removeToken caller id).contains other = r.contains other := by
        rw [Bool.eq_iff_iff, contains_removeToken]
        exact ⟨fun hid => hid.1, fun hid => ⟨hid, hother⟩⟩
      rw [hsame]
      exact (if_neg hne).trans (h.owner other)
  · intro other hmem
    rcases List.mem_cons.mp hmem with rfl | hmem
    · exact hrange.2
    · exact h.burned_le other hmem
  · simp only [balance, removeToken, hget, Table.getD_set]
    have hcount := a.count_revoke hrange (p := (· = some account)) rfl
    by_cases haccount' : account = caller
    · subst haccount'
      rw [if_pos rfl]
      exact hn
    · have hne : ¬ caller = account := fun heq => haccount' heq.symm
      simp only [haccount, Option.some.injEq, hne, decide_false, Bool.false_eq_true, if_false,
        Nat.add_zero] at hcount
      rw [if_neg haccount']
      exact (h.balance account).trans hcount.symm
  · have hle := h.supply
    show (a.revoke id.toNat).totalSupply + (r.burned + 1).toNat = a.issued
    omega

/-! ## Calls -/

/-- One call is answered as by the roll, and what is left stands for what is left of the roll. -/
theorem Represents.answer (h : Represents a r) (call : TokenCall) :
    (Registry.answer call r).1 = (Roll.answer call a).1 ∧
      Represents (Roll.answer call a).2 (Registry.answer call r).2 := by
  cases call with
  | mint account quantity =>
    have hmint := perform_mint account quantity r
    simp only [h.toNat_firstId_add] at hmint
    rw [Registry.answer, Roll.answer]
    by_cases hids : 1 + a.issued + quantity.toNat < UInt64.size
    · have hstop : (firstId + r.totalMinted + quantity).toNat = 1 + a.issued + quantity.toNat := by
        rw [toNat_add_of_lt (by rw [h.toNat_firstId_add]; exact hids), h.toNat_firstId_add]
      rw [if_pos hids] at hmint
      rw [Action.perform_bind_of_ok hmint]
      simp only [if_pos (Nat.le_sub_one_of_lt hids), Action.perform_pure, h.toNat_firstId_add, hstop]
      exact ⟨trivial, represents_addBatch h account hids⟩
    · have hfull : ¬ 1 + a.issued + quantity.toNat ≤ UInt64.size - 1 := fun hle =>
        hids (Nat.lt_of_le_sub_one (by decide) hle)
      rw [if_neg hids] at hmint
      rw [Action.perform_bind_of_error hmint]
      simp only [if_neg hfull]
      exact ⟨trivial, h⟩
  | burn caller id =>
    have hburn := perform_burn caller id r
    rw [Registry.answer, Roll.answer, ← h.owner_eq]
    cases howner : r.owner id with
    | error e =>
      simp only [howner] at hburn
      rw [Action.perform_bind_of_error hburn]
      exact ⟨rfl, h⟩
    | ok account =>
      simp only [howner] at hburn
      by_cases haccount : account = caller
      · subst haccount
        rw [if_pos rfl] at hburn
        rw [Action.perform_bind_of_ok hburn]
        simp only [if_true]
        exact ⟨rfl, represents_removeToken h howner⟩
      · rw [if_neg haccount] at hburn
        rw [Action.perform_bind_of_error hburn]
        simp only [if_neg haccount]
        exact ⟨trivial, h⟩

theorem Represents.answerAll (h : Represents a r) (calls : List TokenCall) :
    (TokenCall.answerAll Registry.answer calls r).1 = (TokenCall.answerAll Roll.answer calls a).1 ∧
      Represents (TokenCall.answerAll Roll.answer calls a).2
        (TokenCall.answerAll Registry.answer calls r).2 := by
  induction calls generalizing a r with
  | nil => exact ⟨rfl, h⟩
  | cons call rest ih =>
    obtain ⟨hreply, hstep⟩ := h.answer call
    obtain ⟨hreplies, hrest⟩ := ih hstep
    exact ⟨congrArg₂ List.cons hreply hreplies, hrest⟩

/-! ## Questions -/

/-- A registry that decides every question as a roll does. -/
structure Agrees (a : Roll) (r : Registry) : Prop where
  owner : ∀ id, r.owner id = a.ownerOf id
  contains : ∀ id, r.contains id = (a.owner id.toNat).isSome
  balance : ∀ account, (r.balance account).toNat = a.balance account
  numberMinted : ∀ account, (r.numberMinted account).toNat = a.received account
  totalSupply : r.totalSupply.toNat = a.totalSupply
  totalMinted : r.totalMinted.toNat = a.issued

theorem Represents.burned_le_totalMinted (h : Represents a r) : r.burned ≤ r.totalMinted := by
  have hsupply := h.supply
  rw [UInt64.le_iff_toNat_le, h.issued]
  omega

theorem Represents.agrees (h : Represents a r) : Agrees a r where
  owner := h.owner_eq
  contains id := Bool.eq_iff_iff.mpr (h.contains_iff_owner id)
  balance := h.balance
  numberMinted := h.numberMinted
  totalSupply := by
    have hsupply := h.supply
    rw [Registry.totalSupply, UInt64.toNat_sub_of_le _ _ h.burned_le_totalMinted, h.issued]
    omega
  totalMinted := h.issued

/-- No sum or difference in any operation on the registry wraps. -/
structure NeverWraps (r : Registry) : Prop where
  /-- The next id, which every call of `mint` computes. -/
  next : (firstId + r.totalMinted).toNat = firstId.toNat + r.totalMinted.toNat
  /-- The sums of a mint that is not refused. -/
  mint : ∀ account quantity ids r', (mint account quantity).perform r = (.ok ids, r') →
    (firstId + r.totalMinted + quantity).toNat = (firstId + r.totalMinted).toNat + quantity.toNat ∧
    (r.numberMinted account + quantity).toNat = (r.numberMinted account).toNat + quantity.toNat ∧
    (r.balance account + quantity).toNat = (r.balance account).toNat + quantity.toNat ∧
    (r.totalMinted + quantity).toNat = r.totalMinted.toNat + quantity.toNat
  /-- The sum and the difference of a burn that is not refused. -/
  burn : ∀ caller id r', (burn caller id).perform r = (.ok (), r') →
    (∃ n, r.balances.get? caller = some n ∧ (n - 1).toNat + 1 = n.toNat) ∧
    (r.burned + 1).toNat = r.burned.toNat + 1
  place : ∀ id : UInt64, firstId ≤ id → (id - firstId).toNat + firstId.toNat = id.toNat
  supply : (r.totalMinted - r.burned).toNat + r.burned.toNat = r.totalMinted.toNat

theorem Represents.mint_refused_iff (h : Represents a r) (account : Address) (quantity : UInt64) :
    (∃ e r', (Registry.mint account quantity).perform r = (.error e, r')) ↔
      UInt64.size - 1 < 1 + r.totalMinted.toNat + quantity.toNat := by
  have hmint := perform_mint account quantity r
  simp only [h.toNat_firstId_add] at hmint
  rw [hmint, h.issued]
  by_cases hids : 1 + a.issued + quantity.toNat < UInt64.size
  · rw [if_pos hids]
    exact iff_of_false nofun (Nat.not_lt.mpr (Nat.le_sub_one_of_lt hids))
  · rw [if_neg hids]
    exact iff_of_true ⟨_, _, rfl⟩ ((Nat.sub_one_lt (by decide)).trans_le (Nat.not_lt.mp hids))

theorem Represents.neverWraps (h : Represents a r) : NeverWraps r where
  next := by
    rw [h.toNat_firstId_add, h.issued]
    rfl
  mint account quantity ids r' hmint := by
    have hids : 1 + a.issued + quantity.toNat < UInt64.size := by
      by_contra hfull
      have hrefused := (h.mint_refused_iff account quantity).mpr (by rw [h.issued]; omega)
      obtain ⟨e, r'', herror⟩ := hrefused
      rw [hmint] at herror
      cases herror
    refine ⟨toNat_add_of_lt (by rw [h.toNat_firstId_add]; exact hids), ?_, ?_, ?_⟩
    · rw [h.toNat_numberMinted_add hids, h.numberMinted]
    · rw [h.toNat_balance_add hids, h.balance]
    · rw [h.toNat_totalMinted_add hids, h.issued]
  burn caller id r' hburn := by
    rw [perform_burn] at hburn
    cases howner : r.owner id with
    | error e =>
      simp only [howner] at hburn
      cases hburn
    | ok account =>
      simp only [howner] at hburn
      split at hburn
      · rename_i haccount
        subst haccount
        obtain ⟨n, hget, -, hn⟩ := h.exists_balance howner
        exact ⟨⟨n, hget, hn⟩, h.toNat_burned_add⟩
      · cases hburn
  place id hid := by
    rw [UInt64.toNat_sub_of_le _ _ hid]
    exact Nat.sub_add_cancel (UInt64.le_iff_toNat_le.mp hid)
  supply := by
    rw [UInt64.toNat_sub_of_le _ _ h.burned_le_totalMinted]
    exact Nat.sub_add_cancel (UInt64.le_iff_toNat_le.mp h.burned_le_totalMinted)

/-- **The registry is the roll.** From the empty registry on, whatever the calls, all are answered as by the roll,
and then all questions are decided as by the roll. A mint is refused exactly if the ids run out, and no sum or
difference ever wraps. -/
theorem answerAll_empty (calls : List TokenCall) :
    let registry := TokenCall.answerAll Registry.answer calls .empty
    let roll := TokenCall.answerAll Roll.answer calls .empty
    registry.1 = roll.1 ∧ Agrees roll.2 registry.2 ∧ NeverWraps registry.2 ∧
      ∀ account quantity,
        (∃ e r, (mint account quantity).perform registry.2 = (.error e, r)) ↔
          UInt64.size - 1 < 1 + registry.2.totalMinted.toNat + quantity.toNat := by
  obtain ⟨hreplies, h⟩ := represents_empty.answerAll calls
  exact ⟨hreplies, h.agrees, h.neverWraps, h.mint_refused_iff⟩

end TokenSale.Registry
