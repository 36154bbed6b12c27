import TokenSale.Proofs.Address.Forms
import TokenSale.Proofs.Machine.Run

/-!
# Words that spell one address

Some instructions take words off the stack that name accounts and tier sources. Such a word counts for the address alone
that it spells, which is what the word is modulo `2 ^ 160`. So the words that an instruction is about to take as addresses
may be respelled (`Respelled`), and nothing comes of it:

* `perform_exec_respelled`: the instruction has the same result and leaves the same machine.
* `runRespelled_eq`: a run in which words are respelled on the way, before as many instructions as one likes, is the run
  in which none are.
-/

namespace TokenSale

/-- How many of the values that an instruction takes are addresses. They are the ones on the top. -/
def Instruction.addresses : Instruction → Nat
  | .numberMinted => 1
  | .tierLevel | .hasMinTier => 2
  | _ => 0

namespace Machine

variable {σ α : Type} {scene : Scene σ} {constants : List Word} {limit source : Nat} {site : Site} {m : Machine σ}
  {s : Stack}

/-! ## One instruction -/

/-- Values, the top first, of which the top ones, `n` at most, are replaced by words that are equal to them modulo
`2 ^ 160`. -/
inductive Respelled : Nat → List Word → List Word → Prop
  | refl (n : Nat) (values : List Word) : Respelled n values values
  | cons {n : Nat} {v w : Word} {values others : List Word} : w.toNat % 2 ^ 160 = v.toNat % 2 ^ 160 →
      Respelled n values others → Respelled (n + 1) (v :: values) (w :: others)

theorem withStack_of_topFirst_eq (h : s.topFirst = m.stack.topFirst) : m.withStack s = m := by
  rw [Stack.ext h, withStack_stack]

theorem withStack_of_respelled_zero (h : Respelled 0 m.stack.topFirst s.topFirst) : m.withStack s = m := by
  generalize hvalues : m.stack.topFirst = values at h
  generalize hothers : s.topFirst = others at h
  cases h
  exact withStack_of_topFirst_eq (hothers.trans hvalues.symm)

/-- What follows is told the same address, and finds the values below respelled as far as they were. -/
theorem perform_pop_respelled {n : Nat} {next : Word → Run σ α} (h : Respelled (n + 1) m.stack.topFirst s.topFirst)
    (hnext : ∀ v w m s, Address.ofWord w = Address.ofWord v → Respelled n m.stack.topFirst s.topFirst →
      (next w).perform (m.withStack s) = (next v).perform m) :
    (pop site >>= next).perform (m.withStack s) = (pop site >>= next).perform m := by
  generalize hvalues : m.stack.topFirst = values at h
  generalize hothers : s.topFirst = others at h
  cases h with
  | refl => rw [withStack_of_topFirst_eq (hothers.trans hvalues.symm)]
  | @cons _ v w values others hvw hrest =>
    obtain ⟨t, rfl⟩ : ∃ t : Stack, t.topFirst = values :=
      ⟨m.stack.drop 1, congrArg (List.drop 1) hvalues⟩
    obtain ⟨u, rfl⟩ : ∃ u : Stack, u.topFirst = others := ⟨s.drop 1, congrArg (List.drop 1) hothers⟩
    rw [Action.perform_bind_of_ok (perform_pop hvalues site),
      Action.perform_bind_of_ok (perform_pop (m := m.withStack s) hothers site)]
    exact hnext v w (m.withStack t) u (Address.ofWord_eq_iff.mpr hvw) hrest

theorem perform_popTier_respelled (h : Respelled 2 m.stack.topFirst s.topFirst) :
    (popTier scene site).perform (m.withStack s) = (popTier scene site).perform m := by
  apply perform_pop_respelled h
  intro source source' m s hsource h
  rw [hsource]
  apply perform_pop_respelled h
  intro account account' m s haccount h
  rw [withStack_of_respelled_zero h, haccount]

/-- An instruction does the same with respelled addresses, whether it succeeds or not. -/
theorem perform_exec_respelled {i : Instruction} (h : Respelled i.addresses m.stack.topFirst s.topFirst)
    (operand : UInt8) (offset : Nat) :
    (exec scene constants i operand offset).perform (m.withStack s) =
      (exec scene constants i operand offset).perform m := by
  cases i with
  | numberMinted =>
    rw [exec, if_neg (fun h => absurd h.1 (by decide))]
    apply perform_pop_respelled h
    intro account account' m s haccount h
    rw [withStack_of_respelled_zero h, haccount]
  | tierLevel | hasMinTier =>
    rw [exec, if_neg (fun h => absurd h.1 (by decide)), dispatch, Action.perform_bind, Action.perform_bind,
      perform_popTier_respelled h]
  | _ => rw [withStack_of_respelled_zero h]

/-! ## Whole runs -/

/-- A stack for every instruction of a run, which spells the addresses that the instruction is about to take as the stack
of the machine spells them. -/
structure Respelling (σ : Type) where
  stack : (offset : Nat) → Instruction → Machine σ → Stack
  respelled : ∀ offset i m, Respelled i.addresses m.stack.topFirst (stack offset i m).topFirst

/-- Respells the addresses and executes the instruction. -/
def execRespelled (r : Respelling σ) (scene : Scene σ) (constants : List Word) (i : Instruction) (operand : UInt8)
    (offset : Nat) : Run σ Unit := do
  modify fun m => m.withStack (r.stack offset i m)
  exec scene constants i operand offset

/-- Executes code that stands at an offset of a source, and respells the addresses before every instruction. -/
def execFromRespelled (r : Respelling σ) (scene : Scene σ) (constants : List Word) (limit source : Nat) :
    (offset : Nat) → List UInt8 → Run σ Unit
  | offset, opcode :: operand :: rest => do
    tick limit
    match Instruction.ofOpcode? opcode with
    | none => throw (.invalidInstruction opcode offset)
    | some i =>
      execRespelled r scene constants i operand offset
      execFromRespelled r scene constants limit source (offset + Instruction.width) rest
  | offset, code => execFrom scene constants limit source offset code

/-- Runs a source as `run` does, and respells the addresses before every instruction. -/
def runRespelled (r : Respelling σ) (script : RawScript) (limit : Nat) (scene : Scene σ) (source : Nat) : Run σ Unit :=
  match script.source source with
  | .error fault => throw fault
  | .ok code => do
    modify fun m => { m with stack := .empty, steps := 0 }
    execFromRespelled r scene script.constants limit source 0 code

theorem execRespelled_eq (r : Respelling σ) (i : Instruction) (operand : UInt8) (offset : Nat) :
    execRespelled r scene constants i operand offset = exec scene constants i operand offset := by
  funext m
  exact perform_exec_respelled (r.respelled offset i m) operand offset

theorem execFromRespelled_eq (r : Respelling σ) (offset : Nat) (code : List UInt8) :
    execFromRespelled r scene constants limit source offset code =
      execFrom scene constants limit source offset code := by
  fun_induction execFrom scene constants limit source offset code with
  | case1 offset => rfl
  | case2 offset opcode => rfl
  | case3 offset opcode operand rest ih =>
    rw [execFromRespelled]
    apply bind_congr
    intro _
    cases Instruction.ofOpcode? opcode with
    | none => rfl
    | some i => simp only [execRespelled_eq, ih]

theorem runRespelled_eq (r : Respelling σ) (script : RawScript) (limit : Nat) (scene : Scene σ) (source : Nat) :
    runRespelled r script limit scene source = run script limit scene source := by
  rw [runRespelled, run]
  cases script.source source with
  | error fault => rfl
  | ok code => simp only [execFromRespelled_eq]

/-- **An address is the same in a text, in a word and on the stack.** The text of an address reads back as the address,
and so does its word, which is the number of its bytes. A word is narrowed to the address that it is modulo `2 ^ 160`,
which is its last 20 bytes. So it does not matter which words spell the addresses that are taken off the stack: with
others that are equal modulo `2 ^ 160`, the instruction has the same result and leaves the same machine, and so does a
run, whichever of its addresses are respelled. -/
theorem run_respelled (script : RawScript) (limit : Nat) (scene : Scene σ) (source : Nat) :
    (∀ a : Address, Address.ofText a.text = .ok a ∧ Address.ofWord a.toWord = a ∧
        a.toWord.toNat = Bytes.ofLittleEndian a.toBytes.reverse) ∧
      (∀ w : Word, (Address.ofWord w).toWord.toNat = w.toNat % 2 ^ 160 ∧
        (Address.ofWord w).toBytes = w.toBytes.drop 12) ∧
      (∀ (constants : List Word) (i : Instruction) (operand : UInt8) (offset : Nat) (m : Machine σ) (s : Stack),
        Respelled i.addresses m.stack.topFirst s.topFirst →
          (exec scene constants i operand offset).perform (m.withStack s) =
            (exec scene constants i operand offset).perform m) ∧
      ∀ (r : Respelling σ) (m : Machine σ),
        (runRespelled r script limit scene source).perform m = (run script limit scene source).perform m := by
  refine ⟨fun a => ⟨a.ofText_text, a.ofWord_toWord, a.toNat_toWord⟩, ?_, ?_, ?_⟩
  · exact fun w => ⟨Address.toNat_toWord_ofWord w, Address.toBytes_ofWord w⟩
  · intro constants i operand offset m s h
    exact perform_exec_respelled h operand offset
  · intro r m
    rw [runRespelled_eq]

/-- Another word that spells the same address: the next one, or the first after the last. -/
def respell (w : Word) : Word := ⟨(w.toNat + Address.size) % Word.size, Nat.mod_lt _ (by decide)⟩

theorem toNat_respell_mod (w : Word) : (respell w).toNat % 2 ^ 160 = w.toNat % 2 ^ 160 := by
  have hdvd : Address.size ∣ Word.size := by decide
  rw [← Address.size_eq]
  calc (w.toNat + Address.size) % Word.size % Address.size
    _ = (w.toNat + Address.size) % Address.size := Nat.mod_mod_of_dvd _ hdvd
    _ = w.toNat % Address.size := Nat.add_mod_right _ _

theorem respelled_map (n : Nat) (values : List Word) :
    Respelled n values ((values.take n).map respell ++ values.drop n) := by
  induction n generalizing values with
  | zero => exact .refl 0 values
  | succ n ih =>
    cases values with
    | nil => exact .refl (n + 1) []
    | cons w values => exact .cons (toNat_respell_mod w) (ih values)

/-- Respells every word that is about to be taken as an address. -/
def respellAll (σ : Type) : Respelling σ where
  stack _ i m :=
    ⟨(m.stack.topFirst.take i.addresses).map respell ++ m.stack.topFirst.drop i.addresses, by
      rw [List.length_append, List.length_map, ← List.length_append, List.take_append_drop]
      exact m.stack.length_le⟩
  respelled _ i m := respelled_map i.addresses m.stack.topFirst

/-- What the account in the context has minted, and whether its level at the source 41 reaches 2. -/
def accountScript : Script where
  sources := [[Instruction.context.opcode, 0, Instruction.numberMinted.opcode, 0, Instruction.context.opcode, 0,
    Instruction.constant.opcode, 0, Instruction.hasMinTier.opcode, 2]]
  constants := [.ofUInt64 41]
  sources_ne_nil := by decide
  length_even := by decide
  length_constants_le := by decide

theorem run_respelled_accountScript :
    let account : Address := .truncate 7
    let scene : Scene Unit := ⟨.fixed (fun _ => 0) fun a => if a = account then .ofUInt64 5 else 0,
      (TierTable.empty.setTier (.truncate 41) account 3).oracle, 0, [account.toWord]⟩
    let m : Machine Unit := (idle ()).withStack ⟨[account.toWord], by decide⟩
    let s : Stack := ⟨[respell account.toWord], by decide⟩
    Respelled Instruction.numberMinted.addresses m.stack.topFirst s.topFirst ∧ s ≠ m.stack ∧
      (exec scene [] .numberMinted 0 0).perform (m.withStack s) = (exec scene [] .numberMinted 0 0).perform m ∧
      (runRespelled (respellAll Unit) accountScript 5 scene 0).perform (idle ()) =
        (run accountScript 5 scene 0).perform (idle ()) ∧
      ((run accountScript 5 scene 0).perform (idle ())).2.stack.toList = [.ofUInt64 5, 1] := by
  intro account scene m s
  have hs : Respelled Instruction.numberMinted.addresses m.stack.topFirst s.topFirst := respelled_map 1 [account.toWord]
  obtain ⟨-, -, hexec, hrun⟩ := run_respelled accountScript 5 scene 0
  exact ⟨hs, by decide, hexec [] .numberMinted 0 0 m s hs, hrun (respellAll Unit) (idle ()), by decide⟩

end Machine

end TokenSale
