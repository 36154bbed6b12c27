import TokenSale.CommandLine.Run
import TokenSale.Proofs.Files.Writing

/-!
# What the parts of a run leave

A part of a run on a file tree gives a value, or ends the run, and leaves a file tree. All parts but the one that
writes the binary form keep the tree they start from, and none asks what was printed and reported before it. So each
part is described by the tree alone: `Gives`, `Ends`, `Leaves`. The tree that a run leaves is put together from these:
`leaves_perform_of_gives`.
-/

namespace TokenSale.CommandLine

open Files

section

variable {α β : Type} {x : Session (StateM FileTree) α} {f : α → Session (StateM FileTree) β}
  {t after : FileTree} {a : α} {b : β}

/-- What a part of a run comes to, with the transcript and the tree after it. -/
def result (x : Session (StateM FileTree) α) (transcript : Transcript) (t : FileTree) :
    (Except UInt32 α × Transcript) × FileTree :=
  ((ExceptT.run x).run transcript).run t

theorem result_bind (x : Session (StateM FileTree) α) (f : α → Session (StateM FileTree) β) (transcript : Transcript)
    (t : FileTree) :
    result (x >>= f) transcript t =
      match result x transcript t with
      | ((.ok a, transcript), t) => result (f a) transcript t
      | ((.error exit, transcript), t) => ((.error exit, transcript), t) := by
  rcases hresult : result x transcript t with ⟨⟨_ | a, later⟩, tree⟩
  all_goals
    simp only [result, ExceptT.run_bind, StateT.run_bind] at hresult ⊢
    rw [hresult]
    rfl

/-- The part gives a value, and keeps the tree. -/
def Gives (x : Session (StateM FileTree) α) (t : FileTree) (a : α) : Prop :=
  ∀ transcript, ∃ later, result x transcript t = ((.ok a, later), t)

/-- The part ends the run, and keeps the tree. -/
def Ends (x : Session (StateM FileTree) α) (t : FileTree) : Prop :=
  ∀ transcript, ∃ exit later, result x transcript t = ((.error exit, later), t)

/-- The tree after the part. -/
def Leaves (x : Session (StateM FileTree) α) (t after : FileTree) : Prop :=
  ∀ transcript, (result x transcript t).2 = after

theorem Gives.leaves (h : Gives x t a) : Leaves x t t := by
  intro transcript
  obtain ⟨later, hresult⟩ := h transcript
  rw [hresult]

theorem Ends.leaves (h : Ends x t) : Leaves x t t := by
  intro transcript
  obtain ⟨exit, later, hresult⟩ := h transcript
  rw [hresult]

theorem Gives.bind (h : Gives x t a) (hf : Gives (f a) t b) : Gives (x >>= f) t b := by
  intro transcript
  obtain ⟨later, hresult⟩ := h transcript
  rw [result_bind, hresult]
  exact hf later

theorem Gives.bind_ends (h : Gives x t a) (hf : Ends (f a) t) : Ends (x >>= f) t := by
  intro transcript
  obtain ⟨later, hresult⟩ := h transcript
  rw [result_bind, hresult]
  exact hf later

theorem Gives.bind_leaves (h : Gives x t a) (hf : Leaves (f a) t after) : Leaves (x >>= f) t after := by
  intro transcript
  obtain ⟨later, hresult⟩ := h transcript
  rw [result_bind, hresult]
  exact hf later

theorem Ends.bind (h : Ends x t) : Ends (x >>= f) t := by
  intro transcript
  obtain ⟨exit, later, hresult⟩ := h transcript
  rw [result_bind, hresult]
  exact ⟨exit, later, rfl⟩

/-- What keeps every tree may follow. -/
theorem Leaves.bind (h : Leaves x t after) (hf : ∀ a, Leaves (f a) after after) : Leaves (x >>= f) t after := by
  intro transcript
  rw [result_bind]
  have htree := h transcript
  rcases hresult : result x transcript t with ⟨⟨_ | a, later⟩, tree⟩
  · rw [hresult] at htree
    exact htree
  · rw [hresult] at htree
    cases htree
    exact hf a later

/-! ## The single steps -/

theorem gives_pure (t : FileTree) (a : α) : Gives (pure a) t a := fun transcript => ⟨transcript, rfl⟩

theorem gives_addRecords (t : FileTree) (records : List Record) : Gives (addRecords records) t () :=
  fun _ => ⟨_, rfl⟩

theorem gives_inform (t : FileTree) (message : String) : Gives (inform message) t () :=
  gives_addRecords t _

theorem gives_print (t : FileTree) (text : String) : Gives (print text) t () := fun _ => ⟨_, rfl⟩

theorem ends_throw (t : FileTree) (exit : UInt32) : Ends (throw exit : Session (StateM FileTree) α) t :=
  fun transcript => ⟨exit, transcript, rfl⟩

theorem ends_fail (t : FileTree) (message : String) : Ends (fail message : Session (StateM FileTree) α) t :=
  (gives_addRecords t _).bind_ends (ends_throw t failure)

theorem result_outside (act : StateM FileTree α) (transcript : Transcript) (t : FileTree) :
    result (outside act) transcript t = ((.ok (act.run t).1, transcript), (act.run t).2) := rfl

theorem gives_pathExists (t : FileTree) (p : Path) :
    Gives (outside (FileTree.system.pathExists p)) t (t.pathExists p) :=
  fun transcript => ⟨transcript, rfl⟩

theorem gives_read (t : FileTree) (p : Path) : Gives (outside (FileTree.system.read p)) t (t.read p) :=
  fun transcript => ⟨transcript, rfl⟩

theorem run_write (t : FileTree) (p : Path) (bytes : List UInt8) :
    (FileTree.system.write p bytes).run t =
      match t.write p bytes with
      | .ok next => (.ok (), next)
      | .error cause => (.error cause, t) := by
  simp only [FileTree.system, StateT.run_bind, StateT.run_get]
  show (match t.write p bytes with
    | .ok next => _
    | .error cause => _ : StateM FileTree (Except FileFault Unit)).run t = _
  cases t.write p bytes with
  | ok next => rfl
  | error cause => rfl

theorem gives_write_of_error {p : Path} {bytes : List UInt8} {cause : FileFault} (h : t.write p bytes = .error cause) :
    Gives (outside (FileTree.system.write p bytes)) t (.error cause) := by
  intro transcript
  refine ⟨transcript, ?_⟩
  rw [result_outside, run_write, h]

/-- After a write that succeeds, the run goes on with the tree that it leaves. -/
theorem leaves_write_bind {p : Path} {bytes : List UInt8} {next : FileTree}
    {f : Except FileFault Unit → Session (StateM FileTree) β} (h : t.write p bytes = .ok next)
    (hf : Leaves (f (.ok ())) next after) : Leaves (outside (FileTree.system.write p bytes) >>= f) t after := by
  intro transcript
  rw [result_bind, result_outside, run_write, h]
  exact hf transcript

end

/-! ## Loading -/

/-- A script that bytes hold, in the form that their first bytes tell. -/
inductive Holds (input : String) (bytes : List UInt8) (s : Script) : Form → Prop
  | binary (magic : Script.hasMagic bytes = true) (decoded : Script.ofBytes bytes = .ok s) :
    Holds input bytes s .binary
  | text (magic : Script.hasMagic bytes = false)
    (assembled : (Assembly.assembleContent input (.ok bytes)).1 = .ok s) : Holds input bytes s .text

section

variable {t after : FileTree} {input : String} {bytes : List UInt8} {s : Script} {form : Form}

theorem gives_loadBytes (t : FileTree) (h : Holds input bytes s form) :
    Gives (loadBytes input bytes) t (s, form) := by
  unfold loadBytes
  cases h with
  | binary magic decoded =>
    rw [if_pos magic, decoded]
    exact gives_pure t _
  | text magic assembled =>
    rw [if_neg (Bool.eq_false_iff.mp magic)]
    rcases hcontent : Assembly.assembleContent input (.ok bytes) with ⟨_ | s, records⟩
    · rw [hcontent] at assembled
      cases assembled
    · rw [hcontent] at assembled
      cases assembled
      exact (gives_addRecords t records).bind (gives_pure t _)

theorem ends_loadBytes (t : FileTree) (h : ∀ s form, ¬ Holds input bytes s form) : Ends (loadBytes input bytes) t := by
  unfold loadBytes
  cases magic : Script.hasMagic bytes with
  | true =>
    rw [if_pos rfl]
    cases decoded : Script.ofBytes bytes with
    | ok s => exact absurd (.binary magic decoded) (h s .binary)
    | error fault => exact ends_fail t _
  | false =>
    rw [if_neg Bool.false_ne_true]
    rcases hcontent : Assembly.assembleContent input (.ok bytes) with ⟨_ | s, records⟩
    · exact (gives_addRecords t records).bind_ends (ends_fail t _)
    · exact absurd (.text magic (congrArg Prod.fst hcontent)) (h s .text)

theorem gives_load (hread : t.read (Path.ofText input) = .ok bytes) (h : Holds input bytes s form) :
    Gives (load FileTree.system input) t (s, form) := by
  unfold load
  refine (gives_pathExists t _).bind ?_
  rw [FileTree.pathExists_of_read hread]
  refine (gives_read t _).bind ?_
  rw [hread]
  exact gives_loadBytes t h

theorem ends_load (h : ∀ bytes s form, t.read (Path.ofText input) = .ok bytes → ¬ Holds input bytes s form) :
    Ends (load FileTree.system input) t := by
  unfold load
  refine (gives_pathExists t _).bind_ends ?_
  cases t.pathExists (Path.ofText input) with
  | false => exact (ends_fail t _).bind
  | true =>
    refine (gives_read t _).bind_ends ?_
    cases hread : t.read (Path.ofText input) with
    | error cause => exact ends_fail t _
    | ok bytes => exact ends_loadBytes t fun s form => h bytes s form hread

/-! ## Writing the binary form -/

variable {o : Options}

/-- The directory of a path is required to exist, if the path is in a directory that has a name. -/
def DirectoryExists (t : FileTree) (p : Path) : Prop :=
  ∀ parent, p.parent? = some parent → parent ≠ .empty → t.pathExists parent = true

theorem gives_requireDirectory {p : Path} (h : DirectoryExists t p) :
    Gives (requireDirectory FileTree.system p) t () := by
  unfold requireDirectory
  cases hparent : p.parent? with
  | none => exact gives_pure t ()
  | some parent =>
    dsimp only
    split
    · exact gives_pure t ()
    · next hempty =>
      refine (gives_pathExists t parent).bind ?_
      rw [h parent hparent hempty]
      exact gives_pure t ()

theorem ends_requireDirectory {p : Path} (h : ¬ DirectoryExists t p) :
    Ends (requireDirectory FileTree.system p) t := by
  obtain ⟨parent, hparent, hempty, hmissing⟩ :
      ∃ parent, p.parent? = some parent ∧ parent ≠ .empty ∧ t.pathExists parent = false := by
    simpa only [DirectoryExists, Classical.not_forall, Classical.not_imp, exists_prop, Bool.not_eq_true] using h
  rw [requireDirectory, hparent]
  dsimp only
  rw [if_neg hempty]
  refine (gives_pathExists t parent).bind_ends ?_
  rw [hmissing]
  exact ends_fail t _

/-- The binary form is written where it has to be, if the directory is there and the write succeeds. -/
theorem leaves_compile_of_write (hdirectory : DirectoryExists t o.target)
    (hwrite : t.write o.target s.toBytes = .ok after) : Leaves (compile FileTree.system o s) t after := by
  unfold compile
  refine (gives_requireDirectory hdirectory).bind_leaves ?_
  exact leaves_write_bind hwrite (gives_inform after _).leaves

/-- Otherwise nothing is changed. -/
theorem leaves_compile_of_not_written
    (h : ¬ (DirectoryExists t o.target ∧ ∃ after, t.write o.target s.toBytes = .ok after)) :
    Leaves (compile FileTree.system o s) t t := by
  unfold compile
  by_cases hdirectory : DirectoryExists t o.target
  · refine (gives_requireDirectory hdirectory).bind_leaves ?_
    cases hwrite : t.write o.target s.toBytes with
    | ok after => exact absurd ⟨hdirectory, after, hwrite⟩ h
    | error cause => exact ((gives_write_of_error hwrite).bind_ends (ends_fail t _)).leaves
  · exact (ends_requireDirectory hdirectory).bind.leaves

/-! ## A whole run -/

theorem leaves_printAssembly (t : FileTree) (s : Script) : Leaves (printAssembly s) t t := by
  unfold printAssembly
  cases Assembly.disassemble s with
  | ok text => exact (gives_print t text).leaves
  | error fault => exact (ends_fail t _).leaves

theorem leaves_evaluate (t : FileTree) (o : Options) (s : Script) : Leaves (evaluate o s) t t := by
  unfold evaluate
  cases Pricing.ofScript s with
  | error fault => exact (ends_fail t _).leaves
  | ok pricing =>
    dsimp only
    rcases (pricing.evaluate o.scene).perform ((), []) with ⟨outcome, state, records⟩
    dsimp only
    refine (gives_addRecords t records).bind_leaves ?_
    cases outcome with
    | error fault => exact (ends_fail t _).leaves
    | ok q => exact ((gives_print t _).bind (gives_print t _)).leaves

theorem leaves_perform_of_ends (hload : Ends (load FileTree.system o.input) t) :
    Leaves (perform FileTree.system o) t t :=
  hload.bind.leaves

/-- What a run that loads a script leaves is what is left when the binary form is written, if it is. -/
theorem leaves_perform_of_gives (hload : Gives (load FileTree.system o.input) t (s, form))
    (hcompile : Leaves (if o.compiles form then compile FileTree.system o s else pure ()) t after) :
    Leaves (perform FileTree.system o) t after := by
  unfold perform
  refine hload.bind_leaves ?_
  dsimp only
  refine (gives_inform t _).bind_leaves ?_
  have hevaluate : ∀ tree, Leaves (if o.evaluate then evaluate o s else pure ()) tree tree := by
    intro tree
    split
    · exact leaves_evaluate tree o s
    · exact (gives_pure tree ()).leaves
  have hrest : ∀ tree, Leaves (do
      if o.disassemble then printAssembly s
      if o.evaluate then evaluate o s) tree tree := by
    intro tree
    dsimp only
    split
    · exact (leaves_printAssembly tree s).bind fun _ => hevaluate tree
    · exact hevaluate tree
  split at hcompile
  · rw [if_pos ‹_›]
    exact hcompile.bind fun _ => hrest after
  · rw [if_neg ‹_›]
    rw [← hcompile ⟨"", []⟩]
    exact hrest t

end

end TokenSale.CommandLine
