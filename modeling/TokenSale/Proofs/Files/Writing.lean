import TokenSale.Files.Tree
import TokenSale.Proofs.Files.Paths

/-!
# What a write changes

A write changes the node at one place and no other, and this place was no directory: `Changes`. So every path leads
where it led before, and finds there what it found before unless this is the place: `Changes.locate`. Where a file is
found at a path, the path has a last name, and a path with another last name beside it is in the same directory:
`exists_last_of_locate`. So a write to the path beside that of a file changes the file exactly if both have one last
name: `read_write_beside`.
-/

namespace TokenSale.Files.FileTree

open TokenSale.Files.Path
open Text (byteLength byteLength_le_of_sublist)

variable {t after : FileTree} {p : Path}

/-! ## Where a path leads -/

theorem node?_tail {place : Place} (h : t.node? place ≠ none) : t.node? place.tail = some .directory := by
  cases place with
  | nil => rfl
  | cons name place => exact t.closed name place h

theorem follow_eq_ok {place found : Place} {name : Name} {node : Node}
    (h : t.follow place name = .ok (found, node)) :
    byteLength name ≤ maxNameLength ∧ found = step place name ∧ t.node? found = some node := by
  unfold follow at h
  split at h
  · cases h
  · next hlength =>
    cases hnode : t.node? (step place name) with
    | none =>
      rw [hnode] at h
      cases h
    | some there =>
      rw [hnode] at h
      cases h
      exact ⟨Nat.le_of_not_lt hlength, rfl, hnode⟩

theorem follow_of_node? {place : Place} {name : Name} {node : Node} (hlength : byteLength name ≤ maxNameLength)
    (h : t.node? (step place name) = some node) : t.follow place name = .ok (step place name, node) := by
  rw [follow, if_neg (Nat.not_lt.mpr hlength), h]

theorem lookup_append (first rest : List Name) (found : Place × Node) :
    t.lookup found (first ++ rest) = (t.lookup found first).bind fun reached => t.lookup reached rest := by
  induction first generalizing found with
  | nil =>
    rw [List.nil_append, lookup]
    rfl
  | cons name first ih =>
    obtain ⟨place, _ | _ | _⟩ := found
    · rw [List.cons_append, lookup, lookup]
      cases t.follow place name with
      | error cause => rfl
      | ok next => exact ih next
    · rfl
    · rfl

/-- Only a directory leads on. -/
theorem lookup_concat_eq_ok_iff {start found : Place × Node} {names : List Name} {last : Name} :
    t.lookup start (names ++ [last]) = .ok found ↔
      ∃ outer, t.lookup start names = .ok (outer, .directory) ∧ t.follow outer last = .ok found := by
  rw [lookup_append]
  constructor
  · intro h
    cases hnames : t.lookup start names with
    | error cause =>
      rw [hnames] at h
      cases h
    | ok reached =>
      rw [hnames] at h
      obtain ⟨outer, _ | _ | _⟩ := reached
      · refine ⟨outer, rfl, ?_⟩
        change t.lookup (outer, .directory) [last] = .ok found at h
        rw [lookup] at h
        cases hfollow : t.follow outer last with
        | error cause =>
          rw [hfollow] at h
          cases h
        | ok next =>
          rw [hfollow] at h
          change t.lookup next [] = .ok found at h
          rwa [lookup] at h
      · cases h
      · cases h
  · rintro ⟨outer, hnames, hfollow⟩
    rw [hnames]
    show t.lookup (outer, .directory) [last] = .ok found
    rw [lookup, hfollow]
    show t.lookup found [] = .ok found
    rw [lookup]

theorem node?_of_lookup {start found : Place} {first node : Node} {names : List Name}
    (hstart : t.node? start = some first) (h : t.lookup (start, first) names = .ok (found, node)) :
    t.node? found = some node := by
  induction names using List.reverseRecOn generalizing found node with
  | nil =>
    cases h
    exact hstart
  | append_singleton names last ih =>
    obtain ⟨outer, -, hfollow⟩ := lookup_concat_eq_ok_iff.mp h
    exact (follow_eq_ok hfollow).2.2

theorem node?_origin (t : FileTree) (p : Path) : t.node? (t.origin p) = some .directory := by
  unfold origin
  cases p.start with
  | root => rfl
  | here => exact t.here_directory
  | plain => exact t.here_directory

theorem locate_eq_ok {found : Place × Node} (h : t.locate p = .ok found) :
    pathFault? p = none ∧ t.lookup (t.origin p, .directory) p.names = .ok found := by
  unfold locate at h
  cases hfault : pathFault? p with
  | some cause =>
    rw [hfault] at h
    cases h
  | none =>
    rw [hfault] at h
    exact ⟨rfl, h⟩

/-- Names that stay where they are lead nowhere else. -/
theorem lookup_trimEnd {start : Place × Node} {names : List Name} {outer : Place}
    (h : t.lookup start names = .ok (outer, .directory)) :
    t.lookup start (trimEnd names) = .ok (outer, .directory) := by
  induction names using List.reverseRecOn generalizing outer with
  | nil => exact h
  | append_singleton names last ih =>
    cases hidle : isIdle last with
    | false => rwa [trimEnd_append_of_not_idle names hidle]
    | true =>
      obtain ⟨place, hplace, hfollow⟩ := lookup_concat_eq_ok_iff.mp h
      have hstep : outer = place := by
        rw [(follow_eq_ok hfollow).2.1, step, if_pos hidle]
      rw [trimEnd_append_of_idle names hidle, hstep]
      exact ih hplace

theorem step_of_descends {place : Place} {name : Name} (h : Descends name) : step place name = name :: place := by
  rw [step, if_neg (Bool.eq_false_iff.mp h.1), if_neg h.2]

/-- A path to what is no directory has a last name, which leads there from the directory before it. -/
theorem exists_last_of_locate {place : Place} {node : Node} (h : t.locate p = .ok (place, node))
    (hnode : node ≠ .directory) :
    ∃ names last outer, p.names = names ++ [last] ∧ Descends last ∧ byteLength last ≤ maxNameLength ∧
      place = last :: outer ∧ t.lookup (t.origin p, .directory) names = .ok (outer, .directory) ∧
      t.node? place = some node := by
  have hlookup := (locate_eq_ok h).2
  rcases List.eq_nil_or_concat' p.names with hnames | ⟨names, last, hnames⟩
  · rw [hnames] at hlookup
    cases hlookup
    exact absurd rfl hnode
  · rw [hnames] at hlookup
    obtain ⟨outer, houter, hfollow⟩ := lookup_concat_eq_ok_iff.mp hlookup
    obtain ⟨hlength, rfl, hthere⟩ := follow_eq_ok hfollow
    have houter' : t.node? outer = some .directory := node?_of_lookup (node?_origin t p) houter
    have hlast : Descends last := by
      refine ⟨Bool.eq_false_iff.mpr fun hidle => hnode ?_, fun hdots => hnode ?_⟩
      · rw [step, if_pos hidle, houter'] at hthere
        exact (Option.some.inj hthere).symm
      · subst hdots
        have htail : t.node? outer.tail = some .directory := node?_tail fun hnone => by
          rw [hnone] at houter'
          cases houter'
        have hstep : step outer ['.', '.'] = outer.tail := rfl
        rw [hstep, htail] at hthere
        exact (Option.some.inj hthere).symm
    exact ⟨names, last, outer, hnames, hlast, hlength, step_of_descends hlast, houter, hthere⟩

/-! ## What is read -/

/-- What is read at a path is the content of the file there, and nothing at a sink. -/
theorem read_eq_ok {bytes : List UInt8} (h : t.read p = .ok bytes) :
    ∃ place there, t.locate p = .ok (place, there) ∧ (there = .file bytes ∨ there = .sink) := by
  unfold read at h
  cases hlocate : t.locate p with
  | error cause =>
    rw [hlocate] at h
    cases h
  | ok found =>
    rw [hlocate] at h
    obtain ⟨place, _ | _ | _⟩ := found
    · cases h
    · cases h
      exact ⟨place, _, rfl, .inl rfl⟩
    · exact ⟨place, _, rfl, .inr rfl⟩

theorem read_of_locate_file {place : Place} {bytes : List UInt8} (h : t.locate p = .ok (place, .file bytes)) :
    t.read p = .ok bytes := by
  rw [read, h]
  rfl

theorem read_of_locate_eq (h : after.locate p = t.locate p) : after.read p = t.read p := by
  rw [read, read, h]

theorem pathExists_of_read {bytes : List UInt8} (h : t.read p = .ok bytes) : t.pathExists p = true := by
  obtain ⟨place, there, hlocate, -⟩ := read_eq_ok h
  rw [pathExists, hlocate]
  rfl

/-! ## A node that is put somewhere -/

/-- One tree after another, with a node at a place where there was no directory, and nothing else changed. -/
structure Changes (t after : FileTree) (place : Place) (node : Node) : Prop where
  here_eq : after.here = t.here
  node?_eq : ∀ other, after.node? other = if other = place then some node else t.node? other
  not_directory : t.node? place ≠ some .directory

namespace Changes

variable {place : Place} {node : Node}

theorem of_nodes_eq {outer : Place} {name : Name} (hnodes : after.nodes = t.nodes.set (name :: outer) node)
    (hhere : after.here = t.here) (h : t.node? (name :: outer) ≠ some .directory) :
    Changes t after (name :: outer) node where
  here_eq := hhere
  node?_eq other := by
    rw [node?, hnodes]
    split
    · next hother =>
      rw [hother]
      exact Table.get?_set_self t.nodes (name :: outer) node
    · next hother => exact nodeIn_set_of_ne node hother
  not_directory := h

theorem node?_eq_of_directory (h : Changes t after place node) {other : Place}
    (hother : t.node? other = some .directory) : other ≠ place ∧ after.node? other = some .directory := by
  have hne : other ≠ place := by
    rintro rfl
    exact h.not_directory hother
  exact ⟨hne, by rw [h.node?_eq, if_neg hne, hother]⟩

theorem lookup {start found : Place} {there : Node} {names : List Name} (h : Changes t after place node)
    (hstart : t.node? start = some .directory) (hlookup : t.lookup (start, .directory) names = .ok (found, there)) :
    after.lookup (start, .directory) names = .ok (found, if found = place then node else there) := by
  induction names using List.reverseRecOn generalizing found there with
  | nil =>
    cases hlookup
    rw [FileTree.lookup, if_neg (h.node?_eq_of_directory hstart).1]
  | append_singleton names last ih =>
    -- All names but the last lead through directories, and no directory is changed.
    obtain ⟨outer, houter, hfollow⟩ := lookup_concat_eq_ok_iff.mp hlookup
    obtain ⟨hlength, rfl, hthere⟩ := follow_eq_ok hfollow
    have hkept := ih houter
    rw [if_neg (h.node?_eq_of_directory (node?_of_lookup hstart houter)).1] at hkept
    refine lookup_concat_eq_ok_iff.mpr ⟨outer, hkept, follow_of_node? hlength ?_⟩
    rw [h.node?_eq, hthere]
    exact (apply_ite some _ _ _).symm

theorem locate {found : Place} {there : Node} (h : Changes t after place node)
    (hlocate : t.locate p = .ok (found, there)) :
    after.locate p = .ok (found, if found = place then node else there) := by
  obtain ⟨hfault, hlookup⟩ := locate_eq_ok hlocate
  have horigin : after.origin p = t.origin p := by rw [origin, origin, h.here_eq]
  rw [FileTree.locate, hfault, horigin]
  exact h.lookup (node?_origin t p) hlookup

end Changes

/-- A put that succeeds changes nothing if there is a sink, and the node at its place otherwise. -/
theorem put_eq_ok {outer : Place} {name : Name} {node : Node} (h : t.put outer name node = .ok after) :
    (t.node? (name :: outer) = some .sink ∧ after = t) ∨
      (t.node? (name :: outer) ≠ some .sink ∧ Changes t after (name :: outer) node) := by
  unfold put at h
  split at h
  · cases h
  · split at h
    · cases h
    · cases h
    · cases h
    · split at h
      · cases h
      · next hsink =>
        cases h
        exact .inl ⟨hsink, rfl⟩
      · next hnone =>
        cases h
        refine .inr ⟨?_, .of_nodes_eq rfl rfl ?_⟩
        · rw [hnone]
          exact nofun
        · rw [hnone]
          exact nofun
      · next hfile =>
        cases h
        refine .inr ⟨?_, .of_nodes_eq rfl rfl ?_⟩
        · rw [hfile]
          exact nofun
        · rw [hfile]
          exact nofun

/-- A file is written over. -/
theorem exists_put_of_file {outer : Place} {name : Name} {old : List UInt8} (node : Node)
    (hlength : byteLength name ≤ maxNameLength) (h : t.node? (name :: outer) = some (.file old)) :
    ∃ after, t.put outer name node = .ok after := by
  have hnode : t.node? (name :: outer) ≠ none := by
    rw [h]
    exact nofun
  have houter : t.node? outer = some .directory := node?_tail hnode
  unfold put
  rw [if_neg (Nat.not_lt.mpr hlength)]
  split
  · next hnone => rw [houter] at hnone; cases hnone
  · next hfile => rw [houter] at hfile; cases hfile
  · next hsink => rw [houter] at hsink; cases hsink
  · split
    · next hdirectory => rw [h] at hdirectory; cases hdirectory
    · next hsink => rw [h] at hsink; cases hsink
    · exact ⟨_, rfl⟩
    · exact ⟨_, rfl⟩

/-! ## A write -/

theorem dropEmptyEnd_append {names : List Name} {last : Name} (h : last ≠ []) :
    dropEmptyEnd (names ++ [last]) = names ++ [last] :=
  List.rdropWhile_concat_neg _ names last fun hlast => h (of_decide_eq_true hlast)

theorem ne_nil_of_descends {name : Name} (h : Descends name) : name ≠ [] := by
  rintro rfl
  cases h.1

/-- A write to a path with a last name puts a file of this name into the directory before it. -/
theorem write_eq {names : List Name} {last : Name} (bytes : List UInt8) (hfault : pathFault? p = none)
    (hnames : p.names = names ++ [last]) (hlast : Descends last) :
    t.write p bytes = (t.lookup (t.origin p, .directory) names).bind fun reached =>
      if reached.2 = .directory then t.put reached.1 last (.file bytes) else .error .notDirectory := by
  have hdot : last ≠ ['.'] := by
    rintro rfl
    cases hlast.1
  rw [write, hfault, hnames, dropEmptyEnd_append (ne_nil_of_descends hlast)]
  dsimp only
  rw [List.getLast?_concat, List.dropLast_concat]
  dsimp only
  cases t.lookup (t.origin p, .directory) names with
  | error cause => rfl
  | ok reached =>
    obtain ⟨outer, node⟩ := reached
    show (if node ≠ .directory then _ else if _ then _ else t.put outer last (.file bytes)) =
      if node = .directory then _ else _
    by_cases hdirectory : node = .directory
    · rw [if_neg (not_not_intro hdirectory), if_pos hdirectory, if_neg]
      rintro (hnames | hlast' | hlast')
      · exact hnames rfl
      · exact hdot hlast'
      · exact hlast.2 hlast'
    · rw [if_pos hdirectory, if_neg hdirectory]
      rfl

theorem pathFault?_of_write {bytes : List UInt8} (h : t.write p bytes = .ok after) : pathFault? p = none := by
  unfold write at h
  cases hfault : pathFault? p with
  | none => rfl
  | some cause =>
    rw [hfault] at h
    cases h

theorem put_of_write {bytes : List UInt8} {names : List Name} {last : Name} {outer : Place}
    (h : t.write p bytes = .ok after) (hnames : p.names = names ++ [last]) (hlast : Descends last)
    (houter : t.lookup (t.origin p, .directory) names = .ok (outer, .directory)) :
    t.put outer last (.file bytes) = .ok after := by
  rw [write_eq bytes (pathFault?_of_write h) hnames hlast, houter] at h
  exact h

/-! ## A file and the path beside it -/

/-- Nothing is wrong with a path that has some of the names of a path with which nothing is wrong. -/
theorem pathFault?_eq_none_of_sublist {few : List Name} (hfew : few.Sublist p.names)
    (hempty : { p with names := few } ≠ Path.empty) (h : pathFault? p = none) :
    pathFault? { p with names := few } = none := by
  have hchars : (Path.chars { p with names := few }).Sublist p.chars := chars_sublist p.start hfew
  unfold pathFault? at h ⊢
  split at h
  · cases h
  · next hnul =>
    rw [if_neg fun hmem => hnul (hchars.subset hmem), if_neg hempty, if_neg]
    split at h
    · cases h
    · split at h
      · cases h
      · next hlength =>
        exact fun hlong => hlength (Nat.lt_of_lt_of_le hlong (byteLength_le_of_sublist hchars))

section

variable {extension : String} {bytes : List UInt8} {place : Place} {there : Node}

/-- A write beside what is no directory is a put beside it. -/
theorem put_of_write_beside {names : List Name} {last : Name} {outer : Place} (hextension : IsExtension extension)
    (hnames : p.names = names ++ [last]) (hlast : Descends last)
    (houter : t.lookup (t.origin p, .directory) names = .ok (outer, .directory))
    (hwrite : t.write (p.withExtension extension) bytes = .ok after) :
    t.put outer (stem last ++ '.' :: extension.toList) (.file bytes) = .ok after := by
  rw [withExtension_of_descends hnames hlast] at hwrite
  exact put_of_write hwrite rfl (descends_append hextension _) (lookup_trimEnd houter)

/-- What is found at a path is still there after a write beside it, if it is a sink or has another extension. -/
theorem locate_of_write_beside (hextension : IsExtension extension) (h : t.locate p = .ok (place, there))
    (hthere : there ≠ .directory) (hother : there = .sink ∨ ¬ p.HasExtension extension)
    (hwrite : t.write (p.withExtension extension) bytes = .ok after) : after.locate p = t.locate p := by
  obtain ⟨names, last, outer, hnames, hlast, -, rfl, houter, hnode⟩ := exists_last_of_locate h hthere
  rcases put_eq_ok (put_of_write_beside hextension hnames hlast houter hwrite) with ⟨-, rfl⟩ | ⟨hsink, hchanges⟩
  · rfl
  · rw [hchanges.locate h, if_neg, h]
    intro hsame
    have hown : stem last ++ '.' :: extension.toList = last := (List.cons.inj hsame).1.symm
    rcases hother with rfl | hother
    · rw [hown] at hsink
      exact hsink hnode
    · exact hother ((hasExtension_iff hextension hnames hlast).mpr hown)

/-- A file that has the extension is written over by a write beside it, which succeeds. -/
theorem exists_write_beside {old : List UInt8} (bytes : List UInt8) (hextension : IsExtension extension)
    (h : t.locate p = .ok (place, .file old)) (hown : p.HasExtension extension) :
    ∃ after, t.write (p.withExtension extension) bytes = .ok after ∧ after.locate p = .ok (place, .file bytes) := by
  obtain ⟨names, last, outer, hnames, hlast, hlength, rfl, houter, hnode⟩ := exists_last_of_locate h nofun
  have hname := (hasExtension_iff hextension hnames hlast).mp hown
  have htarget := withExtension_of_descends hnames hlast extension
  rw [hname] at htarget
  have hfault : pathFault? (p.withExtension extension) = none := by
    rw [htarget]
    refine pathFault?_eq_none_of_sublist ?_ ?_ (locate_eq_ok h).1
    · rw [hnames]
      exact (trimEnd_sublist names).append (List.Sublist.refl [last])
    · intro hempty
      exact List.append_ne_nil_of_right_ne_nil _ (List.cons_ne_nil last []) (congrArg Path.names hempty)
  obtain ⟨after, hput⟩ := exists_put_of_file (.file bytes) hlength hnode
  have hwrite : t.write (p.withExtension extension) bytes = .ok after := by
    rw [write_eq bytes hfault (by rw [htarget]) hlast, htarget]
    have hlookup : t.lookup (t.origin p, .directory) (trimEnd names) = .ok (outer, .directory) :=
      lookup_trimEnd houter
    show (t.lookup (t.origin p, .directory) (trimEnd names)).bind _ = _
    rw [hlookup]
    exact hput
  refine ⟨after, hwrite, ?_⟩
  rcases put_eq_ok hput with ⟨hsink, -⟩ | ⟨-, hchanges⟩
  · rw [hnode] at hsink
    cases hsink
  · rw [hchanges.locate h, if_pos rfl]

/-- The directory of the path beside what is found at a path exists. -/
theorem pathExists_parent_beside {parent : Path} (hextension : IsExtension extension)
    (h : t.locate p = .ok (place, there)) (hthere : there ≠ .directory)
    (hparent : (p.withExtension extension).parent? = some parent) (hempty : parent ≠ .empty) :
    t.pathExists parent = true := by
  obtain ⟨names, last, outer, hnames, hlast, -, -, houter, -⟩ := exists_last_of_locate h hthere
  rw [withExtension_of_descends hnames hlast, parent?_of_descends rfl (descends_append hextension _),
    trimEnd_trimEnd] at hparent
  cases hparent
  have hfault : pathFault? { p with names := trimEnd names } = none := by
    refine pathFault?_eq_none_of_sublist ?_ hempty (locate_eq_ok h).1
    rw [hnames]
    exact (trimEnd_sublist names).trans (List.sublist_append_left names [last])
  have hlocate : t.locate { p with names := trimEnd names } = .ok (outer, .directory) := by
    rw [locate, hfault]
    exact lookup_trimEnd houter
  rw [pathExists, hlocate]
  rfl

end

end TokenSale.Files.FileTree
