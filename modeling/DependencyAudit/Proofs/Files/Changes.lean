import DependencyAudit.Proofs.Files.Walk

/-!
# What a change leaves in a tree

A walk depends on what stands at the locations it meets, and on nothing else of the
tree.  So trees that list the same nodes in another order lead every path to the same
place, and a change that keeps every node, and lets files only grow at their end,
keeps the way to whatever could be reached before.  Writing a file at a new location
is such a change, and so is writing a file again with more bytes after the old ones.
-/

namespace DependencyAudit.Tree

variable {tree after : Tree} {location place : Location} {names : List String}
variable {bytes : List UInt8}

/-! ## The order of the nodes -/

theorem node?_eq_some_iff {node : Node} :
    tree.node? place = some node ↔
      (place = [] ∧ node = .directory) ∨ (place, node) ∈ tree.nodes := by
  constructor
  · exact mem_of_node?
  · rintro (⟨rfl, rfl⟩ | hmem)
    · exact node?_nil tree
    · exact node?_of_mem hmem

theorem node?_of_perm (h : after.nodes.Perm tree.nodes) (place : Location) :
    after.node? place = tree.node? place := by
  ext node
  rw [node?_eq_some_iff, node?_eq_some_iff, h.mem_iff]

theorem walk_congr (h : ∀ place, after.node? place = tree.node? place)
    (location : Location) (segments : List String) :
    after.walk location segments = tree.walk location segments := by
  induction segments generalizing location with
  | nil => rfl
  | cons segment rest ih => simp only [walk, h, ih]

theorem directory?_congr (h : ∀ place, after.node? place = tree.node? place)
    (hdirectory : after.workingDirectory = tree.workingDirectory) (path : Path) :
    after.directory? path = tree.directory? path := by
  have hlocate : after.locate path = tree.locate path := by
    simp only [locate, start, hdirectory, walk_congr h]
  simp only [directory?, hlocate, h]

/-! ## Changes that keep what is there -/

/-- Every node is kept, and a file may have more bytes at its end. -/
structure Grows (tree after : Tree) : Prop where
  workingDirectory : after.workingDirectory = tree.workingDirectory
  directory : ∀ {place}, tree.node? place = some .directory →
    after.node? place = some .directory
  file : ∀ {place bytes}, tree.node? place = some (.file bytes) →
    ∃ more, after.node? place = some (.file (bytes ++ more))

namespace Grows

theorem exists_node (h : Grows tree after) {node : Node}
    (hnode : tree.node? place = some node) : ∃ kept, after.node? place = some kept := by
  cases node with
  | directory => exact ⟨_, h.directory hnode⟩
  | file bytes =>
      obtain ⟨more, hfile⟩ := h.file hnode
      exact ⟨_, hfile⟩

theorem walk (h : Grows tree after) {segments : List String}
    (hwalk : tree.walk location segments = .ok place) :
    after.walk location segments = .ok place := by
  induction segments generalizing location with
  | nil => exact hwalk
  | cons segment rest ih =>
      simp only [Tree.walk] at hwalk ⊢
      split at hwalk
      · next hdirectory =>
          rw [h.directory hdirectory]
          simp only
          split
          · next hup =>
              rw [if_pos hup] at hwalk
              exact ih hwalk
          · next hdown =>
              rw [if_neg hdown] at hwalk
              split at hwalk
              · contradiction
              · next hshort =>
                  rw [if_neg hshort]
                  split at hwalk
                  · contradiction
                  · next node hnode =>
                      obtain ⟨kept, hkept⟩ := h.exists_node hnode
                      simp only [hkept]
                      exact ih hwalk
      · contradiction

theorem directory?_eq_some (h : Grows tree after) {path : Path}
    (hroot : tree.directory? path = .ok (some location)) :
    after.directory? path = .ok (some location) := by
  rw [directory?_eq_some_iff] at hroot ⊢
  obtain ⟨hnull, hlocate, hdirectory⟩ := hroot
  refine ⟨hnull, ?_, h.directory hdirectory⟩
  have hstart : after.start path = tree.start path := by
    simp only [start, h.workingDirectory]
  unfold locate at hlocate ⊢
  split at hlocate
  · contradiction
  · next hshort =>
      rw [if_neg hshort, hstart]
      exact h.walk hlocate

end Grows

/-! ## A file at a new location -/

theorem add?_eq_some {node : Node} (h : tree.add? place node = some after) :
    tree.node? place = none ∧ after.nodes = (place, node) :: tree.nodes ∧
      after.workingDirectory = tree.workingDirectory := by
  unfold add? at h
  split at h
  · next hnew =>
      rw [Option.some.injEq] at h
      subst h
      exact ⟨hnew.2.1, rfl, rfl⟩
  · contradiction

theorem node?_of_add? {node : Node} (h : tree.add? place node = some after)
    (other : Location) :
    after.node? other = if other = place then some node else tree.node? other := by
  obtain ⟨hnone, hnodes, -⟩ := add?_eq_some h
  have hroot : place ≠ [] := by
    rintro rfl
    simp [node?_nil] at hnone
  split
  · next heq =>
      subst heq
      exact node?_of_mem (by rw [hnodes]; exact List.mem_cons_self ..)
  · next hne =>
      ext found
      rw [node?_eq_some_iff, node?_eq_some_iff, hnodes, List.mem_cons, Prod.mk.injEq]
      simp [hne]

/-- A change adds a file, and at most directories besides it. -/
structure AddsFile (tree after : Tree) (place : Location) (bytes : List UInt8) : Prop where
  grows : Grows tree after
  file_iff : ∀ other found, after.node? other = some (.file found) ↔
    tree.node? other = some (.file found) ∨ (other = place ∧ found = bytes)

/-- A change adds directories. -/
structure AddsDirectories (tree after : Tree) : Prop where
  workingDirectory : after.workingDirectory = tree.workingDirectory
  kept : ∀ {place node}, tree.node? place = some node → after.node? place = some node
  added : ∀ {place node}, after.node? place = some node →
    tree.node? place = some node ∨ node = .directory

theorem AddsDirectories.refl (tree : Tree) : AddsDirectories tree tree :=
  ⟨rfl, id, Or.inl⟩

theorem AddsDirectories.trans {middle : Tree} (h : AddsDirectories tree middle)
    (hnext : AddsDirectories middle after) : AddsDirectories tree after := by
  refine ⟨hnext.workingDirectory.trans h.workingDirectory, fun hnode => hnext.kept (h.kept hnode),
    ?_⟩
  intro place node hnode
  rcases hnext.added hnode with hmiddle | hdirectory
  · exact h.added hmiddle
  · exact Or.inr hdirectory

theorem addsDirectories_of_add? (h : tree.add? place .directory = some after) :
    AddsDirectories tree after := by
  obtain ⟨hnone, -, hdirectory⟩ := add?_eq_some h
  refine ⟨hdirectory, ?_, ?_⟩
  · intro other node hnode
    rw [node?_of_add? h, if_neg]
    · exact hnode
    · rintro rfl
      simp [hnone] at hnode
  · intro other node hnode
    rw [node?_of_add? h] at hnode
    split at hnode
    · exact Or.inr (Option.some.inj hnode).symm
    · exact Or.inl hnode

theorem addsDirectories_of_makeDirectory? {base : Location}
    (h : tree.makeDirectory? base names = some after) : AddsDirectories tree after := by
  induction names generalizing tree base with
  | nil =>
      rw [makeDirectory?, Option.some.injEq] at h
      exact h ▸ .refl tree
  | cons name rest ih =>
      simp only [makeDirectory?] at h
      split at h
      · exact ih h
      · contradiction
      · split at h
        · contradiction
        · next made hmade => exact (addsDirectories_of_add? hmade).trans (ih h)

theorem addsFile_of_write? (hnew : tree.node? place = none)
    (h : tree.write? place bytes = some after) : AddsFile tree after place bytes := by
  simp only [write?, hnew] at h
  split at h
  · contradiction
  · next made hmade =>
      have hdirectories := addsDirectories_of_makeDirectory? hmade
      obtain ⟨hnone, -, hdirectory⟩ := add?_eq_some h
      have hkept : ∀ {other node}, tree.node? other = some node →
          after.node? other = some node := by
        intro other node hnode
        rw [node?_of_add? h, if_neg]
        · exact hdirectories.kept hnode
        · rintro rfl
          simp [hnew] at hnode
      refine ⟨⟨hdirectory.trans hdirectories.workingDirectory, hkept, ?_⟩, ?_⟩
      · intro other found hfile
        exact ⟨[], by rw [List.append_nil]; exact hkept hfile⟩
      · intro other found
        constructor
        · intro hfile
          rw [node?_of_add? h] at hfile
          split at hfile
          · next heq =>
              rw [Option.some.injEq, Node.file.injEq] at hfile
              exact Or.inr ⟨heq, hfile.symm⟩
          · rcases hdirectories.added hfile with hold | hdir
            · exact Or.inl hold
            · contradiction
        · rintro (hfile | ⟨rfl, rfl⟩)
          · exact hkept hfile
          · rw [node?_of_add? h, if_pos rfl]

/-! ## More bytes in a file -/

theorem node?_replace (tree : Tree) (place other : Location) (bytes : List UInt8) :
    (tree.replace place bytes).node? other =
      (tree.node? other).map fun node => (overwrite place bytes (other, node)).2 := by
  by_cases hroot : other = []
  · subst hroot
    rw [node?_nil, node?_nil]
    rfl
  · have hfind : ∀ nodes : List (Location × Node),
        (nodes.map (overwrite place bytes)).find? (fun entry => entry.1 = other) =
          (nodes.find? fun entry => entry.1 = other).map (overwrite place bytes) := by
      intro nodes
      simp [List.find?_map]
    rw [node?, node?, if_neg hroot, if_neg hroot, replace, hfind, Option.map_map, Option.map_map]
    cases hfound : tree.nodes.find? fun entry => entry.1 = other with
    | none => rfl
    | some entry =>
        have hentry := List.find?_some hfound
        simp only [decide_eq_true_eq] at hentry
        subst hentry
        rfl

theorem write?_of_file {old : List UInt8} (hold : tree.node? place = some (.file old))
    (bytes : List UInt8) : tree.write? place bytes = some (tree.replace place bytes) := by
  simp only [write?, hold]

theorem grows_replace {old : List UInt8} (hold : tree.node? place = some (.file old))
    (more : List UInt8) : Grows tree (tree.replace place (old ++ more)) := by
  refine ⟨rfl, ?_, ?_⟩
  · intro other hdirectory
    rw [node?_replace, hdirectory]
    rfl
  · intro other found hfile
    rw [node?_replace, hfile]
    simp only [Option.map_some, overwrite]
    by_cases heq : other = place
    · rw [heq, hold, Option.some.injEq, Node.file.injEq] at hfile
      exact ⟨more, by rw [if_pos heq, hfile]⟩
    · exact ⟨[], by rw [if_neg heq, List.append_nil]⟩

end DependencyAudit.Tree
