import DependencyAudit.Text.Parts

/-!
# File trees

A tree holds files and directories at locations, which are the lists of names
from the root.  It keeps four promises: no location occurs twice, every name is
one that a file may have, every node lies in a directory of the tree, and the
working directory is one of them.  The root is a directory of every tree and is
not listed.  The changes below keep the promises and fail where they cannot.
-/

namespace DependencyAudit

inductive Node where
  | file (bytes : List UInt8)
  | directory
  deriving DecidableEq, Repr

abbrev Location := List String

/-- The most bytes that the name of a file may have. -/
def maxNameBytes : Nat := 255

def isFileName (name : String) : Bool :=
  name ≠ "" && name ≠ "." && name ≠ ".." && !name.contains '/' &&
    !name.contains '\x00' && name.utf8ByteSize ≤ maxNameBytes

structure Tree where
  nodes : List (Location × Node)
  workingDirectory : Location
  unique : (nodes.map Prod.fst).Nodup
  named : ∀ entry ∈ nodes, entry.1 ≠ [] ∧ ∀ name ∈ entry.1, isFileName name = true
  closed : ∀ entry ∈ nodes,
    entry.1.dropLast = [] ∨ (entry.1.dropLast, Node.directory) ∈ nodes
  working_directory : workingDirectory = [] ∨ (workingDirectory, Node.directory) ∈ nodes

namespace Tree

def empty : Tree where
  nodes := []
  workingDirectory := []
  unique := List.nodup_nil
  named := by simp
  closed := by simp
  working_directory := Or.inl rfl

def node? (tree : Tree) (location : Location) : Option Node :=
  if location = [] then some .directory
  else (tree.nodes.find? fun entry => entry.1 = location).map Prod.snd

theorem mem_of_node? {tree : Tree} {location : Location} {node : Node}
    (h : tree.node? location = some node) :
    (location = [] ∧ node = .directory) ∨ (location, node) ∈ tree.nodes := by
  by_cases hroot : location = []
  · simp [node?, hroot] at h
    exact Or.inl ⟨hroot, h.symm⟩
  · rw [node?, if_neg hroot, Option.map_eq_some_iff] at h
    obtain ⟨entry, hentry, rfl⟩ := h
    have hmem := List.mem_of_find?_eq_some hentry
    have hlocation := List.find?_some hentry
    simp only [decide_eq_true_eq] at hlocation
    subst hlocation
    exact Or.inr hmem

theorem not_mem_of_node?_none {tree : Tree} {location : Location}
    (h : tree.node? location = none) : location ∉ tree.nodes.map Prod.fst := by
  by_cases hroot : location = []
  · simp [node?, hroot] at h
  · rw [node?, if_neg hroot, Option.map_eq_none_iff, List.find?_eq_none] at h
    intro hmem
    obtain ⟨entry, hentry, rfl⟩ := List.mem_map.mp hmem
    exact h entry hentry (by simp)

theorem directory_of_node? {tree : Tree} {location : Location}
    (h : tree.node? location = some .directory) :
    location = [] ∨ (location, Node.directory) ∈ tree.nodes := by
  rcases mem_of_node? h with ⟨hroot, _⟩ | hmem
  · exact Or.inl hroot
  · exact Or.inr hmem

/-- The tree with a new node in one of its directories. -/
def add? (tree : Tree) (location : Location) (node : Node) : Option Tree :=
  if h : (location ≠ [] ∧ ∀ name ∈ location, isFileName name = true) ∧
      tree.node? location = none ∧ tree.node? location.dropLast = some .directory then
    some {
      nodes := (location, node) :: tree.nodes
      workingDirectory := tree.workingDirectory
      unique := by
        rw [List.map_cons, List.nodup_cons]
        exact ⟨not_mem_of_node?_none h.2.1, tree.unique⟩
      named := by
        intro entry hentry
        rw [List.mem_cons] at hentry
        rcases hentry with rfl | hentry
        · exact h.1
        · exact tree.named entry hentry
      closed := by
        intro entry hentry
        rw [List.mem_cons] at hentry
        rcases hentry with rfl | hentry
        · exact (directory_of_node? h.2.2).imp_right (List.mem_cons_of_mem _)
        · exact (tree.closed entry hentry).imp_right (List.mem_cons_of_mem _)
      working_directory := tree.working_directory.imp_right (List.mem_cons_of_mem _) }
  else none

/-- The tree in which every directory along a list of names exists. -/
def makeDirectory? (tree : Tree) (base : Location) : List String → Option Tree
  | [] => some tree
  | name :: rest =>
    let here := base ++ [name]
    match tree.node? here with
    | some .directory => tree.makeDirectory? here rest
    | some (.file _) => none
    | none =>
      match tree.add? here .directory with
      | none => none
      | some tree => tree.makeDirectory? here rest

def overwrite (location : Location) (bytes : List UInt8) :
    Location × Node → Location × Node
  | (place, .file old) => (place, .file (if place = location then bytes else old))
  | (place, .directory) => (place, .directory)

@[simp] theorem overwrite_fst (location : Location) (bytes : List UInt8)
    (entry : Location × Node) : (overwrite location bytes entry).1 = entry.1 := by
  obtain ⟨place, node⟩ := entry
  cases node <;> rfl

theorem directory_mem_map_overwrite {location place : Location} {bytes : List UInt8}
    {nodes : List (Location × Node)} (h : (place, Node.directory) ∈ nodes) :
    (place, Node.directory) ∈ nodes.map (overwrite location bytes) :=
  List.mem_map.mpr ⟨(place, .directory), h, rfl⟩

/-- The tree in which a file, if there is one at the location, has other bytes. -/
def replace (tree : Tree) (location : Location) (bytes : List UInt8) : Tree where
  nodes := tree.nodes.map (overwrite location bytes)
  workingDirectory := tree.workingDirectory
  unique := by
    have hkeys : Prod.fst ∘ overwrite location bytes = Prod.fst := by
      funext entry
      simp
    rw [List.map_map, hkeys]
    exact tree.unique
  named := by
    intro entry hentry
    obtain ⟨old, hold, rfl⟩ := List.mem_map.mp hentry
    simpa using tree.named old hold
  closed := by
    intro entry hentry
    obtain ⟨old, hold, rfl⟩ := List.mem_map.mp hentry
    rw [overwrite_fst]
    exact (tree.closed old hold).imp_right directory_mem_map_overwrite
  working_directory := tree.working_directory.imp_right directory_mem_map_overwrite

/-- The tree with a file at a location, in directories made where they are
missing. -/
def write? (tree : Tree) (location : Location) (bytes : List UInt8) : Option Tree :=
  match tree.node? location with
  | some .directory => none
  | some (.file _) => some (tree.replace location bytes)
  | none =>
    match tree.makeDirectory? [] location.dropLast with
    | none => none
    | some tree => tree.add? location (.file bytes)

/-- The tree with those of its nodes that are kept.  What is kept has its parent kept with
it, and the working directory is kept. -/
def restrict (tree : Tree) (keeps : Location → Bool)
    (hparent : ∀ place, keeps place = true → keeps place.dropLast = true)
    (hworking : keeps tree.workingDirectory = true) : Tree where
  nodes := tree.nodes.filter fun entry => keeps entry.1
  workingDirectory := tree.workingDirectory
  unique := (List.filter_sublist.map Prod.fst).nodup tree.unique
  named := by
    intro entry hentry
    exact tree.named entry (List.mem_filter.mp hentry).1
  closed := by
    intro entry hentry
    obtain ⟨hmem, hkeep⟩ := List.mem_filter.mp hentry
    exact (tree.closed entry hmem).imp_right fun hdirectory =>
      List.mem_filter.mpr ⟨hdirectory, hparent entry.1 hkeep⟩
  working_directory := tree.working_directory.imp_right fun hmem =>
    List.mem_filter.mpr ⟨hmem, hworking⟩

def changeDirectory? (tree : Tree) (location : Location) : Option Tree :=
  if h : tree.node? location = some .directory then
    some { tree with
      workingDirectory := location
      working_directory := directory_of_node? h }
  else none

/-- What stands strictly below a location, each node with its location from
there. -/
def nodesBelow (tree : Tree) (location : Location) : List (List String × Node) :=
  tree.nodes.filterMap fun entry =>
    if location.isPrefixOf entry.1 && location.length < entry.1.length then
      some (entry.1.drop location.length, entry.2)
    else none

/-- The files strictly below a location, each with its location from there and
its bytes. -/
def filesBelow (tree : Tree) (location : Location) : List (List String × List UInt8) :=
  (tree.nodesBelow location).filterMap fun entry =>
    match entry.2 with
    | .directory => none
    | .file bytes => some (entry.1, bytes)

end Tree

end DependencyAudit
