import DependencyAudit.Proofs.Source.SourceScan

/-!
# A scan looks at no bytes

Following a path and finding sources need to know where the directories and the files
of a tree are, and nothing of what the files hold.  So trees of the same shape lead
every path to the same place and have the same sources, and a scan that ends early
ends at the same place.
-/

namespace DependencyAudit

def Node.isDirectory : Node → Bool
  | .file _ => false
  | .directory => true

theorem Node.isDirectory_iff {node : Node} : node.isDirectory = true ↔ node = .directory := by
  cases node <;> simp [isDirectory]

/-- Two trees with directories and files in the same places. -/
structure Tree.SameShape (tree other : Tree) : Prop where
  workingDirectory : other.workingDirectory = tree.workingDirectory
  kind : ∀ place,
    (other.node? place).map Node.isDirectory = (tree.node? place).map Node.isDirectory

namespace Tree.SameShape

variable {tree other : Tree} {location place : Location}

theorem symm (h : tree.SameShape other) : other.SameShape tree :=
  ⟨h.workingDirectory.symm, fun place => (h.kind place).symm⟩

theorem exists_node (h : tree.SameShape other) {node : Node}
    (hnode : tree.node? place = some node) :
    ∃ found, other.node? place = some found ∧ (found = .directory ↔ node = .directory) := by
  have hkind := h.kind place
  rw [hnode, Option.map_some, Option.map_eq_some_iff] at hkind
  obtain ⟨found, hfound, hsame⟩ := hkind
  refine ⟨found, hfound, ?_⟩
  rw [← Node.isDirectory_iff, ← Node.isDirectory_iff, hsame]

theorem exists_file (h : tree.SameShape other) {bytes : List UInt8}
    (hnode : tree.node? place = some (.file bytes)) :
    ∃ held, other.node? place = some (.file held) := by
  obtain ⟨found, hfound, hkind⟩ := h.exists_node hnode
  cases found with
  | file held => exact ⟨held, hfound⟩
  | directory => exact absurd (hkind.mp rfl) (by simp)

theorem directory_iff (h : tree.SameShape other) (place : Location) :
    other.node? place = some .directory ↔ tree.node? place = some .directory := by
  constructor
  · intro hnode
    obtain ⟨found, hfound, hkind⟩ := h.symm.exists_node hnode
    rw [hfound, hkind.mpr rfl]
  · intro hnode
    obtain ⟨found, hfound, hkind⟩ := h.exists_node hnode
    rw [hfound, hkind.mpr rfl]

theorem node?_eq_none_iff (h : tree.SameShape other) (place : Location) :
    other.node? place = none ↔ tree.node? place = none := by
  rw [← Option.map_eq_none_iff (f := Node.isDirectory), h.kind, Option.map_eq_none_iff]

/-! ## Paths -/

theorem walk_of_not_directory {segment : String} {rest : List String}
    (h : tree.node? location ≠ some .directory) :
    tree.walk location (segment :: rest) = .error .notDirectory := by
  rw [walk]
  split
  · contradiction
  · rfl

theorem walk (h : tree.SameShape other) (location : Location) (segments : List String) :
    other.walk location segments = tree.walk location segments := by
  induction segments generalizing location with
  | nil => rfl
  | cons segment rest ih =>
      by_cases hdirectory : tree.node? location = some .directory
      · have hother := (h.directory_iff location).mpr hdirectory
        simp only [Tree.walk, hdirectory, hother, ih]
        split
        · rfl
        split
        · rfl
        · cases hnode : tree.node? (location ++ [segment]) with
          | none => rw [(h.node?_eq_none_iff _).mpr hnode]
          | some node =>
              obtain ⟨found, hfound, -⟩ := h.exists_node hnode
              rw [hfound]
      · have hother := mt (h.directory_iff location).mp hdirectory
        rw [walk_of_not_directory hdirectory, walk_of_not_directory hother]

theorem locate (h : tree.SameShape other) (path : Path) : other.locate path = tree.locate path := by
  simp only [Tree.locate, Tree.start, h.workingDirectory, h.walk]

theorem directory? (h : tree.SameShape other) (path : Path) :
    other.directory? path = tree.directory? path := by
  simp only [Tree.directory?, h.locate, h.directory_iff]

end Tree.SameShape

/-! ## Scans -/

namespace Source

variable {limits : Limits} {tree other : Tree} {root : Path} {location : Location}

theorem mem_eligibleBelow_of_sameShape (h : tree.SameShape other) {names : List String}
    (hmem : names ∈ eligibleBelow tree location) : names ∈ eligibleBelow other location := by
  obtain ⟨bytes, hbelow, hfile, heligible⟩ := mem_eligibleBelow.mp hmem
  obtain ⟨held, hheld⟩ := h.exists_file hfile
  exact mem_eligibleBelow.mpr ⟨held, hbelow, hheld, heligible⟩

theorem eligibleBelow_of_sameShape (h : tree.SameShape other) (location : Location) :
    eligibleBelow other location = eligibleBelow tree location := by
  refine (pairwise_eligibleBelow other location).eq_of_mem_iff
    (pairwise_eligibleBelow tree location) ?_
  intro names
  exact ⟨mem_eligibleBelow_of_sameShape h.symm, mem_eligibleBelow_of_sameShape h⟩

theorem mem_stops_of_sameShape (h : tree.SameShape other) {stop : List String}
    (hmem : stop ∈ stops limits tree root location) :
    stop ∈ stops limits other root location := by
  rw [mem_stops, mem_overlongVisits, mem_deepDescents] at hmem ⊢
  rcases hmem with ⟨names, node, hbelow, hnode, hlong, hvisit⟩ | ⟨names, hnode, hdeep, hstop⟩
  · obtain ⟨found, hfound, hkind⟩ := h.exists_node hnode
    have hsame : visit? names found = visit? names node := by
      simp only [visit?, hkind]
    exact Or.inl ⟨names, found, hbelow, hfound, hlong, hsame.trans hvisit⟩
  · exact Or.inr ⟨names, (h.directory_iff _).mpr hnode, hdeep, hstop⟩

theorem stops_of_sameShape (h : tree.SameShape other) (limits : Limits) (root : Path)
    (location : Location) :
    stops limits other root location = stops limits tree root location := by
  refine (pairwise_stops limits other root location).eq_of_mem_iff
    (pairwise_stops limits tree root location) ?_
  intro stop
  exact ⟨mem_stops_of_sameShape h.symm, mem_stops_of_sameShape h⟩

theorem files_of_sameShape (h : tree.SameShape other) (limits : Limits) (root : Path) :
    files limits other root = files limits tree root := by
  simp only [files, h.directory?, eligibleBelow_of_sameShape h, stops_of_sameShape h]

/-- What a collection finds is decided by the sources and by what is imported from each. -/
theorem usedPackages_congr (hfiles : files limits other root = files limits tree root)
    (himports : ∀ file, imports other file = imports tree file) (mode : Mode) :
    usedPackages limits other root mode = usedPackages limits tree root mode := by
  have hpackages : importedPackages other = importedPackages tree := by
    funext file
    rw [importedPackages, importedPackages, himports]
  have hcollect : ∀ sources, collect other sources = collect tree sources := by
    intro sources
    induction sources with
    | nil => rfl
    | cons file rest ih => simp only [collect, hpackages, ih]
  have hworker : workerResult other = workerResult tree := by
    funext file
    rw [workerResult, workerResult, hpackages]
  simp only [usedPackages, hfiles, hcollect, collectInParallel, hworker]

end Source

end DependencyAudit
