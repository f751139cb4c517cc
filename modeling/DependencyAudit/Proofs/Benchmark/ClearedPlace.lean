import DependencyAudit.Benchmark.Project
import DependencyAudit.Proofs.Files.Writing

/-!
# The place of a project

A project is made in a place of its own, which is cleared first.  What stands there can be
removed if nothing of it lies too deep, whatever it is, and nothing of it is left then.
Otherwise the removal ends at the first entry that is too deep, and with it the making
of the project; but also then nothing elsewhere changes.
-/

namespace DependencyAudit.Benchmark

variable {limits : Limits} {tree : Tree}

/-- Nothing in the place of the project lies too deep to be removed. -/
def IsRemovable (limits : Limits) (tree : Tree) : Prop :=
  ∀ names node, tree.node? (projectLocation tree ++ names) = some node →
    names.length ≤ limits.removals

theorem projectLocation_congr {other : Tree}
    (h : other.workingDirectory = tree.workingDirectory) :
    projectLocation other = projectLocation tree := by
  rw [projectLocation, projectLocation, h]

theorem projectLocation_not_above (tree : Tree) :
    ¬ projectLocation tree <+: tree.workingDirectory := by
  intro hbelow
  have hlength := hbelow.length_le
  rw [projectLocation, List.length_append, List.length_singleton] at hlength
  omega

/-! ## A removal that succeeds -/

/-- What is left of a tree when the place of the project was cleared: there only the two
directories of the project, and elsewhere what was there before. -/
structure IsCleared (tree cleared : Tree) : Prop where
  workingDirectory : cleared.workingDirectory = tree.workingDirectory
  outside : ∀ place, ¬ projectLocation tree <+: place → cleared.node? place = tree.node? place
  inside : ∀ names, cleared.node? (projectLocation tree ++ names) =
    if names = [] ∨ names = ["src"] then some .directory else none

theorem exists_removeProject (h : IsRemovable limits tree) :
    ∃ removed, removeProject limits tree = ⟨removed, .ok ()⟩ ∧
      removed.workingDirectory = tree.workingDirectory ∧
      ∀ place, removed.node? place =
        if projectLocation tree <+: place then none else tree.node? place := by
  obtain ⟨removed, hremove, hremoved, hgone⟩ :=
    Tree.exists_remove? (by simp [projectLocation]) (projectLocation_not_above tree)
  refine ⟨removed, ?_, hremoved, hgone⟩
  simp only [removeProject, Tree.firstBeyond?_eq_none_iff.mpr h, hremove]
  rfl

theorem exists_clear (h : IsRemovable limits tree) :
    ∃ cleared, clear limits tree = ⟨cleared, .ok ()⟩ ∧ IsCleared tree cleared := by
  have hnames : isFileName projectName = true ∧ isFileName "src" = true := by
    constructor <;> cbv
  have hlocation : projectLocation tree = tree.workingDirectory ++ [projectName] := rfl
  obtain ⟨removed, hremove, hremoved, hgone⟩ := exists_removeProject h
  have hbase : removed.node? tree.workingDirectory = some .directory := by
    rw [hgone, if_neg (projectLocation_not_above tree), Tree.node?_workingDirectory]
  have hempty : removed.node? (tree.workingDirectory ++ [projectName]) = none := by
    rw [hgone, ← hlocation, if_pos List.prefix_rfl]
  obtain ⟨outer, houter, hadds⟩ := Tree.exists_makeDirectory? hbase hnames.1 hempty
  have hplace : outer.node? (projectLocation tree) = some .directory := by
    rw [hadds.node?_eq, hlocation, if_pos rfl]
  have hfree : outer.node? (projectLocation tree ++ ["src"]) = none := by
    rw [hadds.node?_eq, hlocation, if_neg (by simp), hgone, hlocation,
      if_pos (List.prefix_append ..)]
  obtain ⟨inner, hinner, hsources⟩ := Tree.exists_makeDirectory? hplace hnames.2 hfree
  have hmake : removed.makeDirectory? [] (projectLocation tree ++ ["src"]) = some inner := by
    have hexists : removed.makeDirectory? [] tree.workingDirectory = some removed :=
      Tree.makeDirectory?_of_exists hbase
    rw [hlocation, Tree.makeDirectory?_append, Tree.makeDirectory?_append, hexists,
      Option.bind_some, List.nil_append, houter, Option.bind_some, List.nil_append]
    exact hinner
  refine ⟨inner, ?_, ?_, ?_, ?_⟩
  · rw [clear, hremove, Effect.andThen_ok, hmake]
    rfl
  · rw [hsources.workingDirectory, hadds.workingDirectory, hremoved]
  · intro place houtside
    have hne : ∀ names, place ≠ projectLocation tree ++ names := by
      rintro names rfl
      exact houtside (List.prefix_append ..)
    have hhere : place ≠ projectLocation tree := by
      rw [← List.append_nil (projectLocation tree)]
      exact hne []
    rw [hsources.node?_eq, if_neg (hne ["src"]), hadds.node?_eq, ← hlocation, if_neg hhere,
      hgone, if_neg houtside]
  · intro names
    rw [hsources.node?_eq, hadds.node?_eq, hgone, if_pos (List.prefix_append ..), ← hlocation]
    by_cases hsrc : names = ["src"]
    · simp [hsrc]
    · by_cases hroot : names = []
      · simp [hroot]
      · simp [hsrc, hroot]

/-! ## A removal that ends early -/

/-- What is left of a tree when the removal of the project met something too deep: that is
still there, nothing is new, and nothing elsewhere is changed. -/
structure IsPartlyRemoved (limits : Limits) (tree left : Tree) : Prop where
  workingDirectory : left.workingDirectory = tree.workingDirectory
  outside : ∀ place, ¬ projectLocation tree <+: place → left.node? place = tree.node? place
  inside : ∀ place node, left.node? place = some node → tree.node? place = some node
  deep : ¬ IsRemovable limits left

theorem exists_removeProject_of_deep (h : ¬ IsRemovable limits tree) :
    ∃ left, removeProject limits tree = ⟨left, .error .removalTooDeep⟩ ∧
      IsPartlyRemoved limits tree left := by
  cases hstop : tree.firstBeyond? limits.removals (projectLocation tree) with
  | none => exact absurd (Tree.firstBeyond?_eq_none_iff.mp hstop) h
  | some stop =>
      obtain ⟨hdeep, node, hnode⟩ := Tree.deep_of_firstBeyond? hstop
      obtain ⟨left, hleft, hworking, hplaces⟩ :=
        Tree.exists_removeUpTo? (projectLocation_not_above tree) stop
      refine ⟨left, ?_, hworking, ?_, ?_, ?_⟩
      · simp only [removeProject, hstop, hleft, Option.getD_some]
      · intro place houtside
        rw [hplaces, if_neg fun hgone => houtside hgone.1]
      · intro place found hfound
        rw [hplaces] at hfound
        split at hfound
        · contradiction
        · exact hfound
      · intro hremovable
        have hkept : left.node? (projectLocation left ++ stop) = some node := by
          rw [projectLocation_congr hworking, hplaces, Tree.isLeft_self, if_neg (by simp), hnode]
        exact Nat.not_le.mpr hdeep (hremovable stop node hkept)

theorem exists_clear_of_deep (h : ¬ IsRemovable limits tree) :
    ∃ left, clear limits tree = ⟨left, .error .removalTooDeep⟩ ∧
      IsPartlyRemoved limits tree left := by
  obtain ⟨left, hleft, hremoved⟩ := exists_removeProject_of_deep h
  exact ⟨left, by rw [clear, hleft, Effect.andThen_error], hremoved⟩

/-! ## Directories one in another -/

def nestedPlace (depth : Nat) : Location := projectName :: List.replicate depth "d"

theorem length_nestedPlace (depth : Nat) : (nestedPlace depth).length = depth + 1 := by
  simp [nestedPlace]

def nestedNodes (depth : Nat) : List (Location × Node) :=
  (List.range (depth + 1)).map fun level => (nestedPlace level, .directory)

theorem mem_nestedNodes {depth : Nat} {entry : Location × Node} :
    entry ∈ nestedNodes depth ↔ ∃ level ≤ depth, entry = (nestedPlace level, .directory) := by
  simp [nestedNodes, eq_comm]

theorem nodup_nestedNodes (depth : Nat) : ((nestedNodes depth).map Prod.fst).Nodup := by
  rw [nestedNodes, List.map_map]
  refine List.nodup_range.map fun level other heq => ?_
  have hlength : (nestedPlace level).length = (nestedPlace other).length :=
    congrArg List.length heq
  rw [length_nestedPlace, length_nestedPlace] at hlength
  exact Nat.succ.inj hlength

theorem isFileName_of_nestedPlace {depth : Nat} :
    ∀ name ∈ nestedPlace depth, isFileName name = true := by
  have hnames : isFileName projectName = true ∧ isFileName "d" = true := by
    constructor <;> cbv
  intro name hname
  rw [nestedPlace, List.mem_cons, List.mem_replicate] at hname
  rcases hname with rfl | ⟨-, rfl⟩
  · exact hnames.1
  · exact hnames.2

theorem named_nestedNodes (depth : Nat) : ∀ entry ∈ nestedNodes depth,
    entry.1 ≠ [] ∧ ∀ name ∈ entry.1, isFileName name = true := by
  intro entry hentry
  obtain ⟨level, -, rfl⟩ := mem_nestedNodes.mp hentry
  exact ⟨List.cons_ne_nil _ _, isFileName_of_nestedPlace⟩

theorem closed_nestedNodes (depth : Nat) : ∀ entry ∈ nestedNodes depth,
    entry.1.dropLast = [] ∨ (entry.1.dropLast, Node.directory) ∈ nestedNodes depth := by
  intro entry hentry
  obtain ⟨level, hlevel, rfl⟩ := mem_nestedNodes.mp hentry
  cases level with
  | zero => exact Or.inl rfl
  | succ level =>
      have hparent : (nestedPlace (level + 1)).dropLast = nestedPlace level := by
        rw [nestedPlace, List.replicate_succ', ← List.cons_append, List.dropLast_concat]
        rfl
      rw [hparent]
      exact Or.inr (mem_nestedNodes.mpr ⟨level, Nat.le_of_succ_le hlevel, rfl⟩)

/-- The tree with directories one in another in the place of the project, and nothing else. -/
def nestedTree (depth : Nat) : Tree where
  nodes := nestedNodes depth
  workingDirectory := []
  unique := nodup_nestedNodes depth
  named := named_nestedNodes depth
  closed := closed_nestedNodes depth
  working_directory := Or.inl rfl

theorem node?_nestedTree {depth level : Nat} (h : level ≤ depth) :
    (nestedTree depth).node? (nestedPlace level) = some .directory := by
  rw [Tree.node?_eq_some_iff]
  exact Or.inr (mem_nestedNodes.mpr ⟨level, h, rfl⟩)

theorem not_file_nestedTree (depth : Nat) :
    ∀ bytes, (nestedTree depth).node? (projectLocation (nestedTree depth)) ≠
      some (.file bytes) := by
  intro bytes
  have hplace : projectLocation (nestedTree depth) = nestedPlace 0 := rfl
  rw [hplace, node?_nestedTree (Nat.zero_le depth)]
  simp

theorem not_isRemovable_nestedTree {depth : Nat} (h : limits.removals < depth) :
    ¬ IsRemovable limits (nestedTree depth) := by
  intro hremovable
  have hdepth := hremovable (List.replicate depth "d") .directory (node?_nestedTree le_rfl)
  rw [List.length_replicate] at hdepth
  omega

end DependencyAudit.Benchmark
