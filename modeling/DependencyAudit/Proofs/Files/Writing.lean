import DependencyAudit.Files.Removal
import DependencyAudit.Proofs.Files.Changes

/-!
# Changes that succeed

A change of a tree fails only where the tree cannot keep its promises.  A node can be
added in any directory of the tree under a name that a file may have, when nothing has
that name there; directories that exist are made again without a change; and a place
can be cleared when the working directory is not within it.  Each lemma says that the
change is made and what stands at every place afterwards.  A removal that ends early
is made up to the first entry that lies too deep.
-/

namespace DependencyAudit.Tree

variable {tree : Tree} {directory : Location} {name : String}

/-- One node is new, and nothing else differs. -/
structure AddsNode (tree after : Tree) (place : Location) (node : Node) : Prop where
  workingDirectory : after.workingDirectory = tree.workingDirectory
  node?_eq : ∀ other, after.node? other = if other = place then some node else tree.node? other

theorem AddsNode.of_add? {after : Tree} {place : Location} {node : Node}
    (h : tree.add? place node = some after) : AddsNode tree after place node :=
  ⟨(add?_eq_some h).2.2, node?_of_add? h⟩

theorem AddsNode.node?_eq_some_iff {after : Tree} {place other : Location} {node found : Node}
    (h : AddsNode tree after place node) (hnew : tree.node? place = none) :
    after.node? other = some found ↔
      tree.node? other = some found ∨ (other = place ∧ found = node) := by
  rw [h.node?_eq]
  by_cases hplace : other = place
  · rw [if_pos hplace, hplace, hnew]
    simp [eq_comm]
  · simp [hplace]

theorem exists_add? (hdirectory : tree.node? directory = some .directory)
    (hname : isFileName name = true) (hnew : tree.node? (directory ++ [name]) = none)
    (node : Node) : ∃ after, tree.add? (directory ++ [name]) node = some after := by
  have hnames : ∀ other ∈ directory ++ [name], isFileName other = true := by
    intro other hother
    rcases List.mem_append.mp hother with hother | hother
    · exact isFileName_of_node? hdirectory other hother
    · rwa [List.mem_singleton.mp hother]
  have hparent : tree.node? (directory ++ [name]).dropLast = some .directory := by
    rwa [List.dropLast_concat]
  unfold add?
  rw [dif_pos ⟨⟨by simp, hnames⟩, hnew, hparent⟩]
  exact ⟨_, rfl⟩

/-! ## Directories -/

theorem makeDirectory?_of_exists {base names : Location}
    (h : tree.node? (base ++ names) = some .directory) :
    tree.makeDirectory? base names = some tree := by
  induction names generalizing base with
  | nil => rfl
  | cons name rest ih =>
      have hnext : tree.node? (base ++ [name] ++ rest) = some .directory := by
        rwa [List.append_assoc, List.singleton_append]
      have hhere : tree.node? (base ++ [name]) = some .directory := by
        by_cases hrest : rest = []
        · subst hrest
          exact h
        · exact directory_of_append hrest hnext
      simp only [makeDirectory?, hhere, ih hnext]

theorem makeDirectory?_append (base first second : Location) :
    tree.makeDirectory? base (first ++ second) =
      (tree.makeDirectory? base first).bind
        fun made => made.makeDirectory? (base ++ first) second := by
  induction first generalizing tree base with
  | nil => simp [makeDirectory?]
  | cons name rest ih =>
      simp only [List.cons_append, makeDirectory?]
      split
      · rw [ih, List.append_assoc, List.singleton_append]
      · rfl
      · split
        · rfl
        · rw [ih, List.append_assoc, List.singleton_append]

theorem exists_makeDirectory? (hdirectory : tree.node? directory = some .directory)
    (hname : isFileName name = true) (hnew : tree.node? (directory ++ [name]) = none) :
    ∃ after, tree.makeDirectory? directory [name] = some after ∧
      AddsNode tree after (directory ++ [name]) .directory := by
  obtain ⟨after, hadd⟩ := exists_add? hdirectory hname hnew .directory
  refine ⟨after, ?_, AddsNode.of_add? hadd⟩
  simp only [makeDirectory?, hnew, hadd]

/-! ## Files -/

theorem exists_write?_new (hdirectory : tree.node? directory = some .directory)
    (hname : isFileName name = true) (hnew : tree.node? (directory ++ [name]) = none)
    (bytes : List UInt8) :
    ∃ after, tree.write? (directory ++ [name]) bytes = some after ∧
      AddsNode tree after (directory ++ [name]) (.file bytes) := by
  obtain ⟨after, hadd⟩ := exists_add? hdirectory hname hnew (.file bytes)
  refine ⟨after, ?_, AddsNode.of_add? hadd⟩
  have hmade : tree.makeDirectory? [] directory = some tree := makeDirectory?_of_exists hdirectory
  simp only [write?, hnew, List.dropLast_concat, hmade, hadd]

theorem isFileName_of_add? {after : Tree} {place : Location} {node : Node}
    (h : tree.add? place node = some after) : ∀ name ∈ place, isFileName name = true := by
  unfold add? at h
  split at h
  · next hnew => exact hnew.1.2
  · contradiction

/-- A file can only be written under names that a file may have. -/
theorem isFileName_of_write? {after : Tree} {place : Location} {bytes : List UInt8}
    (h : tree.write? place bytes = some after) : ∀ name ∈ place, isFileName name = true := by
  unfold write? at h
  split at h
  · contradiction
  · next old hold => exact isFileName_of_node? hold
  · split at h
    · contradiction
    · exact isFileName_of_add? h

/-! ## Clearing a place -/

section

variable {keeps : Location → Bool}
variable (hparent : ∀ place, keeps place = true → keeps place.dropLast = true)
include hparent

theorem keeps_nil {place : Location} (h : keeps place = true) : keeps [] = true := by
  induction place using List.reverseRecOn with
  | nil => exact h
  | append_singleton names name ih =>
      have hnames := hparent _ h
      rw [List.dropLast_concat] at hnames
      exact ih hnames

theorem node?_restrict (hworking : keeps tree.workingDirectory = true) (place : Location) :
    (tree.restrict keeps hparent hworking).node? place =
      if keeps place then tree.node? place else none := by
  have hroot : keeps [] = true := keeps_nil hparent hworking
  ext node
  rw [node?_eq_some_iff]
  simp only [restrict, List.mem_filter]
  cases hkept : keeps place with
  | true => simp [node?_eq_some_iff]
  | false =>
      have hne : place ≠ [] := by
        rintro rfl
        rw [hroot] at hkept
        contradiction
      simp [hne]

end

theorem exists_remove? {place : Location} (hplace : place ≠ [])
    (houtside : ¬ place <+: tree.workingDirectory) :
    ∃ after, tree.remove? place = some after ∧
      after.workingDirectory = tree.workingDirectory ∧
      ∀ other, after.node? other = if place <+: other then none else tree.node? other := by
  have hallowed : place.isPrefixOf tree.workingDirectory = false ∧ place ≠ [] := by
    rw [← Bool.not_eq_true, List.isPrefixOf_iff_prefix]
    exact ⟨houtside, hplace⟩
  unfold remove?
  rw [dif_pos hallowed]
  refine ⟨_, rfl, rfl, ?_⟩
  intro other
  rw [node?_restrict]
  by_cases hbelow : place <+: other
  · simp [hbelow]
  · simp [hbelow]

theorem firstBeyond?_eq_none_iff {levels : Nat} {place : Location} :
    tree.firstBeyond? levels place = none ↔
      ∀ names node, tree.node? (place ++ names) = some node → names.length ≤ levels := by
  rw [firstBeyond?, List.head?_eq_none_iff, List.eq_nil_iff_forall_not_mem]
  simp only [Ascending.mem_ofList, List.mem_filter, List.mem_map, decide_eq_true_eq]
  constructor
  · intro h names node hnode
    by_contra hdeep
    have hnames : names ≠ [] := List.ne_nil_of_length_pos (by omega)
    exact h names ⟨⟨(names, node), mem_nodesBelow.mpr ⟨hnames, hnode⟩, rfl⟩, by omega⟩
  · rintro h names ⟨⟨⟨below, node⟩, hmem, rfl⟩, hdeep⟩
    have hshort := h below node (mem_nodesBelow.mp hmem).2
    simp only at hdeep
    omega

theorem deep_of_firstBeyond? {levels : Nat} {place : Location} {stop : List String}
    (h : tree.firstBeyond? levels place = some stop) :
    levels < stop.length ∧ ∃ node, tree.node? (place ++ stop) = some node := by
  have hmem := List.mem_of_head? h
  simp only [Ascending.mem_ofList, List.mem_filter, List.mem_map, decide_eq_true_eq] at hmem
  obtain ⟨⟨⟨below, node⟩, hbelow, rfl⟩, hdeep⟩ := hmem
  exact ⟨hdeep, node, (mem_nodesBelow.mp hbelow).2⟩

theorem isLeft_self (place : Location) : isLeft place place = true :=
  isLeft_iff.mpr fun _ => List.prefix_rfl

/-- What a removal that ends at an entry leaves of the place and what lies below it. -/
theorem exists_removeUpTo? {place : Location} (houtside : ¬ place <+: tree.workingDirectory)
    (stop : List String) :
    ∃ after, tree.removeUpTo? place stop = some after ∧
      after.workingDirectory = tree.workingDirectory ∧
      ∀ other, after.node? other =
        if place <+: other ∧ isLeft (place ++ stop) other = false then none
        else tree.node? other := by
  have hallowed : place.isPrefixOf tree.workingDirectory = false := by
    rwa [← Bool.not_eq_true, List.isPrefixOf_iff_prefix]
  unfold removeUpTo?
  rw [dif_pos hallowed]
  refine ⟨_, rfl, rfl, ?_⟩
  intro other
  rw [node?_restrict]
  by_cases hbelow : place <+: other
  · cases isLeft (place ++ stop) other <;> simp [hbelow]
  · simp [hbelow]

end DependencyAudit.Tree
