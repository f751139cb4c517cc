import DependencyAudit.Proofs.Analysis.Classification

/-!
# Ignored names

Names to be ignored are taken out of the lists of a finished analysis.  That is the
analysis of the manifest that does not declare them: whether a name is listed depends on
that name alone, and so does whether it is ignored.  On any analysis, also one that comes
from no manifest, ignoring is a filter, so it may be done in steps and in any order.
-/

namespace DependencyAudit

/-! ## Manifests without some names -/

/-- The mapping without the entries of some names. -/
def Mapping.without (mapping : Mapping) (names : List CodeText) : Mapping where
  entries := mapping.entries.filter fun entry => !names.contains entry.1
  unique := mapping.unique.sublist (List.filter_sublist.map _)

/-- The manifest that declares some names in no class. -/
def Manifest.without (manifest : Manifest) (names : List CodeText) : Manifest :=
  { manifest with
    dependencies := manifest.dependencies.map fun mapping => mapping.without names
    devDependencies := manifest.devDependencies.map fun mapping => mapping.without names
    peerDependencies := manifest.peerDependencies.map fun mapping => mapping.without names }

theorem Mapping.names_without (mapping : Mapping) (names : List CodeText) :
    (mapping.without names).names = mapping.names.filter fun name => !names.contains name := by
  rw [Mapping.names, Mapping.names, List.filter_map]
  rfl

theorem Manifest.mapping?_without (manifest : Manifest) (names : List CodeText)
    (cls : DependencyClass) :
    (manifest.without names).mapping? cls =
      (manifest.mapping? cls).map fun mapping => mapping.without names := by
  cases cls <;> rfl

theorem Manifest.names_without (manifest : Manifest) (names : List CodeText)
    (cls : DependencyClass) :
    (manifest.without names).names cls =
      (manifest.names cls).filter fun name => !names.contains name := by
  unfold Manifest.names
  rw [mapping?_without]
  cases manifest.mapping? cls with
  | none => rfl
  | some mapping => exact mapping.names_without names

theorem Manifest.mem_names_without {manifest : Manifest} {names : List CodeText}
    {cls : DependencyClass} {name : CodeText} :
    name ∈ (manifest.without names).names cls ↔ name ∈ manifest.names cls ∧ name ∉ names := by
  simp [names_without]

namespace Analysis

variable {manifest : Manifest} {used left right both ignored : List CodeText} {checkAll : Bool}
variable {analysis : Analysis}

/-! ## Ignoring names -/

theorem mem_unused_ignoring {name : CodeText} :
    name ∈ (analysis.ignoring ignored).unused ↔ name ∈ analysis.unused ∧ name ∉ ignored := by
  simp [ignoring_eq]

theorem mem_misplaced_ignoring {name : CodeText} :
    name ∈ (analysis.ignoring ignored).misplaced ↔
      name ∈ analysis.misplaced ∧ name ∉ ignored := by
  simp [ignoring_eq]

theorem IsAscending.ignoring (h : analysis.IsAscending) (ignored : List CodeText) :
    (analysis.ignoring ignored).IsAscending := by
  rw [ignoring_eq]
  exact ⟨h.unused.filter _, h.misplaced.filter _⟩

/-- Taking names out of the result is taking them out of the manifest. -/
theorem ignoring_ofManifest (manifest : Manifest) (used : List CodeText) (checkAll : Bool)
    (ignored : List CodeText) :
    (ofManifest manifest used checkAll).ignoring ignored =
      ofManifest (manifest.without ignored) used checkAll := by
  refine ((isAscending_ofManifest ..).ignoring ignored).eq_of_mem_iff
    (isAscending_ofManifest ..) ?_ ?_
  · intro name
    simp only [mem_unused_ignoring, mem_unused_ofManifest, Manifest.mem_names_without]
    constructor
    · rintro ⟨⟨⟨cls, hcls, hdeclared⟩, hunused⟩, hkept⟩
      exact ⟨⟨cls, hcls, hdeclared, hkept⟩, hunused⟩
    · rintro ⟨⟨cls, hcls, hdeclared, hkept⟩, hunused⟩
      exact ⟨⟨⟨cls, hcls, hdeclared⟩, hunused⟩, hkept⟩
  · intro name
    simp only [mem_misplaced_ignoring, mem_misplaced_ofManifest, Manifest.mem_names_without]
    exact and_right_comm

/-- Ignoring in two steps ignores what one of them ignores. -/
theorem ignoring_ignoring (h : ∀ name, name ∈ both ↔ name ∈ left ∨ name ∈ right) :
    (analysis.ignoring left).ignoring right = analysis.ignoring both := by
  have hfilter : ∀ names : List CodeText,
      (names.filter fun name => !left.contains name).filter (fun name => !right.contains name) =
        names.filter fun name => !both.contains name := by
    intro names
    rw [List.filter_filter]
    apply List.filter_congr
    intro name _
    rw [Bool.eq_iff_iff]
    simp only [Bool.and_eq_true, Bool.not_eq_true', List.contains_eq_mem,
      decide_eq_false_iff_not, h, not_or]
    exact and_comm
  simp only [ignoring_eq, hfilter]

theorem hasIssues_ignoring_eq_false_iff :
    (analysis.ignoring ignored).hasIssues = false ↔
      ∀ name, name ∈ analysis.unused ∨ name ∈ analysis.misplaced → name ∈ ignored := by
  simp only [hasIssues, ignoring_eq, Bool.or_eq_false_iff, Bool.not_eq_false',
    List.isEmpty_iff, List.filter_eq_nil_iff, List.contains_eq_mem, Bool.not_eq_true',
    decide_eq_false_iff_not, not_not, or_imp, forall_and]

/-- A list is another one without the ignored names: the others keep their order and are as
many as before. -/
structure LeavesOut (ignored before after : List CodeText) : Prop where
  sublist : after.Sublist before
  count : ∀ name, after.count name = if name ∈ ignored then 0 else before.count name

theorem leavesOut_filter (ignored names : List CodeText) :
    LeavesOut ignored names (names.filter fun name => !ignored.contains name) := by
  constructor
  · exact List.filter_sublist
  · intro name
    split
    · next hignored =>
        rw [List.count_eq_zero]
        simp [hignored]
    · next hkept =>
        exact List.count_filter (by simpa using hkept)

/-- Ignoring names after the analysis is deleting them from the manifest before it.  On every
analysis it may be done in steps, keeps the other names as they are, and leaves nothing to
report exactly when every listed name is ignored. -/
theorem ignoring_is_deletion (manifest : Manifest) (used : List CodeText) (checkAll : Bool)
    (analysis : Analysis) (h : ∀ name, name ∈ both ↔ name ∈ left ∨ name ∈ right) :
    (ofManifest manifest used checkAll).ignoring left =
        ofManifest (manifest.without left) used checkAll ∧
      (analysis.ignoring left).ignoring right = analysis.ignoring both ∧
      (analysis.ignoring right).ignoring left = analysis.ignoring both ∧
      LeavesOut left analysis.unused (analysis.ignoring left).unused ∧
      LeavesOut left analysis.misplaced (analysis.ignoring left).misplaced ∧
      ((analysis.ignoring left).hasIssues = false ↔
        ∀ name, name ∈ analysis.unused ∨ name ∈ analysis.misplaced → name ∈ left) := by
  have hswapped : ∀ name, name ∈ both ↔ name ∈ right ∨ name ∈ left := fun name =>
    (h name).trans or_comm
  refine ⟨ignoring_ofManifest manifest used checkAll left, ignoring_ignoring h,
    ignoring_ignoring hswapped, ?_, ?_, hasIssues_ignoring_eq_false_iff⟩
  · rw [ignoring_eq]
    exact leavesOut_filter left _
  · rw [ignoring_eq]
    exact leavesOut_filter left _

/-- An analysis out of order and with a repetition. -/
def unsortedAnalysis : Analysis := ⟨["c", "a", "b", "a", "c"], ["b", "d"]⟩

theorem ignoring_unsortedAnalysis :
    (∀ name, name ∈ (["b", "c", "d"] : List CodeText) ↔
        name ∈ (["c", "b"] : List CodeText) ∨ name ∈ (["d", "b"] : List CodeText)) ∧
      (ofManifest overlappingManifest ["a", "x", "a"] true).ignoring ["c", "b"] =
        ofManifest (overlappingManifest.without ["c", "b"]) ["a", "x", "a"] true ∧
      (unsortedAnalysis.ignoring ["c", "b"]).ignoring ["d", "b"] = ⟨["a", "a"], []⟩ ∧
      (unsortedAnalysis.ignoring ["d", "b"]).ignoring ["c", "b"] = ⟨["a", "a"], []⟩ ∧
      LeavesOut ["c", "b"] unsortedAnalysis.unused ["a", "a"] ∧
      LeavesOut ["c", "b"] unsortedAnalysis.misplaced ["d"] := by
  have hboth : ∀ name, name ∈ (["b", "c", "d"] : List CodeText) ↔
      name ∈ (["c", "b"] : List CodeText) ∨ name ∈ (["d", "b"] : List CodeText) := by
    intro name
    simp only [List.mem_cons, List.not_mem_nil, or_false]
    tauto
  have hall := ignoring_is_deletion overlappingManifest ["a", "x", "a"] true unsortedAnalysis hboth
  have hkept : unsortedAnalysis.ignoring ["b", "c", "d"] = ⟨["a", "a"], []⟩ := by decide
  have hfirst : unsortedAnalysis.ignoring ["c", "b"] = ⟨["a", "a"], ["d"]⟩ := by decide
  rw [hkept, hfirst] at hall
  rw [hfirst]
  exact ⟨hboth, hall.1, hall.2.1, hall.2.2.1, hall.2.2.2.1, hall.2.2.2.2.1⟩

end Analysis

end DependencyAudit
