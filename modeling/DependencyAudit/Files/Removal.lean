import DependencyAudit.Ascending
import DependencyAudit.Files.Tree

/-!
# Removals

A directory is removed entry by entry, each with all that lies below it, and itself last.
A file system may give the entries of a directory in any order; here it is that of their
names.  An entry that lies too deep ends the removal: what was passed before it is gone
then, and what is left is that entry, all that comes after it, and the directories on the
way to it.
-/

namespace DependencyAudit.Tree

/-- The tree without a location and all that lies below it.  The working
directory cannot be removed. -/
def remove? (tree : Tree) (location : Location) : Option Tree :=
  if h : location.isPrefixOf tree.workingDirectory = false ∧ location ≠ [] then
    some (tree.restrict (fun place => !location.isPrefixOf place)
      (by
        intro place hplace
        rw [Bool.not_eq_true', ← Bool.not_eq_true, List.isPrefixOf_iff_prefix] at hplace ⊢
        exact fun habove => hplace (habove.trans (List.dropLast_prefix place)))
      (by rw [h.1, Bool.not_false]))
  else none

/-- The first entry below a location, by its names from there, that is more than so many
levels below it. -/
def firstBeyond? (tree : Tree) (levels : Nat) (location : Location) :
    Option (List String) :=
  (Ascending.ofList (((tree.nodesBelow location).map Prod.fst).filter fun names =>
    levels < names.length)).head?

theorem append_lt_of_lt {left right : Location} (h : left < right) (habove : ¬ left <+: right)
    (more : Location) : left ++ more < right := by
  induction left generalizing right with
  | nil => exact absurd List.nil_prefix habove
  | cons name rest ih =>
      cases right with
      | nil => simp at h
      | cons first others =>
          rw [List.cons_lt_cons_iff] at h
          rw [List.cons_append, List.cons_lt_cons_iff]
          rcases h with h | ⟨rfl, h⟩
          · exact Or.inl h
          · exact Or.inr ⟨rfl, ih h fun hbelow =>
              habove (List.cons_prefix_cons.mpr ⟨rfl, hbelow⟩)⟩

/-- Whether a removal that ends at one place leaves another. -/
def isLeft (stop place : Location) : Bool :=
  !decide (place < stop) || place.isPrefixOf stop

theorem isLeft_iff {stop place : Location} :
    isLeft stop place = true ↔ (place < stop → place <+: stop) := by
  simp only [isLeft, Bool.or_eq_true, Bool.not_eq_true', decide_eq_false_iff_not,
    List.isPrefixOf_iff_prefix]
  exact Decidable.imp_iff_not_or.symm

theorem isLeft_dropLast {stop place : Location} (h : isLeft stop place = true) :
    isLeft stop place.dropLast = true := by
  rw [isLeft_iff] at h ⊢
  intro hlt
  apply Decidable.byContradiction
  intro habove
  obtain ⟨more, hplace⟩ := List.dropLast_prefix place
  have hbefore : place < stop := by
    rw [← hplace]
    exact append_lt_of_lt hlt habove more
  exact habove ((List.dropLast_prefix place).trans (h hbefore))

/-- The tree when the removal of a location has ended at an entry below it. -/
def removeUpTo? (tree : Tree) (location : Location) (stop : List String) : Option Tree :=
  if h : location.isPrefixOf tree.workingDirectory = false then
    some (tree.restrict (fun place => !location.isPrefixOf place || isLeft (location ++ stop) place)
      (by
        intro place hplace
        rw [Bool.or_eq_true, Bool.not_eq_true', ← Bool.not_eq_true,
          List.isPrefixOf_iff_prefix] at hplace ⊢
        exact hplace.imp (fun hout habove => hout (habove.trans (List.dropLast_prefix place)))
          isLeft_dropLast)
      (by rw [h, Bool.not_false, Bool.true_or]))
  else none

end DependencyAudit.Tree
