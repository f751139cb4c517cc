/-!
# Strictly ascending lists

A collection without order or repetition is kept as its strictly ascending list.
Inserting an element finds its place from the front and leaves the list alone
when the element is there.  The statements below are those of a set: membership
after an insertion, and that the order of the insertions does not show.
-/

namespace DependencyAudit.Ascending

variable {α : Type} [LT α] [DecidableLT α]

def insert (x : α) : List α → List α
  | [] => [x]
  | y :: rest =>
    if x < y then x :: y :: rest
    else if y < x then y :: insert x rest
    else y :: rest

/-- The strictly ascending list of the elements of a list. -/
def ofList (xs : List α) : List α :=
  xs.foldr insert []

def union (xs ys : List α) : List α :=
  xs.foldr insert ys

theorem mem_insert [Std.Trichotomous (· < · : α → α → Prop)] {x y : α}
    {list : List α} : y ∈ insert x list ↔ y = x ∨ y ∈ list := by
  induction list with
  | nil => simp [insert]
  | cons z rest ih =>
      simp only [insert]
      split
      · simp
      · split
        · simp only [List.mem_cons, ih]
          grind
        · next hxz hzx =>
            have hx : x = z := Std.Trichotomous.trichotomous x z hxz hzx
            simp [hx]

theorem mem_union [Std.Trichotomous (· < · : α → α → Prop)] {x : α}
    {xs ys : List α} : x ∈ union xs ys ↔ x ∈ xs ∨ x ∈ ys := by
  induction xs with
  | nil => simp [union]
  | cons y rest ih =>
      have hunion : union (y :: rest) ys = insert y (union rest ys) := rfl
      rw [hunion, mem_insert, ih, List.mem_cons, or_assoc]

theorem mem_ofList [Std.Trichotomous (· < · : α → α → Prop)] {x : α}
    {xs : List α} : x ∈ ofList xs ↔ x ∈ xs := by
  have h : x ∈ union xs [] ↔ x ∈ xs ∨ x ∈ [] := mem_union
  simpa [union, ofList] using h

theorem pairwise_insert
    [Trans (· < · : α → α → Prop) (· < · : α → α → Prop) (· < · : α → α → Prop)]
    [Std.Trichotomous (· < · : α → α → Prop)] {x : α} {list : List α}
    (h : list.Pairwise (· < ·)) : (insert x list).Pairwise (· < ·) := by
  induction list with
  | nil => simp [insert]
  | cons y rest ih =>
      rw [List.pairwise_cons] at h
      simp only [insert]
      split
      · next hxy =>
          rw [List.pairwise_cons]
          refine ⟨?_, List.pairwise_cons.mpr h⟩
          intro z hz
          rw [List.mem_cons] at hz
          rcases hz with rfl | hz
          · exact hxy
          · exact Trans.trans hxy (h.1 z hz)
      · split
        · next hyx =>
            rw [List.pairwise_cons]
            refine ⟨?_, ih h.2⟩
            intro z hz
            rw [mem_insert] at hz
            rcases hz with rfl | hz
            · exact hyx
            · exact h.1 z hz
        · exact List.pairwise_cons.mpr h

theorem pairwise_union
    [Trans (· < · : α → α → Prop) (· < · : α → α → Prop) (· < · : α → α → Prop)]
    [Std.Trichotomous (· < · : α → α → Prop)] {xs ys : List α}
    (h : ys.Pairwise (· < ·)) : (union xs ys).Pairwise (· < ·) := by
  induction xs with
  | nil => exact h
  | cons x rest ih => exact pairwise_insert ih

theorem pairwise_ofList
    [Trans (· < · : α → α → Prop) (· < · : α → α → Prop) (· < · : α → α → Prop)]
    [Std.Trichotomous (· < · : α → α → Prop)] (xs : List α) :
    (ofList xs).Pairwise (· < ·) :=
  pairwise_union List.Pairwise.nil

end DependencyAudit.Ascending
