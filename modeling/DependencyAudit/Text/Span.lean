/-!
# Spans of a character class

Reading takes the longest front of a text whose characters belong to a class and
goes on behind it.  These are the two facts that such a step rests on: a front
that a foreign character ends is taken whole, and whatever stands behind the span
starts with a foreign character.
-/

namespace DependencyAudit.Text

theorem takeWhile_append_cons {p : Char → Bool} {front rest : List Char} {c : Char}
    (hfront : ∀ x ∈ front, p x = true) (hc : p c = false) :
    (front ++ c :: rest).takeWhile p = front := by
  rw [List.takeWhile_append_of_pos hfront]
  simp [hc]

theorem dropWhile_append_cons {p : Char → Bool} {front rest : List Char} {c : Char}
    (hfront : ∀ x ∈ front, p x = true) (hc : p c = false) :
    (front ++ c :: rest).dropWhile p = c :: rest := by
  rw [List.dropWhile_append_of_pos hfront]
  simp [hc]

theorem eq_of_dropWhile_eq_cons {p : Char → Bool} {text rest : List Char} {c : Char}
    (h : text.dropWhile p = c :: rest) :
    text = text.takeWhile p ++ c :: rest ∧ p c = false := by
  constructor
  · rw [← h, List.takeWhile_append_dropWhile]
  · have hhead := List.head?_dropWhile_not p text
    rw [h] at hhead
    simpa using hhead

theorem drop_length_takeWhile (p : Char → Bool) (text : List Char) :
    text.drop (text.takeWhile p).length = text.dropWhile p := by
  have hdrop : (text.takeWhile p ++ text.dropWhile p).drop (text.takeWhile p).length =
      text.dropWhile p := List.drop_left
  rwa [List.takeWhile_append_dropWhile] at hdrop

theorem of_mem_takeWhile {p : Char → Bool} {text : List Char} {c : Char}
    (h : c ∈ text.takeWhile p) : p c = true :=
  List.all_eq_true.mp List.all_takeWhile c h

end DependencyAudit.Text
