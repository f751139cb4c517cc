/-!
# Draws

The benchmark's projects depend on chance, which is a stream of natural numbers
and the count of those taken so far.  Each choice takes one number and reduces it
to the range it needs, so a stream fixes a project.
-/

namespace DependencyAudit.Benchmark

structure Draws where
  stream : Nat → Nat
  taken : Nat := 0

namespace Draws

def next (draws : Draws) : Nat × Draws :=
  (draws.stream draws.taken, { draws with taken := draws.taken + 1 })

/-- Whether the next number, as a fraction of a thousand, is below one half. -/
def coin (draws : Draws) : Bool × Draws :=
  (draws.next.1 % 1000 < 500, draws.next.2)

/-- A number from one to a bound. -/
def upTo (draws : Draws) (bound : Nat) : Nat × Draws :=
  (1 + draws.next.1 % bound, draws.next.2)

def choose? {α : Type} (draws : Draws) (items : List α) : Option α × Draws :=
  (items[draws.next.1 % items.length]?, draws.next.2)

/-- Items of a list, each taken out of those left, in the order drawn. -/
def sample {α : Type} (draws : Draws) (items : List α) : Nat → List α × Draws
  | 0 => ([], draws)
  | count + 1 =>
    let place := draws.next.1 % items.length
    let (others, final) := draws.next.2.sample (items.eraseIdx place) count
    (items[place]?.toList ++ others, final)

theorem choose?_isSome {α : Type} (draws : Draws) {items : List α} (h : items ≠ []) :
    (draws.choose? items).1.isSome = true := by
  have hlength := List.length_pos_iff.mpr h
  simp [choose?, Nat.mod_lt _ hlength]

theorem length_sample {α : Type} (draws : Draws) (items : List α) (count : Nat)
    (h : count ≤ items.length) : (draws.sample items count).1.length = count := by
  induction count generalizing draws items with
  | zero => rfl
  | succ count ih =>
      have hplace : draws.next.1 % items.length < items.length :=
        Nat.mod_lt _ (by omega)
      have hrest : count ≤ (items.eraseIdx (draws.next.1 % items.length)).length := by
        rw [List.length_eraseIdx_of_lt hplace]
        omega
      simp only [sample, List.length_append, ih _ _ hrest,
        List.getElem?_eq_getElem hplace, Option.toList_some, List.length_singleton]
      omega

end Draws

end DependencyAudit.Benchmark
