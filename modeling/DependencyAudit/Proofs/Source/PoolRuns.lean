import DependencyAudit.Source.Pool
import Mathlib.Logic.Relation

/-!
# Runs of a pool

A run takes any steps that a pool allows, in any order.  The invariant accounts for
every name: it is merged, or a task that is not merged yet still finds it, exactly
when one of the tasks that the pool was given finds it.  Each kind of step keeps the
account, so every complete run merges the same names whatever its schedule was.
With at least one worker a pool is never stuck, and draining it is a complete run.
-/

namespace DependencyAudit.Source.Pool

open Relation

variable {τ : Type} {names : τ → List String} {tasks : List τ} {pool next final : Pool τ}

def unmerged (pool : Pool τ) : List τ :=
  pool.waiting ++ (pool.running ++ pool.finished)

/-- The invariant of a run on given tasks. -/
structure Accounts (names : τ → List String) (tasks : List τ) (pool : Pool τ) : Prop where
  found : ∀ name, (∃ task ∈ tasks, name ∈ names task) ↔
    name ∈ pool.merged ∨ ∃ task ∈ pool.unmerged, name ∈ names task
  ascending : pool.merged.Pairwise (· < ·)
  capacity : pool.running.length ≤ pool.workers

theorem accounts_of_tasks (workers : Nat) (tasks : List τ) :
    Accounts names tasks { workers, waiting := tasks } := by
  refine ⟨?_, List.Pairwise.nil, Nat.zero_le workers⟩
  intro name
  simp [unmerged]

theorem Step.workers_eq (h : Step names pool next) : next.workers = pool.workers := by
  cases h <;> rfl

theorem Accounts.of_perm (h : Accounts names tasks pool)
    (hunmerged : next.unmerged.Perm pool.unmerged) (hmerged : next.merged = pool.merged)
    (hcapacity : next.running.length ≤ next.workers) : Accounts names tasks next := by
  refine ⟨?_, hmerged ▸ h.ascending, hcapacity⟩
  intro name
  rw [h.found name, hmerged]
  have hsame : ∀ task, task ∈ pool.unmerged ↔ task ∈ next.unmerged := by
    intro task
    exact hunmerged.symm.mem_iff
  simp only [hsame]

theorem Accounts.step (h : Accounts names tasks pool) (hstep : Step names pool next) :
    Accounts names tasks next := by
  have hcapacity := h.capacity
  -- A start and a finish only move a task, so the tasks not merged yet are permuted.
  cases hstep with
  | @start task rest hwaiting hfree =>
      refine h.of_perm ?_ rfl ?_
      · simp only [unmerged, hwaiting, List.append_assoc, List.cons_append, List.nil_append]
        have hmoved : (pool.running ++ task :: pool.finished).Perm
            (task :: (pool.running ++ pool.finished)) := List.perm_middle
        exact (hmoved.append_left rest).trans List.perm_middle
      · simp only [List.length_append, List.length_singleton]
        omega
  | @finish before after task hrunning =>
      refine h.of_perm ?_ rfl ?_
      · simp only [unmerged, hrunning, List.append_assoc, List.cons_append]
        refine List.Perm.append_left _ (List.Perm.append_left _ ?_)
        rw [← List.append_assoc]
        exact List.perm_append_singleton task (after ++ pool.finished)
      · rw [hrunning, List.length_append, List.length_cons] at hcapacity
        simp only [List.length_append]
        omega
  | @merge before after task hfinished =>
      refine ⟨?_, Ascending.pairwise_union h.ascending, hcapacity⟩
      intro name
      rw [h.found name, Ascending.mem_union]
      simp only [unmerged, hfinished, List.mem_append, List.mem_cons]
      grind

theorem Accounts.run (h : Accounts names tasks pool)
    (hrun : ReflTransGen (Step names) pool next) : Accounts names tasks next := by
  induction hrun with
  | refl => exact h
  | tail hearlier hstep ih => exact ih.step hstep

/-- A complete run merges the names that its tasks find, and nothing else. -/
theorem mem_merged_of_run {workers : Nat} {name : String}
    (hrun : ReflTransGen (Step names) { workers, waiting := tasks } final)
    (hcomplete : final.IsComplete) :
    name ∈ final.merged ↔ ∃ task ∈ tasks, name ∈ names task := by
  obtain ⟨hwaiting, hrunning, hfinished⟩ := hcomplete
  have haccounts := (accounts_of_tasks workers tasks).run hrun
  rw [haccounts.found name]
  simp [unmerged, hwaiting, hrunning, hfinished]

theorem pairwise_merged_of_run {workers : Nat}
    (hrun : ReflTransGen (Step names) { workers, waiting := tasks } final) :
    final.merged.Pairwise (· < ·) :=
  ((accounts_of_tasks workers tasks).run hrun).ascending

/-! ## Draining -/

theorem isComplete_of_next?_none (hworkers : 0 < pool.workers)
    (h : pool.next? names = none) : pool.IsComplete := by
  have hrunning : pool.finishOldest? = none → pool.running = [] := by
    intro hnone
    unfold finishOldest? at hnone
    split at hnone
    · assumption
    · contradiction
  unfold next? at h
  split at h
  · contradiction
  · split at h
    · contradiction
    · next hbusy =>
        have hidle := hrunning h
        rw [hidle, List.length_nil] at hbusy
        contradiction
  · next hfinished hwaiting => exact ⟨hwaiting, hrunning h, hfinished⟩

theorem drain_of_next? (h : pool.next? names = some next) :
    pool.drain names = next.drain names := by
  rw [drain]
  split
  · next hnone =>
      rw [h] at hnone
      contradiction
  · next found hfound =>
      rw [h, Option.some.injEq] at hfound
      rw [hfound]

theorem drain_of_next?_none (h : pool.next? names = none) : pool.drain names = pool := by
  rw [drain]
  split
  · rfl
  · next found hfound =>
      rw [h] at hfound
      contradiction

theorem run_drain (pool : Pool τ) : ReflTransGen (Step names) pool (pool.drain names) := by
  induction hwork : pool.work using Nat.strongRecOn generalizing pool with
  | ind work ih =>
      cases hnext : pool.next? names with
      | none =>
          rw [drain_of_next?_none hnext]
      | some next =>
          have hstep := step_of_next? hnext
          rw [drain_of_next? hnext]
          exact ReflTransGen.head hstep (ih next.work (hwork ▸ hstep.work_lt) next rfl)

theorem isComplete_drain (hworkers : 0 < pool.workers) : (pool.drain names).IsComplete := by
  induction hwork : pool.work using Nat.strongRecOn generalizing pool with
  | ind work ih =>
      cases hnext : pool.next? names with
      | none =>
          rw [drain_of_next?_none hnext]
          exact isComplete_of_next?_none hworkers hnext
      | some next =>
          have hstep := step_of_next? hnext
          rw [drain_of_next? hnext]
          exact ih next.work (hwork ▸ hstep.work_lt) (hstep.workers_eq ▸ hworkers) rfl

end DependencyAudit.Source.Pool
