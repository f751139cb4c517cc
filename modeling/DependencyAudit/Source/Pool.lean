import DependencyAudit.Ascending

/-!
# A pool of workers

A pool takes tasks that wait, works on at most so many at a time, and merges the
names that finished tasks found.  Any task that is worked on may finish next, and
any finished one may be merged next, which is what `Step` says.  `drain` is one way
to run a pool to its end: it merges what is finished, else starts a task when a
worker is free, and otherwise finishes the one that started first.
-/

namespace DependencyAudit.Source

structure Pool (τ : Type) where
  workers : Nat
  waiting : List τ
  running : List τ := []
  finished : List τ := []
  merged : List String := []

namespace Pool

variable {τ : Type}

/-- The steps a pool may take when a task finds these names. -/
inductive Step (names : τ → List String) : Pool τ → Pool τ → Prop where
  | start (pool : Pool τ) {task : τ} {rest : List τ}
      (hwaiting : pool.waiting = task :: rest)
      (hfree : pool.running.length < pool.workers) :
      Step names pool { pool with waiting := rest, running := pool.running ++ [task] }
  | finish (pool : Pool τ) (before after : List τ) {task : τ}
      (hrunning : pool.running = before ++ task :: after) :
      Step names pool {
        pool with
        running := before ++ after
        finished := pool.finished ++ [task] }
  | merge (pool : Pool τ) (before after : List τ) {task : τ}
      (hfinished : pool.finished = before ++ task :: after) :
      Step names pool {
        pool with
        finished := before ++ after
        merged := Ascending.union (names task) pool.merged }

def IsComplete (pool : Pool τ) : Prop :=
  pool.waiting = [] ∧ pool.running = [] ∧ pool.finished = []

/-- The steps that a pool still needs. -/
def work (pool : Pool τ) : Nat :=
  3 * pool.waiting.length + 2 * pool.running.length + pool.finished.length

/-- The pool after its longest running task has finished. -/
def finishOldest? (pool : Pool τ) : Option (Pool τ) :=
  match pool.running with
  | [] => none
  | oldest :: others =>
    some { pool with running := others, finished := pool.finished ++ [oldest] }

/-- The step of a pool that keeps its workers busy, if there is one. -/
def next? (names : τ → List String) (pool : Pool τ) : Option (Pool τ) :=
  match pool.finished, pool.waiting with
  | task :: others, _ =>
    some {
      pool with
      finished := others
      merged := Ascending.union (names task) pool.merged }
  | [], task :: rest =>
    if pool.running.length < pool.workers then
      some { pool with waiting := rest, running := pool.running ++ [task] }
    else pool.finishOldest?
  | [], [] => pool.finishOldest?

theorem step_of_finishOldest? {names : τ → List String} {pool next : Pool τ}
    (h : pool.finishOldest? = some next) : Step names pool next := by
  unfold finishOldest? at h
  split at h
  · contradiction
  · next oldest others hrunning =>
      rw [Option.some.injEq] at h
      subst h
      exact Step.finish pool [] others hrunning

theorem step_of_next? {names : τ → List String} {pool next : Pool τ}
    (h : pool.next? names = some next) : Step names pool next := by
  unfold next? at h
  split at h
  · next task others hfinished =>
      rw [Option.some.injEq] at h
      subst h
      exact Step.merge pool [] others hfinished
  · next task rest hfinished hwaiting =>
      by_cases hfree : pool.running.length < pool.workers
      · rw [if_pos hfree, Option.some.injEq] at h
        subst h
        exact Step.start pool hwaiting hfree
      · rw [if_neg hfree] at h
        exact step_of_finishOldest? h
  · exact step_of_finishOldest? h

theorem Step.work_lt {names : τ → List String} {pool next : Pool τ}
    (h : Step names pool next) : next.work < pool.work := by
  cases h with
  | start hwaiting hfree =>
      simp only [work, hwaiting, List.length_cons, List.length_append, List.length_nil]
      omega
  | finish before after hrunning =>
      simp only [work, hrunning, List.length_cons, List.length_append, List.length_nil]
      omega
  | merge before after hfinished =>
      simp only [work, hfinished, List.length_cons, List.length_append]
      omega

/-- The pool after all the steps that keep its workers busy. -/
def drain (names : τ → List String) (pool : Pool τ) : Pool τ :=
  match _h : pool.next? names with
  | none => pool
  | some next => next.drain names
termination_by pool.work
decreasing_by exact (step_of_next? _h).work_lt

end Pool

end DependencyAudit.Source
