import Mathlib.Data.List.Induction

/-!
# Partial machines and their histories

A machine is a `step : S → Op → Option S`; an operation that the state does not allow has no
successor.  Invariants of its runs may speak about the history: the operations so far.

* `run_invariant`: what holds at the start and is kept by every step holds after every run.
* `run_prefix`: every prefix of a run is a run.
-/

namespace History

variable {S Op : Type} {step : S → Op → Option S}

/-- The state after `ops`, if every one of them is allowed. -/
def run (step : S → Op → Option S) (s : S) (ops : List Op) : Option S :=
  ops.foldlM step s

@[simp] theorem run_nil (s : S) : run step s [] = some s := rfl

theorem run_append (s : S) (pre suf : List Op) :
    run step s (pre ++ suf) = (run step s pre).bind fun m => run step m suf := by
  simp [run, List.foldlM_append]

theorem run_snoc (s : S) (ops : List Op) (op : Op) :
    run step s (ops ++ [op]) = (run step s ops).bind fun m => step m op := by
  rw [run_append]
  simp [run]

theorem run_prefix {s t : S} {pre suf : List Op} (h : run step s (pre ++ suf) = some t) :
    ∃ m, run step s pre = some m ∧ run step m suf = some t := by
  rw [run_append] at h
  exact Option.bind_eq_some_iff.mp h

theorem run_snoc_eq_some {s t : S} {ops : List Op} {op : Op} :
    run step s (ops ++ [op]) = some t ↔ ∃ m, run step s ops = some m ∧ step m op = some t := by
  rw [run_snoc]
  exact Option.bind_eq_some_iff

/-- **Invariants of runs**, which may speak about the operations so far. -/
theorem run_invariant {s : S} (I : List Op → S → Prop) (start : I [] s)
    (keep : ∀ ops m op t, I ops m → step m op = some t → I (ops ++ [op]) t) :
    ∀ {ops : List Op} {t : S}, run step s ops = some t → I ops t := by
  intro ops
  induction ops using List.reverseRecOn with
  | nil =>
    intro t h
    obtain rfl : s = t := by simpa using h
    exact start
  | append_singleton ops op ih =>
    intro t h
    obtain ⟨m, hm, ht⟩ := run_snoc_eq_some.mp h
    exact keep ops m op t (ih hm) ht

end History
