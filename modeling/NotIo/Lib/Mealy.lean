import Mathlib.Data.Option.Basic
import Mathlib.Tactic.Common

/-!
# Machines with answers

A machine answers every operation and goes on in a new state, or is lost with the operation.

* `run_rel`: machines that agree step by step agree over every run.
* `run_invariant`: what every step keeps holds after every run.
-/

namespace Mealy

variable {S S' Op A : Type}

/-- The answers to `ops`, as far as the machine comes, and the state that it is left in. -/
def run (step : S → Op → A × Option S) : S → List Op → List A × Option S
  | s, [] => ([], some s)
  | s, op :: ops =>
    match step s op with
    | (a, none) => ([a], none)
    | (a, some s') => (a :: (run step s' ops).1, (run step s' ops).2)

theorem run_cons_some {step : S → Op → A × Option S} {s s' : S} {op : Op} {a : A}
    (h : step s op = (a, some s')) (ops : List Op) :
    run step s (op :: ops) = (a :: (run step s' ops).1, (run step s' ops).2) := by
  rw [run, h]

theorem run_cons_none {step : S → Op → A × Option S} {s : S} {op : Op} {a : A}
    (h : step s op = (a, none)) (ops : List Op) : run step s (op :: ops) = ([a], none) := by
  rw [run, h]

/-- The machines give the same answers in related states and stay in related states. -/
def Lockstep (step : S → Op → A × Option S) (step' : S' → Op → A × Option S')
    (Rel : S → S' → Prop) : Prop :=
  ∀ s s' op, Rel s s' →
    (step s op).1 = (step' s' op).1 ∧ Option.Rel Rel (step s op).2 (step' s' op).2

/-- **Machines in lockstep give the same answers over every run.** -/
theorem run_rel {step : S → Op → A × Option S} {step' : S' → Op → A × Option S'}
    {Rel : S → S' → Prop} (h : Lockstep step step' Rel) {s : S} {s' : S'} (hs : Rel s s')
    (ops : List Op) :
    (run step s ops).1 = (run step' s' ops).1 ∧
      Option.Rel Rel (run step s ops).2 (run step' s' ops).2 := by
  induction ops generalizing s s' with
  | nil => exact ⟨rfl, .some hs⟩
  | cons op ops ih =>
    obtain ⟨ha, hnext⟩ := h s s' op hs
    rcases hstep : step s op with ⟨a, _ | t⟩ <;> rcases hstep' : step' s' op with ⟨a', _ | t'⟩ <;>
      rw [hstep, hstep'] at ha hnext
    · rw [run_cons_none hstep, run_cons_none hstep']
      exact ⟨congrArg (fun a => [a]) ha, .none⟩
    · cases hnext
    · cases hnext
    · cases hnext with
      | some hrel =>
        obtain ⟨hruns, hlast⟩ := ih hrel
        rw [run_cons_some hstep, run_cons_some hstep']
        exact ⟨List.cons_eq_cons.mpr ⟨ha, hruns⟩, hlast⟩

theorem rel_mono {Rel Rel' : S → S' → Prop} (h : ∀ s s', Rel s s' → Rel' s s') {o : Option S}
    {o' : Option S'} (ho : Option.Rel Rel o o') : Option.Rel Rel' o o' := by
  cases ho with
  | some hs => exact .some (h _ _ hs)
  | none => exact .none

/-- **What every step keeps holds after every run.** -/
theorem run_invariant {step : S → Op → A × Option S} (I : S → Prop)
    (h : ∀ s op a s', I s → step s op = (a, some s') → I s') {s t : S} (hs : I s) {ops : List Op}
    {answers : List A} (hrun : run step s ops = (answers, some t)) : I t := by
  induction ops generalizing s answers with
  | nil =>
    simp only [run, Prod.mk.injEq, Option.some.injEq] at hrun
    exact hrun.2 ▸ hs
  | cons op ops ih =>
    rcases hstep : step s op with ⟨a, _ | s'⟩
    · rw [run_cons_none hstep] at hrun
      simp at hrun
    · rw [run_cons_some hstep, Prod.mk.injEq] at hrun
      exact ih (h s op a s' hs hstep) (Prod.ext rfl hrun.2)

end Mealy
