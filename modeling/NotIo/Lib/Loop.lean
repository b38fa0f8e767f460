import Mathlib.Data.Nat.Basic
import Mathlib.Logic.Relation
import Mathlib.Tactic.Common

/-!
# Loops with fuel

A loop of an imperative program is a **body** that is run again and again: one
pass either goes round once more or leaves the loop with a value.  `run body n s`
makes at most `n` passes from `s`; `none` says that they were not enough.  A pass
may run loops of its own, so the body is given the fuel that is left and may come
back with `none` itself.

* `run_mono`: more fuel never changes a result.
* `run_invariant`, `run_spec`: the invariant rule, also for a property of steps.
* `loop_total`, `run_terminates`, `loop_terminates`: the variant rule, also for a well-founded
  order.
* `after`: the state of a run that is not over.
* `run_map`: a map of states that the bodies respect is respected by the loops.
* `run_rel`: loops that are related pass by pass come to related ends.
* `Ends`: the same loops without fuel (`returns_run`); `Reaches`: the states that they go through.
* `Agree`: two computations come to related ends or to none.  Two loops agree when one of
  them **stutters**: it may make passes that change nothing but a rank (`run_stutter`,
  `loop_stutter`).
-/

namespace Loop

/-- What one pass of a loop does: it goes round again, or it leaves the loop. -/
inductive Step (σ ρ : Type*) where
  | next (s : σ)
  | done (r : ρ)
  deriving DecidableEq

variable {σ σ' ρ ρ' : Type*}

/-- At most `n` passes of `body` from `s`; a pass gets the fuel that is left. -/
def run (body : ℕ → σ → Option (Step σ ρ)) : ℕ → σ → Option ρ
  | 0, _ => none
  | n + 1, s =>
    match body n s with
    | none => none
    | some (.next s') => run body n s'
    | some (.done r) => some r

/-- A loop whose passes run no loops of their own. -/
def loop (body : σ → Step σ ρ) : ℕ → σ → Option ρ := run fun _ s => some (body s)

/-- `f`, a computation with fuel, comes to the end with `r`. -/
def Returns (f : ℕ → Option ρ) (r : ρ) : Prop := ∃ n, f n = some r

/-- A result stays when fuel is added. -/
def Mono (f : ℕ → Option ρ) : Prop := ∀ ⦃n m r⦄, n ≤ m → f n = some r → f m = some r

theorem Returns.unique {f : ℕ → Option ρ} (hf : Mono f) {r r' : ρ} (h : Returns f r)
    (h' : Returns f r') : r = r' := by
  obtain ⟨n, hn⟩ := h
  obtain ⟨m, hm⟩ := h'
  have h1 := hf (le_max_left n m) hn
  have h2 := hf (le_max_right n m) hm
  exact Option.some.inj (h1.symm.trans h2)

/-! ### Passes -/

@[simp] theorem run_zero (body : ℕ → σ → Option (Step σ ρ)) (s : σ) : run body 0 s = none := rfl

theorem run_next {body : ℕ → σ → Option (Step σ ρ)} {n : ℕ} {s s' : σ}
    (h : body n s = some (.next s')) : run body (n + 1) s = run body n s' := by
  rw [run, h]

theorem run_done {body : ℕ → σ → Option (Step σ ρ)} {n : ℕ} {s : σ} {r : ρ}
    (h : body n s = some (.done r)) : run body (n + 1) s = some r := by
  rw [run, h]

/-- **The two ways a run comes to its end**: its first pass leaves the loop, or it
goes round and the rest of the run comes to the end. -/
theorem run_cases {body : ℕ → σ → Option (Step σ ρ)} {n : ℕ} {s : σ} {r : ρ}
    (h : run body n s = some r) :
    ∃ m, n = m + 1 ∧ (body m s = some (.done r) ∨
      ∃ s', body m s = some (.next s') ∧ run body m s' = some r) := by
  cases n with
  | zero => simp at h
  | succ m =>
    refine ⟨m, rfl, ?_⟩
    cases hb : body m s with
    | none => simp [run, hb] at h
    | some x =>
      cases x with
      | next s' => exact Or.inr ⟨s', rfl, by rwa [run_next hb] at h⟩
      | done r' =>
        rw [run_done hb, Option.some.injEq] at h
        exact Or.inl (by rw [h])

/-- **More fuel never changes a result.** -/
theorem run_mono {body : ℕ → σ → Option (Step σ ρ)} (hb : ∀ s, Mono fun n => body n s) (s : σ) :
    Mono fun n => run body n s := by
  intro n m r hnm h
  induction n generalizing m s with
  | zero => simp at h
  | succ n ih =>
    obtain ⟨k, rfl⟩ : ∃ k, m = k + 1 := ⟨m - 1, by omega⟩
    obtain ⟨_, hn, hd | ⟨s', hs, hr⟩⟩ := run_cases h
    · obtain rfl := Nat.succ.inj hn
      exact run_done (hb s (by omega) hd)
    · obtain rfl := Nat.succ.inj hn
      have hs' : body k s = some (.next s') := hb s (by omega) hs
      show run body (k + 1) s = some r
      rw [run_next hs']
      exact ih s' (by omega) hr

theorem mono_const (x : Option ρ) : Mono fun _ => x := fun _ _ _ _ h => h

theorem loop_mono (body : σ → Step σ ρ) (s : σ) : Mono fun n => loop body n s :=
  run_mono (fun s => mono_const (some (body s))) s

theorem loop_next {body : σ → Step σ ρ} {s s' : σ} (h : body s = .next s') (n : ℕ) :
    loop body (n + 1) s = loop body n s' := run_next (by rw [h])

theorem loop_done {body : σ → Step σ ρ} {s : σ} {r : ρ} (h : body s = .done r) (n : ℕ) :
    loop body (n + 1) s = some r := run_done (by rw [h])

/-! ### Invariants and variants -/

/-- **The invariant rule**: what every pass keeps holds when the loop is left. -/
theorem run_invariant {body : ℕ → σ → Option (Step σ ρ)} (I : σ → Prop) (Q : ρ → Prop)
    (hnext : ∀ n s s', I s → body n s = some (.next s') → I s')
    (hdone : ∀ n s r, I s → body n s = some (.done r) → Q r) {n : ℕ} {s : σ} {r : ρ} (hs : I s)
    (h : run body n s = some r) : Q r := by
  induction n generalizing s with
  | zero => simp at h
  | succ n ih =>
    obtain ⟨_, hn, hd | ⟨s', hs', hr⟩⟩ := run_cases h
    · obtain rfl := Nat.succ.inj hn
      exact hdone n s r hs hd
    · obtain rfl := Nat.succ.inj hn
      exact ih (hnext n s s' hs hs') hr

theorem loop_invariant {body : σ → Step σ ρ} (I : σ → Prop) (Q : ρ → Prop)
    (hnext : ∀ s s', I s → body s = .next s' → I s')
    (hdone : ∀ s r, I s → body s = .done r → Q r) {n : ℕ} {s : σ} {r : ρ} (hs : I s)
    (h : loop body n s = some r) : Q r :=
  run_invariant I Q (fun _ s s' hs hb => hnext s s' hs (Option.some.inj hb))
    (fun _ s r hs hb => hdone s r hs (Option.some.inj hb)) hs h

/-- **The invariant rule for steps**: a property that a pass keeps, whether it goes round or
leaves the loop. -/
theorem run_spec {body : ℕ → σ → Option (Step σ ρ)} (P : Step σ ρ → Prop)
    (hpass : ∀ n s x, P (.next s) → body n s = some x → P x) {n : ℕ} {s : σ} {r : ρ}
    (hs : P (.next s)) (h : run body n s = some r) : P (.done r) :=
  run_invariant (fun s => P (.next s)) (fun r => P (.done r)) (fun n s s' => hpass n s (.next s'))
    (fun n s r => hpass n s (.done r)) hs h

theorem loop_spec {body : σ → Step σ ρ} (P : Step σ ρ → Prop)
    (hpass : ∀ s, P (.next s) → P (body s)) {n : ℕ} {s : σ} {r : ρ} (hs : P (.next s))
    (h : loop body n s = some r) : P (.done r) :=
  run_spec P (fun _ s _ hs hb => Option.some.inj hb ▸ hpass s hs) hs h

/-- **The variant rule**: a loop whose passes keep `I` and lower `rank` comes to
its end within `rank + 1` passes. -/
theorem loop_total {body : σ → Step σ ρ} (I : σ → Prop) (rank : σ → ℕ)
    (hnext : ∀ s s', I s → body s = .next s' → I s' ∧ rank s' < rank s) {s : σ} (hs : I s)
    {n : ℕ} (hn : rank s < n) : ∃ r, loop body n s = some r := by
  induction n generalizing s with
  | zero => omega
  | succ n ih =>
    cases hb : body s with
    | done r => exact ⟨r, loop_done hb n⟩
    | next s' =>
      obtain ⟨hs', hr⟩ := hnext s s' hs hb
      rw [loop_next hb]
      exact ih hs' (by omega)

/-! ### Runs that are not over -/

/-- The state after `n` passes, when none of them leaves the loop. -/
def after (body : σ → Step σ ρ) : ℕ → σ → Option σ
  | 0, s => some s
  | n + 1, s =>
    match body s with
    | .next s' => after body n s'
    | .done _ => none

/-- **A run that is not over** is in the state after its passes. -/
theorem loop_eq_none_iff {body : σ → Step σ ρ} {n : ℕ} {s : σ} :
    loop body n s = none ↔ ∃ s', after body n s = some s' := by
  induction n generalizing s with
  | zero => exact ⟨fun _ => ⟨s, rfl⟩, fun _ => rfl⟩
  | succ n ih =>
    cases hb : body s with
    | next s' =>
      rw [loop_next hb, ih]
      simp only [after, hb]
    | done r =>
      rw [loop_done hb]
      simp [after, hb]

/-- A run that is not over, seen through a map of its values. -/
theorem after_of_map {body : σ → Step σ ρ} {n : ℕ} {s : σ} {g : ρ → ρ'} {y : Option ρ'}
    (h : y = (loop body n s).map g) (hy : y = none) : ∃ s', after body n s = some s' :=
  loop_eq_none_iff.mp (Option.map_eq_none_iff.mp (h.symm.trans hy))

/-- The rest of a run that is not over. -/
theorem loop_of_after {body : σ → Step σ ρ} {n : ℕ} {s s' : σ} (h : after body n s = some s')
    (m : ℕ) : loop body (n + m) s = loop body m s' := by
  induction n generalizing s with
  | zero =>
    rw [after, Option.some.injEq] at h
    rw [h, Nat.zero_add]
  | succ n ih =>
    cases hb : body s with
    | next u =>
      simp only [after, hb] at h
      rw [show n + 1 + m = n + m + 1 by omega, loop_next hb, ih h]
    | done r => simp [after, hb] at h

/-- What every pass keeps, counted by the passes, holds as long as the run goes on. -/
theorem after_invariant {body : σ → Step σ ρ} (I : ℕ → σ → Prop)
    (hnext : ∀ k s s', I k s → body s = .next s' → I (k + 1) s') {n k : ℕ} {s s' : σ} (hs : I k s)
    (h : after body n s = some s') : I (k + n) s' := by
  induction n generalizing k s with
  | zero =>
    rw [after, Option.some.injEq] at h
    exact h ▸ hs
  | succ n ih =>
    cases hb : body s with
    | next u =>
      simp only [after, hb] at h
      rw [show k + (n + 1) = k + 1 + n by omega]
      exact ih (hnext k s u hs hb) h
    | done r => simp [after, hb] at h

/-! ### Maps of states -/

/-- A step with its state and its value mapped. -/
def Step.map (f : σ → σ') (g : ρ → ρ') : Step σ ρ → Step σ' ρ'
  | .next s => .next (f s)
  | .done r => .done (g r)

/-- **A map that the bodies respect is respected by the loops.** -/
theorem run_map {body : ℕ → σ → Option (Step σ ρ)} {body' : ℕ → σ' → Option (Step σ' ρ')}
    {f : σ → σ'} {g : ρ → ρ'} (h : ∀ n s, body' n (f s) = (body n s).map (Step.map f g)) (n : ℕ)
    (s : σ) : run body' n (f s) = (run body n s).map g := by
  induction n generalizing s with
  | zero => rfl
  | succ n ih =>
    cases hb : body n s with
    | none => rw [run, run, h, hb]; rfl
    | some x =>
      have hb' := h n s
      rw [hb] at hb'
      cases x with
      | next s' => rw [run_next hb', run_next hb, ih]
      | done r => rw [run_done hb', run_done hb]; rfl

theorem loop_map {body : σ → Step σ ρ} {body' : σ' → Step σ' ρ'} {f : σ → σ'} {g : ρ → ρ'}
    (h : ∀ s, body' (f s) = (body s).map f g) (n : ℕ) (s : σ) :
    loop body' n (f s) = (loop body n s).map g :=
  run_map (fun _ s => by rw [h]; rfl) n s

/-! ### Loops without fuel, and stuttering -/

/-- The loop with passes `pass` is left with `r` when it is started in `s`. -/
inductive Ends (pass : σ → Step σ ρ → Prop) : σ → ρ → Prop
  | done {s : σ} {r : ρ} : pass s (.done r) → Ends pass s r
  | next {s s' : σ} {r : ρ} : pass s (.next s') → Ends pass s' r → Ends pass s r

/-- `Ends` is what `run` computes. -/
theorem returns_run {body : ℕ → σ → Option (Step σ ρ)} (hb : ∀ s, Mono fun n => body n s) {s : σ}
    {r : ρ} : Returns (fun n => run body n s) r ↔
      Ends (fun s x => Returns (fun n => body n s) x) s r := by
  refine ⟨?_, ?_⟩
  · intro h'
    obtain ⟨n, h⟩ := h'
    induction n generalizing s with
    | zero => simp at h
    | succ n ih =>
      obtain ⟨_, hn, hd | ⟨s', hs, hr⟩⟩ := run_cases h
      · exact .done ⟨_, hd⟩
      · obtain rfl := Nat.succ.inj hn
        exact .next ⟨n, hs⟩ (ih hr)
  · intro h
    induction h with
    | done h =>
      obtain ⟨n, hn⟩ := h
      exact ⟨n + 1, run_done hn⟩
    | @next s s' r h _ ih =>
      obtain ⟨n, hn⟩ := h
      obtain ⟨m, hm⟩ := ih
      refine ⟨max n m + 1, ?_⟩
      show run body (max n m + 1) s = some r
      rw [run_next (hb s (le_max_left n m) hn)]
      exact run_mono hb s' (le_max_right n m) hm

/-- **The variant rule for a well-founded order**: a loop whose passes return and lower `g`, which
need not be a part of the state, comes to its end. -/
theorem run_terminates {γ : Type*} {rel : γ → γ → Prop} (hrel : WellFounded rel)
    {body : ℕ → σ → Option (Step σ ρ)} (hb : ∀ s, Mono fun n => body n s) (I : γ → σ → Prop)
    (hpass : ∀ g s, I g s → ∃ x, Returns (fun n => body n s) x ∧
      ∀ s', x = .next s' → ∃ g', rel g' g ∧ I g' s') {g : γ} {s : σ} (hs : I g s) :
    ∃ r, Returns (fun n => run body n s) r := by
  simp only [returns_run hb]
  induction g using hrel.induction generalizing s with
  | h g ih =>
    obtain ⟨x, hx, hnext⟩ := hpass g s hs
    cases x with
    | done r => exact ⟨r, .done hx⟩
    | next s' =>
      obtain ⟨g', hlt, hs'⟩ := hnext s' rfl
      obtain ⟨r, hr⟩ := ih g' hlt hs'
      exact ⟨r, .next hx hr⟩

theorem loop_terminates {γ : Type*} {rel : γ → γ → Prop} (hrel : WellFounded rel)
    {body : σ → Step σ ρ} (I : γ → σ → Prop)
    (hnext : ∀ g s s', I g s → body s = .next s' → ∃ g', rel g' g ∧ I g' s') {g : γ} {s : σ}
    (hs : I g s) : ∃ r, Returns (fun n => loop body n s) r :=
  run_terminates hrel (fun s => mono_const (some (body s))) I
    (fun g s h => ⟨body s, ⟨0, rfl⟩, fun s' => hnext g s s' h⟩) hs

theorem returns_loop {body : σ → Step σ ρ} {s : σ} {r : ρ} :
    Returns (fun n => loop body n s) r ↔ Ends (fun s x => body s = x) s r := by
  rw [show (fun n => loop body n s) = fun n => run (fun _ s => some (body s)) n s from rfl,
    returns_run fun s => mono_const (some (body s))]
  have e : (fun (s : σ) (x : Step σ ρ) => Returns (fun _ : ℕ => some (body s)) x)
      = fun s x => body s = x := by
    funext s x
    exact propext ⟨fun ⟨_, h⟩ => Option.some.inj h, fun h => ⟨0, by rw [h]⟩⟩
  rw [e]

/-- The loop goes round from `s` to `s'`, any number of times. -/
def Reaches (pass : σ → Step σ ρ → Prop) : σ → σ → Prop :=
  Relation.ReflTransGen fun s s' => pass s (.next s')

/-- What a loop comes to from a state that it reaches is what it comes to. -/
theorem Reaches.ends {pass : σ → Step σ ρ → Prop} {s s' : σ} {r : ρ} (h : Reaches pass s s')
    (h' : Ends pass s' r) : Ends pass s r := by
  induction h using Relation.ReflTransGen.head_induction_on with
  | refl => exact h'
  | head hpass _ ih => exact .next hpass ih

theorem Reaches.returns_loop {body : σ → Step σ ρ} {s s' : σ} {r : ρ}
    (h : Reaches (fun s x => body s = x) s s') (h' : body s' = .done r) :
    Returns (fun n => loop body n s) r :=
  Loop.returns_loop.mpr (h.ends (.done h'))

/-- Related steps go round to related states or leave with related values. -/
inductive StepRel (Rel : σ → σ' → Prop) (Res : ρ → ρ' → Prop) : Step σ ρ → Step σ' ρ' → Prop
  | next {s : σ} {s' : σ'} : Rel s s' → StepRel Rel Res (.next s) (.next s')
  | done {r : ρ} {r' : ρ'} : Res r r' → StepRel Rel Res (.done r) (.done r')

variable {pass : σ → Step σ ρ → Prop} {pass' : σ' → Step σ' ρ' → Prop} {Rel : σ → σ' → Prop}
  {Res : ρ → ρ' → Prop}

/-- **Loops whose passes are related come to related ends**, and after as many passes. -/
theorem run_rel (Rel : σ → σ' → Prop) {Res : ρ → ρ' → Prop} {body : ℕ → σ → Option (Step σ ρ)}
    {body' : ℕ → σ' → Option (Step σ' ρ')}
    (h : ∀ n s s', Rel s s' → Option.Rel (StepRel Rel Res) (body n s) (body' n s')) (n : ℕ) {s : σ}
    {s' : σ'} (hs : Rel s s') : Option.Rel Res (run body n s) (run body' n s') := by
  induction n generalizing s s' with
  | zero => exact .none
  | succ n ih =>
    have hpass := h n s s' hs
    rw [run, run]
    generalize body n s = x at hpass ⊢
    generalize body' n s' = x' at hpass ⊢
    cases hpass with
    | none => exact .none
    | some hstep =>
      cases hstep with
      | next hnext => exact ih hnext
      | done hdone => exact .some hdone

theorem loop_rel (Rel : σ → σ' → Prop) {Res : ρ → ρ' → Prop} {body : σ → Step σ ρ}
    {body' : σ' → Step σ' ρ'} (h : ∀ s s', Rel s s' → StepRel Rel Res (body s) (body' s')) (n : ℕ)
    {s : σ} {s' : σ'} (hs : Rel s s') : Option.Rel Res (loop body n s) (loop body' n s') :=
  run_rel Rel (fun _ s s' hs => .some (h s s' hs)) n hs

/-- **Stuttering, forwards**: in related states the second loop either makes a
pass of its own that lowers `rank`, or can do what the first one does. -/
theorem Ends.simulate (rank : σ' → ℕ)
    (hstep : ∀ s s', Rel s s' →
      (∃ t', pass' s' (.next t') ∧ Rel s t' ∧ rank t' < rank s') ∨
      (∀ x, pass s x → ∃ x', pass' s' x' ∧ StepRel Rel Res x x'))
    {s : σ} {r : ρ} (h : Ends pass s r) :
    ∀ {s' : σ'}, Rel s s' → ∃ r', Ends pass' s' r' ∧ Res r r' := by
  induction h with
  | @done s r hp =>
    intro s'
    induction hk : rank s' using Nat.strongRecOn generalizing s' with
    | ind k ih =>
      intro hR
      rcases hstep s s' hR with ⟨t', ht, hRt, hlt⟩ | hmatch
      · obtain ⟨r', hr', hres⟩ := ih (rank t') (by omega) rfl hRt
        exact ⟨r', .next ht hr', hres⟩
      · obtain ⟨_, hx, ⟨⟩ | hres⟩ := hmatch _ hp
        exact ⟨_, .done hx, hres⟩
  | @next s u r hp _ ihu =>
    intro s'
    induction hk : rank s' using Nat.strongRecOn generalizing s' with
    | ind k ih =>
      intro hR
      rcases hstep s s' hR with ⟨t', ht, hRt, hlt⟩ | hmatch
      · obtain ⟨r', hr', hres⟩ := ih (rank t') (by omega) rfl hRt
        exact ⟨r', .next ht hr', hres⟩
      · obtain ⟨_, hx, hRu | ⟨⟩⟩ := hmatch _ hp
        obtain ⟨r', hr', hres⟩ := ihu hRu
        exact ⟨r', .next hx hr', hres⟩

/-- **Stuttering, backwards**: every pass of the second loop is either one of its
own or one that the first loop makes too. -/
theorem Ends.simulate_back
    (hstep : ∀ s s', Rel s s' → ∀ x', pass' s' x' →
      (∃ t', x' = .next t' ∧ Rel s t') ∨ ∃ x, pass s x ∧ StepRel Rel Res x x')
    {s' : σ'} {r' : ρ'} (h : Ends pass' s' r') :
    ∀ {s : σ}, Rel s s' → ∃ r, Ends pass s r ∧ Res r r' := by
  induction h with
  | done hp =>
    intro s hR
    rcases hstep s _ hR _ hp with ⟨_, ht, _⟩ | ⟨_, hx, ⟨⟩ | hres⟩
    · cases ht
    · exact ⟨_, .done hx, hres⟩
  | next hp _ ih =>
    intro s hR
    rcases hstep s _ hR _ hp with ⟨_, ht, hRt⟩ | ⟨_, hx, hRu | ⟨⟩⟩
    · cases ht
      exact ih hRt
    · obtain ⟨r, hr, hres⟩ := ih hRu
      exact ⟨r, .next hx hr, hres⟩

/-! ### Loops that agree -/

/-- Whatever the one computation comes to, the other one comes to something related. -/
structure Agree (Res : ρ → ρ' → Prop) (f : ℕ → Option ρ) (g : ℕ → Option ρ') : Prop where
  forth : ∀ r, Returns f r → ∃ r', Returns g r' ∧ Res r r'
  back : ∀ r', Returns g r' → ∃ r, Returns f r ∧ Res r r'

theorem Agree.imp {Res Res' : ρ → ρ' → Prop} {f : ℕ → Option ρ} {g : ℕ → Option ρ'}
    (h : Agree Res f g) (himp : ∀ r r', Res r r' → Res' r r') : Agree Res' f g := by
  refine ⟨?_, ?_⟩
  · intro r hr
    obtain ⟨r', hr', hres⟩ := h.forth r hr
    exact ⟨r', hr', himp r r' hres⟩
  · intro r' hr'
    obtain ⟨r, hr, hres⟩ := h.back r' hr'
    exact ⟨r, hr, himp r r' hres⟩

theorem Agree.const {Res : ρ → ρ' → Prop} {r : ρ} {r' : ρ'} (h : Res r r') :
    Agree Res (fun _ => some r) (fun _ => some r') := by
  refine ⟨?_, ?_⟩
  · intro s hs
    obtain ⟨n, hn⟩ := hs
    obtain rfl := Option.some.inj hn
    exact ⟨r', ⟨n, rfl⟩, h⟩
  · intro s' hs'
    obtain ⟨n, hn⟩ := hs'
    obtain rfl := Option.some.inj hn
    exact ⟨r, ⟨n, rfl⟩, h⟩

theorem Mono.map {f : ℕ → Option ρ} (h : Mono f) (k : ρ → ρ') : Mono fun n => (f n).map k := by
  intro n m r hnm hr
  obtain ⟨a, ha, hk⟩ := Option.map_eq_some_iff.mp hr
  exact Option.map_eq_some_iff.mpr ⟨a, h hnm ha, hk⟩

theorem returns_map {f : ℕ → Option ρ} {k : ρ → ρ'} {r' : ρ'} :
    Returns (fun n => (f n).map k) r' ↔ ∃ r, Returns f r ∧ k r = r' := by
  refine ⟨?_, ?_⟩
  · intro h
    obtain ⟨n, hn⟩ := h
    obtain ⟨r, hr, hk⟩ := Option.map_eq_some_iff.mp hn
    exact ⟨r, ⟨n, hr⟩, hk⟩
  · intro h
    obtain ⟨r, ⟨n, hr⟩, hk⟩ := h
    exact ⟨n, Option.map_eq_some_iff.mpr ⟨r, hr, hk⟩⟩

/-- What is made of results that agree agrees. -/
theorem Agree.map {τ τ' : Type*} {Res : ρ → ρ' → Prop} {Res' : τ → τ' → Prop}
    {f : ℕ → Option ρ} {g : ℕ → Option ρ'} {k : ρ → τ} {k' : ρ' → τ'} (h : Agree Res f g)
    (hk : ∀ r r', Res r r' → Res' (k r) (k' r')) :
    Agree Res' (fun n => (f n).map k) (fun n => (g n).map k') := by
  refine ⟨?_, ?_⟩
  · intro t ht
    obtain ⟨r, hr, rfl⟩ := returns_map.mp ht
    obtain ⟨r', hr', hres⟩ := h.forth r hr
    exact ⟨k' r', returns_map.mpr ⟨r', hr', rfl⟩, hk r r' hres⟩
  · intro t' ht'
    obtain ⟨r', hr', rfl⟩ := returns_map.mp ht'
    obtain ⟨r, hr, hres⟩ := h.back r' hr'
    exact ⟨k r, returns_map.mpr ⟨r, hr, rfl⟩, hk r r' hres⟩

/-- **The stuttering rule**: in related states the second loop either makes a pass of its
own that lowers `rank`, or both make passes that agree. -/
theorem run_stutter {body : ℕ → σ → Option (Step σ ρ)} {body' : ℕ → σ' → Option (Step σ' ρ')}
    (hb : ∀ s, Mono fun n => body n s) (hb' : ∀ s, Mono fun n => body' n s)
    (Rel : σ → σ' → Prop) (Res : ρ → ρ' → Prop) (rank : σ' → ℕ)
    (hstep : ∀ s s', Rel s s' →
      (∃ t', (∀ n, body' n s' = some (.next t')) ∧ Rel s t' ∧ rank t' < rank s') ∨
      Agree (StepRel Rel Res) (fun n => body n s) (fun n => body' n s'))
    {s : σ} {s' : σ'} (h : Rel s s') :
    Agree Res (fun n => run body n s) (fun n => run body' n s') := by
  refine ⟨?_, ?_⟩
  · intro r hr
    rw [returns_run hb] at hr
    simp only [returns_run hb']
    refine Ends.simulate rank (fun s s' hR => ?_) hr h
    rcases hstep s s' hR with ⟨t', ht, hRt, hlt⟩ | hagree
    · exact Or.inl ⟨t', ⟨0, ht 0⟩, hRt, hlt⟩
    · exact Or.inr hagree.forth
  · intro r' hr'
    rw [returns_run hb'] at hr'
    simp only [returns_run hb]
    refine Ends.simulate_back (fun s s' hR x' hx' => ?_) hr' h
    rcases hstep s s' hR with ⟨t', ht, hRt, -⟩ | hagree
    · obtain ⟨n, hn⟩ := hx'
      have hn' := (ht n).symm.trans hn
      exact Or.inl ⟨t', (Option.some.inj hn').symm, hRt⟩
    · exact Or.inr (hagree.back x' hx')

theorem loop_stutter {body : σ → Step σ ρ} {body' : σ' → Step σ' ρ'} (Rel : σ → σ' → Prop)
    (Res : ρ → ρ' → Prop) (rank : σ' → ℕ)
    (hstep : ∀ s s', Rel s s' →
      (∃ t', body' s' = .next t' ∧ Rel s t' ∧ rank t' < rank s') ∨
      StepRel Rel Res (body s) (body' s'))
    {s : σ} {s' : σ'} (h : Rel s s') :
    Agree Res (fun n => loop body n s) (fun n => loop body' n s') := by
  refine run_stutter (fun s => mono_const (some (body s))) (fun s => mono_const (some (body' s)))
    Rel Res rank (fun s s' hR => ?_) h
  rcases hstep s s' hR with ⟨t', ht, hRt, hlt⟩ | hrel
  · exact Or.inl ⟨t', fun _ => by rw [ht], hRt, hlt⟩
  · exact Or.inr (.const hrel)

end Loop
