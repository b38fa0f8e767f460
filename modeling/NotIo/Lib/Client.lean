import Mathlib.Tactic.Common

/-!
# Clients

A client asks a machine for something, and what it asks for next may depend on the reply.  A
machine may not take a request, for a reason in `F`.

* `serve`: a machine that takes every request.
* `serve_rel`: machines that reply alike serve every client alike.
* `Refines.run`: what a machine does step by step like another one, it does with every client.
-/

/-- A program that makes requests in `Q β`, which are replied to in `A β`, up to an end in `B`. -/
inductive Client (Q A : Type → Type) (B : Type) : Type 1 where
  | ret (b : B)
  | ask {β : Type} (q : Q β) (next : A β → Client Q A B)

namespace Client

variable {Q A : Type → Type} {B F S T : Type}

/-- What the client comes to with the machine, and the state that the machine is left in. -/
def run (step : ∀ β, S → Q β → Except F (S × A β)) : S → Client Q A B → Except F (S × B)
  | s, ret b => .ok (s, b)
  | s, ask q next =>
    match step _ s q with
    | .error f => .error f
    | .ok (s', a) => run step s' (next a)

def serve (step : ∀ β, T → Q β → T × A β) : T → Client Q A B → T × B
  | t, ret b => (t, b)
  | t, ask q next => serve step (step _ t q).1 (next (step _ t q).2)

/-- Every request that the client may come to make. -/
def All (P : ∀ β, Q β → Prop) : Client Q A B → Prop
  | ret _ => True
  | ask q next => P _ q ∧ ∀ a, (next a).All P

/-- It fails as `Fails` says, or there is a result as `G` says. -/
def Gives {X : Type} (Fails : F → Prop) (G : X → Prop) : Except F X → Prop
  | .error f => Fails f
  | .ok x => G x

/-- A request that is taken is replied to in the same way in related states, and leaves them
related; `Fails` says what may go wrong with the others. -/
def Refines (step : ∀ β, S → Q β → Except F (S × A β)) (spec : ∀ β, T → Q β → T × A β)
    (Rel : S → T → Prop) (P : ∀ β, Q β → Prop) (Fails : F → Prop) : Prop :=
  ∀ β s t (q : Q β), Rel s t → P β q →
    Gives Fails (fun x => x.2 = (spec β t q).2 ∧ Rel x.1 (spec β t q).1) (step β s q)

/-- **No client can tell the machine from the one that it refines.** -/
theorem Refines.run {step : ∀ β, S → Q β → Except F (S × A β)} {spec : ∀ β, T → Q β → T × A β}
    {Rel : S → T → Prop} {P : ∀ β, Q β → Prop} {Fails : F → Prop}
    (h : Refines step spec Rel P Fails) {c : Client Q A B} (hc : c.All P) {s : S} {t : T}
    (hs : Rel s t) :
    Gives Fails (fun x => x.2 = (c.serve spec t).2 ∧ Rel x.1 (c.serve spec t).1)
      (c.run step s) := by
  induction c generalizing s t with
  | ret b => exact ⟨rfl, hs⟩
  | ask q next ih =>
    have hstep := h _ s t q hs hc.1
    rcases hq : step _ s q with f | ⟨s', a⟩
    · rw [hq] at hstep
      rw [Client.run, hq]
      exact hstep
    · rw [hq] at hstep
      obtain ⟨rfl, hs'⟩ := hstep
      rw [Client.run, hq]
      exact ih (spec _ t q).2 (hc.2 _) hs'

/-- Machines that reply alike step by step serve every client alike. -/
theorem serve_rel (Rel : S → T → Prop) {step : ∀ β, S → Q β → S × A β}
    {step' : ∀ β, T → Q β → T × A β}
    (h : ∀ β s t (q : Q β), Rel s t →
      (step β s q).2 = (step' β t q).2 ∧ Rel (step β s q).1 (step' β t q).1)
    (c : Client Q A B) {s : S} {t : T} (hs : Rel s t) :
    (c.serve step s).2 = (c.serve step' t).2 ∧ Rel (c.serve step s).1 (c.serve step' t).1 := by
  induction c generalizing s t with
  | ret b => exact ⟨rfl, hs⟩
  | ask q next ih =>
    obtain ⟨hreply, hnext⟩ := h _ s t q hs
    rw [serve, serve, hreply]
    exact ih _ hnext

end Client
