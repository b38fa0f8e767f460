import NotIo.Flexible.Histories
import Mathlib.Order.BoundedOrder.Basic

/-!
# Lifetimes and the `Any` slot

`set_any` asks for a type parameter that is `'static`, `as_any` asks for nothing, and a reader
may be coerced to a shorter lifetime in between.  `Scoped` adds to a `World` the lifetime of
the type parameter; the values carry the lifetime that they really live for.

* `Scoped.inv_step`: as long as no short-lived value is stored behind the `Any` slot, what is
  behind it lives for `'static`.
* `any_safe_iff`: a history is safe if and only if it never stores one.
-/

namespace NotIo.Flexible

/-- A value that lives as long as `lifetime`. -/
structure Value (L C : Type) where
  lifetime : L
  content : C

section

variable {R : Type} [Program R] (k : Kind) (r : R) (L C : Type)

/-- A world, and the lifetime of the type parameter. -/
structure Scoped where
  world : World k r (Value L C)
  param : L

/-- An operation, or a coercion to a shorter lifetime.  The wrapper is coerced by value, so
that it is not borrowed. -/
inductive Change where
  | op (op : Op k r (Value L C))
  | shorten (param : L)

end

section

variable {R V : Type} [Program R] {k : Kind} {r : R}

/-- `downcast_ref` and `downcast_mut`.  A type id does not tell lifetimes apart. -/
def World.downcast [DecidableEq R] (w : World k r V) (p : Ptr (VTable R)) : Option V :=
  if p.metadata.ty = .concrete r ∧ p.data = w.value.address then some w.value.value else none

/-- What `as_any` and `as_any_mut` lead to, through whatever wrapper is in hand. -/
def World.Downcasts [DecidableEq R] (w : World k r V) (v : V) : Prop :=
  ∃ x ∈ w.handles, ∃ q ∈ x.getters .any, ∃ p ∈ q, w.downcast p = some v

/-- The value can be had through the `Any` slot once the slot is set, and never before. -/
theorem World.Inv.downcasts_iff [DecidableEq R] {ops : List (Op k r V)} {w : World k r V}
    (hi : w.Inv ops) {v : V} :
    w.Downcasts v ↔ Provided ops .any ∧ v = w.value.value := by
  refine ⟨?_, ?_⟩
  · intro h
    obtain ⟨x, hx, q, hq, p, hp, hv⟩ := h
    obtain ⟨q', hgetters, hexact⟩ := hi.getters hx (s := .any) id
    rw [hgetters] at hq
    obtain rfl := List.eq_of_mem_replicate hq
    refine ⟨hexact.some_iff.mp (Option.isSome_of_mem hp), ?_⟩
    simp only [World.downcast] at hv
    split at hv
    · exact (Option.some.inj hv).symm
    · cases hv
  · intro h
    obtain ⟨hany, rfl⟩ := h
    have howner : w.owner.handle ∈ w.handles := World.mem_handles.mpr (Or.inl rfl)
    obtain ⟨q, hgetters, hexact⟩ := hi.owner_getters .any
    have hq : q ∈ w.owner.handle.getters .any := by
      rw [hgetters]
      exact List.mem_cons_self
    obtain ⟨p, hp⟩ := Option.isSome_iff_exists.mp (hexact.some_iff.mpr hany)
    have hto := hexact.pointsTo p hp
    exact ⟨_, howner, q, hq, p, hp, if_pos ⟨hto.metadata.1, hto.data⟩⟩

/-- What an operation stores. -/
def Op.stored : Op k r V → Option V
  | .replace v | .mutate v | .mutateView v => some v
  | _ => none

theorem Owner.store_value (owner : Owner k r V) (v : V) (view : Option (WrapperMut R k)) :
    (World.value ⟨owner.store v, view⟩).value = v := by
  cases owner <;> rfl

/-- The value is what was stored last. -/
theorem World.step_value {w w' : World k r V} {op : Op k r V} (h : w.step op = some w') :
    w'.value.value = op.stored.getD w.value.value := by
  obtain ⟨owner, view⟩ := w
  cases op with
  | set s bound =>
    obtain ⟨self, hself, rfl⟩ := Option.map_eq_some_iff.mp h
    obtain rfl : owner = .wrapper self := Owner.eq_of_sized hself
    exact congrArg Object.value (self.set_inner s bound)
  | move place =>
    obtain ⟨owner', howner, rfl⟩ := Option.map_eq_some_iff.mp h
    cases owner with
    | wrapper c =>
      simp only [Owner.movedTo] at howner
      split at howner
      · cases howner
        rfl
      · cases howner
    | boxed b allocation =>
      cases howner
      rfl
  | replace v =>
    obtain ⟨self, hself, rfl⟩ := Option.map_eq_some_iff.mp h
    rfl
  | mutate v =>
    cases h
    exact owner.store_value v none
  | unsize | endUnsize =>
    obtain ⟨owner', howner, rfl⟩ := Option.map_eq_some_iff.mp h
    cases owner with
    | wrapper c =>
      cases howner
      rfl
    | boxed b allocation => cases howner
  | asMut place =>
    simp only [World.step] at h
    split at h
    · cases h
    · cases h
      rfl
  | fromMut place | moveView place =>
    simp only [World.step] at h
    split at h
    · cases h
    · obtain ⟨view', _, rfl⟩ := Option.map_eq_some_iff.mp h
      rfl
  | mutateView v =>
    obtain ⟨view', _, rfl⟩ := Option.map_eq_some_iff.mp h
    exact owner.store_value v (some view')
  | endBorrow =>
    cases h
    rfl
  | intoBoxed heap | fromOwned heap =>
    obtain ⟨self, hself, rfl⟩ := Option.map_eq_some_iff.mp h
    obtain rfl : owner = .wrapper self := Owner.eq_of_sized hself
    rfl

end

variable {R : Type} [Program R] {k : Kind} {r : R} {L C : Type} [PartialOrder L] [OrderTop L]

/-- What the operation does to the memory. -/
def Change.erase : Change k r L C → Op k r (Value L C)
  | .op o => o
  | .shorten _ => .endBorrow

/-- What the compiler asks for.  A method of the value itself does not know of shorter
lifetimes. -/
def Scoped.Allows (st : Scoped k r L C) : Change k r L C → Prop
  | .op (.set s _) => s = .any → st.param = ⊤
  | .op (.replace v) => st.param ≤ v.lifetime
  | .op (.mutate v) | .op (.mutateView v) => v.lifetime = st.world.value.value.lifetime
  | .op (.move _) | .op .unsize | .op .endUnsize | .op (.asMut _) | .op (.fromMut _)
  | .op (.moveView _) | .op .endBorrow | .op (.intoBoxed _) | .op (.fromOwned _) => True
  | .shorten param => param ≤ st.param

instance [DecidableEq L] [DecidableLE L] (st : Scoped k r L C) :
    DecidablePred st.Allows
  | .op (.set s _) => inferInstanceAs (Decidable (s = .any → st.param = ⊤))
  | .op (.replace v) => inferInstanceAs (Decidable (st.param ≤ v.lifetime))
  | .op (.mutate v) | .op (.mutateView v) =>
    inferInstanceAs (Decidable (v.lifetime = st.world.value.value.lifetime))
  | .op (.move _) | .op .unsize | .op .endUnsize | .op (.asMut _) | .op (.fromMut _)
  | .op (.moveView _) | .op .endBorrow | .op (.intoBoxed _) | .op (.fromOwned _) => isTrue trivial
  | .shorten param => inferInstanceAs (Decidable (param ≤ st.param))

def Scoped.paramAfter (st : Scoped k r L C) : Change k r L C → L
  | .op _ => st.param
  | .shorten param => param

def Scoped.step [DecidableEq L] [DecidableLE L] (st : Scoped k r L C) (c : Change k r L C) :
    Option (Scoped k r L C) :=
  if st.Allows c then (st.world.step c.erase).map fun world => ⟨world, st.paramAfter c⟩ else none

/-- The lifetime of the value, and how far the `Any` slot can be trusted. -/
structure Scoped.Inv (ops : List (Op k r (Value L C))) (st : Scoped k r L C) : Prop where
  world : st.world.Inv ops
  param : st.param ≤ st.world.value.value.lifetime
  any : Provided ops .any → st.world.value.value.lifetime = ⊤

/-- Every value that the `Any` slot leads to lives for `'static`. -/
def Scoped.Safe [DecidableEq R] (st : Scoped k r L C) : Prop :=
  ∀ v, st.world.Downcasts v → v.lifetime = ⊤

theorem Scoped.paramAfter_le {st : Scoped k r L C} {c : Change k r L C} (h : st.Allows c) :
    st.paramAfter c ≤ st.param := by
  cases c with
  | op o => exact le_refl _
  | shorten param => exact h

/-- The lifetime of the value changes by a `replace` only. -/
theorem Scoped.lifetime_cases {st : Scoped k r L C} {c : Change k r L C} (h : st.Allows c)
    {w : World k r (Value L C)} (hw : st.world.step c.erase = some w) :
    w.value.value.lifetime = st.world.value.value.lifetime ∨
      ∃ v, c = .op (.replace v) ∧ w.value.value = v := by
  have hvalue := World.step_value hw
  cases c with
  | op o =>
    cases o with
    | replace v => exact Or.inr ⟨v, rfl, hvalue⟩
    | mutate v | mutateView v => exact Or.inl ((congrArg Value.lifetime hvalue).trans h)
    | _ => exact Or.inl (congrArg Value.lifetime hvalue)
  | shorten param => exact Or.inl (congrArg Value.lifetime hvalue)

theorem Scoped.safe_iff [DecidableEq R] {ops : List (Op k r (Value L C))} {st : Scoped k r L C}
    (hi : st.world.Inv ops) :
    st.Safe ↔ (Provided ops .any → st.world.value.value.lifetime = ⊤) := by
  simp only [Scoped.Safe, hi.downcasts_iff]
  refine ⟨?_, ?_⟩
  · intro h hany
    exact h _ ⟨hany, rfl⟩
  · intro h v h'
    obtain ⟨hany, rfl⟩ := h'
    exact h hany

/-- No value shorter than `'static` is stored through `get_mut` once `set_any` was called. -/
def StoresStatic (cs : List (Change k r L C)) : Prop :=
  ∀ pre v suf, cs = pre ++ .op (.replace v) :: suf → Provided (pre.map Change.erase) .any →
    v.lifetime = ⊤

theorem StoresStatic.of_append {pre suf : List (Change k r L C)} (h : StoresStatic (pre ++ suf)) :
    StoresStatic pre := by
  intro pre' v suf' heq hany
  refine h pre' v (suf' ++ suf) ?_ hany
  rw [heq, List.append_assoc, List.cons_append]

variable [DecidableEq L] [DecidableLE L]

theorem Scoped.step_eq_some {st st' : Scoped k r L C} {c : Change k r L C} :
    st.step c = some st' ↔
      st.Allows c ∧ st.world.step c.erase = some st'.world ∧ st'.param = st.paramAfter c := by
  simp only [Scoped.step]
  split
  case isTrue h =>
    rw [Option.map_eq_some_iff]
    refine ⟨?_, ?_⟩
    · intro h₁
      obtain ⟨w, hw, rfl⟩ := h₁
      exact ⟨h, hw, rfl⟩
    · intro h₁
      obtain ⟨_, hw, hparam⟩ := h₁
      refine ⟨st'.world, hw, ?_⟩
      rw [← hparam]
  case isFalse h => exact iff_of_false (by simp) fun h' => h h'.1

/-- The type parameter is not longer than the value lives, so `set_any` sees a `'static` value;
and what is stored afterwards lives for `'static` too. -/
theorem Scoped.inv_step {ops : List (Op k r (Value L C))} {st st' : Scoped k r L C}
    {c : Change k r L C} (hi : st.Inv ops) (h : st.step c = some st')
    (hc : ∀ v, c = .op (.replace v) → Provided ops .any → v.lifetime = ⊤) :
    st'.Inv (ops ++ [c.erase]) := by
  obtain ⟨hallows, hw, hparam⟩ := Scoped.step_eq_some.mp h
  refine ⟨NotIo.Flexible.inv_step hi.world hw, ?_, ?_⟩
  · rw [hparam]
    rcases Scoped.lifetime_cases hallows hw with hlife | ⟨v, rfl, hv⟩
    · rw [hlife]
      exact (Scoped.paramAfter_le hallows).trans hi.param
    · rw [hv]
      exact hallows
  · intro hany
    rcases Scoped.lifetime_cases hallows hw with hlife | ⟨v, rfl, hv⟩
    · rw [hlife]
      rcases provided_snoc_iff.mp hany with hany | ⟨bound, hset⟩
      · exact hi.any hany
      · cases c with
        | op o =>
          obtain rfl : o = .set .any bound := hset
          have hstatic : st.param = ⊤ := hallows rfl
          exact top_le_iff.mp (hstatic.symm.le.trans hi.param)
        | shorten param => cases hset
    · rw [hv]
      rcases provided_snoc_iff.mp hany with hany | ⟨bound, hset⟩
      · exact hc v rfl hany
      · cases hset

/-- A wrapper around a value that lives at least as long as its type says. -/
def Scoped.new (value : Object (Value L C)) (bound : Implements (.concrete r) k.base)
    (place : ℕ) (param : L) : Scoped k r L C :=
  ⟨.new value bound place, param⟩

section

variable {value : Object (Value L C)} {bound : Implements (.concrete r) k.base} {place : ℕ}
  {param : L}

/-- The memory goes through the history of the operations alone. -/
theorem Scoped.world_inv {cs : List (Change k r L C)} {st : Scoped k r L C}
    (hrun : History.run Scoped.step (.new value bound place param) cs = some st) :
    st.world.Inv (cs.map Change.erase) := by
  refine History.run_invariant (fun cs st => st.world.Inv (cs.map Change.erase))
    (inv_new value bound place) ?_ hrun
  intro cs st c st' hi h
  rw [List.map_append]
  exact NotIo.Flexible.inv_step hi (Scoped.step_eq_some.mp h).2.1

theorem Scoped.inv_of_run (hvalue : param ≤ value.value.lifetime) {cs : List (Change k r L C)}
    {st : Scoped k r L C}
    (hrun : History.run Scoped.step (.new value bound place param) cs = some st)
    (hcs : StoresStatic cs) : st.Inv (cs.map Change.erase) := by
  refine History.run_invariant
    (fun cs st => StoresStatic cs → Scoped.Inv (cs.map Change.erase) st) ?_ ?_ hrun hcs
  · intro _
    refine ⟨inv_new value bound place, hvalue, ?_⟩
    intro h'
    obtain ⟨_, h⟩ := h'
    cases h
  · intro cs st c st' hi h hcs
    rw [List.map_append]
    apply Scoped.inv_step (hi hcs.of_append) h
    intro v heq hany
    subst heq
    exact hcs cs v [] rfl hany

/-- **The `Any` slot is safe as long as only `'static` values are stored behind it.**  A history
in which `get_mut` puts a shorter-lived value there has a point at which that value can be had
at the `'static` type, and no other history has. -/
theorem any_safe_iff [DecidableEq R] (hvalue : param ≤ value.value.lifetime)
    {cs : List (Change k r L C)} {last : Scoped k r L C}
    (hrun : History.run Scoped.step (.new value bound place param) cs = some last) :
    (∀ pre suf st, cs = pre ++ suf →
        History.run Scoped.step (.new value bound place param) pre = some st → st.Safe) ↔
      StoresStatic cs := by
  refine ⟨?_, ?_⟩
  · intro hsafe pre v suf heq hany
    subst heq
    rw [List.append_cons] at hrun hsafe
    obtain ⟨st, hst, _⟩ := History.run_prefix hrun
    have hlife := (Scoped.safe_iff (Scoped.world_inv hst)).mp (hsafe _ suf st rfl hst)
    obtain ⟨st₀, _, hstep⟩ := History.run_snoc_eq_some.mp hst
    have hstored : st.world.value.value = v := World.step_value (Scoped.step_eq_some.mp hstep).2.1
    rw [hstored] at hlife
    apply hlife
    rw [List.map_append]
    exact provided_snoc_iff.mpr (Or.inl hany)
  · intro hcs pre suf st heq hst
    subst heq
    exact (Scoped.safe_iff (Scoped.world_inv hst)).mpr
      (Scoped.inv_of_run hvalue hst hcs.of_append).any

end

/-! ### A reader of a `&'static str` that ends up with another string -/

/-- The lifetime of some scope, and `'static`. -/
inductive Lifetime where
  | scope | static
  deriving DecidableEq

namespace Lifetime

instance : PartialOrder Lifetime where
  le a b := a = .scope ∨ b = .static
  le_refl a := by cases a <;> simp
  le_trans a b c := by cases a <;> cases b <;> cases c <;> simp
  le_antisymm a b := by cases a <;> cases b <;> simp

instance : DecidableLE Lifetime :=
  fun a b => inferInstanceAs (Decidable (a = .scope ∨ b = .static))

instance : OrderTop Lifetime where
  top := .static
  le_top _ := Or.inr rfl

end Lifetime

/-- The slot is set and the reader coerced; the value stored is as long-lived as before. -/
def Device.coerced : List (Change .reader Device.device Lifetime Unit) :=
  [.op (.set .any (Device.implements _)), .shorten .scope, .op (.replace ⟨.static, ()⟩)]

theorem any_safe_iff_coerced :
    (∀ pre suf st, Device.coerced = pre ++ suf →
        History.run Scoped.step
          (.new ⟨10, ⟨.static, ()⟩⟩ (Device.implements _) 20 .static) pre = some st → st.Safe) ↔
      StoresStatic Device.coerced :=
  any_safe_iff (Or.inr rfl) rfl

theorem any_slot_outlived :
    ∃ st : Scoped .reader Device.device Lifetime Unit,
      History.run Scoped.step (.new ⟨10, ⟨.static, ()⟩⟩ (Device.implements _) 20 .static)
        [.op (.set .any (Device.implements _)), .shorten .scope, .op (.replace ⟨.scope, ()⟩)] =
          some st ∧
      ∃ v, st.world.Downcasts v ∧ v.lifetime ≠ ⊤ := by
  have hrun : ∃ st : Scoped .reader Device.device Lifetime Unit,
      History.run Scoped.step (.new ⟨10, ⟨.static, ()⟩⟩ (Device.implements _) 20 .static)
        [.op (.set .any (Device.implements _)), .shorten .scope, .op (.replace ⟨.scope, ()⟩)] =
          some st ∧ st.world.value.value.lifetime = .scope := ⟨_, rfl, rfl⟩
  obtain ⟨st, hrun, hlife⟩ := hrun
  refine ⟨st, hrun, _, (Scoped.world_inv hrun).downcasts_iff.mpr ⟨?_, rfl⟩, ?_⟩
  · exact ⟨Device.implements _, List.mem_cons_self⟩
  · rw [hlife]
    intro h
    cases h

end NotIo.Flexible
