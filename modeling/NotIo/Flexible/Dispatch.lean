import NotIo.Flexible.Windows
import NotIo.Flexible.Lifetimes
import NotIo.Lib.Client

/-!
# Methods called through a wrapper

A user of a wrapper calls methods of the value through the references that the getters return.
`World.request` does so with the pointers, and a use of a pointer that is none of the value as
the trait in question is undefined.  `Provider` is what a wrapper is for: a value, and the traits
that it was told to have.

* `World.request_refines`: every request is replied to as by the `Provider`.
* `wrapper_refines_provider`: so is every client, from `new` on, and nothing is undefined.
-/

namespace NotIo.Flexible

section

variable {R : Type} [Program R] (k : Kind) (r : R) (V : Type)

/-- The wrapper that is asked: the owner of the value, or what borrows it. -/
inductive Holder where
  | owner | view

/-- What a user does: an operation, or a call of a method through a getter.  `query` calls one
that takes `&self` by way of `as_seek` and its like, `call` one that takes `&mut self` by way of
`as_seek_mut`, and `callBase` one of `as_read_mut` or `as_write_mut`. -/
inductive Request (β : Type) where
  | op (op : Op k r V)
  | query (x : Holder) (s : Slot k) (method : V → β)
  | call (x : Holder) (s : Slot k) (method : V → V × β)
  | callBase (x : Holder) (method : V → V × β)

/-- `declined` says that the getter has returned `None`. -/
inductive Reply (β : Type) where
  | done
  | declined
  | answer (b : β)

/-- The compiler does not accept the request, or the behaviour is undefined. -/
inductive Fault where
  | rejected | undefined
  deriving DecidableEq

end

variable {R V β : Type} [Program R] {k : Kind} {r : R}

/-! ### With pointers -/

/-- What `as_seek` and its like return. -/
def Handle.asShared (x : Handle k r V) (s : Slot k) : Option (Ptr (VTable R)) :=
  (x.getters s).head?.join

/-- What `as_seek_mut` and its like return, for the traits that have one. -/
def Handle.asMutable (x : Handle k r V) (s : Slot k) : Option (Option (Ptr (VTable R))) :=
  (x.getters s)[1]?

/-- `as_read_mut` and `as_write_mut`. -/
def Handle.asBaseMut : Handle k r V → Ptr (VTable R)
  | .wrapper self => self.asBaseMut
  | .boxed self => self.asBaseMut
  | .view self => self.asBaseMut

def World.handle (w : World k r V) : Holder → Option (Handle k r V)
  | .owner => some w.owner.handle
  | .view => w.view.map .view

/-- The value behind a pointer that is used as a `dyn t`. -/
def World.deref [DecidableEq R] (w : World k r V) (t : Trait) (p : Ptr (VTable R)) : Option V :=
  if p.data = w.value.address ∧ p.metadata.ty = .concrete r ∧ p.metadata.trait = t then
    some w.value.value
  else none

/-- Using the owner ends the borrow. -/
def World.used (w : World k r V) : Holder → World k r V
  | .owner => ⟨w.owner, none⟩
  | .view => w

def World.stored (w : World k r V) (x : Holder) (v : V) : World k r V :=
  ⟨w.owner.store v, match x with
    | .owner => none
    | .view => w.view⟩

/-- A method is called through the pointer. -/
def World.callAt [DecidableEq R] (w : World k r V) (x : Holder) (t : Trait) (p : Ptr (VTable R))
    (method : V → V × β) : Except Fault (World k r V × Reply β) :=
  match w.deref t p with
  | none => .error .undefined
  | some v => .ok (w.stored x (method v).1, .answer (method v).2)

def World.request [DecidableEq R] (w : World k r V) :
    Request k r V β → Except Fault (World k r V × Reply β)
  | .op op =>
    match w.step op with
    | none => .error .rejected
    | some w' => .ok (w', .done)
  | .query x s method =>
    match (w.handle x).map fun h => h.asShared s with
    | none => .error .rejected
    | some none => .ok (w.used x, .declined)
    | some (some p) => w.callAt x s.trait p fun v => (v, method v)
  | .call x s method =>
    match (w.handle x).bind fun h => h.asMutable s with
    | none => .error .rejected
    | some none => .ok (w.used x, .declined)
    | some (some p) => w.callAt x s.trait p method
  | .callBase x method =>
    match w.handle x with
    | none => .error .rejected
    | some h => w.callAt x k.base h.asBaseMut method

/-! ### What it is for -/

/-- A value, and the traits that it was told to have. -/
structure Provider (k : Kind) (V : Type) where
  value : V
  provided : Slot k → Bool

def Provider.new (value : V) : Provider k V :=
  ⟨value, fun _ => false⟩

def Provider.callMethod (a : Provider k V) (method : V → V × β) : Provider k V × Reply β :=
  ({ a with value := (method a.value).1 }, .answer (method a.value).2)

/-- Setters add a trait, stores replace the value, and every other operation changes nothing. -/
def Provider.step (a : Provider k V) : Op k r V → Provider k V
  | .set s _ => { a with provided := Function.update a.provided s true }
  | op => { a with value := op.stored.getD a.value }

def Provider.request (a : Provider k V) : Request k r V β → Provider k V × Reply β
  | .op op => (a.step op, .done)
  | .query _ s method => (a, if a.provided s then .answer (method a.value) else .declined)
  | .call _ s method => if a.provided s then a.callMethod method else (a, .declined)
  | .callBase _ method => a.callMethod method

/-! ### Refinement -/

/-- The world is one of the `Provider`, after some history. -/
def World.Represents (w : World k r V) (a : Provider k V) : Prop :=
  ∃ ops, w.Inv ops ∧ (∀ s, a.provided s = true ↔ Provided ops s) ∧ w.value.value = a.value

/-- A `ReaderMut` is not asked for one of the handles of Windows. -/
def Request.Portable : Request k r V β → Prop
  | .query .view s _ => k = .reader → ¬ s.Windows
  | _ => True

theorem World.PointsTo.deref [DecidableEq R] {w : World k r V} {t : Trait} {p : Ptr (VTable R)}
    (h : w.PointsTo t p) : w.deref t p = some w.value.value :=
  if_pos ⟨h.data, h.metadata.1, h.metadata.2⟩

/-- Operations do with the world what they do with the `Provider`. -/
theorem World.Represents.step {w w' : World k r V} {a : Provider k V} (h : w.Represents a)
    (op : Op k r V) (hw : w.step op = some w') : w'.Represents (a.step op) := by
  obtain ⟨ops, hi, hprovided, hvalue⟩ := h
  have hvalue' : w'.value.value = op.stored.getD a.value := by
    rw [World.step_value hw, hvalue]
  refine ⟨ops ++ [op], inv_step hi hw, ?_, ?_⟩
  · intro s
    rw [provided_snoc_iff, ← hprovided]
    cases op with
    | set t bound =>
      show Function.update a.provided t true s = true ↔ _
      by_cases hst : s = t
      · subst hst
        rw [Function.update_self]
        exact ⟨fun _ => Or.inr ⟨bound, rfl⟩, fun _ => rfl⟩
      · rw [Function.update_of_ne hst]
        refine ⟨Or.inl, fun h' => h'.resolve_right ?_⟩
        intro h''
        obtain ⟨bound', h''⟩ := h''
        cases h''
        exact hst rfl
    | _ =>
      refine ⟨Or.inl, fun h' => h'.resolve_right ?_⟩
      intro h''
      obtain ⟨bound', h''⟩ := h''
      cases h''
  · cases op with
    | set t bound => exact hvalue'
    | _ => exact hvalue'

/-- A use that stores nothing leaves everything as it was. -/
theorem World.Represents.used {w : World k r V} {a : Provider k V} (h : w.Represents a)
    (x : Holder) : (w.used x).Represents a := by
  cases x with
  | owner => exact h.step .endBorrow rfl
  | view => exact h

theorem World.Represents.stored {w : World k r V} {a : Provider k V} (h : w.Represents a)
    {x : Holder} {hd : Handle k r V} (hx : w.handle x = some hd) (v : V) :
    (w.stored x v).Represents { a with value := v } := by
  cases x with
  | owner => exact h.step (.mutate v) rfl
  | view =>
    obtain ⟨view, hview, -⟩ := Option.map_eq_some_iff.mp hx
    refine h.step (.mutateView v) ?_
    show w.view.map _ = _
    rw [hview, World.stored, hview]
    rfl

theorem World.mem_handles_of_handle {w : World k r V} {x : Holder} {hd : Handle k r V}
    (h : w.handle x = some hd) : hd ∈ w.handles := by
  cases x with
  | owner => exact World.mem_handles.mpr (Or.inl (Option.some.inj h).symm)
  | view =>
    obtain ⟨view, hview, rfl⟩ := Option.map_eq_some_iff.mp h
    exact World.mem_handles.mpr (Or.inr ⟨view, hview, rfl⟩)

/-- The getters are right, except those of the handles of Windows through a `ReaderMut`. -/
theorem World.Inv.exact {ops : List (Op k r V)} {w : World k r V} (hi : w.Inv ops) {x : Holder}
    {hd : Handle k r V} (hx : w.handle x = some hd) {s : Slot k}
    (hs : x = .view → k = .reader → ¬ s.Windows) :
    ∃ q, hd.getters s = List.replicate s.accessors q ∧ w.Exact (Provided ops s) s.trait q := by
  have hmem := World.mem_handles_of_handle hx
  by_cases hw : s.Windows
  · obtain ⟨M, raw, hgetters, hraw⟩ := Handle.windows_getters hi hmem hw
    refine ⟨_, hgetters, hi.table.exact (hraw.mpr ?_) s⟩
    intro hmut
    cases x with
    | owner =>
      obtain rfl : w.owner.handle = hd := Option.some.inj hx
      cases howner : w.owner with
      | wrapper c => rw [howner] at hmut; exact hmut
      | boxed b allocation => rw [howner] at hmut; exact hmut
    | view =>
      obtain ⟨view, hview, rfl⟩ := Option.map_eq_some_iff.mp hx
      exact hs rfl hmut hw
  · exact hi.getters hmem hw

theorem Handle.asShared_mem (x : Handle k r V) (s : Slot k) : x.asShared s ∈ x.getters s := by
  cases x with
  | wrapper self => cases s <;> exact List.mem_cons_self
  | boxed self => cases s <;> exact List.mem_cons_self
  | view self => cases s <;> exact List.mem_cons_self

/-- The handles of Windows have no mutable getter. -/
theorem Handle.not_windows_of_asMutable {x : Handle k r V} {s : Slot k}
    {q : Option (Ptr (VTable R))} (h : x.asMutable s = some q) : ¬ s.Windows := by
  intro hs
  cases s with
  | windowsFileExt | asHandle | asRawHandle | asSocket | asRawSocket =>
    cases x <;> cases h
  | _ => exact hs

/-- What a getter returns is `None`, or leads to the value as what it was told to be. -/
theorem World.Represents.getter {w : World k r V} {a : Provider k V} (h : w.Represents a)
    {x : Holder} {hd : Handle k r V} (hx : w.handle x = some hd) {s : Slot k}
    (hs : x = .view → k = .reader → ¬ s.Windows) {q : Option (Ptr (VTable R))}
    (hq : q ∈ hd.getters s) :
    (q = none ∧ a.provided s = false) ∨
      ∃ p, q = some p ∧ a.provided s = true ∧ w.PointsTo s.trait p := by
  obtain ⟨ops, hi, hprovided, -⟩ := h
  obtain ⟨q', hgetters, hexact⟩ := hi.exact hx hs
  rw [hgetters] at hq
  obtain rfl := List.eq_of_mem_replicate hq
  cases q with
  | none =>
    refine Or.inl ⟨rfl, ?_⟩
    rw [Bool.eq_false_iff]
    intro htrue
    have hsome := hexact.some_iff.mpr ((hprovided s).mp htrue)
    cases hsome
  | some p =>
    exact Or.inr ⟨p, rfl, (hprovided s).mpr (hexact.some_iff.mp rfl), hexact.pointsTo p rfl⟩

theorem World.Represents.base {w : World k r V} {a : Provider k V} (h : w.Represents a)
    {x : Holder} {hd : Handle k r V} (hx : w.handle x = some hd) :
    w.PointsTo k.base hd.asBaseMut := by
  obtain ⟨ops, hi, -, -⟩ := h
  obtain ⟨p, hbases, hp⟩ := hi.bases (World.mem_handles_of_handle hx)
  have hmem : hd.asBaseMut ∈ hd.bases := by cases hd <;> simp [Handle.bases, Handle.asBaseMut]
  rw [hbases] at hmem
  rw [List.eq_of_mem_replicate hmem]
  exact hp

/-- A call through a pointer to the value is a call of its method. -/
theorem World.Represents.callAt [DecidableEq R] {w : World k r V} {a : Provider k V}
    (h : w.Represents a) {x : Holder} {hd : Handle k r V} (hx : w.handle x = some hd) {t : Trait}
    {p : Ptr (VTable R)} (hp : w.PointsTo t p) (method : V → V × β) :
    w.callAt x t p method = .ok (w.stored x (method a.value).1, (a.callMethod method).2) ∧
      (w.stored x (method a.value).1).Represents (a.callMethod method).1 := by
  have hvalue : w.value.value = a.value := h.choose_spec.2.2
  refine ⟨?_, h.stored hx _⟩
  simp only [World.callAt, hp.deref, hvalue, Provider.callMethod]

/-- A method is called through the view, which is there again afterwards. -/
def Request.OnView : Request k r V β → Prop
  | .op _ => False
  | .query x _ _ | .callBase x _ => x = .view
  | .call x s _ => x = .view ∧ 1 < s.accessors

/-- A handle has the mutable getter of a field when there is one. -/
theorem Handle.asMutable_isSome (x : Handle k r V) {s : Slot k} (hs : 1 < s.accessors) :
    ∃ q, x.asMutable s = some q := by
  cases s with
  | buf | seek | any => cases x <;> exact ⟨_, rfl⟩
  | _ => exact absurd hs (Nat.lt_irrefl 1)

theorem World.handle_view {w : World k r V} (h : w.view.isSome = true) :
    ∃ hd, w.handle .view = some hd := by
  obtain ⟨view, hview⟩ := Option.isSome_iff_exists.mp h
  exact ⟨.view view, by rw [World.handle, hview, Option.map_some]⟩

theorem World.handle_ne_none {w : World k r V} {x : Holder} (hx : x = .view)
    (h : w.view.isSome = true) : w.handle x ≠ none := by
  obtain ⟨hd, hhd⟩ := World.handle_view h
  rw [hx, hhd]
  exact Option.some_ne_none hd

/-- The request is replied to as by the `Provider`, and a view is kept that it goes through. -/
def World.Replies [DecidableEq R] (w : World k r V) (a : Provider k V) (q : Request k r V β) :
    Prop :=
  ∃ w', w.request q = .ok (w', (a.request q).2) ∧ w'.Represents (a.request q).1 ∧
    (q.OnView → w'.view = w.view)

theorem World.replies_query [DecidableEq R] {w : World k r V} {a : Provider k V}
    (h : w.Represents a) {x : Holder} {s : Slot k} {method : V → β}
    (hq : (Request.query (r := r) x s method).Portable) {hd : Handle k r V}
    (hx : w.handle x = some hd) : w.Replies a (.query x s method) := by
  have hs : x = .view → k = .reader → ¬ s.Windows := by
    intro hview
    subst hview
    exact hq
  rcases h.getter hx hs (hd.asShared_mem s) with ⟨hnone, hfalse⟩ | ⟨p, hsome, htrue, hp⟩
  · refine ⟨w.used x, ?_, h.used x, ?_⟩
    · simp only [World.request, hx, Option.map_some, hnone, Provider.request, hfalse,
        Bool.false_eq_true, if_false]
    · intro hview
      rw [show x = .view from hview]
      rfl
  · obtain ⟨hcall, hrep⟩ := h.callAt hx hp fun v => (v, method v)
    refine ⟨_, ?_, hrep, ?_⟩
    · simp only [World.request, hx, Option.map_some, hsome, hcall, Provider.request, htrue,
        if_true, Provider.callMethod]
    · intro hview
      rw [show x = .view from hview]
      rfl

theorem World.replies_call [DecidableEq R] {w : World k r V} {a : Provider k V}
    (h : w.Represents a) {x : Holder} {s : Slot k} {method : V → V × β} {hd : Handle k r V}
    (hx : w.handle x = some hd) {q : Option (Ptr (VTable R))} (hmut : hd.asMutable s = some q) :
    w.Replies a (.call x s method) := by
  have hs : x = .view → k = .reader → ¬ s.Windows :=
    fun _ _ => Handle.not_windows_of_asMutable hmut
  rcases h.getter hx hs (List.mem_of_getElem? hmut) with ⟨rfl, hfalse⟩ | ⟨p, rfl, htrue, hp⟩
  · refine ⟨w.used x, ?_, ?_, ?_⟩
    · simp only [World.request, hx, Option.bind_some, hmut, Provider.request, hfalse,
        Bool.false_eq_true, if_false]
    · simp only [Provider.request, hfalse, Bool.false_eq_true, if_false]
      exact h.used x
    · intro hview
      rw [hview.1]
      rfl
  · obtain ⟨hcall, hrep⟩ := h.callAt hx hp method
    refine ⟨w.stored x (method a.value).1, ?_, ?_, ?_⟩
    · simp only [World.request, hx, Option.bind_some, hmut, hcall, Provider.request, htrue, if_true]
    · simp only [Provider.request, htrue, if_true]
      exact hrep
    · intro hview
      rw [hview.1]
      rfl

/-- **Every request is replied to as by the `Provider`**, unless the compiler does not accept it;
it accepts the calls through a view. -/
theorem World.request_refines [DecidableEq R] {w : World k r V} {a : Provider k V}
    (h : w.Represents a) {q : Request k r V β} (hq : q.Portable) :
    (w.request q = .error .rejected ∧ ¬ (q.OnView ∧ w.view.isSome = true)) ∨ w.Replies a q := by
  cases q with
  | op op =>
    rcases hw : w.step op with _ | w'
    · exact Or.inl ⟨by simp only [World.request, hw], fun hview => hview.1⟩
    · exact Or.inr ⟨w', by simp only [World.request, hw, Provider.request], h.step op hw, False.elim⟩
  | query x s method =>
    rcases hx : w.handle x with _ | hd
    · refine Or.inl ⟨by simp only [World.request, hx, Option.map_none], ?_⟩
      exact fun hview => World.handle_ne_none hview.1 hview.2 hx
    · exact Or.inr (World.replies_query h hq hx)
  | call x s method =>
    rcases hx : (w.handle x).bind fun h => h.asMutable s with _ | q
    · refine Or.inl ⟨by simp only [World.request, hx], ?_⟩
      intro hview
      obtain ⟨⟨rfl, hs⟩, hsome⟩ := hview
      obtain ⟨hd, hhd⟩ := World.handle_view hsome
      obtain ⟨q, hmut⟩ := hd.asMutable_isSome hs
      rw [hhd, Option.bind_some, hmut] at hx
      cases hx
    · obtain ⟨hd, hhd, hmut⟩ := Option.bind_eq_some_iff.mp hx
      exact Or.inr (World.replies_call h hhd hmut)
  | callBase x method =>
    rcases hx : w.handle x with _ | hd
    · refine Or.inl ⟨by simp only [World.request, hx], ?_⟩
      exact fun hview => World.handle_ne_none hview.1 hview.2 hx
    · obtain ⟨hcall, hrep⟩ := h.callAt hx (h.base hx) method
      refine Or.inr ⟨_, by simp only [World.request, hx, hcall, Provider.request], hrep, ?_⟩
      intro hview
      rw [show x = .view from hview]
      rfl

theorem represents_new (value : Object V) (bound : Implements (.concrete r) k.base) (place : ℕ) :
    (World.new value bound place).Represents (Provider.new value.value) := by
  refine ⟨[], inv_new value bound place, ?_, rfl⟩
  intro s
  constructor
  · intro h
    cases h
  · intro h'
    obtain ⟨_, h⟩ := h'
    cases h

/-- The `Provider` can be read off the world. -/
theorem World.Represents.eq {w : World k r V} {a : Provider k V} (h : w.Represents a) :
    a = ⟨w.value.value, fun s => (w.owner.vtable s).isSome⟩ := by
  obtain ⟨ops, hi, hprovided, hvalue⟩ := h
  obtain ⟨v, provided⟩ := a
  have htable : provided = fun s => (w.owner.vtable s).isSome := by
    funext s
    rw [Bool.eq_iff_iff]
    exact (hprovided s).trans (hi.table.some_iff s).symm
  rw [htable, show v = w.value.value from hvalue.symm]

/-! ### Users -/

/-- A program that uses a wrapper. -/
abbrev User (k : Kind) (r : R) (V B : Type) := Client (Request k r V) Reply B

/-- A method that runs on fuel, as one call. -/
def looping {β : Type} (method : V → Option (V × β)) (v : V) : V × Option β :=
  match method v with
  | none => (v, none)
  | some (v', b) => (v', some b)

theorem looping_of {β : Type} {method : V → Option (V × β)} {v v' : V} {b : β}
    (h : method v = some (v', b)) : looping method v = (v', some b) := by
  rw [looping, h]

def World.run [DecidableEq R] {B : Type} (w : World k r V) (user : User k r V B) :
    Except Fault (World k r V × B) :=
  Client.run (fun _ (w : World k r V) q => w.request q) w user

def Provider.run {B : Type} (a : Provider k V) (user : User k r V B) : Provider k V × B :=
  Client.serve (fun _ (a : Provider k V) q => a.request q) a user

def User.Portable {B : Type} (user : User k r V B) : Prop :=
  user.All fun _ q => q.Portable

theorem World.Represents.run [DecidableEq R] {w : World k r V} {a : Provider k V}
    (h : w.Represents a) {B : Type} {user : User k r V B} (huser : user.Portable) :
    Client.Gives (· = .rejected) (fun x => x.2 = (a.run user).2 ∧ x.1.Represents (a.run user).1)
      (w.run user) := by
  refine Client.Refines.run ?_ huser h
  intro β w a q h hq
  show Client.Gives _ (fun x => x.2 = (a.request q).2 ∧ x.1.Represents (a.request q).1) (w.request q)
  rcases World.request_refines h hq with ⟨hrejected, -⟩ | ⟨w', hok, hrep, -⟩
  · rw [hrejected]
    exact rfl
  · rw [hok]
    exact ⟨rfl, hrep⟩

/-- A user of the view alone always comes to its end. -/
theorem World.Represents.run_view [DecidableEq R] {w : World k r V} {a : Provider k V}
    (h : w.Represents a) (hview : w.view.isSome = true) {B : Type} {user : User k r V B}
    (huser : user.All fun _ q => q.Portable ∧ q.OnView) :
    ∃ w', w.run user = .ok (w', (a.run user).2) ∧ w'.Represents (a.run user).1 ∧
      w'.view = w.view := by
  have hgives : Client.Gives (fun _ : Fault => False)
      (fun x => x.2 = (a.run user).2 ∧ x.1.Represents (a.run user).1 ∧ x.1.view = w.view)
      (w.run user) := by
    refine Client.Refines.run (show Client.Refines _ _
      (fun (w' : World k r V) a => w'.Represents a ∧ w'.view = w.view) _ _ from ?_) huser ⟨h, rfl⟩
    intro β w₁ a q h₁ hq
    obtain ⟨h₁, hsame⟩ := h₁
    show Client.Gives _ (fun x => x.2 = (a.request q).2 ∧ x.1.Represents (a.request q).1 ∧
      x.1.view = w.view) (w₁.request q)
    rcases World.request_refines h₁ hq.1 with ⟨-, hnot⟩ | ⟨w', hok, hrep, hkept⟩
    · refine absurd ⟨hq.2, ?_⟩ hnot
      rw [hsame, hview]
    · rw [hok]
      exact ⟨rfl, hrep, (hkept hq.2).trans hsame⟩
  rcases hrun : w.run user with f | ⟨w', b⟩
  · rw [hrun] at hgives
    exact hgives.elim
  · rw [hrun] at hgives
    obtain ⟨hb, hrep, hsame⟩ := hgives
    exact ⟨w', by rw [show b = _ from hb], hrep, hsame⟩

/-- What a user of the view comes to is what it comes to with the `Provider`. -/
theorem World.Represents.serve_view [DecidableEq R] {w : World k r V} {a : Provider k V}
    (h : w.Represents a) (hview : w.view.isSome = true) {B : Type} {user : User k r V B}
    (huser : user.All fun _ q => q.Portable ∧ q.OnView) {a' : Provider k V} {b : B}
    (hserve : a.run user = (a', b)) :
    ∃ w', w.run user = .ok (w', b) ∧ w'.value.value = a'.value := by
  obtain ⟨w', hok, hrep, -⟩ := h.run_view hview huser
  rw [hserve] at hok hrep
  exact ⟨w', hok, hrep.choose_spec.2.2⟩

/-- The value in the wrapper, with the traits that are in its table. -/
def World.provider (w : World k r V) : Provider k V :=
  ⟨w.value.value, fun s => (w.owner.vtable s).isSome⟩

theorem provider_of_run {value : Object V} {bound : Implements (.concrete r) k.base} {place : ℕ}
    {ops : List (Op k r V)} {w : World k r V}
    (hrun : History.run World.step (.new value bound place) ops = some w) :
    w.Represents w.provider ∧ ∀ s, w.provider.provided s = true ↔ Provided ops s := by
  have hi := inv_of_run hrun
  exact ⟨⟨ops, hi, hi.table.some_iff, rfl⟩, hi.table.some_iff⟩

/-- **To its users a wrapper is a value with the traits that it was told to have.**  A program that
the compiler accepts comes to the end that it would come to with the value itself, whatever it
moves, boxes, borrows and calls in between, and nothing it does is undefined. -/
theorem wrapper_refines_provider [DecidableEq R] {B : Type} (value : Object V)
    (bound : Implements (.concrete r) k.base) (place : ℕ) {user : User k r V B}
    (huser : user.Portable) :
    (World.new value bound place).run user ≠ .error .undefined ∧
      ∀ w b, (World.new value bound place).run user = .ok (w, b) →
        (Provider.new value.value).run user =
          (⟨w.value.value, fun s => (w.owner.vtable s).isSome⟩, b) := by
  have hgives := (represents_new value bound place).run huser
  rcases hrun : (World.new value bound place).run user with f | ⟨w', b'⟩
  · rw [hrun] at hgives
    have hf : f = .rejected := hgives
    subst hf
    refine ⟨by simp, ?_⟩
    intro w b h
    cases h
  · rw [hrun] at hgives
    obtain ⟨hb, hrep⟩ := hgives
    refine ⟨by simp, ?_⟩
    intro w b h
    cases h
    exact Prod.ext hrep.eq hb.symm

/-- A value is told that it can seek, and lent. -/
def Device.seekable (V : Type) : List (Op .reader Device.device V) :=
  [.set .seek (Device.implements Trait.seek), .asMut 50]

/-- A method of a counter. -/
def Device.count (n : ℕ) : ℕ × ℕ :=
  (n.succ, n)

/-- A counter is told that it can seek, boxed and lent.  Its user calls a method through the loan,
and asks the box for what it was not told of. -/
def Device.lent : User .reader Device.device ℕ (Reply ℕ × Reply ℕ) :=
  .ask (.op (.set .seek (Device.implements Trait.seek)) : Request .reader Device.device ℕ Unit)
    fun _ => .ask (.op (.intoBoxed 40) : Request .reader Device.device ℕ Unit)
      fun _ => .ask (.op (.asMut 50) : Request .reader Device.device ℕ Unit)
        fun _ => .ask (.call .view .seek Device.count)
          fun sought => .ask (.query .owner .buf Nat.succ) fun shown => .ret (sought, shown)

theorem wrapper_refines_provider_lent :
    ∃ w, (World.new ⟨10, 7⟩ (Device.implements _) 20).run Device.lent = .ok (w, .answer 7, .declined) ∧
      (Provider.new 7).run Device.lent =
        (⟨w.value.value, fun s => (w.owner.vtable s).isSome⟩, .answer 7, .declined) := by
  have hportable : Device.lent.Portable :=
    ⟨trivial, fun _ => ⟨trivial, fun _ => ⟨trivial, fun _ => ⟨trivial, fun _ => ⟨trivial, fun _ =>
      trivial⟩⟩⟩⟩⟩
  have h := wrapper_refines_provider ⟨10, 7⟩ (Device.implements _) 20 hportable
  have hrun : ∃ w, (World.new ⟨10, 7⟩ (Device.implements _) 20).run Device.lent =
      .ok (w, .answer 7, .declined) := ⟨_, rfl⟩
  obtain ⟨w, hw⟩ := hrun
  exact ⟨w, hw, h.2 w _ hw⟩

end NotIo.Flexible
