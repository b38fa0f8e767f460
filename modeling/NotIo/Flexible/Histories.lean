import NotIo.Lib.History
import NotIo.Flexible.Wrapper

/-!
# Histories of a wrapper

`World` is the memory around one wrapped value: the wrapper or box that owns it, and the
`ReaderMut` or `WriterMut` that borrows it, if there is one.  An operation on the owner ends
the borrow.

* `World.Inv`: the stored pointers are of use for their vtables only; whatever is borrowed or
  boxed points at the value.
* `inv_of_run`: it holds after every history.
* `World.Inv.owner_getters`, `World.Inv.view_getters`: what the getters return then.
* `getters_exact`: what the getters return, at every point of every history; all that a wrapper
  has for a field return the same.
-/

namespace NotIo.Flexible

section

variable {R : Type} [Program R] (k : Kind) (r : R) (V : Type)

/-- The owner of the value; for a box with the allocation that it points to. -/
inductive Owner where
  | wrapper (self : Wrapper k r V)
  | boxed (self : WrapperBox R k) (allocation : Object V)

structure World where
  owner : Owner k r V
  view : Option (WrapperMut R k)

/-- A wrapper that a holder has in hand. -/
inductive Handle where
  | wrapper (self : Wrapper k r V)
  | boxed (self : WrapperBox R k)
  | view (self : WrapperMut R k)

/-- What is done with a wrapper after `new`.  `replace` stores through `get_mut`, `mutate` and
`mutateView` call a method of the value that takes it by mutable reference. -/
inductive Op where
  | set (s : Slot k) (bound : Implements (.concrete r) s.trait)
  | move (place : ℕ)
  | replace (v : V)
  | mutate (v : V)
  | unsize
  | endUnsize
  | asMut (place : ℕ)
  | fromMut (place : ℕ)
  | moveView (place : ℕ)
  | mutateView (v : V)
  | endBorrow
  | intoBoxed (heap : ℕ)
  | fromOwned (heap : ℕ)

end

variable {R V : Type} [Program R] {k : Kind} {r : R}

/-- The wrapped value, where it is now. -/
def World.value (w : World k r V) : Object V :=
  match w.owner with
  | .wrapper self => self.inner
  | .boxed _ allocation => allocation

def Owner.vtable : Owner k r V → OptTable R k
  | .wrapper self => self.vtable
  | .boxed self _ => self.vtable

def Owner.handle : Owner k r V → Handle k r V
  | .wrapper self => .wrapper self
  | .boxed self _ => .boxed self

/-- The wrappers in hand. -/
def World.handles (w : World k r V) : List (Handle k r V) :=
  w.owner.handle :: w.view.toList.map .view

def Handle.getters : Handle k r V → Slot k → List (Option (Ptr (VTable R)))
  | .wrapper self => self.getters
  | .boxed self => self.getters
  | .view self => self.getters

/-- What `as_read` and `as_read_mut`, or `as_write` and `as_write_mut`, return. -/
def Handle.bases : Handle k r V → List (Ptr (VTable R))
  | .wrapper self => [self.asBase, self.asBaseMut]
  | .boxed self => [self.asBaseMut]
  | .view self => [self.asBaseMut]

/-- A `Reader` has `as_read` and `as_read_mut`, the other two have the latter only. -/
def Handle.baseAccessors : Handle k r V → ℕ
  | .wrapper _ => 2
  | .boxed _ | .view _ => 1

/-! ### Steps -/

/-- The owner, if it is a wrapper whose type parameter is sized. -/
def Owner.sized : Owner k r V → Option (Wrapper k r V)
  | .wrapper self => if self.param = .sized then some self else none
  | .boxed _ _ => none

def Owner.store (v : V) : Owner k r V → Owner k r V
  | .wrapper self => .wrapper (self.getMutStore v)
  | .boxed self allocation => .boxed self (allocation.store v)

/-- A reader or writer is moved with its value, a box without. -/
def Owner.movedTo (place : ℕ) : Owner k r V → Option (Owner k r V)
  | .wrapper self => if self.param = .sized then some (.wrapper (self.movedTo place)) else none
  | .boxed self allocation => some (.boxed self allocation)

def Owner.withParam (param : Param) : Owner k r V → Option (Owner k r V)
  | .wrapper self => some (.wrapper { self with param })
  | .boxed _ _ => none

def Owner.asMut (place : ℕ) : Owner k r V → WrapperMut R k
  | .wrapper self => self.asMut place
  | .boxed self _ => self.asMut place

/-- `From<&mut Reader<R>>` is there for sized parameters only. -/
def Owner.fromMut (place : ℕ) : Owner k r V → Option (WrapperMut R k)
  | .wrapper self => if self.param = .sized then some (.fromRef self place) else none
  | .boxed self _ => some (.fromBox self place)

/-- One operation.  Two live objects are not at one address. -/
def World.step (w : World k r V) : Op k r V → Option (World k r V)
  | .set s bound => w.owner.sized.map fun self => ⟨.wrapper (self.set s bound), none⟩
  | .move place => (w.owner.movedTo place).map fun owner => ⟨owner, none⟩
  | .replace v => w.owner.sized.map fun self => ⟨.wrapper (self.getMutStore v), none⟩
  | .mutate v => some ⟨w.owner.store v, none⟩
  | .unsize => (w.owner.withParam .unsized).map fun owner => ⟨owner, none⟩
  | .endUnsize => (w.owner.withParam .sized).map fun owner => ⟨owner, none⟩
  | .asMut place =>
    if place = w.value.address then none else some ⟨w.owner, some (w.owner.asMut place)⟩
  | .fromMut place =>
    if place = w.value.address then none
    else (w.owner.fromMut place).map fun view => ⟨w.owner, some view⟩
  | .moveView place =>
    if place = w.value.address then none
    else w.view.map fun view => ⟨w.owner, some (view.movedTo place)⟩
  | .mutateView v => w.view.map fun view => ⟨w.owner.store v, some view⟩
  | .endBorrow => some ⟨w.owner, none⟩
  | .intoBoxed heap => w.owner.sized.map fun self =>
    let boxed := self.intoBoxed heap
    ⟨.boxed boxed.1 boxed.2, none⟩
  | .fromOwned heap => w.owner.sized.map fun self =>
    let boxed := WrapperBox.fromOwned self heap
    ⟨.boxed boxed.1 boxed.2, none⟩

/-- The world right after `new`. -/
def World.new (value : Object V) (bound : Implements (.concrete r) k.base) (place : ℕ) :
    World k r V :=
  ⟨.wrapper (.new value bound place), none⟩

/-- The setter of `s` was called. -/
def Provided (ops : List (Op k r V)) (s : Slot k) : Prop :=
  ∃ bound, .set s bound ∈ ops

/-- The pointer is to the value as a `dyn t`. -/
structure World.PointsTo (w : World k r V) (t : Trait) (p : Ptr (VTable R)) : Prop where
  data : p.data = w.value.address
  metadata : p.metadata.Of r t

/-- What a getter is to return: a pointer to the value, if and only if the trait is provided. -/
structure World.Exact (w : World k r V) (provided : Prop) (t : Trait)
    (q : Option (Ptr (VTable R))) : Prop where
  some_iff : q.isSome ↔ provided
  pointsTo : ∀ p ∈ q, w.PointsTo t p

/-! ### The invariant -/

/-- The table has the vtables of the traits that were set, at whatever addresses. -/
structure TableOf (r : R) (ops : List (Op k r V)) (table : OptTable R k) : Prop where
  some_iff : ∀ s, (table s).isSome ↔ Provided ops s
  metadata : ∀ s, ∀ p ∈ table s, p.metadata.Of r s.trait

def Owner.BaseOk : Owner k r V → Prop
  | .wrapper self => self.base.metadata.Of r k.base
  | .boxed self allocation =>
    self.inner.data = allocation.address ∧ self.inner.metadata.Of r k.base

structure World.ViewOk (w : World k r V) (view : WrapperMut R k) : Prop where
  vtable : view.vtable = w.owner.vtable
  inner : w.PointsTo k.base view.inner.value
  apart : view.inner.address ≠ w.value.address

structure World.Inv (ops : List (Op k r V)) (w : World k r V) : Prop where
  table : TableOf r ops w.owner.vtable
  base : w.owner.BaseOk
  view : ∀ view ∈ w.view, w.ViewOk view

theorem provided_snoc_iff {ops : List (Op k r V)} {op : Op k r V} {s : Slot k} :
    Provided (ops ++ [op]) s ↔ Provided ops s ∨ ∃ bound, op = .set s bound := by
  simp only [Provided, List.mem_append, List.mem_singleton, exists_or]
  constructor
  · intro h'
    rcases h' with h | ⟨bound, h⟩
    · exact Or.inl h
    · exact Or.inr ⟨bound, h.symm⟩
  · intro h'
    rcases h' with h | ⟨bound, h⟩
    · exact Or.inl h
    · exact Or.inr ⟨bound, h.symm⟩

/-- An operation that is no setter provides nothing. -/
theorem TableOf.snoc {ops : List (Op k r V)} {table : OptTable R k} (h : TableOf r ops table)
    {op : Op k r V} (hop : ∀ s bound, op ≠ .set s bound) : TableOf r (ops ++ [op]) table where
  some_iff s := by
    rw [provided_snoc_iff, h.some_iff]
    constructor
    · exact Or.inl
    · intro h'
      rcases h' with hs | ⟨bound, hs⟩
      · exact hs
      · exact absurd hs (hop s bound)
  metadata := h.metadata

/-- A setter provides its own trait and leaves the others alone. -/
theorem TableOf.set {ops : List (Op k r V)} {self : Wrapper k r V}
    (h : TableOf r ops self.vtable) (s : Slot k) (bound : Implements (.concrete r) s.trait) :
    TableOf r (ops ++ [.set s bound]) (self.set s bound).vtable := by
  rw [Wrapper.set_vtable]
  constructor
  · intro t
    rw [provided_snoc_iff]
    by_cases hts : t = s
    · subst hts
      rw [Function.update_self]
      exact ⟨fun _ => Or.inr ⟨bound, rfl⟩, fun _ => rfl⟩
    · rw [Function.update_of_ne hts, h.some_iff]
      constructor
      · exact Or.inl
      · intro h'
        rcases h' with ht | ⟨_, ht⟩
        · exact ht
        · cases ht
          exact absurd rfl hts
  · intro t p hp
    by_cases hts : t = s
    · subst hts
      rw [Function.update_self] at hp
      obtain rfl := Option.some.inj hp
      exact ⟨rfl, rfl⟩
    · rw [Function.update_of_ne hts] at hp
      exact h.metadata t p hp

/-- The table of the owner and its pointer stay in order. -/
structure Owner.Keeps (owner owner' : Owner k r V) : Prop where
  vtable : owner'.vtable = owner.vtable
  base : owner.BaseOk → owner'.BaseOk

theorem Owner.eq_of_sized {owner : Owner k r V} {self : Wrapper k r V}
    (h : owner.sized = some self) : owner = .wrapper self := by
  cases owner with
  | wrapper c =>
    simp only [Owner.sized] at h
    split at h
    · rw [Option.some.inj h]
    · cases h
  | boxed b allocation => cases h

theorem Owner.keeps_refl (owner : Owner k r V) : owner.Keeps owner :=
  ⟨rfl, id⟩

theorem Owner.keeps_store (owner : Owner k r V) (v : V) : owner.Keeps (owner.store v) := by
  cases owner with
  | wrapper c => exact ⟨rfl, id⟩
  | boxed b allocation => exact ⟨rfl, id⟩

theorem Owner.keeps_movedTo {owner owner' : Owner k r V} {place : ℕ}
    (h : owner.movedTo place = some owner') : owner.Keeps owner' := by
  cases owner with
  | wrapper c =>
    simp only [Owner.movedTo] at h
    split at h
    · cases h
      exact ⟨rfl, id⟩
    · cases h
  | boxed b allocation =>
    cases h
    exact ⟨rfl, id⟩

theorem Owner.keeps_withParam {owner owner' : Owner k r V} {param : Param}
    (h : owner.withParam param = some owner') : owner.Keeps owner' := by
  cases owner with
  | wrapper c =>
    cases h
    exact ⟨rfl, id⟩
  | boxed b allocation => cases h

/-- Boxing moves the value to the heap and points the box there. -/
theorem Owner.keeps_intoBoxed (self : Wrapper k r V) (heap : ℕ) :
    (Owner.wrapper self).Keeps (.boxed (self.intoBoxed heap).1 (self.intoBoxed heap).2) :=
  ⟨rfl, fun h => ⟨rfl, h⟩⟩

theorem Owner.asMut_of_fromMut {owner : Owner k r V} {place : ℕ} {view : WrapperMut R k}
    (h : owner.fromMut place = some view) : view = owner.asMut place := by
  cases owner with
  | wrapper c =>
    simp only [Owner.fromMut] at h
    split at h
    · cases h
      rfl
    · cases h
  | boxed b allocation =>
    cases h
    rfl

/-- A fresh borrow points at the value. -/
theorem World.viewOk_asMut {w : World k r V} (h : w.owner.BaseOk) {place : ℕ}
    (hplace : place ≠ w.value.address) : w.ViewOk (w.owner.asMut place) := by
  obtain ⟨owner, view⟩ := w
  cases owner with
  | wrapper c => exact ⟨rfl, ⟨rfl, h⟩, hplace⟩
  | boxed b allocation => exact ⟨rfl, ⟨h.1, h.2⟩, hplace⟩

theorem World.store_address (w : World k r V) (v : V) (view : Option (WrapperMut R k)) :
    (World.value ⟨w.owner.store v, view⟩).address = w.value.address := by
  obtain ⟨owner, _⟩ := w
  cases owner <;> rfl

theorem World.ViewOk.store {w : World k r V} {view : WrapperMut R k} (h : w.ViewOk view) (v : V)
    (view' : Option (WrapperMut R k)) : World.ViewOk ⟨w.owner.store v, view'⟩ view where
  vtable := h.vtable.trans (w.owner.keeps_store v).vtable.symm
  inner := ⟨h.inner.data.trans (w.store_address v view').symm, h.inner.metadata⟩
  apart := by
    rw [w.store_address v view']
    exact h.apart

theorem World.Inv.owner {ops : List (Op k r V)} {w : World k r V} (hi : w.Inv ops)
    {op : Op k r V} (hop : ∀ s bound, op ≠ .set s bound) {owner : Owner k r V}
    (hk : w.owner.Keeps owner) : World.Inv (ops ++ [op]) ⟨owner, none⟩ where
  table := by
    rw [show (World.mk owner none).owner.vtable = w.owner.vtable from hk.vtable]
    exact hi.table.snoc hop
  base := hk.base hi.base
  view := by
    intro view h
    cases h

theorem World.Inv.borrow {ops : List (Op k r V)} {w : World k r V} (hi : w.Inv ops)
    {op : Op k r V} (hop : ∀ s bound, op ≠ .set s bound) {view : WrapperMut R k}
    (hv : w.ViewOk view) : World.Inv (ops ++ [op]) ⟨w.owner, some view⟩ where
  table := hi.table.snoc hop
  base := hi.base
  view := by
    intro view' h
    obtain rfl : view = view' := Option.some.inj h
    exact ⟨hv.vtable, ⟨hv.inner.data, hv.inner.metadata⟩, hv.apart⟩

theorem inv_step {ops : List (Op k r V)} {w w' : World k r V} {op : Op k r V} (hi : w.Inv ops)
    (h : w.step op = some w') : w'.Inv (ops ++ [op]) := by
  cases op with
  | set s bound =>
    obtain ⟨self, hself, rfl⟩ := Option.map_eq_some_iff.mp h
    have howner := Owner.eq_of_sized hself
    refine ⟨?_, ?_, fun _ h => by cases h⟩
    · have htable := hi.table
      rw [howner] at htable
      exact htable.set s bound
    · have hbase := hi.base
      rw [howner] at hbase
      change (self.set s bound).base.metadata.Of r k.base
      rw [Wrapper.set_base]
      exact hbase
  | move place =>
    obtain ⟨owner, howner, rfl⟩ := Option.map_eq_some_iff.mp h
    exact hi.owner (by simp) (Owner.keeps_movedTo howner)
  | replace v =>
    obtain ⟨self, hself, rfl⟩ := Option.map_eq_some_iff.mp h
    apply hi.owner (by simp)
    rw [Owner.eq_of_sized hself]
    exact Owner.keeps_store (.wrapper self) v
  | mutate v =>
    cases h
    exact hi.owner (by simp) (w.owner.keeps_store v)
  | unsize =>
    obtain ⟨owner, howner, rfl⟩ := Option.map_eq_some_iff.mp h
    exact hi.owner (by simp) (Owner.keeps_withParam howner)
  | endUnsize =>
    obtain ⟨owner, howner, rfl⟩ := Option.map_eq_some_iff.mp h
    exact hi.owner (by simp) (Owner.keeps_withParam howner)
  | asMut place =>
    simp only [World.step] at h
    split at h
    · cases h
    · rename_i hplace
      cases h
      exact hi.borrow (by simp) (World.viewOk_asMut hi.base hplace)
  | fromMut place =>
    simp only [World.step] at h
    split at h
    · cases h
    · rename_i hplace
      obtain ⟨view, hview, rfl⟩ := Option.map_eq_some_iff.mp h
      rw [Owner.asMut_of_fromMut hview]
      exact hi.borrow (by simp) (World.viewOk_asMut hi.base hplace)
  | moveView place =>
    simp only [World.step] at h
    split at h
    · cases h
    · rename_i hplace
      obtain ⟨view, hview, rfl⟩ := Option.map_eq_some_iff.mp h
      have hok := hi.view view hview
      exact hi.borrow (by simp) ⟨hok.vtable, hok.inner, hplace⟩
  | mutateView v =>
    obtain ⟨view, hview, rfl⟩ := Option.map_eq_some_iff.mp h
    have hop : ∀ s bound, (.mutateView v : Op k r V) ≠ .set s bound := by simp
    have hstored := hi.owner hop (w.owner.keeps_store v)
    refine ⟨hstored.table, hstored.base, ?_⟩
    intro view' h'
    obtain rfl : view = view' := Option.some.inj h'
    exact (hi.view view hview).store v _
  | endBorrow =>
    cases h
    exact hi.owner (by simp) w.owner.keeps_refl
  | intoBoxed heap | fromOwned heap =>
    obtain ⟨self, hself, rfl⟩ := Option.map_eq_some_iff.mp h
    apply hi.owner (by simp)
    rw [Owner.eq_of_sized hself]
    exact Owner.keeps_intoBoxed self heap

theorem inv_new (value : Object V) (bound : Implements (.concrete r) k.base) (place : ℕ) :
    (World.new value bound place).Inv [] where
  table := by
    constructor
    · intro s
      constructor
      · intro h
        cases h
      · intro h'
        obtain ⟨_, h⟩ := h'
        cases h
    · intro s p h
      cases h
  base := ⟨rfl, rfl⟩
  view := by
    intro view h
    cases h

theorem inv_of_run {value : Object V} {bound : Implements (.concrete r) k.base} {place : ℕ}
    {ops : List (Op k r V)} {w : World k r V}
    (hrun : History.run World.step (.new value bound place) ops = some w) : w.Inv ops :=
  History.run_invariant World.Inv (inv_new value bound place) (fun _ _ _ _ => inv_step) hrun

/-! ### The getters -/

/-- The address is put in anew, so the pointer is exact whenever the table is. -/
theorem TableOf.exact {ops : List (Op k r V)} {w : World k r V}
    (h : TableOf r ops w.owner.vtable) {M : Type} {raw : Ptr M}
    (hraw : raw.data = w.value.address) (s : Slot k) :
    w.Exact (Provided ops s) s.trait (dynGetter raw (w.owner.vtable s)) where
  some_iff := by
    rw [dynGetter_isSome]
    exact h.some_iff s
  pointsTo := by
    intro p hp
    obtain ⟨hdata, q, hq, hmeta⟩ := mem_dynGetter hp
    refine ⟨hdata.trans hraw, ?_⟩
    rw [hmeta]
    exact h.metadata s q hq

theorem World.mem_handles {w : World k r V} {x : Handle k r V} :
    x ∈ w.handles ↔ x = w.owner.handle ∨ ∃ view ∈ w.view, x = .view view := by
  obtain ⟨owner, view⟩ := w
  cases view <;> simp [World.handles]

/-- The owner's getters, on every target. -/
theorem World.Inv.owner_getters {ops : List (Op k r V)} {w : World k r V} (hi : w.Inv ops)
    (s : Slot k) : ∃ q, w.owner.handle.getters s = List.replicate s.accessors q ∧
      w.Exact (Provided ops s) s.trait q := by
  obtain ⟨owner, view⟩ := w
  cases owner with
  | wrapper c => exact ⟨_, c.getters_eq s, hi.table.exact rfl s⟩
  | boxed b allocation => exact ⟨_, b.getters_eq s, hi.table.exact hi.base.1 s⟩

theorem World.Inv.view_getters {ops : List (Op k r V)} {w : World k r V} (hi : w.Inv ops)
    {view : WrapperMut R k} (hview : view ∈ w.view) {s : Slot k} (hs : ¬ s.Windows) :
    ∃ q, view.getters s = List.replicate s.accessors q ∧ w.Exact (Provided ops s) s.trait q := by
  have hok := hi.view view hview
  refine ⟨_, view.getters_eq hs, ?_⟩
  rw [hok.vtable]
  exact hi.table.exact hok.inner.data s

theorem World.Inv.getters {ops : List (Op k r V)} {w : World k r V} (hi : w.Inv ops)
    {x : Handle k r V} (hx : x ∈ w.handles) {s : Slot k} (hs : ¬ s.Windows) :
    ∃ q, x.getters s = List.replicate s.accessors q ∧ w.Exact (Provided ops s) s.trait q := by
  rcases World.mem_handles.mp hx with rfl | ⟨view, hview, rfl⟩
  · exact hi.owner_getters s
  · exact hi.view_getters hview hs

theorem World.Inv.bases {ops : List (Op k r V)} {w : World k r V} (hi : w.Inv ops)
    {x : Handle k r V} (hx : x ∈ w.handles) :
    ∃ p, x.bases = List.replicate x.baseAccessors p ∧ w.PointsTo k.base p := by
  rcases World.mem_handles.mp hx with rfl | ⟨view, hview, rfl⟩
  · obtain ⟨owner, view⟩ := w
    cases owner with
    | wrapper c => exact ⟨c.asBase, rfl, rfl, hi.base⟩
    | boxed b allocation => exact ⟨b.asBaseMut, rfl, hi.base.1, hi.base.2⟩
  · exact ⟨view.asBaseMut, rfl, (hi.view view hview).inner⟩

/-- **Traits are provided exactly.**  At every point of every history, whatever wrapper is in
hand, each of its getters for a portable or Unix trait returns a pointer if and only if the setter
was called, and the pointer is to the value where it is now; so is the one of `as_read`. -/
theorem getters_exact {value : Object V} {bound : Implements (.concrete r) k.base} {place : ℕ}
    {ops : List (Op k r V)} {w : World k r V}
    (hrun : History.run World.step (.new value bound place) ops = some w)
    {x : Handle k r V} (hx : x ∈ w.handles) :
    (∀ s : Slot k, ¬ s.Windows → ∃ q, x.getters s = List.replicate s.accessors q ∧
      w.Exact (Provided ops s) s.trait q) ∧
      ∃ p, x.bases = List.replicate x.baseAccessors p ∧ w.PointsTo k.base p := by
  have hi := inv_of_run hrun
  exact ⟨fun _ hs => hi.getters hx hs, hi.bases hx⟩

/-- A program with one type, which implements every trait, like `std::fs::File` and a socket
in one. -/
inductive Device where
  | device
  deriving DecidableEq

instance Device.program : Program Device := ⟨fun _ _ => True⟩

theorem Device.implements (t : Trait) : Implements (.concrete Device.device) t :=
  .concrete trivial

/-- A reader is told that it can seek, moved, boxed, and borrowed by a `ReaderMut`. -/
def Device.boxedHistory : List (Op .reader Device.device Unit) :=
  [.set .seek (Device.implements _), .move 30, .intoBoxed 40, .asMut 50]

/-- Through the `ReaderMut` the value at 40 is had as a `dyn Seek`, and not as a `dyn BufRead`. -/
theorem getters_exact_boxed :
    ∃ (w : World .reader Device.device Unit) (view : ReaderMut Device) (p : Ptr (VTable Device)),
      History.run World.step (.new ⟨10, ()⟩ (Device.implements _) 20) Device.boxedHistory = some w ∧
      w.view = some view ∧ w.value.address = 40 ∧
      view.asSeek = some p ∧ view.asSeekMut = some p ∧
      p.data = 40 ∧ p.metadata.Of Device.device .seek ∧
      ReaderMut.asBuf view = none ∧ ReaderMut.asBufMut view = none ∧
      view.asBaseMut.data = 40 ∧ view.asBaseMut.metadata.Of Device.device .read := by
  have hview : ∃ (w : World .reader Device.device Unit) (view : ReaderMut Device),
      History.run World.step (.new ⟨10, ()⟩ (Device.implements _) 20) Device.boxedHistory = some w ∧
      w.view = some view ∧ w.value.address = 40 := ⟨_, _, rfl, rfl, rfl⟩
  obtain ⟨w, view, hrun, hview, haddress⟩ := hview
  have hx : Handle.view view ∈ w.handles := World.mem_handles.mpr (Or.inr ⟨view, hview, rfl⟩)
  obtain ⟨hgetters, base, hbases, hbase⟩ := getters_exact hrun hx
  -- The setter of `seek` was called, and the one of `buf` was not.
  have hseek : Provided Device.boxedHistory .seek := ⟨_, List.mem_cons_self⟩
  have hbuf : ¬ Provided Device.boxedHistory .buf := by
    simp [Provided, Device.boxedHistory]
  obtain ⟨q, hq, hexact⟩ := hgetters .seek id
  obtain ⟨p, hp⟩ := Option.isSome_iff_exists.mp (hexact.some_iff.mpr hseek)
  have hto := hexact.pointsTo p hp
  obtain ⟨q', hq', hexact'⟩ := hgetters .buf id
  have hnone : q' = none := Option.not_isSome_iff_eq_none.mp fun h => hbuf (hexact'.some_iff.mp h)
  subst hp hnone
  obtain ⟨hseek₁, hseek₂⟩ : view.asSeek = some p ∧ view.asSeekMut = some p := by
    simpa [Handle.getters, WrapperMut.getters, Slot.accessors] using hq
  obtain ⟨hbuf₁, hbuf₂⟩ : ReaderMut.asBuf view = none ∧ ReaderMut.asBufMut view = none := by
    simpa [Handle.getters, WrapperMut.getters, Slot.accessors] using hq'
  obtain rfl : view.asBaseMut = base := by
    simpa [Handle.bases, Handle.baseAccessors] using hbases
  exact ⟨w, view, p, hrun, hview, haddress, hseek₁, hseek₂, hto.data.trans haddress, hto.metadata,
    hbuf₁, hbuf₂, hbase.data.trans haddress, hbase.metadata⟩

end NotIo.Flexible
