import NotIo.Flexible.Histories

/-!
# The handle getters on Windows

The getters of `ReaderMut` for the Windows traits borrow the field `inner`, a `&mut dyn Read`,
where those of every other wrapper use the pointer that the field holds.  They return the
vtable of the value at the address of the reference.

* `Handle.windows_getters`: the pointer that each wrapper puts in.
* `windows_getters_exact_iff`: the one getter is right for every wrapper but a `ReaderMut`.
-/

namespace NotIo.Flexible

variable {R V : Type} [Program R] {k : Kind} {r : R}

def Handle.IsReaderMut : Handle k r V → Prop
  | .view _ => k = .reader
  | _ => False

/-- Every wrapper puts in the address of the value, except `ReaderMut`, whose own field is
somewhere else. -/
theorem Handle.windows_getters {ops : List (Op k r V)} {w : World k r V} (hi : w.Inv ops)
    {x : Handle k r V} (hx : x ∈ w.handles) {s : Slot k} (hs : s.Windows) :
    ∃ (M : Type) (raw : Ptr M),
      x.getters s = List.replicate s.accessors (dynGetter raw (w.owner.vtable s)) ∧
      (raw.data = w.value.address ↔ ¬ x.IsReaderMut) := by
  rcases World.mem_handles.mp hx with rfl | ⟨view, hview, rfl⟩
  · obtain ⟨owner, view⟩ := w
    cases owner with
    | wrapper c => exact ⟨_, c.constPtr, c.getters_eq s, iff_of_true rfl id⟩
    | boxed b allocation => exact ⟨_, b.constPtr, b.getters_eq s, iff_of_true hi.base.1 id⟩
  · have hok := hi.view view hview
    refine ⟨_, view.constPtrWindows, ?_, ?_⟩
    · rw [← hok.vtable]
      exact view.getters_eq_windows hs
    · cases k with
      | reader => exact iff_of_false hok.apart fun h => h rfl
      | writer => exact iff_of_true hok.inner.data fun h => by cases h

theorem Slot.accessors_of_windows {s : Slot k} (hs : s.Windows) : s.accessors = 1 := by
  cases s with
  | windowsFileExt | asHandle | asRawHandle | asSocket | asRawSocket => rfl
  | _ => exact hs.elim

/-- **Windows handles are reached through every wrapper but `ReaderMut`.**  There the getter
is right only as long as the setter was not called, and there is nothing to return. -/
theorem windows_getters_exact_iff {value : Object V} {bound : Implements (.concrete r) k.base}
    {place : ℕ} {ops : List (Op k r V)} {w : World k r V}
    (hrun : History.run World.step (.new value bound place) ops = some w)
    {x : Handle k r V} (hx : x ∈ w.handles) {s : Slot k} (hs : s.Windows) :
    ∃ q, x.getters s = [q] ∧
      (w.Exact (Provided ops s) s.trait q ↔ ¬ (x.IsReaderMut ∧ Provided ops s)) := by
  have hi := inv_of_run hrun
  obtain ⟨M, raw, hgetters, hraw⟩ := Handle.windows_getters hi hx hs
  rw [Slot.accessors_of_windows hs] at hgetters
  refine ⟨_, hgetters, ?_, ?_⟩
  · intro hq h'
    obtain ⟨hmut, hprovided⟩ := h'
    obtain ⟨p, hp⟩ := Option.isSome_iff_exists.mp (hq.some_iff.mpr hprovided)
    -- The pointer is to the value, so the field of the `ReaderMut` would be there too.
    have haddress : raw.data = w.value.address :=
      (mem_dynGetter hp).1.symm.trans (hq.pointsTo p hp).data
    exact hraw.mp haddress hmut
  · intro h
    by_cases hprovided : Provided ops s
    · exact hi.table.exact (hraw.mpr fun hmut => h ⟨hmut, hprovided⟩) s
    · have hnone : w.owner.vtable s = none :=
        Option.not_isSome_iff_eq_none.mp fun hsome => hprovided ((hi.table.some_iff s).mp hsome)
      rw [hnone]
      exact ⟨iff_of_false (by simp [dynGetter]) hprovided, fun p hp => by cases hp⟩

/-- A `Writer` is told of its handle, boxed, and borrowed by a `WriterMut`. -/
def Device.handleHistory (k : Kind) : List (Op k Device.device Unit) :=
  [.set .asRawHandle (Device.implements _), .intoBoxed 40, .asMut 50]

theorem windows_getters_exact_writer :
    ∃ (w : World .writer Device.device Unit) (view : WriterMut Device) (p : Ptr (VTable Device)),
      History.run World.step (.new ⟨10, ()⟩ (Device.implements _) 20)
        (Device.handleHistory .writer) = some w ∧
      w.view = some view ∧ w.value.address = 40 ∧ view.asRawHandle = some p ∧
      p.data = 40 ∧ p.metadata.Of Device.device .asRawHandle := by
  have hview : ∃ (w : World .writer Device.device Unit) (view : WriterMut Device),
      History.run World.step (.new ⟨10, ()⟩ (Device.implements _) 20)
        (Device.handleHistory .writer) = some w ∧ w.view = some view ∧ w.value.address = 40 :=
    ⟨_, _, rfl, rfl, rfl⟩
  obtain ⟨w, view, hrun, hview, haddress⟩ := hview
  have hx : Handle.view view ∈ w.handles := World.mem_handles.mpr (Or.inr ⟨view, hview, rfl⟩)
  obtain ⟨q, hq, hiff⟩ := windows_getters_exact_iff (s := .asRawHandle) hrun hx trivial
  obtain rfl : view.asRawHandle = q := List.head_eq_of_cons_eq hq
  have hexact := hiff.mpr fun h => by cases h.1
  have hprovided : Provided (Device.handleHistory .writer) .asRawHandle :=
    ⟨_, List.mem_cons_self⟩
  obtain ⟨p, hp⟩ := Option.isSome_iff_exists.mp (hexact.some_iff.mpr hprovided)
  have hto := hexact.pointsTo p hp
  exact ⟨w, view, p, hrun, hview, haddress, hp, hto.data.trans haddress, hto.metadata⟩

/-- The value is at 40; `as_raw_handle` of a `ReaderMut` at 50 returns its vtable at 50. -/
theorem reader_mut_handle_misplaced :
    ∃ (w : World .reader Device.device Unit) (view : ReaderMut Device) (p : Ptr (VTable Device)),
      History.run World.step (.new ⟨10, ()⟩ (Device.implements _) 20)
        (Device.handleHistory .reader) = some w ∧
      w.view = some view ∧ view.asRawHandle = some p ∧
      p.metadata.Of Device.device .asRawHandle ∧ p.data = 50 ∧ w.value.address = 40 ∧
      ¬ w.Exact (Provided (Device.handleHistory .reader) .asRawHandle) .asRawHandle
        view.asRawHandle := by
  refine ⟨_, _, _, rfl, rfl, rfl, ⟨rfl, rfl⟩, rfl, rfl, ?_⟩
  intro h
  exact absurd (h.pointsTo _ rfl).data (by decide)

end NotIo.Flexible
