import NotIo.Flexible.Pointer
import Mathlib.Logic.Function.Basic

/-!
# Readers and writers that provide traits at run time

`Reader` and `Writer` are one definition with the trait they are about as a parameter, and so
are `ReaderMut`, `WriterMut` and `ReaderBox`, `WriterBox`.  The writer's table has no `buf`, and
on Windows the pointer of `ReaderMut` is not the one of `WriterMut`.

* `Wrapper.getters_eq`, `WrapperMut.getters_eq`, `WrapperBox.getters_eq`: every getter puts the
  address of its wrapper's pointer into its own field of the table.
* `Wrapper.set_vtable`: a setter fills its own field, with the vtable of its own trait.
-/

namespace NotIo.Flexible

inductive Kind where
  | reader | writer

/-- The trait that the value of a wrapper always has. -/
def Kind.base : Kind → Trait
  | .reader => .read
  | .writer => .write

/-- The fields of `OptTable`.  A build has those of its own target only. -/
inductive Slot : Kind → Type where
  | buf : Slot .reader
  | seek {k : Kind} : Slot k
  | any {k : Kind} : Slot k
  | unixFileExt {k : Kind} : Slot k
  | asFd {k : Kind} : Slot k
  | asRawFd {k : Kind} : Slot k
  | windowsFileExt {k : Kind} : Slot k
  | asHandle {k : Kind} : Slot k
  | asRawHandle {k : Kind} : Slot k
  | asSocket {k : Kind} : Slot k
  | asRawSocket {k : Kind} : Slot k
  deriving DecidableEq

/-- The trait that a field is for. -/
def Slot.trait {k : Kind} : Slot k → Trait
  | .buf => .bufRead
  | .seek => .seek
  | .any => .any
  | .unixFileExt => .unixFileExt
  | .asFd => .asFd
  | .asRawFd => .asRawFd
  | .windowsFileExt => .windowsFileExt
  | .asHandle => .asHandle
  | .asRawHandle => .asRawHandle
  | .asSocket => .asSocket
  | .asRawSocket => .asRawSocket

/-- The fields of a Windows build only. -/
def Slot.Windows {k : Kind} : Slot k → Prop
  | .windowsFileExt | .asHandle | .asRawHandle | .asSocket | .asRawSocket => True
  | _ => False

/-- How many getters there are for a field: a shared one, and maybe a mutable one. -/
def Slot.accessors {k : Kind} : Slot k → ℕ
  | .buf | .seek | .any => 2
  | _ => 1

/-- The type parameter of a wrapper: a concrete type, or `dyn Read` and `dyn Write`. -/
inductive Param where
  | sized | unsized
  deriving DecidableEq

section

variable (R : Type) [Program R] (k : Kind)

abbrev OptTable : Type := Slot k → Option (Ptr (VTable R))

variable {R} in
/-- `Reader<R>` and `Writer<W>`, around a value in `V` of type `r`.  The field `base` is `read`
or `write`; `param` is the type parameter as the holder sees it. -/
structure Wrapper (r : R) (V : Type) where
  base : Ptr (VTable R)
  vtable : OptTable R k
  inner : Object V
  param : Param

/-- `ReaderMut` and `WriterMut`.  The field `inner` is a `&mut dyn`, and a place of its own. -/
structure WrapperMut where
  inner : Object (Ptr (VTable R))
  vtable : OptTable R k

/-- `ReaderBox` and `WriterBox`.  The field `inner` is a `Box<dyn>`. -/
structure WrapperBox where
  inner : Ptr (VTable R)
  vtable : OptTable R k

variable {R}

abbrev Reader := Wrapper (R := R) .reader
abbrev Writer := Wrapper (R := R) .writer

variable (R)

abbrev ReaderMut := WrapperMut R .reader
abbrev WriterMut := WrapperMut R .writer
abbrev ReaderBox := WrapperBox R .reader
abbrev WriterBox := WrapperBox R .writer

end

variable {R V : Type} [Program R] {k : Kind} {r : R}

/-! ### Setters and getters -/

def dynSetter (that : Wrapper k r V) (lhs : Slot k) {t : Trait}
    (impl : Implements (.concrete r) t) : Wrapper k r V :=
  { that with
    vtable := Function.update that.vtable lhs (some (lifetimeEraseTraitVtable that.inner impl)) }

def dynGetter {M : Type} (raw : Ptr M) (lhs : Option (Ptr (VTable R))) :
    Option (Ptr (VTable R)) := do
  let ptr ← lhs
  some (raw.withMetadataOfOnStable ptr)

theorem dynGetter_isSome {M : Type} (raw : Ptr M) (lhs : Option (Ptr (VTable R))) :
    (dynGetter raw lhs).isSome = lhs.isSome := by
  cases lhs <;> rfl

theorem mem_dynGetter {M : Type} {raw : Ptr M} {lhs : Option (Ptr (VTable R))}
    {p : Ptr (VTable R)} (h : p ∈ dynGetter raw lhs) :
    p.data = raw.data ∧ ∃ q ∈ lhs, p.metadata = q.metadata := by
  cases lhs with
  | none => cases h
  | some q =>
    obtain rfl : raw.withMetadataOfOnStable q = p := Option.some.inj h
    exact ⟨rfl, q, rfl, rfl⟩

/-! ### `Reader` and `Writer` -/

namespace Wrapper

/-- The local `reader` is moved into the field `inner` at `place`. -/
def new (reader : Object V) (bound : Implements (.concrete r) k.base) (place : ℕ) :
    Wrapper k r V where
  base := lifetimeEraseTraitVtable reader bound
  vtable := fun _ => none
  inner := reader.movedTo place
  param := .sized

def movedTo (self : Wrapper k r V) (place : ℕ) : Wrapper k r V :=
  { self with inner := self.inner.movedTo place }

/-- `*self.get_mut() = v`. -/
def getMutStore (self : Wrapper k r V) (v : V) : Wrapper k r V :=
  { self with inner := self.inner.store v }

/-- `&that.inner as *const R`, which is fat when `R` is unsized. -/
def constPtr (that : Wrapper k r V) : Ptr (Option (VTable R)) :=
  ⟨that.inner.address, match that.param with
    | .sized => none
    | .unsized => some that.base.metadata⟩

/-- `&mut that.inner as *mut R`. -/
def mutPtr (that : Wrapper k r V) : Ptr (Option (VTable R)) :=
  that.constPtr

/-- `as_read` and `as_write`. -/
def asBase (self : Wrapper k r V) : Ptr (VTable R) :=
  self.constPtr.withMetadataOfOnStable self.base

/-- `as_read_mut` and `as_write_mut`. -/
def asBaseMut (self : Wrapper k r V) : Ptr (VTable R) :=
  self.mutPtr.withMetadataOfOnStable self.base

/-- The `ReaderMut` or `WriterMut` is put at `place`. -/
def asMut (self : Wrapper k r V) (place : ℕ) : WrapperMut R k where
  inner := ⟨place, self.asBaseMut⟩
  vtable := self.vtable

/-- The box, and the allocation at `heap` that it owns. -/
def intoBoxed (self : Wrapper k r V) (heap : ℕ) : WrapperBox R k × Object V :=
  let allocation := self.inner.movedTo heap
  let ptr : Ptr Unit := ⟨allocation.address, ()⟩
  (⟨ptr.withMetadataOfOnStable self.base, self.vtable⟩, allocation)

def intoInner (self : Wrapper k r V) : V :=
  self.inner.value

def setSeek (self : Wrapper k r V) (h : Implements (.concrete r) .seek) := dynSetter self .seek h
def setAny (self : Wrapper k r V) (h : Implements (.concrete r) .any) := dynSetter self .any h

def setFileExt (self : Wrapper k r V) (h : Implements (.concrete r) .unixFileExt) :=
  dynSetter self .unixFileExt h
def setAsFd (self : Wrapper k r V) (h : Implements (.concrete r) .asFd) := dynSetter self .asFd h
def setAsRawFd (self : Wrapper k r V) (h : Implements (.concrete r) .asRawFd) :=
  dynSetter self .asRawFd h

def setFileExtWindows (self : Wrapper k r V) (h : Implements (.concrete r) .windowsFileExt) :=
  dynSetter self .windowsFileExt h
def setAsHandle (self : Wrapper k r V) (h : Implements (.concrete r) .asHandle) :=
  dynSetter self .asHandle h
def setAsRawHandle (self : Wrapper k r V) (h : Implements (.concrete r) .asRawHandle) :=
  dynSetter self .asRawHandle h
def setAsSocket (self : Wrapper k r V) (h : Implements (.concrete r) .asSocket) :=
  dynSetter self .asSocket h
def setAsRawSocket (self : Wrapper k r V) (h : Implements (.concrete r) .asRawSocket) :=
  dynSetter self .asRawSocket h

def asSeek (self : Wrapper k r V) := dynGetter self.constPtr (self.vtable .seek)
def asSeekMut (self : Wrapper k r V) := dynGetter self.mutPtr (self.vtable .seek)
def asAny (self : Wrapper k r V) := dynGetter self.constPtr (self.vtable .any)
def asAnyMut (self : Wrapper k r V) := dynGetter self.mutPtr (self.vtable .any)

def asFileExt (self : Wrapper k r V) := dynGetter self.constPtr (self.vtable .unixFileExt)
def asFd (self : Wrapper k r V) := dynGetter self.constPtr (self.vtable .asFd)
def asRawFd (self : Wrapper k r V) := dynGetter self.constPtr (self.vtable .asRawFd)

def asFileExtWindows (self : Wrapper k r V) :=
  dynGetter self.constPtr (self.vtable .windowsFileExt)
def asHandle (self : Wrapper k r V) := dynGetter self.constPtr (self.vtable .asHandle)
def asRawHandle (self : Wrapper k r V) := dynGetter self.constPtr (self.vtable .asRawHandle)
def asSocket (self : Wrapper k r V) := dynGetter self.constPtr (self.vtable .asSocket)
def asRawSocket (self : Wrapper k r V) := dynGetter self.constPtr (self.vtable .asRawSocket)

end Wrapper

def Reader.setBuf (self : Reader r V) (h : Implements (.concrete r) .bufRead) :=
  dynSetter self .buf h
def Reader.asBuf (self : Reader r V) := dynGetter self.constPtr (self.vtable .buf)
def Reader.asBufMut (self : Reader r V) := dynGetter self.mutPtr (self.vtable .buf)

namespace Wrapper

/-- The setter of a field. -/
def set (self : Wrapper k r V) : (s : Slot k) → Implements (.concrete r) s.trait → Wrapper k r V
  | .buf, h => Reader.setBuf self h
  | .seek, h => self.setSeek h
  | .any, h => self.setAny h
  | .unixFileExt, h => self.setFileExt h
  | .asFd, h => self.setAsFd h
  | .asRawFd, h => self.setAsRawFd h
  | .windowsFileExt, h => self.setFileExtWindows h
  | .asHandle, h => self.setAsHandle h
  | .asRawHandle, h => self.setAsRawHandle h
  | .asSocket, h => self.setAsSocket h
  | .asRawSocket, h => self.setAsRawSocket h

/-- What the getters of a field return: the shared one, and the mutable one if there is one. -/
def getters (self : Wrapper k r V) : Slot k → List (Option (Ptr (VTable R)))
  | .buf => [Reader.asBuf self, Reader.asBufMut self]
  | .seek => [self.asSeek, self.asSeekMut]
  | .any => [self.asAny, self.asAnyMut]
  | .unixFileExt => [self.asFileExt]
  | .asFd => [self.asFd]
  | .asRawFd => [self.asRawFd]
  | .windowsFileExt => [self.asFileExtWindows]
  | .asHandle => [self.asHandle]
  | .asRawHandle => [self.asRawHandle]
  | .asSocket => [self.asSocket]
  | .asRawSocket => [self.asRawSocket]

theorem set_eq (self : Wrapper k r V) (s : Slot k) (h : Implements (.concrete r) s.trait) :
    self.set s h = dynSetter self s h := by
  cases s <;> rfl

theorem set_vtable (self : Wrapper k r V) (s : Slot k) (h : Implements (.concrete r) s.trait) :
    (self.set s h).vtable =
      Function.update self.vtable s (some (lifetimeEraseTraitVtable self.inner h)) := by
  rw [set_eq]
  rfl

@[simp] theorem set_base (self : Wrapper k r V) (s : Slot k)
    (h : Implements (.concrete r) s.trait) : (self.set s h).base = self.base := by
  rw [set_eq]
  rfl

@[simp] theorem set_inner (self : Wrapper k r V) (s : Slot k)
    (h : Implements (.concrete r) s.trait) : (self.set s h).inner = self.inner := by
  rw [set_eq]
  rfl

theorem getters_eq (self : Wrapper k r V) (s : Slot k) :
    self.getters s = List.replicate s.accessors (dynGetter self.constPtr (self.vtable s)) := by
  cases s <;> rfl

end Wrapper

/-! ### `ReaderMut` and `WriterMut` -/

namespace WrapperMut

def movedTo (self : WrapperMut R k) (place : ℕ) : WrapperMut R k :=
  { self with inner := self.inner.movedTo place }

/-- `as_read_mut` and `as_write_mut`. -/
def asBaseMut (self : WrapperMut R k) : Ptr (VTable R) :=
  self.inner.value

/-- `that.inner as *const dyn Read`. -/
def constPtr (that : WrapperMut R k) : Ptr (VTable R) :=
  that.inner.value

/-- `that.inner as *mut dyn Read`. -/
def mutPtr (that : WrapperMut R k) : Ptr (VTable R) :=
  that.inner.value

end WrapperMut

/-- `&that.inner as *const dyn Read`: the reference itself becomes a `dyn Read`. -/
def ReaderMut.constPtrWindows (that : ReaderMut R) : Ptr (VTable R) :=
  ⟨that.inner.address, ⟨.mutDyn .read, .read, .mutRead⟩⟩

/-- `that.inner as *const dyn Write`. -/
def WriterMut.constPtrWindows (that : WriterMut R) : Ptr (VTable R) :=
  that.inner.value

namespace WrapperMut

def constPtrWindows (that : WrapperMut R k) : Ptr (VTable R) :=
  match k with
  | .reader => ReaderMut.constPtrWindows that
  | .writer => WriterMut.constPtrWindows that

def asSeek (self : WrapperMut R k) := dynGetter self.constPtr (self.vtable .seek)
def asSeekMut (self : WrapperMut R k) := dynGetter self.mutPtr (self.vtable .seek)
def asAny (self : WrapperMut R k) := dynGetter self.constPtr (self.vtable .any)
def asAnyMut (self : WrapperMut R k) := dynGetter self.mutPtr (self.vtable .any)

def asFileExt (self : WrapperMut R k) := dynGetter self.constPtr (self.vtable .unixFileExt)
def asFd (self : WrapperMut R k) := dynGetter self.constPtr (self.vtable .asFd)
def asRawFd (self : WrapperMut R k) := dynGetter self.constPtr (self.vtable .asRawFd)

def asFileExtWindows (self : WrapperMut R k) :=
  dynGetter self.constPtrWindows (self.vtable .windowsFileExt)
def asHandle (self : WrapperMut R k) := dynGetter self.constPtrWindows (self.vtable .asHandle)
def asRawHandle (self : WrapperMut R k) :=
  dynGetter self.constPtrWindows (self.vtable .asRawHandle)
def asSocket (self : WrapperMut R k) := dynGetter self.constPtrWindows (self.vtable .asSocket)
def asRawSocket (self : WrapperMut R k) :=
  dynGetter self.constPtrWindows (self.vtable .asRawSocket)

end WrapperMut

def ReaderMut.asBuf (self : ReaderMut R) := dynGetter self.constPtr (self.vtable .buf)
def ReaderMut.asBufMut (self : ReaderMut R) := dynGetter self.mutPtr (self.vtable .buf)

namespace WrapperMut

def getters (self : WrapperMut R k) : Slot k → List (Option (Ptr (VTable R)))
  | .buf => [ReaderMut.asBuf self, ReaderMut.asBufMut self]
  | .seek => [self.asSeek, self.asSeekMut]
  | .any => [self.asAny, self.asAnyMut]
  | .unixFileExt => [self.asFileExt]
  | .asFd => [self.asFd]
  | .asRawFd => [self.asRawFd]
  | .windowsFileExt => [self.asFileExtWindows]
  | .asHandle => [self.asHandle]
  | .asRawHandle => [self.asRawHandle]
  | .asSocket => [self.asSocket]
  | .asRawSocket => [self.asRawSocket]

theorem getters_eq (self : WrapperMut R k) {s : Slot k} (hs : ¬ s.Windows) :
    self.getters s = List.replicate s.accessors (dynGetter self.constPtr (self.vtable s)) := by
  cases s with
  | windowsFileExt | asHandle | asRawHandle | asSocket | asRawSocket => exact absurd trivial hs
  | _ => rfl

theorem getters_eq_windows (self : WrapperMut R k) {s : Slot k} (hs : s.Windows) :
    self.getters s =
      List.replicate s.accessors (dynGetter self.constPtrWindows (self.vtable s)) := by
  cases s with
  | windowsFileExt | asHandle | asRawHandle | asSocket | asRawSocket => rfl
  | _ => exact hs.elim

end WrapperMut

/-! ### `ReaderBox` and `WriterBox` -/

namespace WrapperBox

/-- `as_read_mut`, which is what `WriterBox` calls it too. -/
def asBaseMut (self : WrapperBox R k) : Ptr (VTable R) :=
  self.inner

def asMut (self : WrapperBox R k) (place : ℕ) : WrapperMut R k where
  vtable := self.vtable
  inner := ⟨place, self.asBaseMut⟩

/-- `that.inner.as_ref() as *const dyn Read`. -/
def constPtr (that : WrapperBox R k) : Ptr (VTable R) :=
  that.inner

/-- `that.inner.as_mut() as *mut dyn Read`. -/
def mutPtr (that : WrapperBox R k) : Ptr (VTable R) :=
  that.inner

def asSeek (self : WrapperBox R k) := dynGetter self.constPtr (self.vtable .seek)
def asSeekMut (self : WrapperBox R k) := dynGetter self.mutPtr (self.vtable .seek)
def asAny (self : WrapperBox R k) := dynGetter self.constPtr (self.vtable .any)
def asAnyMut (self : WrapperBox R k) := dynGetter self.mutPtr (self.vtable .any)

def asFileExt (self : WrapperBox R k) := dynGetter self.constPtr (self.vtable .unixFileExt)
def asFd (self : WrapperBox R k) := dynGetter self.constPtr (self.vtable .asFd)
def asRawFd (self : WrapperBox R k) := dynGetter self.constPtr (self.vtable .asRawFd)

def asFileExtWindows (self : WrapperBox R k) :=
  dynGetter self.constPtr (self.vtable .windowsFileExt)
def asHandle (self : WrapperBox R k) := dynGetter self.constPtr (self.vtable .asHandle)
def asRawHandle (self : WrapperBox R k) := dynGetter self.constPtr (self.vtable .asRawHandle)
def asSocket (self : WrapperBox R k) := dynGetter self.constPtr (self.vtable .asSocket)
def asRawSocket (self : WrapperBox R k) := dynGetter self.constPtr (self.vtable .asRawSocket)

end WrapperBox

def ReaderBox.asBuf (self : ReaderBox R) := dynGetter self.constPtr (self.vtable .buf)
def ReaderBox.asBufMut (self : ReaderBox R) := dynGetter self.mutPtr (self.vtable .buf)

namespace WrapperBox

def getters (self : WrapperBox R k) : Slot k → List (Option (Ptr (VTable R)))
  | .buf => [ReaderBox.asBuf self, ReaderBox.asBufMut self]
  | .seek => [self.asSeek, self.asSeekMut]
  | .any => [self.asAny, self.asAnyMut]
  | .unixFileExt => [self.asFileExt]
  | .asFd => [self.asFd]
  | .asRawFd => [self.asRawFd]
  | .windowsFileExt => [self.asFileExtWindows]
  | .asHandle => [self.asHandle]
  | .asRawHandle => [self.asRawHandle]
  | .asSocket => [self.asSocket]
  | .asRawSocket => [self.asRawSocket]

theorem getters_eq (self : WrapperBox R k) (s : Slot k) :
    self.getters s = List.replicate s.accessors (dynGetter self.constPtr (self.vtable s)) := by
  cases s <;> rfl

end WrapperBox

/-! ### Conversions -/

/-- `From<&mut Reader<R>> for ReaderMut` and `From<&mut Writer<W>> for WriterMut`. -/
def WrapperMut.fromRef (value : Wrapper k r V) (place : ℕ) : WrapperMut R k :=
  value.asMut place

/-- `From<Reader<R>> for ReaderBox` and `From<Writer<W>> for WriterBox`. -/
def WrapperBox.fromOwned (value : Wrapper k r V) (heap : ℕ) : WrapperBox R k × Object V :=
  value.intoBoxed heap

/-- `From<&mut ReaderBox> for ReaderMut` and `From<&mut WriterBox> for WriterMut`. -/
def WrapperMut.fromBox (value : WrapperBox R k) (place : ℕ) : WrapperMut R k :=
  value.asMut place

end NotIo.Flexible
