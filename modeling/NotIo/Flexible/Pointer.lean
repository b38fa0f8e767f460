import Mathlib.Data.Nat.Notation

/-!
# Pointers to trait objects

A raw pointer is a data address with metadata: none for a pointer to a sized value, a vtable
for a pointer to a `dyn` value.  `flexible-io` stores pointers for the sake of their vtables
and puts the address in anew at each access.
-/

namespace NotIo.Flexible

/-- The traits that the wrappers provide. -/
inductive Trait where
  | read | write | seek | bufRead | any
  | unixFileExt | asFd | asRawFd
  | windowsFileExt | asHandle | asRawHandle | asSocket | asRawSocket
  deriving DecidableEq

/-- The concrete types of a program, and the traits that they implement. -/
class Program (R : Type) where
  impl : R → Trait → Prop

/-- A type of values: a concrete type, or `&mut dyn Read` and `&mut dyn Write`. -/
inductive Ty (R : Type) where
  | concrete (r : R)
  | mutDyn (t : Trait)
  deriving DecidableEq

section

variable {R : Type} [Program R]

/-- A bound `R: Trait` that the compiler accepts. -/
inductive Implements : Ty R → Trait → Prop where
  | concrete {r : R} {t : Trait} : Program.impl r t → Implements (.concrete r) t
  | mutRead : Implements (.mutDyn .read) .read
  | mutWrite : Implements (.mutDyn .write) .write

variable (R) in
/-- A vtable exists for an impl only. -/
structure VTable where
  ty : Ty R
  trait : Trait
  impl : Implements ty trait

/-- The vtable is the one of `r` for `t`. -/
def VTable.Of (m : VTable R) (r : R) (t : Trait) : Prop :=
  m.ty = .concrete r ∧ m.trait = t

end

structure Ptr (M : Type) where
  data : ℕ
  metadata : M

/-- The first word of `ptr` is overwritten with the address. -/
def Ptr.withMetadataOfOnStable {M N : Type} (self : Ptr M) (ptr : Ptr N) : Ptr N :=
  { ptr with data := self.data }

/-- A local variable, a field or an allocation, with what it holds. -/
structure Object (α : Type) where
  address : ℕ
  value : α

def Object.movedTo {α : Type} (x : Object α) (address : ℕ) : Object α :=
  { x with address }

def Object.store {α : Type} (x : Object α) (value : α) : Object α :=
  { x with value }

/-- `&mut r as &mut dyn Trait as *mut dyn Trait`, where `r` is of type `ty`.  The transmute of
the lifetime changes no bit. -/
def lifetimeEraseTraitVtable {R α : Type} [Program R] (x : Object α) {ty : Ty R} {t : Trait}
    (impl : Implements ty t) : Ptr (VTable R) :=
  ⟨x.address, ⟨ty, t, impl⟩⟩

end NotIo.Flexible
