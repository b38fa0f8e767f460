import Mathlib.Tactic.Common

/-!
# Errors and the feature configurations

`Error` is one opaque type whose representation depends on the features of the
crate: without `std` it holds an `ErrorKind` (`impls_nostd.rs`), with `std` it
holds a `std::io::Error` (`impls_std.rs`).  The loops of the crate see no more of
it than `is_interrupted` and `from_kind`, so they are written here over any type
with `ErrorImpl`, and the three configurations are three instances of it.

`std::io::Error` itself is a parameter (`StdIo`).
-/

namespace NotIo

/-- `ErrorKind`, the simple error conditions. -/
inductive ErrorKind where
  | writeZero
  | unexpectedEof
  | interrupted
  | wouldBlock
  | invalidData
  | invalidInput
  deriving DecidableEq, Repr

/-- What a feature combination supplies for `Error`. -/
class ErrorImpl (E : Type) where
  isInterruptedImpl : E → Bool
  fromKindImpl : ErrorKind → E

namespace Error

variable {E : Type} [ErrorImpl E]

def isInterrupted (self : E) : Bool := ErrorImpl.isInterruptedImpl self

def fromKind (kind : ErrorKind) : E := ErrorImpl.fromKindImpl kind

/-- `impl From<ErrorKind> for Error`. -/
def ofErrorKind (err : ErrorKind) : E := fromKind err

end Error

/-! ### Without `std` -/

namespace ImplsNostd

inductive ErrorInner where
  | kind (kind : ErrorKind)
  deriving DecidableEq, Repr

structure Error where
  inner : ErrorInner
  deriving DecidableEq, Repr

instance : ErrorImpl Error where
  isInterruptedImpl _ := false
  fromKindImpl kind := ⟨.kind kind⟩

end ImplsNostd

/-! ### With `std` -/

/-- `std::io::ErrorKind`: the kinds that the crate names, and all the others. -/
inductive IoErrorKind where
  | writeZero
  | unexpectedEof
  | interrupted
  | wouldBlock
  | invalidData
  | invalidInput
  | other (code : ℕ)
  deriving DecidableEq, Repr

/-- `std::io::Error` as far as the crate uses it. -/
structure StdIo where
  Error : Type
  kind : Error → IoErrorKind
  ofKind : IoErrorKind → Error

/-- `std::io::Error::from(k).kind() == k`. -/
def StdIo.Lawful (io : StdIo) : Prop := ∀ k, io.kind (io.ofKind k) = k

/-- The smallest such type, to run examples on. -/
def StdIo.plain : StdIo := ⟨IoErrorKind, id, id⟩

instance : DecidableEq StdIo.plain.Error := inferInstanceAs (DecidableEq IoErrorKind)

theorem StdIo.plain_lawful : StdIo.plain.Lawful := fun _ => rfl

namespace ImplsStd

inductive ErrorInner (io : StdIo) where
  | error (err : io.Error)

structure Error (io : StdIo) where
  inner : ErrorInner io

/-- The table of `from_kind_impl`. -/
def ioKind : ErrorKind → IoErrorKind
  | .writeZero => .writeZero
  | .unexpectedEof => .unexpectedEof
  | .interrupted => .interrupted
  | .wouldBlock => .wouldBlock
  | .invalidData => .invalidData
  | .invalidInput => .invalidInput

instance (io : StdIo) : ErrorImpl (Error io) where
  isInterruptedImpl self :=
    match self.inner with
    | .error err => decide (io.kind err = .interrupted)
  fromKindImpl kind := ⟨.error (io.ofKind (ioKind kind))⟩

end ImplsStd

/-! ### The configurations -/

/-- The feature combinations; `std` turns `alloc` on. -/
inductive Features where
  | none
  | alloc
  | std
  deriving DecidableEq, Repr

/-- `Error` in a configuration. -/
def Features.Error (io : StdIo) : Features → Type
  | .none => ImplsNostd.Error
  | .alloc => ImplsNostd.Error
  | .std => ImplsStd.Error io

instance (io : StdIo) : (features : Features) → ErrorImpl (features.Error io)
  | .none => inferInstanceAs (ErrorImpl ImplsNostd.Error)
  | .alloc => inferInstanceAs (ErrorImpl ImplsNostd.Error)
  | .std => inferInstanceAs (ErrorImpl (ImplsStd.Error io))

section

variable (io : StdIo) [DecidableEq io.Error]

instance : DecidableEq (ImplsStd.Error io)
  | ⟨.error err⟩, ⟨.error err'⟩ => decidable_of_iff (err = err') (by simp)

instance : (features : Features) → DecidableEq (features.Error io)
  | .none => inferInstanceAs (DecidableEq ImplsNostd.Error)
  | .alloc => inferInstanceAs (DecidableEq ImplsNostd.Error)
  | .std => inferInstanceAs (DecidableEq (ImplsStd.Error io))

end

/-- **An interruption is seen as one in the `std` configuration only**: without
`std` the test answers `false` whatever the error holds. -/
theorem isInterrupted_fromKind (io : StdIo) (hio : io.Lawful) (features : Features)
    (kind : ErrorKind) :
    Error.isInterrupted (Error.fromKind kind : features.Error io) = true ↔
      features = .std ∧ kind = .interrupted := by
  cases features with
  | none =>
    show false = true ↔ _
    simp
  | alloc =>
    show false = true ↔ _
    simp
  | std =>
    show decide (io.kind (io.ofKind (ImplsStd.ioKind kind)) = .interrupted) = true ↔ _
    rw [hio, decide_eq_true_iff]
    cases kind <;> simp [ImplsStd.ioKind]

/-! ### How a call ends -/

/-- How a call ends: with `Ok`, with `Err`, or by a panic that unwinds.  An allocation that is
refused counts as a panic as well, also where it aborts. -/
inductive Outcome (E α : Type) where
  | ok (a : α)
  | err (e : E)
  | panic
  deriving DecidableEq, Repr

theorem Outcome.ok_ne_panic {E α : Type} {a : α} : (.ok a : Outcome E α) ≠ .panic := by
  intro h
  cases h

theorem Outcome.err_ne_panic {E α : Type} {e : E} : (.err e : Outcome E α) ≠ .panic := by
  intro h
  cases h

theorem Outcome.err_ne_ok {E α : Type} {e : E} {a : α} : (.err e : Outcome E α) ≠ .ok a := by
  intro h
  cases h

/-- `Result::map`, also over panics. -/
def Outcome.map {E α β : Type} (f : α → β) : Outcome E α → Outcome E β
  | .ok a => .ok (f a)
  | .err e => .err e
  | .panic => .panic

/-- `Result::and_then`, also over panics. -/
def Outcome.andThen {E α β : Type} (o : Outcome E α) (f : α → Outcome E β) : Outcome E β :=
  match o with
  | .ok a => f a
  | .err e => .err e
  | .panic => .panic

end NotIo
