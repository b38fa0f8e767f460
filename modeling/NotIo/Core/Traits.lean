import NotIo.Lib.Loop
import NotIo.Core.Mem

/-!
# The traits

`Read`, `BufRead`, `Write` and `Seek` of `lib.rs`, with the provided methods
`read_exact` and `write_all`.  `self` is passed and given back.  `&mut [u8]` is a
list of bytes that a call gives back with the same length (`read_length`), with
whatever it has written there; what it reports to have read may be more than that.

The retry loops run on fuel (`Loop.loop`): nothing says that a reader which is
interrupted again and again will ever answer otherwise.
-/

namespace NotIo

open Loop (Step)

/-- `Read`, the required method. -/
class Read (E R : Type) where
  read : R → List UInt8 → R × List UInt8 × Outcome E ℕ
  read_length : ∀ self buf, (read self buf).2.1.length = buf.length

/-- `BufRead`, the required methods; `consume` gives `none` when it panics. -/
class BufRead [Target] (E R : Type) extends Read E R where
  fillBuf : R → R × Outcome E Slice
  consume : R → ℕ → Option R

/-- `Write`, the required methods. -/
class Write (E W : Type) where
  write : W → List UInt8 → W × Outcome E ℕ
  flush : W → W × Outcome E Unit

inductive SeekFrom where
  | fromStart (n : UInt64)
  | fromEnd (n : Int64)
  | fromCurrent (n : Int64)
  deriving DecidableEq

/-- `Seek`, the required method. -/
class Seek (E S : Type) where
  seek : S → SeekFrom → S × Outcome E UInt64

variable {E R W S : Type}

theorem read_length_of_eq [Read E R] {self self' : R} {buf buf' : List UInt8} {o : Outcome E ℕ}
    (h : Read.read self buf = (self', buf', o)) : buf'.length = buf.length := by
  have := Read.read_length (E := E) self buf
  rwa [h] at this

/-! ### `Read::read_exact` -/

/-- One turn of the `while` of `read_exact`.  `filled` is the part of the buffer that
`buf = &mut buf[n..]` has left behind. -/
def readExactBody [ErrorImpl E] [Read E R] (s : R × List UInt8 × List UInt8) :
    Step (R × List UInt8 × List UInt8) (R × List UInt8 × Outcome E Unit) :=
  let (self, filled, buf) := s
  if buf.isEmpty then .done (self, filled ++ buf, .ok ())
  else
    match Read.read (E := E) self buf with
    | (self, buf, .ok 0) => .done (self, filled ++ buf, .err (Error.ofErrorKind .unexpectedEof))
    | (self, buf, .ok n) =>
      if n ≤ buf.length then .next (self, filled ++ buf.take n, buf.drop n)
      else .done (self, filled ++ buf, .panic)
    | (self, buf, .err e) =>
      if Error.isInterrupted e then .next (self, filled, buf)
      else .done (self, filled ++ buf, .err e)
    | (self, buf, .panic) => .done (self, filled ++ buf, .panic)

/-- `Read::read_exact` as provided. -/
def readExact [ErrorImpl E] [Read E R] (fuel : ℕ) (self : R) (buf : List UInt8) :
    Option (R × List UInt8 × Outcome E Unit) :=
  Loop.loop readExactBody fuel (self, [], buf)

theorem readExact_mono [ErrorImpl E] [Read E R] (self : R) (buf : List UInt8) :
    Loop.Mono fun n => readExact (E := E) n self buf :=
  Loop.loop_mono _ _

/-- `Read::read_exact` as a type has it. -/
class ReadExactImpl (E R : Type) where
  readExactImpl : ℕ → R → List UInt8 → Option (R × List UInt8 × Outcome E Unit)
  readExactImpl_mono : ∀ self buf, Loop.Mono fun n => readExactImpl n self buf

/-- A type that does not implement the method (`Cursor` and `Repeat` do) has the provided one. -/
instance (priority := low) ReadExactImpl.provided [ErrorImpl E] [Read E R] : ReadExactImpl E R :=
  ⟨readExact, readExact_mono⟩

/-! ### `Write::write_all` -/

/-- One turn of the `while` of `write_all`. -/
def writeAllBody [ErrorImpl E] [Write E W] (s : W × List UInt8) :
    Step (W × List UInt8) (W × Outcome E Unit) :=
  let (self, buf) := s
  if buf.isEmpty then .done (self, .ok ())
  else
    match Write.write (E := E) self buf with
    | (self, .ok 0) => .done (self, .err (Error.ofErrorKind .writeZero))
    | (self, .ok n) =>
      if n ≤ buf.length then .next (self, buf.drop n)
      else .done (self, .panic)
    | (self, .err e) =>
      if Error.isInterrupted e then .next (self, buf)
      else .done (self, .err e)
    | (self, .panic) => .done (self, .panic)

/-- `Write::write_all` as provided. -/
def writeAll [ErrorImpl E] [Write E W] (fuel : ℕ) (self : W) (buf : List UInt8) :
    Option (W × Outcome E Unit) :=
  Loop.loop writeAllBody fuel (self, buf)

theorem writeAll_mono [ErrorImpl E] [Write E W] (self : W) (buf : List UInt8) :
    Loop.Mono fun n => writeAll (E := E) n self buf :=
  Loop.loop_mono _ _

/-- A writer that takes the whole buffer is called once. -/
theorem writeAll_of_whole [ErrorImpl E] [Write E W] {self self' : W} {buf : List UInt8}
    (hne : buf ≠ []) (h : Write.write (E := E) self buf = (self', .ok buf.length)) :
    Loop.Returns (fun n => writeAll (E := E) n self buf) (self', .ok ()) := by
  obtain ⟨k, hk⟩ : ∃ k, buf.length = k + 1 :=
    Nat.exists_eq_succ_of_ne_zero fun h0 => hne (List.eq_nil_of_length_eq_zero h0)
  have hbody : writeAllBody (E := E) (self, buf) = .next (self', []) := by
    rw [hk] at h
    simp only [writeAllBody, List.isEmpty_iff, if_neg hne, h]
    rw [if_pos (Nat.le_of_eq hk.symm), ← hk, List.drop_length]
  refine ⟨2, ?_⟩
  show Loop.loop writeAllBody 2 (self, buf) = _
  rw [Loop.loop_next hbody]
  exact Loop.loop_done rfl 0

/-! ### `Seek::stream_position` -/

/-- `Seek::stream_position` as provided. -/
def streamPosition [Seek E S] (self : S) : S × Outcome E UInt64 :=
  Seek.seek self (.fromCurrent 0)

end NotIo
