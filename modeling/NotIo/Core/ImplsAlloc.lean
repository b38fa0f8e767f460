import NotIo.Lib.Utf8
import NotIo.Core.ImplsAlways

/-!
# `impls_alloc.rs`

The reads into vectors and strings, and the writes to vectors and to cursors over
them.

`read_to_end` keeps the vector longer than its contents while it reads; a `Guard`
knows how many of the bytes count, and cuts the vector back to them on every way
out, panics included.  The `Utf8Guard` of `append_to_string` has the same two fields,
but it has no `Drop` of its own: nothing is cut back when it goes.
-/

namespace NotIo

open Loop (Step)

variable [Target] {E R T : Type}

/-! ### `read_to_end` -/

/-- The guard of `read_to_end`; the bytes from `len` on do not count. -/
structure Guard where
  buf : Vec
  len : ℕ
  len_le : len ≤ buf.bytes.length

namespace Guard

def new (buf : Vec) : Guard := ⟨buf, buf.len, le_refl _⟩

/-- `Drop for Guard`. -/
def drop (self : Guard) : Vec := self.buf.truncate self.len

/-- "Ensure room": a full vector is grown, and filled up with zeros. -/
def ensureRoom [Alloc] (self : Guard) : Option Guard :=
  if self.buf.len = self.len then
    match hv : self.buf.reserve 32 with
    | none => none
    | some v =>
      match hw : v.resize v.capacity 0 with
      | none => none
      | some w => some ⟨w, self.len, by
          rw [Vec.resize_spec v.length_le hw, (Vec.reserve_spec hv).1, List.length_append]
          exact Nat.le_add_right_of_le self.len_le⟩
  else some self

/-- The guard after its slice `[len..]` has been written to. -/
def store (self : Guard) (tail : List UInt8)
    (h : tail.length = (self.buf.bytes.drop self.len).length) : Guard :=
  ⟨self.buf.withTail self.len tail h, self.len, by
    have := self.len_le
    rw [Vec.withTail_bytes, List.length_append, List.length_take]
    omega⟩

/-- `r.read(&mut guard.buf[guard.len..])`. -/
def readInto [Read E R] (self : Guard) (r : R) : R × Guard × Outcome E ℕ :=
  let answer := Read.read r (self.buf.bytes.drop self.len)
  (answer.1, self.store answer.2.1 (Read.read_length _ _), answer.2.2)

end Guard

/-- The `match` of `read_to_end` on the answer of the reader. -/
def readToEndAnswer [ErrorImpl E] (startLen : ℕ) (r : R) (guard : Guard) :
    Outcome E ℕ → Step (R × Guard) (R × Vec × Outcome E ℕ)
  | .ok 0 => .done (r, guard.drop, .ok (guard.len - startLen))
  | .ok n =>
    -- `assert!(n <= buf.len())`
    if h : guard.len + n ≤ guard.buf.bytes.length then
      .next (r, ⟨guard.buf, guard.len + n, h⟩)
    else .done (r, guard.drop, .panic)
  | .err e => if Error.isInterrupted e then .next (r, guard) else .done (r, guard.drop, .err e)
  | .panic => .done (r, guard.drop, .panic)

theorem readToEndAnswer_succ [ErrorImpl E] (startLen : ℕ) (r : R) (guard : Guard) (n : ℕ) :
    readToEndAnswer (E := E) startLen r guard (.ok (n + 1)) =
      if h : guard.len + (n + 1) ≤ guard.buf.bytes.length then
        .next (r, ⟨guard.buf, guard.len + (n + 1), h⟩)
      else .done (r, guard.drop, .panic) := rfl

/-- One turn of the `loop` of `read_to_end`. -/
def readToEndBody [Alloc] [ErrorImpl E] [Read E R] (startLen : ℕ) (s : R × Guard) :
    Step (R × Guard) (R × Vec × Outcome E ℕ) :=
  let (r, guard) := s
  match guard.ensureRoom with
  | none => .done (r, guard.drop, .panic)
  | some guard =>
    let (r, guard, answer) := guard.readInto (E := E) r
    readToEndAnswer startLen r guard answer

def readToEnd [Alloc] [ErrorImpl E] [Read E R] (fuel : ℕ) (r : R) (buf : Vec) :
    Option (R × Vec × Outcome E ℕ) :=
  let guard := Guard.new buf
  Loop.loop (readToEndBody guard.len) fuel (r, guard)

/-! ### `read_until` -/

/-- The `match` of `read_until` on the position of the delimiter: whether it is there, and
how many bytes are used up. -/
def doneUsed (byte : UInt8) (available : List UInt8) : Bool × ℕ :=
  match available.idxOf? byte with
  | some n => (true, n + 1)
  | none => (false, available.length)

/-- The rest of a turn of `read_until`, with the bytes that are available. -/
def readUntilChunk [Alloc] (E : Type) [BufRead E R] (byte : UInt8) (r : R) (buf : Vec) (read : ℕ)
    (available : List UInt8) : Step (R × Vec × ℕ) (R × Vec × Outcome E ℕ) :=
  let (done, used) := doneUsed byte available
  match buf.extendFromSlice (available.take used) with
  | none => .done (r, buf, .panic)
  | some buf =>
    match BufRead.consume E r used with
    | none => .done (r, buf, .panic)
    | some r =>
      match usizeAdd read used with
      | none => .done (r, buf, .panic)
      | some read => if done || used = 0 then .done (r, buf, .ok read) else .next (r, buf, read)

/-- One turn of the `loop` of `read_until`. -/
def readUntilBody [Alloc] [ErrorImpl E] [BufRead E R] (byte : UInt8) (s : R × Vec × ℕ) :
    Step (R × Vec × ℕ) (R × Vec × Outcome E ℕ) :=
  let (r, buf, read) := s
  match BufRead.fillBuf (E := E) r with
  | (r, .ok available) => readUntilChunk E byte r buf read available.bytes
  | (r, .err e) =>
    if Error.isInterrupted e then .next (r, buf, read) else .done (r, buf, .err e)
  | (r, .panic) => .done (r, buf, .panic)

def readUntil [Alloc] [ErrorImpl E] [BufRead E R] (fuel : ℕ) (r : R) (byte : UInt8) (buf : Vec) :
    Option (R × Vec × Outcome E ℕ) :=
  Loop.loop (readUntilBody byte) fuel (r, buf, 0)

/-! ### Strings -/

/-- `String`. -/
structure Str where
  vec : Vec
  valid : Utf8.Valid vec.bytes

/-- `String::new()`. -/
def Str.new : Str := ⟨Vec.new, Utf8.valid_nil⟩

/-- The guard of `append_to_string`. -/
structure Utf8Guard where
  buf : Vec
  len : ℕ

/-- What the end of the guard's life leaves in the vector: there is no `Drop for Utf8Guard`. -/
def Utf8Guard.drop (self : Utf8Guard) : Vec := self.buf

/-- `core::str::from_utf8(..).is_err()`. -/
def fromUtf8IsErr (v : List UInt8) : Bool := !decide (Utf8.Valid v)

/-- `append_to_string`.  The string is given back as the vector that
`String::as_mut_vec` has lent out. -/
def appendToString [ErrorImpl E] (r : R) (buf : Str)
    (reader : R → Vec → Option (R × Vec × Outcome E ℕ)) : Option (R × Vec × Outcome E ℕ) :=
  let guard : Utf8Guard := ⟨buf.vec, buf.vec.len⟩
  match reader r guard.buf with
  | none => none
  | some (r, v, .panic) => some (r, { guard with buf := v }.drop, .panic)
  | some (r, v, ret) =>
    let guard := { guard with buf := v }
    match splitAt guard.buf.bytes guard.len with
    | none => some (r, guard.drop, .panic)
    | some (_, appended) =>
      if fromUtf8IsErr appended then
        some (r, guard.drop, ret.andThen fun _ => .err (Error.ofErrorKind .invalidData))
      else
        let guard := { guard with len := guard.buf.len }
        some (r, guard.drop, ret)

def readToString [Alloc] [ErrorImpl E] [Read E R] (fuel : ℕ) (r : R) (buf : Str) :
    Option (R × Vec × Outcome E ℕ) :=
  appendToString r buf fun r buf => readToEnd fuel r buf

/-- `b'\n'`. -/
def newline : UInt8 := 10

def readLine [Alloc] [ErrorImpl E] [BufRead E R] (fuel : ℕ) (r : R) (buf : Str) :
    Option (R × Vec × Outcome E ℕ) :=
  appendToString r buf fun r buf => readUntil fuel r newline buf

/-! ### Writing to vectors -/

/-- `Write::write` for `Vec<u8>`. -/
instance [Alloc] : Write E Vec where
  write self buf :=
    match self.extendFromSlice buf with
    | some v => (v, .ok buf.length)
    | none => (self, .panic)
  flush self := (self, .ok ())

/-- `vec[pos..][..src.len()].copy_from_slice(src)`. -/
def Vec.overwrite (self : Vec) (pos : ℕ) (src : List UInt8) : Option Vec :=
  if h : pos + src.length ≤ self.bytes.length then
    some (self.withTail pos (src ++ self.bytes.drop (pos + src.length)) (by
      rw [List.length_append, List.length_drop, List.length_drop]
      omega))
  else none

def vecWrite [Alloc] [ErrorImpl E] (posMut : UInt64) (vec : Vec) (buf : List UInt8) :
    UInt64 × Vec × Outcome E ℕ :=
  match usizeTryFrom posMut with
  | none => (posMut, vec, .err (Error.ofErrorKind .invalidInput))
  | some pos =>
    let newlen := max vec.len pos
    match vec.resize newlen 0 with
    | none => (posMut, vec, .panic)
    | some vec =>
      match splitAt buf (min buf.length (newlen - pos)) with
      | none => (posMut, vec, .panic)
      | some (overwrite, fill) =>
        match vec.overwrite pos overwrite with
        | none => (posMut, vec, .panic)
        | some vec =>
          match vec.extendFromSlice fill with
          | none => (posMut, vec, .panic)
          | some vec =>
            match usizeAdd pos buf.length with
            | none => (posMut, vec, .panic)
            | some pos => (U64.ofUsize pos, vec, .ok buf.length)

/-- `&mut T`. -/
structure MutRef (T : Type) where
  target : T
  deriving DecidableEq

instance : AsRef (MutRef Vec) where
  asRef t := asRef t.target

/-- `Write::write` for `Cursor<&mut Vec<u8>>`. -/
instance [Alloc] [ErrorImpl E] : Write E (Cursor (MutRef Vec)) where
  write self buf :=
    let (pos, vec, n) := vecWrite self.pos self.inner.target buf
    (⟨⟨vec⟩, pos⟩, n)
  flush self := (self, .ok ())

/-- `Write::write` for `Cursor<Vec<u8>>`. -/
instance [Alloc] [ErrorImpl E] : Write E (Cursor Vec) where
  write self buf :=
    let (pos, vec, n) := vecWrite self.pos self.inner buf
    (⟨vec, pos⟩, n)
  flush self := (self, .ok ())

end NotIo
