import NotIo.Core.Slices

/-!
# `impls_always.rs`

`Cursor`, `Empty`, `Repeat`, `Sink`, `Take` and `stack_copy`, the impls that stand in
every configuration.

A cursor may stand past the end of its bytes; what it reads from is
`Cursor.remaining`.  `capMin_eq`: `cap_min` is the minimum on every width of `usize`.
-/

namespace NotIo

open Loop (Step)

variable [Target] {E R W T : Type}

/-! ### `Cursor` -/

structure Cursor (T : Type) where
  inner : T
  pos : UInt64
  deriving DecidableEq

namespace Cursor

def new (inner : T) : Cursor T := ⟨inner, 0⟩

def intoInner (self : Cursor T) : T := self.inner

def position (self : Cursor T) : UInt64 := self.pos

def setPosition (self : Cursor T) (pos : UInt64) : Cursor T := { self with pos }

def consume (self : Cursor T) (amt : ℕ) : Option (Cursor T) :=
  match U64.add self.pos (U64.ofUsize amt) with
  | some pos => some { self with pos }
  | none => none

theorem consume_of_lt {self : Cursor T} {amt : ℕ} (h : self.pos.toNat + amt < 2 ^ 64) :
    self.consume amt = some { self with pos := self.pos + U64.ofUsize amt } := by
  rw [consume, U64.add_of_lt (by rw [U64.toNat_ofUsize (by omega)]; exact h)]

section

variable [AsRef T]

def fillBuf (self : Cursor T) : Cursor T × Outcome E Slice :=
  let buffer := asRef self.inner
  let pos := (min self.pos (U64.ofUsize buffer.bytes.length)).toNat
  match buffer.indexFrom pos with
  | some s => (self, .ok s)
  | none => (self, .panic)

def read (self : Cursor T) (buf : List UInt8) : Cursor T × List UInt8 × Outcome E ℕ :=
  match self.fillBuf (E := E) with
  | (self, .ok s) =>
    match Read.read (E := E) s buf with
    | (_, buf, .ok read) =>
      match self.consume read with
      | some self => (self, buf, .ok read)
      | none => (self, buf, .panic)
    | (_, buf, .err e) => (self, buf, .err e)
    | (_, buf, .panic) => (self, buf, .panic)
  | (self, .err e) => (self, buf, .err e)
  | (self, .panic) => (self, buf, .panic)

/-- `Read::read_exact`, which the cursor implements itself. -/
def readExact [ErrorImpl E] (fuel : ℕ) (self : Cursor T) (buf : List UInt8) :
    Option (Cursor T × List UInt8 × Outcome E Unit) :=
  match self.fillBuf (E := E) with
  | (self, .ok s) =>
    match NotIo.readExact (E := E) fuel s buf with
    | none => none
    | some (_, buf, .ok ()) =>
      match self.consume buf.length with
      | some self => some (self, buf, .ok ())
      | none => some (self, buf, .panic)
    | some (_, buf, .err e) => some (self, buf, .err e)
    | some (_, buf, .panic) => some (self, buf, .panic)
  | (self, .err e) => some (self, buf, .err e)
  | (self, .panic) => some (self, buf, .panic)

/-- Where the cursor reads: its position, or the end when it stands past the end. -/
def start (self : Cursor T) : ℕ := min self.pos.toNat (asRef self.inner).bytes.length

/-- The bytes from the position on. -/
def remaining (self : Cursor T) : Slice := (asRef self.inner).drop self.start

theorem remaining_length (self : Cursor T) :
    self.remaining.bytes.length = (asRef self.inner).bytes.length - self.pos.toNat := by
  simp only [remaining, start, Slice.drop_bytes, List.length_drop]
  omega

theorem fillBuf_eq (self : Cursor T) : self.fillBuf (E := E) = (self, .ok self.remaining) := by
  have hlen := lt_u64_of_le_isizeMax (asRef self.inner).length_le
  rw [fillBuf, U64.toNat_min, U64.toNat_ofUsize hlen,
    Slice.indexFrom_of_le (Nat.min_le_right _ _)]
  rfl

/-- Passing over bytes that are there does not overflow the position. -/
theorem consume_of_le {self : Cursor T} {amt : ℕ} (h : amt ≤ self.remaining.bytes.length) :
    self.consume amt = some { self with pos := self.pos + U64.ofUsize amt } := by
  apply consume_of_lt
  have hlen := lt_u64_of_le_isizeMax (asRef self.inner).length_le
  have hpos := self.pos.toNat_lt
  rw [remaining_length] at h
  omega

theorem read_eq (self : Cursor T) (buf : List UInt8) :
    self.read (E := E) buf =
      ({ self with pos := self.pos + U64.ofUsize (min self.remaining.bytes.length buf.length) },
        self.remaining.bytes.take buf.length ++ buf.drop self.remaining.bytes.length,
        .ok (min self.remaining.bytes.length buf.length)) := by
  rw [read, fillBuf_eq]
  simp only [Slice.read_def, Slice.read_eq]
  rw [consume_of_le (Nat.min_le_left _ _)]
  simp only [Prod.mk.injEq, true_and, and_true]
  rcases le_total self.remaining.bytes.length buf.length with h | h
  · rw [Nat.min_eq_left h, List.take_length, List.take_of_length_le h]
  · rw [Nat.min_eq_right h, List.drop_length, List.drop_of_length_le h]

instance : Read E (Cursor T) where
  read := read
  read_length self buf := by
    rw [read_eq]
    simp only [List.length_append, List.length_take, List.length_drop]
    omega

instance : BufRead E (Cursor T) where
  fillBuf := fillBuf
  consume := consume

theorem readExact_mono [ErrorImpl E] (self : Cursor T) (buf : List UInt8) :
    Loop.Mono fun n => self.readExact (E := E) n buf := by
  intro n m res hnm h
  simp only [readExact, fillBuf_eq] at h ⊢
  cases hn : NotIo.readExact (E := E) n self.remaining buf with
  | none => simp [hn] at h
  | some r =>
    rw [hn] at h
    rw [show NotIo.readExact (E := E) m self.remaining buf = some r from
      NotIo.readExact_mono _ _ hnm hn]
    exact h

instance [ErrorImpl E] : ReadExactImpl E (Cursor T) := ⟨readExact, readExact_mono⟩

end

/-! ### Writing to `Cursor<&mut [u8]>` -/

/-- `&mut self.inner[pos..]`: `inner` narrowed by its first `pos` bytes. -/
def tailFrom (inner : SliceMut) (pos : ℕ) : SliceMut :=
  ⟨inner.past ++ inner.rest.take pos, inner.rest.drop pos, by
    have h := inner.length_le
    rw [List.length_append, List.length_take, List.length_drop]
    omega⟩

/-- `inner` after a slice narrowed from it has been written to. -/
def withMemory (inner slice : SliceMut) : SliceMut :=
  ⟨inner.past, slice.memory.drop inner.past.length, by
    have h := inner.length_le
    have h' := slice.length_le
    rw [SliceMut.memory, List.length_drop, List.length_append]
    omega⟩

/-- `Write::write` for `Cursor<&mut [u8]>`. -/
def writeSlice (self : Cursor SliceMut) (buf : List UInt8) : Cursor SliceMut × Outcome E ℕ :=
  let pos := (min self.pos (U64.ofUsize self.inner.rest.length)).toNat
  match Write.write (E := E) (tailFrom self.inner pos) buf with
  | (slice, .ok n) =>
    match U64.add self.pos (U64.ofUsize n) with
    | some pos => (⟨withMemory self.inner slice, pos⟩, .ok n)
    | none => (⟨withMemory self.inner slice, self.pos⟩, .panic)
  | (slice, .err e) => (⟨withMemory self.inner slice, self.pos⟩, .err e)
  | (slice, .panic) => (⟨withMemory self.inner slice, self.pos⟩, .panic)

instance : Write E (Cursor SliceMut) where
  write := writeSlice
  flush self := (self, .ok ())

/-! ### Seeking -/

/-- `Seek::seek` for a cursor. -/
def seek [ErrorImpl E] [AsRef T] (self : Cursor T) (pos : SeekFrom) :
    Cursor T × Outcome E UInt64 :=
  match pos with
  | .fromStart n => ({ self with pos := n }, .ok n)
  | .fromEnd n => go self (U64.ofUsize (asRef self.inner).bytes.length) n
  | .fromCurrent n => go self self.pos n
where
  go (self : Cursor T) (basePos : UInt64) (offset : Int64) : Cursor T × Outcome E UInt64 :=
    let newPos :=
      if 0 ≤ offset then U64.checkedAdd basePos offset.toUInt64
      -- `offset.wrapping_neg() as u64`
      else U64.checkedSub basePos (-offset).toUInt64
    match newPos with
    | some pos => ({ self with pos }, .ok pos)
    | none => (self, .err (Error.ofErrorKind .invalidInput))

instance [ErrorImpl E] [AsRef T] : Seek E (Cursor T) where
  seek := seek

/-- `Seek::stream_position`, which the cursor implements itself. -/
def streamPosition (self : Cursor T) : Cursor T × Outcome E UInt64 := (self, .ok self.pos)

end Cursor

/-! ### `Empty`, `Repeat` and `Sink` -/

structure Empty where
  deriving DecidableEq

structure Repeat where
  byte : UInt8
  deriving DecidableEq

structure Sink where
  deriving DecidableEq

instance : Read E Empty where
  read self buf := (self, buf, .ok 0)
  read_length _ _ := rfl

instance : BufRead E Empty where
  fillBuf self := (self, .ok Slice.empty)
  consume self _ := some self

instance : Seek E Empty where
  seek self _ := (self, .ok 0)

instance : Read E Repeat where
  read self buf := (self, buf.map fun _ => self.byte, .ok buf.length)
  read_length _ _ := List.length_map _

/-- `Read::read_exact` of `Repeat`. -/
def Repeat.readExact (self : Repeat) (buf : List UInt8) : Repeat × List UInt8 × Outcome E Unit :=
  match Read.read (E := E) self buf with
  | (self, buf, n) => (self, buf, n.map fun _ => ())

instance : ReadExactImpl E Repeat :=
  ⟨fun _ self buf => some (self.readExact buf), fun _ _ => Loop.mono_const _⟩

instance : Write E Sink where
  write self buf := (self, .ok buf.length)
  flush self := (self, .ok ())

/-! ### `stack_copy` -/

/-- `DEFAULT_STACK_BUFFER_SIZE`. -/
def defaultStackBufferSize : ℕ := 512

/-- One turn of the `loop` of `stack_copy`. -/
def stackCopyBody [ErrorImpl E] [Read E R] [Write E W] (fuel : ℕ)
    (s : R × W × List UInt8 × UInt64) :
    Option (Step (R × W × List UInt8 × UInt64) (R × W × Outcome E UInt64)) :=
  let (read, write, buffer, written) := s
  match Read.read (E := E) read buffer with
  | (read, _, .ok 0) => some (.done (read, write, .ok written))
  | (read, buffer, .err e) =>
    if Error.isInterrupted e then some (.next (read, write, buffer, written))
    else some (.done (read, write, .err e))
  | (read, _, .panic) => some (.done (read, write, .panic))
  | (read, buffer, .ok len) =>
    if len ≤ buffer.length then
      match writeAll (E := E) fuel write (buffer.take len) with
      | none => none
      | some (write, .ok ()) =>
        match U64.add written (U64.ofUsize len) with
        | some written => some (.next (read, write, buffer, written))
        | none => some (.done (read, write, .panic))
      | some (write, .err e) => some (.done (read, write, .err e))
      | some (write, .panic) => some (.done (read, write, .panic))
    else some (.done (read, write, .panic))

def stackCopy [ErrorImpl E] [Read E R] [Write E W] (fuel : ℕ) (read : R) (write : W) :
    Option (R × W × Outcome E UInt64) :=
  Loop.run stackCopyBody fuel (read, write, List.replicate defaultStackBufferSize 0, 0)

/-- `copy`. -/
def copy [ErrorImpl E] [Read E R] [Write E W] (fuel : ℕ) (read : R) (write : W) :
    Option (R × W × Outcome E UInt64) :=
  stackCopy fuel read write

/-! ### `Take` -/

structure Take (R : Type) where
  inner : R
  limit : UInt64
  deriving DecidableEq

/-- `Read::take`. -/
def take (self : R) (limit : UInt64) : Take R := ⟨self, limit⟩

def capMin (limit : UInt64) (len : ℕ) : ℕ := min ((usizeTryFrom limit).getD len) len

/-- **`cap_min` is the minimum**, also when the limit does not fit in a `usize`. -/
theorem capMin_eq (limit : UInt64) {len : ℕ} (h : len < 2 ^ usizeBits) :
    capMin limit len = min limit.toNat len := by
  unfold capMin usizeTryFrom
  split
  · rfl
  · simp only [Option.getD_none]
    omega

theorem capMin_le (limit : UInt64) (len : ℕ) : capMin limit len ≤ len := Nat.min_le_right _ _

namespace Take

def read [Read E R] (self : Take R) (buf : List UInt8) : Take R × List UInt8 × Outcome E ℕ :=
  if self.limit = 0 then (self, buf, .ok 0)
  else
    let len := capMin self.limit buf.length
    match splitAt buf len with
    | none => (self, buf, .panic)
    | some (head, tail) =>
      match Read.read (E := E) self.inner head with
      | (inner, head, .ok n) =>
        (⟨inner, U64.saturatingSub self.limit (U64.ofUsize n)⟩, head ++ tail, .ok n)
      | (inner, head, .err e) => (⟨inner, self.limit⟩, head ++ tail, .err e)
      | (inner, head, .panic) => (⟨inner, self.limit⟩, head ++ tail, .panic)

def fillBuf [BufRead E R] (self : Take R) : Take R × Outcome E Slice :=
  -- the inner reader is not called at all at the end
  if self.limit = 0 then (self, .ok Slice.empty)
  else
    match BufRead.fillBuf (E := E) self.inner with
    | (inner, .ok buf) =>
      match buf.indexTo (capMin self.limit buf.bytes.length) with
      | some s => (⟨inner, self.limit⟩, .ok s)
      | none => (⟨inner, self.limit⟩, .panic)
    | (inner, .err e) => (⟨inner, self.limit⟩, .err e)
    | (inner, .panic) => (⟨inner, self.limit⟩, .panic)

def consume (E : Type) [BufRead E R] (self : Take R) (amt : ℕ) : Option (Take R) :=
  let amt := capMin self.limit amt
  match U64.sub self.limit (U64.ofUsize amt) with
  | none => none
  | some limit =>
    match BufRead.consume E self.inner amt with
    | none => none
    | some inner => some ⟨inner, limit⟩

/-- The limit after a read that was answered so. -/
def limitAfter (limit : UInt64) : Outcome E ℕ → UInt64
  | .ok n => U64.saturatingSub limit (U64.ofUsize n)
  | .err _ => limit
  | .panic => limit

theorem read_of_zero [Read E R] {self : Take R} (h : self.limit = 0) (buf : List UInt8) :
    self.read (E := E) buf = (self, buf, .ok 0) := if_pos h

/-- A read above the end is a read of the inner reader into the first `cap_min` bytes. -/
theorem read_of_ne [Read E R] {self : Take R} {inner : R} {buf head : List UInt8}
    {o : Outcome E ℕ} (h : self.limit ≠ 0)
    (hr : Read.read self.inner (buf.take (capMin self.limit buf.length)) = (inner, head, o)) :
    self.read buf = (⟨inner, limitAfter self.limit o⟩,
      head ++ buf.drop (capMin self.limit buf.length), o) := by
  rw [read, if_neg h]
  dsimp only
  rw [splitAt_of_le (capMin_le _ _)]
  dsimp only
  rw [hr]
  cases o <;> rfl

theorem fillBuf_of_zero [BufRead E R] {self : Take R} (h : self.limit = 0) :
    self.fillBuf (E := E) = (self, .ok Slice.empty) := if_pos h

theorem fillBuf_of_ne [BufRead E R] {self : Take R} {inner : R} {o : Outcome E Slice}
    (h : self.limit ≠ 0) (hf : BufRead.fillBuf self.inner = (inner, o)) :
    self.fillBuf = (⟨inner, self.limit⟩, o.map fun s => s.take (capMin self.limit s.bytes.length)) := by
  rw [fillBuf, if_neg h, hf]
  cases o with
  | ok s =>
    dsimp only
    rw [Slice.indexTo_of_le (capMin_le _ _)]
    rfl
  | err e => rfl
  | panic => rfl

/-- **`consume` never takes more than the limit**, so its subtraction does not overflow. -/
theorem consume_eq [BufRead E R] (self : Take R) {amt : ℕ} (h : amt < 2 ^ usizeBits) :
    self.consume E amt = (BufRead.consume E self.inner (min self.limit.toNat amt)).map fun inner =>
      ⟨inner, self.limit - U64.ofUsize (min self.limit.toNat amt)⟩ := by
  have hlt : min self.limit.toNat amt < 2 ^ 64 :=
    lt_of_le_of_lt (Nat.min_le_left _ _) self.limit.toNat_lt
  rw [consume, capMin_eq self.limit h, U64.sub_of_le (by
    rw [U64.toNat_ofUsize hlt]
    exact Nat.min_le_left _ _)]
  cases BufRead.consume E self.inner (min self.limit.toNat amt) <;> rfl

instance [Read E R] : Read E (Take R) where
  read := read
  read_length self buf := by
    by_cases h : self.limit = 0
    · rw [read_of_zero h]
    · rcases hr : Read.read (E := E) self.inner (buf.take (capMin self.limit buf.length)) with
        ⟨inner, head, o⟩
      have hlen := read_length_of_eq hr
      have hcap := capMin_le self.limit buf.length
      rw [read_of_ne h hr]
      rw [List.length_take] at hlen
      rw [List.length_append, List.length_drop]
      omega

instance [BufRead E R] : BufRead E (Take R) where
  fillBuf := fillBuf
  consume := consume E

/-- A read reads nothing at the end, and above it is one of the reader inside. -/
theorem read_cases [Read E R] {self self' : Take R} {buf buf' : List UInt8} {o : Outcome E ℕ}
    (h : Read.read self buf = (self', buf', o)) :
    (self.limit.toNat = 0 ∧ self' = self ∧ buf' = buf ∧ o = .ok 0) ∨
    (self.limit.toNat ≠ 0 ∧ ∃ head,
      Read.read self.inner (buf.take (capMin self.limit buf.length)) = (self'.inner, head, o) ∧
      buf' = head ++ buf.drop (capMin self.limit buf.length) ∧
      self'.limit = limitAfter self.limit o) := by
  by_cases hzero : self.limit = 0
  · have hr : Read.read (E := E) self buf = (self, buf, .ok 0) := read_of_zero hzero buf
    rw [hr] at h
    cases h
    exact Or.inl ⟨by rw [hzero]; rfl, rfl, rfl, rfl⟩
  · rcases hinner : Read.read (E := E) self.inner (buf.take (capMin self.limit buf.length))
      with ⟨inner, head, o'⟩
    have hr : Read.read (E := E) self buf = _ := read_of_ne hzero hinner
    rw [hr] at h
    cases h
    exact Or.inr ⟨fun h0 => hzero (UInt64.toNat_inj.mp h0), head, rfl, rfl, rfl⟩

/-- What is shown is nothing at the end, and above it the beginning of what is shown inside. -/
theorem fillBuf_cases [BufRead E R] {self self' : Take R} {o : Outcome E Slice}
    (h : BufRead.fillBuf self = (self', o)) :
    (self.limit.toNat = 0 ∧ self' = self ∧ o = .ok Slice.empty) ∨
    (self.limit.toNat ≠ 0 ∧ ∃ o', BufRead.fillBuf (E := E) self.inner = (self'.inner, o') ∧
      self'.limit = self.limit ∧
      o = o'.map fun s => s.take (min self.limit.toNat s.bytes.length)) := by
  by_cases hzero : self.limit = 0
  · have hf : BufRead.fillBuf (E := E) self = (self, .ok Slice.empty) := fillBuf_of_zero hzero
    rw [hf] at h
    cases h
    exact Or.inl ⟨by rw [hzero]; rfl, rfl, rfl⟩
  · rcases hinner : BufRead.fillBuf (E := E) self.inner with ⟨inner, o'⟩
    have hf : BufRead.fillBuf (E := E) self = _ := fillBuf_of_ne hzero hinner
    rw [hf] at h
    cases h
    refine Or.inr ⟨fun h0 => hzero (UInt64.toNat_inj.mp h0), o', rfl, rfl, ?_⟩
    cases o' with
    | ok s => simp only [Outcome.map, capMin_eq self.limit (lt_of_le_isizeMax s.length_le)]
    | err e => rfl
    | panic => rfl

/-- Passing over what the limit allows is passing over it inside. -/
theorem consume_of_le [BufRead E R] {self : Take R} {amt : ℕ} {inner : R}
    (hle : amt ≤ self.limit.toNat) (hsize : amt < 2 ^ usizeBits)
    (h : BufRead.consume E self.inner amt = some inner) :
    BufRead.consume E self amt = some ⟨inner, self.limit - U64.ofUsize amt⟩ := by
  show self.consume E amt = _
  rw [consume_eq self hsize, Nat.min_eq_right hle, h, Option.map_some]

end Take

end NotIo
