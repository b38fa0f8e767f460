import NotIo.Core.Traits

/-!
# Slices as readers and writers

The impls for `&[u8]` and `&mut [u8]`, which stand in `impls_alloc.rs` and again,
word for word, in `impls_nostd_noalloc.rs`, and those for `AllowStd` of them in the
configurations without `std`.

* `Slice.read_eq`: a read from `&[u8]` copies what fits.
* `SliceMut.write_of_le`, `SliceMut.write_of_lt`: a write to `&mut [u8]` stores
  the whole buffer when it fits; when it does not, `head.copy_from_slice(buf)` is
  called with slices of different lengths and panics.
-/

namespace NotIo

variable [Target] {E : Type}

/-! ### `&[u8]` -/

namespace Slice

/-- `Read::read` for `&[u8]`. -/
def read (self : Slice) (buf : List UInt8) : Slice × List UInt8 × Outcome E ℕ :=
  let len := min self.bytes.length buf.length
  -- `buf[..len].copy_from_slice(&self[..len])`
  match copyFromSlice (buf.take len) (self.bytes.take len), self.indexFrom len with
  | some head, some tail => (tail, head.1 ++ buf.drop len, .ok len)
  | _, _ => (self, buf, .panic)

/-- **A read copies what fits**, and the slice loses it. -/
theorem read_eq (self : Slice) (buf : List UInt8) :
    self.read (E := E) buf = (self.drop (min self.bytes.length buf.length),
      self.bytes.take (min self.bytes.length buf.length)
        ++ buf.drop (min self.bytes.length buf.length),
      .ok (min self.bytes.length buf.length)) := by
  rw [read, copyFromSlice_of_length_eq (by simp), indexFrom_of_le (Nat.min_le_left _ _)]

instance : Read E Slice where
  read := read
  read_length self buf := by
    rw [read_eq]
    simp only [List.length_append, List.length_take, List.length_drop]
    omega

instance : BufRead E Slice where
  fillBuf self := (self, .ok self)
  consume self n := self.indexFrom n

theorem read_def (self : Slice) (buf : List UInt8) :
    Read.read (E := E) self buf = self.read buf := rfl

@[simp] theorem fillBuf_eq (self : Slice) :
    BufRead.fillBuf (E := E) self = (self, .ok self) := rfl

@[simp] theorem consume_eq (self : Slice) (n : ℕ) :
    BufRead.consume E self n = self.indexFrom n := rfl

end Slice

/-! ### `&mut [u8]` -/

namespace SliceMut

/-- `Write::write` for `&mut [u8]`. -/
def write (self : SliceMut) (buf : List UInt8) : SliceMut × Outcome E ℕ :=
  let len := min self.rest.length buf.length
  -- `core::mem::take(self).split_at_mut(len)`, then `*self = tail`
  let head := self.rest.take len
  let tail := self.rest.drop len
  match copyFromSlice head buf with
  | some head' =>
    (⟨self.past ++ head'.1, tail, by
      have h := self.length_le
      rw [List.length_append, head'.2, List.length_take, List.length_drop]
      omega⟩, .ok len)
  | none =>
    (⟨self.past ++ head, tail, by
      have h := self.length_le
      rw [List.length_append, List.length_take, List.length_drop]
      omega⟩, .panic)

instance : Write E SliceMut where
  write := write
  flush self := (self, .ok ())

theorem write_def (self : SliceMut) (buf : List UInt8) :
    Write.write (E := E) self buf = self.write buf := rfl

/-- A buffer that fits is stored as a whole. -/
theorem write_of_le {self : SliceMut} {buf : List UInt8} (h : buf.length ≤ self.rest.length) :
    ∃ next : SliceMut, self.write (E := E) buf = (next, .ok buf.length) ∧
      next.past = self.past ++ buf ∧ next.rest = self.rest.drop buf.length := by
  have hmin : min self.rest.length buf.length = buf.length := Nat.min_eq_right h
  have hlen : buf.length = (self.rest.take (min self.rest.length buf.length)).length := by
    rw [List.length_take]
    omega
  refine ⟨⟨self.past ++ buf, self.rest.drop buf.length, ?_⟩, ?_, rfl, rfl⟩
  · have := self.length_le
    rw [List.length_append, List.length_drop]
    omega
  · simp only [write]
    rw [copyFromSlice_of_length_eq hlen]
    simp only [hmin]

/-- **A buffer that does not fit makes the write panic**; nothing is stored and the
whole of the slice is lost to `self`. -/
theorem write_of_lt {self : SliceMut} {buf : List UInt8} (h : self.rest.length < buf.length) :
    ∃ next : SliceMut, self.write (E := E) buf = (next, .panic) ∧
      next.past = self.past ++ self.rest ∧ next.rest = [] := by
  have hmin : min self.rest.length buf.length = self.rest.length := Nat.min_eq_left (Nat.le_of_lt h)
  have hlen : buf.length ≠ (self.rest.take (min self.rest.length buf.length)).length := by
    rw [List.length_take]
    omega
  refine ⟨⟨self.past ++ self.rest, [], by simpa using self.length_le⟩, ?_, rfl, rfl⟩
  simp only [write]
  rw [copyFromSlice_of_length_ne hlen]
  simp only [hmin, List.take_length, List.drop_length]

end SliceMut

/-! ### `AllowStd` without `std` -/

/-- `AllowStd<T>(pub T)`. -/
structure AllowStd (T : Type) where
  val : T
  deriving DecidableEq

namespace AllowStd

instance : Read E (AllowStd Slice) where
  read self buf :=
    let (val, buf, n) := Read.read self.val buf
    (⟨val⟩, buf, n)
  read_length self buf := Read.read_length self.val buf

instance : Write E (AllowStd SliceMut) where
  write self buf :=
    let (val, n) := Write.write self.val buf
    (⟨val⟩, n)
  flush self :=
    let (val, u) := Write.flush self.val
    (⟨val⟩, u)

theorem write_def (self : AllowStd SliceMut) (buf : List UInt8) :
    Write.write (E := E) self buf
      = (⟨(self.val.write (E := E) buf).1⟩, (self.val.write buf).2) := rfl

end AllowStd

end NotIo
