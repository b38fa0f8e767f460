import Mathlib.Algebra.Ring.Nat
import Mathlib.Data.List.Basic
import Mathlib.Data.Nat.Basic
import NotIo.Core.Error

/-!
# Machine integers, slices and vectors

What the crate takes from the language and from `alloc`:

* `Target`: the width of `usize` and whether `+` and `-` are checked; `usize`
  values are natural numbers, `u64` values are `UInt64`.
* `Slice` is `&[u8]`, `SliceMut` is `&mut [u8]`.  A `&mut [u8]` that is written to
  is narrowed to what is left of it; `past` keeps the bytes it has been narrowed
  by, so that the memory of the original slice is `past ++ rest`.
* `Vec` is `Vec<u8>` with its capacity.  `Alloc` is the growth strategy: it may
  refuse a request (`reserve` then panics, or aborts), and what it grants is large
  enough.  `Vec.Refused` is a request of the vector that it refuses.

No slice and no vector is longer than `isize::MAX`.
-/

namespace NotIo

/-- The machine and the profile that the crate is built for. -/
class Target where
  usizeBits : ℕ
  usizeBits_mem : usizeBits = 16 ∨ usizeBits = 32 ∨ usizeBits = 64
  overflowChecks : Bool

export Target (usizeBits overflowChecks)

/-- `isize::MAX`. -/
def isizeMax [Target] : ℕ := 2 ^ (usizeBits - 1) - 1

section

variable [Target]

theorem isizeMax_lt : isizeMax < 2 ^ usizeBits := by
  rcases Target.usizeBits_mem with h | h | h <;> simp [isizeMax, h]

theorem usizeBits_le : 2 ^ usizeBits ≤ 2 ^ 64 := by
  rcases Target.usizeBits_mem with h | h | h <;> simp [h]

theorem le_isizeMax_of_le {n : ℕ} (h : n ≤ 32767) : n ≤ isizeMax := by
  rcases Target.usizeBits_mem with hb | hb | hb <;> simp [isizeMax, hb] <;> omega

theorem lt_of_le_isizeMax {n : ℕ} (h : n ≤ isizeMax) : n < 2 ^ usizeBits :=
  lt_of_le_of_lt h isizeMax_lt

theorem lt_u64_of_le_isizeMax {n : ℕ} (h : n ≤ isizeMax) : n < 2 ^ 64 :=
  lt_of_lt_of_le (lt_of_le_isizeMax h) usizeBits_le

theorem lt_i64_of_le_isizeMax {n : ℕ} (h : n ≤ isizeMax) : n < 2 ^ 63 := by
  rcases Target.usizeBits_mem with hb | hb | hb <;> simp [isizeMax, hb] at h <;> omega

/-- `usize::try_from(n)`. -/
def usizeTryFrom (n : UInt64) : Option ℕ :=
  if n.toNat < 2 ^ usizeBits then some n.toNat else none

/-- `a + b` on `usize`; `none` is the overflow panic. -/
def usizeAdd (a b : ℕ) : Option ℕ :=
  if a + b < 2 ^ usizeBits then some (a + b)
  else if overflowChecks then none
  else some ((a + b) % 2 ^ usizeBits)

end

/-! ### `u64` -/

namespace U64

/-- `n as u64` for a `usize`. -/
def ofUsize (n : ℕ) : UInt64 := UInt64.ofNat n

@[simp] theorem toNat_ofUsize {n : ℕ} (h : n < 2 ^ 64) : (ofUsize n).toNat = n :=
  UInt64.toNat_ofNat_of_lt' h

def checkedAdd (a b : UInt64) : Option UInt64 :=
  if a.toNat + b.toNat < 2 ^ 64 then some (a + b) else none

def checkedSub (a b : UInt64) : Option UInt64 :=
  if b.toNat ≤ a.toNat then some (a - b) else none

def saturatingSub (a b : UInt64) : UInt64 :=
  if b.toNat ≤ a.toNat then a - b else 0

/-- `a + b`; `none` is the overflow panic. -/
def add [Target] (a b : UInt64) : Option UInt64 :=
  if a.toNat + b.toNat < 2 ^ 64 then some (a + b)
  else if overflowChecks then none
  else some (a + b)

/-- `a - b`; `none` is the overflow panic. -/
def sub [Target] (a b : UInt64) : Option UInt64 :=
  if b.toNat ≤ a.toNat then some (a - b)
  else if overflowChecks then none
  else some (a - b)

theorem toNat_add_of_lt {a b : UInt64} (h : a.toNat + b.toNat < 2 ^ 64) :
    (a + b).toNat = a.toNat + b.toNat := by
  rw [UInt64.toNat_add, Nat.mod_eq_of_lt h]

theorem toNat_sub_of_le {a b : UInt64} (h : b.toNat ≤ a.toNat) :
    (a - b).toNat = a.toNat - b.toNat :=
  UInt64.toNat_sub_of_le a b (UInt64.le_iff_toNat_le.mpr h)

theorem toNat_sub_ofUsize {a : UInt64} {n : ℕ} (h : n ≤ a.toNat) :
    (a - ofUsize n).toNat = a.toNat - n := by
  have hn : (ofUsize n).toNat = n := toNat_ofUsize (lt_of_le_of_lt h a.toNat_lt)
  rw [toNat_sub_of_le (by rw [hn]; exact h), hn]

@[simp] theorem toNat_min (a b : UInt64) : (min a b).toNat = min a.toNat b.toNat := by
  have e : min a b = if a ≤ b then a else b := rfl
  rw [e]
  by_cases h : a ≤ b
  · rw [if_pos h, Nat.min_eq_left (UInt64.le_iff_toNat_le.mp h)]
  · rw [if_neg h, Nat.min_eq_right (le_of_not_ge fun hle => h (UInt64.le_iff_toNat_le.mpr hle))]

@[simp] theorem toNat_saturatingSub (a b : UInt64) :
    (saturatingSub a b).toNat = a.toNat - b.toNat := by
  unfold saturatingSub
  split
  · exact toNat_sub_of_le ‹_›
  · simp; omega

theorem add_of_lt [Target] {a b : UInt64} (h : a.toNat + b.toNat < 2 ^ 64) :
    add a b = some (a + b) := if_pos h

theorem sub_of_le [Target] {a b : UInt64} (h : b.toNat ≤ a.toNat) :
    sub a b = some (a - b) := if_pos h

end U64

/-! ### Slices -/

/-- `dst.copy_from_slice(src)`: it panics when the lengths differ. -/
def copyFromSlice (dst src : List UInt8) : Option {l : List UInt8 // l.length = dst.length} :=
  if h : src.length = dst.length then some ⟨src, h⟩ else none

theorem copyFromSlice_of_length_eq {dst src : List UInt8} (h : src.length = dst.length) :
    copyFromSlice dst src = some ⟨src, h⟩ := dif_pos h

theorem copyFromSlice_of_length_ne {dst src : List UInt8} (h : src.length ≠ dst.length) :
    copyFromSlice dst src = none := dif_neg h

/-- `split_at` and `split_at_mut`: they panic past the end. -/
def splitAt (l : List UInt8) (mid : ℕ) : Option (List UInt8 × List UInt8) :=
  if mid ≤ l.length then some (l.take mid, l.drop mid) else none

theorem splitAt_of_le {l : List UInt8} {mid : ℕ} (h : mid ≤ l.length) :
    splitAt l mid = some (l.take mid, l.drop mid) := if_pos h

/-- What is left of the front part, and the back part, is what is left of the whole. -/
theorem drop_take_append_drop {l : List UInt8} {n k : ℕ} (h : n ≤ (l.take k).length) :
    (l.take k).drop n ++ l.drop k = l.drop n := by
  rw [← List.drop_append_of_le_length h, List.take_append_drop]

section

variable [Target]

/-- `&[u8]`. -/
@[ext] structure Slice where
  bytes : List UInt8
  length_le : bytes.length ≤ isizeMax
  deriving DecidableEq

namespace Slice

def drop (self : Slice) (n : ℕ) : Slice :=
  ⟨self.bytes.drop n, by rw [List.length_drop]; exact le_trans (Nat.sub_le _ _) self.length_le⟩

def take (self : Slice) (n : ℕ) : Slice :=
  ⟨self.bytes.take n, by rw [List.length_take]; exact le_trans (Nat.min_le_right _ _) self.length_le⟩

def empty : Slice := ⟨[], Nat.zero_le _⟩

@[simp] theorem drop_bytes (self : Slice) (n : ℕ) : (self.drop n).bytes = self.bytes.drop n := rfl
@[simp] theorem take_bytes (self : Slice) (n : ℕ) : (self.take n).bytes = self.bytes.take n := rfl

/-- `&self[n..]`; `none` is the panic of an index out of range. -/
def indexFrom (self : Slice) (n : ℕ) : Option Slice :=
  if n ≤ self.bytes.length then some (self.drop n) else none

/-- `&self[..n]`. -/
def indexTo (self : Slice) (n : ℕ) : Option Slice :=
  if n ≤ self.bytes.length then some (self.take n) else none

theorem indexFrom_of_le {self : Slice} {n : ℕ} (h : n ≤ self.bytes.length) :
    self.indexFrom n = some (self.drop n) := if_pos h

theorem indexTo_of_le {self : Slice} {n : ℕ} (h : n ≤ self.bytes.length) :
    self.indexTo n = some (self.take n) := if_pos h

end Slice

/-- `&mut [u8]`, with the bytes that it has been narrowed by. -/
@[ext] structure SliceMut where
  past : List UInt8
  rest : List UInt8
  length_le : past.length + rest.length ≤ isizeMax
  deriving DecidableEq

/-- The bytes of the slice that the value was narrowed from. -/
def SliceMut.memory (self : SliceMut) : List UInt8 := self.past ++ self.rest

/-- The whole of a slice. -/
def SliceMut.whole (bytes : List UInt8) (h : bytes.length ≤ isizeMax) : SliceMut :=
  ⟨[], bytes, by simpa using h⟩

/-! ### Vectors -/

/-- The growth strategy of the allocator: the capacity that a vector of length `len`
and capacity `capacity` gets for `additional` more bytes, if it gets one. -/
class Alloc where
  grow : (len capacity additional : ℕ) →
    Option {c : ℕ // len + additional ≤ c ∧ c ≤ isizeMax}

/-- `Vec<u8>`. -/
structure Vec where
  bytes : List UInt8
  capacity : ℕ
  length_le : bytes.length ≤ capacity
  capacity_le : capacity ≤ isizeMax
  deriving DecidableEq

namespace Vec

/-- `Vec::new()`. -/
def new : Vec := ⟨[], 0, le_refl _, Nat.zero_le _⟩

def len (self : Vec) : ℕ := self.bytes.length

theorem len_le_isizeMax (self : Vec) : self.bytes.length ≤ isizeMax :=
  le_trans self.length_le self.capacity_le

/-- `truncate`. -/
def truncate (self : Vec) (len : ℕ) : Vec :=
  ⟨self.bytes.take len, self.capacity,
    le_trans (by rw [List.length_take]; exact Nat.min_le_right _ _) self.length_le, self.capacity_le⟩

@[simp] theorem truncate_bytes (self : Vec) (len : ℕ) :
    (self.truncate len).bytes = self.bytes.take len := rfl

/-- The vector after the slice `[at..]` of it has been written to. -/
def withTail (self : Vec) (start : ℕ) (tail : List UInt8)
    (h : tail.length = (self.bytes.drop start).length) : Vec :=
  ⟨self.bytes.take start ++ tail, self.capacity, by
    rw [List.length_append, h, ← List.length_append, List.take_append_drop]
    exact self.length_le, self.capacity_le⟩

@[simp] theorem withTail_bytes (self : Vec) (start : ℕ) (tail : List UInt8)
    (h : tail.length = (self.bytes.drop start).length) :
    (self.withTail start tail h).bytes = self.bytes.take start ++ tail := rfl

variable [Alloc]

/-- The vector has no room for `additional` bytes, and the allocator refuses to grow it. -/
def Refused (self : Vec) (additional : ℕ) : Prop :=
  self.capacity < self.bytes.length + additional ∧
    Alloc.grow self.bytes.length self.capacity additional = none

/-- Where there is room nothing is asked for. -/
theorem not_refused_of_le {self : Vec} {additional : ℕ}
    (h : self.bytes.length + additional ≤ self.capacity) : ¬ self.Refused additional :=
  fun href => absurd href.1 (Nat.not_lt_of_le h)

/-- **No allocator grants more than `isize::MAX` bytes.** -/
theorem refused_of_lt {self : Vec} {additional : ℕ}
    (h : isizeMax < self.bytes.length + additional) : self.Refused additional := by
  refine ⟨lt_of_le_of_lt self.capacity_le h, ?_⟩
  cases hgrow : Alloc.grow self.bytes.length self.capacity additional with
  | none => rfl
  | some c => exact absurd (le_trans c.2.1 c.2.2) (Nat.not_le_of_lt h)

/-- `reserve`; `none` is a refused request: it panics if it is for more than `isize::MAX` bytes,
and else the allocation error aborts. -/
def reserve (self : Vec) (additional : ℕ) : Option Vec :=
  if additional ≤ self.capacity - self.bytes.length then some self
  else
    match Alloc.grow self.bytes.length self.capacity additional with
    | none => none
    | some c => some ⟨self.bytes, c, le_trans (Nat.le_add_right _ _) c.2.1, c.2.2⟩

theorem reserve_spec {self v : Vec} {additional : ℕ} (h : self.reserve additional = some v) :
    v.bytes = self.bytes ∧ self.bytes.length + additional ≤ v.capacity := by
  have hle := self.length_le
  unfold reserve at h
  split at h
  · rw [Option.some.injEq] at h
    subst h
    exact ⟨rfl, by omega⟩
  · split at h
    · cases h
    · rename_i c _
      rw [Option.some.injEq] at h
      subst h
      exact ⟨rfl, c.2.1⟩

theorem reserve_eq_none_iff {self : Vec} {additional : ℕ} :
    self.reserve additional = none ↔ self.Refused additional := by
  have hle := self.length_le
  unfold reserve
  split
  · rename_i hroom
    exact iff_of_false (Option.some_ne_none _) (not_refused_of_le (by omega))
  · rename_i hroom
    cases hgrow : Alloc.grow self.bytes.length self.capacity additional with
    | none => exact iff_of_true rfl ⟨by omega, hgrow⟩
    | some c =>
      refine iff_of_false (Option.some_ne_none _) fun href => ?_
      exact Option.some_ne_none _ (hgrow.symm.trans href.2)

/-- `extend_from_slice`. -/
def extendFromSlice (self : Vec) (other : List UInt8) : Option Vec :=
  match h : self.reserve other.length with
  | none => none
  | some v => some ⟨v.bytes ++ other, v.capacity, by
      obtain ⟨hb, hc⟩ := reserve_spec h
      rw [List.length_append, hb]
      exact hc, v.capacity_le⟩

theorem extendFromSlice_spec {self v : Vec} {other : List UInt8}
    (h : self.extendFromSlice other = some v) : v.bytes = self.bytes ++ other := by
  unfold extendFromSlice at h
  split at h
  · cases h
  · rename_i w hw
    rw [Option.some.injEq] at h
    subst h
    exact congrArg (· ++ other) (reserve_spec hw).1

/-- **A vector is not extended only where the allocator refuses to grow it.** -/
theorem extendFromSlice_eq_none_iff {self : Vec} {other : List UInt8} :
    self.extendFromSlice other = none ↔ self.Refused other.length := by
  rw [← reserve_eq_none_iff]
  unfold extendFromSlice
  split
  · exact iff_of_true rfl ‹_›
  · rename_i v hv
    exact iff_of_false (Option.some_ne_none _) fun h => Option.some_ne_none _ (hv.symm.trans h)

/-- `resize`. -/
def resize (self : Vec) (newLen : ℕ) (value : UInt8) : Option Vec :=
  if self.bytes.length < newLen then
    self.extendFromSlice (List.replicate (newLen - self.bytes.length) value)
  else some (self.truncate newLen)

theorem resize_spec {self v : Vec} {newLen : ℕ} {value : UInt8} (hle : self.bytes.length ≤ newLen)
    (h : self.resize newLen value = some v) :
    v.bytes = self.bytes ++ List.replicate (newLen - self.bytes.length) value := by
  unfold resize at h
  split at h
  · exact extendFromSlice_spec h
  · rw [Option.some.injEq] at h
    subst h
    obtain rfl : newLen = self.bytes.length := by omega
    simp

theorem resize_eq_none_iff {self : Vec} {newLen : ℕ} {value : UInt8} :
    self.resize newLen value = none ↔ self.Refused (newLen - self.bytes.length) := by
  have hle := self.length_le
  unfold resize
  split
  · rw [extendFromSlice_eq_none_iff, List.length_replicate]
  · exact iff_of_false (Option.some_ne_none _) (not_refused_of_le (by omega))

/-- What the capacity holds leaves it as it is. -/
theorem resize_capacity {self v : Vec} {newLen : ℕ} {value : UInt8} (hle : newLen ≤ self.capacity)
    (h : self.resize newLen value = some v) : v.capacity = self.capacity := by
  unfold resize at h
  split at h
  · unfold extendFromSlice at h
    split at h
    · cases h
    · rename_i w hw
      rw [reserve, if_pos (by rw [List.length_replicate]; omega), Option.some.injEq] at hw
      rw [Option.some.injEq] at h
      subst h hw
      rfl
  · rw [Option.some.injEq] at h
    subst h
    rfl

/-- Filling a vector up to its capacity asks for nothing. -/
theorem resize_capacity_ne_none (self : Vec) (value : UInt8) :
    self.resize self.capacity value ≠ none := by
  have hle := self.length_le
  rw [Ne, resize_eq_none_iff]
  exact not_refused_of_le (by omega)

end Vec

/-- The allocator refuses a vector that has no room for `limit` bytes. -/
def RefusesWithin [Alloc] (limit : ℕ) : Prop :=
  ∃ (v : Vec) (additional : ℕ), v.bytes.length + additional ≤ limit ∧ v.Refused additional

theorem RefusesWithin.mono [Alloc] {limit limit' : ℕ} (h : RefusesWithin limit)
    (hle : limit ≤ limit') : RefusesWithin limit' := by
  obtain ⟨v, additional, hlen, href⟩ := h
  exact ⟨v, additional, le_trans hlen hle, href⟩

end

/-! ### Borrowing as bytes -/

/-- `T: AsRef<[u8]>`, with an `as_ref` that gives the same bytes each time. -/
class AsRef [Target] (T : Type) where
  asRef : T → Slice

export AsRef (asRef)

section

variable [Target]

instance : AsRef Slice where
  asRef t := t

instance : AsRef SliceMut where
  asRef t := ⟨t.rest, le_trans (Nat.le_add_left _ _) t.length_le⟩

instance : AsRef Vec where
  asRef t := ⟨t.bytes, t.len_le_isizeMax⟩

@[simp] theorem asRef_sliceMut (t : SliceMut) : (asRef t).bytes = t.rest := rfl

end

/-! ### Machines to run examples on -/

/-- An allocator that grants exactly what is asked for. -/
abbrev Alloc.exact [Target] : Alloc where
  grow len _ additional :=
    if h : len + additional ≤ isizeMax then some ⟨len + additional, le_refl _, h⟩ else none

theorem not_refusesWithin_exact [Target] {limit : ℕ} (h : limit ≤ isizeMax) :
    ¬ @RefusesWithin _ .exact limit := by
  intro h'
  obtain ⟨v, additional, hlen, -, hgrow⟩ := h'
  have hroom : v.bytes.length + additional ≤ isizeMax := le_trans hlen h
  exact Option.some_ne_none _ ((dif_pos hroom).symm.trans hgrow)

namespace Machine64

scoped instance target : Target := ⟨64, by decide, true⟩

scoped instance alloc : Alloc := .exact

end Machine64

namespace Machine32

scoped instance target : Target := ⟨32, by decide, true⟩

scoped instance alloc : Alloc := .exact

end Machine32

end NotIo
