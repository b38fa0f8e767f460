import NotIo.Lib.File
import NotIo.Core.ImplsAlways

/-!
# Cursors as files

`Cursor.file` is the file that a cursor stands for, whatever its bytes are held in.

* `Cursor.read_file`, `Cursor.readExact_file`, `Cursor.consume_file`: reading.
* `Cursor.seek_file`: the offset is added in exact integers, whatever its sign, and a
  target that is not a `u64` is refused.
-/

namespace NotIo

/-! ### Signed offsets -/

theorem toNat_toUInt64_of_nonneg {offset : Int64} (h : 0 ≤ offset) :
    (offset.toUInt64.toNat : ℤ) = offset.toInt := by
  have hnonneg : 0 ≤ offset.toInt := by simpa using Int64.le_iff_toInt_le.mp h
  rw [Int64.toNat_toUInt64_of_le h, ← Int64.toNat_toInt]
  omega

/-- `offset.wrapping_neg() as u64` is the absolute value, also of `i64::MIN`. -/
theorem toNat_neg_toUInt64_of_neg {offset : Int64} (h : ¬ 0 ≤ offset) :
    ((-offset).toUInt64.toNat : ℤ) = -offset.toInt := by
  have hneg : offset.toInt < 0 := by
    have := fun hle => h (Int64.le_iff_toInt_le.mpr hle)
    simpa using this
  have he : offset.toInt = offset.toBitVec.toInt := rfl
  have hu : offset.toUInt64.toNat = offset.toBitVec.toNat := rfl
  have hc := BitVec.toInt_eq_toNat_cond offset.toBitVec
  have hlt := offset.toBitVec.isLt
  rw [Int64.toUInt64_neg, UInt64.toNat_neg, show UInt64.size = 2 ^ 64 from rfl, hu, he]
  rw [he] at hneg
  split at hc <;> omega

variable [Target] {E T : Type}

/-! ### Reading from a slice -/

theorem readExactBody_nil [ErrorImpl E] (s : Slice) (filled : List UInt8) :
    readExactBody (E := E) (s, filled, []) = .done (s, filled, .ok ()) := by
  simp [readExactBody]

/-- A slice with something to give gives as much as it can. -/
theorem readExactBody_slice [ErrorImpl E] {s : Slice} {buf : List UInt8} (hb : buf ≠ [])
    (hs : s.bytes ≠ []) (filled : List UInt8) :
    readExactBody (E := E) (s, filled, buf) = .next (s.drop (min s.bytes.length buf.length),
      filled ++ s.bytes.take (min s.bytes.length buf.length),
      buf.drop (min s.bytes.length buf.length)) := by
  have hpos : 0 < min s.bytes.length buf.length := by
    have := List.length_pos_of_ne_nil hb
    have := List.length_pos_of_ne_nil hs
    omega
  obtain ⟨k, hk⟩ := Nat.exists_eq_succ_of_ne_zero (Nat.ne_of_gt hpos)
  have htake : (s.bytes.take (k + 1)).length = k + 1 := by
    rw [List.length_take]
    omega
  have hle : k + 1 ≤ (s.bytes.take (k + 1) ++ buf.drop (k + 1)).length := by
    rw [List.length_append]
    omega
  simp only [readExactBody, List.isEmpty_iff, if_neg hb, Slice.read_def, Slice.read_eq, hk]
  rw [if_pos hle, List.take_left' htake, List.drop_left' htake]

/-- A slice with nothing to give is at its end. -/
theorem readExactBody_slice_end [ErrorImpl E] {s : Slice} {buf : List UInt8} (hb : buf ≠ [])
    (hs : s.bytes = []) (filled : List UInt8) :
    readExactBody (E := E) (s, filled, buf) =
      .done (s, filled ++ buf, .err (Error.ofErrorKind .unexpectedEof)) := by
  simp [readExactBody, hb, Slice.read_def, Slice.read_eq, hs, Slice.ext_iff]

/-- `read_exact` takes what is asked for from a slice, or all there is. -/
theorem readExact_slice [ErrorImpl E] (s : Slice) (buf : List UInt8) :
    Loop.Returns (fun n => readExact (E := E) n s buf)
      (if buf.length ≤ s.bytes.length then (s.drop buf.length, s.bytes.take buf.length, .ok ())
        else (s.drop s.bytes.length, s.bytes ++ buf.drop s.bytes.length,
          .err (Error.ofErrorKind .unexpectedEof))) := by
  rw [show (fun n => readExact (E := E) n s buf) = fun n => Loop.loop readExactBody n (s, [], buf)
    from rfl, Loop.returns_loop]
  by_cases hb : buf = []
  · subst hb
    refine .done ?_
    rw [readExactBody_nil]
    simp [Slice.ext_iff]
  · by_cases hle : buf.length ≤ s.bytes.length
    · have hs : s.bytes ≠ [] := by
        intro hs
        rw [hs] at hle
        exact hb (List.eq_nil_of_length_eq_zero (Nat.le_zero.mp hle))
      rw [if_pos hle]
      refine .next (readExactBody_slice hb hs []) (.done ?_)
      rw [Nat.min_eq_right hle, List.drop_length, readExactBody_nil, List.nil_append]
    · rw [if_neg hle]
      have hmin : min s.bytes.length buf.length = s.bytes.length := by omega
      have hrest : buf.drop s.bytes.length ≠ [] := by
        intro he
        rw [List.drop_eq_nil_iff] at he
        omega
      by_cases hs : s.bytes = []
      · refine .done ?_
        rw [readExactBody_slice_end hb hs, hs]
        simp [Slice.ext_iff, hs]
      · refine .next (readExactBody_slice hb hs []) (.done ?_)
        rw [hmin, List.take_length, List.nil_append]
        exact readExactBody_slice_end hrest (by simp) _

namespace Cursor

variable [AsRef T]

/-- The file that a cursor stands for. -/
def file (self : Cursor T) : File UInt8 := ⟨(asRef self.inner).bytes, self.pos.toNat⟩

theorem remaining_bytes (self : Cursor T) : self.remaining.bytes = self.file.rest := by
  rcases le_total self.pos.toNat (asRef self.inner).bytes.length with h | h
  · simp only [remaining, start, Slice.drop_bytes, Nat.min_eq_left h, file, File.rest]
  · simp only [remaining, start, Slice.drop_bytes, Nat.min_eq_right h, file, File.rest]
    rw [List.drop_length, List.drop_of_length_le h]

theorem consume_file {self : Cursor T} {amt : ℕ} (h : amt ≤ self.file.room) :
    ∃ c, self.consume amt = some c ∧ c.file = self.file.advance amt := by
  have hlen := lt_u64_of_le_isizeMax (asRef self.inner).length_le
  have hpos := self.pos.toNat_lt
  rw [← File.rest_length, ← remaining_bytes] at h
  have hsum : self.pos.toNat + (U64.ofUsize amt).toNat < 2 ^ 64 := by
    rw [remaining_length] at h
    rw [U64.toNat_ofUsize (by omega)]
    omega
  refine ⟨_, consume_of_le h, ?_⟩
  rw [remaining_length] at h
  simp only [file, File.advance, U64.toNat_add_of_lt hsum, U64.toNat_ofUsize (show amt < 2 ^ 64 by omega)]

theorem read_file (self : Cursor T) (buf : List UInt8) :
    ∃ c, self.read (E := E) buf = (c, self.file.rest.take buf.length ++ buf.drop self.file.room,
        .ok (min self.file.room buf.length)) ∧
      c.file = self.file.advance (min self.file.room buf.length) := by
  have hle : min self.file.room buf.length ≤ self.file.room := Nat.min_le_left _ _
  obtain ⟨c, hc, hf⟩ := consume_file hle
  refine ⟨c, ?_, hf⟩
  have hlen : self.remaining.bytes.length = self.file.room := by
    rw [remaining_bytes, File.rest_length]
  rw [← hlen] at hc ⊢
  rw [consume_of_le (Nat.min_le_left _ _), Option.some.injEq] at hc
  rw [read_eq, hc, remaining_bytes]

/-- The cursor's own `read_exact` moves on only when it succeeds. -/
theorem readExact_file [ErrorImpl E] (self : Cursor T) (buf : List UInt8) :
    ∃ c, Loop.Returns (fun n => self.readExact (E := E) n buf)
        (if buf.length ≤ self.file.room then (c, self.file.rest.take buf.length, .ok ())
          else (c, self.file.rest ++ buf.drop self.file.room,
            .err (Error.ofErrorKind .unexpectedEof))) ∧
      c.file = if buf.length ≤ self.file.room then self.file.advance buf.length else self.file := by
  have hlen : self.remaining.bytes.length = self.file.room := by
    rw [remaining_bytes, File.rest_length]
  obtain ⟨n, hn⟩ := readExact_slice (E := E) self.remaining buf
  rw [hlen, remaining_bytes] at hn
  by_cases h : buf.length ≤ self.file.room
  · obtain ⟨c, hc, hf⟩ := consume_file h
    refine ⟨c, ⟨n, ?_⟩, by rw [if_pos h]; exact hf⟩
    rw [if_pos h] at hn ⊢
    have htake : (self.file.rest.take buf.length).length = buf.length := by
      rw [List.length_take, File.rest_length]
      omega
    simp only [readExact, fillBuf_eq, hn, htake, hc]
  · refine ⟨self, ⟨n, ?_⟩, by rw [if_neg h]⟩
    rw [if_neg h] at hn ⊢
    simp only [readExact, fillBuf_eq, hn]

/-! ### Seeking -/

/-- Where a seek is to go to. -/
def seekTarget (f : File UInt8) : SeekFrom → ℤ
  | .fromStart n => n.toNat
  | .fromEnd n => f.contents.length + n.toInt
  | .fromCurrent n => f.position + n.toInt

theorem seek_go_file [ErrorImpl E] (self : Cursor T) (basePos : UInt64) (offset : Int64) :
    ∃ c, seek.go (E := E) self basePos offset = (c,
        match self.file.seekTo (2 ^ 64) (basePos.toNat + offset.toInt) with
        | some f => .ok (UInt64.ofNat f.position)
        | none => .err (Error.ofErrorKind .invalidInput)) ∧
      c.file = (self.file.seekTo (2 ^ 64) (basePos.toNat + offset.toInt)).getD self.file := by
  have hbase := basePos.toNat_lt
  by_cases hoff : 0 ≤ offset
  · have habs := toNat_toUInt64_of_nonneg hoff
    by_cases hlt : basePos.toNat + offset.toUInt64.toNat < 2 ^ 64
    · have hto : (basePos + offset.toUInt64).toNat = basePos.toNat + offset.toUInt64.toNat :=
        U64.toNat_add_of_lt hlt
      have hseek := self.file.seekTo_some (n := (basePos + offset.toUInt64).toNat)
        (z := basePos.toNat + offset.toInt) (by omega) (UInt64.toNat_lt _)
      refine ⟨{ self with pos := basePos + offset.toUInt64 }, ?_, ?_⟩
      · simp only [seek.go, if_pos hoff, U64.checkedAdd, if_pos hlt, hseek, UInt64.ofNat_toNat]
      · rw [hseek]
        rfl
    · have hseek := self.file.seekTo_none (2 ^ 64) (z := basePos.toNat + offset.toInt)
        (by omega)
      refine ⟨self, ?_, ?_⟩
      · simp only [seek.go, if_pos hoff, U64.checkedAdd, if_neg hlt, hseek]
      · rw [hseek]
        rfl
  · have habs := toNat_neg_toUInt64_of_neg hoff
    by_cases hle : (-offset).toUInt64.toNat ≤ basePos.toNat
    · have hto : (basePos - (-offset).toUInt64).toNat = basePos.toNat - (-offset).toUInt64.toNat :=
        U64.toNat_sub_of_le hle
      have hseek := self.file.seekTo_some (n := (basePos - (-offset).toUInt64).toNat)
        (z := basePos.toNat + offset.toInt) (by omega) (UInt64.toNat_lt _)
      refine ⟨{ self with pos := basePos - (-offset).toUInt64 }, ?_, ?_⟩
      · simp only [seek.go, if_neg hoff, U64.checkedSub, if_pos hle, hseek, UInt64.ofNat_toNat]
      · rw [hseek]
        rfl
    · have hseek := self.file.seekTo_none (2 ^ 64) (z := basePos.toNat + offset.toInt)
        (by omega)
      refine ⟨self, ?_, ?_⟩
      · simp only [seek.go, if_neg hoff, U64.checkedSub, if_neg hle, hseek]
      · rw [hseek]
        rfl

/-- **A seek goes to its target**, in exact integers, or it is refused and moves nothing. -/
theorem seek_file [ErrorImpl E] (self : Cursor T) (pos : SeekFrom) :
    ∃ c, self.seek (E := E) pos = (c,
        match self.file.seekTo (2 ^ 64) (seekTarget self.file pos) with
        | some f => .ok (UInt64.ofNat f.position)
        | none => .err (Error.ofErrorKind .invalidInput)) ∧
      c.file = (self.file.seekTo (2 ^ 64) (seekTarget self.file pos)).getD self.file := by
  cases pos with
  | fromStart n =>
    have hseek := self.file.seekTo_some (z := seekTarget self.file (.fromStart n)) rfl n.toNat_lt
    refine ⟨{ self with pos := n }, ?_, ?_⟩
    · simp only [seek, hseek, UInt64.ofNat_toNat]
    · rw [hseek]
      rfl
  | fromEnd n =>
    have hlen := lt_u64_of_le_isizeMax (asRef self.inner).length_le
    have h := seek_go_file (E := E) self (U64.ofUsize (asRef self.inner).bytes.length) n
    rw [U64.toNat_ofUsize hlen] at h
    exact h
  | fromCurrent n => exact seek_go_file self self.pos n

end Cursor

end NotIo
