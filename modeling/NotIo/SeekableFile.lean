import NotIo.Cursors
import NotIo.Core.ImplsAlloc

/-!
# Cursors over vectors are seekable files

`fileStep` is the file that `Cursor<Vec<u8>>` and `Cursor<&mut Vec<u8>>` are meant to be:
contents and a position, which may lie past the end.  A write fills up the gap with zeros,
a seek is made in exact integers.  Two things a file of bytes would do and the cursors do
not: a position that is not a `usize` is refused by a write, and a write that the allocator
will not grow the vector for panics or aborts (`Vec.WriteRefused`).

* `Vec.not_writeRefused_of_le`, `Vec.writeRefused_of_lt`: it grants what the capacity holds
  already, and nothing beyond `isize::MAX`.
* `vecWrite_file`: `vec_write` is a write to the file.
* `cursor_refines_file`: whole runs.
-/

namespace NotIo

/-! ### The file -/

/-- The calls to a cursor. -/
inductive FileOp where
  | write (buf : List UInt8)
  | writeAll (buf : List UInt8)
  | read (buf : List UInt8)
  | readExact (buf : List UInt8)
  | fillBuf
  | consume (amt : ℕ)
  | seek (pos : SeekFrom)
  | streamPosition
  | setPosition (pos : UInt64)

/-- What a call gives: the bytes that it fills or shows, and its result. -/
structure Answer (E : Type) where
  bytes : List UInt8
  result : Outcome E ℕ

/-- No more is consumed than `fill_buf` shows. -/
def FileOp.Legal (f : File UInt8) : FileOp → Prop
  | .consume amt => amt ≤ f.room
  | _ => True

/-- The calls that write. -/
def FileOp.Writes : FileOp → Prop
  | .write _ => True
  | .writeAll _ => True
  | _ => False

section

variable [Target] {E : Type} [ErrorImpl E]

def fileWrite (f : File UInt8) (buf : List UInt8) : File UInt8 × Outcome E ℕ :=
  if f.position < 2 ^ usizeBits then (f.write 0 buf, .ok buf.length)
  else (f, .err (Error.ofErrorKind .invalidInput))

def fileSeek (f : File UInt8) (target : ℤ) : File UInt8 × Answer E :=
  match f.seekTo (2 ^ 64) target with
  | some f => (f, ⟨[], .ok f.position⟩)
  | none => (f, ⟨[], .err (Error.ofErrorKind .invalidInput)⟩)

/-- What each call does to the file. -/
def fileStep (f : File UInt8) : FileOp → File UInt8 × Answer E
  | .write buf => ((fileWrite (E := E) f buf).1, ⟨[], (fileWrite f buf).2⟩)
  | .writeAll [] => (f, ⟨[], .ok 0⟩)
  | .writeAll buf => ((fileWrite (E := E) f buf).1, ⟨[], (fileWrite f buf).2.map fun _ => 0⟩)
  | .read buf =>
    (f.advance (min f.room buf.length),
      ⟨f.rest.take buf.length ++ buf.drop f.room, .ok (min f.room buf.length)⟩)
  | .readExact buf =>
    if buf.length ≤ f.room then (f.advance buf.length, ⟨f.rest.take buf.length, .ok 0⟩)
    else (f, ⟨f.rest ++ buf.drop f.room, .err (Error.ofErrorKind .unexpectedEof)⟩)
  | .fillBuf => (f, ⟨f.rest, .ok f.room⟩)
  | .consume amt => (f.advance amt, ⟨[], .ok 0⟩)
  | .seek pos => fileSeek f (Cursor.seekTarget f pos)
  | .streamPosition => (f, ⟨[], .ok f.position⟩)
  | .setPosition pos => (⟨f.contents, pos.toNat⟩, ⟨[], .ok 0⟩)

/-- A run of calls, with their answers. -/
def fileRun (f : File UInt8) : List FileOp → List (Answer E) × File UInt8
  | [] => ([], f)
  | op :: ops =>
    let step := fileStep f op
    let run := fileRun step.1 ops
    (step.2 :: run.1, run.2)

/-- The vector is refused the room for a write of `buf` at `pos`: for the zeros in front of `pos`,
or, when it has these, for what goes past its end. -/
def Vec.WriteRefused [Alloc] (vec : Vec) (pos : ℕ) (buf : List UInt8) : Prop :=
  pos < 2 ^ usizeBits ∧ (vec.Refused (pos - vec.bytes.length) ∨
    ∃ v, vec.resize (max vec.bytes.length pos) 0 = some v ∧
      v.Refused (pos + buf.length - v.bytes.length))

/-- The call is a write that the vector is refused the room for; `write_all` of nothing is no
write. -/
def FileOp.Refused [Alloc] (vec : Vec) (pos : ℕ) : FileOp → Prop
  | .write buf => vec.WriteRefused pos buf
  | .writeAll buf => buf ≠ [] ∧ vec.WriteRefused pos buf
  | _ => False

/-! ### The cursor -/

variable {T : Type} [AsRef T] [Write E (Cursor T)]

/-- What each call does to a cursor. -/
def CursorStep (c : Cursor T) : FileOp → Cursor T → Answer E → Prop
  | .write buf, c', a => a.bytes = [] ∧ Write.write c buf = (c', a.result)
  | .writeAll buf, c', a => a.bytes = [] ∧
    ∃ o, Loop.Returns (fun n => writeAll (E := E) n c buf) (c', o) ∧ a.result = o.map fun _ => 0
  | .read buf, c', a => Read.read c buf = (c', a.bytes, a.result)
  | .readExact buf, c', a =>
    ∃ o, Loop.Returns (fun n => c.readExact (E := E) n buf) (c', a.bytes, o) ∧
      a.result = o.map fun _ => 0
  | .fillBuf, c', a =>
    ∃ o, BufRead.fillBuf (E := E) c = (c', o) ∧
      a.bytes = (match o with | .ok s => s.bytes | _ => []) ∧ a.result = o.map fun s => s.bytes.length
  | .consume amt, c', a => a.bytes = [] ∧
    match BufRead.consume E c amt with
    | some c₁ => c' = c₁ ∧ a.result = .ok 0
    | none => c' = c ∧ a.result = .panic
  | .seek pos, c', a => a.bytes = [] ∧
    ∃ o, Seek.seek (E := E) c pos = (c', o) ∧ a.result = o.map UInt64.toNat
  | .streamPosition, c', a => a.bytes = [] ∧
    ∃ o, c.streamPosition (E := E) = (c', o) ∧ a.result = o.map UInt64.toNat
  | .setPosition pos, c', a => a.bytes = [] ∧ c' = c.setPosition pos ∧ a.result = .ok 0

/-- A run of calls in which none panics. -/
inductive CursorRun : Cursor T → List FileOp → List (Answer E) → Cursor T → Prop
  | nil (c : Cursor T) : CursorRun c [] [] c
  | cons {c c₁ c' : Cursor T} {op : FileOp} {ops : List FileOp} {a : Answer E}
      {answers : List (Answer E)} : op.Legal c.file → CursorStep c op c₁ a → a.result ≠ .panic →
      CursorRun c₁ ops answers c' → CursorRun c (op :: ops) (a :: answers) c'

end

/-! ### Writing -/

section

variable [Target] [Alloc] {E : Type} [ErrorImpl E]

/-- The zeros in front of a position make the vector as long as the position is. -/
theorem Vec.resize_gap {vec v : Vec} {pos : ℕ}
    (h : vec.resize (max vec.bytes.length pos) 0 = some v) :
    v.bytes = vec.bytes ++ List.replicate (pos - vec.bytes.length) 0 ∧
      v.bytes.length = max vec.bytes.length pos := by
  have hv := Vec.resize_spec (Nat.le_max_left _ _) h
  rw [show max vec.bytes.length pos - vec.bytes.length = pos - vec.bytes.length by omega] at hv
  refine ⟨hv, ?_⟩
  rw [hv, List.length_append, List.length_replicate]
  omega

theorem Vec.resize_gap_eq_none_iff {vec : Vec} {pos : ℕ} :
    vec.resize (max vec.bytes.length pos) 0 = none ↔ vec.Refused (pos - vec.bytes.length) := by
  rw [Vec.resize_eq_none_iff,
    show max vec.bytes.length pos - vec.bytes.length = pos - vec.bytes.length by omega]

/-- **What the capacity holds is not refused**, a write in place least of all. -/
theorem Vec.not_writeRefused_of_le {vec : Vec} {pos : ℕ} {buf : List UInt8}
    (h : max vec.bytes.length (pos + buf.length) ≤ vec.capacity) : ¬ vec.WriteRefused pos buf := by
  intro h'
  obtain ⟨-, hgap | ⟨v, hv, hend⟩⟩ := h'
  · exact Vec.not_refused_of_le (by omega) hgap
  · have hcapacity := Vec.resize_capacity (by omega) hv
    have hlen := (Vec.resize_gap hv).2
    exact Vec.not_refused_of_le (by omega) hend

/-- **Beyond `isize::MAX` every write is refused.** -/
theorem Vec.writeRefused_of_lt {vec : Vec} {pos : ℕ} {buf : List UInt8} (hpos : pos < 2 ^ usizeBits)
    (h : isizeMax < pos + buf.length) : vec.WriteRefused pos buf := by
  refine ⟨hpos, ?_⟩
  cases hv : vec.resize (max vec.bytes.length pos) 0 with
  | none => exact Or.inl (Vec.resize_gap_eq_none_iff.mp hv)
  | some v => exact Or.inr ⟨v, rfl, Vec.refused_of_lt (by omega)⟩

/-- No more is asked for than the file has after the write. -/
theorem Vec.WriteRefused.refusesWithin {vec : Vec} {pos : ℕ} {buf : List UInt8}
    (h : vec.WriteRefused pos buf) : RefusesWithin (max vec.bytes.length (pos + buf.length)) := by
  obtain ⟨-, hgap | ⟨v, hv, hend⟩⟩ := h
  · exact ⟨vec, _, by omega, hgap⟩
  · have hlen := (Vec.resize_gap hv).2
    exact ⟨v, _, by omega, hend⟩

omit [Alloc] in
/-- What is put in place within a vector. -/
theorem Vec.overwrite_of_le (v : Vec) (pos : ℕ) (src : List UInt8)
    (h : pos + src.length ≤ v.bytes.length) :
    ∃ v', v.overwrite pos src = some v' ∧ v'.capacity = v.capacity ∧
      v'.bytes = splice v.bytes pos src := by
  refine ⟨_, dif_pos h, rfl, ?_⟩
  rw [withTail_bytes, splice, List.append_assoc]

omit [Alloc] in
/-- What fits in front of the end is put in place, and what is left extends the vector: together
they are a `splice`. -/
theorem Vec.overwrite_take (v : Vec) {pos k : ℕ} {buf : List UInt8} (hpos : pos ≤ v.bytes.length)
    (hk : min buf.length (v.bytes.length - pos) = k) :
    ∃ v', v.overwrite pos (buf.take k) = some v' ∧ v'.capacity = v.capacity ∧
      v'.bytes.length = v.bytes.length ∧ v'.bytes ++ buf.drop k = splice v.bytes pos buf := by
  have htake : (buf.take k).length = k := by
    rw [List.length_take]
    omega
  obtain ⟨v', hover, hcapacity, hv'⟩ := v.overwrite_of_le pos (buf.take k) (by omega)
  refine ⟨v', hover, hcapacity, ?_, ?_⟩
  · rw [hv', splice_length (by omega)]
    omega
  · rw [hv', splice_append, List.take_append_drop]
    by_cases hfit : buf.length ≤ k
    · exact Or.inl (List.drop_eq_nil_of_le hfit)
    · exact Or.inr (by omega)

/-- **`vec_write` is a write to the file**, unless the vector is refused the room for it. -/
theorem vecWrite_file {posMut pos' : UInt64} {vec vec' : Vec} {buf : List UInt8} {o : Outcome E ℕ}
    (h : vecWrite posMut vec buf = (pos', vec', o)) :
    (o = .panic ∧ vec.WriteRefused posMut.toNat buf) ∨
    (o ≠ .panic ∧ ¬ vec.WriteRefused posMut.toNat buf ∧
      ((⟨vec'.bytes, pos'.toNat⟩ : File UInt8), o) = fileWrite ⟨vec.bytes, posMut.toNat⟩ buf) := by
  by_cases hpos : posMut.toNat < 2 ^ usizeBits
  · simp only [vecWrite, usizeTryFrom, if_pos hpos, Vec.len] at h
    rcases hresize : vec.resize (max vec.bytes.length posMut.toNat) 0 with _ | v₁
    · simp only [hresize, Prod.mk.injEq] at h
      exact Or.inl ⟨h.2.2.symm, hpos, Or.inl (Vec.resize_gap_eq_none_iff.mp hresize)⟩
    · obtain ⟨hv₁, hlen₁⟩ := Vec.resize_gap hresize
      have hsplit := splitAt_of_le (Nat.min_le_left buf.length
        (max vec.bytes.length posMut.toNat - posMut.toNat))
      rw [hresize] at h
      simp only [hsplit] at h
      generalize hk : min buf.length (max vec.bytes.length posMut.toNat - posMut.toNat) = k at h
      rw [← hlen₁] at hk
      obtain ⟨v₂, hover, hcapacity₂, hlen₂, hv₂⟩ := v₁.overwrite_take (by omega) hk
      rw [hover] at h
      -- what does not fit in place goes past the end
      have hask : (buf.drop k).length = posMut.toNat + buf.length - v₁.bytes.length := by
        rw [List.length_drop]
        omega
      have hrefused : v₂.extendFromSlice (buf.drop k) = none ↔
          v₁.Refused (posMut.toNat + buf.length - v₁.bytes.length) := by
        rw [Vec.extendFromSlice_eq_none_iff, hask, Vec.Refused, Vec.Refused, hcapacity₂, hlen₂]
      rcases hext : v₂.extendFromSlice (buf.drop k) with _ | v₃
      · simp only [hext, Prod.mk.injEq] at h
        exact Or.inl ⟨h.2.2.symm, hpos, Or.inr ⟨v₁, hresize, hrefused.mp hext⟩⟩
      · have hv₃ : v₃.bytes = splice v₁.bytes posMut.toNat buf :=
          (Vec.extendFromSlice_spec hext).trans hv₂
        -- the vector holds the end of what was written, so the position does not overflow
        have hend : posMut.toNat + buf.length < 2 ^ usizeBits := by
          have hle := lt_of_le_isizeMax v₃.len_le_isizeMax
          rw [hv₃, splice_length (by omega)] at hle
          omega
        have hend' := lt_of_lt_of_le hend usizeBits_le
        simp only [hext, usizeAdd, if_pos hend, Prod.mk.injEq] at h
        obtain ⟨rfl, rfl, rfl⟩ := h
        refine Or.inr ⟨Outcome.ok_ne_panic, ?_, ?_⟩
        · intro h'
          obtain ⟨-, hgap | ⟨v, hv, hend⟩⟩ := h'
          · rw [Vec.resize_gap_eq_none_iff.mpr hgap] at hresize
            cases hresize
          · obtain rfl := Option.some.inj (hresize.symm.trans hv)
            rw [hrefused.mpr hend] at hext
            cases hext
        · rw [fileWrite, if_pos hpos, U64.toNat_ofUsize hend', hv₃, hv₁]
          rfl
  · simp only [vecWrite, usizeTryFrom, if_neg hpos, Prod.mk.injEq] at h
    obtain ⟨rfl, rfl, rfl⟩ := h
    exact Or.inr ⟨Outcome.err_ne_panic, fun href => hpos href.1, (if_neg hpos).symm⟩

end

/-! ### The steps -/

section

variable [Target] [Alloc] {E T : Type} [ErrorImpl E] [AsRef T] [Write E (Cursor T)]

/-- A write to the cursor is a write to the file, unless the vector behind it is refused the room
for it. -/
structure GrowingFile (E : Type) {T : Type} [ErrorImpl E] [AsRef T] [Write E (Cursor T)]
    (vec : T → Vec) : Prop where
  contents : ∀ c : Cursor T, c.file.contents = (vec c.inner).bytes
  write : ∀ (c c' : Cursor T) (buf : List UInt8) (o : Outcome E ℕ), Write.write c buf = (c', o) →
    (o = .panic ∧ (vec c.inner).WriteRefused c.pos.toNat buf) ∨
    (o ≠ .panic ∧ ¬ (vec c.inner).WriteRefused c.pos.toNat buf ∧
      (c'.file, o) = fileWrite c.file buf)

theorem growingFile_vec : GrowingFile E (id : Vec → Vec) where
  contents _ := rfl
  write s c' buf o h := by
    obtain ⟨vec, pos⟩ := s
    rcases hw : vecWrite (E := E) pos vec buf with ⟨pos', vec', o'⟩
    simp only [Write.write, hw, Prod.mk.injEq] at h
    obtain ⟨rfl, rfl⟩ := h
    exact vecWrite_file hw

theorem growingFile_mutRef : GrowingFile E (MutRef.target : MutRef Vec → Vec) where
  contents _ := rfl
  write s c' buf o h := by
    obtain ⟨⟨vec⟩, pos⟩ := s
    rcases hw : vecWrite (E := E) pos vec buf with ⟨pos', vec', o'⟩
    simp only [Write.write, hw, Prod.mk.injEq] at h
    obtain ⟨rfl, rfl⟩ := h
    exact vecWrite_file hw

omit [Alloc] in
/-- A call that does not write is a call to the file. -/
theorem cursorStep_reads {c : Cursor T} {op : FileOp} (hop : ¬ op.Writes) (hlegal : op.Legal c.file) :
    ∃ c' a, CursorStep (E := E) c op c' a ∧ a.result ≠ .panic ∧ (c'.file, a) = fileStep c.file op := by
  cases op with
  | write buf => exact absurd trivial hop
  | writeAll buf => exact absurd trivial hop
  | read buf =>
    obtain ⟨c', hread, hf⟩ := c.read_file (E := E) buf
    refine ⟨c', ⟨_, _⟩, hread, Outcome.ok_ne_panic, ?_⟩
    rw [fileStep, hf]
  | readExact buf =>
    obtain ⟨c', hread, hf⟩ := c.readExact_file (E := E) buf
    by_cases h : buf.length ≤ c.file.room
    · rw [if_pos h] at hread hf
      refine ⟨c', ⟨_, .ok 0⟩, ⟨_, hread, rfl⟩, Outcome.ok_ne_panic, ?_⟩
      rw [fileStep, if_pos h, hf]
    · rw [if_neg h] at hread hf
      refine ⟨c', ⟨_, .err _⟩, ⟨_, hread, rfl⟩, Outcome.err_ne_panic, ?_⟩
      rw [fileStep, if_neg h, hf]
  | fillBuf =>
    refine ⟨c, ⟨c.file.rest, .ok c.file.room⟩, ⟨_, c.fillBuf_eq, ?_, ?_⟩, Outcome.ok_ne_panic, rfl⟩
    · exact c.remaining_bytes.symm
    · rw [Outcome.map, c.remaining_bytes, File.rest_length]
  | consume amt =>
    obtain ⟨c', hc, hf⟩ := Cursor.consume_file hlegal
    have hc' : BufRead.consume E c amt = some c' := hc
    refine ⟨c', ⟨[], .ok 0⟩, ⟨rfl, ?_⟩, Outcome.ok_ne_panic, ?_⟩
    · simp only [hc', and_self]
    · rw [fileStep, hf]
  | seek pos =>
    obtain ⟨c', hseek, hf⟩ := c.seek_file (E := E) pos
    cases hto : c.file.seekTo (2 ^ 64) (Cursor.seekTarget c.file pos) with
    | some f =>
      rw [hto] at hseek hf
      refine ⟨c', ⟨[], .ok f.position⟩, ⟨rfl, _, hseek, ?_⟩, Outcome.ok_ne_panic, ?_⟩
      · rw [Outcome.map, UInt64.toNat_ofNat_of_lt' (File.position_lt_of_seekTo hto)]
      · simp only [fileStep, fileSeek, hto, hf, Option.getD_some]
    | none =>
      rw [hto] at hseek hf
      refine ⟨c', ⟨[], .err _⟩, ⟨rfl, _, hseek, rfl⟩, Outcome.err_ne_panic, ?_⟩
      simp only [fileStep, fileSeek, hto, hf, Option.getD_none]
  | streamPosition =>
    exact ⟨c, ⟨[], .ok c.pos.toNat⟩, ⟨rfl, _, rfl, rfl⟩, Outcome.ok_ne_panic, rfl⟩
  | setPosition pos =>
    exact ⟨c.setPosition pos, ⟨[], .ok 0⟩, ⟨rfl, rfl, rfl⟩, Outcome.ok_ne_panic, rfl⟩

variable (hE : Error.isInterrupted (Error.ofErrorKind .invalidInput : E) = false)
  {vec : T → Vec} (hT : GrowingFile E vec)

include hE hT

/-- How a call to the cursor ends, with the answer `a`: it panics if the vector is refused the room
for it, and is a call to the file if not. -/
def CallsFile (vec : T → Vec) (c : Cursor T) (op : FileOp) (c' : Cursor T) (a : Answer E) : Prop :=
  (a.result = .panic ∧ op.Refused (vec c.inner) c.pos.toNat) ∨
  (a.result ≠ .panic ∧ ¬ op.Refused (vec c.inner) c.pos.toNat ∧ (c'.file, a) = fileStep c.file op)

/-- `write_all` makes one write, or none if there is nothing to write. -/
theorem writeAll_file (c : Cursor T) (buf : List UInt8) :
    ∃ c' o, Loop.Returns (fun n => writeAll (E := E) n c buf) (c', o) ∧
      CallsFile vec c (.writeAll buf) c' ⟨[], o.map fun _ => 0⟩ := by
  cases buf with
  | nil =>
    exact ⟨c, .ok (), ⟨1, Loop.loop_done rfl 0⟩,
      Or.inr ⟨Outcome.ok_ne_panic, fun href => href.1 rfl, rfl⟩⟩
  | cons b buf =>
    rcases hw : Write.write (E := E) c (b :: buf) with ⟨c', o⟩
    rcases hT.write c c' (b :: buf) o hw with ⟨rfl, href⟩ | ⟨hne, hgrant, hfile⟩
    · refine ⟨c', .panic, ⟨1, Loop.loop_done ?_ 0⟩, Or.inl ⟨rfl, List.cons_ne_nil b buf, href⟩⟩
      simp [writeAllBody, hw]
    · have hgrant' : ¬ (FileOp.writeAll (b :: buf)).Refused (vec c.inner) c.pos.toNat :=
        fun href => hgrant href.2
      by_cases hpos : c.file.position < 2 ^ usizeBits
      · rw [fileWrite, if_pos hpos, Prod.mk.injEq] at hfile
        obtain ⟨hf, rfl⟩ := hfile
        refine ⟨c', .ok (), writeAll_of_whole (List.cons_ne_nil b buf) hw,
          Or.inr ⟨Outcome.ok_ne_panic, hgrant', ?_⟩⟩
        simp only [fileStep, fileWrite, if_pos hpos, hf, Outcome.map]
      · rw [fileWrite, if_neg hpos, Prod.mk.injEq] at hfile
        obtain ⟨hf, rfl⟩ := hfile
        refine ⟨c', .err (Error.ofErrorKind .invalidInput), ⟨1, Loop.loop_done ?_ 0⟩,
          Or.inr ⟨Outcome.err_ne_panic, hgrant', ?_⟩⟩
        · simp [writeAllBody, hw, hE]
        · simp only [fileStep, fileWrite, if_neg hpos, hf, Outcome.map]

/-- **A call to the cursor is a call to the file**, unless it is refused. -/
theorem cursorStep_file {c : Cursor T} {op : FileOp} (hlegal : op.Legal c.file) :
    ∃ c' a, CursorStep (E := E) c op c' a ∧ CallsFile vec c op c' a := by
  have reads : ¬ op.Writes → ¬ op.Refused (vec c.inner) c.pos.toNat →
      ∃ c' a, CursorStep (E := E) c op c' a ∧ CallsFile vec c op c' a := by
    intro hop hgrant
    obtain ⟨c', a, hstep, hne, hfile⟩ := cursorStep_reads (E := E) hop hlegal
    exact ⟨c', a, hstep, Or.inr ⟨hne, hgrant, hfile⟩⟩
  cases op with
  | write buf =>
    rcases hw : Write.write (E := E) c buf with ⟨c', o⟩
    refine ⟨c', ⟨[], o⟩, ⟨rfl, hw⟩, ?_⟩
    rcases hT.write c c' buf o hw with hpanic | ⟨hne, hgrant, hfile⟩
    · exact Or.inl hpanic
    · refine Or.inr ⟨hne, hgrant, ?_⟩
      rw [fileStep, ← hfile]
  | writeAll buf =>
    obtain ⟨c', o, hret, hfile⟩ := writeAll_file hE hT c buf
    exact ⟨c', ⟨[], o.map fun _ => 0⟩, ⟨rfl, o, hret, rfl⟩, hfile⟩
  | read buf => exact reads not_false not_false
  | readExact buf => exact reads not_false not_false
  | fillBuf => exact reads not_false not_false
  | consume amt => exact reads not_false not_false
  | seek pos => exact reads not_false not_false
  | streamPosition => exact reads not_false not_false
  | setPosition pos => exact reads not_false not_false

/-! ### The runs -/

omit [Alloc] hE hT in
/-- A call has one answer. -/
theorem CursorStep.unique {c c₁ c₂ : Cursor T} {op : FileOp} {a₁ a₂ : Answer E}
    (h₁ : CursorStep c op c₁ a₁) (h₂ : CursorStep c op c₂ a₂) : c₁ = c₂ ∧ a₁ = a₂ := by
  obtain ⟨bytes₁, result₁⟩ := a₁
  obtain ⟨bytes₂, result₂⟩ := a₂
  cases op with
  | write buf =>
    obtain ⟨rfl, h₁⟩ := h₁
    obtain ⟨hb, h₂⟩ := h₂
    simp only at hb h₁ h₂
    rw [h₁, Prod.mk.injEq] at h₂
    exact ⟨h₂.1, by rw [hb, h₂.2]⟩
  | writeAll buf =>
    obtain ⟨rfl, o₁, hret₁, rfl⟩ := h₁
    obtain ⟨hb, o₂, hret₂, rfl⟩ := h₂
    simp only at hb
    have he := hret₁.unique (writeAll_mono c buf) hret₂
    rw [Prod.mk.injEq] at he
    exact ⟨he.1, by rw [hb, he.2]⟩
  | read buf =>
    have he := Eq.trans (Eq.symm h₁) h₂
    simp only [Prod.mk.injEq] at he
    exact ⟨he.1, by rw [he.2.1, he.2.2]⟩
  | readExact buf =>
    obtain ⟨o₁, hret₁, rfl⟩ := h₁
    obtain ⟨o₂, hret₂, rfl⟩ := h₂
    have he := hret₁.unique (c.readExact_mono buf) hret₂
    simp only [Prod.mk.injEq] at he
    exact ⟨he.1, by rw [he.2.1, he.2.2]⟩
  | fillBuf =>
    obtain ⟨o₁, hf₁, rfl, rfl⟩ := h₁
    obtain ⟨o₂, hf₂, hb, rfl⟩ := h₂
    simp only at hb
    rw [hf₁, Prod.mk.injEq] at hf₂
    obtain ⟨hc, rfl⟩ := hf₂
    exact ⟨hc, by rw [hb]⟩
  | consume amt =>
    obtain ⟨rfl, h₁⟩ := h₁
    obtain ⟨hb, h₂⟩ := h₂
    simp only at hb
    cases hc : BufRead.consume E c amt with
    | some c' =>
      simp only [hc] at h₁ h₂
      exact ⟨by rw [h₁.1, h₂.1], by rw [hb, h₁.2, h₂.2]⟩
    | none =>
      simp only [hc] at h₁ h₂
      exact ⟨by rw [h₁.1, h₂.1], by rw [hb, h₁.2, h₂.2]⟩
  | seek pos =>
    obtain ⟨rfl, o₁, hs₁, rfl⟩ := h₁
    obtain ⟨hb, o₂, hs₂, rfl⟩ := h₂
    simp only at hb
    rw [hs₁, Prod.mk.injEq] at hs₂
    obtain ⟨hc, rfl⟩ := hs₂
    exact ⟨hc, by rw [hb]⟩
  | streamPosition =>
    obtain ⟨rfl, o₁, hs₁, rfl⟩ := h₁
    obtain ⟨hb, o₂, hs₂, rfl⟩ := h₂
    simp only at hb
    rw [hs₁, Prod.mk.injEq] at hs₂
    obtain ⟨hc, rfl⟩ := hs₂
    exact ⟨hc, by rw [hb]⟩
  | setPosition pos =>
    obtain ⟨rfl, rfl, rfl⟩ := h₁
    obtain ⟨hb, rfl, hr⟩ := h₂
    simp only at hb hr
    exact ⟨rfl, by rw [hb, hr]⟩

/-- **A run of the cursor is the run of the file.** -/
theorem cursorRun_file {c c' : Cursor T} {ops : List FileOp} {answers : List (Answer E)}
    (h : CursorRun c ops answers c') : fileRun c.file ops = (answers, c'.file) := by
  induction h with
  | nil c => rfl
  | @cons c c₁ c' op ops a answers hlegal hstep hne _ ih =>
    obtain ⟨c₂, a₂, hstep₂, hfile⟩ := cursorStep_file hE hT hlegal
    obtain ⟨rfl, rfl⟩ := hstep.unique hstep₂
    rcases hfile with ⟨hpanic, -⟩ | ⟨-, -, hfile⟩
    · exact absurd hpanic hne
    · rw [fileRun, ← hfile, ih]

end

/-- A cursor over the vector `vec` refines the file: every call returns, it panics if and only if
the vector is refused the room for it, and a run without a panic has the answers of the file and
leaves its contents and position. -/
structure CursorRefines [Target] [Alloc] (E : Type) {T : Type} [ErrorImpl E] [AsRef T]
    [Write E (Cursor T)] (vec : T → Vec) : Prop where
  returns : ∀ (c : Cursor T) (op : FileOp), op.Legal c.file →
    ∃ c' a, CursorStep (E := E) c op c' a ∧
      (a.result = .panic ↔ op.Refused (vec c.inner) c.pos.toNat)
  runs : ∀ (c c' : Cursor T) (ops : List FileOp) (answers : List (Answer E)),
    CursorRun c ops answers c' → fileRun c.file ops = (answers, c'.file)

theorem CursorRefines.of_growingFile [Target] [Alloc] {E T : Type} [ErrorImpl E] [AsRef T]
    [Write E (Cursor T)] (hE : Error.isInterrupted (Error.ofErrorKind .invalidInput : E) = false)
    {vec : T → Vec} (hT : GrowingFile E vec) : CursorRefines E vec := by
  refine ⟨?_, fun c c' ops answers h => cursorRun_file hE hT h⟩
  intro c op hlegal
  obtain ⟨c', a, hstep, hfile⟩ := cursorStep_file hE hT hlegal
  refine ⟨c', a, hstep, ?_⟩
  rcases hfile with ⟨hpanic, href⟩ | ⟨hne, hgrant, -⟩
  · exact iff_of_true hpanic href
  · exact iff_of_false hne hgrant

/-- **`Cursor<Vec<u8>>` and `Cursor<&mut Vec<u8>>` refine the seekable file**, in every
configuration.  What a write does to the file is spelled out element by element; none is refused
that the capacity holds already, and every one beyond `isize::MAX` is. -/
theorem cursor_refines_file [Target] [Alloc] (io : StdIo) (hio : io.Lawful) (features : Features) :
    CursorRefines (features.Error io) (id : Vec → Vec) ∧
    CursorRefines (features.Error io) (MutRef.target : MutRef Vec → Vec) ∧
    (∀ (f : File UInt8) (buf : List UInt8),
      (f.write 0 buf).position = f.position + buf.length ∧
      (f.write 0 buf).contents.length = max f.contents.length (f.position + buf.length) ∧
      ∀ i, (f.write 0 buf).contents[i]? =
        if f.position ≤ i ∧ i < f.position + buf.length then buf[i - f.position]?
        else if f.contents.length ≤ i ∧ i < f.position then some 0
        else f.contents[i]?) ∧
    ∀ (v : Vec) (pos : ℕ) (buf : List UInt8), pos < 2 ^ usizeBits →
      (max v.bytes.length (pos + buf.length) ≤ v.capacity → ¬ v.WriteRefused pos buf) ∧
      (isizeMax < pos + buf.length → v.WriteRefused pos buf) := by
  have hE : Error.isInterrupted (Error.ofErrorKind .invalidInput : features.Error io) = false := by
    have h := isInterrupted_fromKind io hio features .invalidInput
    by_contra hne
    exact absurd (h.mp (eq_true_of_ne_false hne)).2 (by decide)
  exact ⟨.of_growingFile hE growingFile_vec, .of_growingFile hE growingFile_mutRef,
    fun f buf => ⟨rfl, f.write_length 0 buf, f.getElem?_write 0 buf⟩,
    fun v pos buf hpos => ⟨Vec.not_writeRefused_of_le, Vec.writeRefused_of_lt hpos⟩⟩

section

open Machine64

/-- A byte is written behind a gap of two, and all is read from the start. -/
def Cursor.gapOps : List FileOp :=
  [.setPosition 2, .write [7], .seek (.fromStart 0), .read [9, 9, 9, 9]]

def Cursor.gapAnswers : List (Answer (Features.std.Error StdIo.plain)) :=
  [⟨[], .ok 0⟩, ⟨[], .ok 1⟩, ⟨[], .ok 0⟩, ⟨[0, 0, 7, 9], .ok 3⟩]

def Cursor.gapVec : Vec := ⟨[0, 0, 7], 3, by decide, le_isizeMax_of_le (by decide)⟩

theorem Cursor.gapRun :
    CursorRun (⟨Vec.new, 0⟩ : Cursor Vec) Cursor.gapOps Cursor.gapAnswers ⟨Cursor.gapVec, 3⟩ := by
  have hset : CursorStep (⟨Vec.new, 0⟩ : Cursor Vec) (.setPosition 2) ⟨Vec.new, 2⟩
      (⟨[], .ok 0⟩ : Answer (Features.std.Error StdIo.plain)) := ⟨rfl, rfl, rfl⟩
  have hwrite : CursorStep (⟨Vec.new, 2⟩ : Cursor Vec) (.write [7]) ⟨Cursor.gapVec, 3⟩
      (⟨[], .ok 1⟩ : Answer (Features.std.Error StdIo.plain)) := ⟨rfl, rfl⟩
  have hseek : CursorStep (⟨Cursor.gapVec, 3⟩ : Cursor Vec) (.seek (.fromStart 0))
      ⟨Cursor.gapVec, 0⟩ (⟨[], .ok 0⟩ : Answer (Features.std.Error StdIo.plain)) :=
    ⟨rfl, .ok 0, rfl, rfl⟩
  have hread : CursorStep (⟨Cursor.gapVec, 0⟩ : Cursor Vec) (.read [9, 9, 9, 9])
      ⟨Cursor.gapVec, 3⟩ (⟨[0, 0, 7, 9], .ok 3⟩ : Answer (Features.std.Error StdIo.plain)) := by
    show Read.read _ _ = _
    rfl
  exact .cons trivial hset Outcome.ok_ne_panic (.cons trivial hwrite Outcome.ok_ne_panic
    (.cons trivial hseek Outcome.ok_ne_panic (.cons trivial hread Outcome.ok_ne_panic (.nil _))))

/-- On a machine of 64 bits, in the `std` configuration: a run, and a write that is refused. -/
theorem cursor_refines_file_std :
    (CursorRun (⟨Vec.new, 0⟩ : Cursor Vec) Cursor.gapOps Cursor.gapAnswers ⟨Cursor.gapVec, 3⟩ ∧
      fileRun ⟨[], 0⟩ Cursor.gapOps = (Cursor.gapAnswers, ⟨[0, 0, 7], 3⟩)) ∧
    ∃ (c' : Cursor Vec) (a : Answer (Features.std.Error StdIo.plain)),
      CursorStep ⟨Vec.new, 9223372036854775808⟩ (.write [1]) c' a ∧ a.result = .panic := by
  obtain ⟨hrefines, -, -, hrefused⟩ := cursor_refines_file StdIo.plain StdIo.plain_lawful .std
  refine ⟨?_, ?_⟩
  · exact ⟨Cursor.gapRun, hrefines.runs _ _ _ _ Cursor.gapRun⟩
  · obtain ⟨c', a, hstep, hpanic⟩ :=
      hrefines.returns ⟨Vec.new, 9223372036854775808⟩ (.write [1]) trivial
    exact ⟨c', a, hstep, hpanic.mpr ((hrefused _ _ _ (by decide)).2 (by decide))⟩

end

open Machine32 in
/-- On a machine of 32 bits, a write at the position `2 ^ 32` is refused with an error, and one at
the position `2 ^ 31` panics. -/
theorem cursor_write_refused :
    (Write.write (⟨Vec.new, 4294967296⟩ : Cursor Vec) [1]
        = (⟨Vec.new, 4294967296⟩, .err (⟨.kind .invalidInput⟩ : ImplsNostd.Error)) ∧
      ¬ ∃ c, Write.write (⟨Vec.new, 4294967296⟩ : Cursor Vec) [1]
          = (c, (.ok 1 : Outcome ImplsNostd.Error ℕ)) ∧
        c.file = (⟨Vec.new, 4294967296⟩ : Cursor Vec).file.write 0 [1]) ∧
    (Write.write (E := ImplsNostd.Error) (⟨Vec.new, 2147483648⟩ : Cursor Vec) [1]).2 = .panic ∧
      ¬ ∃ c, Write.write (⟨Vec.new, 2147483648⟩ : Cursor Vec) [1]
          = (c, (.ok 1 : Outcome ImplsNostd.Error ℕ)) ∧
        c.file = (⟨Vec.new, 2147483648⟩ : Cursor Vec).file.write 0 [1] := by
  have hpos : Write.write (⟨Vec.new, 4294967296⟩ : Cursor Vec) [1]
      = (⟨Vec.new, 4294967296⟩, .err (⟨.kind .invalidInput⟩ : ImplsNostd.Error)) := by
    decide +kernel
  have hroom : (Write.write (E := ImplsNostd.Error)
      (⟨Vec.new, 2147483648⟩ : Cursor Vec) [1]).2 = .panic := by
    rcases hw : Write.write (⟨Vec.new, 2147483648⟩ : Cursor Vec) [1]
      with ⟨c', (o : Outcome ImplsNostd.Error ℕ)⟩
    rcases growingFile_vec.write _ _ _ _ hw with ⟨hpanic, -⟩ | ⟨-, hgrant, -⟩
    · exact hpanic
    · exact absurd (Vec.writeRefused_of_lt (by decide) (by decide)) hgrant
  refine ⟨⟨hpos, ?_⟩, hroom, ?_⟩
  · intro h'
    obtain ⟨c, hc, -⟩ := h'
    rw [hpos] at hc
    cases hc
  · intro h'
    obtain ⟨c, hc, -⟩ := h'
    rw [hc] at hroom
    cases hroom

end NotIo
