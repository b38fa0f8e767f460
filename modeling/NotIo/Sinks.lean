import NotIo.Cursors

/-!
# Sinks of a fixed size

`&mut [u8]`, `AllowStd<&mut [u8]>` and `Cursor<&mut [u8]>` are views of one memory of a
fixed length.  A write should store what fits (`SinkOp.Law`).  All three hand the buffer to
the write of `&mut [u8]`, which stores it when it fits and panics when it does not
(`FixedSink`), so a run of writes keeps to the law exactly as long as everything that is
written fits (`FixedSink.runLaw_iff`).

* `sinks_lawful_iff`: the three sinks.
-/

namespace NotIo

variable {E W : Type}

/-! ### The law of a fixed-size sink -/

/-- The two calls that store bytes. -/
inductive SinkOp where
  | write (buf : List UInt8)
  | writeAll (buf : List UInt8)
  deriving DecidableEq

def SinkOp.buf : SinkOp → List UInt8
  | .write buf => buf
  | .writeAll buf => buf

/-- What a call should come to, for a sink whose memory `file` shows: as much is stored as
fits, and `write_all` reports whether that was everything. -/
def SinkOp.Law (E : Type) [ErrorImpl E] [Write E W] (file : W → File UInt8) (w w' : W) :
    SinkOp → Prop
  | .write buf =>
    Write.write (E := E) w buf = (w', .ok (min (file w).room buf.length)) ∧
      file w' = (file w).store buf
  | .writeAll buf =>
    Loop.Returns (fun n => NotIo.writeAll (E := E) n w buf)
      (w', if buf.length ≤ (file w).room then .ok () else .err (Error.ofErrorKind .writeZero)) ∧
      file w' = (file w).store buf

/-- A run of calls in which every call keeps to the law. -/
def RunLaw (E : Type) [ErrorImpl E] [Write E W] (file : W → File UInt8) : List SinkOp → W → Prop
  | [], _ => True
  | op :: ops, w => ∃ w', op.Law E file w w' ∧ RunLaw E file ops w'

/-! ### What the sinks do -/

/-- A write that fits is stored as a whole, and one that does not fit panics. -/
structure FixedSink (E : Type) [Write E W] (file : W → File UInt8) : Prop where
  fits : ∀ w buf, buf.length ≤ (file w).room →
    ∃ w', Write.write (E := E) w buf = (w', .ok buf.length) ∧ file w' = (file w).store buf
  overflow : ∀ w buf, (file w).room < buf.length →
    ∃ w', Write.write (E := E) w buf = (w', .panic)

namespace FixedSink

variable [ErrorImpl E] [Write E W] {file : W → File UInt8}

theorem writeAll_of_le (hfile : FixedSink E file) {w : W} {buf : List UInt8}
    (h : buf.length ≤ (file w).room) :
    ∃ w', Loop.Returns (fun n => writeAll (E := E) n w buf) (w', .ok ()) ∧
      file w' = (file w).store buf := by
  by_cases hne : buf = []
  · subst hne
    exact ⟨w, ⟨1, Loop.loop_done rfl 0⟩, (File.store_nil _).symm⟩
  · obtain ⟨w', hw, hf⟩ := hfile.fits w buf h
    exact ⟨w', writeAll_of_whole hne hw, hf⟩

/-- `write_all` gives the panic of `write` on. -/
theorem writeAll_of_lt (hfile : FixedSink E file) {w : W} {buf : List UInt8}
    (h : (file w).room < buf.length) :
    ∃ w', Loop.Returns (fun n => writeAll (E := E) n w buf) (w', .panic) := by
  obtain ⟨w', hw⟩ := hfile.overflow w buf h
  refine ⟨w', 1, ?_⟩
  have hne : buf.isEmpty = false := by
    cases buf with
    | nil => simp at h
    | cons => rfl
  have hbody : writeAllBody (E := E) (w, buf) = .done (w', .panic) := by
    simp [writeAllBody, hw, hne]
  exact Loop.loop_done hbody 0

/-- **A call keeps to the law exactly when its buffer fits.** -/
theorem law_iff (hfile : FixedSink E file) (op : SinkOp) (w : W) :
    (∃ w', op.Law E file w w') ↔ op.buf.length ≤ (file w).room := by
  cases op with
  | write buf =>
    show _ ↔ buf.length ≤ _
    constructor
    · intro h'
      obtain ⟨w', hw, -⟩ := h'
      by_contra h
      obtain ⟨w'', hw'⟩ := hfile.overflow w buf (not_le.mp h)
      rw [hw] at hw'
      cases hw'
    · intro h
      obtain ⟨w', hw, hf⟩ := hfile.fits w buf h
      exact ⟨w', by rwa [Nat.min_eq_right h], hf⟩
  | writeAll buf =>
    show _ ↔ buf.length ≤ _
    constructor
    · intro h'
      obtain ⟨w', hw, -⟩ := h'
      by_contra h
      obtain ⟨w'', hw'⟩ := hfile.writeAll_of_lt (not_le.mp h)
      have := hw.unique (writeAll_mono w buf) hw'
      rw [if_neg h] at this
      cases this
    · intro h
      obtain ⟨w', hw, hf⟩ := hfile.writeAll_of_le h
      exact ⟨w', by rwa [if_pos h], hf⟩

theorem file_of_law {op : SinkOp} {w w' : W} (h : op.Law E file w w') :
    file w' = (file w).store op.buf := by
  cases op <;> exact h.2

/-- **A run keeps to the law exactly when everything that is written fits.** -/
theorem runLaw_iff (hfile : FixedSink E file) (ops : List SinkOp) (w : W) :
    RunLaw E file ops w ↔ (ops.map fun op => op.buf.length).sum ≤ (file w).room := by
  induction ops generalizing w with
  | nil => simp [RunLaw]
  | cons op ops ih =>
    rw [List.map_cons, List.sum_cons]
    have hroom : ∀ w', op.Law E file w w' → (file w').room = (file w).room - op.buf.length := by
      intro w' h
      rw [file_of_law h, File.store_room]
    constructor
    · intro h'
      obtain ⟨w', hop, hrun⟩ := h'
      have hfit := (hfile.law_iff op w).mp ⟨w', hop⟩
      rw [ih, hroom w' hop] at hrun
      omega
    · intro h
      obtain ⟨w', hop⟩ := (hfile.law_iff op w).mpr (by omega)
      refine ⟨w', hop, (ih w').mpr ?_⟩
      rw [hroom w' hop]
      omega

end FixedSink

/-! ### The three sinks -/

section

variable [Target]

/-- The memory of the original slice, at the point that the slice has been narrowed to. -/
def SliceMut.file (self : SliceMut) : File UInt8 := ⟨self.memory, self.past.length⟩

def AllowStd.file (self : AllowStd SliceMut) : File UInt8 := self.val.file

theorem SliceMut.file_room (self : SliceMut) : self.file.room = self.rest.length := by
  simp [file, memory, File.room]

/-- A stored buffer stands between what was narrowed away and what is left. -/
theorem SliceMut.file_eq_store {self next : SliceMut} {buf : List UInt8}
    (h : buf.length ≤ self.rest.length) (hpast : next.past = self.past ++ buf)
    (hrest : next.rest = self.rest.drop buf.length) : next.file = self.file.store buf := by
  rw [File.store_of_le (by rwa [file_room])]
  simp only [file, memory, hpast, hrest, splice, List.length_append, File.mk.injEq, and_true]
  rw [List.take_left, List.drop_length_add_append]

theorem SliceMut.fixedSink : FixedSink E SliceMut.file where
  fits w buf h := by
    rw [file_room] at h
    obtain ⟨next, hw, hpast, hrest⟩ := write_of_le (E := E) h
    exact ⟨next, hw, file_eq_store h hpast hrest⟩
  overflow w buf h := by
    rw [file_room] at h
    obtain ⟨next, hw, -, -⟩ := write_of_lt (E := E) h
    exact ⟨next, hw⟩

theorem AllowStd.fixedSink : FixedSink E AllowStd.file where
  fits w buf h := by
    obtain ⟨next, hw, hf⟩ := SliceMut.fixedSink (E := E).fits w.val buf h
    rw [SliceMut.write_def] at hw
    exact ⟨⟨next⟩, by rw [write_def, hw], hf⟩
  overflow w buf h := by
    obtain ⟨next, hw⟩ := SliceMut.fixedSink (E := E).overflow w.val buf h
    rw [SliceMut.write_def] at hw
    exact ⟨⟨next⟩, by rw [write_def, hw]⟩

/-- `&mut self.inner[pos..]` has the room that the cursor has. -/
theorem Cursor.tailFrom_file (self : Cursor SliceMut) :
    (tailFrom self.inner (min self.pos.toNat self.inner.rest.length)).file.room
      = self.file.room := by
  rw [SliceMut.file_room]
  simp only [tailFrom, file, File.room, List.length_drop, asRef_sliceMut]
  omega

/-- A slice written to behind `pos` is put back with the bytes in front of `pos`. -/
theorem Cursor.withMemory_rest {inner next : SliceMut} {pos : ℕ} {buf : List UInt8}
    (hpast : next.past = (tailFrom inner pos).past ++ buf)
    (hrest : next.rest = (tailFrom inner pos).rest.drop buf.length) :
    (withMemory inner next).rest = splice inner.rest pos buf := by
  simp only [withMemory, SliceMut.memory, hpast, hrest, tailFrom, splice, List.append_assoc,
    List.drop_left, List.drop_drop]

theorem Cursor.write_def (self : Cursor SliceMut) (buf : List UInt8) :
    Write.write (E := E) self buf = self.writeSlice buf := rfl

theorem Cursor.fixedSink : FixedSink E (Cursor.file (T := SliceMut)) where
  fits w buf h := by
    have hlen := lt_u64_of_le_isizeMax (AsRef.asRef w.inner).length_le
    rw [asRef_sliceMut] at hlen
    have hfit : buf.length ≤ w.inner.rest.length - w.pos.toNat := h
    have htail : buf.length ≤ (tailFrom w.inner (min w.pos.toNat w.inner.rest.length)).rest.length := by
      rw [← SliceMut.file_room, tailFrom_file]
      exact h
    obtain ⟨next, hw, hpast, hrest⟩ := SliceMut.write_of_le (E := E) htail
    have hbuf : (U64.ofUsize buf.length).toNat = buf.length := U64.toNat_ofUsize (by omega)
    have hlt : w.pos.toNat + (U64.ofUsize buf.length).toNat < 2 ^ 64 := by
      have := w.pos.toNat_lt
      omega
    refine ⟨⟨withMemory w.inner next, w.pos + U64.ofUsize buf.length⟩, ?_, ?_⟩
    · rw [write_def, writeSlice, U64.toNat_min, U64.toNat_ofUsize hlen, SliceMut.write_def, hw]
      simp only [U64.add_of_lt hlt]
    · rw [File.store_of_le h]
      simp only [file, asRef_sliceMut, withMemory_rest hpast hrest, splice_min hfit,
        U64.toNat_add_of_lt hlt, hbuf]
  overflow w buf h := by
    have hlen := lt_u64_of_le_isizeMax (AsRef.asRef w.inner).length_le
    rw [asRef_sliceMut] at hlen
    have htail : (tailFrom w.inner (min w.pos.toNat w.inner.rest.length)).rest.length < buf.length := by
      rw [← SliceMut.file_room, tailFrom_file]
      exact h
    obtain ⟨next, hw, -, -⟩ := SliceMut.write_of_lt (E := E) htail
    refine ⟨⟨withMemory w.inner next, w.pos⟩, ?_⟩
    rw [write_def, writeSlice, U64.toNat_min, U64.toNat_ofUsize hlen, SliceMut.write_def, hw]

/-- **The fixed-size sinks keep to their law exactly as long as everything fits.** -/
theorem sinks_lawful_iff [ErrorImpl E] (ops : List SinkOp) :
    (∀ w : SliceMut, RunLaw E SliceMut.file ops w ↔
      (ops.map fun op => op.buf.length).sum ≤ w.file.room) ∧
    (∀ w : AllowStd SliceMut, RunLaw E AllowStd.file ops w ↔
      (ops.map fun op => op.buf.length).sum ≤ w.file.room) ∧
    (∀ w : Cursor SliceMut, RunLaw E Cursor.file ops w ↔
      (ops.map fun op => op.buf.length).sum ≤ w.file.room) :=
  ⟨SliceMut.fixedSink.runLaw_iff ops, AllowStd.fixedSink.runLaw_iff ops,
    Cursor.fixedSink.runLaw_iff ops⟩

end

open Machine64 in
/-- Two bytes do not fit in a slice of one. -/
theorem sinks_panic :
    (SliceMut.whole [0] (by decide)).write [1, 2]
      = (⟨[0], [], by decide⟩, (.panic : Outcome ImplsNostd.Error ℕ)) ∧
    ¬ RunLaw ImplsNostd.Error SliceMut.file [.write [1, 2]] (SliceMut.whole [0] (by decide)) ∧
    ¬ RunLaw ImplsNostd.Error SliceMut.file [.writeAll [1, 2]] (SliceMut.whole [0] (by decide)) ∧
    ¬ RunLaw ImplsNostd.Error AllowStd.file [.write [1, 2]] ⟨SliceMut.whole [0] (by decide)⟩ ∧
    ¬ RunLaw ImplsNostd.Error Cursor.file [.write [1]] ⟨SliceMut.whole [0] (by decide), 1⟩ := by
  refine ⟨by decide, ?_, ?_, ?_, ?_⟩
  · rw [SliceMut.fixedSink.runLaw_iff]
    decide
  · rw [SliceMut.fixedSink.runLaw_iff]
    decide
  · rw [AllowStd.fixedSink.runLaw_iff]
    decide
  · rw [Cursor.fixedSink.runLaw_iff]
    decide

end NotIo
