import NotIo.Sinks
import NotIo.SeekableFile

/-!
# The slice cursor and the vector cursor

`Cursor<&mut [u8]>` and `Cursor<Vec<u8>>` share what they read with, and nothing of what they
write with.  Where a write fits in front of the end (`FileOp.InRoom`), either of them puts the
buffer in place and moves on (`StoresInRoom`): the vector asks the allocator for nothing.

* `cursors_agree`: they give the same answers and keep the same contents and position, call by
  call.
-/

namespace NotIo

/-- No more is consumed than `fill_buf` shows, and what is written fits in front of the end. -/
def FileOp.InRoom (f : File UInt8) : FileOp → Prop
  | .write buf => f.position ≤ f.contents.length ∧ buf.length ≤ f.contents.length - f.position
  | .writeAll buf => f.position ≤ f.contents.length ∧ buf.length ≤ f.contents.length - f.position
  | op => op.Legal f

section

variable [Target] {E T : Type}

/-! ### One cursor -/

section

variable [ErrorImpl E] [AsRef T]

/-- In front of the end, the file is written to without a refusal. -/
theorem fileWrite_inRoom (c : Cursor T) {buf : List UInt8}
    (hpos : c.file.position ≤ c.file.contents.length) (hfit : buf.length ≤ c.file.room) :
    fileWrite (E := E) c.file buf = (c.file.store buf, .ok buf.length) := by
  have hlen := lt_of_le_isizeMax (asRef c.inner).length_le
  have hlt : c.file.position < 2 ^ usizeBits := lt_of_le_of_lt hpos hlen
  rw [fileWrite, if_pos hlt, File.write_eq_store 0 hpos hfit]

/-- **Within the room the file keeps its length.** -/
theorem fileStep_length (c : Cursor T) {op : FileOp} (hop : op.InRoom c.file) :
    (fileStep (E := E) c.file op).1.contents.length = c.file.contents.length := by
  cases op with
  | write buf =>
    obtain ⟨hpos, hfit⟩ := hop
    rw [fileStep, fileWrite_inRoom c hpos hfit, File.store_length]
  | writeAll buf =>
    obtain ⟨hpos, hfit⟩ := hop
    by_cases hne : buf = []
    · subst hne
      rfl
    · rw [fileStep, fileWrite_inRoom c hpos hfit, File.store_length]
      exact hne
  | read buf => rfl
  | readExact buf =>
    rw [fileStep]
    split <;> rfl
  | fillBuf => rfl
  | consume amt => rfl
  | seek pos =>
    rw [fileStep, fileSeek]
    cases hto : c.file.seekTo (2 ^ 64) (Cursor.seekTarget c.file pos) with
    | some f =>
      unfold File.seekTo at hto
      split at hto <;> cases hto
      rfl
    | none => rfl
  | streamPosition => rfl
  | setPosition pos => rfl

end

/-- A write that fits in front of the end is put in place. -/
def StoresInRoom (E T : Type) [AsRef T] [Write E (Cursor T)] : Prop :=
  ∀ (c : Cursor T) (buf : List UInt8), c.file.position ≤ c.file.contents.length →
    buf.length ≤ c.file.room →
    ∃ c', Write.write (E := E) c buf = (c', .ok buf.length) ∧ c'.file = c.file.store buf

/-- **A call that keeps within the room is the call to the file.** -/
theorem cursorStep_inRoom [ErrorImpl E] [AsRef T] [Write E (Cursor T)] (hT : StoresInRoom E T)
    {c : Cursor T} {op : FileOp} (hop : op.InRoom c.file) :
    ∃ c' a, CursorStep (E := E) c op c' a ∧ a.result ≠ .panic ∧ (c'.file, a) = fileStep c.file op := by
  cases op with
  | write buf =>
    obtain ⟨hpos, hfit⟩ := hop
    obtain ⟨c', hw, hf⟩ := hT c buf hpos hfit
    refine ⟨c', ⟨[], .ok buf.length⟩, ⟨rfl, hw⟩, Outcome.ok_ne_panic, ?_⟩
    rw [fileStep, fileWrite_inRoom c hpos hfit, hf]
  | writeAll buf =>
    obtain ⟨hpos, hfit⟩ := hop
    by_cases hne : buf = []
    · subst hne
      exact ⟨c, ⟨[], .ok 0⟩, ⟨rfl, .ok (), ⟨1, Loop.loop_done rfl 0⟩, rfl⟩, Outcome.ok_ne_panic, rfl⟩
    · obtain ⟨c', hw, hf⟩ := hT c buf hpos hfit
      refine ⟨c', ⟨[], .ok 0⟩, ⟨rfl, .ok (), writeAll_of_whole hne hw, rfl⟩, Outcome.ok_ne_panic, ?_⟩
      rw [fileStep, fileWrite_inRoom c hpos hfit, hf]
      · rfl
      · exact hne
  | read buf => exact cursorStep_reads not_false hop
  | readExact buf => exact cursorStep_reads not_false hop
  | fillBuf => exact cursorStep_reads not_false hop
  | consume amt => exact cursorStep_reads not_false hop
  | seek pos => exact cursorStep_reads not_false hop
  | streamPosition => exact cursorStep_reads not_false hop
  | setPosition pos => exact cursorStep_reads not_false hop

/-! ### The two cursors -/

theorem storesInRoom_sliceMut : StoresInRoom E SliceMut := fun c buf _ hfit =>
  Cursor.fixedSink.fits c buf hfit

variable [Alloc] [ErrorImpl E]

/-- A write in place is never refused. -/
theorem storesInRoom_vec : StoresInRoom E Vec := by
  intro c buf hpos hfit
  have hpos' : c.pos.toNat ≤ c.inner.bytes.length := hpos
  have hfit' : buf.length ≤ c.inner.bytes.length - c.pos.toNat := hfit
  have hend : max c.inner.bytes.length (c.pos.toNat + buf.length) ≤ c.inner.capacity := by
    have hle := c.inner.length_le
    omega
  rcases hw : Write.write (E := E) c buf with ⟨c', o⟩
  rcases growingFile_vec.write c c' buf o hw with ⟨-, href⟩ | ⟨-, -, hfile⟩
  · exact absurd href (Vec.not_writeRefused_of_le hend)
  · rw [fileWrite_inRoom c hpos hfit, Prod.mk.injEq] at hfile
    obtain ⟨hf, rfl⟩ := hfile
    exact ⟨c', rfl, hf⟩

/-- The two cursors run side by side: at every call that keeps within the room they give the
same answer, and are left with the same contents, no longer or shorter, and the same position. -/
def SideBySide (E : Type) [ErrorImpl E] : List FileOp → Cursor SliceMut → Cursor Vec → Prop
  | [], slice, vec => slice.file = vec.file
  | op :: ops, slice, vec => slice.file = vec.file ∧ (op.InRoom slice.file →
    ∃ slice' vec' a, CursorStep (E := E) slice op slice' a ∧ CursorStep vec op vec' a ∧
      a.result ≠ .panic ∧ slice'.file.contents.length = slice.file.contents.length ∧
      SideBySide E ops slice' vec')

/-- **The slice cursor and the vector cursor agree wherever both have room**, call by call. -/
theorem cursors_agree (ops : List FileOp) (slice : Cursor SliceMut) (vec : Cursor Vec)
    (h : slice.file = vec.file) : SideBySide E ops slice vec := by
  induction ops generalizing slice vec with
  | nil => exact h
  | cons op ops ih =>
    refine ⟨h, ?_⟩
    intro hop
    obtain ⟨slice', a, hslice, hne, hfile⟩ := cursorStep_inRoom (E := E) storesInRoom_sliceMut hop
    obtain ⟨vec', a', hvec, -, hfile'⟩ := cursorStep_inRoom (E := E) storesInRoom_vec (h ▸ hop)
    rw [← h, ← hfile, Prod.mk.injEq] at hfile'
    obtain ⟨hsame, rfl⟩ := hfile'
    refine ⟨slice', vec', a', hslice, hvec, hne, ?_, ih slice' vec' hsame.symm⟩
    have hlen := fileStep_length (E := E) slice hop
    rwa [← hfile] at hlen

end

open Machine64 in
/-- Both cursors begin over the same three bytes. -/
theorem cursors_agree_new :
    SideBySide ImplsNostd.Error [.write [7], .seek (.fromEnd 1), .read [0, 0]]
      (Cursor.new (SliceMut.whole [1, 2, 3] (by decide)))
      (Cursor.new (⟨[1, 2, 3], 3, by decide, by decide⟩ : Vec)) :=
  cursors_agree _ _ _ rfl

end NotIo
