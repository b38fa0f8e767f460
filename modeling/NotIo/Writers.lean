import NotIo.Chunks
import NotIo.Interrupts
import NotIo.SeekableFile
import NotIo.Sinks

/-!
# Writers that take what they are given

`Accepts E W` says that a `Write` takes a buffer for which there is room, in pieces of any lengths,
and with interruptions in between, only not for ever.

* `Accepts.writeAll`: `write_all` does not show the pieces.
* The writers of the crate take what there is room for, also when they are interrupted.
-/

namespace NotIo

section

variable {E W : Type}

/-- What a writer may do with a buffer for which there is room: it takes a part of it, or it is
interrupted. -/
def Takes (E : Type) {W : Type} [ErrorImpl E] [Write E W] (Adv : W → List UInt8 → W → Prop)
    (Fits : W → ℕ → Prop) (w : W) (k : ℕ) (buf : List UInt8) : Prop :=
  (∃ w' n, Write.write (E := E) w buf = (w', .ok n) ∧ 0 < n ∧ n ≤ buf.length ∧
    Adv w (buf.take n) w' ∧ Fits w' (k - n)) ∨
  (∃ w' e, Write.write (E := E) w buf = (w', .err e) ∧ Error.isInterrupted e = true ∧
    Adv w [] w' ∧ Fits w' k)

/-- **A `Write` that takes what it is given**, in pieces: `Adv w D w'` says that `w` has become `w'`
by taking `D`, and `Fits w k` that there is room for `k` bytes. -/
structure Accepts (E W : Type) [ErrorImpl E] [Write E W] where
  Adv : W → List UInt8 → W → Prop
  Fits : W → ℕ → Prop
  mono : ∀ {w : W} {k k' : ℕ}, Fits w k → k' ≤ k → Fits w k'
  refl : ∀ w, Adv w [] w
  trans : ∀ {w w' w'' : W} {D D' : List UInt8}, Adv w D w' → Adv w' D' w'' → Adv w (D ++ D') w''
  write : ∀ {w : W} {k : ℕ} {buf : List UInt8}, Fits w k → buf ≠ [] → buf.length ≤ k →
    Takes E Adv Fits w k buf
  fails : WellFounded fun w' w => ∃ k buf e, Fits w k ∧ buf ≠ [] ∧ buf.length ≤ k ∧
    Write.write (E := E) w buf = (w', .err e)

variable [ErrorImpl E] [Write E W]

/-- **`write_all` does not show the pieces.** -/
theorem Accepts.writeAll (a : Accepts E W) {w : W} {k : ℕ} {buf : List UInt8} (hfit : a.Fits w k)
    (hle : buf.length ≤ k) :
    ∃ w', Loop.Returns (fun n => writeAll (E := E) n w buf) (w', .ok ()) ∧ a.Adv w buf w' ∧
      a.Fits w' (k - buf.length) := by
  have hwf := WellFounded.prod_lex Nat.lt_wfRel.wf a.fails
  obtain ⟨p, hp⟩ : ∃ p : ℕ × W, p = (buf.length, w) := ⟨_, rfl⟩
  induction p using hwf.induction generalizing w k buf with
  | h p ih =>
    subst hp
    by_cases hnil : buf = []
    · subst hnil
      exact ⟨w, ⟨1, Loop.loop_done rfl 0⟩, a.refl w, hfit⟩
    · rcases a.write hfit hnil hle with
        ⟨w', n, hw, hpos, hn, hadv, hfit'⟩ | ⟨w', e, hw, hint, hadv, hfit'⟩
      · have hlen : (buf.drop n).length = buf.length - n := List.length_drop
        have hlt : (buf.drop n).length < buf.length := by omega
        have hnext : writeAllBody (E := E) (w, buf) = .next (w', buf.drop n) := by
          obtain ⟨m, rfl⟩ : ∃ m, n = m + 1 := ⟨n - 1, by omega⟩
          simp only [writeAllBody, List.isEmpty_iff, if_neg hnil, hw, if_pos hn]
        obtain ⟨w'', ⟨m, hm⟩, hadv', hfit''⟩ := ih ((buf.drop n).length, w')
          (.left _ _ hlt) hfit' (by omega) rfl
        refine ⟨w'', ⟨m + 1, (Loop.loop_next hnext m).trans hm⟩, ?_, ?_⟩
        · have h := a.trans hadv hadv'
          rwa [List.take_append_drop] at h
        · rwa [show k - n - (buf.drop n).length = k - buf.length by omega] at hfit''
      · have hnext : writeAllBody (E := E) (w, buf) = .next (w', buf) := by
          simp only [writeAllBody, List.isEmpty_iff, if_neg hnil, hw, if_pos hint]
        obtain ⟨w'', ⟨m, hm⟩, hadv', hfit''⟩ := ih (buf.length, w')
          (.right _ ⟨k, buf, e, hfit, hnil, hle, hw⟩) hfit' hle rfl
        refine ⟨w'', ⟨m + 1, (Loop.loop_next hnext m).trans hm⟩, ?_, hfit''⟩
        exact a.trans hadv hadv'

end

section

variable [Target] {E W : Type} [ErrorImpl E] [Write E W]

/-! ### The writers of the crate -/

/-- A sink of a fixed length takes what fits. -/
def FixedSink.accepts {file : W → File UInt8} (h : FixedSink E file) : Accepts E W where
  Adv w D w' := D.length ≤ (file w).room ∧ file w' = (file w).store D
  Fits w k := k ≤ (file w).room
  mono hk hle := le_trans hle hk
  refl w := ⟨Nat.zero_le _, (File.store_nil _).symm⟩
  trans {w w' w'' D D'} hD hD' := by
    obtain ⟨hlen, hfile⟩ := hD
    obtain ⟨hlen', hfile'⟩ := hD'
    rw [hfile, File.store_room] at hlen'
    refine ⟨by rw [List.length_append]; omega, ?_⟩
    rw [hfile', hfile, File.store_store (by omega)]
  write {w k buf} hk hne hle := by
    obtain ⟨w', hw, hf⟩ := h.fits w buf (le_trans hle hk)
    refine Or.inl ⟨w', buf.length, hw, List.length_pos_of_ne_nil hne, le_refl _, ?_, ?_⟩
    · rw [List.take_length]
      exact ⟨le_trans hle hk, hf⟩
    · show k - buf.length ≤ (file w').room
      rw [hf, File.store_room]
      omega
  fails := by
    refine ⟨fun w => ⟨w, ?_⟩⟩
    intro w' hw'
    obtain ⟨k, buf, e, hk, hne, hle, hw⟩ := hw'
    obtain ⟨w'', hok, -⟩ := h.fits w buf (le_trans hle hk)
    rw [hok] at hw
    cases hw

/-- The sink takes everything. -/
def Sink.accepts (E : Type) [ErrorImpl E] : Accepts E Sink where
  Adv _ _ _ := True
  Fits _ _ := True
  mono _ _ := trivial
  refl _ := trivial
  trans _ _ := trivial
  write {w k buf} _ hne _ := Or.inl ⟨w, buf.length, rfl, List.length_pos_of_ne_nil hne, le_refl _,
    trivial, trivial⟩
  fails := by
    refine ⟨fun w => ⟨w, ?_⟩⟩
    intro w' hw'
    obtain ⟨k, buf, e, -, -, -, hw⟩ := hw'
    cases hw

/-- A vector takes what the allocator grants. -/
def Vec.accepts (E : Type) [Alloc] [ErrorImpl E] : Accepts E Vec where
  Adv v D v' := v'.bytes = v.bytes ++ D
  Fits v k := ¬ RefusesWithin (v.bytes.length + k)
  mono hk hle href := hk (href.mono (Nat.add_le_add_left hle _))
  refl v := (List.append_nil _).symm
  trans {v v' v'' D D'} hD hD' := by rw [hD', hD, List.append_assoc]
  write {v k buf} hfit hne hle := by
    cases hext : v.extendFromSlice buf with
    | none =>
      exact absurd ⟨v, _, Nat.add_le_add_left hle _, Vec.extendFromSlice_eq_none_iff.mp hext⟩ hfit
    | some v' =>
      have hv' := Vec.extendFromSlice_spec hext
      refine Or.inl ⟨v', buf.length, ?_, List.length_pos_of_ne_nil hne, le_refl _, ?_, ?_⟩
      · simp only [Write.write, hext]
      · rwa [List.take_length]
      · show ¬ RefusesWithin (v'.bytes.length + (k - buf.length))
        rwa [hv', List.length_append, show v.bytes.length + buf.length + (k - buf.length)
          = v.bytes.length + k by omega]
  fails := by
    refine ⟨fun v => ⟨v, ?_⟩⟩
    intro v' hv'
    obtain ⟨k, buf, e, -, -, -, hw⟩ := hv'
    cases hext : v.extendFromSlice buf <;> simp only [Write.write, hext] at hw <;> cases hw

/-- The bytes `D` were written to the file of the cursor. -/
def Cursor.Wrote {T : Type} [AsRef T] (c : Cursor T) (D : List UInt8) (c' : Cursor T) : Prop :=
  (D = [] ∧ c'.file = c.file) ∨ c'.file = c.file.write 0 D

/-- There are positions for `k` bytes more, and the allocator grants them. -/
def Cursor.CanGrow [Alloc] {T : Type} [AsRef T] (c : Cursor T) (k : ℕ) : Prop :=
  c.file.position + k < 2 ^ usizeBits ∧
    ¬ RefusesWithin (max c.file.contents.length (c.file.position + k))

section

variable [Alloc] {T : Type} [AsRef T] [Write E (Cursor T)]

omit [ErrorImpl E] [Write E W] [Alloc] [Write E (Cursor T)] in
theorem Cursor.Wrote.trans {c c' c'' : Cursor T} {D D' : List UInt8} (h : c.Wrote D c')
    (h' : c'.Wrote D' c'') : c.Wrote (D ++ D') c'' := by
  rcases h with ⟨rfl, h⟩ | h <;> rcases h' with ⟨rfl, h'⟩ | h'
  · exact Or.inl ⟨rfl, h'.trans h⟩
  · exact Or.inr (by rw [h', h, List.nil_append])
  · exact Or.inr (by rw [h', h, List.append_nil])
  · exact Or.inr (by rw [h', h, File.write_write])

omit [ErrorImpl E] [Write E W] [Write E (Cursor T)] in
theorem Cursor.CanGrow.mono {c : Cursor T} {k k' : ℕ} (h : c.CanGrow k) (hle : k' ≤ k) :
    c.CanGrow k' := by
  obtain ⟨hpos, hgrant⟩ := h
  refine ⟨by omega, fun href => hgrant (href.mono ?_)⟩
  omega

/-- What there is room for is written as a whole. -/
theorem GrowingFile.write_of_canGrow {vec : T → Vec} (h : GrowingFile E vec) {c : Cursor T} {k : ℕ}
    {buf : List UInt8} (hfit : c.CanGrow k) (hle : buf.length ≤ k) :
    ∃ c', Write.write (E := E) c buf = (c', .ok buf.length) ∧ c'.file = c.file.write 0 buf ∧
      c'.CanGrow (k - buf.length) := by
  obtain ⟨hpos, hgrant⟩ := hfit
  rcases hw : Write.write (E := E) c buf with ⟨c', o⟩
  rcases h.write c c' buf o hw with ⟨-, href⟩ | ⟨-, -, hfile⟩
  · refine absurd (href.refusesWithin.mono ?_) hgrant
    rw [← h.contents c, show c.pos.toNat = c.file.position from rfl]
    omega
  · rw [fileWrite, if_pos (by omega), Prod.mk.injEq] at hfile
    obtain ⟨hf, rfl⟩ := hfile
    have hposition : (c.file.write 0 buf).position = c.file.position + buf.length := rfl
    refine ⟨c', rfl, hf, ?_⟩
    rw [Cursor.CanGrow, hf, File.write_length, hposition]
    refine ⟨by omega, fun href => hgrant (href.mono ?_)⟩
    omega

/-- A cursor over a vector writes to its file, which grows. -/
def GrowingFile.accepts {vec : T → Vec} (h : GrowingFile E vec) : Accepts E (Cursor T) where
  Adv := Cursor.Wrote
  Fits := Cursor.CanGrow
  mono := Cursor.CanGrow.mono
  refl _ := Or.inl ⟨rfl, rfl⟩
  trans := Cursor.Wrote.trans
  write {c k buf} hfit hne hle := by
    obtain ⟨c', hw, hf, hfit'⟩ := h.write_of_canGrow hfit hle
    refine Or.inl ⟨c', buf.length, hw, List.length_pos_of_ne_nil hne, le_refl _, ?_, hfit'⟩
    rw [List.take_length]
    exact Or.inr hf
  fails := by
    refine ⟨fun c => ⟨c, ?_⟩⟩
    intro c' hc'
    obtain ⟨k, buf, e, hfit, -, hle, hw⟩ := hc'
    obtain ⟨c'', hok, -⟩ := h.write_of_canGrow hfit hle
    rw [hok] at hw
    cases hw

end

/-- A writer that is interrupted now and then takes what the writer behind it takes. -/
def Accepts.interrupting (a : Accepts E W) : Accepts E (Interrupting W) where
  Adv w D w' := a.Adv w.inner D w'.inner
  Fits w k := Quiet E w.schedule ∧ a.Fits w.inner k
  mono hk hle := ⟨hk.1, a.mono hk.2 hle⟩
  refl w := a.refl w.inner
  trans h h' := a.trans h h'
  write {w k buf} hfit hne hle := by
    obtain ⟨hq, hfit⟩ := hfit
    rcases hq.next with ⟨rest, hi, hknown, hrest, -⟩ | ⟨hi, hrest⟩
    · refine Or.inr ⟨⟨w.inner, rest⟩, Error.ofErrorKind .interrupted, ?_, hknown, a.refl _, hrest, hfit⟩
      simp only [Write.write, hi]
    · rcases a.write hfit hne hle with ⟨w', n, hw, hpos, hn, hadv, hfit'⟩ | ⟨w', e, hw, hint, hadv, hfit'⟩
      · refine Or.inl ⟨⟨w', w.schedule.tail⟩, n, ?_, hpos, hn, hadv, hrest, hfit'⟩
        simp only [Write.write, hi, hw]
      · refine Or.inr ⟨⟨w', w.schedule.tail⟩, e, ?_, hint, hadv, hrest, hfit'⟩
        simp only [Write.write, hi, hw]
  fails := by
    refine Subrelation.wf ?_ (InvImage.wf (fun w : Interrupting W => (w.inner, w.schedule.sum))
      (WellFounded.prod_lex a.fails Nat.lt_wfRel.wf))
    intro w' w hw'
    obtain ⟨k, buf, e, ⟨hq, hfit⟩, hne, hle, hw⟩ := hw'
    rcases hq.next with ⟨rest, hi, -, -, hlt⟩ | ⟨hi, -⟩
    · simp only [Write.write, hi, Prod.mk.injEq] at hw
      obtain ⟨rfl, -⟩ := hw
      exact .right _ hlt
    · rcases hinner : Write.write (E := E) w.inner buf with ⟨inner, o⟩
      simp only [Write.write, hi, hinner, Prod.mk.injEq] at hw
      obtain ⟨rfl, rfl⟩ := hw
      exact .left _ _ ⟨k, buf, e, hfit, hne, hle, hinner⟩

end

end NotIo
