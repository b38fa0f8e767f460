import NotIo.ReadToEnd

/-!
# Interruptions

`Interrupting R` is the reader (or writer) `R` with interruptions put in between its
answers: `schedule` says how many of them come in front of the next answer, of the one
after it, and so on.

Where the test `is_interrupted` knows an interruption, each of the five loops stutters
over one (`readExact_agree`, `writeAll_agree`, `stackCopy_agree`, `readToEnd_agree`,
`readUntil_agree`).  Without `std` the test answers `false`, and the first interruption ends
the loop (`endsInterrupted`), whatever the reader and the writer have answered before it.

* `interruptions_transparent_iff`: the configurations and schedules for which the
  interruptions cannot be seen.
-/

namespace NotIo

/-- A reader or a writer with a schedule of interruptions. -/
structure Interrupting (R : Type) where
  inner : R
  schedule : List ℕ
  deriving DecidableEq

/-- The schedule after an interruption, if one comes next. -/
def interruption : List ℕ → Option (List ℕ)
  | (k + 1) :: ks => some (k :: ks)
  | 0 :: _ => none
  | [] => none

section

variable {E R W : Type} [ErrorImpl E]

instance [Read E R] : Read E (Interrupting R) where
  read self buf :=
    match interruption self.schedule with
    | some schedule => (⟨self.inner, schedule⟩, buf, .err (Error.ofErrorKind .interrupted))
    | none =>
      let (inner, buf, answer) := Read.read self.inner buf
      (⟨inner, self.schedule.tail⟩, buf, answer)
  read_length self buf := by
    cases interruption self.schedule with
    | some schedule => rfl
    | none => exact Read.read_length (E := E) self.inner buf

instance [Target] [BufRead E R] : BufRead E (Interrupting R) where
  fillBuf self :=
    match interruption self.schedule with
    | some schedule => (⟨self.inner, schedule⟩, .err (Error.ofErrorKind .interrupted))
    | none =>
      let (inner, answer) := BufRead.fillBuf self.inner
      (⟨inner, self.schedule.tail⟩, answer)
  consume self n :=
    match BufRead.consume E self.inner n with
    | some inner => some ⟨inner, self.schedule⟩
    | none => none

instance [Write E W] : Write E (Interrupting W) where
  write self buf :=
    match interruption self.schedule with
    | some schedule => (⟨self.inner, schedule⟩, .err (Error.ofErrorKind .interrupted))
    | none =>
      let (inner, answer) := Write.write self.inner buf
      (⟨inner, self.schedule.tail⟩, answer)
  flush self :=
    let (inner, u) := Write.flush self.inner
    (⟨inner, self.schedule⟩, u)

/-! ### Schedules that cannot be seen -/

/-- The interruptions of the schedule are known as such, or there are none. -/
def Quiet (E : Type) [ErrorImpl E] (schedule : List ℕ) : Prop :=
  Error.isInterrupted (Error.ofErrorKind .interrupted : E) = true ∨ ∀ k ∈ schedule, k = 0

/-- What comes next on such a schedule: an interruption that is known, or an answer. -/
theorem Quiet.next {schedule : List ℕ} (h : Quiet E schedule) :
    (∃ rest, interruption schedule = some rest ∧
      Error.isInterrupted (Error.ofErrorKind .interrupted : E) = true ∧ Quiet E rest ∧
      rest.sum < schedule.sum) ∨
    (interruption schedule = none ∧ Quiet E schedule.tail) := by
  rcases schedule with _ | ⟨_ | k, ks⟩
  · exact Or.inr ⟨rfl, h⟩
  · refine Or.inr ⟨rfl, ?_⟩
    rcases h with h | h
    · exact Or.inl h
    · exact Or.inr fun k hk => h k (List.mem_cons_of_mem 0 hk)
  · rcases h with h | h
    · exact Or.inl ⟨k :: ks, rfl, h, Or.inl h, by simp⟩
    · exact absurd (h (k + 1) List.mem_cons_self) (Nat.succ_ne_zero k)

/-- The same state but for the interruptions still to come, which cannot be seen. -/
def Hidden (E : Type) [ErrorImpl E] {α : Type} (s : R × α) (s' : Interrupting R × α) : Prop :=
  s'.1.inner = s.1 ∧ Quiet E s'.1.schedule ∧ s'.2 = s.2

theorem Hidden.start {α : Type} {schedule : List ℕ} (h : Quiet E schedule) (r : R) (a : α) :
    Hidden E (r, a) (⟨r, schedule⟩, a) := ⟨rfl, h, rfl⟩

/-! ### The loops stutter -/

/-- `read_exact` goes round over an interruption. -/
theorem readExact_agree [Read E R] {schedule : List ℕ} (h : Quiet E schedule) (r : R)
    (buf : List UInt8) :
    Loop.Agree (Hidden E) (fun n => readExact (E := E) n r buf)
      (fun n => readExact (E := E) n (⟨r, schedule⟩ : Interrupting R) buf) := by
  refine Loop.loop_stutter (Hidden E) (Hidden E) (fun s => s.1.schedule.sum) ?_
    (Hidden.start h r _)
  intro a b hab
  obtain ⟨r, filled, buf⟩ := a
  obtain ⟨⟨r', schedule⟩, filled', buf'⟩ := b
  obtain ⟨hr, hq, hb⟩ := hab
  simp only [Prod.mk.injEq] at hr hq hb
  obtain ⟨rfl, rfl⟩ := hb
  subst hr
  by_cases he : buf'.isEmpty = true
  · apply Or.inr
    simp only [readExactBody, he, if_true]
    exact .done (Hidden.start hq r' _)
  · rcases hq.next with ⟨rest, hi, hknown, hrest, hlt⟩ | ⟨hi, hrest⟩
    · refine Or.inl ⟨(⟨r', rest⟩, filled', buf'), ?_, Hidden.start hrest r' _, hlt⟩
      simp [readExactBody, he, Read.read, hi, hknown]
    · apply Or.inr
      rcases hread : Read.read (E := E) r' buf' with ⟨r₁, buf₁, (_ | n) | e | _⟩ <;>
        simp only [readExactBody, he, Read.read, hi, hread, Bool.false_eq_true, if_false]
      · exact .done (Hidden.start hrest r₁ _)
      · split
        · exact .next (Hidden.start hrest r₁ _)
        · exact .done (Hidden.start hrest r₁ _)
      · split
        · exact .next (Hidden.start hrest r₁ _)
        · exact .done (Hidden.start hrest r₁ _)
      · exact .done (Hidden.start hrest r₁ _)

/-- `write_all` goes round over an interruption. -/
theorem writeAll_agree [Write E W] {schedule : List ℕ} (h : Quiet E schedule) (w : W)
    (buf : List UInt8) :
    Loop.Agree (Hidden E) (fun n => writeAll (E := E) n w buf)
      (fun n => writeAll (E := E) n (⟨w, schedule⟩ : Interrupting W) buf) := by
  refine Loop.loop_stutter (Hidden E) (Hidden E) (fun s => s.1.schedule.sum) ?_
    (Hidden.start h w _)
  intro a b hab
  obtain ⟨w, buf⟩ := a
  obtain ⟨⟨w', schedule⟩, buf'⟩ := b
  obtain ⟨hw, hq, hb⟩ := hab
  simp only at hw hq hb
  subst hw hb
  by_cases he : buf'.isEmpty = true
  · apply Or.inr
    simp only [writeAllBody, he, if_true]
    exact .done (Hidden.start hq w' _)
  · rcases hq.next with ⟨rest, hi, hknown, hrest, hlt⟩ | ⟨hi, hrest⟩
    · refine Or.inl ⟨(⟨w', rest⟩, buf'), ?_, Hidden.start hrest w' _, hlt⟩
      simp [writeAllBody, he, Write.write, hi, hknown]
    · apply Or.inr
      rcases hwrite : Write.write (E := E) w' buf' with ⟨w₁, (_ | n) | e | _⟩ <;>
        simp only [writeAllBody, he, Write.write, hi, hwrite, Bool.false_eq_true, if_false]
      · exact .done (Hidden.start hrest w₁ _)
      · split
        · exact .next (Hidden.start hrest w₁ _)
        · exact .done (Hidden.start hrest w₁ _)
      · split
        · exact .next (Hidden.start hrest w₁ _)
        · exact .done (Hidden.start hrest w₁ _)
      · exact .done (Hidden.start hrest w₁ _)

/-- `read_until` goes round over an interruption. -/
theorem readUntil_agree [Target] [Alloc] [BufRead E R] {schedule : List ℕ} (h : Quiet E schedule)
    (r : R) (byte : UInt8) (buf : Vec) :
    Loop.Agree (Hidden E) (fun n => readUntil (E := E) n r byte buf)
      (fun n => readUntil (E := E) n (⟨r, schedule⟩ : Interrupting R) byte buf) := by
  refine Loop.loop_stutter (Hidden E) (Hidden E) (fun s => s.1.schedule.sum) ?_
    (Hidden.start h r _)
  intro a b hab
  obtain ⟨r, buf, read⟩ := a
  obtain ⟨⟨r', schedule⟩, buf', read'⟩ := b
  obtain ⟨hr, hq, hb⟩ := hab
  simp only [Prod.mk.injEq] at hr hq hb
  obtain ⟨rfl, rfl⟩ := hb
  subst hr
  rcases hq.next with ⟨rest, hi, hknown, hrest, hlt⟩ | ⟨hi, hrest⟩
  · refine Or.inl ⟨(⟨r', rest⟩, buf', read'), ?_, Hidden.start hrest r' _, hlt⟩
    simp [readUntilBody, BufRead.fillBuf, hi, hknown]
  · apply Or.inr
    rcases hfill : BufRead.fillBuf (E := E) r' with ⟨r₁, available | e | _⟩ <;>
      simp only [readUntilBody, BufRead.fillBuf, hi, hfill]
    · simp only [readUntilChunk]
      cases buf'.extendFromSlice (available.bytes.take (doneUsed byte available.bytes).2) with
      | none => exact .done (Hidden.start hrest r₁ _)
      | some buf₁ =>
        simp only [BufRead.consume]
        cases BufRead.consume E r₁ (doneUsed byte available.bytes).2 with
        | none => exact .done (Hidden.start hrest r₁ _)
        | some r₂ =>
          dsimp only
          cases usizeAdd read' (doneUsed byte available.bytes).2 with
          | none => exact .done (Hidden.start hrest r₂ _)
          | some read₁ =>
            dsimp only
            split
            · exact .done (Hidden.start hrest r₂ _)
            · exact .next (Hidden.start hrest r₂ _)
    · split
      · exact .next (Hidden.start hrest r₁ _)
      · exact .done (Hidden.start hrest r₁ _)
    · exact .done (Hidden.start hrest r₁ _)

/-! ### `read_to_end` -/

theorem Guard.store_self [Target] (self : Guard) :
    self.store (self.buf.bytes.drop self.len) rfl = self := by
  obtain ⟨⟨bytes, capacity, h1, h2⟩, len, h3⟩ := self
  simp [store, Vec.withTail]

/-- A guard that has room is left as it is. -/
theorem Guard.ensureRoom_again [Target] [Alloc] {self guard : Guard}
    (h : self.ensureRoom = some guard) : guard.ensureRoom = some guard := by
  obtain ⟨-, -, hlt⟩ := ensureRoom_some h
  rw [ensureRoom, if_neg]
  intro he
  rw [Vec.len] at he
  omega

theorem Guard.readInto_interrupted [Target] [Read E R] {schedule rest : List ℕ}
    (h : interruption schedule = some rest) (guard : Guard) (r : R) :
    guard.readInto (E := E) (⟨r, schedule⟩ : Interrupting R)
      = (⟨r, rest⟩, guard, .err (Error.ofErrorKind .interrupted)) := by
  have hread : Read.read (E := E) (⟨r, schedule⟩ : Interrupting R) (guard.buf.bytes.drop guard.len)
      = (⟨r, rest⟩, guard.buf.bytes.drop guard.len, .err (Error.ofErrorKind .interrupted)) := by
    simp only [Read.read, h]
  simp only [readInto, hread, store_self]

theorem Guard.readInto_answered [Target] [Read E R] {schedule : List ℕ}
    (h : interruption schedule = none) (guard : Guard) (r : R) :
    guard.readInto (E := E) (⟨r, schedule⟩ : Interrupting R)
      = (⟨(guard.readInto (E := E) r).1, schedule.tail⟩, (guard.readInto r).2) := by
  have hread : Read.read (E := E) (⟨r, schedule⟩ : Interrupting R) (guard.buf.bytes.drop guard.len)
      = (⟨(Read.read (E := E) r (guard.buf.bytes.drop guard.len)).1, schedule.tail⟩,
        (Read.read r (guard.buf.bytes.drop guard.len)).2) := by
    simp only [Read.read, h]
  simp only [readInto, hread]

/-- `read_to_end` goes round over an interruption.  The vector may have been grown for the
call that was interrupted; it is not grown again. -/
theorem readToEnd_agree [Target] [Alloc] [Read E R] {schedule : List ℕ} (h : Quiet E schedule)
    (r : R) (buf : Vec) :
    Loop.Agree (Hidden E) (fun n => readToEnd (E := E) n r buf)
      (fun n => readToEnd (E := E) n (⟨r, schedule⟩ : Interrupting R) buf) := by
  refine Loop.loop_stutter
    (fun s s' => s'.1.inner = s.1 ∧ Quiet E s'.1.schedule ∧
      (s'.2 = s.2 ∨ s.2.ensureRoom = some s'.2))
    (Hidden E) (fun s => s.1.schedule.sum) ?_ ⟨rfl, h, Or.inl rfl⟩
  intro a b hab
  obtain ⟨r, guard⟩ := a
  obtain ⟨⟨r', schedule⟩, guard'⟩ := b
  obtain ⟨hr, hq, hg⟩ := hab
  simp only at hr hq hg
  subst hr
  cases hroom : guard.ensureRoom with
  | none =>
    rw [hroom] at hg
    rcases hg with rfl | hg
    · apply Or.inr
      simp only [readToEndBody, hroom]
      exact .done (Hidden.start hq r' _)
    · cases hg
  | some g =>
    have hroom' : guard'.ensureRoom = some g := by
      rcases hg with rfl | hg
      · exact hroom
      · rw [hroom, Option.some.injEq] at hg
        rw [← hg]
        exact Guard.ensureRoom_again hroom
    rcases hq.next with ⟨rest, hi, hknown, hrest, hlt⟩ | ⟨hi, hrest⟩
    · refine Or.inl ⟨(⟨r', rest⟩, g), ?_, ⟨rfl, hrest, Or.inr rfl⟩, hlt⟩
      simp only [readToEndBody, hroom', Guard.readInto_interrupted hi, readToEndAnswer,
        if_pos hknown]
    · apply Or.inr
      simp only [readToEndBody, hroom, hroom', Guard.readInto_answered hi]
      rcases g.readInto (E := E) r' with ⟨r₁, g₁, (_ | n) | e | _⟩
      · exact .done (Hidden.start hrest r₁ _)
      · simp only [readToEndAnswer_succ]
        split
        · exact .next ⟨rfl, hrest, Or.inl rfl⟩
        · exact .done (Hidden.start hrest r₁ _)
      · simp only [readToEndAnswer]
        split
        · exact .next ⟨rfl, hrest, Or.inl rfl⟩
        · exact .done (Hidden.start hrest r₁ _)
      · exact .done (Hidden.start hrest r₁ _)

/-! ### `copy` -/

/-- The rest of a turn of `stack_copy`, after `write_all`. -/
def afterWriteAll [Target] (read : R) (buffer : List UInt8) (written : UInt64) (len : ℕ) :
    W × Outcome E Unit → Loop.Step (R × W × List UInt8 × UInt64) (R × W × Outcome E UInt64)
  | (write, .ok ()) =>
    match U64.add written (U64.ofUsize len) with
    | some written => .next (read, write, buffer, written)
    | none => .done (read, write, .panic)
  | (write, .err e) => .done (read, write, .err e)
  | (write, .panic) => .done (read, write, .panic)

theorem stackCopyBody_ok [Target] [Read E R] [Write E W] {read read' : R} {buffer buffer' : List UInt8}
    {len : ℕ} (hr : Read.read read buffer = (read', buffer', (.ok (len + 1) : Outcome E ℕ)))
    (hlen : len + 1 ≤ buffer'.length) (fuel : ℕ) (write : W) (written : UInt64) :
    stackCopyBody (E := E) fuel (read, write, buffer, written)
      = (writeAll fuel write (buffer'.take (len + 1))).map
          (afterWriteAll read' buffer' written (len + 1)) := by
  simp only [stackCopyBody, hr, if_pos hlen]
  rcases writeAll (E := E) fuel write (buffer'.take (len + 1)) with _ | ⟨write', _ | e | _⟩
  · rfl
  · simp only [Option.map_some, afterWriteAll]
    cases U64.add written (U64.ofUsize (len + 1)) <;> rfl
  · rfl
  · rfl

/-- More fuel never changes what a turn comes to. -/
theorem stackCopyBody_mono [Target] [Read E R] [Write E W] (s : R × W × List UInt8 × UInt64) :
    Loop.Mono fun n => stackCopyBody (E := E) n s := by
  obtain ⟨read, write, buffer, written⟩ := s
  rcases hr : Read.read (E := E) read buffer with ⟨read', buffer', (_ | len) | e | _⟩
  · simp only [stackCopyBody, hr]
    exact Loop.mono_const _
  · by_cases hlen : len + 1 ≤ buffer'.length
    · simp only [stackCopyBody_ok hr hlen]
      exact (writeAll_mono _ _).map _
    · simp only [stackCopyBody, hr, if_neg hlen]
      exact Loop.mono_const _
  · simp only [stackCopyBody, hr]
    exact Loop.mono_const _
  · simp only [stackCopyBody, hr]
    exact Loop.mono_const _

/-- The same states of `copy` but for the interruptions still to come. -/
def HiddenCopy (E : Type) [ErrorImpl E] {α : Type} (s : R × W × α)
    (s' : Interrupting R × Interrupting W × α) : Prop :=
  s'.1.inner = s.1 ∧ Quiet E s'.1.schedule ∧ Hidden E s.2 s'.2

theorem HiddenCopy.start {α : Type} {rs ws : List ℕ} (hrs : Quiet E rs) (hws : Quiet E ws) (r : R)
    (w : W) (a : α) : HiddenCopy E (r, w, a) (⟨r, rs⟩, ⟨w, ws⟩, a) := ⟨rfl, hrs, .start hws w a⟩

theorem afterWriteAll_rel [Target] {rs : List ℕ} (hrs : Quiet E rs) (read : R)
    (buffer : List UInt8) (written : UInt64) (len : ℕ) {res : W × Outcome E Unit}
    {res' : Interrupting W × Outcome E Unit} (h : Hidden E res res') :
    Loop.StepRel (HiddenCopy E) (HiddenCopy E) (afterWriteAll read buffer written len res)
      (afterWriteAll (⟨read, rs⟩ : Interrupting R) buffer written len res') := by
  obtain ⟨w, o⟩ := res
  obtain ⟨⟨w', ws⟩, o'⟩ := res'
  obtain ⟨hw, hws, ho⟩ := h
  simp only at hw hws ho
  subst hw ho
  rcases o' with _ | e | _
  · simp only [afterWriteAll]
    cases U64.add written (U64.ofUsize len) with
    | some written => exact .next (.start hrs hws read w' _)
    | none => exact .done (.start hrs hws read w' _)
  · exact .done (.start hrs hws read w' _)
  · exact .done (.start hrs hws read w' _)

/-- `copy` goes round over the interruptions of its reader, and `write_all` over those of its
writer. -/
theorem stackCopy_agree [Target] [Read E R] [Write E W] {rs ws : List ℕ} (hrs : Quiet E rs)
    (hws : Quiet E ws) (r : R) (w : W) :
    Loop.Agree (HiddenCopy E) (fun n => stackCopy (E := E) n r w)
      (fun n => stackCopy (E := E) n (⟨r, rs⟩ : Interrupting R) (⟨w, ws⟩ : Interrupting W)) := by
  refine Loop.run_stutter stackCopyBody_mono stackCopyBody_mono (HiddenCopy E) (HiddenCopy E)
    (fun s => s.1.schedule.sum) ?_ (.start hrs hws r w _)
  intro a b hab
  obtain ⟨r, w, buffer, written⟩ := a
  obtain ⟨⟨r', rs⟩, ⟨w', ws⟩, buffer', written'⟩ := b
  obtain ⟨hr, hrs, hw, hws, hb⟩ := hab
  simp only [Prod.mk.injEq] at hr hrs hw hws hb
  obtain ⟨rfl, rfl⟩ := hb
  subst hr hw
  rcases hrs.next with ⟨rest, hi, hknown, hrest, hlt⟩ | ⟨hi, hrest⟩
  · refine Or.inl ⟨(⟨r', rest⟩, ⟨w', ws⟩, buffer', written'), ?_,
      .start hrest hws r' w' _, hlt⟩
    intro n
    simp [stackCopyBody, Read.read, hi, hknown]
  · apply Or.inr
    have hread : ∀ res, Read.read (E := E) r' buffer' = res →
        Read.read (E := E) (⟨r', rs⟩ : Interrupting R) buffer' = (⟨res.1, rs.tail⟩, res.2) := by
      intro res heq
      subst heq
      simp only [Read.read, hi]
    rcases hr : Read.read (E := E) r' buffer' with ⟨r₁, buf₁, (_ | len) | e | _⟩
    · simp only [stackCopyBody, hr, hread _ hr]
      exact .const (.done (.start hrest hws r₁ w' _))
    · by_cases hlen : len + 1 ≤ buf₁.length
      · simp only [stackCopyBody_ok hr hlen, stackCopyBody_ok (hread _ hr) hlen]
        exact (writeAll_agree hws w' _).map fun _ _ h => afterWriteAll_rel hrest _ _ _ _ h
      · simp only [stackCopyBody, hr, hread _ hr, if_neg hlen]
        exact .const (.done (.start hrest hws r₁ w' _))
    · simp only [stackCopyBody, hr, hread _ hr]
      split
      · exact .const (.next (.start hrest hws r₁ w' _))
      · exact .const (.done (.start hrest hws r₁ w' _))
    · simp only [stackCopyBody, hr, hread _ hr]
      exact .const (.done (.start hrest hws r₁ w' _))

end

/-! ### Transparency -/

section

variable [Target] [Alloc]

/-- The same end: the same result, the same bytes, and the same stream behind the
interruptions. -/
def SameEnd {R α : Type} (a : R × α) (b : Interrupting R × α) : Prop :=
  b.1.inner = a.1 ∧ b.2 = a.2

def SameEnds {R W α : Type} (a : R × W × α) (b : Interrupting R × Interrupting W × α) : Prop :=
  b.1.inner = a.1 ∧ SameEnd a.2 b.2

/-- In the configuration, interruptions of readers by `rs` and of writers by `ws` cannot be
seen, whatever the readers and writers do. -/
structure Transparent (io : StdIo) (features : Features) (rs ws : List ℕ) : Prop where
  readExact : ∀ (R : Type) [Read (features.Error io) R] (r : R) (buf : List UInt8),
    Loop.Agree SameEnd (fun n => readExact (E := features.Error io) n r buf)
      (fun n => readExact (E := features.Error io) n (⟨r, rs⟩ : Interrupting R) buf)
  writeAll : ∀ (W : Type) [Write (features.Error io) W] (w : W) (buf : List UInt8),
    Loop.Agree SameEnd (fun n => writeAll (E := features.Error io) n w buf)
      (fun n => writeAll (E := features.Error io) n (⟨w, ws⟩ : Interrupting W) buf)
  copy : ∀ (R W : Type) [Read (features.Error io) R] [Write (features.Error io) W] (r : R) (w : W),
    Loop.Agree SameEnds (fun n => copy (E := features.Error io) n r w)
      (fun n => copy (E := features.Error io) n (⟨r, rs⟩ : Interrupting R)
        (⟨w, ws⟩ : Interrupting W))
  readToEnd : features ≠ .none → ∀ (R : Type) [Read (features.Error io) R] (r : R) (buf : Vec),
    Loop.Agree SameEnd (fun n => readToEnd (E := features.Error io) n r buf)
      (fun n => readToEnd (E := features.Error io) n (⟨r, rs⟩ : Interrupting R) buf)
  readUntil : features ≠ .none →
    ∀ (R : Type) [BufRead (features.Error io) R] (r : R) (byte : UInt8) (buf : Vec),
    Loop.Agree SameEnd (fun n => readUntil (E := features.Error io) n r byte buf)
      (fun n => readUntil (E := features.Error io) n (⟨r, rs⟩ : Interrupting R) byte buf)

omit [Target] [Alloc] in
theorem Hidden.sameEnd {E : Type} [ErrorImpl E] {R α : Type} {a : R × α} {b : Interrupting R × α}
    (h : Hidden E a b) : SameEnd a b := ⟨h.1, h.2.2⟩

/-- Interruptions that are known, or that there are none of, cannot be seen. -/
theorem Transparent.of_quiet {io : StdIo} {features : Features} {rs ws : List ℕ}
    (hrs : Quiet (features.Error io) rs) (hws : Quiet (features.Error io) ws) :
    Transparent io features rs ws where
  readExact _ _ r buf := (readExact_agree hrs r buf).imp fun _ _ h => h.sameEnd
  writeAll _ _ w buf := (writeAll_agree hws w buf).imp fun _ _ h => h.sameEnd
  copy _ _ _ _ r w := (stackCopy_agree hrs hws r w).imp fun _ _ h => ⟨h.1, h.2.2.sameEnd⟩
  readToEnd _ _ _ r buf := (readToEnd_agree hrs r buf).imp fun _ _ h => h.sameEnd
  readUntil _ _ _ r byte buf := (readUntil_agree hrs r byte buf).imp fun _ _ h => h.sameEnd

end

/-! ### Interruptions that are not known -/

section

variable [Target] [Alloc]

/-- **The first interruption that a loop meets ends it**, for every reader and every writer: when the
loop has come to where the next answer is an interruption, that is what it gives back. -/
structure EndsInterrupted (E : Type) [ErrorImpl E] : Prop where
  readExact : ∀ (R : Type) [Read E R] (r r₁ r₂ : R) (buf filled rest rest' : List UInt8),
    Loop.Reaches (fun s x => readExactBody (E := E) s = x) (r, [], buf) (r₁, filled, rest) →
    rest ≠ [] → Read.read r₁ rest = (r₂, rest', .err (Error.ofErrorKind .interrupted : E)) →
    Loop.Returns (fun n => readExact (E := E) n r buf)
      (r₂, filled ++ rest', .err (Error.ofErrorKind .interrupted))
  writeAll : ∀ (W : Type) [Write E W] (w w₁ w₂ : W) (buf rest : List UInt8),
    Loop.Reaches (fun s x => writeAllBody (E := E) s = x) (w, buf) (w₁, rest) → rest ≠ [] →
    Write.write w₁ rest = (w₂, .err (Error.ofErrorKind .interrupted : E)) →
    Loop.Returns (fun n => writeAll (E := E) n w buf) (w₂, .err (Error.ofErrorKind .interrupted))
  copy_read : ∀ (R W : Type) [Read E R] [Write E W] (r r₁ r₂ : R) (w w₁ : W)
    (buffer buffer' : List UInt8) (written : UInt64),
    Loop.Reaches (fun s x => Loop.Returns (fun n => stackCopyBody (E := E) n s) x)
      (r, w, List.replicate defaultStackBufferSize 0, 0) (r₁, w₁, buffer, written) →
    Read.read r₁ buffer = (r₂, buffer', .err (Error.ofErrorKind .interrupted : E)) →
    Loop.Returns (fun n => copy (E := E) n r w) (r₂, w₁, .err (Error.ofErrorKind .interrupted))
  copy_write : ∀ (R W : Type) [Read E R] [Write E W] (r r₁ r₂ : R) (w w₁ w₂ w₃ : W)
    (buffer buffer' rest : List UInt8) (written : UInt64) (len : ℕ),
    Loop.Reaches (fun s x => Loop.Returns (fun n => stackCopyBody (E := E) n s) x)
      (r, w, List.replicate defaultStackBufferSize 0, 0) (r₁, w₁, buffer, written) →
    Read.read r₁ buffer = (r₂, buffer', (.ok (len + 1) : Outcome E ℕ)) →
    len + 1 ≤ buffer'.length →
    Loop.Reaches (fun s x => writeAllBody (E := E) s = x) (w₁, buffer'.take (len + 1)) (w₂, rest) →
    rest ≠ [] → Write.write w₂ rest = (w₃, .err (Error.ofErrorKind .interrupted : E)) →
    Loop.Returns (fun n => copy (E := E) n r w) (r₂, w₃, .err (Error.ofErrorKind .interrupted))
  readToEnd : ∀ (R : Type) [Read E R] (r r₁ r₂ : R) (buf : Vec) (guard g g' : Guard),
    Loop.Reaches (fun s x => readToEndBody (E := E) buf.len s = x) (r, Guard.new buf) (r₁, guard) →
    guard.ensureRoom = some g →
    g.readInto r₁ = (r₂, g', .err (Error.ofErrorKind .interrupted : E)) →
    Loop.Returns (fun n => readToEnd (E := E) n r buf)
      (r₂, g'.drop, .err (Error.ofErrorKind .interrupted))
  readUntil : ∀ (R : Type) [BufRead E R] (r r₁ r₂ : R) (byte : UInt8) (buf buf' : Vec) (read : ℕ),
    Loop.Reaches (fun s x => readUntilBody (E := E) byte s = x) (r, buf, 0) (r₁, buf', read) →
    BufRead.fillBuf r₁ = (r₂, .err (Error.ofErrorKind .interrupted : E)) →
    Loop.Returns (fun n => readUntil (E := E) n r byte buf)
      (r₂, buf', .err (Error.ofErrorKind .interrupted))

theorem endsInterrupted {E : Type} [ErrorImpl E]
    (hE : Error.isInterrupted (Error.ofErrorKind .interrupted : E) = false) : EndsInterrupted E where
  readExact R _ r r₁ r₂ buf filled rest rest' hmet hne hread := by
    apply hmet.returns_loop
    simp [readExactBody, hne, hread, hE]
  writeAll W _ w w₁ w₂ buf rest hmet hne hwrite := by
    apply hmet.returns_loop
    simp [writeAllBody, hne, hwrite, hE]
  copy_read R W _ _ r r₁ r₂ w w₁ buffer buffer' written hmet hread := by
    refine (Loop.returns_run stackCopyBody_mono).mpr (hmet.ends (.done ⟨0, ?_⟩))
    simp [stackCopyBody, hread, hE]
  copy_write R W _ _ r r₁ r₂ w w₁ w₂ w₃ buffer buffer' rest written len hmet hread hlen hall hne
      hwrite := by
    have hdone : writeAllBody (E := E) (w₂, rest)
        = .done (w₃, .err (Error.ofErrorKind .interrupted)) := by
      simp [writeAllBody, hne, hwrite, hE]
    obtain ⟨n, hn⟩ := hall.returns_loop hdone
    have hn' : writeAll (E := E) n w₁ (buffer'.take (len + 1))
        = some (w₃, .err (Error.ofErrorKind .interrupted)) := hn
    refine (Loop.returns_run stackCopyBody_mono).mpr (hmet.ends (.done ⟨n, ?_⟩))
    simp only [stackCopyBody_ok hread hlen, hn', Option.map_some, afterWriteAll]
  readToEnd R _ r r₁ r₂ buf guard g g' hmet hroom hread := by
    apply hmet.returns_loop
    simp [readToEndBody, hroom, hread, readToEndAnswer, hE]
  readUntil R _ r r₁ r₂ byte buf buf' read hmet hfill := by
    apply hmet.returns_loop
    simp [readUntilBody, hfill, hE]

/-- Without `std` it is so. -/
theorem endsInterrupted_of_ne_std (io : StdIo) (hio : io.Lawful) {features : Features}
    (h : features ≠ .std) : EndsInterrupted (features.Error io) := by
  apply endsInterrupted
  by_contra hE
  have hknown := isInterrupted_fromKind io hio features .interrupted
  exact h (hknown.mp (eq_true_of_ne_false hE)).1

end

/-- A reader and writer that takes one byte at a time. -/
structure Trickle where
  deriving DecidableEq

def Trickle.answer {E : Type} : List UInt8 → Outcome E ℕ
  | [] => .ok 0
  | _ :: _ => .ok 1

section

variable {E : Type} [ErrorImpl E]

instance : Read E Trickle where
  read self buf := (self, buf, Trickle.answer buf)
  read_length _ _ := rfl

instance : Write E Trickle where
  write self buf := (self, Trickle.answer buf)
  flush self := (self, .ok ())

/-- Over the trickle, the loop never fails. -/
theorem readExact_trickle_ne_err {n : ℕ} {buf : List UInt8} {res : Trickle × List UInt8 × Outcome E Unit}
    (h : readExact n (⟨⟩ : Trickle) buf = some res) (e : E) : res.2.2 ≠ .err e := by
  refine Loop.loop_invariant (fun _ => True) (fun res => ∀ e, res.2.2 ≠ .err e) (fun _ _ _ _ => trivial)
    ?_ trivial h e
  intro s res _ hb e
  obtain ⟨r, filled, _ | ⟨b, buf⟩⟩ := s
  · cases hb
    exact nofun
  · simp [readExactBody, Read.read, Trickle.answer] at hb

theorem writeAll_trickle_ne_err {n : ℕ} {buf : List UInt8} {res : Trickle × Outcome E Unit}
    (h : writeAll n (⟨⟩ : Trickle) buf = some res) (e : E) : res.2 ≠ .err e := by
  refine Loop.loop_invariant (fun _ => True) (fun res => ∀ e, res.2 ≠ .err e) (fun _ _ _ _ => trivial)
    ?_ trivial h e
  intro s res _ hb e
  obtain ⟨w, _ | ⟨b, buf⟩⟩ := s
  · cases hb
    exact nofun
  · simp [writeAllBody, Write.write, Trickle.answer] at hb

/-- Over a buffer that is long enough the first interruption is met. -/
theorem readExact_trickle_reaches {schedule : List ℕ} (h : ∃ k ∈ schedule, k ≠ 0) :
    ∀ filled buf : List UInt8, schedule.length ≤ buf.length → ∃ k ks filled' rest,
      Loop.Reaches (fun s x => readExactBody (E := E) s = x)
        ((⟨⟨⟩, schedule⟩ : Interrupting Trickle), filled, buf) (⟨⟨⟩, (k + 1) :: ks⟩, filled', rest) ∧
      rest ≠ [] := by
  induction schedule with
  | nil => simp at h
  | cons k ks ih =>
    intro filled l hlen
    rcases l with _ | ⟨b, buf⟩
    · simp at hlen
    · cases k with
      | zero =>
        have hks : ∃ k ∈ ks, k ≠ 0 := by simpa using h
        obtain ⟨k, ks', filled', rest, hreaches, hne⟩ := ih hks (filled ++ [b]) buf (by simpa using hlen)
        refine ⟨k, ks', filled', rest, .head ?_ hreaches, hne⟩
        simp [readExactBody, Read.read, interruption, Trickle.answer]
      | succ k => exact ⟨k, ks, filled, b :: buf, .refl, List.cons_ne_nil b buf⟩

theorem writeAll_trickle_reaches {schedule : List ℕ} (h : ∃ k ∈ schedule, k ≠ 0) :
    ∀ buf : List UInt8, schedule.length ≤ buf.length → ∃ k ks rest,
      Loop.Reaches (fun s x => writeAllBody (E := E) s = x)
        ((⟨⟨⟩, schedule⟩ : Interrupting Trickle), buf) (⟨⟨⟩, (k + 1) :: ks⟩, rest) ∧ rest ≠ [] := by
  induction schedule with
  | nil => simp at h
  | cons k ks ih =>
    intro l hlen
    rcases l with _ | ⟨b, buf⟩
    · simp at hlen
    · cases k with
      | zero =>
        have hks : ∃ k ∈ ks, k ≠ 0 := by simpa using h
        obtain ⟨k, ks', rest, hreaches, hne⟩ := ih hks buf (by simpa using hlen)
        refine ⟨k, ks', rest, .head ?_ hreaches, hne⟩
        simp [writeAllBody, Write.write, interruption, Trickle.answer]
      | succ k => exact ⟨k, ks, b :: buf, .refl, List.cons_ne_nil b buf⟩

end

section

variable [Target] [Alloc]

/-- Where interruptions are not known, one that is put in can be seen. -/
theorem Transparent.quiet {io : StdIo} {features : Features} {rs ws : List ℕ}
    (h : Transparent io features rs ws)
    (hE : Error.isInterrupted (Error.ofErrorKind .interrupted : features.Error io) = false) :
    (∀ k ∈ rs, k = 0) ∧ ∀ k ∈ ws, k = 0 := by
  constructor
  · by_contra hseen
    simp only [not_forall] at hseen
    obtain ⟨k, hk, hne⟩ := hseen
    obtain ⟨k', ks, filled, rest, hmet, hrest⟩ := readExact_trickle_reaches (E := features.Error io)
      ⟨k, hk, hne⟩ [] (List.replicate rs.length 0) (by simp)
    have hends := (endsInterrupted hE).readExact _ _ _ ⟨⟨⟩, k' :: ks⟩ _ _ _ rest hmet hrest rfl
    obtain ⟨⟨r', buf'', out⟩, ⟨n, hn⟩, hsame⟩ :=
      (h.readExact Trickle ⟨⟩ (List.replicate rs.length 0)).back _ hends
    exact readExact_trickle_ne_err hn (Error.ofErrorKind .interrupted)
      (congrArg Prod.snd hsame.2).symm
  · by_contra hseen
    simp only [not_forall] at hseen
    obtain ⟨k, hk, hne⟩ := hseen
    obtain ⟨k', ks, rest, hmet, hrest⟩ := writeAll_trickle_reaches (E := features.Error io)
      ⟨k, hk, hne⟩ (List.replicate ws.length 0) (by simp)
    have hends := (endsInterrupted hE).writeAll _ _ _ ⟨⟨⟩, k' :: ks⟩ _ _ hmet hrest rfl
    obtain ⟨⟨w', out⟩, ⟨n, hn⟩, hsame⟩ :=
      (h.writeAll Trickle ⟨⟩ (List.replicate ws.length 0)).back _ hends
    exact writeAll_trickle_ne_err hn _ hsame.2.symm

/-- **Interruptions cannot be seen exactly in the `std` configuration**, or where none are
put in. -/
theorem interruptions_transparent_iff (io : StdIo) (hio : io.Lawful) (features : Features)
    (rs ws : List ℕ) :
    Transparent io features rs ws ↔
      features = .std ∨ (∀ k ∈ rs, k = 0) ∧ ∀ k ∈ ws, k = 0 := by
  have hknown := isInterrupted_fromKind io hio features .interrupted
  constructor
  · intro h
    by_cases hstd : features = .std
    · exact Or.inl hstd
    · refine Or.inr (h.quiet ?_)
      by_contra hE
      exact hstd (hknown.mp (eq_true_of_ne_false hE)).1
  · intro h'
    rcases h' with hstd | ⟨hrs, hws⟩
    · have hE := hknown.mpr ⟨hstd, rfl⟩
      exact .of_quiet (Or.inl hE) (Or.inl hE)
    · exact .of_quiet (Or.inr hrs) (Or.inr hws)

end

open Machine64

/-- In the `std` configuration, two interruptions in front of the first answer. -/
theorem interruptions_transparent_std : Transparent StdIo.plain .std [2] [2] :=
  (interruptions_transparent_iff StdIo.plain StdIo.plain_lawful .std [2] [2]).mpr (Or.inl rfl)

/-- Without `std`, an interruption in front of the first answer ends each of the loops. -/
theorem interrupted_loops_fail :
    let e : ImplsNostd.Error := ⟨.kind .interrupted⟩
    (readExact 3 (⟨⟩ : Trickle) [0] = some (⟨⟩, [0], (.ok () : Outcome ImplsNostd.Error Unit)) ∧
      readExact 3 (⟨⟨⟩, [1]⟩ : Interrupting Trickle) [0] = some (⟨⟨⟩, [0]⟩, [0], .err e)) ∧
    (writeAll 3 (⟨⟩ : Trickle) [0] = some (⟨⟩, (.ok () : Outcome ImplsNostd.Error Unit)) ∧
      writeAll 3 (⟨⟨⟩, [1]⟩ : Interrupting Trickle) [0] = some (⟨⟨⟩, [0]⟩, .err e)) ∧
    (copy 3 (⟨⟩ : Empty) (⟨⟩ : Sink) = some (⟨⟩, ⟨⟩, (.ok 0 : Outcome ImplsNostd.Error UInt64)) ∧
      copy 3 (⟨⟨⟩, [1]⟩ : Interrupting Empty) (⟨⟨⟩, []⟩ : Interrupting Sink)
        = some (⟨⟨⟩, [0]⟩, ⟨⟨⟩, []⟩, .err e)) ∧
    (readToEnd 3 (⟨⟩ : Empty) Vec.new
        = some (⟨⟩, ⟨[], 32, by decide, by decide⟩, (.ok 0 : Outcome ImplsNostd.Error ℕ)) ∧
      readToEnd 3 (⟨⟨⟩, [1]⟩ : Interrupting Empty) Vec.new
        = some (⟨⟨⟩, [0]⟩, ⟨[], 32, by decide, by decide⟩, .err e)) ∧
    (readUntil 3 (⟨⟩ : Empty) 0 Vec.new
        = some (⟨⟩, Vec.new, (.ok 0 : Outcome ImplsNostd.Error ℕ)) ∧
      readUntil 3 (⟨⟨⟩, [1]⟩ : Interrupting Empty) 0 Vec.new
        = some (⟨⟨⟩, [0]⟩, Vec.new, .err e)) ∧
    ¬ Transparent StdIo.plain .none [1] [1] := by
  refine ⟨by decide +kernel, by decide +kernel, by decide +kernel, by decide +kernel,
    by decide +kernel, fun h => ?_⟩
  exact absurd ((h.quiet rfl).1 1 (by simp)) (by decide)

end NotIo
